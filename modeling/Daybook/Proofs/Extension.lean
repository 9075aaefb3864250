import Daybook.Proofs.Concatenation

/-!
# Extension — modules added at the end

Directives are tried in the order of their modules, so those of modules
that come last are asked only about a line that none before accepts. The
walk through a text with the added modules goes with the walk without
them until that one comes to such a line (`GoesWith`), whatever the added
directives read and whatever flaws they would meet. Where no line is left
to recovery, the two walks are one.
-/

namespace Daybook

/-- The configuration with more modules, which come last. -/
def Configuration.extend (config : Configuration) (more : List Module) : Configuration :=
  { config with modules := config.modules ++ more }

namespace Grammar

open Daybook.Text

/-- The grammar with more directives, which are tried last. -/
def extend (g : Grammar) (more : List Directive) : Grammar :=
  { g with directives := g.directives ++ more }

variable {g : Grammar} {more : List Directive}

/-- No directive answers at the cursor, so that the line there is left to
recovery. -/
def Recovers (g : Grammar) (c : Cursor) : Prop := firstOf g.registry c g.directives = .absent

/-! ## One line -/

/-- Directives that come later are not asked where an earlier one
answers. -/
theorem firstOf_append {r : Registry} {c : Cursor} {ds : List Directive}
    (h : firstOf r c ds ≠ .absent) : firstOf r c (ds ++ more) = firstOf r c ds := by
  induction ds with
  | nil => exact absurd rfl h
  | cons d ds ih =>
      rw [firstOf] at h
      rw [List.cons_append, firstOf, firstOf]
      cases hd : d.read r c with
      | absent =>
          rw [hd] at h
          exact ih h
      | found e n => rfl
      | broken f => rfl

/-- With more directives the answer at a line is the same, unless the line
is left to recovery. -/
theorem entryAt_extend {c : Cursor} (h : ¬g.Recovers c) :
    (g.extend more).entryAt c = g.entryAt c := by
  have hsame : firstOf g.registry c (g.directives ++ more) =
      firstOf g.registry c g.directives := firstOf_append h
  unfold entryAt extend
  rw [hsame]

theorem entryAt_of_recovers {c : Cursor} (h : g.Recovers c) :
    g.entryAt c = .ok (Recovery.entryAt c, Recovery.length c.rest) := by
  rw [entryAt, h]

/-- Among schemas and transactions, none makes an entry that is
unrecognised: such an entry comes from recovery. -/
theorem recovers_iff {p : Shape → Prop} (hshape : g.OfShape p) {c : Cursor} {e : Entry} {n : Nat}
    (he : g.entryAt c = .ok (e, n)) : g.Recovers c ↔ e.isUnrecognised = true := by
  constructor
  · intro h
    rw [entryAt_of_recovers h, Except.ok.injEq, Prod.mk.injEq] at he
    rw [← he.1]
    exact Entry.isUnrecognised_entryAt c
  · intro h
    have hbody : (firstBody g.registry c.rest g.directives).Finds
        fun e _ => e.isUnrecognised = false :=
      firstBody_finds fun d _ => Directive.body_recognised g.registry d c.rest
    rw [Recovers, firstOf_eq hshape]
    rw [entryAt_eq hshape] at he
    cases hf : firstBody g.registry c.rest g.directives with
    | absent => rfl
    | broken f => simp [hf] at he
    | found e' n' =>
        rw [hf] at he hbody
        cases he
        exact absurd (hbody.symm.trans h) (by decide)

/-! ## The whole walk -/

/-- The item's entry is what the grammar reads where the item starts. -/
theorem entryAt_of_mem_items {c : Cursor} {i : Item} (hi : i ∈ (g.items c).1) :
    ∃ n, g.entryAt i.start = .ok (i.entry, n) := by
  induction c using walk_induction g with
  | skip c hg ih =>
      rw [items_gap hg] at hi
      exact ih hi
  | done c hr => simp [items_nil hr] at hi
  | broken c f hg hr he => simp [items_broken hg hr he] at hi
  | stalled c e hg hr he => simp [items_stalled hg hr he] at hi
  | found c e n hg hr he hn ih =>
      rw [items_found hg hr he hn] at hi
      rcases List.mem_cons.1 hi with rfl | hi
      · exact ⟨n, he⟩
      · exact ih hi

/-- The second walk goes with the first until that one comes to a line
that is left to recovery. -/
inductive GoesWith (g : Grammar) :
    List Item × Option Fault → List Item × Option Fault → Prop
  | same (walk : List Item × Option Fault) : GoesWith g walk walk
  | recovered {i : Item} (is : List Item) (fault : Option Fault) (h : g.Recovers i.start)
      (walk : List Item × Option Fault) : GoesWith g (i :: is, fault) walk
  | item (i : Item) {first second : List Item × Option Fault} (h : GoesWith g first second) :
      GoesWith g (i :: first.1, first.2) (i :: second.1, second.2)

theorem GoesWith.eq {first second : List Item × Option Fault} (h : GoesWith g first second)
    (hall : ∀ i ∈ first.1, ¬g.Recovers i.start) : second = first := by
  induction h with
  | same walk => rfl
  | recovered is fault h walk => exact absurd h (hall _ (by simp))
  | item i h ih =>
      have hrest := ih fun j hj => hall j (by simp [hj])
      rw [hrest]

/-- **More directives change nothing before the first line that is left to
recovery.** -/
theorem items_goesWith (g : Grammar) (more : List Directive) (c : Cursor) :
    GoesWith g (g.items c) ((g.extend more).items c) := by
  induction c using walk_induction g with
  | skip c hg ih =>
      rw [items_gap hg, items_gap hg]
      exact ih
  | done c hr =>
      rw [items_nil hr, items_nil hr]
      exact .same _
  | broken c f hg hr he =>
      have hknown : ¬g.Recovers c := by
        intro h
        rw [entryAt_of_recovers h] at he
        cases he
      rw [items_broken hg hr he, items_broken hg hr ((entryAt_extend hknown).trans he)]
      exact .same _
  | stalled c e hg hr he =>
      -- a line that is recovered is taken whole, so the walk does not stall there
      have hknown : ¬g.Recovers c := by
        intro h
        have hline := Recovery.lineLength_le_length c.rest
        have hpos := lineLength_pos hr
        rw [entryAt_of_recovers h, Except.ok.injEq, Prod.mk.injEq] at he
        omega
      rw [items_stalled hg hr he, items_stalled hg hr ((entryAt_extend hknown).trans he)]
      exact .same _
  | found c e n hg hr he hn ih =>
      rw [items_found hg hr he hn]
      by_cases h : g.Recovers c
      · exact .recovered _ _ h _
      · rw [items_found hg hr ((entryAt_extend h).trans he) hn]
        exact .item _ ih

/-! ## Configurations -/

theorem assemble_eq_ok_iff {config : Configuration} {source : String} {g : Grammar} :
    assemble config source = .ok g ↔ Module.missing config.modules = [] ∧
      g = ⟨source, Module.allDirectives config.modules,
        ⟨FieldReader.builtin.overlay config.readers, Pairs.collect config.checks⟩⟩ := by
  rw [assemble]
  cases Module.missing config.modules with
  | nil => simp [eq_comm]
  | cons m ms => simp

/-- The directives of added modules come last. -/
theorem assemble_extend {config : Configuration} {more : List Module} {source : String}
    {g g' : Grammar} (hg : assemble config source = .ok g)
    (hg' : assemble (config.extend more) source = .ok g') :
    g' = g.extend (Module.allDirectives more) := by
  obtain ⟨-, rfl⟩ := assemble_eq_ok_iff.1 hg
  obtain ⟨-, rfl⟩ := assemble_eq_ok_iff.1 hg'
  simp [extend, Configuration.extend, Module.allDirectives]

/-- **Modules may be added without harm.** When a text is read without
recovery, the grammar with more modules, which come last and whose
dependencies are met, reads the same entries, whatever the directives of
those modules would read. -/
theorem parse_extend {config : Configuration} {more : List Module} {source : String}
    {g g' : Grammar} (hg : assemble config source = .ok g)
    (hg' : assemble (config.extend more) source = .ok g') {text : String} {es : List Entry}
    (hparse : g.parse text = .ok es) (hall : ∀ i ∈ (g.walk text).1, ¬g.Recovers i.start) :
    g'.parse text = .ok es := by
  obtain rfl := assemble_extend hg hg'
  have hwalk : (g.extend (Module.allDirectives more)).walk text = g.walk text :=
    (items_goesWith g _ (.start g.source text.toList)).eq hall
  rw [parse, hwalk]
  exact hparse

/-- A module whose first directive takes all that is left of a text and
whose second one meets a flaw wherever it is asked. -/
def greedy : Module :=
  { name := "greedy"
    directives := [
      .custom "all" fun c => .found ⟨"", [], .plain "all" []⟩ c.rest.length,
      .custom "flaw" fun _ => .broken .dateNotText]
    dependencies := ["core-beancount"] }

/-- Two entries, one of them with lines below it. -/
def closedAndPaid : String :=
  "2024-01-01 close Cash\n; paid\n2024-01-02 * \"Lunch\"\n  Cash -5 USD\n  Food\n"

theorem parse_extend_greedy :
    ∃ es, es.length = 2 ∧ (Builtin.grammar "books").parse closedAndPaid = .ok es ∧
      ((Builtin.grammar "books").extend greedy.directives).parse closedAndPaid = .ok es := by
  have hparse : ∃ a b, (Builtin.grammar "books").parse closedAndPaid = .ok [a, b] ∧
      a.isUnrecognised = false ∧ b.isUnrecognised = false :=
    ⟨_, _, by with_unfolding_all rfl, rfl, rfl⟩
  obtain ⟨a, b, hparse, ha, hb⟩ := hparse
  refine ⟨[a, b], rfl, hparse, ?_⟩
  have hmap := (parse_eq_ok_iff.1 hparse).2
  refine @parse_extend ⟨Builtin.modules, [], []⟩ [greedy] "books" _ _ rfl rfl _ _ hparse ?_
  intro i hi hrecovers
  obtain ⟨n, he⟩ := entryAt_of_mem_items hi
  have hunrecognised := (recovers_iff (Builtin.ofShape_grammar "books") he).1 hrecovers
  have hmem : i.entry ∈ [a, b] := hmap ▸ List.mem_map_of_mem hi
  rcases List.mem_pair.1 hmem with hi | hi
  · rw [hi, ha] at hunrecognised
    cases hunrecognised
  · rw [hi, hb] at hunrecognised
    cases hunrecognised

end Grammar
end Daybook
