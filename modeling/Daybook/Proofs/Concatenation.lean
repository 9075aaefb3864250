import Daybook.Proofs.Builtin

/-!
# Concatenation — texts put one below the other

When every line of the upper text is ended and the lower text starts at
the margin, the two are read as if each were read alone, and only the
lines that the entries of the lower text name are counted from the top
of the whole. The walk through the whole first follows the walk through
the upper text (`items_append`), then the one through the lower text, a
number of lines further down (`items_lowered`).
-/

namespace Daybook

open Daybook.Text Daybook.Reading

namespace Pairs

/-- Of two values set under one name the second stays. -/
theorem put_put {α : Type} (ps : Pairs α) (name : String) (v w : α) :
    (ps.put name v).put name w = ps.put name w := by
  induction ps with
  | nil => simp [put]
  | cons p ps ih =>
      by_cases h : p.1 = name
      · simp [put, h]
      · simp [put, h, ih]

end Pairs

/-! ## Places further down -/

namespace Entry

/-- The warning of a line that no directive accepts. -/
def notice (line column : Nat) : String :=
  "Unknown directive at line " ++ toString line ++ ", column " ++ toString column

/-- Stamps a warning into the metadata of the entry. -/
def warnedOf (e : Entry) (warning : String) : Entry :=
  { e with metadata := e.metadata.put "warning" (.text warning) }

/-- The second entry is the first, read `n` lines further down: its place
names a later line, and so does its warning if no directive accepted it.
Nothing else differs. -/
inductive Lowered (source : String) (n : Nat) : Entry → Entry → Prop
  | read {e : Entry} {line : Nat} (known : e.isUnrecognised = false)
      (location : e.location = some (.text (place source line))) :
      Lowered source n e (e.locatedAt (place source (line + n)))
  | recovered {e : Entry} {line column : Nat} (unknown : e.isUnrecognised = true)
      (location : e.location = some (.text (place source line)))
      (warning : e.warning = some (.text (notice line column))) :
      Lowered source n e
        ((e.warnedOf (notice (line + n) column)).locatedAt (place source (line + n)))

theorem location_locatedAt (e : Entry) (l : String) :
    (e.locatedAt l).location = some (.text l) := Pairs.get?_put_self ..

theorem locatedAt_locatedAt (e : Entry) (l m : String) :
    (e.locatedAt l).locatedAt m = e.locatedAt m := by
  rw [locatedAt, locatedAt, locatedAt, Pairs.put_put]

theorem Lowered.locatedAt {e : Entry} (h : e.isUnrecognised = false) {n : Nat} {c d : Cursor}
    (hb : c.Below n d) : Lowered c.source n (e.locatedAt c.location) (e.locatedAt d.location) := by
  have hd : d.location = place c.source (c.line + n) := by
    rw [← hb.line, ← hb.source]
    rfl
  have hc : (e.locatedAt c.location).location = some (.text (place c.source c.line)) :=
    location_locatedAt e c.location
  have hl : Lowered c.source n (e.locatedAt c.location) _ := .read h hc
  rwa [locatedAt_locatedAt, ← hd] at hl

theorem isUnrecognised_entryAt (c : Cursor) : (Recovery.entryAt c).isUnrecognised = true := by
  unfold Recovery.entryAt
  rfl

theorem location_entryAt (c : Cursor) :
    (Recovery.entryAt c).location = some (.text c.location) := by
  unfold Recovery.entryAt
  rfl

theorem warning_entryAt (c : Cursor) :
    (Recovery.entryAt c).warning = some (.text (notice c.line c.column)) := by
  unfold Recovery.entryAt
  rfl

/-- Of a recovered line, the place is all that depends on it. -/
theorem entryAt_below {n : Nat} {c d : Cursor} (hb : c.Below n d) :
    Recovery.entryAt d = ((Recovery.entryAt c).warnedOf
      (notice (c.line + n) c.column)).locatedAt (place c.source (c.line + n)) := by
  have hd : d.location = place c.source (c.line + n) := by
    rw [← hb.line, ← hb.source]
    rfl
  have hw : Recovery.warningAt d = notice (c.line + n) c.column := by
    rw [← hb.line, ← hb.column]
    rfl
  simp [Recovery.entryAt, hb.rest, hd, hw, warnedOf, locatedAt, Pairs.put]

theorem Lowered.entryAt {n : Nat} {c d : Cursor} (hb : c.Below n d) :
    Lowered c.source n (Recovery.entryAt c) (Recovery.entryAt d) := by
  rw [entryAt_below hb]
  exact .recovered (isUnrecognised_entryAt c) (location_entryAt c) (warning_entryAt c)

end Entry

namespace Fault

/-- The second fault is the first, met `n` lines further down. -/
inductive Lowered (n : Nat) : Fault → Fault → Prop
  | unclosedString {c d : Cursor} (source : d.source = c.source) (line : d.line = c.line + n)
      (column : d.column = c.column) : Lowered n (.unclosedString c) (.unclosedString d)
  | other {f : Fault} (h : ∀ c, f ≠ .unclosedString c) : Lowered n f f

theorem Lowered.ofFlaw {n : Nat} {c d : Cursor} (hb : c.Below n d) (f : Flaw) :
    Lowered n (.ofFlaw c f) (.ofFlaw d f) := by
  cases f with
  | unclosedString offset =>
      have h := hb.advance offset
      exact .unclosedString h.source h.line h.column
  | integerTooLong => exact .other nofun
  | unknownFieldType type => exact .other nofun
  | unknownCheck field check => exact .other nofun
  | notText => exact .other nofun
  | dateNotText => exact .other nofun

end Fault

namespace Grammar

variable {g : Grammar} {p : Shape → Prop}

/-! ## The lower text -/

/-- What the walk gives from two places of one source that are `n` lines
apart. -/
structure Lowered (source : String) (n : Nat) (upper lower : List Item × Option Fault) :
    Prop where
  entries : List.Forall₂ (Entry.Lowered source n) (upper.1.map (·.entry))
    (lower.1.map (·.entry))
  fault : Option.Rel (Fault.Lowered n) upper.2 lower.2

/-- The answers to the same text ahead, `n` lines apart. -/
theorem entryAt_lowered (h : g.OfShape p) {n : Nat} {c d : Cursor} (hb : c.Below n d) :
    (∃ e e' k, g.entryAt c = .ok (e, k) ∧ g.entryAt d = .ok (e', k) ∧
        Entry.Lowered c.source n e e') ∨
      ∃ f f', g.entryAt c = .error f ∧ g.entryAt d = .error f' ∧ f.Lowered n f' := by
  rw [entryAt_eq h, entryAt_eq h, hb.rest]
  cases hf : firstBody g.registry c.rest g.directives with
  | found e k =>
      have he : e.isUnrecognised = false :=
        (firstBody_finds fun d _ => Directive.body_recognised g.registry d c.rest).of_eq hf
      exact .inl ⟨_, _, k, rfl, rfl, .locatedAt he hb⟩
  | broken f => exact .inr ⟨_, _, rfl, rfl, .ofFlaw hb f⟩
  | absent => exact .inl ⟨_, _, _, rfl, rfl, .entryAt hb⟩

/-- **The walk does not depend on how far down it is.** -/
theorem items_lowered (h : g.OfShape p) {n : Nat} {c d : Cursor} (hb : c.Below n d) :
    Lowered c.source n (g.items c) (g.items d) := by
  induction c using walk_induction g generalizing d with
  | skip c hg ih =>
      have hg' : 0 < gap d.rest := hb.rest ▸ hg
      rw [items_gap hg, items_gap hg', hb.rest]
      exact ih (hb.advance _)
  | done c hr =>
      rw [items_nil hr, items_nil (hb.rest.trans hr)]
      exact ⟨.nil, .none⟩
  | broken c f hg hr he =>
      rcases entryAt_lowered h hb with ⟨e, e', k, hc, -⟩ | ⟨f, f', hc, hd, hf⟩
      · rw [he] at hc
        cases hc
      · rw [items_broken hg hr hc, items_broken (hb.rest ▸ hg) (hb.rest ▸ hr) hd]
        exact ⟨.nil, .some hf⟩
  | stalled c e hg hr he =>
      rcases entryAt_lowered h hb with ⟨e, e', k, hc, hd, -⟩ | ⟨f, f', hc, -⟩
      · rw [he] at hc
        cases hc
        rw [items_stalled hg hr he, items_stalled (hb.rest ▸ hg) (hb.rest ▸ hr) hd]
        exact ⟨.nil, .some (.other nofun)⟩
      · rw [he] at hc
        cases hc
  | found c e n hg hr he hn ih =>
      rcases entryAt_lowered h hb with ⟨e, e', k, hc, hd, hlowered⟩ | ⟨f, f', hc, -⟩
      · rw [he] at hc
        cases hc
        have hrest := ih (hb.advance n)
        rw [items_found hg hr he hn, items_found (hb.rest ▸ hg) (hb.rest ▸ hr) hd hn]
        exact ⟨.cons hlowered hrest.entries, hrest.fault⟩
      · rw [he] at hc
        cases hc

/-! ## The upper text -/

theorem onLine_startsComment : OnLine startsComment := by
  refine onLine_of_cons (fun _ => rfl) fun c cs hc => ?_
  rw [startsComment, startsComment, ← lineAhead_cons hc, onLine_isPrefixOf (by decide)]
  simp [lineAhead_cons hc]

theorem gap_append {cs ds : List Char} (hc : Complete cs) (hne : cs ≠ []) :
    gap (cs ++ ds) = gap cs := by
  have hn := hc.newline_mem hne
  have hhead : (cs ++ ds).head? = cs.head? := by
    rw [List.head?_append, List.head?_eq_some_head hne, Option.some_or]
  rw [gap, gap, onLine_inlineBlanks.append hn, hhead, onLine_startsComment.append hn,
    lineAhead_append hn]

theorem firstBody_append {r : Registry} {dirs : List Directive}
    (h : ∀ d ∈ dirs, d.OfShape r Shape.SingleLine) {cs ds : List Char} (hc : Complete cs)
    (hne : cs ≠ []) (hd : AtMargin ds) (hs : (firstBody r cs dirs).Sound) :
    Transaction.Reaches (firstBody r cs dirs) (firstBody r (cs ++ ds) dirs) cs.length ds := by
  induction dirs with
  | nil => exact ⟨fun _ => rfl, fun _ _ hf => by cases hf⟩
  | cons dir dirs ih =>
      rw [firstBody] at hs
      cases hbody : dir.body r cs with
      | broken f => simp [hbody] at hs
      | absent =>
          have hreach := Directive.body_append (h dir (by simp)) hc hne hd (hbody ▸ sound_absent)
          simp only [hbody] at hs
          rw [firstBody, firstBody, hbody, hreach.absent hbody]
          exact ih (fun d' hd' => h d' (by simp [hd'])) hs
      | found e n =>
          have hreach := Directive.body_append (h dir (by simp)) hc hne hd
            (hbody ▸ sound_found e n)
          obtain ⟨k, hk, hkn⟩ := hreach.found e n hbody
          rw [firstBody, firstBody, hbody, hk]
          refine ⟨fun ha => absurd ha (by simp), fun e' n' hf => ?_⟩
          cases hf
          exact ⟨k, rfl, hkn⟩

/-- A recovered line does not see text at the margin below it. -/
theorem recovery_append {ds : List Char} {c d : Cursor} (ha : Cursor.Above ds c d)
    (hc : Complete c.rest) (hne : c.rest ≠ []) (hd : AtMargin ds) :
    Recovery.entryAt d = Recovery.entryAt c ∧ Recovery.length d.rest = Recovery.length c.rest := by
  have hw : Recovery.warningAt d = Recovery.warningAt c := by
    show Entry.notice d.line d.column = Entry.notice c.line c.column
    rw [ha.line, ha.column]
  have hcov : d.rest.take (Recovery.extent d.rest) = c.rest.take (Recovery.extent c.rest) := by
    rw [ha.rest, Recovery.extent_append hc hne hd,
      List.take_append_of_le_length (Recovery.extent_le c.rest)]
  refine ⟨?_, by rw [ha.rest, Recovery.length_append hc hne hd]⟩
  unfold Recovery.entryAt
  rw [hcov, hw, ha.location]

/-- **An entry of the upper text is not changed by the lower one**; it may
only pass over the comment lines that come first in it. -/
theorem entryAt_append (h : g.OfShape Shape.SingleLine) {ds : List Char} {c d : Cursor}
    (ha : Cursor.Above ds c d) (hc : Complete c.rest) (hne : c.rest ≠ []) (hd : AtMargin ds)
    {e : Entry} {n : Nat} (he : g.entryAt c = .ok (e, n)) :
    ∃ k, g.entryAt d = .ok (e, n + k) ∧
      (k = 0 ∨ n = c.rest.length ∧ k = Transaction.idleLines ds) := by
  rw [entryAt_eq h] at he
  rw [entryAt_eq h, ha.rest]
  cases hf : firstBody g.registry c.rest g.directives with
  | broken f => simp [hf] at he
  | found e' n' =>
      rw [hf] at he
      cases he
      have hreach := firstBody_append h hc hne hd (hf ▸ sound_found ..)
      obtain ⟨k, hk, hkn⟩ := hreach.found _ _ hf
      rw [hk, ha.location]
      exact ⟨k, rfl, hkn⟩
  | absent =>
      rw [hf] at he
      cases he
      have hreach := firstBody_append h hc hne hd (hf ▸ sound_absent)
      obtain ⟨hentry, hlength⟩ := recovery_append ha hc hne hd
      rw [hreach.absent hf, ← ha.rest, hentry, hlength]
      exact ⟨0, rfl, .inl rfl⟩

/-- **The walk through the whole first gives the entries of the upper
text**, and is then at the start of the lower one. -/
theorem items_append (h : g.OfShape Shape.SingleLine) {ds : List Char} {c d : Cursor}
    (ha : Cursor.Above ds c d) (hc : Complete c.rest) (hd : AtMargin ds)
    (hok : (g.items c).2 = none) :
    ∃ above, above.map (·.entry) = (g.items c).1.map (·.entry) ∧
      g.items d = (above ++ (g.items (d.advance c.rest.length)).1,
        (g.items (d.advance c.rest.length)).2) := by
  -- a step of both walks, by the same number of characters
  have hback : ∀ (c d : Cursor) k, k ≤ c.rest.length →
      d.advance c.rest.length = (d.advance k).advance (c.advance k).rest.length := by
    intro c d k hk
    rw [Cursor.advance_advance, Cursor.rest_advance, List.length_drop, Nat.add_sub_cancel' hk]
  induction c using walk_induction g generalizing d with
  | skip c hg ih =>
      have hgap : gap d.rest = gap c.rest := by rw [ha.rest, gap_append hc (ne_nil_of_gap hg)]
      have hg' : 0 < gap d.rest := hgap ▸ hg
      rw [items_gap hg] at hok ⊢
      rw [items_gap hg', hgap, hback c d _ (gap_le c.rest)]
      exact ih (ha.advance (gap_le c.rest)) (hc.drop _) hok
  | done c hr =>
      rw [items_nil hr, hr, List.length_nil, Cursor.advance_zero]
      exact ⟨[], rfl, rfl⟩
  | broken c f hg hr he => simp [items_broken hg hr he] at hok
  | stalled c e hg hr he => simp [items_stalled hg hr he] at hok
  | found c e n hg hr he hn ih =>
      have hgap : gap d.rest = gap c.rest := by rw [ha.rest, gap_append hc hr]
      have hr' : d.rest ≠ [] := by simp [ha.rest, hr]
      have hle := (entryAt_boundary h he).le
      obtain ⟨k, hk, hkn⟩ := entryAt_append h ha hc hr hd he
      rw [items_found hg hr he hn] at hok ⊢
      obtain ⟨above, hmap, hitems⟩ := ih (ha.advance hle) (hc.drop n) hok
      rw [items_found (hgap.trans hg) hr' hk (by omega)]
      refine ⟨⟨d, e, d.advance (n + k)⟩ :: above, by simp [hmap], ?_⟩
      have hidle : g.items (d.advance (n + k)) = g.items (d.advance n) := by
        rcases hkn with rfl | ⟨hall, rfl⟩
        · rfl
        · -- the entry has reached the lower text, and goes on over its comments
          have hrest : (d.advance n).rest = ds := by
            rw [Cursor.rest_advance, ha.rest, hall, List.drop_left]
          rw [← Cursor.advance_advance, ← hrest, items_idleLines]
      rw [hidle, hitems, hback c d n hle]
      rfl

/-! ## The whole -/

/-- Behind an upper text that ends its lines, the place is that of the
start of the lower text, as many lines further down as the upper one
has. -/
theorem below_upper (source : String) {upper : List Char} (hu : Complete upper)
    (lower : List Char) :
    Cursor.Below (upper.count '\n') (.start source lower)
      ((Cursor.start source (upper ++ lower)).advance upper.length) := by
  have htake : (Cursor.start source (upper ++ lower)).rest.take upper.length = upper :=
    List.take_left
  refine ⟨rfl, List.drop_left, ?_, ?_⟩
  · rw [Cursor.line_advance, htake]
    rfl
  · rw [Cursor.column_advance, htake]
    by_cases hne : upper = []
    · rw [hne]
      rfl
    · exact Cursor.columnAfter_complete hu hne _

/-- What reading the whole gives, from what reading the lower text gives:
the entries of the upper text come first, and what the lower text says of
lines is said `n` lines further down. -/
def Concatenates (source : String) (n : Nat) (above : List Entry)
    (lower whole : Except Fault (List Entry)) : Prop :=
  match lower with
  | .ok below => ∃ below', whole = .ok (above ++ below') ∧
      List.Forall₂ (Entry.Lowered source n) below below'
  | .error f => ∃ f', whole = .error f' ∧ f.Lowered n f'

/-- **Texts may be put one below the other.** A text that ends its lines
and can be read does not change how the text at the margin below it is
read, but for the lines that it puts above. -/
theorem parse_append (h : g.OfShape Shape.SingleLine) {upper lower : String}
    (hu : Complete upper.toList) (hl : AtMargin lower.toList) {above : List Entry}
    (hok : g.parse upper = .ok above) :
    Concatenates g.source (upper.toList.count '\n') above (g.parse lower)
      (g.parse (upper ++ lower)) := by
  -- both walks start at the top of the same source
  have habove : Cursor.Above lower.toList (.start g.source upper.toList)
      (.start g.source (upper ++ lower).toList) := by
    refine ⟨rfl, ?_, rfl, rfl⟩
    rw [Cursor.rest_start, Cursor.rest_start, String.toList_append]
  cases hw : g.walk upper with
  | mk is fault =>
      cases fault with
      | some f => simp [parse, hw] at hok
      | none =>
          have hentries : is.map (·.entry) = above := by simpa [parse, hw] using hok
          have hnone : (g.items (.start g.source upper.toList)).2 = none := by
            show (g.walk upper).2 = none
            rw [hw]
          obtain ⟨is', hmap, hwhole⟩ := items_append h habove hu hl hnone
          have hfirst : is'.map (·.entry) = above := by
            rw [hmap, ← hentries]
            show (g.walk upper).1.map (·.entry) = _
            rw [hw]
          have hlow := items_lowered h (below_upper g.source hu lower.toList)
          rw [← String.toList_append] at hlow
          rw [Cursor.rest_start] at hwhole
          unfold Concatenates parse walk
          rw [hwhole]
          generalize g.items (.start g.source lower.toList) = low at hlow ⊢
          generalize g.items (.advance _ upper.toList.length) = whole at hlow ⊢
          obtain ⟨lowItems, lowFault⟩ := low
          obtain ⟨wholeItems, wholeFault⟩ := whole
          cases hlow.fault with
          | none =>
              have hsum : (is' ++ wholeItems).map (·.entry) =
                  above ++ wholeItems.map (·.entry) := by rw [List.map_append, hfirst]
              exact ⟨_, congrArg Except.ok hsum, hlow.entries⟩
          | some hf => exact ⟨_, rfl, hf⟩

theorem parse_append_note_comment :
    Concatenates "books" 2
      [⟨"2024-01-01", [("ref", .int 7), ("location", .text "books:1")],
        .plain "close" [("keyword", .text "close"), ("account", .text "Cash")]⟩]
      ((Builtin.grammar "books").parse "; paid\n2024-01-02 shut Cash\n")
      ((Builtin.grammar "books").parse
        ("2024-01-01 close Cash\n  ref: 7\n" ++ "; paid\n2024-01-02 shut Cash\n")) :=
  parse_append (Builtin.ofShape_grammar "books") (by simp [Complete])
    (by simp [AtMargin, isBlank]) (by with_unfolding_all rfl)

end Grammar
end Daybook
