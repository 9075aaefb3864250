import Daybook.Proofs.Loop

/-!
# Termination — every text has an answer

Reading a ledger is a loop over its text, with the loops that read
entries inside. An iteration passes over white space and then takes a
newline, a comment or an entry (`Grammar.Turns`); whatever it is, the
cursor moves on. So the loop ends, and what it gives is what the walk
gives (`Grammar.runs`). Each entry takes a line of its own.
-/

namespace Daybook

open Daybook.Text Daybook.Reading

namespace Grammar

variable {g : Grammar} {c d : Cursor} {item : Option Item}

/-- One iteration of the loop over the document, which passes over white
space and then ends the text, takes a newline, takes a comment, or takes
an entry. An iteration that meets a fault is none of these. -/
inductive Turns (g : Grammar) (c : Cursor) : Option Item → Cursor → Prop
  | blanks (ahead : c.rest ≠ []) (atEnd : c.skipBlanks.rest = []) : Turns g c none c.skipBlanks
  | newline (next : c.skipBlanks.next? = some '\n') : Turns g c none (c.skipBlanks.advance 1)
  | comment (starts : startsComment c.skipBlanks.rest = true) :
      Turns g c none c.skipBlanks.skipToEndOfLine
  | entry {e : Entry} {n : Nat} (ahead : c.skipBlanks.rest ≠ [])
      (line : c.skipBlanks.next? ≠ some '\n') (code : startsComment c.skipBlanks.rest = false)
      (found : g.entryAt c.skipBlanks = .ok (e, n)) :
      Turns g c (some ⟨c.skipBlanks, e, c.skipBlanks.advance n⟩) (c.skipBlanks.advance n)

/-- From the cursor on the loop makes so many iterations, and the walk
has these items and ends in this fault, if in one. -/
inductive Runs (g : Grammar) : Cursor → Nat → List Item × Option Fault → Prop
  | done {c : Cursor} (atEnd : c.rest = []) : Runs g c 0 ([], none)
  | broken {c : Cursor} {f : Fault} (ahead : c.skipBlanks.rest ≠ [])
      (line : c.skipBlanks.next? ≠ some '\n') (code : startsComment c.skipBlanks.rest = false)
      (fault : g.entryAt c.skipBlanks = .error f) : Runs g c 0 ([], some f)
  | turn {c d : Cursor} {item : Option Item} {n : Nat} {items : List Item} {fault : Option Fault}
      (turn : g.Turns c item d) (rest : Runs g d n (items, fault)) :
      Runs g c (n + 1) (item.toList ++ items, fault)

/-- Behind white space, what is neither a newline nor a comment is the
front of an entry. -/
theorem gap_skipBlanks (line : c.skipBlanks.next? ≠ some '\n')
    (code : startsComment c.skipBlanks.rest = false) : gap c.skipBlanks.rest = 0 := by
  have hblanks : inlineBlanks c.skipBlanks.rest = 0 := inlineBlanks_drop c.rest
  have hline : c.skipBlanks.rest.head? ≠ some '\n' := line
  rw [gap, if_neg (by omega), if_neg hline, code]
  rfl

/-- A comment is passed over to the end of its line. -/
theorem gap_comment (starts : startsComment c.skipBlanks.rest = true) :
    0 < gap c.skipBlanks.rest ∧ gap c.skipBlanks.rest = (lineAhead c.skipBlanks.rest).length := by
  have hblanks : inlineBlanks c.skipBlanks.rest = 0 := inlineBlanks_drop c.rest
  refine ⟨Nat.pos_of_ne_zero fun hzero => ?_, gap_of_comment hblanks starts⟩
  rw [(gap_eq_zero_iff.1 hzero).2] at starts
  cases starts

/-- White space and what comes behind it are a move over something, if
one of them is. -/
theorem exists_advance_behind {k : Nat} (hpos : 0 < inlineBlanks c.rest + k)
    (hle : k ≤ c.skipBlanks.rest.length) :
    ∃ n, 0 < n ∧ n ≤ c.rest.length ∧ c.skipBlanks.advance k = c.advance n := by
  have hblanks := inlineBlanks_le c.rest
  have hlength : c.skipBlanks.rest.length = c.rest.length - inlineBlanks c.rest :=
    List.length_drop
  exact ⟨inlineBlanks c.rest + k, hpos, by omega, Cursor.advance_advance ..⟩

/-- **An iteration passes over something.** -/
theorem Turns.exists_advance (h : g.OfShape fun _ => True) (ht : g.Turns c item d) :
    ∃ n, 0 < n ∧ n ≤ c.rest.length ∧ d = c.advance n := by
  cases ht with
  | blanks ahead atEnd =>
      -- there was something ahead, and it was white space
      have hlength : c.skipBlanks.rest.length = c.rest.length - inlineBlanks c.rest :=
        List.length_drop
      have hpos := List.length_pos_iff.2 ahead
      rw [atEnd, List.length_nil] at hlength
      exact ⟨inlineBlanks c.rest, by omega, inlineBlanks_le c.rest, rfl⟩
  | newline next =>
      apply exists_advance_behind (by omega)
      obtain ⟨rest, hrest⟩ := List.head?_eq_some_iff.1 next
      rw [hrest, List.length_cons]
      omega
  | comment starts =>
      obtain ⟨hpos, hgap⟩ := gap_comment starts
      exact exists_advance_behind (by omega) (lineAhead_length_le _)
  | entry ahead line code found =>
      have hpos := entryAt_pos h ahead found
      exact exists_advance_behind (by omega) (entryAt_boundary h found).le

theorem Turns.lt (h : g.OfShape fun _ => True) (ht : g.Turns c item d) :
    c.position < d.position := by
  obtain ⟨n, hpos, hle, rfl⟩ := ht.exists_advance h
  rw [Cursor.position_advance_of_le hle]
  omega

/-- **The walk is the loop**: it has the item of the iteration, and then
those of the walk from there on. -/
theorem Turns.items_eq (h : g.OfShape fun _ => True) (ht : g.Turns c item d) :
    g.items c = (item.toList ++ (g.items d).1, (g.items d).2) := by
  -- the walk passes over the white space first, as the iteration does
  have hblanks : g.items c = g.items c.skipBlanks := items_blanks
  rw [hblanks]
  cases ht with
  | blanks ahead atEnd => rfl
  | newline next =>
      obtain ⟨rest, hrest⟩ := List.head?_eq_some_iff.1 next
      exact items_newline hrest
  | comment starts =>
      obtain ⟨hpos, hgap⟩ := gap_comment starts
      rw [items_gap hpos, hgap]
      rfl
  | entry ahead line code found =>
      exact items_found (gap_skipBlanks line code) ahead found (entryAt_pos h ahead found)

/-- **The loop over the document ends**, with no more iterations than
there are characters ahead, and gives what the walk does. -/
theorem runs (h : g.OfShape fun _ => True) (c : Cursor) :
    ∃ n ≤ c.rest.length, g.Runs c n (g.items c) := by
  induction hlen : c.rest.length using Nat.strong_induction_on generalizing c with
  | _ m ih =>
      subst hlen
      -- whatever iteration comes first, what is left of the text is shorter
      have hturn : ∀ item d, g.Turns c item d → ∃ n ≤ c.rest.length, g.Runs c n (g.items c) := by
        intro item d ht
        obtain ⟨k, hpos, hle, hd⟩ := ht.exists_advance h
        have hlength : d.rest.length = c.rest.length - k := by
          rw [hd, Cursor.rest_advance, List.length_drop]
        obtain ⟨n, hn, hruns⟩ := ih d.rest.length (by omega) d rfl
        rw [ht.items_eq h]
        exact ⟨n + 1, by omega, .turn ht hruns⟩
      by_cases hnil : c.rest = []
      · rw [items_nil hnil]
        exact ⟨0, Nat.zero_le _, .done hnil⟩
      by_cases hover : c.skipBlanks.rest = []
      · exact hturn _ _ (.blanks hnil hover)
      by_cases hline : c.skipBlanks.next? = some '\n'
      · exact hturn _ _ (.newline hline)
      cases hcode : startsComment c.skipBlanks.rest with
      | true => exact hturn _ _ (.comment hcode)
      | false =>
          cases he : g.entryAt c.skipBlanks with
          | ok answer => exact hturn _ _ (.entry hover hline hcode he)
          | error f =>
              have hblanks : g.items c = g.items c.skipBlanks := items_blanks
              rw [hblanks, items_broken (gap_skipBlanks hline hcode) hover he]
              exact ⟨0, Nat.zero_le _, .broken hover hline hcode he⟩

/-! ## What comes of it -/

/-- A flaw is never that an entry takes nothing. -/
theorem ofFlaw_ne_stalled (c : Cursor) (f : Flaw) : Fault.ofFlaw c f ≠ .stalled := by
  intro h
  cases f <;> cases h

/-- The walk never comes to an entry that takes nothing. -/
theorem items_ne_stalled (h : g.OfShape fun _ => True) (c : Cursor) :
    (g.items c).2 ≠ some .stalled := by
  induction c using walk_induction g with
  | skip c hg ih => rwa [items_gap hg]
  | done c hr =>
      rw [items_nil hr]
      intro hnone
      cases hnone
  | broken c f hg hr he =>
      rw [items_broken hg hr he]
      rintro ⟨rfl⟩
      obtain ⟨flaw, -, hfault⟩ := exists_flaw_of_entryAt h he
      exact ofFlaw_ne_stalled c flaw hfault.symm
  | stalled c e hg hr he => exact absurd (entryAt_pos h hr he) (Nat.lt_irrefl 0)
  | found c e n hg hr he hn ih => rwa [items_found hg hr he hn]

/-- **An entry takes a line of its own**, so there are no more entries
than lines. -/
theorem length_items_le (h : g.OfShape fun _ => True) (c : Cursor) :
    (g.items c).1.length ≤ lineCount c.rest := by
  induction c using walk_induction g with
  | skip c hg ih =>
      rw [items_gap hg]
      exact Nat.le_trans ih (lineCount_drop_le c.rest _)
  | done c hr =>
      rw [items_nil hr]
      exact Nat.zero_le _
  | broken c f hg hr he =>
      rw [items_broken hg hr he]
      exact Nat.zero_le _
  | stalled c e hg hr he => exact absurd (entryAt_pos h hr he) (Nat.lt_irrefl 0)
  | found c e n hg hr he hn ih =>
      rw [items_found hg hr he hn, List.length_cons, lineCount_drop_lineLength hr]
      -- the entry reaches behind its first line, and perhaps further
      have hbehind : c.rest.drop n =
          (c.rest.drop (lineLength c.rest)).drop (n - lineLength c.rest) := by
        rw [List.drop_drop, Nat.add_sub_cancel' (lineLength_le_entryAt h he)]
      rw [Cursor.rest_advance, hbehind] at ih
      exact Nat.succ_le_succ (Nat.le_trans ih (lineCount_drop_le ..))

/-- **Every loop ends.** With schemas of any of the library's shapes and
transactions, each loop inside an entry makes no more turns than there
are characters ahead, and so does the loop over the document, each of
whose iterations moves the cursor on. No entry takes nothing, and a text
gives no more entries than it has lines. -/
theorem loops_end (h : g.OfShape fun _ => True) :
    (∀ (l : Loop) (cs : List Char), ∃ turns ≤ cs.length, l.Ends cs turns (l.reach cs)) ∧
      (∀ (c : Cursor) (item : Option Item) (d : Cursor), g.Turns c item d →
        c.position < d.position) ∧
      (∀ c : Cursor, ∃ n ≤ c.rest.length, g.Runs c n (g.items c)) ∧
      ∀ text : String, g.parse text ≠ .error .stalled ∧
        ∀ es, g.parse text = .ok es →
          es.length ≤ lineCount text.toList ∧
            lineCount text.toList ≤ (lines text.toList).length := by
  refine ⟨Loop.ends, fun c item d ht => ht.lt h, runs h, fun text => ⟨?_, ?_⟩⟩
  · rw [Ne, parse_eq_error_iff]
    exact items_ne_stalled h _
  · intro es hes
    obtain ⟨-, rfl⟩ := parse_eq_ok_iff.1 hes
    rw [List.length_map]
    exact ⟨length_items_le h _, lineCount_le_length_lines _⟩

/-- An object that no check accepts. -/
def refused : Field :=
  { name := "data", type := "object", required := true, check := some (.own fun _ => .ok false) }

/-- A grammar whose last directive has no fields, so that every line is
one. -/
def loose : Grammar :=
  { source := "books"
    directives := [.schema "card" [refused], .custom "transaction" fun c => Transaction.read c.rest,
      .schema "line" []]
    registry := ⟨FieldReader.builtin, []⟩ }

theorem ofShape_loose : loose.OfShape fun _ => True := by
  intro d hd
  have hcases : d = .schema "card" [refused] ∨
      d = .custom "transaction" (fun c => Transaction.read c.rest) ∨ d = .schema "line" [] := by
    simpa [loose] using hd
  rcases hcases with rfl | rfl | rfl
  · intro f hf reader hreader
    obtain rfl : f = refused := List.mem_singleton.1 hf
    exact ⟨.object, trivial, (Option.some.inj hreader).symm⟩
  · rfl
  · intro f hf
    cases hf

/-- Two lines that no directive but the last accepts. -/
def scraps : String := "k: v\nb"

/-- Both are entries, and no more can be. -/
theorem loops_end_scraps :
    (∃ n ≤ scraps.toList.length, loose.Runs (.start "books" scraps.toList) n
        (loose.items (.start "books" scraps.toList))) ∧
      loose.parse scraps ≠ .error .stalled ∧
      (∃ a b, loose.parse scraps = .ok [a, b]) ∧ 2 ≤ lineCount scraps.toList := by
  obtain ⟨-, -, hruns, hparse⟩ := loops_end ofShape_loose
  have hlines : ∃ a b, loose.parse scraps = .ok [a, b] := ⟨_, _, by with_unfolding_all rfl⟩
  obtain ⟨a, b, hab⟩ := hlines
  exact ⟨hruns (.start "books" scraps.toList), (hparse _).1, ⟨a, b, hab⟩, ((hparse _).2 _ hab).1⟩

end Grammar
end Daybook
