import Daybook.Proofs.Progress

/-!
# Place — where a cursor stands

A cursor counts lines and columns as it goes, from the characters that it
passes over. The counts are always those of its place in the whole text
(`Cursor.Within`), whichever readers brought it there. One step of any
reader keeps the counts right and never goes back (`Passes`, `Reads`);
what holds of a step holds of every cursor that steps lead to
(`Reached`).
-/

namespace Daybook

open Daybook.Text Daybook.Reading

namespace Text

/-- The column of place `p`: its distance from the last newline before
it. On the first line, where there is none, columns count from one. -/
inductive ColumnAt (text : List Char) (p : Nat) : Nat → Prop
  | first (none : '\n' ∉ text.take p) : ColumnAt text p (p + 1)
  | behind {k : Nat} (before : k < p) (newline : text[k]? = some '\n')
      (last : '\n' ∉ (text.take p).drop (k + 1)) : ColumnAt text p (p - k)

theorem columnAt_zero (text : List Char) : ColumnAt text 0 1 := .first (by simp)

/-- A newline starts the columns again, any other character adds one. -/
theorem ColumnAt.next {text : List Char} {p column : Nat} {ch : Char}
    (h : ColumnAt text p column) (hch : text[p]? = some ch) :
    ColumnAt text (p + 1) (if ch = '\n' then 1 else column + 1) := by
  have hp : p < text.length := (List.getElem?_eq_some_iff.1 hch).1
  have htake : text.take (p + 1) = text.take p ++ [ch] := by
    rw [List.take_add_one, hch, Option.toList_some]
  split
  · next hn =>
    have hlast : '\n' ∉ (text.take (p + 1)).drop (p + 1) := by
      rw [List.drop_eq_nil_of_le (List.length_take_le ..)]
      exact List.not_mem_nil
    have hone : p + 1 - p = 1 := by omega
    have hcolumn := ColumnAt.behind (Nat.lt_add_one p) (hn ▸ hch) hlast
    rwa [hone] at hcolumn
  · next hn =>
    cases h with
    | first hnone =>
        apply ColumnAt.first
        rw [htake, List.mem_append, List.mem_singleton]
        rintro (hmem | heq)
        · exact hnone hmem
        · exact hn heq.symm
    | @behind k before newline last =>
        -- the newline that columns are counted from is still the last one
        have hsub : p - k + 1 = p + 1 - k := by omega
        rw [hsub]
        apply ColumnAt.behind (by omega) newline
        rw [htake, List.drop_append_of_le_length (by rw [List.length_take]; omega),
          List.mem_append, List.mem_singleton]
        rintro (hmem | heq)
        · exact last hmem
        · exact hn heq.symm

end Text

namespace Cursor

/-- The cursor is a place of this source and text, and counts its line
and column right. -/
structure Within (source : String) (text : List Char) (c : Cursor) : Prop where
  ofSource : c.source = source
  ofText : c.text = text
  inside : c.position ≤ text.length
  line : c.line = Grammar.lineAt text c.position
  column : ColumnAt text c.position c.column

variable {source : String} {text : List Char} {c d : Cursor}

/-! ## Moving -/

theorem within_start (source : String) (text : List Char) :
    (start source text).Within source text where
  ofSource := rfl
  ofText := rfl
  inside := Nat.zero_le _
  line := by simp [start, Grammar.lineAt]
  column := columnAt_zero text

/-- At the end of the text a cursor stays where it is. -/
theorem advance_of_nil (h : c.rest = []) (n : Nat) : c.advance n = c := by
  apply ext_fields <;> simp [advance, h, columnAfter]

theorem Within.advance_one (h : c.Within source text) : (c.advance 1).Within source text := by
  cases hr : c.rest with
  | nil =>
      rw [advance_of_nil hr]
      exact h
  | cons ch rest =>
      have hch : text[c.position]? = some ch := by
        rw [← List.head?_drop, ← h.ofText, ← c.rest_eq, hr, List.head?_cons]
      have hp : c.position < text.length := (List.getElem?_eq_some_iff.1 hch).1
      have htake : text.take (c.position + 1) = text.take c.position ++ [ch] := by
        rw [List.take_add_one, hch, Option.toList_some]
      have hposition : (c.advance 1).position = c.position + 1 := by
        rw [position_advance, hr, List.length_cons]
        omega
      refine ⟨h.ofSource, h.ofText, ?_, ?_, ?_⟩
      · omega
      · rw [line_advance, hposition, h.line, Grammar.lineAt, Grammar.lineAt, htake, hr,
          List.count_append, Nat.add_assoc]
        rfl
      · rw [column_advance, hposition, hr]
        exact h.column.next hch

/-- **Moving keeps the counts right**, over newlines and beyond the end. -/
theorem Within.advance (h : c.Within source text) (n : Nat) :
    (c.advance n).Within source text := by
  -- a move is made of moves by one, so the last newline of a stretch need not be looked for
  induction n with
  | zero =>
      rw [advance_zero]
      exact h
  | succ n ih =>
      rw [← advance_advance]
      exact ih.advance_one

theorem position_le_advance (c : Cursor) (n : Nat) : c.position ≤ (c.advance n).position := by
  rw [position_advance]
  exact Nat.le_add_right ..

theorem position_advance_of_le {n : Nat} (h : n ≤ c.rest.length) :
    (c.advance n).position = c.position + n := by
  rw [position_advance, Nat.min_eq_left h]

/-! ## Steps -/

/-- The steps that may stand still: moving by any count, passing over
parts of a line and over whole lines, going to a comment, to the end of
an entry that the directives read, and behind a line that none accepts. -/
inductive Passes (c : Cursor) : Cursor → Prop
  | move (n : Int) : Passes c (c.move n)
  | toEndOfLine : Passes c c.skipToEndOfLine
  | line : Passes c c.skipLine
  | blankLines : Passes c c.skipBlankLines
  | blanks : Passes c c.skipBlanks
  | newline : Passes c c.skipNewline
  | toComment {n : Nat} (found : Token.commentStart c.rest = some n) : Passes c (c.advance n)
  | entry {r : Registry} {ds : List Directive} {e : Entry} {n : Nat}
      (shapes : ∀ d ∈ ds, d.OfShape r fun _ => True)
      (found : Grammar.firstOf r c ds = .found e n) : Passes c (c.advance n)
  | recovered : Passes c (c.advance (Recovery.length c.rest))

/-- A reader finds something at the cursor, `n` characters long: a field
of any shape, a flag, a pair of metadata or a block with any indent, or a
transaction. -/
inductive Reads (c : Cursor) : Nat → Prop
  | field (s : Shape) {v : Value} {n : Nat} (found : s.read c.rest = .found v n) : Reads c n
  | flag {w : String} {n : Nat} (found : Token.flag.read c.rest = .found w n) : Reads c n
  | pair {p : String × Scalar} {n : Nat} (found : Metadata.pair c.rest = .found p n) : Reads c n
  | block (indent : Int) {m : Metadata} {n : Nat}
      (found : Metadata.block indent.toNat c.rest = .found m n) : Reads c n
  | transaction {e : Entry} {n : Nat} (found : Transaction.read c.rest = .found e n) : Reads c n

/-- The cursors that steps lead to from the start of a text. -/
inductive Reached (source : String) (text : List Char) : Cursor → Prop
  | start : Reached source text (start source text)
  | pass {c d : Cursor} (reached : Reached source text c) (step : c.Passes d) :
      Reached source text d
  | read {c : Cursor} {n : Nat} (reached : Reached source text c) (step : c.Reads n) :
      Reached source text (c.advance n)

/-- Every step is a move ahead. -/
theorem Passes.eq_advance (h : c.Passes d) : ∃ n, d = c.advance n := by
  cases h with
  | move n => exact ⟨n.toNat, rfl⟩
  | toEndOfLine => exact ⟨_, rfl⟩
  | line => exact ⟨_, rfl⟩
  | blankLines => exact ⟨_, rfl⟩
  | blanks => exact ⟨_, rfl⟩
  | newline =>
      unfold skipNewline
      split
      · exact ⟨1, rfl⟩
      · exact ⟨0, (advance_zero c).symm⟩
  | toComment found => exact ⟨_, rfl⟩
  | entry shapes found => exact ⟨_, rfl⟩
  | recovered => exact ⟨_, rfl⟩

/-- **What a reader finds is there**: it takes at least one character,
and no more than there are. -/
theorem Reads.bounds {n : Nat} (h : c.Reads n) : 0 < n ∧ n ≤ c.rest.length := by
  cases h with
  | field s found => exact ⟨(s.read_pos _).of_eq found, (s.read_le _).of_eq found⟩
  | flag found =>
      exact ⟨((Lexeme.nonEmpty_shape (by simp)).read_pos _).of_eq found,
        ((Lexeme.begins_shape _).finds_le _).of_eq found⟩
  | pair found =>
      exact ⟨(Metadata.pair_pos found).1, ((Metadata.pair_atLineEnd _).of_eq found).le⟩
  | block indent found =>
      exact ⟨(Metadata.block_pos _ _).of_eq found, ((Metadata.block_boundary _ _).of_eq found).le⟩
  | @transaction e n found =>
      have hne : c.rest ≠ [] := by
        intro hnil
        rw [hnil] at found
        cases found
      -- a transaction takes its header's line at least
      have hline := (Transaction.lineLength_le_read c.rest).of_eq found
      exact ⟨Nat.lt_of_lt_of_le (lineLength_pos hne) hline,
        ((Transaction.read_boundary c.rest).of_eq found).le⟩

theorem Passes.within (hs : c.Passes d) (h : c.Within source text) :
    d.Within source text ∧ c.position ≤ d.position := by
  obtain ⟨n, rfl⟩ := hs.eq_advance
  exact ⟨h.advance n, position_le_advance c n⟩

theorem Reads.within {n : Nat} (hs : c.Reads n) (h : c.Within source text) :
    (c.advance n).Within source text ∧ (c.advance n).position = c.position + n :=
  ⟨h.advance n, position_advance_of_le hs.bounds.2⟩

/-- Every cursor that steps lead to is a place of the text. -/
theorem Reached.within (h : Reached source text c) : c.Within source text := by
  induction h with
  | start => exact within_start source text
  | pass _ step ih => exact (step.within ih).1
  | read _ step ih => exact (step.within ih).1

/-- Moves add up. -/
theorem move_move {a b : Int} (ha : 0 ≤ a) (hb : 0 ≤ b) (c : Cursor) :
    (c.move a).move b = c.move (a + b) := by
  rw [move, move, move, advance_advance, Int.toNat_add ha hb]

/-- **Cursors keep to their text.** Every cursor that steps lead to is a
place of the text and knows its line and column. From any such place a
step leads to another that is not before it, and behind it by as many
characters as were taken, at least one, when a reader has found
something. -/
theorem reached_within (source : String) (text : List Char) :
    (∀ c : Cursor, Reached source text c → c.Within source text) ∧
      (∀ c d : Cursor, c.Within source text → c.Passes d →
        d.Within source text ∧ c.position ≤ d.position) ∧
      (∀ (c : Cursor) (n : Nat), c.Within source text → c.Reads n →
        (c.advance n).Within source text ∧ (c.advance n).position = c.position + n ∧ 0 < n) ∧
      ∀ (c : Cursor) (a b : Int), 0 ≤ a → 0 ≤ b → (c.move a).move b = c.move (a + b) := by
  refine ⟨fun c h => h.within, fun c d h hs => hs.within h, fun c n h hs => ?_,
    fun c a b ha hb => move_move ha hb c⟩
  obtain ⟨hwithin, hposition⟩ := hs.within h
  exact ⟨hwithin, hposition, hs.bounds.1⟩

/-- A string over two lines, and a number behind it. -/
def twoLines : List Char := "\"a\nb\" 1".toList

/-- Behind the string the cursor is on the second line. -/
theorem reached_within_twoLines :
    ((start "books" twoLines).advance 5).Within "books" twoLines ∧
      ((start "books" twoLines).advance 5).position = 0 + 5 ∧ 0 < 5 ∧
      ((start "books" twoLines).advance 5).line = 2 ∧
      ((start "books" twoLines).advance 5).column = 3 := by
  have hreads : (start "books" twoLines).Reads 5 :=
    .field .quoted (by with_unfolding_all rfl : Shape.quoted.read _ = .found (.text "a\nb") 5)
  obtain ⟨hall, -, hread, -⟩ := reached_within "books" twoLines
  have hstep := hread _ 5 (hall _ .start) hreads
  exact ⟨hall _ (.read .start hreads), hstep.2.1, hstep.2.2, rfl, rfl⟩

end Cursor
end Daybook
