import Daybook.Proofs.Line
import Daybook.Cursor

/-!
# Cursor — steps add up

Moving in two steps is moving in one, so every place that a walk comes
to is the start of the text, advanced. The line counts the newlines
behind, and behind a complete text the column is the first.
-/

namespace Daybook.Cursor

open Daybook.Text

theorem ext_fields {c d : Cursor} (hs : c.source = d.source) (ht : c.text = d.text)
    (hr : c.rest = d.rest) (hp : c.position = d.position) (hl : c.line = d.line)
    (hc : c.column = d.column) : c = d := by
  cases c
  cases d
  simp_all

theorem columnAfter_append (column : Nat) (xs ys : List Char) :
    columnAfter column (xs ++ ys) = columnAfter (columnAfter column xs) ys :=
  List.foldl_append ..

/-- Behind a newline the column is the first. -/
theorem columnAfter_complete {xs : List Char} (h : Complete xs) (hne : xs ≠ [])
    (column : Nat) : columnAfter column xs = 1 := by
  obtain ⟨init, last, rfl⟩ := List.eq_nil_or_concat xs |>.resolve_left hne
  have hl : last = '\n' := h last (by simp)
  subst hl
  rw [List.concat_eq_append, columnAfter_append]
  rfl

@[simp] theorem advance_zero (c : Cursor) : c.advance 0 = c := by
  apply ext_fields <;> simp [advance, columnAfter]

theorem advance_advance (c : Cursor) (m n : Nat) :
    (c.advance m).advance n = c.advance (m + n) := by
  apply ext_fields
  · rfl
  · rfl
  · simp [List.drop_drop]
  · simp only [position_advance, rest_advance, List.length_drop]
    omega
  · show c.line + (c.rest.take m).count '\n' + ((c.rest.drop m).take n).count '\n'
      = c.line + (c.rest.take (m + n)).count '\n'
    rw [List.take_add, List.count_append, Nat.add_assoc]
  · show columnAfter (columnAfter c.column (c.rest.take m)) ((c.rest.drop m).take n)
      = columnAfter c.column (c.rest.take (m + n))
    rw [List.take_add, columnAfter_append]

@[simp] theorem line_advance (c : Cursor) (n : Nat) :
    (c.advance n).line = c.line + (c.rest.take n).count '\n' := rfl

@[simp] theorem column_advance (c : Cursor) (n : Nat) :
    (c.advance n).column = columnAfter c.column (c.rest.take n) := rfl

/-- The two cursors see the same text ahead of them, from places of one
source that are `n` lines apart. -/
structure Below (n : Nat) (c d : Cursor) : Prop where
  source : d.source = c.source
  rest : d.rest = c.rest
  line : d.line = c.line + n
  column : d.column = c.column

theorem Below.advance {n : Nat} {c d : Cursor} (h : Below n c d) (k : Nat) :
    Below n (c.advance k) (d.advance k) where
  source := h.source
  rest := by simp [h.rest]
  line := by
    simp only [line_advance, h.rest, h.line]
    omega
  column := by simp [h.rest, h.column]

/-- The two cursors stand at the same place of one source, and `ds` comes
behind what the first one has ahead. -/
structure Above (ds : List Char) (c d : Cursor) : Prop where
  source : d.source = c.source
  rest : d.rest = c.rest ++ ds
  line : d.line = c.line
  column : d.column = c.column

theorem Above.location {ds : List Char} {c d : Cursor} (h : Above ds c d) :
    d.location = c.location := by
  rw [Cursor.location, h.source, h.line]
  rfl

theorem Above.advance {ds : List Char} {c d : Cursor} (h : Above ds c d) {k : Nat}
    (hk : k ≤ c.rest.length) : Above ds (c.advance k) (d.advance k) := by
  have htake : d.rest.take k = c.rest.take k := by
    rw [h.rest, List.take_append_of_le_length hk]
  refine ⟨h.source, ?_, ?_, ?_⟩
  · rw [rest_advance, rest_advance, h.rest, List.drop_append_of_le_length hk]
  · rw [line_advance, line_advance, htake, h.line]
  · rw [column_advance, column_advance, htake, h.column]

end Daybook.Cursor
