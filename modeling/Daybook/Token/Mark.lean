import Daybook.Reading
import Daybook.Text.Blank

/-!
Tags and links, and runs of them.
-/
namespace Daybook.Token
open Daybook.Text

/-- May the character stand in the name of a tag or link? -/
def isMarkChar (c : Char) : Bool := c.isAlphanum || c == '_' || c == '-'

/-- A tag or link at the front, with its length. -/
def mark? : List Char → Option (Mark × Nat)
  | [] => none
  | c :: cs =>
    let name := cs.takeWhile isMarkChar
    if name.isEmpty then none
    else if c = '#' then some (.tag (String.ofList name), name.length + 1)
    else if c = '^' then some (.link (String.ofList name), name.length + 1)
    else none

theorem mark?_pos {cs : List Char} {m : Mark} {n : Nat} (h : mark? cs = some (m, n)) :
    0 < n ∧ 0 < cs.length := by
  cases cs with
  | nil => simp [mark?] at h
  | cons c cs =>
    simp only [mark?] at h
    split at h <;> (try split at h) <;> (try split at h) <;> simp_all <;> omega

/-- The tags and links at the front, in order, with white space before each or none; and how far
they reach. -/
def marks (cs : List Char) : List Mark × Nat :=
  match _h : mark? (cs.drop (inlineBlanks cs)) with
  | none => ([], 0)
  | some (m, n) =>
    let (ms, k) := marks (cs.drop (inlineBlanks cs + n))
    (m :: ms, inlineBlanks cs + n + k)
termination_by cs.length
decreasing_by
  have := mark?_pos _h
  simp only [List.length_drop] at this ⊢
  omega

/-- Does a tag or link start anywhere in the text? -/
def holdsMark : List Char → Bool
  | [] => false
  | c :: cs => ((c == '#' || c == '^') && cs.head?.any isMarkChar) || holdsMark cs

end Daybook.Token
