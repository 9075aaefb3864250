import Daybook.Text.Blank

/-!
Lines of a text that is being read: the functions look at the characters that lie ahead. Only the
newline character ends a line.
-/
namespace Daybook.Text

/-- What is left of the current line, without its newline. -/
def lineAhead (cs : List Char) : List Char := cs.takeWhile (· != '\n')

/-- How many characters end the current line: its rest and the newline, if it has one. -/
def lineLength (cs : List Char) : Nat :=
  (lineAhead cs).length + if cs.dropWhile (· != '\n') = [] then 0 else 1

/-- The number of spaces and tabs that come first. -/
def indentWidth (cs : List Char) : Nat := (cs.takeWhile isIndent).length

/-- The indent of the line after the current one. There is none at the end of the text; a line of
white space alone carries nothing and has indent zero. -/
def nextIndent (cs : List Char) : Option Nat :=
  match cs.dropWhile (· != '\n') with
  | [] => none
  | [_] => none
  | _ :: next =>
    match next.dropWhile isIndent with
    | [] => some 0
    | '\n' :: _ => some 0
    | _ => some (indentWidth next)

theorem length_dropWhile_le (p : Char → Bool) (cs : List Char) :
    (cs.dropWhile p).length ≤ cs.length :=
  (List.dropWhile_suffix p).length_le

theorem lineLength_pos {cs : List Char} (h : cs ≠ []) : 0 < lineLength cs := by
  cases cs with
  | nil => exact absurd rfl h
  | cons c cs =>
    by_cases hc : c = '\n'
    · simp [lineLength, hc]
    · simp only [lineLength, lineAhead, List.takeWhile_cons, bne_iff_ne, ne_eq, hc,
        not_false_eq_true, if_true, List.length_cons]
      omega

/-- How far the blank lines at the front reach: lines of spaces and tabs alone, each with its
newline. -/
def blankLines (cs : List Char) : Nat :=
  match _h : cs.dropWhile isIndent with
  | '\n' :: next => indentWidth cs + 1 + blankLines next
  | _ => 0
termination_by cs.length
decreasing_by
  have h1 := congrArg List.length _h
  have := length_dropWhile_le isIndent cs
  simp only [List.length_cons] at h1
  omega

/-- The text cut at every newline: one piece more than there are newlines. -/
def lines : List Char → List (List Char)
  | [] => [[]]
  | c :: cs =>
    if c = '\n' then [] :: lines cs
    else
      match lines cs with
      | [] => [[c]]
      | l :: ls => (c :: l) :: ls

/-- Joins pieces with a newline between each two. -/
def unlines (ls : List (List Char)) : List Char := ['\n'].intercalate ls

/-- The piece of a list from `start` up to but not including `stop`; a bound below zero counts back
from the end. -/
def slice {α : Type} (xs : List α) (start stop : Int) : List α :=
  let bound (i : Int) : Nat := (if i < 0 then i + xs.length else i).toNat
  (xs.take (bound stop)).drop (bound start)

/-- The lines from `context` lines before line `line` to as many after it; the first line is line
one. -/
def excerpt (text : List Char) (line context : Int) : List Char :=
  unlines (slice (lines text) (max 0 (line - 1 - context)) (line + context))

theorem lines_ne_nil (cs : List Char) : lines cs ≠ [] := by
  cases cs with
  | nil => simp [lines]
  | cons c cs =>
    simp only [lines]
    split
    · simp
    · split <;> simp

end Daybook.Text
