/-!
Text with terminal sequences. A sequence is the escape character, an opening bracket, parameters of
ASCII digits, semicolons and question marks, and a letter that ends it; it colours or moves what a
terminal shows and is no part of the text itself.
-/
namespace Daybook.Text

/-- May the character stand among the parameters of a sequence? -/
def isParameter (c : Char) : Bool := c.isDigit || c == ';' || c == '?'

/-- What follows the sequence at the front, if one stands there. -/
def behindSequence? : List Char → Option (List Char)
  | '\x1b' :: '[' :: cs =>
    match cs.dropWhile isParameter with
    | [] => none
    | c :: rest => if c.isAlpha then some rest else none
  | _ => none

theorem length_lt_of_behindSequence? {cs rest : List Char} (h : behindSequence? cs = some rest) :
    rest.length < cs.length := by
  simp only [behindSequence?] at h
  split at h
  · next tail =>
    split at h
    · simp at h
    · next c left hd =>
      have hl := (List.dropWhile_suffix isParameter : tail.dropWhile isParameter <:+ tail).length_le
      simp only [hd, List.length_cons] at hl
      simp only [Option.ite_none_right_eq_some, Option.some.injEq] at h
      simp only [List.length_cons, ← h.2]
      omega
  · simp at h

/-- The text without its sequences. What is left is not looked through again, so parts of it may come
to look like a sequence. -/
def unstyled : List Char → List Char
  | [] => []
  | c :: cs =>
    match _h : behindSequence? (c :: cs) with
    | some rest => unstyled rest
    | none => c :: unstyled cs
termination_by cs => cs.length
decreasing_by
  · exact length_lt_of_behindSequence? _h
  · simp

end Daybook.Text
