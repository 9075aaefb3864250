import Daybook.Reading
import Daybook.Text.DecimalDigit

/-!
Words for truth values. Letters match in either case; the long s, which is an s in lower case,
matches an s but does not make a word that means true.
-/
namespace Daybook.Token
open Daybook.Text

/-- The words for truth values. -/
def truthWords : List String := ["true", "false", "yes", "no", "1", "0"]

/-- Does `c` match the small letter or digit `w` in either case? -/
def matchesLetter (w c : Char) : Bool := c.toLower == w || (w == 's' && c == '\u017F')

/-- Would the character go on with a word? In either case, so the four letters count whose other
case is an ASCII letter. -/
def continuesWord (c : Char) : Bool :=
  isWordChar c || c == '\u0130' || c == '\u0131' || c == '\u017F' || c == '\u212A'

/-- The given word at the front in either case, with no letter, digit or underscore behind it. -/
def spelled? : List Char → List Char → Option (List Char)
  | [], cs => if cs.head?.any continuesWord then none else some []
  | _ :: _, [] => none
  | w :: ws, c :: cs => if matchesLetter w c then (spelled? ws cs).map (c :: ·) else none

/-- The truth value at the front, with its length. -/
def boolean? (cs : List Char) : Option (Bool × Nat) :=
  (truthWords.findSome? fun w => spelled? w.toList cs).map fun found =>
    let word := String.ofList (found.map Char.toLower)
    (word == "true" || word == "yes" || word == "1", found.length)

end Daybook.Token
