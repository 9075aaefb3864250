import Daybook.Decimal.Numeral
import Daybook.Text.Blank

/-!
Floats in free notation: a sign, digits with single underscores between them, a point with digits on
one side at least, an exponent; or a word for infinity or for no number at all.
-/
namespace Daybook.Decimal
open Daybook.Text

/-- White space that may surround a number; the information separators may not. -/
def isPadding (c : Char) : Bool := isBlank c && !(0x1C ≤ c.toNat && c.toNat ≤ 0x1F)

/-- Takes out underscores. Each stands between two digits; `behindDigit` tells what goes before. -/
def joinDigits (behindDigit : Bool) : List Char → Option (List Char)
  | [] => some []
  | c :: cs =>
    if c = '_' then
      if behindDigit && cs.head?.any isDecimalDigit then joinDigits false cs else none
    else (joinDigits (isDecimalDigit c) cs).map (c :: ·)

/-- Takes a sign off the front, and tells whether it is a minus. -/
def splitSigned : List Char → Bool × List Char
  | '-' :: cs => (true, cs)
  | '+' :: cs => (false, cs)
  | cs => (false, cs)

/-- The exponent that the whole text holds; an empty text is none and counts as zero. -/
def exponent? : List Char → Option Int
  | [] => some 0
  | e :: cs =>
    let (negative, ds) := splitSigned cs
    if (e = 'e' ∨ e = 'E') ∧ ds ≠ [] ∧ ds.all isDecimalDigit then
      some (if negative then -(digitsValue ds : Int) else digitsValue ds)
    else none

/-- The magnitude that the whole text holds, in digits. -/
def magnitude? (cs : List Char) : Option Float := do
  let cs ← joinDigits false cs
  let whole := cs.takeWhile isDecimalDigit
  let (fraction, rest) := match cs.drop whole.length with
    | '.' :: rest => (rest.takeWhile isDecimalDigit, rest.dropWhile isDecimalDigit)
    | rest => ([], rest)
  let e ← exponent? rest
  if whole.isEmpty && fraction.isEmpty then none
  else some (nearest (digitsValue (whole ++ fraction)) (e - fraction.length))

/-- The word for a magnitude that has no digits, in either case. -/
def word? (cs : List Char) : Option Float :=
  let w := String.ofList (cs.map Char.toLower)
  if w = "inf" ∨ w = "infinity" then some (1.0 / 0.0)
  else if w = "nan" then some (0.0 / 0.0)
  else none

/-- The float that a text denotes, white space around it left out. -/
def parse? (cs : List Char) : Option Float :=
  let (negative, cs) := splitSigned (dropTrailing isPadding (cs.dropWhile isPadding))
  (word? cs <|> magnitude? cs).map fun x => if negative then -x else x

end Daybook.Decimal
