import Daybook.Text.DecimalDigit

/-!
Numbers in text. A numeral is an optional minus, digits and perhaps a fraction; its digits may be
those of any script. The float that a decimal denotes is the nearest one.
-/
namespace Daybook

/-- The float nearest to `digits * 10 ^ exponent`. A decimal far outside the range of floats is
infinite or zero, and is not computed. -/
def Decimal.nearest (digits : Nat) (exponent : Int) : Float :=
  if digits = 0 then 0
  else
    let size := (digits.log2 : Int) * 30103 / 100000 + exponent
    if 320 < size then 1.0 / 0.0
    else if size < -360 then 0
    else Float.ofScientific digits (exponent < 0) exponent.natAbs

/-- An optional minus, digits, and perhaps a point with digits behind it. -/
structure Numeral where
  negative : Bool
  whole : List Char
  fraction : Option (List Char)
deriving Repr, DecidableEq

namespace Numeral
open Daybook.Text

/-- The numeral as it is written. -/
def text (n : Numeral) : List Char :=
  (if n.negative then ['-'] else []) ++ n.whole ++
    match n.fraction with
    | none => []
    | some ds => '.' :: ds

/-- The nearest float; the minus also tells the two zeros apart. -/
def toFloat (n : Numeral) : Float :=
  let places := (n.fraction.getD []).length
  let x := Decimal.nearest (digitsValue (n.whole ++ n.fraction.getD [])) (-places)
  if n.negative then -x else x

/-- The integer that the digits before the point denote. -/
def toInt (n : Numeral) : Int :=
  if n.negative then -(digitsValue n.whole : Int) else digitsValue n.whole

/-- Takes a minus off the front. -/
def splitSign : List Char → Bool × List Char
  | '-' :: cs => (true, cs)
  | cs => (false, cs)

/-- The fraction at the front: a point and at least one digit. -/
def fractionAhead : List Char → Option (List Char)
  | '.' :: cs =>
    let ds := cs.takeWhile isDecimalDigit
    if ds.isEmpty then none else some ds
  | _ => none

/-- The longest numeral at the front. At least one digit comes before the point. -/
def ahead? (cs : List Char) : Option Numeral :=
  let (negative, cs) := splitSign cs
  let whole := cs.takeWhile isDecimalDigit
  if whole.isEmpty then none
  else some ⟨negative, whole, fractionAhead (cs.drop whole.length)⟩

/-- Reads a whole text as an integer numeral. -/
def integer? (cs : List Char) : Option Numeral :=
  let (negative, ds) := splitSign cs
  if !ds.isEmpty && ds.all isDecimalDigit then some ⟨negative, ds, none⟩ else none

/-- Reads a whole text as a numeral with a fraction; there may be no digit before the point. -/
def fractional? (cs : List Char) : Option Numeral :=
  let (negative, ds) := splitSign cs
  let whole := ds.takeWhile isDecimalDigit
  match ds.drop whole.length with
  | '.' :: fs =>
    if !fs.isEmpty && fs.all isDecimalDigit then some ⟨negative, whole, some fs⟩ else none
  | _ => none

end Numeral
end Daybook
