import Daybook.Decimal.Digits

/-!
The text of a float. Which digits are written and how they are laid out are separate matters: the
first is chosen by `Selection`, the second by the fields of a `Layout`.
-/
namespace Daybook.Decimal

/-- Which digits are written. -/
inductive Selection where
  /-- the fewest that read back -/
  | shortest
  /-- this many significant digits, trailing zeros dropped -/
  | significant (places : Nat)

/-- How floats are written. -/
structure Layout where
  selection : Selection
  /-- The most digits before the point; from there on an exponent is written. -/
  widest : Int
  /-- Is a whole number written with a point and a zero? -/
  pointZero : Bool
  nan : String
  infinity : String

/-- The digits of a natural number, most significant first. -/
def natDigits (n : Nat) : List Char := Nat.toDigits 10 n

/-- An exponent: a sign and at least two digits. -/
def exponentText (e : Int) : List Char :=
  let ds := natDigits e.natAbs
  (if e < 0 then '-' else '+') :: (if ds.length < 2 then '0' :: ds else ds)

/-- Lays out digits whose point stands after the first `point` of them. Positional notation holds
down to four digits behind the point. -/
def Layout.place (l : Layout) (digits : List Char) (point : Int) : List Char :=
  if -4 < point ∧ point ≤ l.widest then
    if point ≤ 0 then '0' :: '.' :: (List.replicate (-point).toNat '0' ++ digits)
    else if point < digits.length then digits.take point.toNat ++ '.' :: digits.drop point.toNat
    else digits ++ List.replicate (point.toNat - digits.length) '0' ++
      (if l.pointZero then ['.', '0'] else [])
  else
    let tail := 'e' :: exponentText (point - 1)
    match digits with
    | [] => tail
    | [d] => d :: tail
    | d :: ds => d :: '.' :: (ds ++ tail)

/-- The text of a finite magnitude. -/
def Layout.magnitude (l : Layout) (x : Dyadic) : List Char :=
  if x.mantissa = 0 then if l.pointZero then ['0', '.', '0'] else ['0']
  else
    let d := match l.selection with
      | .shortest => x.shortest
      | .significant places => x.rounded places
    let digits := natDigits d.digits
    l.place digits (digits.length + d.exponent)

/-- The text of a float. -/
def Layout.render (l : Layout) (x : Float) : String :=
  let negative := x.toBits >>> 63 == 1
  if x.isNaN then l.nan
  else
    let sign := if negative then "-" else ""
    if x.isInf then sign ++ l.infinity
    else sign ++ String.ofList (l.magnitude (Dyadic.ofFloat x))

/-- Floats as values are written with the fewest digits that identify them. -/
def plain : Layout := ⟨.shortest, 16, true, "nan", "inf"⟩

/-- Amounts in a summary are written with six significant digits. -/
def sixPlaces : Layout := ⟨.significant 6, 6, false, "nan", "inf"⟩

end Daybook.Decimal
