/-!
The decimal digits of a float: the fewest that read back to it, or a given number of significant
ones. Both are chosen by exact arithmetic on naturals.
-/
namespace Daybook

/-- The decimal `digits * 10 ^ exponent`. -/
structure Decimal where
  digits : Nat
  exponent : Int
deriving Repr, DecidableEq

namespace Decimal

/-- The magnitude `mantissa * 2 ^ exponent` of a finite float. -/
structure Dyadic where
  mantissa : Nat
  exponent : Int
  /-- Is the next float below half as far away as the next one above? -/
  closerBelow : Bool

/-- The magnitude of a finite float, read off its bits. -/
def Dyadic.ofFloat (x : Float) : Dyadic :=
  let bits : Nat := x.toBits.toNat
  let scale : Nat := bits / Nat.pow 2 52 % Nat.pow 2 11
  let fraction : Nat := bits % Nat.pow 2 52
  if scale = 0 then ⟨fraction, -1074, false⟩
  else ⟨Nat.pow 2 52 + fraction, (scale : Int) - 1075, fraction == 0 && decide (1 < scale)⟩

/-- Compares `a * 10 ^ i` with `b * 2 ^ j`. -/
def compareScaled (a : Nat) (i : Int) (b : Nat) (j : Int) : Ordering :=
  compare (a * Nat.pow 10 i.toNat * Nat.pow 2 (-j).toNat)
    (b * Nat.pow 2 j.toNat * Nat.pow 10 (-i).toNat)

/-- Does `d` lie among the reals that round to `x`? They reach halfway to the neighbours of `x`, and
the ends belong to them when the mantissa is even. -/
def Dyadic.readsBack (x : Dyadic) (d : Decimal) : Bool :=
  let low := compareScaled d.digits d.exponent
    (4 * x.mantissa - if x.closerBelow then 1 else 2) (x.exponent - 2)
  let high := compareScaled d.digits d.exponent (4 * x.mantissa + 2) (x.exponent - 2)
  let even := x.mantissa % 2 == 0
  (low == .gt || (even && low == .eq)) && (high == .lt || (even && high == .eq))

/-- The least `k` such that `x` is below `10 ^ k`, for a magnitude above zero. The binary logarithm
bounds it from below, and the search goes up from there. -/
def Dyadic.scale (x : Dyadic) : Int :=
  let start := (x.mantissa.log2 + x.exponent) * 30103 / 100000
  let fits (k : Int) : Bool := compareScaled 1 k x.mantissa x.exponent == .gt
  ([start, start + 1, start + 2, start + 3].find? fits).getD (start + 4)

/-- The value over `10 ^ unit` as a numerator and a denominator. -/
def Dyadic.over (x : Dyadic) (unit : Int) : Nat × Nat :=
  (x.mantissa * Nat.pow 2 x.exponent.toNat * Nat.pow 10 (-unit).toNat,
    Nat.pow 2 (-x.exponent).toNat * Nat.pow 10 unit.toNat)

/-- A quotient rounded to the nearest whole number, a half to the even one. -/
def roundEven (num den : Nat) : Nat :=
  let q := num / den
  match compare (2 * (num % den)) den with
  | .lt => q
  | .gt => q + 1
  | .eq => q + q % 2

/-- Moves trailing zeros of the digits into the exponent; `fuel` bounds how many. -/
def stripZeros : Nat → Decimal → Decimal
  | 0, d => d
  | fuel + 1, d =>
    if d.digits ≠ 0 ∧ d.digits % 10 = 0 then stripZeros fuel ⟨d.digits / 10, d.exponent + 1⟩
    else d

/-- Of the two points around `x` on the grid of `10 ^ unit`, the nearest that reads back. -/
def Dyadic.onGrid (x : Dyadic) (unit : Int) : Option Decimal :=
  let (num, den) := x.over unit
  let below : Decimal := ⟨num / den, unit⟩
  let above : Decimal := ⟨num / den + 1, unit⟩
  match x.readsBack below, x.readsBack above with
  | true, true => some ⟨roundEven num den, unit⟩
  | true, false => some below
  | false, true => some above
  | false, false => none

/-- The fewest digits that read back to a magnitude above zero: the grids are tried from the
coarsest on, and seventeen digits always suffice. -/
def Dyadic.shortest (x : Dyadic) : Decimal :=
  let k := x.scale
  let found := (List.range 17).findSome? fun n => x.onGrid (k - (n + 1 : Nat))
  let d := found.getD ⟨(x.over (k - 17)).1 / (x.over (k - 17)).2, k - 17⟩
  stripZeros 20 d

/-- A magnitude above zero rounded to `places` significant digits, half to even. -/
def Dyadic.rounded (x : Dyadic) (places : Nat) : Decimal :=
  let unit := x.scale - places
  let (num, den) := x.over unit
  stripZeros (places + 1) ⟨roundEven num den, unit⟩

end Decimal
end Daybook
