import Daybook.Value
import Daybook.Fault
import Daybook.Decimal.Digits

/-!
Mappings and lists as values: looking up, walking and building them. Keys that are equal numbers are
one key, whatever kind of number each is.
-/
namespace Daybook

/-- The whole number that a float is, if it is one. -/
def Decimal.whole? (x : Float) : Option Int :=
  if x.isNaN || x.isInf then none
  else
    let d := Dyadic.ofFloat x
    let den := Nat.pow 2 (-d.exponent).toNat
    if d.mantissa % den = 0 then
      let n : Int := (d.mantissa / den * Nat.pow 2 d.exponent.toNat : Nat)
      some (if x < 0 then -n else n)
    else none

namespace Value

/-- The integer that a number is, if it is whole; a truth value counts as one or zero. -/
def whole? : Value → Option Int
  | .bool b => some (if b then 1 else 0)
  | .int n => some n
  | .float x => Decimal.whole? x
  | _ => none

/-- Are two keys the same? -/
def sameKey (a b : Value) : Bool :=
  match a, b with
  | .text s, .text t => s == t
  | .null, .null => true
  | .float x, .float y => x == y
  | .mark m, .mark n => m == n
  | .amount x, .amount y => x.value == y.value && x.currency == y.currency
  | a, b =>
    match a.whole?, b.whole? with
    | some m, some n => m == n
    | _, _ => false

/-- Can the value be a key? -/
def isKey : Value → Bool
  | .list _ => false
  | .mapping _ => false
  | _ => true

/-- Sets a key of a mapping: a key that is there keeps its place. -/
def insert : List (Value × Value) → Value → Value → List (Value × Value)
  | [], key, v => [(key, v)]
  | (k, w) :: rest, key, v =>
    if k.sameKey key then (k, v) :: rest else (k, w) :: insert rest key v

/-- A mapping of entries of which a later one replaces an earlier one of the same key. -/
def mappingOf (es : List (Value × Value)) : Value :=
  .mapping (es.foldl (fun m e => insert m e.1 e.2) [])

/-- The value under a text. -/
def lookup (es : List (Value × Value)) (name : String) : Option Value :=
  (es.find? fun e => e.1.sameKey (.text name)).map (·.2)

/-- The entries of a mapping. -/
def entries : Value → Except Fault (List (Value × Value))
  | .mapping es => .ok es
  | _ => .error .notAMapping

/-- A mark's kind. -/
def markKind : Mark → String
  | .tag _ => "tag"
  | .link _ => "link"

/-- A mark's name. -/
def markName : Mark → String
  | .tag name => name
  | .link name => name

/-- What walking a value meets: the items of a list, the keys of a mapping, the characters of a
text, and the named parts of an amount or mark. -/
def items : Value → Except Fault (List Value)
  | .list vs => .ok vs
  | .mapping es => .ok (es.map (·.1))
  | .text s => .ok (s.toList.map fun c => .text (String.singleton c))
  | .amount a => .ok [.list [.text "value", .float a.value],
      .list [.text "currency", .text a.currency]]
  | .mark m => .ok [.list [.text "type", .text (markKind m)],
      .list [.text "value", .text (markName m)]]
  | _ => .error .notIterable

/-- A key and a value out of an item of two parts. -/
def pairOf (item : Value) : Except Fault (Value × Value) := do
  match ← item.items with
  | [k, v] => if k.isKey then .ok (k, v) else .error .unhashable
  | _ => .error .notAPair

/-- The entries of a mapping, or of anything whose items are pairs. A value that holds nothing has
none. -/
def pairsOf (v : Value) : Except Fault (List (Value × Value)) :=
  if v.isVacant then .ok []
  else
    match v with
    | .mapping es => .ok es
    | v => do return (← (← v.items).mapM pairOf).foldl (fun m e => insert m e.1 e.2) []

end Value
end Daybook
