import Daybook.Token.Name
import Daybook.Decimal.Numeral

/-!
Numbers, amounts and lists of currency codes.
-/
namespace Daybook.Token
open Daybook.Text

/-- A number, with its length. -/
def number? (cs : List Char) : Option (Float × Nat) :=
  (Numeral.ahead? cs).map fun n => (n.toFloat, n.text.length)

/-- An amount: a number, white space or none, and a currency code. -/
def amount? (cs : List Char) : Option (Amount × Nat) := do
  let n ← Numeral.ahead? cs
  let behind := cs.drop n.text.length
  let code ← amountCurrency (behind.drop (inlineBlanks behind))
  return (⟨n.toFloat, String.ofList code⟩, n.text.length + inlineBlanks behind + code.length)

/-- Further currency codes, each behind a comma that may have white space after it; and how far they
reach. -/
def moreCurrencies (cs : List Char) : List String × Nat :=
  match cs with
  | ',' :: rest =>
    match currency (rest.drop (inlineBlanks rest)) with
    | none => ([], 0)
    | some code =>
      let n := inlineBlanks rest + code.length
      let (codes, k) := moreCurrencies (rest.drop n)
      (String.ofList code :: codes, n + 1 + k)
  | _ => ([], 0)
termination_by cs.length
decreasing_by
  simp only [List.length_drop, List.length_cons]
  omega

/-- A list of currency codes with commas between. -/
def currencies? (cs : List Char) : Option (List String × Nat) :=
  (currency cs).map fun code =>
    let (codes, k) := moreCurrencies (cs.drop code.length)
    (String.ofList code :: codes, code.length + k)

end Daybook.Token
