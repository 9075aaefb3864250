import Daybook.Entry
import Daybook.Value.Text
import Daybook.Value.Mapping
import Daybook.Decimal.Parse

/-!
Entries from mappings of another make: there an entry's kind is its `type`, and an amount is a
mapping of `number` and `currency`. All other keys are taken over as they are.
-/
namespace Daybook.Conversion

/-- The keys that are not taken over as fields. -/
def reserved : List String := ["type", "kind", "date", "meta"]

/-- The float that a number, a truth value or a text denotes. -/
def floatOf : Value → Except Fault Float
  | .float x => .ok x
  | .bool b => .ok (if b then 1 else 0)
  | .int n =>
    let x := Decimal.nearest n.natAbs 0
    if x.isInf then .error .numberTooLarge else .ok (if n < 0 then -x else x)
  | .text s =>
    match Decimal.parse? s.toList with
    | some x => .ok x
    | none => .error .notANumber
  | _ => .error .notNumeric

/-- Does a mapping hold a number? -/
def hasNumber (es : List (Value × Value)) : Bool :=
  match Value.lookup es "number" with
  | none => false
  | some .null => false
  | some _ => true

/-- An amount of its parts. A mapping without a number is no amount. -/
def amountOf (es : List (Value × Value)) : Except Fault (Option Amount) :=
  match Value.lookup es "number" with
  | none => .ok none
  | some .null => .ok none
  | some number => do
    let x ← floatOf number
    match Value.lookup es "currency" with
    | none => .error (.missingKey "currency")
    | some currency => return some ⟨x, ← currency.plainText⟩

/-- An amount that may be left out. -/
def amount (v : Value) : Except Fault (Option Amount) :=
  if v.isVacant then .ok none else do amountOf (← v.entries)

/-- The value under a text, or null. -/
def part (es : List (Value × Value)) (name : String) : Value :=
  (Value.lookup es name).getD .null

/-- An amount as a value. -/
def amountValue (a : Option Amount) : Value := (a.map Value.amount).getD .null

/-- A posting: a mapping of account, amount, cost, price, flag and metadata. -/
def posting (v : Value) : Except Fault Value := do
  let es ← v.entries
  let units ← amount (part es "amount")
  let cost ← amount (part es "cost")
  let price ← amount (part es "price")
  let metadata ← (part es "meta").pairsOf
  return .mapping [(.text "account", part es "account"), (.text "amount", amountValue units),
    (.text "cost", amountValue cost), (.text "price", amountValue price),
    (.text "flag", part es "flag"), (.text "meta", .mapping metadata)]

/-- Is the mapping a transaction with postings? -/
def hasPostings (es : List (Value × Value)) : Bool :=
  (part es "type").sameKey (.text "transaction") && !(part es "postings").isVacant

/-- The entries with the postings of a transaction converted. -/
def withPostings (es fields : List (Value × Value)) : Except Fault (List (Value × Value)) :=
  if hasPostings es then do
    return Value.insert fields (.text "postings")
      (.list (← (← (part es "postings").items).mapM posting))
  else .ok fields

/-- The entries with an amount that holds a number converted. -/
def withAmount (es fields : List (Value × Value)) : Except Fault (List (Value × Value)) :=
  match part es "amount" with
  | .mapping parts =>
    if hasNumber parts then do
      return Value.insert fields (.text "amount") (amountValue (← amountOf parts))
    else .ok fields
  | _ => .ok fields

/-- The text under a name; what is missing is empty. -/
def textOf (es : List (Value × Value)) (name : String) : Except Fault String :=
  match Value.lookup es name with
  | none => .ok ""
  | some v => v.plainText

/-- A field has a text for its name. -/
def fieldOf : Value × Value → Except Fault (String × Value)
  | (.text name, v) => .ok (name, v)
  | _ => .error .keyNotText

/-- Metadata has a text for its name and a scalar for its value. -/
def metadataOf : Value × Value → Except Fault (String × Scalar)
  | (.text name, .scalar s) => .ok (name, s)
  | _ => .error .invalidEntry

/-- An entry of a mapping. -/
def entry (v : Value) : Except Fault Entry := do
  let es ← v.entries
  let fields := es.filter fun e => !reserved.any fun name => e.1.sameKey (.text name)
  let fields ← withPostings es fields
  let fields ← withAmount es fields
  let kind ← textOf es "type"
  let date ← textOf es "date"
  let metadata ← (part es "meta").pairsOf
  let fields ← fields.mapM fieldOf
  let metadata ← metadata.mapM metadataOf
  return ⟨date, metadata, .plain kind fields⟩

/-- The entries of everything that walking the value meets. The first that fails fails the whole. -/
def entries (v : Value) : Except Fault (List Entry) := do (← v.items).mapM entry

end Daybook.Conversion
