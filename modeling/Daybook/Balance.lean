import Daybook.Value.Text
import Daybook.Entry

/-!
The balancing pass. A transaction in which one posting alone leaves its amount out gets the amount
that makes the postings sum to zero, when the others are all in one currency. A transaction that
stays open is reported and left as it is.
-/
namespace Daybook

/-- Why no amount can be inferred. -/
inductive Shortfall where
  | severalMissing
  | severalCurrencies
  | noOtherAmount
deriving Repr, DecidableEq

/-- The wording of a shortfall. -/
def Shortfall.message : Shortfall → String
  | severalMissing => "more than one posting without amount"
  | severalCurrencies => "cannot infer: multiple currencies present"
  | noOtherAmount => "cannot infer: no other posting carries an amount"

/-- Adds an amount to the totals by currency. -/
def addAmount (totals : Pairs Float) (a : Amount) : Pairs Float :=
  totals.put a.currency ((totals.get? a.currency).getD 0 + a.value)

/-- The totals of the postings by currency, in the order in which the currencies first appear. -/
def totals (ps : List Posting) : Pairs Float :=
  (ps.filterMap (·.amount)).foldl addAmount []

/-- Gives an amount to the postings that have none. -/
def fillIn (a : Amount) (ps : List Posting) : List Posting :=
  ps.map fun p => if p.amount.isNone then { p with amount := some a } else p

namespace Transaction

/-- The postings that leave their amount out. -/
def unfilled (t : Transaction) : List Posting := t.postings.filter (·.amount.isNone)

/-- The transaction with its one missing amount, or why it stays open. -/
def balance (t : Transaction) : Except Shortfall Transaction :=
  match t.unfilled with
  | [] => .ok t
  | [_] =>
    match totals t.postings with
    | [] => .error .noOtherAmount
    | [(currency, total)] => .ok { t with postings := fillIn ⟨-total, currency⟩ t.postings }
    | _ => .error .severalCurrencies
  | _ => .error .severalMissing

end Transaction

namespace Balance

/-- A transaction that the pass left open, and its place among the entries. -/
structure Problem where
  entry : Entry
  index : Nat
  shortfall : Shortfall

/-- Where a problem lies: the entry's location, if its metadata has one that says anything. -/
def Problem.place (p : Problem) : String :=
  match p.entry.location with
  | none => "<unknown>"
  | some s =>
    if (Value.scalar s).isVacant then "<unknown>" else (s.plainText.toOption).getD "<unknown>"

/-- The place and wording of a problem. -/
def Problem.text (p : Problem) : String := p.place ++ ": " ++ p.shortfall.message

/-- The entry after the pass, and why it stays open if it does. -/
def entry (e : Entry) : Entry × Option Shortfall :=
  match e.detail with
  | .transaction t =>
    match t.balance with
    | .ok t => ({ e with detail := .transaction t }, none)
    | .error s => (e, some s)
  | _ => (e, none)

/-- The entries after the pass, in order. -/
def entries (es : List Entry) : List Entry := es.map fun e => (entry e).1

/-- The transactions that stay open, in order. -/
def problems (es : List Entry) : List Problem :=
  es.zipIdx.filterMap fun (e, i) => (entry e).2.map fun s => ⟨e, i, s⟩

end Balance
end Daybook
