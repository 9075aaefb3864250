import Daybook.Directive
import Daybook.Fault
import Daybook.Transaction

/-!
The builtin modules: accounts and prices, transactions, and budgets.
-/
namespace Daybook.Builtin

/-- The date and keyword that start a directive. -/
def header (word : String) : List Field := [
  { name := "date", type := "date", required := true },
  { name := "keyword", type := "string", required := true,
    reader := some (Shape.keyword word).read }]

/-- The field for an account. -/
def account : Field := { name := "account", type := "account", required := true }

/-- The field for an amount. -/
def amount : Field := { name := "amount", type := "amount", required := true }

/-- Opens an account, perhaps for certain currencies. -/
def openDirective : Directive := .schema "open" (header "open" ++ [account,
  { name := "currencies", type := "array", reader := some Shape.currencies.read }])

/-- Closes an account. -/
def closeDirective : Directive := .schema "close" (header "close" ++ [account])

/-- States what an account holds. -/
def balanceDirective : Directive := .schema "balance" (header "balance" ++ [account, amount])

/-- States the price of a commodity. -/
def priceDirective : Directive := .schema "price" (header "price" ++ [
  { name := "commodity", type := "string", required := true }, amount])

/-- Attaches a comment to an account. -/
def noteDirective : Directive := .schema "note" (header "note" ++ [account,
  { name := "comment", type := "string", required := true, reader := some Shape.quoted.read }])

/-- A period does not start like a tag, a link or a comment. -/
def isPeriod : Check
  | .text s => .ok (!s.toList.head?.any fun c => c == '#' || c == '^' || c == ';')
  | _ => .error .notText

/-- Sets a budget for an account, by the month if no period is given. -/
def budgetDirective : Directive := .schema "budget" (header "budget" ++ [account, amount,
  { name := "period", type := "string", fallback := some (.text "monthly"),
    check := some (.own isPeriod) }])

/-- Accounts, balances, prices and notes. -/
def core : Module :=
  { name := "core-beancount"
    directives := [openDirective, closeDirective, balanceDirective, priceDirective, noteDirective] }

/-- Transactions. -/
def transactions : Module :=
  { name := "transactions"
    directives := [.custom "transaction" fun c => Transaction.read c.rest]
    dependencies := ["core-beancount"] }

/-- Budgets. -/
def reporting : Module := { name := "custom-reporting", directives := [budgetDirective] }

/-- All builtin modules in the order in which they are tried. -/
def modules : List Module := [core, transactions, reporting]

/-- The builtin modules of the given names, in the order given. -/
def named (names : List String) : Except Fault (List Module) :=
  match names.filter fun n => (Module.find? modules n).isNone with
  | [] => .ok (names.filterMap (Module.find? modules))
  | unknown => .error (.unknownModules unknown (modules.map (·.name)))

end Daybook.Builtin
