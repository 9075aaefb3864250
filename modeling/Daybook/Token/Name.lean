import Daybook.Token.Lexeme
import Daybook.Text.DecimalDigit
import Daybook.Text.Blank

/-!
Tokens that are read as the text they are: dates, accounts, flags, currency codes, words, keywords
and mail addresses.
-/
namespace Daybook.Token
open Daybook.Text

/-- A date: four, two and two digits with hyphens between. It need not be in any calendar. -/
def date : Lexeme :=
  let d := isDecimalDigit
  let hyphen : Char → Bool := (· == '-')
  .shape [d, d, d, d, hyphen, d, d, hyphen, d, d]

/-- May the character stand in an account's name? -/
def isAccountChar (c : Char) : Bool := c.isAlphanum || c == ':' || c == '_' || c == '-'

/-- An account: a capital letter and at least one more character. -/
def account : Lexeme := fun cs =>
  (Lexeme.headed Char.isUpper isAccountChar cs).filter fun w => 2 ≤ w.length

/-- The flag of a transaction: complete or incomplete. -/
def flag : Lexeme := .shape [fun c => c == '*' || c == '!']

/-- May the character stand in a currency code? -/
def isCurrencyChar (c : Char) : Bool := c.isUpper || c.isDigit || c == '_'

/-- A currency code on its own; it starts with a letter. -/
def currency : Lexeme := .headed Char.isUpper isCurrencyChar

/-- The currency code of an amount; behind a number it may start with any of its characters. -/
def amountCurrency : Lexeme := .run isCurrencyChar

/-- A run of characters other than white space. -/
def bareWord : Lexeme := .run fun c => !isBlank c

/-- Does the character end a bare item of a list? -/
def endsItem (c : Char) : Bool := isBlank c || c == ',' || c == ';'

/-- A bare item of a list. It does not start like a tag, a link or a quoted string. -/
def bareItem : Lexeme :=
  .headed (fun c => !endsItem c && c != '#' && c != '^' && c != '"') fun c => !endsItem c

/-- The given word, if it is not empty. -/
def literal (w : String) : Lexeme := fun cs =>
  if w.isEmpty then none else Lexeme.word w.toList cs

/-- The given word with white space or the end of the text behind it. -/
def keyword (w : String) : Lexeme := fun cs =>
  (literal w cs).filter fun found => (cs.drop found.length).head?.all isBlank

/-- May the character stand before the at sign of a mail address? -/
def isMailboxChar (c : Char) : Bool :=
  c.isAlphanum || c == '.' || c == '_' || c == '%' || c == '+' || c == '-'

/-- May the character stand in the domain of a mail address? -/
def isDomainChar (c : Char) : Bool := c.isAlphanum || c == '.' || c == '-'

/-- How far a domain reaches: to the end of the letters behind the last point that has at least two
letters behind it. -/
def domainReach : List Char → Option Nat
  | [] => none
  | c :: cs =>
    match domainReach cs with
    | some n => some (n + 1)
    | none =>
      let letters := (cs.takeWhile Char.isAlpha).length
      if c = '.' ∧ 2 ≤ letters then some (letters + 1) else none

/-- A mail address: a mailbox, an at sign and a domain, of which something stands before the
point. -/
def email : Lexeme := fun cs => do
  let mailbox ← Lexeme.run isMailboxChar cs
  let domain ← match cs.drop mailbox.length with
    | '@' :: rest => Lexeme.run isDomainChar rest
    | _ => none
  let reach ← domainReach domain.tail
  return mailbox ++ '@' :: domain.take (reach + 1)

end Daybook.Token
