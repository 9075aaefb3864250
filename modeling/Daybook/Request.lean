import Daybook.Value.Text
import Daybook.Value.Mapping
import Daybook.Decimal.Parse

/-!
Requests: messages that ask for files to be read. A message is a mapping of an id, a type and data;
what is wrong with it is counted, one for each part that is missing or bad.
-/
namespace Daybook

/-- A file to be read: its text and the name of its source. -/
structure SourceFile where
  text : String
  name : String := "stdin"
deriving Repr, DecidableEq

/-- What is asked for: the entries of one file, or the results of several. -/
inductive Request where
  | single (id : Int) (file : SourceFile)
  | batch (id : Int) (files : List SourceFile)
deriving Repr, DecidableEq

/-- The number that the answers to a request carry. -/
def Request.id : Request → Int
  | single id _ => id
  | batch id _ => id

namespace Request

/-- A part of a message, or how much is wrong with it. -/
abbrev Checked (α : Type) := Except Nat α

namespace Checked
variable {α β : Type}

/-- Two parts, of which the faults are counted together. -/
def both : Checked α → Checked β → Checked (α × β)
  | .ok a, .ok b => .ok (a, b)
  | .ok _, .error n => .error n
  | .error m, .ok _ => .error m
  | .error m, .error n => .error (m + n)

/-- All parts, of which the faults are counted together. -/
def all : List (Checked α) → Checked (List α)
  | [] => .ok []
  | a :: rest => (both a (all rest)).map fun (v, vs) => v :: vs

end Checked

/-- The most digits that an id may have. -/
def maxIdDigits : Nat := 4300

/-- What is left of a text behind zeros, of which `last` was the last character. Underscores among
them go with them; a zero before a point or at the end stays. -/
def afterZeros (last : Char) : List Char → Option (List Char)
  | [] => some [last]
  | c :: cs =>
    if c = '0' ∨ c = '_' then afterZeros c cs
    else if c = '.' then some (last :: c :: cs)
    else if c = '-' ∨ c.isDigit then some (c :: cs)
    else none

/-- Drops zeros at the front of what starts with a digit. A minus may come behind the zeros. -/
def withoutZeros : List Char → Option (List Char)
  | [] => none
  | c :: cs =>
    if c = '0' then afterZeros c cs
    else if c.isDigit then some (c :: cs)
    else none

/-- Drops a plus at the front, and zeros behind a sign or at the front. -/
def withoutPadding : List Char → Option (List Char)
  | '+' :: cs => withoutZeros cs
  | '-' :: cs => (withoutZeros cs).map ('-' :: ·)
  | cs => withoutZeros cs

/-- Drops a point and the zeros behind it. There is at least one, and nothing else. -/
def withoutFraction (cs : List Char) : List Char :=
  let whole := cs.takeWhile (· != '.')
  match cs.drop whole.length with
  | _ :: z :: zs => if (z :: zs).all (· == '0') then whole else cs
  | _ => cs

/-- Drops underscores. They stay, and spoil the text, where one stands at an end or two stand
together. -/
def withoutUnderscores (cs : List Char) : List Char :=
  if cs.head? = some '_' ∨ cs.getLast? = some '_' ∨ (cs.zip cs.tail).contains ('_', '_') then cs
  else cs.filter (· != '_')

/-- The integer that ASCII digits denote, perhaps with a minus before them. No zero stands in front
of other digits. -/
def integer? (cs : List Char) : Option Int :=
  let (negative, ds) := Numeral.splitSign cs
  if ds ≠ [] ∧ ds.all Char.isDigit ∧ (ds.head? = some '0' → ds.length = 1) ∧
      ds.length ≤ maxIdDigits then
    some (if negative then -(Text.digitsValue ds : Int) else Text.digitsValue ds)
  else none

/-- The integer that a text denotes: white space around it, a plus, zeros at the front or behind its
sign, a fraction of zeros and single underscores are left out, in this order. Like `idOf?`, this
stands for the lax integer validation of the library that checks messages, and is taken from how
that library behaves. -/
def integerText? (cs : List Char) : Option Int := do
  let written := Text.dropTrailing Decimal.isPadding (cs.dropWhile Decimal.isPadding)
  integer? (withoutUnderscores (withoutFraction (← withoutPadding written)))

/-- The id that a value denotes: a whole number, if it is a float one of 64 bits, a truth value, or
the text of an integer. This stands for the lax integer validation of the library that checks
messages, which is not part of the program. It is the one assumption about that library under what
is proved of rejected messages, which uses of it only that an integer denotes itself, and a truth
value one or zero. -/
def idOf? : Value → Option Int
  | .bool b => some (if b then 1 else 0)
  | .int n => some n
  | .float x => if x.abs < 9223372036854775808.0 then Decimal.whole? x else none
  | .text s => integerText? s.toList
  | _ => none

/-- A text under a name. -/
def textIn (es : List (Value × Value)) (name : String) (missing : Checked String) : Checked String :=
  match Value.lookup es name with
  | none => missing
  | some (.text s) => .ok s
  | some _ => .error 1

/-- The file that a value describes; without a name it is the standard input. -/
def fileOf : Value → Checked SourceFile
  | .mapping es =>
    (Checked.both (textIn es "text" (.error 1)) (textIn es "filename" (.ok "stdin"))).map
      fun (text, name) => { text, name }
  | _ => .error 1

/-- The files that a value lists; without a list there are none. -/
def filesOf : Value → Checked (List SourceFile)
  | .mapping es =>
    match Value.lookup es "files" with
    | none => .ok []
    | some (.list vs) => Checked.all (vs.map fileOf)
    | some _ => .error 1
  | _ => .error 1

/-- The id of a message. -/
def idIn (es : List (Value × Value)) : Checked Int :=
  match (Value.lookup es "id").bind idOf? with
  | some id => .ok id
  | none => .error 1

/-- The data of a message. -/
def dataIn {α : Type} (es : List (Value × Value)) (read : Value → Checked α) : Checked α :=
  match Value.lookup es "data" with
  | some v => read v
  | none => .error 1

/-- Why a message is no request. -/
inductive Rejection where
  | unknownType (type : Value)
  | invalid (type : String) (count : Nat)

/-- The wording of a rejection. -/
def Rejection.message : Rejection → Except Fault String
  | unknownType type => do return "Unknown message type: " ++ (← type.plainText)
  | invalid type count => .ok ("Invalid " ++ type ++ " request: " ++ toString count ++
      " validation error(s)")

/-- The request of a message. Its type is looked at first. -/
def ofMessage (es : List (Value × Value)) : Except Rejection Request :=
  match (Value.lookup es "type").getD .null with
  | .text "parse" =>
    match Checked.both (idIn es) (dataIn es fileOf) with
    | .ok (id, file) => .ok (.single id file)
    | .error n => .error (.invalid "parse" n)
  | .text "parseMultiple" =>
    match Checked.both (idIn es) (dataIn es filesOf) with
    | .ok (id, files) => .ok (.batch id files)
    | .error n => .error (.invalid "parseMultiple" n)
  | type => .error (.unknownType type)

/-- The id that the answer to a rejected message carries: its own, if that is an integer or a truth
value, and zero otherwise. -/
def rejectedId (es : List (Value × Value)) : Int :=
  match Value.lookup es "id" with
  | some (.int n) => n
  | some (.bool b) => if b then 1 else 0
  | _ => 0

end Request
end Daybook
