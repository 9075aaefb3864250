import Daybook.Token.Amount
import Daybook.Token.Boolean
import Daybook.Token.Mark
import Daybook.Metadata

/-!
Fields: the parts of a directive's line. A field is read by the reader that its type names, or by one
of its own, and a check may refuse what was read. The readers and checks that types and names stand
for are held in registries.
-/
namespace Daybook

/-- Reads the value of a field. -/
abbrev FieldReader := Reader Value

/-- Says whether a value is acceptable. -/
abbrev Check := Value → Except Flaw Bool

/-- The shapes of a field that the library reads. -/
inductive Shape where
  | string
  | number
  | boolean
  | date
  | amount
  | account
  | array
  | email
  | object
  | mark
  | marks
  | quoted
  | currency
  | currencies
  | newline
  | literal (word : String)
  | keyword (word : String)

/-- Reads a field of the given shape. -/
def Shape.read : Shape → FieldReader
  | string, cs => (Token.string cs).map .text
  | number, cs => (Reading.ofOption (Token.number? cs)).map .float
  | boolean, cs => (Reading.ofOption (Token.boolean? cs)).map .bool
  | date, cs => (Token.date.read cs).map .text
  | amount, cs => (Reading.ofOption (Token.amount? cs)).map .amount
  | account, cs => (Token.account.read cs).map .text
  | array, cs => (Token.array cs).map .texts
  | email, cs => (Token.email.read cs).map .text
  | object, cs => (Metadata.block 0 cs).map .ofMetadata
  | mark, cs => (Reading.ofOption (Token.mark? cs)).map .mark
  | marks, cs =>
    match Token.marks cs with
    | ([], _) => .absent
    | (ms, n) => .found (.list (ms.map .mark)) n
  | quoted, cs => (Token.quoted cs).map .text
  | currency, cs => (Token.currency.read cs).map .text
  | currencies, cs => (Reading.ofOption (Token.currencies? cs)).map .texts
  | newline, cs => ((Token.literal "\n").read cs).map .text
  | literal w, cs => ((Token.literal w).read cs).map .text
  | keyword w, cs => ((Token.keyword w).read cs).map .text

/-- The readers that field types name. -/
def FieldReader.builtin : Pairs FieldReader := [
  ("string", Shape.string.read), ("number", Shape.number.read),
  ("boolean", Shape.boolean.read), ("date", Shape.date.read),
  ("amount", Shape.amount.read), ("account", Shape.account.read),
  ("array", Shape.array.read), ("email", Shape.email.read),
  ("object", Shape.object.read), ("tag", Shape.mark.read),
  ("tags", Shape.marks.read), ("tags_and_links", Shape.marks.read)]

/-- A check that a field carries itself or refers to by name. -/
inductive CheckSource where
  | own (check : Check)
  | named (name : String)

/-- A part of a directive's line. -/
structure Field where
  name : String
  /-- the name of the reader, used when the field has none of its own -/
  type : String
  /-- does a directive without this field fail? -/
  required : Bool := false
  /-- the value of a field that is left out -/
  fallback : Option Value := none
  check : Option CheckSource := none
  reader : Option FieldReader := none

/-- The readers and checks that fields refer to by name. -/
structure Registry where
  readers : Pairs FieldReader
  checks : Pairs Check

namespace Field

/-- Does the field's check accept the value? A field without a check accepts all. -/
def accepts (f : Field) (r : Registry) (v : Value) : Except Flaw Bool :=
  match f.check with
  | none => .ok true
  | some (.own check) => check v
  | some (.named name) =>
    match r.checks.get? name with
    | none => .error (.unknownCheck f.name name)
    | some check => check v

/-- Reads the field. What its check refuses counts as not there. -/
def read (f : Field) (r : Registry) : FieldReader := fun cs =>
  match f.reader <|> r.readers.get? f.type with
  | none => .broken (.unknownFieldType f.type)
  | some reader =>
    match reader cs with
    | .found v n =>
      match f.accepts r v with
      | .ok true => .found v n
      | .ok false => .absent
      | .error e => .broken e
    | other => other

/-- The values with what the field gives when it is left out. -/
def orElse (f : Field) (values : Pairs Value) : Pairs Value :=
  match f.fallback with
  | none => values
  | some v => values.put f.name v

/-- Reads fields one after another, white space before each, and adds them to `values`. -/
def readAll (r : Registry) : List Field → Pairs Value → Reader (Pairs Value)
  | [], values, _ => .found values 0
  | f :: fs, values, cs =>
    let gap := Text.inlineBlanks cs
    match f.read r (cs.drop gap) with
    | .broken e => .broken (e.shift gap)
    | .found v n =>
      (readAll r fs (values.put f.name v) (cs.drop (gap + n))).shift (gap + n)
    | .absent =>
      if f.required then .absent
      else (readAll r fs (f.orElse values) (cs.drop gap)).shift gap

end Field
end Daybook
