import Daybook.Entry
import Daybook.Decimal.Layout
import Daybook.Text.Shown

/-!
JSON text: two spaces of indent for each level, and everything beyond ASCII spelled out in units of
sixteen bits.
-/
namespace Daybook

/-- A JSON value; objects keep the order of their names. -/
inductive Json where
  | null
  | bool (b : Bool)
  | int (n : Int)
  | float (x : Float)
  | text (s : String)
  | array (items : List Json)
  | object (entries : List (String × Json))

namespace Json

/-- Floats have the fewest digits that identify them; what is no number has a name. -/
def floats : Decimal.Layout :=
  { selection := .shortest, widest := 16, pointZero := true, nan := "NaN", infinity := "Infinity" }

/-- A unit of sixteen bits as an escape. -/
def unitEscape (n : Nat) : List Char := '\\' :: 'u' :: Text.hexadecimal 4 n

/-- A character inside a string. Beyond the first 65,536 it takes two units. -/
def escaped (c : Char) : List Char :=
  if c = '"' then ['\\', '"']
  else if c = '\\' then ['\\', '\\']
  else if c = '\n' then ['\\', 'n']
  else if c = '\r' then ['\\', 'r']
  else if c = '\t' then ['\\', 't']
  else if c = '\x0c' then ['\\', 'f']
  else if c = '\x08' then ['\\', 'b']
  else if 0x20 ≤ c.toNat ∧ c.toNat < 0x7F then [c]
  else if c.toNat < 0x10000 then unitEscape c.toNat
  else
    let rest := c.toNat - 0x10000
    unitEscape (0xD800 + rest / 0x400) ++ unitEscape (0xDC00 + rest % 0x400)

/-- A string between quotes. -/
def quoted (s : String) : String :=
  "\"" ++ String.ofList (s.toList.flatMap escaped) ++ "\""

/-- A new line, indented to a level. -/
def newLine (level : Nat) : String := "\n" ++ String.ofList (List.replicate (2 * level) ' ')

/-- Items between brackets, one a line; none at all leave the brackets empty. -/
def enclosed (opening closing : String) (level : Nat) (items : List String) : String :=
  if items.isEmpty then opening ++ closing
  else opening ++ newLine (level + 1) ++ ("," ++ newLine (level + 1)).intercalate items ++
    newLine level ++ closing

mutual

/-- The text of a value at a level of indent. -/
def render (level : Nat) : Json → String
  | .null => "null"
  | .bool b => if b then "true" else "false"
  | .int n => toString n
  | .float x => floats.render x
  | .text s => quoted s
  | .array items => enclosed "[" "]" level (renderItems (level + 1) items)
  | .object entries => enclosed "\x7b" "\x7d" level (renderEntries (level + 1) entries)

/-- The texts of the items of an array. -/
def renderItems (level : Nat) : List Json → List String
  | [] => []
  | v :: vs => render level v :: renderItems level vs

/-- The texts of the entries of an object. -/
def renderEntries (level : Nat) : List (String × Json) → List String
  | [] => []
  | (k, v) :: es => (quoted k ++ ": " ++ render level v) :: renderEntries level es

end

/-- A list of texts. -/
def texts (ss : List String) : Json := .array (ss.map text)

/-- A value that may be missing. -/
def orNull (v : Option Json) : Json := v.getD .null

/-- A scalar. -/
def ofScalar : Scalar → Json
  | .null => .null
  | .bool b => .bool b
  | .int n => .int n
  | .float x => .float x
  | .text s => .text s

/-- An amount, part by part. -/
def ofAmount (a : Amount) : Json :=
  .object [("value", .float a.value), ("currency", .text a.currency)]

/-- A tag or link, part by part. -/
def ofMark : Mark → Json
  | .tag name => .object [("type", .text "tag"), ("value", .text name)]
  | .link name => .object [("type", .text "link"), ("value", .text name)]

/-- The name of an object's entry; a key that is no text has none. -/
def nameOf : Value → String
  | .text s => s
  | _ => ""

mutual

/-- The value of a field. -/
def ofValue : Value → Json
  | .scalar s => ofScalar s
  | .list vs => .array (ofValues vs)
  | .mapping es => .object (ofEntries es)
  | .amount a => ofAmount a
  | .mark m => ofMark m

/-- The values of a list. -/
def ofValues : List Value → List Json
  | [] => []
  | v :: vs => ofValue v :: ofValues vs

/-- The entries of a mapping. -/
def ofEntries : List (Value × Value) → List (String × Json)
  | [] => []
  | (k, v) :: es => (nameOf k, ofValue v) :: ofEntries es

end

/-- Metadata, in order. -/
def ofMetadata (m : Metadata) : Json := .object (m.map fun (k, v) => (k, ofScalar v))

/-- A posting, part by part. -/
def ofPosting (p : Posting) : Json :=
  .object [("account", .text p.account), ("amount", orNull (p.amount.map ofAmount)),
    ("meta", ofMetadata p.metadata)]

/-- The parts of an entry that its kind alone has. -/
def detailOf : Detail → List (String × Json)
  | .plain _ fields => fields.map fun (k, v) => (k, ofValue v)
  | .transaction t => [("flag", .text t.flag), ("payee", orNull (t.payee.map text)),
      ("narration", .text t.narration), ("postings", .array (t.postings.map ofPosting)),
      ("tags", texts t.tags), ("links", texts t.links)]
  | .unrecognised u => [("type", .text u.type), ("value", orNull (u.value.map text)),
      ("body", .text u.body)]

/-- An entry, part by part. -/
def ofEntry (e : Entry) : Json :=
  .object ([("kind", .text e.kind), ("date", .text e.date), ("meta", ofMetadata e.metadata)] ++
    detailOf e.detail)

end Json
end Daybook
