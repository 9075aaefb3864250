import Daybook.Pairs

/-!
Values: what metadata and the fields of an entry hold.
-/
namespace Daybook

/-- A value of metadata. -/
inductive Scalar where
  | null
  | bool (b : Bool)
  | int (n : Int)
  | float (x : Float)
  | text (s : String)

/-- Metadata keeps the order in which its keys were first written. -/
abbrev Metadata := Pairs Scalar

/-- A quantity of a currency or commodity. -/
structure Amount where
  value : Float
  currency : String

/-- A tag or link token; a mixed run of them keeps the order of the text. -/
inductive Mark where
  | tag (name : String)
  | link (name : String)
deriving Repr, DecidableEq

/-- The names of the tags, in order. -/
def Mark.tags (ms : List Mark) : List String :=
  ms.filterMap fun
    | .tag name => some name
    | .link _ => none

/-- The names of the links, in order. -/
def Mark.links (ms : List Mark) : List String :=
  ms.filterMap fun
    | .tag _ => none
    | .link name => some name

/-- A value of a field. -/
inductive Value where
  | scalar (s : Scalar)
  | list (items : List Value)
  | mapping (entries : List (Value × Value))
  | amount (a : Amount)
  | mark (m : Mark)

namespace Value

@[match_pattern] abbrev null : Value := .scalar .null
@[match_pattern] abbrev bool (b : Bool) : Value := .scalar (.bool b)
@[match_pattern] abbrev int (n : Int) : Value := .scalar (.int n)
@[match_pattern] abbrev float (x : Float) : Value := .scalar (.float x)
@[match_pattern] abbrev text (s : String) : Value := .scalar (.text s)

/-- A list of texts. -/
def texts (ss : List String) : Value := .list (ss.map text)

/-- Metadata as a mapping. -/
def ofMetadata (m : Metadata) : Value := .mapping (m.map fun (k, v) => (text k, .scalar v))

/-- Does the value hold nothing: null, false, a zero, an empty text, list or mapping? -/
def isVacant : Value → Bool
  | null => true
  | bool b => !b
  | int n => n == 0
  | float x => x == 0
  | text s => s.isEmpty
  | list items => items.isEmpty
  | mapping entries => entries.isEmpty
  | amount _ => false
  | mark _ => false

end Value
end Daybook
