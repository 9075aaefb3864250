import Daybook.Cursor
import Daybook.Entry
import Daybook.Field

/-!
Directives: what a line of a ledger may be. A schema lists the fields of the line; a directive that
does not fit a schema brings a reader for the whole entry.
-/
namespace Daybook

/-- A description of entries. The reader of a custom directive may look at the whole source. -/
inductive Directive where
  | schema (kind : String) (fields : List Field)
  | custom (kind : String) (read : Cursor → Reading Entry)

namespace Directive
open Daybook.Text

/-- The least indent of a directive's metadata. -/
def metadataIndent : Nat := 2

/-- The kind of entry that the directive describes. -/
def kind : Directive → String
  | schema kind _ => kind
  | custom kind _ => kind

/-- The fields of the directive's schema. -/
def fields : Directive → List Field
  | schema _ fields => fields
  | custom _ _ => []

/-- The values with the tags and links that come next, if some do and no comment starts before
their end. -/
def addMarks (values : Pairs Value) (cs : List Char) : Pairs Value :=
  match Token.marks cs with
  | ([], _) => values
  | (ms, n) =>
    if (Token.commentStart cs).all fun start => decide (n ≤ start) then
      (values.put "tags" (.texts (Mark.tags ms))).put "links" (.texts (Mark.links ms))
    else values

/-- The names that an entry keeps apart from its fields. -/
def reserved : List String := ["date", "kind", "meta"]

/-- The entry of the values. An entry without a date has an empty one. -/
def entryOf (kind : String) (values : Pairs Value) (metadata : Metadata) : Except Flaw Entry :=
  match values.get? "date" with
  | none => .ok ⟨"", metadata, .plain kind (values.without reserved)⟩
  | some (.text date) => .ok ⟨date, metadata, .plain kind (values.without reserved)⟩
  | some _ => .error .dateNotText

/-- The metadata below a directive's line, with the blank lines behind it. -/
def metadataBelow : Reader Metadata := fun cs =>
  match Metadata.block metadataIndent cs with
  | .absent => .found [] 0
  | .found m n => .found m (n + blankLines (cs.drop n))
  | .broken f => .broken f

/-- Reads a line by its fields, the tags and links behind them, and the metadata below. The rest of
the line is left unread. -/
def readSchema (r : Registry) (kind : String) (fields : List Field) : Reader Entry := fun cs =>
  (Field.readAll r fields [] cs).andThen cs fun values rest =>
    ((metadataBelow (rest.drop (lineLength rest))).andThen (rest.drop (lineLength rest))
      fun metadata _ =>
        match entryOf kind (addMarks values rest) metadata with
        | .ok e => .found e 0
        | .error f => .broken f).shift (lineLength rest)

/-- Reads an entry at the cursor and stamps its place. -/
def read (r : Registry) (c : Cursor) : Directive → Reading Entry
  | schema kind fields => (readSchema r kind fields c.rest).map (·.locatedAt c.location)
  | custom _ reader => (reader c).map (·.locatedAt c.location)

end Directive

/-- A named and versioned bundle of directives, which may need other modules beside it. -/
structure Module where
  name : String
  version : String := "1.0.0"
  directives : List Directive := []
  dependencies : List String := []

namespace Module

/-- All directives in the order in which they are tried: modules as they were registered, and
within a module as they were declared. -/
def allDirectives (ms : List Module) : List Directive := ms.flatMap (·.directives)

/-- The kinds of all directives, in the order in which they are tried. -/
def allKinds (ms : List Module) : List String := (allDirectives ms).map (·.kind)

/-- The first module of a name. -/
def find? (ms : List Module) (name : String) : Option Module := ms.find? (·.name = name)

/-- Every dependency that no module of the list meets: the module that has it, and its name. -/
def missing (ms : List Module) : List (String × String) :=
  ms.flatMap fun m =>
    (m.dependencies.filter fun d => !(ms.map (·.name)).contains d).map fun d => (m.name, d)

end Module
end Daybook
