import Daybook.Cursor
import Daybook.Reading
import Daybook.Diagnostic

/-!
Faults: why an operation fails. Those that a user can mend have a diagnostic, and whoever runs an
operation for others reports them; the rest pass through.
-/
namespace Daybook

/-- Why an operation fails. -/
inductive Fault where
  /-- no quote closes the string that opens at the cursor -/
  | unclosedString (start : Cursor)
  | unknownFieldType (type : String)
  | unknownCheck (field check : String)
  /-- names that no builtin module has, and the names that there are -/
  | unknownModules (names available : List String)
  /-- modules and the dependencies they miss -/
  | missingDependencies (missing : List (String × String))
  /-- a manifest that is no document -/
  | invalidManifest (file : String)
  | modulesNotNames (file : String)
  | enabledNotBool (file : String)
  /-- the error that answered a request -/
  | requestFailed (id : Int) (message : String)
  /-- an integer with more digits than are read -/
  | integerTooLong
  /-- a text that is no number -/
  | notANumber
  /-- an item that is no pair -/
  | notAPair
  /-- a value that has no items -/
  | notIterable
  /-- a value that no number can be made of -/
  | notNumeric
  /-- a list or mapping used as a key -/
  | unhashable
  /-- a key of an entry's field that is no text -/
  | keyNotText
  /-- a value that is no mapping -/
  | notAMapping
  /-- a value that is no text -/
  | notText
  | missingKey (key : String)
  /-- an integer beyond every float -/
  | numberTooLarge
  /-- data that no entry can have -/
  | invalidEntry
  /-- bytes that are no text -/
  | notUtf8
  /-- a directory where a file is read -/
  | notAFile
  /-- a directive that matched without moving on -/
  | stalled

namespace Fault

/-- The fault of a flaw that was met from the cursor on. -/
def ofFlaw (c : Cursor) : Flaw → Fault
  | .unclosedString offset => .unclosedString (c.advance offset)
  | .integerTooLong => .integerTooLong
  | .unknownFieldType type => .unknownFieldType type
  | .unknownCheck field check => .unknownCheck field check
  | .notText => .notText
  | .dateNotText => .invalidEntry

/-- The sentence about a dependency that is not met. -/
def violation (missing : String × String) : String :=
  "Module '" ++ missing.1 ++ "' depends on missing module '" ++ missing.2 ++ "'"

/-- Names between quotes and brackets. -/
def nameList (names : List String) : String :=
  "[" ++ ", ".intercalate (names.map fun n => "'" ++ n ++ "'") ++ "]"

/-- The place of a cursor, with two lines before and behind. -/
def contextOf (c : Cursor) : Context :=
  { source := c.source, line := c.line, column := c.column,
    snippet := Text.excerpt c.text c.line 2 }

/-- What is said of the fault, if a user can mend it. -/
def diagnostic? : Fault → Option Diagnostic
  | unclosedString c =>
    some ⟨.reading, "Unterminated string at line " ++ toString c.line, some (contextOf c)⟩
  | unknownFieldType type =>
    some ⟨.configuration, "No parser registered for field type: " ++ type, none⟩
  | unknownCheck field check =>
    some ⟨.configuration,
      "No validator registered for field '" ++ field ++ "': " ++ check, none⟩
  | unknownModules names available =>
    some ⟨.configuration, "Unknown builtin module(s): " ++ ", ".intercalate names ++
      ". Available modules: " ++ nameList available, none⟩
  | missingDependencies missing => some (.ofViolations (missing.map violation))
  | invalidManifest file => some ⟨.configuration, "Invalid " ++ file, none⟩
  | modulesNotNames file =>
    some ⟨.configuration, file ++ ": parser.modules must be a list of module names", none⟩
  | enabledNotBool file =>
    some ⟨.configuration, file ++ ": balancing.enabled must be true or false", none⟩
  | requestFailed id message => some ⟨.request id, message, none⟩
  | _ => none

end Fault
end Daybook
