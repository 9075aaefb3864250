import Daybook.Grammar
import Daybook.Path
import Daybook.Text.File
import Daybook.Toml.Document
import Daybook.Toml.Text

/-!
Manifests: the settings of a project, read from a TOML file. Every setting may be left out.
-/
namespace Daybook

/-- The settings of a project. -/
structure Manifest where
  /-- The name that sources are given in place of their own. Its type is not looked at. -/
  sourceName : Option Toml := none
  modules : List String := Builtin.modules.map (·.name)
  /-- Are missing amounts inferred? -/
  balancing : Bool := true

namespace Manifest

/-- The name of the file. -/
def fileName : String := "beanparse.toml"

/-- A section of the document: a table, empty if it is left out. -/
def sectionOf (doc : Toml.Table) (name : String) : Except Fault Toml.Table :=
  match doc.get? name with
  | none => .ok []
  | some (.table t) => .ok t
  | some _ => .error .notAMapping

/-- The text that a value is, if it is one. -/
def text? : Toml → Option String
  | .scalar (.text s) => some s
  | _ => none

/-- The names of the modules: all builtin ones if nothing is said. -/
def modulesOf (file : String) (parser : Toml.Table) : Except Fault (List String) :=
  match parser.get? "modules" with
  | none => .ok (Builtin.modules.map (·.name))
  | some (.array items) =>
    match items.mapM text? with
    | some names => .ok names
    | none => .error (.modulesNotNames file)
  | some _ => .error (.modulesNotNames file)

/-- Whether missing amounts are inferred: they are if nothing is said. -/
def balancingOf (file : String) (balancing : Toml.Table) : Except Fault Bool :=
  match balancing.get? "enabled" with
  | none => .ok true
  | some (.scalar (.bool b)) => .ok b
  | some _ => .error (.enabledNotBool file)

/-- The settings of a document. -/
def ofDocument (file : String) (doc : Toml.Table) : Except Fault Manifest := do
  let parser ← sectionOf doc "parser"
  let modules ← modulesOf file parser
  let balancing ← balancingOf file (← sectionOf doc "balancing")
  return ⟨parser.get? "source_name", modules, balancing⟩

/-- The fault of a document that cannot be read. -/
def faultOf (file : String) : Toml.Defect → Fault
  | .invalid => .invalidManifest file
  | .integerTooLong => .integerTooLong

/-- Reads the settings from the bytes of a file. -/
def read (file : String) (bytes : ByteArray) : Except Fault Manifest := do
  match Text.ofBytes? bytes with
  | none => throw .notUtf8
  | some text =>
    match Toml.document text with
    | .ok doc => ofDocument file doc
    | .error defect => throw (faultOf file defect)

/-- The name of a source: the one that is set, unless it holds nothing; else the name of its file, or
the standard input. -/
def sourceNameFor (m : Manifest) (file : Option Path) : Toml :=
  let own : Toml := .scalar (.text ((file.map Path.name).getD "stdin"))
  match m.sourceName with
  | some v => if v.value.isVacant then own else v
  | none => own

/-- What grammars are made of under these settings. -/
def configuration (m : Manifest) : Except Fault Configuration := do
  return { modules := ← Builtin.named m.modules }

/-- The nearest manifest: in the directory itself, or in that of the file, or above. -/
def locate {m : Type → Type} [Monad m] (d : Disk m) (start : Path) : m (Option Path) := do
  let start := d.here.resolve start
  let directory := if (← d.node start) = some .directory then start else start.parent
  for candidate in directory.andAbove do
    let file := candidate.child fileName
    if (← d.node file).isSome then return some file
  return none

end Manifest
end Daybook
