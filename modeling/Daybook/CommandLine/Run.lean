import Daybook.CommandLine.Arguments
import Daybook.CommandLine.Report

/-!
Running the command line: the files are found and read, and the command answers.
-/
namespace Daybook.CommandLine

/-- The version of the program. -/
def version : String := "0.1.0"

/-- How the command line ends: arguments or paths that cannot be used are refused. -/
inductive Ending where
  | refused
  | done (verbose : Bool) (result : Result)

/-- The manifest of a command, and the notes about it. -/
structure Settings where
  notes : List Line := []
  manifest : Except Fault Manifest := .ok {}

variable {m : Type → Type} [Monad m]

/-- Reads the manifest at a path that is seen from the root. -/
def manifestAt (d : Disk m) (p : Path) : m (Except Fault Manifest) := do
  match ← d.node p with
  | some .directory => return .error .notAFile
  | _ => return Manifest.read p.name (← d.bytes p)

/-- The settings of a command: those of the given manifest, or of the nearest one. -/
def settingsFor (d : Disk m) (config : Option String) (files : List String) : m Settings := do
  match config with
  | some path => return { manifest := ← manifestAt d (d.here.resolve (.ofText path)) }
  | none =>
    match ← Manifest.locate d (Path.ofText (files.headD ".")) with
    | none => return {}
    | some found =>
      return { notes := [.note .debug program ("Using configuration " ++ found.text)]
               manifest := ← manifestAt d found }

/-- Are all paths those of files? -/
def areFiles (d : Disk m) : List String → m Bool
  | [] => return true
  | p :: ps => do
    if (← d.find (.ofText p)) = some .file then areFiles d ps else return false

/-- Reads files. -/
def sourcesAt (d : Disk m) : List String → m (List Source)
  | [] => return []
  | p :: ps => do
    let path := Path.ofText p
    let bytes ← d.bytes (d.here.resolve path)
    return ⟨path, bytes⟩ :: (← sourcesAt d ps)

/-- A command's paths: its files and its manifest. -/
def Command.files : Command → List String
  | .parse files _ _ _ => files
  | .check files _ => files
  | .kinds _ => []

/-- The manifest that a command is given. -/
def Command.config : Command → Option String
  | .parse _ config _ _ => config
  | .check _ config => config
  | .kinds config => config

/-- What a command answers when its settings and files are at hand. -/
def Command.answer (c : Command) (m : Manifest) (sources : List Source) : Result :=
  match c with
  | .parse _ _ balance json => parseFiles m balance json sources
  | .check _ _ => checkFiles m sources
  | .kinds _ => listKinds m

/-- Runs a command. -/
def Command.run (c : Command) (d : Disk m) (verbose : Bool) : m Ending := do
  if !(← areFiles d (c.files ++ c.config.toList)) then return .refused
  let settings ← settingsFor d c.config c.files
  match settings.manifest with
  | .error f => return .done verbose (.failed settings.notes f)
  | .ok manifest =>
    let result := c.answer manifest (← sourcesAt d c.files)
    return .done verbose { result with lines := settings.notes ++ result.lines }

/-- Runs the program on its arguments. -/
def run (d : Disk m) (args : List String) : m Ending := do
  match request? args with
  | none => return .refused
  | some .version => return .done false { lines := [.out ("beanparse version " ++ version)] }
  | some (.run verbose c) => c.run d verbose

end Daybook.CommandLine
