/-!
Paths: names of files and directories, with a slash between each two. A name of one point stands
for the directory itself and is left out; one of two points stands for the directory above.
-/
namespace Daybook

/-- A path: what it starts with, if that is the root, and its names. -/
structure Path where
  root : String := ""
  names : List String := []
deriving Repr, DecidableEq

namespace Path

/-- Reads a path. Exactly two slashes at the start are kept apart from one. -/
def ofText (s : String) : Path :=
  let slashes := (s.toList.takeWhile (· == '/')).length
  { root := if slashes = 0 then "" else if slashes = 2 then "//" else "/"
    names := (s.splitOn "/").filter fun n => n != "" && n != "." }

/-- Writes a path; without any name it is a point. -/
def text (p : Path) : String :=
  if p.root = "" ∧ p.names = [] then "."
  else p.root ++ "/".intercalate p.names

/-- The last name, if there is one. -/
def name (p : Path) : String := p.names.getLastD ""

/-- The directory above. -/
def parent (p : Path) : Path := { p with names := p.names.dropLast }

/-- A path below this one. -/
def child (p : Path) (name : String) : Path := { p with names := p.names ++ [name] }

/-- Goes through names one after another, where two points lead back up. -/
def walk (base : List String) (names : List String) : List String :=
  names.foldl (fun dir n => if n = ".." then dir.dropLast else dir ++ [n]) base

/-- The path as seen from the root, when the working directory is `here`. -/
def resolve (here p : Path) : Path :=
  if p.root = "" then { here with names := walk here.names p.names }
  else { root := p.root, names := walk [] p.names }

/-- The directory and all those above it, from the nearest on. -/
def andAbove (p : Path) : List Path :=
  (List.range (p.names.length + 1)).map fun i => { p with names := p.names.take (p.names.length - i) }

end Path

/-- What a path leads to. -/
inductive Node where
  | file
  | directory
deriving Repr, DecidableEq

/-- How files are looked at; paths are seen from the root. -/
structure Disk (m : Type → Type) where
  here : Path
  node : Path → m (Option Node)
  bytes : Path → m ByteArray

namespace Disk
variable {m : Type → Type} [Monad m]

/-- The directories that a path goes back from by two points. -/
def left (d : Disk m) (p : Path) : List Path :=
  (List.range p.names.length).filterMap fun i =>
    if p.names[i]? = some ".." then some (d.here.resolve { p with names := p.names.take i }) else none

/-- Is every one of the paths that of a directory? -/
def areDirectories (d : Disk m) : List Path → m Bool
  | [] => return true
  | p :: ps => do
    if (← d.node p) = some .directory then areDirectories d ps else return false

/-- What a path leads to from the working directory. Every part that the path goes back from is a
directory. -/
def find (d : Disk m) (p : Path) : m (Option Node) := do
  if ← d.areDirectories (d.left p) then d.node (d.here.resolve p) else return none

end Disk
end Daybook
