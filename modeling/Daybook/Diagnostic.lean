import Daybook.Text.Line

/-!
Diagnostics: what is said of a failure. A diagnostic may name a place and show the lines around it,
each with its number, and a marker below the place.
-/
namespace Daybook

/-- A place in a source, with an excerpt of the lines around it and the module concerned; an empty
excerpt or module is left out. -/
structure Context where
  source : String
  line : Int
  column : Int
  snippet : List Char := []
  module : String := ""

namespace Context

/-- Fills up with spaces on the left. -/
def padLeft (width : Nat) (cs : List Char) : List Char :=
  List.replicate (width - cs.length) ' ' ++ cs

/-- What stands before a numbered line. -/
def gutter (n : Int) : List Char := padLeft 4 (toString n).toList ++ " | ".toList

/-- The marker below a place of line `n`. -/
def marker (n column : Int) : List Char :=
  List.replicate ((gutter n).length + column - 1).toNat ' ' ++ "^^^".toList

/-- The number of the excerpt's first line: it shows up to two lines before the place. -/
def firstLine (line : Int) : Int := max 1 (line - 2)

/-- Numbers lines from `n` on and marks the place below its line. -/
def numbered (line column : Int) : Int → List (List Char) → List (List Char)
  | _, [] => []
  | n, l :: ls =>
    (gutter n ++ l) ::
      if n = line then marker n column :: numbered line column (n + 1) ls
      else numbered line column (n + 1) ls

/-- The text of the place. -/
def render (c : Context) : String :=
  let place := c.source ++ ":" ++ toString c.line ++ ":" ++ toString c.column ++
    if c.module.isEmpty then "" else " in module " ++ c.module
  if c.snippet.isEmpty then place
  else place ++ "\n" ++ String.ofList
    (Text.unlines (numbered c.line c.column (firstLine c.line) (Text.lines c.snippet)))

end Context

/-- What a failure concerns. -/
inductive Diagnostic.Kind where
  | general
  /-- a text that cannot be read -/
  | reading
  /-- fields, modules or a manifest that cannot be used -/
  | configuration
  /-- modules that do not fit together -/
  | modules (violations : List String)
  /-- a request that was answered by an error -/
  | request (id : Int)

/-- What is said of a failure. -/
structure Diagnostic where
  kind : Diagnostic.Kind
  message : String
  context : Option Context := none

namespace Diagnostic

/-- The whole text: the place, if there is one, and the message. -/
def render (d : Diagnostic) : String :=
  match d.context with
  | none => d.message
  | some c => c.render ++ "\n" ++ d.message

/-- The diagnostic of modules that do not fit together. -/
def ofViolations (violations : List String) : Diagnostic :=
  ⟨.modules violations, "Module validation failed: " ++ ", ".intercalate violations, none⟩

end Diagnostic
end Daybook
