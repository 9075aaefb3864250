import Daybook.Balance
import Daybook.Json
import Daybook.Manifest
import Daybook.Text.Styled

/-!
What the commands do with the files they are given, and what they print. Nothing here looks at a
disk: the settings and the bytes of the files are at hand.
-/
namespace Daybook.CommandLine

/-- How much a note matters. -/
inductive Level where
  | debug
  | info
  | warning
deriving Repr, DecidableEq

/-- The name of a level. -/
def Level.name : Level → String
  | debug => "DEBUG"
  | info => "INFO"
  | warning => "WARNING"

/-- A line of output: of the answer, of errors, or a note of a part of the program. -/
inductive Line where
  | out (text : String)
  | err (text : String)
  | note (level : Level) (part message : String)

/-- What a command comes to: its lines in order, its exit status, and the fault that broke it off, if
that is one that nobody can mend. -/
structure Result where
  lines : List Line
  status : Nat := 0
  fault : Option Fault := none

namespace Result

/-- The end of a command that a fault broke off: a diagnostic is printed. -/
def failed (lines : List Line) (f : Fault) : Result :=
  match f.diagnostic? with
  | some d => ⟨lines ++ [.err ("Error: " ++ d.render)], 1, none⟩
  | none => ⟨lines, 1, some f⟩

/-- A text as it is printed: without terminal sequences. -/
def printed (s : String) : String := String.ofList (Text.unstyled s.toList)

/-- The text of the lines that `pick` picks. -/
def textOf (pick : Line → Option String) (r : Result) : String :=
  String.join ((r.lines.filterMap pick).map (· ++ "\n"))

/-- What is printed as the answer. -/
def answer (r : Result) : String :=
  r.textOf fun
    | .out s => some (printed s)
    | _ => none

/-- What is printed as errors. Notes below a warning are printed only on demand; notes are printed as
they are. -/
def errors (verbose : Bool) (r : Result) : String :=
  r.textOf fun
    | .out _ => none
    | .err s => some (printed s)
    | .note level part message =>
      if verbose || level == .warning then some (level.name ++ " " ++ part ++ ": " ++ message)
      else none

end Result

/-- The part of the program that notes come from. -/
def program : String := "beanparse.cli"

/-- A file that is given to a command. -/
structure Source where
  path : Path
  bytes : ByteArray

/-- What a file holds: its entries, and the transactions that stay open. -/
structure Report where
  path : Path
  entries : List Entry
  problems : List Balance.Problem

/-- The note about an entry: a line that no directive accepts, or a transaction that its comment left
without a body. -/
def noteOf (item : Item) : List Line :=
  match item.entry.detail with
  | .unrecognised u =>
    [.note .debug "beanparse.core.parser" (Recovery.warningAt item.start ++ ": " ++ u.body)]
  | .transaction _ =>
    if Transaction.closedByComment item.start.rest then
      [.note .debug "beanparse.core.transaction" ("Transaction at line " ++
        toString item.start.line ++ " closed by trailing comment")]
    else []
  | .plain _ _ => []

/-- The note about a grammar. -/
def grammarNote (g : Grammar) (config : Configuration) : Line :=
  .note .info "beanparse.core.parser" ("Parser for " ++ g.source ++ ": " ++
    toString config.modules.length ++ " modules, " ++ toString g.directives.length ++
    " directives")

/-- The report of entries, after the balancing pass if it is wanted. -/
def reportOf (balance : Bool) (path : Path) (es : List Entry) : Report :=
  if balance then ⟨path, Balance.entries es, Balance.problems es⟩ else ⟨path, es, []⟩

/-- Reads a file with its grammar. -/
def readWith (g : Grammar) (balance : Bool) (s : Source) : List Line × Except Fault Report :=
  match Text.ofBytes? s.bytes with
  | none => ([], .error .notUtf8)
  | some text =>
    let (items, fault) := g.walk text
    let notes := items.flatMap noteOf
    match fault with
    | some f => (notes, .error f)
    | none =>
      (notes ++ [.note .info program ("Parsed " ++ toString items.length ++ " entries from " ++
        s.path.text)], .ok (reportOf balance s.path (items.map (·.entry))))

/-- Reads a file whose source has a name that cannot be written, and `unwritable` is why. The name is
written with the first entry or diagnostic, so a text that comes to neither can be read. -/
def readNameless (unwritable : Fault) (g : Grammar) (balance : Bool) (s : Source) :
    List Line × Except Fault Report :=
  match Text.ofBytes? s.bytes with
  | none => ([], .error .notUtf8)
  | some text =>
    match g.walk text with
    | ([], none) => readWith g balance s
    | _ => ([], .error unwritable)

/-- Reads a file. -/
def readSource (m : Manifest) (config : Configuration) (balance : Bool) (s : Source) :
    List Line × Except Fault Report :=
  let name := (m.sourceNameFor (some s.path)).plainText
  match Grammar.assemble config (name.toOption.getD ""), name with
  | .error f, _ => ([], .error f)
  | .ok g, .error f => readNameless f g balance s
  | .ok g, .ok _ =>
    let (notes, report) := readWith g balance s
    (grammarNote g config :: notes, report)

/-- Reads files in order, up to the first that fails. -/
def readAll (m : Manifest) (config : Configuration) (balance : Bool) :
    List Source → List Line × Except Fault (List Report)
  | [] => ([], .ok [])
  | s :: rest =>
    match readSource m config balance s with
    | (notes, .error f) => (notes, .error f)
    | (notes, .ok report) =>
      let (more, reports) := readAll m config balance rest
      (notes ++ more, reports.map (report :: ·))

/-- Reads files under the settings. -/
def readSources (m : Manifest) (balance : Bool) (sources : List Source) :
    List Line × Except Fault (List Report) :=
  match m.configuration with
  | .error f => ([], .error f)
  | .ok config => readAll m config balance sources

/-- Does the character end a line of shown text? -/
def endsLine (c : Char) : Bool :=
  c == '\n' || c == '\r' || c == '\x0b' || c == '\x0c' || c == '\x1c' || c == '\x1d' ||
    c == '\x1e' || c == '\u0085' || c == '\u2028' || c == '\u2029'

/-- The first line of a text. -/
def firstLine (s : String) : String := String.ofList (s.toList.takeWhile fun c => !endsLine c)

/-- The text of a scalar, or of null where there is none. -/
def scalarText (s : Option Scalar) : String := ((s.getD .null).plainText.toOption).getD ""

/-- The title of a transaction: its narration, with the payee before if there is one. -/
def titleOf (t : Transaction) : String :=
  match t.payee with
  | none => t.narration
  | some payee => if payee.isEmpty then t.narration else payee ++ " | " ++ t.narration

/-- The fields that a summary leaves out. -/
def hidden : List String := ["keyword", "tags", "links"]

/-- The texts of fields, in order. Null is left out. -/
def fieldTexts (fields : Pairs Value) : Except Fault (List String) :=
  ((fields.without hidden).filterMap fun
    | (_, .null) => none
    | (_, v) => some v).mapM Value.plainText

/-- What an entry says, in one line. -/
def describe (e : Entry) : Except Fault String :=
  match e.detail with
  | .transaction t => .ok (t.flag ++ " \"" ++ titleOf t ++ "\" (" ++ toString t.postings.length ++
      " postings)")
  | .unrecognised u => .ok (scalarText e.warning ++ ": " ++ firstLine u.body)
  | .plain _ fields => do return " ".intercalate (← fieldTexts fields)

/-- The line of an entry. -/
def entryLine (e : Entry) : Except Fault Line := do
  return .out (scalarText e.location ++ "  " ++ e.date ++ "  " ++ e.kind ++ "  " ++ (← describe e))

/-- The lines of a report: its entries, and a warning for each transaction that stays open. -/
def summary (r : Report) : Except Fault (List Line) := do
  return (← r.entries.mapM entryLine) ++ r.problems.map fun p => .note .warning program p.text

/-- The reports as JSON. -/
def jsonOf (rs : List Report) : Json :=
  .array (rs.map fun r => .object [("file", .text r.path.text),
    ("entries", .array (r.entries.map Json.ofEntry)),
    ("balance_errors", Json.texts (r.problems.map (·.text)))])

/-- Shows the entries of files. -/
def parseFiles (m : Manifest) (balance : Option Bool) (json : Bool) (sources : List Source) : Result :=
  match readSources m (balance.getD m.balancing) sources with
  | (notes, .error f) => .failed notes f
  | (notes, .ok reports) =>
    if json then ⟨notes ++ [.out ((jsonOf reports).render 0)], 0, none⟩
    else
      match reports.mapM summary with
      | .ok lines => ⟨notes ++ lines.flatten, 0, none⟩
      | .error f => .failed notes f

/-- What is wrong in a report: the lines that no directive accepts, and then the transactions that
stay open. -/
def complaints (r : Report) : List String :=
  ((r.entries.filter (·.isUnrecognised)).map fun e =>
    scalarText e.location ++ ": " ++ scalarText e.warning) ++ r.problems.map (·.text)

/-- Checks files. -/
def checkFiles (m : Manifest) (sources : List Source) : Result :=
  match readSources m true sources with
  | (notes, .error f) => .failed notes f
  | (notes, .ok reports) =>
    let found := reports.flatMap complaints
    if found.isEmpty then
      ⟨notes ++ [.out ("OK: " ++ toString sources.length ++ " file(s) parsed cleanly.")], 0, none⟩
    else
      ⟨notes ++ found.map Line.err ++ [.err (toString found.length ++ " problem(s) found")], 1, none⟩

/-- The lines of a module: its directives' kinds. -/
def kindLines (m : Module) : List Line :=
  m.directives.map fun d => .out (d.kind ++ "  (" ++ m.name ++ " " ++ m.version ++ ")")

/-- Lists the kinds of all directives, in the order in which they are tried. -/
def listKinds (m : Manifest) : Result :=
  match m.configuration with
  | .ok config => ⟨config.modules.flatMap kindLines, 0, none⟩
  | .error f => .failed [] f

end Daybook.CommandLine
