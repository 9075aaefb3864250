/-!
The arguments of the command line. Options of one letter may stand together behind one hyphen, and
the value of an option follows it at once or as the next argument. Two hyphens alone end the
options. Before the name of a command stand the options of the program, behind it those of the
command, which may stand between its files.
-/
namespace Daybook.CommandLine

/-- What the program is asked to do. -/
inductive Command where
  /-- show the entries; `balance` overrides the manifest -/
  | parse (files : List String) (config : Option String) (balance : Option Bool) (json : Bool)
  | check (files : List String) (config : Option String)
  | kinds (config : Option String)
deriving Repr, DecidableEq

/-- What the arguments ask for. -/
inductive Request where
  | version
  | run (verbose : Bool) (command : Command)
deriving Repr, DecidableEq

/-- An option: its letter, if it has one, its name, and whether a value follows. -/
structure Switch where
  letter : Option Char := none
  name : String
  takesValue : Bool := false

/-- Options with their values, in the order given, and the other arguments. -/
structure Parsed where
  options : List (String × String) := []
  rest : List String := []

/-- Adds an option to what follows it. -/
def Parsed.withOption (p : Parsed) (name value : String) : Parsed :=
  { p with options := (name, value) :: p.options }

/-- Adds an argument to what follows it. -/
def Parsed.withRest (p : Parsed) (arg : String) : Parsed := { p with rest := arg :: p.rest }

/-- The letters of an argument behind its hyphen: the options they are, and the value of the last one
if one takes a value. A value is what stands behind the letter; an empty one is still to come. -/
def letters (known : List Switch) : List Char → Option (List (String × Option String))
  | [] => some []
  | c :: cs =>
    match known.find? fun o => o.letter == some c with
    | none => none
    | some o =>
      if o.takesValue then some [(o.name, some (String.ofList cs))]
      else (letters known cs).map ((o.name, none) :: ·)

/-- The name and value of a long option; the value stands behind an equals sign. -/
def splitEquals (arg : String) : String × Option String :=
  let cs := arg.toList
  let name := cs.takeWhile (· != '=')
  match cs.drop name.length with
  | [] => (arg, none)
  | _ :: value => (String.ofList name, some (String.ofList value))

/-- Is the argument one of options? -/
def isOption (arg : String) : Bool := arg.startsWith "-" && arg != "-"

/-- Adds options that have their values to what follows them. -/
def addAll (given : List (String × Option String)) (p : Parsed) : Parsed :=
  given.foldr (fun o p => p.withOption o.1 (o.2.getD "")) p

/-- Reads arguments; with `mixed`, options may stand behind other arguments. An unknown option, a
missing value or one that is not wanted fails. -/
def scan (known : List Switch) (mixed : Bool) : List String → Option Parsed
  | [] => some {}
  | arg :: args =>
    if arg = "--" then some { rest := args }
    else if arg.startsWith "--" then
      let (name, value) := splitEquals arg
      match known.find? fun o => o.name == name with
      | none => none
      | some o =>
        if o.takesValue then
          match value, args with
          | some v, args => (scan known mixed args).map (·.withOption name v)
          | none, v :: args => (scan known mixed args).map (·.withOption name v)
          | none, [] => none
        else if value.isSome then none
        else (scan known mixed args).map (·.withOption name "")
    else if isOption arg then
      match letters known (arg.toList.drop 1) with
      | none => none
      | some given =>
        match given.getLast?, args with
        | some (name, some ""), v :: args =>
          (scan known mixed args).map fun p => addAll given.dropLast (p.withOption name v)
        | some (_, some ""), [] => none
        | _, args => (scan known mixed args).map (addAll given)
    else if mixed then (scan known mixed args).map (·.withRest arg)
    else some { rest := arg :: args }

/-- The options of the program. -/
def programOptions : List Switch :=
  [{ letter := some 'V', name := "--version" }, { letter := some 'v', name := "--verbose" }]

/-- The option for the manifest. -/
def configOption : Switch := { letter := some 'c', name := "--config", takesValue := true }

/-- The options of the command that shows entries. -/
def parseOptions : List Switch :=
  [configOption, { name := "--balance" }, { name := "--no-balance" }, { name := "--json" }]

namespace Parsed

/-- Is the option given? -/
def has (p : Parsed) (name : String) : Bool := p.options.any fun o => o.1 == name

/-- The value of the option; of several the last. -/
def value? (p : Parsed) (name : String) : Option String :=
  (p.options.reverse.find? fun o => o.1 == name).map (·.2)

/-- Which of two opposite options is given last. -/
def choice (p : Parsed) (yes no : String) : Option Bool :=
  (p.options.reverse.find? fun o => o.1 == yes || o.1 == no).map fun o => o.1 == yes

end Parsed

/-- The command of a name and its arguments. -/
def command? (name : String) (args : List String) : Option Command := do
  match name with
  | "parse" =>
    let p ← scan parseOptions true args
    if p.rest.isEmpty then none
    else some (.parse p.rest (p.value? "--config") (p.choice "--balance" "--no-balance")
      (p.has "--json"))
  | "check" =>
    let p ← scan [configOption] true args
    if p.rest.isEmpty then none else some (.check p.rest (p.value? "--config"))
  | "kinds" =>
    let p ← scan [configOption] true args
    if p.rest.isEmpty then some (.kinds (p.value? "--config")) else none
  | _ => none

/-- What the arguments ask for, if they are well formed. Asking for the version outdoes the rest. What
looks like an option in the place of the command, which can stand there behind two hyphens, is read
as an option of the program once more, and only the version can be asked for like this. -/
def request? (args : List String) : Option Request := do
  let p ← scan programOptions false args
  if p.has "--version" then some .version
  else
    match p.rest with
    | [] => none
    | name :: args =>
      if isOption name then
        if (← scan programOptions false (name :: args)).has "--version" then some .version else none
      else (command? name args).map (.run (p.has "--verbose"))

end Daybook.CommandLine
