import Daybook.Toml.Atom

/-!
TOML documents: statements that set values, open tables and add tables to arrays. A table that was
opened or written out once is not opened again, and what stands in an array or an inline table does
not change.
-/
namespace Daybook.Toml
open Daybook.Text

/-- Drops a comment at the front; its line ends where it ends. -/
def dropComment (cs : List Char) : Except Defect (List Char) :=
  match cs with
  | '#' :: rest =>
    if (lineAhead rest).any isControl then .error .invalid
    else .ok (rest.drop (lineAhead rest).length)
  | cs => .ok cs

/-- Drops white space, newlines and comments between the items of an array. -/
def dropFiller : Nat → List Char → Except Defect (List Char)
  | 0, cs => .ok cs
  | bound + 1, cs => do
    let rest ← dropComment (cs.dropWhile isSpaceOrLine)
    if rest.length = cs.length then return cs else dropFiller bound rest

/-- Drops what may stand between the items of an array. -/
def filler (cs : List Char) : Except Defect (List Char) := dropFiller (cs.length + 1) cs

/-- Does one of the keys lead to the key or above it? -/
def covers (keys : List Key) (key : Key) : Bool := keys.any fun k => !k.isEmpty && k.isPrefixOf key

/-- A value that is neither nested nor a string. -/
def atomAhead (cs : List Char) : Except Defect (Read Toml) :=
  if "true".toList.isPrefixOf cs then .ok (.scalar (.bool true), cs.drop 4)
  else if "false".toList.isPrefixOf cs then .ok (.scalar (.bool false), cs.drop 5)
  else
    match momentAhead cs with
    | some r => r
    | none =>
      match numberAhead cs with
      | some r => r
      | none =>
        match specialAhead cs with
        | some found => .ok found
        | none => .error .invalid

mutual

/-- Reads a value. Each call takes a character or goes one step down, so twice the length of the
text bounds their number. -/
def valueFrom : Nat → List Char → Except Defect (Read Toml)
  | 0, _ => .error .invalid
  | bound + 1, cs =>
    match cs with
    | [] => .error .invalid
    | c :: rest =>
      if c = '"' ∨ c = '\'' then
        (stringAhead cs).map fun (s, left) => (.scalar (.text (String.ofList s)), left)
      else if c = '[' then do
        let (items, left) ← itemsFrom bound (← filler rest)
        return (.array items, left)
      else if c = '\x7b' then
        match rest.dropWhile isSpace with
        | '\x7d' :: left => .ok (.table [], left)
        | body => do
          let (t, left) ← inlineFrom bound [] [] body
          return (.table t, left)
      else atomAhead cs

/-- Reads the items of an array up to its end. -/
def itemsFrom : Nat → List Char → Except Defect (Read (List Toml))
  | 0, _ => .error .invalid
  | bound + 1, cs =>
    match cs with
    | ']' :: left => .ok ([], left)
    | cs => do
      let (v, rest) ← valueFrom bound cs
      match ← filler rest with
      | ']' :: left => return ([v], left)
      | ',' :: rest =>
        let (vs, left) ← itemsFrom bound (← filler rest)
        return (v :: vs, left)
      | _ => throw .invalid

/-- Reads the pairs of an inline table up to its end; `fixed` holds the keys of nested values. -/
def inlineFrom : Nat → List Key → Table → List Char → Except Defect (Read Table)
  | 0, _, _, _ => .error .invalid
  | bound + 1, fixed, t, cs => do
    let (key, rest) ← keyAhead cs
    let rest ← match rest with
      | '=' :: rest => pure (rest.dropWhile isSpace)
      | _ => throw Defect.invalid
    let (v, rest) ← valueFrom bound rest
    if covers fixed key then throw .invalid
    match alter false (addNew (key.getLastD "") v) key.dropLast t with
    | none => throw .invalid
    | some t =>
      match rest.dropWhile isSpace with
      | '\x7d' :: left => return (t, left)
      | ',' :: rest =>
        inlineFrom bound (if v.isNested then key :: fixed else fixed) t (rest.dropWhile isSpace)
      | _ => throw .invalid

end

/-- Reads a value. -/
def valueAhead (cs : List Char) : Except Defect (Read Toml) := valueFrom (2 * cs.length + 2) cs

/-- A document as far as it has been read. -/
structure Draft where
  table : Table := []
  /-- the table that pairs go to -/
  header : Key := []
  /-- tables that are not to be opened any more -/
  opened : List Key := []
  /-- tables that are not to be opened from the next header on -/
  pending : List Key := []
  /-- keys of arrays and inline tables, which do not change -/
  fixed : List Key := []

namespace Draft

/-- The proper beginnings of a key, from the shortest on. -/
def stems (key : Key) : List Key :=
  (List.range (key.length - 1)).map fun i => key.take (i + 1)

/-- Sets a value below the header. -/
def set (d : Draft) (key : Key) (v : Toml) : Option Draft :=
  let full := d.header ++ key
  let passed := (stems key).map (d.header ++ ·)
  if passed.any d.opened.contains || covers d.fixed full.dropLast then none
  else
    (alter true (addNew (full.getLastD "") v) full.dropLast d.table).map fun t =>
      { d with
        table := t
        pending := d.pending ++ passed
        fixed := if v.isNested then full :: d.fixed else d.fixed }

/-- Closes the tables that wait for the next header. -/
def settle (d : Draft) : Draft := { d with opened := d.opened ++ d.pending, pending := [] }

/-- Opens a table. -/
def openTable (d : Draft) (key : Key) : Option Draft :=
  if d.opened.contains key || covers d.fixed key then none
  else
    (alter true some key d.table).map fun t =>
      { d with table := t, header := key, opened := key :: d.opened }

/-- Adds a table to an array of tables and opens it. What is known of the one before is
forgotten. -/
def openItem (d : Draft) (key : Key) : Option Draft :=
  if covers d.fixed key then none
  else
    (alter true (addTable (key.getLastD "")) key.dropLast d.table).map fun t =>
      { d with
        table := t
        header := key
        opened := key :: d.opened.filter fun k => !key.isPrefixOf k
        fixed := d.fixed.filter fun k => !key.isPrefixOf k }

end Draft

/-- A draft that is none is a defect. -/
def orInvalid (d : Option Draft) : Except Defect Draft :=
  match d with
  | some d => .ok d
  | none => .error .invalid

/-- Reads a statement. -/
def statement (d : Draft) (cs : List Char) : Except Defect (Read Draft) := do
  match cs with
  | '[' :: '[' :: rest =>
    let (key, rest) ← keyAhead (rest.dropWhile isSpace)
    match rest with
    | ']' :: ']' :: left => return (← orInvalid (d.settle.openItem key), left)
    | _ => throw .invalid
  | '[' :: rest =>
    let (key, rest) ← keyAhead (rest.dropWhile isSpace)
    match rest with
    | ']' :: left => return (← orInvalid (d.settle.openTable key), left)
    | _ => throw .invalid
  | cs =>
    let (key, rest) ← keyAhead cs
    match rest with
    | '=' :: rest =>
      let (v, left) ← valueAhead (rest.dropWhile isSpace)
      return (← orInvalid (d.set key v), left)
    | _ => throw .invalid

/-- Reads statements, one a line; each line takes a character at least. -/
def statements : Nat → Draft → List Char → Except Defect Draft
  | 0, d, _ => .ok d
  | bound + 1, d, cs => do
    match cs.dropWhile isSpace with
    | [] => return d
    | '\n' :: rest => statements bound d rest
    | cs =>
      let (d, rest) ← if cs.head? = some '#' then pure (d, cs) else statement d cs
      match ← dropComment (rest.dropWhile isSpace) with
      | [] => return d
      | '\n' :: rest => statements bound d rest
      | _ => throw .invalid

/-- Reads a document. -/
def document (text : String) : Except Defect Table := do
  return (← statements (text.toList.length + 1) {} text.toList).table

end Daybook.Toml
