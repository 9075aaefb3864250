import Daybook.Toml.Value
import Daybook.Text.Line
import Daybook.Decimal.Numeral
import Daybook.Metadata

/-!
The atoms of a TOML document: strings, keys, numbers and moments.
-/
namespace Daybook.Toml
open Daybook.Text

/-- Why a document cannot be read. -/
inductive Defect where
  | invalid
  | integerTooLong
deriving Repr, DecidableEq

/-- What was read, and what is left. -/
abbrev Read (α : Type) := α × List Char

/-- White space inside a line. -/
def isSpace (c : Char) : Bool := isIndent c

/-- White space and newlines. -/
def isSpaceOrLine (c : Char) : Bool := isIndent c || c == '\n'

/-- Controls that may not stand in a string or comment of one line. -/
def isControl (c : Char) : Bool := (c.toNat < 0x20 && c != '\t') || c.toNat == 0x7F

/-- Controls that may not stand in a string of several lines. -/
def isControlOrNot (multiline : Bool) (c : Char) : Bool :=
  isControl c && !(multiline && c == '\n')

/-- The value of a hexadecimal digit. -/
def hexValue (c : Char) : Nat :=
  if c.isDigit then c.toNat - 48 else if c.toNat ≤ 70 then c.toNat - 55 else c.toNat - 87

/-- Is this a hexadecimal digit? -/
def isHex (c : Char) : Bool :=
  c.isDigit || ('a' ≤ c && c ≤ 'f') || ('A' ≤ c && c ≤ 'F')

/-- The number that digits denote in a base. -/
def digitsIn (base : Nat) (ds : List Char) : Nat := ds.foldl (fun n c => base * n + hexValue c) 0

/-- The character of a code of exactly `n` hexadecimal digits. -/
def codeAhead (n : Nat) (cs : List Char) : Except Defect (Read (List Char)) :=
  let ds := cs.take n
  let code := digitsIn 16 ds
  if ds.length = n ∧ ds.all isHex ∧ code.isValidChar then .ok ([Char.ofNat code], cs.drop n)
  else .error .invalid

/-- The line break behind a backslash, with the white space around it. -/
def foldedBreak (cs : List Char) : Except Defect (Read (List Char)) :=
  match cs.dropWhile isSpace with
  | [] => .ok ([], [])
  | '\n' :: rest => .ok ([], rest.dropWhile isSpaceOrLine)
  | _ => .error .invalid

/-- What stands behind a backslash. -/
def escapeAhead (multiline : Bool) : List Char → Except Defect (Read (List Char))
  | [] => .error .invalid
  | c :: rest =>
    if multiline && isSpaceOrLine c then foldedBreak (c :: rest)
    else if c = 'u' then codeAhead 4 rest
    else if c = 'U' then codeAhead 8 rest
    else if c = 'b' then .ok (['\x08'], rest)
    else if c = 't' then .ok (['\t'], rest)
    else if c = 'n' then .ok (['\n'], rest)
    else if c = 'f' then .ok (['\x0c'], rest)
    else if c = 'r' then .ok (['\r'], rest)
    else if c = '"' then .ok (['"'], rest)
    else if c = '\\' then .ok (['\\'], rest)
    else .error .invalid

/-- Takes up to two quotes that belong to a string of several lines, right behind its end. -/
def extraQuotes (quote : Char) (cs : List Char) : List Char × List Char :=
  ((cs.take 2).takeWhile (· == quote), cs.drop ((cs.take 2).takeWhile (· == quote)).length)

/-- Reads a string with escapes behind its opening quotes; each step takes a character at least, so
the length of the text bounds their number. -/
def escapedFrom (multiline : Bool) : Nat → List Char → Except Defect (Read (List Char))
  | 0, _ => .error .invalid
  | _, [] => .error .invalid
  | bound + 1, c :: rest => do
    if c = '"' then
      if !multiline then return ([], rest)
      else if rest.take 2 = ['"', '"'] then
        return extraQuotes '"' (rest.drop 2)
      else
        let (s, left) ← escapedFrom multiline bound rest
        return ('"' :: s, left)
    else if c = '\\' then
      let (e, rest) ← escapeAhead multiline rest
      let (s, left) ← escapedFrom multiline bound rest
      return (e ++ s, left)
    else if isControlOrNot multiline c then throw .invalid
    else
      let (s, left) ← escapedFrom multiline bound rest
      return (c :: s, left)

/-- Reads a string without escapes behind its opening quote. -/
def literalAhead (cs : List Char) : Except Defect (Read (List Char)) :=
  let s := cs.takeWhile (· != '\'')
  match cs.drop s.length with
  | [] => .error .invalid
  | _ :: rest => if s.any isControl then .error .invalid else .ok (s, rest)

/-- Reads a string of several lines without escapes behind its opening quotes. -/
def longLiteralAhead : List Char → Except Defect (Read (List Char))
  | [] => .error .invalid
  | c :: rest =>
    if (c :: rest).take 3 = ['\'', '\'', '\''] then .ok (extraQuotes '\'' (rest.drop 2))
    else if isControlOrNot true c then .error .invalid
    else (longLiteralAhead rest).map fun (s, left) => (c :: s, left)

/-- Drops a newline at the front. -/
def dropBreak : List Char → List Char
  | '\n' :: cs => cs
  | cs => cs

/-- Reads a string on one line. -/
def lineString : List Char → Except Defect (Read (List Char))
  | '"' :: cs => escapedFrom false (cs.length + 1) cs
  | '\'' :: cs => literalAhead cs
  | _ => .error .invalid

/-- Reads a string of any form. -/
def stringAhead (cs : List Char) : Except Defect (Read (List Char)) :=
  match cs with
  | '"' :: '"' :: '"' :: rest => escapedFrom true (rest.length + 1) (dropBreak rest)
  | '\'' :: '\'' :: '\'' :: rest => longLiteralAhead (dropBreak rest)
  | cs => lineString cs

/-- May the character stand in a key without quotes? -/
def isBare (c : Char) : Bool := c.isAlphanum || c == '-' || c == '_'

/-- Reads one name of a key. -/
def nameAhead (cs : List Char) : Except Defect (Read String) :=
  match cs with
  | c :: _ =>
    if isBare c then .ok (String.ofList (cs.takeWhile isBare), cs.dropWhile isBare)
    else (lineString cs).map fun (s, rest) => (String.ofList s, rest)
  | [] => .error .invalid

/-- Reads a key: names with points between, and white space around the points. -/
def keyFrom : Nat → List Char → Except Defect (Read Key)
  | 0, _ => .error .invalid
  | bound + 1, cs => do
    let (name, rest) ← nameAhead cs
    match rest.dropWhile isSpace with
    | '.' :: rest =>
      let (key, rest) ← keyFrom bound (rest.dropWhile isSpace)
      return (name :: key, rest)
    | rest => return ([name], rest)

/-- Reads a key. -/
def keyAhead (cs : List Char) : Except Defect (Read Key) := keyFrom (cs.length + 1) cs

/-- Digits behind a first one, with single underscores between; and what is left. -/
def moreDigits (p : Char → Bool) : List Char → List Char × List Char
  | [] => ([], [])
  | '_' :: c :: cs =>
    if p c then ((c :: (moreDigits p cs).1), (moreDigits p cs).2) else ([], '_' :: c :: cs)
  | c :: cs => if p c then ((c :: (moreDigits p cs).1), (moreDigits p cs).2) else ([], c :: cs)

/-- Digits with single underscores between; none when the first character is no digit. -/
def digitsAhead (p : Char → Bool) : List Char → List Char × List Char
  | [] => ([], [])
  | c :: cs => if p c then (c :: (moreDigits p cs).1, (moreDigits p cs).2) else ([], c :: cs)

/-- An integer in another base, behind its mark. -/
def basedAhead (base : Nat) (p : Char → Bool) (cs : List Char) : Option (Toml × List Char) :=
  match digitsAhead p cs with
  | ([], _) => none
  | (ds, rest) => some (.scalar (.int (digitsIn base ds)), rest)

/-- A fraction at the front, without its point. -/
def fractionDigits (cs : List Char) : List Char × List Char :=
  match cs with
  | '.' :: rest =>
    match digitsAhead Char.isDigit rest with
    | ([], _) => ([], cs)
    | found => found
  | _ => ([], cs)

/-- An exponent at the front: its value, if there is one. -/
def exponentAhead (cs : List Char) : Option Int × List Char :=
  match cs with
  | e :: rest =>
    if e = 'e' ∨ e = 'E' then
      let (negative, body) := match rest with
        | '-' :: body => (true, body)
        | '+' :: body => (false, body)
        | body => (false, body)
      match digitsAhead Char.isDigit body with
      | ([], _) => (none, cs)
      | (ds, rest) =>
        let n : Int := digitsIn 10 ds
        (some (if negative then -n else n), rest)
    else (none, cs)
  | [] => (none, cs)

/-- The whole part of a decimal number: zero, or digits that do not start with it. -/
def wholeDigits (cs : List Char) : Option (List Char × List Char) :=
  match cs with
  | '0' :: rest => some (['0'], rest)
  | c :: _ => if c.isDigit then some (digitsAhead Char.isDigit cs) else none
  | [] => none

/-- A decimal number at the front: an integer, or a float if it has a fraction or an exponent. -/
def decimalAhead (cs : List Char) : Option (Except Defect (Read Toml)) := do
  let (negative, body) := match cs with
    | '-' :: body => (true, body)
    | '+' :: body => (false, body)
    | body => (false, body)
  let (whole, rest) ← wholeDigits body
  let (fraction, rest) := fractionDigits rest
  let (exponent, rest) := exponentAhead rest
  if fraction.isEmpty && exponent.isNone then
    let n : Int := digitsIn 10 whole
    if whole.length ≤ Metadata.maxDigits then
      some (.ok (.scalar (.int (if negative then -n else n)), rest))
    else some (.error .integerTooLong)
  else
    let x := Decimal.nearest (digitsIn 10 (whole ++ fraction)) (exponent.getD 0 - fraction.length)
    some (.ok (.scalar (.float (if negative then -x else x)), rest))

/-- A number at the front. -/
def numberAhead (cs : List Char) : Option (Except Defect (Read Toml)) :=
  let based := match cs with
    | '0' :: 'x' :: rest => basedAhead 16 isHex rest
    | '0' :: 'o' :: rest => basedAhead 8 (fun c => '0' ≤ c && c ≤ '7') rest
    | '0' :: 'b' :: rest => basedAhead 2 (fun c => c == '0' || c == '1') rest
    | _ => none
  match based with
  | some found => some (.ok found)
  | none => decimalAhead cs

/-- Infinity or no number, with a sign or without. -/
def specialAhead (cs : List Char) : Option (Toml × List Char) :=
  let (negative, width) := match cs with
    | '-' :: _ => (true, 1)
    | '+' :: _ => (false, 1)
    | _ => (false, 0)
  let word := String.ofList ((cs.drop width).take 3)
  let found (x : Float) := some (Toml.scalar (.float (if negative then -x else x)),
    cs.drop (width + 3))
  if word = "inf" then found (1.0 / 0.0) else if word = "nan" then found (0.0 / 0.0) else none

/-- A number of exactly `n` digits within bounds, and what is left. -/
def fixedDigits (n low high : Nat) (cs : List Char) : Option (Nat × List Char) :=
  let ds := cs.take n
  let v := digitsIn 10 ds
  if ds.length = n ∧ ds.all Char.isDigit ∧ low ≤ v ∧ v ≤ high then some (v, cs.drop n) else none

/-- What is left behind the given character. -/
def behind (p : Char → Bool) : List Char → Option (List Char)
  | [] => none
  | c :: cs => if p c then some cs else none

/-- A day at the front; whether the month has so many days is looked at later. -/
def dayAhead (cs : List Char) : Option (Day × List Char) := do
  let (year, cs) ← fixedDigits 4 0 9999 cs
  let (month, cs) ← fixedDigits 2 1 12 (← behind (· == '-') cs)
  let (day, cs) ← fixedDigits 2 1 31 (← behind (· == '-') cs)
  return (⟨year, month, day⟩, cs)

/-- The millionths that a fraction of a second holds; further digits are dropped. -/
def microAhead (cs : List Char) : Nat × List Char :=
  match cs with
  | '.' :: rest =>
    let ds := rest.takeWhile Char.isDigit
    if ds.isEmpty then (0, cs)
    else
      let six := ds.take 6
      (digitsIn 10 six * Nat.pow 10 (6 - six.length), rest.drop ds.length)
  | _ => (0, cs)

/-- A time at the front. -/
def clockAhead (cs : List Char) : Option (Clock × List Char) := do
  let (hour, cs) ← fixedDigits 2 0 23 cs
  let (minute, cs) ← fixedDigits 2 0 59 (← behind (· == ':') cs)
  let (second, cs) ← fixedDigits 2 0 59 (← behind (· == ':') cs)
  let (micro, cs) := microAhead cs
  return (⟨hour, minute, second, micro⟩, cs)

/-- An offset from universal time at the front, in minutes. -/
def offsetAhead (cs : List Char) : Option Int × List Char :=
  match cs with
  | [] => (none, cs)
  | c :: rest =>
    if c = 'Z' ∨ c = 'z' then (some 0, rest)
    else
      let found := do
        let (hour, rest) ← fixedDigits 2 0 23 rest
        let (minute, rest) ← fixedDigits 2 0 59 (← behind (· == ':') rest)
        return ((60 * hour + minute : Nat), rest)
      match c, found with
      | '+', some (n, rest) => (some (n : Int), rest)
      | '-', some (n, rest) => (some (-(n : Int)), rest)
      | _, _ => (none, cs)

/-- A moment at the front. -/
def momentAhead (cs : List Char) : Option (Except Defect (Read Toml)) :=
  match dayAhead cs with
  | some (d, rest) =>
    if d.exists then
      match (behind (fun c => c == 'T' || c == 't' || c == ' ') rest).bind clockAhead with
      | some (c, rest) =>
        let (offset, rest) := offsetAhead rest
        some (.ok (.moment (.both d c offset), rest))
      | none => some (.ok (.moment (.day d), rest))
    else some (.error .invalid)
  | none => (clockAhead cs).map fun (c, rest) => .ok (.moment (.clock c), rest)

end Daybook.Toml
