import Daybook.Value

/-!
Values of a TOML document, and the moments among them.
-/
namespace Daybook

namespace Toml

/-- A day of the calendar. -/
structure Day where
  year : Nat
  month : Nat
  day : Nat
deriving Repr, DecidableEq

/-- A time of the day, down to millionths of a second. -/
structure Clock where
  hour : Nat
  minute : Nat
  second : Nat
  micro : Nat
deriving Repr, DecidableEq

/-- A day, a time, or both with perhaps an offset from universal time in minutes. -/
inductive Moment where
  | day (d : Day)
  | clock (c : Clock)
  | both (d : Day) (c : Clock) (offset : Option Int)
deriving Repr, DecidableEq

/-- Is the year a leap year? -/
def isLeap (year : Nat) : Bool := year % 4 == 0 && (year % 100 != 0 || year % 400 == 0)

/-- The number of days of a month. -/
def daysIn (year month : Nat) : Nat :=
  if month = 2 then if isLeap year then 29 else 28
  else if month = 4 ∨ month = 6 ∨ month = 9 ∨ month = 11 then 30
  else 31

/-- Is there such a day? Years start with the first. -/
def Day.exists (d : Day) : Bool := 1 ≤ d.year && d.day ≤ daysIn d.year d.month

/-- A number with zeros in front up to the width. -/
def padded (width n : Nat) : String :=
  let ds := Nat.toDigits 10 n
  String.ofList (List.replicate (width - ds.length) '0' ++ ds)

/-- The text of a day. -/
def Day.text (d : Day) : String :=
  padded 4 d.year ++ "-" ++ padded 2 d.month ++ "-" ++ padded 2 d.day

/-- The text of a time; the fraction is left out when it is zero. -/
def Clock.text (c : Clock) : String :=
  padded 2 c.hour ++ ":" ++ padded 2 c.minute ++ ":" ++ padded 2 c.second ++
    if c.micro = 0 then "" else "." ++ padded 6 c.micro

/-- The text of an offset in minutes. -/
def offsetText (minutes : Int) : String :=
  (if minutes < 0 then "-" else "+") ++ padded 2 (minutes.natAbs / 60) ++ ":" ++
    padded 2 (minutes.natAbs % 60)

/-- The text of a moment. -/
def Moment.text : Moment → String
  | day d => d.text
  | clock c => c.text
  | both d c offset => d.text ++ " " ++ c.text ++ (offset.map offsetText).getD ""

end Toml

/-- A value of a TOML document. -/
inductive Toml where
  | scalar (s : Scalar)
  | moment (m : Toml.Moment)
  | array (items : List Toml)
  | table (entries : List (String × Toml))

namespace Toml

/-- The entries of a table, in order. -/
abbrev Table := Pairs Toml

/-- The list of names that leads to a value. -/
abbrev Key := List String

/-- Is the value an array or a table? -/
def isNested : Toml → Bool
  | array _ => true
  | table _ => true
  | _ => false

mutual

/-- The value in the terms of the library; a moment is its text. -/
def value : Toml → Value
  | .scalar s => .scalar s
  | .moment m => .text m.text
  | .array items => .list (values items)
  | .table entries => .mapping (valueEntries entries)

/-- The values of an array. -/
def values : List Toml → List Value
  | [] => []
  | v :: vs => value v :: values vs

/-- The entries of a table. -/
def valueEntries : List (String × Toml) → List (Value × Value)
  | [] => []
  | (k, v) :: es => (.text k, value v) :: valueEntries es

end

/-- Changes the table at the end of a key, making tables on the way where there are none. With
`last`, an array of tables stands for its last one; any other value on the way is an obstacle. -/
def alter (last : Bool) (change : Table → Option Table) : Key → Table → Option Table
  | [], t => change t
  | k :: ks, t =>
    match t.get? k with
    | none => (alter last change ks []).map fun u => t.put k (.table u)
    | some (.table u) => (alter last change ks u).map fun u => t.put k (.table u)
    | some (.array items) =>
      match items.getLast?, last with
      | some (.table u), true =>
        (alter last change ks u).map fun u => t.put k (.array (items.dropLast ++ [.table u]))
      | _, _ => none
    | some _ => none

/-- Adds a value under a name that is not taken. -/
def addNew (name : String) (v : Toml) (t : Table) : Option Table :=
  if (t.get? name).isSome then none else some (t.put name v)

/-- Adds an empty table to the array of tables under a name. -/
def addTable (name : String) (t : Table) : Option Table :=
  match t.get? name with
  | none => some (t.put name (.array [.table []]))
  | some (.array items) => some (t.put name (.array (items ++ [.table []])))
  | some _ => none

end Toml
end Daybook
