import Daybook.Toml.Value
import Daybook.Value.Text

/-!
The text of a TOML value. A text stands for itself and a moment for its usual notation; inside an
array or table texts are shown between quotes and moments by their numbers.
-/
namespace Daybook.Toml

/-- The numbers of a moment's parts, in order and with commas between. -/
def numbers (ns : List Nat) : String := ", ".intercalate (ns.map toString)

/-- The numbers of a day. -/
def Day.parts (d : Day) : List Nat := [d.year, d.month, d.day]

/-- The numbers of a time. A second of zero at the end is left out, and so is a fraction of zero. -/
def Clock.parts (c : Clock) : List Nat :=
  [c.hour, c.minute] ++
    if c.micro ≠ 0 then [c.second, c.micro] else if c.second ≠ 0 then [c.second] else []

/-- An offset from universal time, which is given in minutes. What lies west of it is written as a day
back and the seconds that make up for it. -/
def offsetShown (minutes : Int) : String :=
  if minutes = 0 then "datetime.timezone.utc"
  else
    let distance :=
      if minutes < 0 then "days=-1, seconds=" ++ toString (86400 + 60 * minutes)
      else "seconds=" ++ toString (60 * minutes)
    "datetime.timezone(datetime.timedelta(" ++ distance ++ "))"

/-- The text of a moment as it stands inside other values. -/
def Moment.shown : Moment → String
  | day d => "datetime.date(" ++ numbers d.parts ++ ")"
  | clock c => "datetime.time(" ++ numbers c.parts ++ ")"
  | both d c offset => "datetime.datetime(" ++ numbers (d.parts ++ c.parts) ++
      (offset.map fun minutes => ", tzinfo=" ++ offsetShown minutes).getD "" ++ ")"

mutual

/-- The text of a value as it stands inside other values. -/
def shown : Toml → Except Fault String
  | .scalar s => s.shown
  | .moment m => .ok m.shown
  | .array items => do return "[" ++ ", ".intercalate (← shownItems items) ++ "]"
  | .table entries => do return "\x7b" ++ ", ".intercalate (← shownEntries entries) ++ "\x7d"

/-- The texts of the items of an array. -/
def shownItems : List Toml → Except Fault (List String)
  | [] => .ok []
  | v :: vs => do return (← shown v) :: (← shownItems vs)

/-- The texts of the entries of a table. -/
def shownEntries : List (String × Toml) → Except Fault (List String)
  | [] => .ok []
  | (k, v) :: es => do
    return (String.ofList (Text.shown k.toList) ++ ": " ++ (← shown v)) :: (← shownEntries es)

end

/-- The text of a value on its own. -/
def plainText : Toml → Except Fault String
  | .scalar s => s.plainText
  | .moment m => .ok m.text
  | v => v.shown

end Daybook.Toml
