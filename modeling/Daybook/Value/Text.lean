import Daybook.Value
import Daybook.Fault
import Daybook.Decimal.Layout
import Daybook.Text.Shown

/-!
The text of a value. A text stands for itself; inside a list or mapping it is shown between quotes.
-/
namespace Daybook

/-- The most digits an integer may have to be written. -/
def maxWrittenDigits : Nat := 4300

/-- The text of an integer. -/
def integerText (n : Int) : Except Fault String :=
  if n.natAbs < Nat.pow 10 maxWrittenDigits then .ok (toString n) else .error .integerTooLong

namespace Scalar

/-- The text of a scalar as it stands inside other values. -/
def shown : Scalar → Except Fault String
  | null => .ok "None"
  | bool b => .ok (if b then "True" else "False")
  | int n => integerText n
  | float x => .ok (Decimal.plain.render x)
  | text s => .ok (String.ofList (Text.shown s.toList))

/-- The text of a scalar on its own. -/
def plainText : Scalar → Except Fault String
  | text s => .ok s
  | v => v.shown

end Scalar

namespace Amount

/-- The text of an amount: its number with six significant digits, and its currency. -/
def text (a : Amount) : String := Decimal.sixPlaces.render a.value ++ " " ++ a.currency

/-- The text of an amount as it stands inside other values. -/
def shown (a : Amount) : String :=
  "Amount(value=" ++ Decimal.plain.render a.value ++ ", currency=" ++
    String.ofList (Text.shown a.currency.toList) ++ ")"

end Amount

namespace Mark

/-- The name and kind of a mark, with a separator between. -/
def describe (separator : String) : Mark → String
  | tag name => "type='tag'" ++ separator ++ "value=" ++ String.ofList (Text.shown name.toList)
  | link name => "type='link'" ++ separator ++ "value=" ++ String.ofList (Text.shown name.toList)

end Mark

namespace Value

mutual

/-- The text of a value as it stands inside other values. -/
def shown : Value → Except Fault String
  | .scalar s => s.shown
  | .list vs => do return "[" ++ ", ".intercalate (← shownItems vs) ++ "]"
  | .mapping es => do return "\x7b" ++ ", ".intercalate (← shownEntries es) ++ "\x7d"
  | .amount a => .ok a.shown
  | .mark m => .ok ("TagOrLink(" ++ m.describe ", " ++ ")")

/-- The texts of the items of a list. -/
def shownItems : List Value → Except Fault (List String)
  | [] => .ok []
  | v :: vs => do return (← shown v) :: (← shownItems vs)

/-- The texts of the entries of a mapping. -/
def shownEntries : List (Value × Value) → Except Fault (List String)
  | [] => .ok []
  | (k, v) :: es => do return ((← shown k) ++ ": " ++ (← shown v)) :: (← shownEntries es)

end

/-- The text of a value on its own. -/
def plainText : Value → Except Fault String
  | .scalar s => s.plainText
  | .amount a => .ok a.text
  | .mark m => .ok (m.describe " ")
  | v => v.shown

end Value
end Daybook
