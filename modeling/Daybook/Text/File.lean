/-!
The text of a file: its bytes read as Unicode, with every line end made a newline.
-/
namespace Daybook.Text

/-- Makes a newline of a carriage return, together with a newline right behind it. -/
def unifyLineEnds : List Char → List Char
  | [] => []
  | '\r' :: '\n' :: cs => '\n' :: unifyLineEnds cs
  | c :: cs => (if c = '\r' then '\n' else c) :: unifyLineEnds cs

/-- The text that bytes hold, if they hold one. -/
def ofBytes? (bytes : ByteArray) : Option String :=
  (String.fromUTF8? bytes).map fun s => String.ofList (unifyLineEnds s.toList)

/-- What was written as Unicode is read back, with its line ends unified. -/
theorem ofBytes?_toUTF8 (s : String) :
    ofBytes? s.toUTF8 = some (String.ofList (unifyLineEnds s.toList)) := by
  have hvalid : s.toUTF8.IsValidUTF8 := s.isValidUTF8
  rw [ofBytes?, String.fromUTF8?, dif_pos hvalid]
  rfl

end Daybook.Text
