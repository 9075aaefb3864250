import Daybook.Text.Line

/-!
Cursors: a place in a source text. A cursor only ever moves forward, and going back is keeping an
earlier one. Lines and columns count from one, and only newlines end lines.
-/
namespace Daybook

/-- A place in a text: what lies ahead, how many characters lie behind, and the line and column. -/
structure Cursor where
  source : String
  text : List Char
  rest : List Char
  position : Nat
  line : Nat
  column : Nat
  rest_eq : rest = text.drop position

namespace Cursor

/-- The start of a text. -/
def start (source : String) (text : List Char) : Cursor :=
  ⟨source, text, text, 0, 1, 1, rfl⟩

/-- The column after the characters `taken`, from column `column` on. -/
def columnAfter (column : Nat) (taken : List Char) : Nat :=
  taken.foldl (fun n c => if c = '\n' then 1 else n + 1) column

/-- Moves over the next `n` characters, or to the end when there are fewer. -/
def advance (c : Cursor) (n : Nat) : Cursor :=
  let taken := c.rest.take n
  { source := c.source
    text := c.text
    rest := c.rest.drop n
    position := c.position + taken.length
    line := c.line + taken.count '\n'
    column := columnAfter c.column taken
    rest_eq := by
      rw [c.rest_eq, List.drop_drop, List.length_take]
      rcases Nat.le_total n (c.rest.length) with h | h
      · rw [Nat.min_eq_left h]
      · rw [Nat.min_eq_right h]
        have hl : c.rest.length = c.text.length - c.position := by
          rw [c.rest_eq, List.length_drop]
        rw [List.drop_eq_nil_of_le (by omega), List.drop_eq_nil_of_le (by omega)] }

/-- Moves by a count that may be negative; such a count moves nowhere. -/
def move (c : Cursor) (n : Int) : Cursor := c.advance n.toNat

/-- Is the whole text behind? -/
def isAtEnd (c : Cursor) : Bool := c.rest.isEmpty

/-- The next character. -/
def next? (c : Cursor) : Option Char := c.rest.head?

/-- The character `offset` places from the cursor; a negative offset looks back. -/
def peek? (c : Cursor) (offset : Int) : Option Char :=
  let i := c.position + offset
  if i < 0 then none else c.text[i.toNat]?

/-- The place as an entry's metadata names it. -/
def location (c : Cursor) : String := c.source ++ ":" ++ toString c.line

/-- The cursor as a text: source, line, column and position. -/
def describe (c : Cursor) : String :=
  "Cursor(" ++ c.location ++ ":" ++ toString c.column ++ " @" ++ toString c.position ++ ")"

/-- The end of the current line, before its newline. -/
def skipToEndOfLine (c : Cursor) : Cursor := c.advance (Text.lineAhead c.rest).length

/-- The start of the next line, or the end of the text. -/
def skipLine (c : Cursor) : Cursor := c.advance (Text.lineLength c.rest)

/-- Behind the blank lines at the cursor. -/
def skipBlankLines (c : Cursor) : Cursor := c.advance (Text.blankLines c.rest)

/-- Behind the white space of the current line. -/
def skipBlanks (c : Cursor) : Cursor := c.advance (Text.inlineBlanks c.rest)

/-- Behind one newline, if it comes next. -/
def skipNewline (c : Cursor) : Cursor := if c.next? = some '\n' then c.advance 1 else c

@[simp] theorem source_advance (c : Cursor) (n : Nat) : (c.advance n).source = c.source := rfl

@[simp] theorem text_advance (c : Cursor) (n : Nat) : (c.advance n).text = c.text := rfl

@[simp] theorem rest_advance (c : Cursor) (n : Nat) : (c.advance n).rest = c.rest.drop n := rfl

theorem position_advance (c : Cursor) (n : Nat) :
    (c.advance n).position = c.position + min n c.rest.length := by
  simp [advance, List.length_take]

@[simp] theorem source_start (s : String) (cs : List Char) : (start s cs).source = s := rfl

@[simp] theorem rest_start (s : String) (cs : List Char) : (start s cs).rest = cs := rfl

end Cursor
end Daybook
