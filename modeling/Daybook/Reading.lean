import Daybook.Value

/-!
Readings: the answer of a reader that looks at the characters ahead. A reader finds a value and how
many characters it takes, or finds nothing and leaves the text to others, or meets a flaw that ends
the reading of the whole text. Readers see nothing but the characters ahead of them, so what they
answer does not depend on where in a source they stand.
-/
namespace Daybook

/-- What ends the reading of a text. -/
inductive Flaw where
  /-- no quote closes the string whose opening quote lies `offset` characters ahead -/
  | unclosedString (offset : Nat)
  /-- an integer with more digits than are read -/
  | integerTooLong
  /-- no reader is registered for this field type -/
  | unknownFieldType (type : String)
  /-- no check of this name is registered for the field -/
  | unknownCheck (field check : String)
  /-- a check of texts was given something else -/
  | notText
  /-- an entry's date is not a text -/
  | dateNotText
deriving Repr, DecidableEq

/-- The same flaw as seen from `n` characters before. -/
def Flaw.shift (n : Nat) : Flaw → Flaw
  | .unclosedString offset => .unclosedString (n + offset)
  | f => f

/-- The answer of a reader. -/
inductive Reading (α : Type) where
  | absent
  | found (value : α) (length : Nat)
  | broken (flaw : Flaw)

/-- A reader looks at the characters ahead. -/
abbrev Reader (α : Type) := List Char → Reading α

namespace Reading
variable {α β : Type}

/-- The answer as seen from `n` characters before. -/
def shift (n : Nat) : Reading α → Reading α
  | absent => absent
  | found v k => found v (n + k)
  | broken f => broken (f.shift n)

/-- Changes the value that was found. -/
def map (f : α → β) : Reading α → Reading β
  | absent => absent
  | found v k => found (f v) k
  | broken e => broken e

/-- Goes on behind what was found in `cs`. -/
def andThen (r : Reading α) (cs : List Char) (next : α → Reader β) : Reading β :=
  match r with
  | absent => absent
  | found v k => (next v (cs.drop k)).shift k
  | broken f => broken f

/-- A find, or nothing. -/
def ofOption : Option (α × Nat) → Reading α
  | none => absent
  | some (v, k) => found v k

@[simp] theorem map_absent (f : α → β) : (absent : Reading α).map f = absent := rfl

@[simp] theorem map_found (f : α → β) (v : α) (k : Nat) : (found v k).map f = found (f v) k := rfl

@[simp] theorem map_broken (f : α → β) (e : Flaw) : (broken e : Reading α).map f = broken e := rfl

@[simp] theorem shift_found (n : Nat) (v : α) (k : Nat) : (found v k).shift n = found v (n + k) := rfl

end Reading
end Daybook
