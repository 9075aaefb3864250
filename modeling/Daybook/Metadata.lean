import Daybook.Token.Literal
import Daybook.Decimal.Numeral
import Daybook.Text.Line

/-!
Metadata blocks: lines of the form `key: value` below an entry. A quoted value stays a text; any
other is the trimmed rest of its line, and what it looks like decides what it is.
-/
namespace Daybook.Metadata
open Daybook.Text

/-- The most digits an integer may have. -/
def maxDigits : Nat := 4300

/-- The value of unquoted metadata: an integer, a float, a truth value, null when there is no text,
and otherwise the text itself. -/
def coerce (raw : List Char) : Except Flaw Scalar :=
  match Numeral.integer? raw with
  | some n => if n.whole.length ≤ maxDigits then .ok (.int n.toInt) else .error .integerTooLong
  | none =>
    match Numeral.fractional? raw with
    | some n => .ok (.float n.toFloat)
    | none =>
      if raw = "true".toList then .ok (.bool true)
      else if raw = "false".toList then .ok (.bool false)
      else if raw.isEmpty then .ok .null
      else .ok (.text (String.ofList raw))

/-- May the character start a key? -/
def isKeyStart (c : Char) : Bool := c.isAlpha || c == '_'

/-- May the character stand in a key? -/
def isKeyChar (c : Char) : Bool := c.isAlphanum || c == '_' || c == '-'

/-- A key with its colon, and how far they and the white space behind them reach. Spaces and tabs
may stand on both sides of the colon; right behind it comes one of them or the end of the line. -/
def key? (cs : List Char) : Option (List Char × Nat) := do
  let key ← Lexeme.headed isKeyStart isKeyChar cs
  let behind := cs.drop key.length
  match behind.drop (indentWidth behind) with
  | ':' :: rest =>
    let gap := indentWidth rest
    if 0 < gap ∨ rest.head?.all (· == '\n') then
      some (key, key.length + indentWidth behind + 1 + gap)
    else none
  | _ => none

/-- The value at the front and how far its line reaches, the newline left out. -/
def value (cs : List Char) : Reading Scalar :=
  match Token.quoted cs with
  | .found s n => .found (.text s) (n + (lineAhead (cs.drop n)).length)
  | .broken f => .broken f
  | .absent =>
    match coerce (trim (lineAhead cs)) with
    | .ok v => .found v (lineAhead cs).length
    | .error f => .broken f

/-- One pair at the front, up to the end of its line. -/
def pair (cs : List Char) : Reading (String × Scalar) :=
  match key? cs with
  | none => .absent
  | some (key, n) => ((value (cs.drop n)).map fun v => (String.ofList key, v)).shift n

theorem key?_pos {cs key : List Char} {n : Nat} (h : key? cs = some (key, n)) :
    0 < n ∧ 0 < cs.length := by
  cases hk : Lexeme.headed isKeyStart isKeyChar cs with
  | none => simp [key?, hk] at h
  | some w =>
    have hp := Lexeme.headed_pos hk
    have hl := (Lexeme.headed_isPrefix hk).length_le
    simp only [key?, hk, bind, Option.bind] at h
    split at h
    · split at h
      · simp only [Option.some.injEq, Prod.mk.injEq] at h
        omega
      · simp at h
    · simp at h

theorem pair_pos {cs : List Char} {p : String × Scalar} {n : Nat} (h : pair cs = .found p n) :
    0 < n ∧ 0 < cs.length := by
  simp only [pair] at h
  split at h
  · simp at h
  · next key k hk =>
    have := key?_pos hk
    cases hv : value (cs.drop k) <;> simp [hv, Reading.shift] at h
    omega

/-- The length of a newline at the front, if there is one. -/
def newline (cs : List Char) : Nat := if cs.head? = some '\n' then 1 else 0

/-- The pairs of the lines that are indented by at least `indent`, in the order of the text, and how
far they reach. Blank lines are passed over; the first other line that holds no pair ends the
block. -/
def pairs (indent : Nat) (cs : List Char) : Reading (List (String × Scalar)) :=
  let width := indentWidth cs
  match _h : cs.drop width with
  | [] => .found [] 0
  | '\n' :: rest => (pairs indent rest).shift (width + 1)
  | c :: rest =>
    if width < indent then .found [] 0
    else
      match _hp : pair (c :: rest) with
      | .absent => .found [] 0
      | .broken f => .broken (f.shift width)
      | .found p n =>
        let m := width + n + newline (cs.drop (width + n))
        ((pairs indent (cs.drop m)).map (p :: ·)).shift m
termination_by cs.length
decreasing_by
  · have := congrArg List.length _h
    simp only [List.length_drop, List.length_cons] at this
    omega
  · have h1 := congrArg List.length _h
    have := pair_pos _hp
    simp only [List.length_drop, List.length_cons] at h1 ⊢
    omega

/-- A block with at least one pair. A key that is written again keeps its place and takes the new
value. -/
def block (indent : Nat) : Reader Metadata := fun cs =>
  match pairs indent cs with
  | .found [] _ => .absent
  | r => r.map Pairs.collect

/-- Metadata that is not there is empty. -/
def blockOrEmpty (indent : Nat) : Reader Metadata := fun cs =>
  match block indent cs with
  | .absent => .found [] 0
  | r => r

end Daybook.Metadata
