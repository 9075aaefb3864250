import Daybook.Token.Name
import Daybook.Text.Quoted

/-!
Tokens that may hold quoted strings: strings, lists of strings, and the search for the comment of a
line, which passes over quotes.
-/
namespace Daybook.Token
open Daybook.Text

/-- A quoted string. A text whose quote is never closed cannot be read any further. -/
def quoted : Reader String
  | '"' :: cs =>
    match Quoted.decode cs with
    | some (s, n) => .found (String.ofList s) (n + 1)
    | none => .broken (.unclosedString 0)
  | _ => .absent

/-- A quoted string or else a run of characters other than white space. -/
def string : Reader String := fun cs =>
  match quoted cs with
  | .absent => bareWord.read cs
  | r => r

/-- An item of a list: a quoted string or a bare item. -/
def item : Reader String := fun cs =>
  match quoted cs with
  | .absent => bareItem.read cs
  | r => r

theorem item_pos {cs : List Char} {s : String} {n : Nat} (h : item cs = .found s n) :
    0 < n ∧ 0 < cs.length := by
  cases cs with
  | nil => simp [item, quoted, Lexeme.read, bareItem, Lexeme.headed, Reading.ofOption] at h
  | cons c cs =>
    refine ⟨?_, by simp⟩
    simp only [item] at h
    split at h
    · simp only [Lexeme.read, Reading.ofOption] at h
      split at h
      · simp at h
      · next v k hk =>
        obtain ⟨w, hw, hv⟩ := Option.map_eq_some_iff.1 hk
        have := Lexeme.headed_pos hw
        simp_all
    · simp only [quoted] at h
      split at h
      · split at h
        · simp only [Reading.found.injEq] at h
          omega
        · simp at h
      · simp at h

/-- How many characters separate two items: white space, or a comma with white space around it. -/
def separator (cs : List Char) : Nat :=
  match cs.drop (inlineBlanks cs) with
  | ',' :: rest => inlineBlanks cs + 1 + inlineBlanks rest
  | _ => inlineBlanks cs

/-- The items at the front, and how far they and the separators behind them reach. -/
def items (cs : List Char) : Reading (List String) :=
  match _h : item cs with
  | .absent => .found [] 0
  | .broken f => .broken f
  | .found s n =>
    let gap := separator (cs.drop n)
    if gap = 0 then .found [s] n
    else ((items (cs.drop (n + gap))).map (s :: ·)).shift (n + gap)
termination_by cs.length
decreasing_by
  have := item_pos _h
  simp only [List.length_drop]
  omega

/-- A list of at least one item. -/
def array : Reader (List String) := fun cs =>
  match items cs with
  | .found [] _ => .absent
  | r => r

/-- Where the comment of the current line starts: at the first semicolon behind an even number of
quotes. `inside` tells that an odd number went before. -/
def commentFrom (inside : Bool) : List Char → Option Nat
  | [] => none
  | c :: cs =>
    if c = '\n' then none
    else if c = '"' then (commentFrom (!inside) cs).map (· + 1)
    else if c = ';' ∧ inside = false then some 0
    else (commentFrom inside cs).map (· + 1)

/-- How many characters lie before the comment of the current line. -/
def commentStart (cs : List Char) : Option Nat := commentFrom false cs

end Daybook.Token
