import Daybook.Reading

/-!
Lexemes: the text that a token takes from the characters ahead. Every lexeme is a beginning of what
lies ahead, so its length is what a cursor moves by.
-/
namespace Daybook

/-- The text a token takes from the front, if it stands there. -/
abbrev Lexeme := List Char → Option (List Char)

namespace Lexeme

/-- The longest run of characters that `p` accepts; at least one. -/
def run (p : Char → Bool) : Lexeme := fun cs =>
  if (cs.takeWhile p).isEmpty then none else some (cs.takeWhile p)

/-- One character of `first` and the run of `rest` behind it, which may be empty. -/
def headed (first rest : Char → Bool) : Lexeme
  | [] => none
  | c :: cs => if first c then some (c :: cs.takeWhile rest) else none

/-- One character for each class, in order. -/
def shape : List (Char → Bool) → Lexeme
  | [], _ => some []
  | _ :: _, [] => none
  | p :: ps, c :: cs => if p c then (shape ps cs).map (c :: ·) else none

/-- Exactly the given word. -/
def word (w : List Char) : Lexeme := shape (w.map fun c => (· == c))

/-- Reads a lexeme as text. -/
def read (l : Lexeme) : Reader String := fun cs =>
  .ofOption ((l cs).map fun w => (String.ofList w, w.length))

theorem shape_isPrefix {ps : List (Char → Bool)} {cs w : List Char}
    (h : shape ps cs = some w) : w <+: cs := by
  fun_induction shape ps cs generalizing w with
  | case1 cs => simp_all
  | case2 => simp at h
  | case3 p ps c cs _ ih =>
    obtain ⟨v, hv, rfl⟩ := Option.map_eq_some_iff.1 h
    simpa using ih hv
  | case4 => simp at h

theorem run_isPrefix {p : Char → Bool} {cs w : List Char} (h : run p cs = some w) : w <+: cs := by
  simp only [run] at h
  split at h
  · simp at h
  · simp only [Option.some.injEq] at h
    exact h ▸ List.takeWhile_prefix p

theorem headed_isPrefix {p q : Char → Bool} {cs w : List Char} (h : headed p q cs = some w) :
    w <+: cs := by
  cases cs with
  | nil => simp [headed] at h
  | cons c cs =>
    simp only [headed] at h
    split at h
    · simp only [Option.some.injEq] at h
      subst h
      simpa using List.takeWhile_prefix q
    · simp at h

theorem run_pos {p : Char → Bool} {cs w : List Char} (h : run p cs = some w) : 0 < w.length := by
  simp only [run] at h
  split at h
  · simp at h
  · next hne =>
    simp only [Option.some.injEq] at h
    subst h
    simpa [List.length_pos_iff] using hne

theorem headed_pos {p q : Char → Bool} {cs w : List Char} (h : headed p q cs = some w) :
    0 < w.length := by
  cases cs with
  | nil => simp [headed] at h
  | cons c cs =>
    simp only [headed] at h
    split at h
    · simp only [Option.some.injEq] at h
      simp [← h]
    · simp at h

end Lexeme
end Daybook
