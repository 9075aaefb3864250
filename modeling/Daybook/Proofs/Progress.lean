import Daybook.Proofs.ObjectField
import Daybook.Proofs.Written.Literal

/-!
# Progress — nothing is found in no characters

Whatever a reader finds takes at least one character. Where a token may
be empty in itself (a run, a list, a word that is given) the reader
answers with absence instead, so a cursor that moves behind what was
found has moved.
-/

namespace Daybook

open Daybook.Text Daybook.Reading

/-! ## Lexemes -/

namespace Lexeme

/-- The lexeme is never empty. -/
def NonEmpty (l : Lexeme) : Prop := ∀ cs w, l cs = some w → 0 < w.length

theorem NonEmpty.read_pos {l : Lexeme} (h : l.NonEmpty) (cs : List Char) :
    (l.read cs).Finds fun _ n => 0 < n := by
  apply (finds_ofOption ..).2
  intro v n hv
  obtain ⟨w, hw, heq⟩ := Option.map_eq_some_iff.1 hv
  cases heq
  exact h cs w hw

theorem NonEmpty.filter {l : Lexeme} (h : l.NonEmpty) (p : List Char → List Char → Bool) :
    Lexeme.NonEmpty fun cs => (l cs).filter (p cs) := by
  intro cs w hw
  exact h cs w (Option.filter_eq_some_iff.1 hw).1

theorem nonEmpty_run (p : Char → Bool) : (run p).NonEmpty := fun _ _ h => run_pos h

theorem nonEmpty_headed (p q : Char → Bool) : (headed p q).NonEmpty := fun _ _ h => headed_pos h

theorem shape_length {ps : List (Char → Bool)} {cs w : List Char} (h : shape ps cs = some w) :
    w.length = ps.length := by
  fun_induction shape ps cs generalizing w with
  | case1 cs =>
      cases h
      rfl
  | case2 => cases h
  | case3 p ps c cs _ ih =>
      obtain ⟨v, hv, rfl⟩ := Option.map_eq_some_iff.1 h
      rw [List.length_cons, List.length_cons, ih hv]
  | case4 => cases h

theorem nonEmpty_shape {ps : List (Char → Bool)} (h : ps ≠ []) : (shape ps).NonEmpty := by
  intro cs w hw
  rw [shape_length hw]
  exact List.length_pos_iff.2 h

end Lexeme

/-! ## Tokens -/

namespace Token

theorem nonEmpty_date : Lexeme.NonEmpty date := Lexeme.nonEmpty_shape (by simp)

theorem nonEmpty_account : Lexeme.NonEmpty account :=
  (Lexeme.nonEmpty_headed _ _).filter fun _ w => decide (2 ≤ w.length)

/-- A literal without characters is never found. -/
theorem nonEmpty_literal (word : String) : Lexeme.NonEmpty (literal word) := by
  intro cs w hw
  rw [literal] at hw
  split at hw
  · cases hw
  · next hne =>
    rw [Lexeme.word_eq hw]
    simpa [List.length_pos_iff] using hne

theorem nonEmpty_keyword (word : String) : Lexeme.NonEmpty (keyword word) :=
  (nonEmpty_literal word).filter fun cs found => (cs.drop found.length).head?.all isBlank

theorem nonEmpty_email : Lexeme.NonEmpty email := by
  intro cs w hw
  rw [email_eq] at hw
  obtain ⟨mailbox, hm, hw⟩ := Option.bind_eq_some_iff.1 hw
  obtain ⟨domain, -, hw⟩ := Option.bind_eq_some_iff.1 hw
  obtain ⟨reach, -, rfl⟩ := Option.map_eq_some_iff.1 hw
  have := Lexeme.run_pos hm
  rw [List.length_append]
  omega

theorem numeral_pos {cs : List Char} {n : Numeral} (h : Numeral.ahead? cs = some n) :
    0 < n.text.length := by
  rw [Numeral.ahead?] at h
  simp only at h
  split at h
  · cases h
  · next hne =>
    cases h
    have hdigits : 0 < ((Numeral.splitSign cs).2.takeWhile isDecimalDigit).length := by
      simpa [List.length_pos_iff] using hne
    simp only [Numeral.text, List.length_append]
    omega

theorem number?_pos (cs : List Char) : ∀ v n, number? cs = some (v, n) → 0 < n := by
  intro v n h
  obtain ⟨num, hnum, heq⟩ := Option.map_eq_some_iff.1 h
  cases heq
  exact numeral_pos hnum

theorem amount?_pos (cs : List Char) : ∀ v n, amount? cs = some (v, n) → 0 < n := by
  intro v n h
  rw [amount?_eq] at h
  obtain ⟨num, hnum, h⟩ := Option.bind_eq_some_iff.1 h
  obtain ⟨code, -, heq⟩ := Option.map_eq_some_iff.1 h
  cases heq
  exact Nat.add_pos_left (numeral_pos hnum) code.2

theorem spelled?_length : ∀ {ws cs v : List Char}, spelled? ws cs = some v →
    v.length = ws.length
  | [], cs, v, h => by
    rw [spelled?] at h
    split at h
    · cases h
    · cases h
      rfl
  | _ :: _, [], _, h => by cases h
  | w :: ws, c :: cs, v, h => by
    rw [spelled?] at h
    split at h
    · obtain ⟨u, hu, rfl⟩ := Option.map_eq_some_iff.1 h
      rw [List.length_cons, List.length_cons, spelled?_length hu]
    · cases h

theorem boolean?_pos (cs : List Char) : ∀ v n, boolean? cs = some (v, n) → 0 < n := by
  intro v n h
  obtain ⟨found, hfound, heq⟩ := Option.map_eq_some_iff.1 h
  cases heq
  obtain ⟨w, hw, hspelled⟩ := List.exists_of_findSome?_eq_some hfound
  have hwords : ∀ w ∈ truthWords, 0 < w.toList.length := by simp [truthWords]
  rw [spelled?_length hspelled]
  exact hwords w hw

theorem currencies?_pos (cs : List Char) : ∀ v n, currencies? cs = some (v, n) → 0 < n := by
  intro v n h
  obtain ⟨code, hcode, heq⟩ := Option.map_eq_some_iff.1 h
  cases heq
  exact Nat.add_pos_left (Lexeme.headed_pos hcode) _

theorem quoted_pos (cs : List Char) : (quoted cs).Finds fun _ n => 0 < n := by
  apply finds_iff.2
  intro s n h
  obtain ⟨body, -, rfl⟩ := quoted_found h
  exact Nat.succ_pos _

theorem string_pos (cs : List Char) : (string cs).Finds fun _ n => 0 < n := by
  rw [string_eq]
  split
  · exact quoted_pos cs
  · exact (Lexeme.nonEmpty_run _).read_pos cs

theorem items_pos (cs : List Char) : (items cs).Finds fun ss n => ss ≠ [] → 0 < n := by
  rw [items_eq]
  split
  · exact fun h => absurd rfl h
  · trivial
  · next s n h =>
    have hn := (item_pos h).1
    split
    · exact fun _ => hn
    · apply (finds_shift ..).2
      apply (finds_map ..).2
      apply finds_iff.2
      intro ss k _ _
      omega

theorem array_pos (cs : List Char) : (array cs).Finds fun _ n => 0 < n := by
  have hitems := items_pos cs
  rw [array_eq]
  split
  · trivial
  · next hno =>
    apply finds_iff.2
    intro ss n h
    apply hitems.of_eq h
    rintro rfl
    exact hno n h

theorem marks_pos {cs : List Char} (h : (marks cs).1 ≠ []) : 0 < (marks cs).2 := by
  rw [marks_eq] at h ⊢
  split at h
  · exact absurd rfl h
  · next m n hm =>
    have := (mark?_pos hm).1
    simp only
    omega

end Token

/-! ## Shapes -/

namespace Shape

/-- **A field takes at least one character.** -/
theorem read_pos (s : Shape) (cs : List Char) : (s.read cs).Finds fun _ n => 0 < n := by
  cases s with
  | string => exact (finds_map ..).2 (Token.string_pos cs)
  | number => exact (finds_map ..).2 ((finds_ofOption ..).2 (Token.number?_pos cs))
  | boolean => exact (finds_map ..).2 ((finds_ofOption ..).2 (Token.boolean?_pos cs))
  | date => exact (finds_map ..).2 (Token.nonEmpty_date.read_pos cs)
  | amount => exact (finds_map ..).2 ((finds_ofOption ..).2 (Token.amount?_pos cs))
  | account => exact (finds_map ..).2 (Token.nonEmpty_account.read_pos cs)
  | array => exact (finds_map ..).2 (Token.array_pos cs)
  | email => exact (finds_map ..).2 (Token.nonEmpty_email.read_pos cs)
  | object => exact (finds_map ..).2 (Metadata.block_pos 0 cs)
  | mark =>
      exact (finds_map ..).2 ((finds_ofOption ..).2 fun _ _ h => (Token.mark?_pos h).1)
  | marks =>
      have hpos : (Token.marks cs).1 ≠ [] → 0 < (Token.marks cs).2 := Token.marks_pos
      rw [read_marks_eq]
      split
      · trivial
      · next ms n hne heq =>
        rw [heq] at hpos
        exact hpos hne
  | quoted => exact (finds_map ..).2 (Token.quoted_pos cs)
  | currency => exact (finds_map ..).2 ((Lexeme.nonEmpty_headed _ _).read_pos cs)
  | currencies => exact (finds_map ..).2 ((finds_ofOption ..).2 (Token.currencies?_pos cs))
  | newline => exact (finds_map ..).2 ((Token.nonEmpty_literal _).read_pos cs)
  | literal w => exact (finds_map ..).2 ((Token.nonEmpty_literal w).read_pos cs)
  | keyword w => exact (finds_map ..).2 ((Token.nonEmpty_keyword w).read_pos cs)

end Shape
end Daybook
