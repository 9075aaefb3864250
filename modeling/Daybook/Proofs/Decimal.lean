import Daybook.Decimal.Parse
import Daybook.Proofs.Written.Metadata
import Mathlib.Data.List.Forall2
import Mathlib.Data.Nat.Digits.Lemmas

/-!
# Decimal — what digits denote

A decimal digit of any script stands for a number below ten (`DigitOf`), and
a row of digits for the sum of its digits, each times the power of ten of its
place (`placeValue`). The value of a row, added up from the left, is that
sum; integers are written in digits that denote them; and the reader of
floats in free notation reads a plain numeral as the float of its digits.
-/

namespace Daybook

namespace Text

/-! ## Digits -/

/-- The character is the digit `d` of some script: it stands `d` places
behind the zero of a row. -/
def DigitOf (c : Char) (d : Nat) : Prop := d < 10 ∧ ∃ first ∈ digitZeros, c.toNat = first + d

/-- The rows of digits do not overlap. -/
theorem rows_apart : ∀ a ∈ digitZeros, ∀ b ∈ digitZeros, a = b ∨ a + 10 ≤ b ∨ b + 10 ≤ a := by
  decide +kernel

theorem decimalDigit?_eq_some_iff {c : Char} {d : Nat} :
    decimalDigit? c = some d ↔ DigitOf c d := by
  constructor
  · intro h
    have hlt := decimalDigit?_lt_ten h
    obtain ⟨first, hfirst, rfl⟩ := Option.map_eq_some_iff.1 h
    have hrow := List.find?_some hfirst
    simp only [Bool.and_eq_true, decide_eq_true_eq] at hrow
    exact ⟨hlt, first, List.mem_of_find?_eq_some hfirst, by omega⟩
  · rintro ⟨hlt, first, hmem, hc⟩
    have hsome : (digitZeros.find? fun z => z ≤ c.toNat && c.toNat ≤ z + 9).isSome := by
      rw [List.find?_isSome]
      exact ⟨first, hmem, by simp; omega⟩
    obtain ⟨z, hz⟩ := Option.isSome_iff_exists.1 hsome
    have hrow := List.find?_some hz
    simp only [Bool.and_eq_true, decide_eq_true_eq] at hrow
    -- the row that is found is the row the character stands in
    have hz' : z = first := by
      have := rows_apart z (List.mem_of_find?_eq_some hz) first hmem
      omega
    rw [decimalDigit?, hz, Option.map_some, hz', hc, Nat.add_sub_cancel_left]

theorem isDecimalDigit_iff {c : Char} : isDecimalDigit c = true ↔ ∃ d, DigitOf c d := by
  rw [isDecimalDigit, Option.isSome_iff_exists]
  simp only [decimalDigit?_eq_some_iff]

theorem rightUnique_digitOf : Relator.RightUnique DigitOf := by
  intro c d e hd he
  rw [← decimalDigit?_eq_some_iff] at hd he
  exact Option.some.inj (hd.symm.trans he)

/-- The characters are the digits `ds`, each in some script. -/
abbrev DigitsOf : List Char → List Nat → Prop := List.Forall₂ DigitOf

/-- The digits that a row of characters stands for. -/
theorem exists_digitsOf {cs : List Char} (h : Written.Digits cs) : ∃ ds, DigitsOf cs ds := by
  induction cs with
  | nil => exact ⟨[], .nil⟩
  | cons c cs ih =>
      obtain ⟨d, hd⟩ := isDecimalDigit_iff.1 (h c List.mem_cons_self)
      obtain ⟨ds, hds⟩ := ih fun b hb => h b (List.mem_cons_of_mem c hb)
      exact ⟨d :: ds, .cons hd hds⟩

theorem DigitsOf.digits {cs : List Char} {ds : List Nat} (h : DigitsOf cs ds) :
    Written.Digits cs := by
  intro c hc
  induction h with
  | nil => cases hc
  | cons hd _ ih =>
      rcases List.mem_cons.1 hc with rfl | hc
      · exact isDecimalDigit_iff.2 ⟨_, hd⟩
      · exact ih hc

theorem DigitsOf.unique {cs : List Char} {ds es : List Nat} (hd : DigitsOf cs ds)
    (he : DigitsOf cs es) : ds = es :=
  rightUnique_digitOf.forall₂ hd he

theorem DigitsOf.append {cs bs : List Char} {ds es : List Nat} (hd : DigitsOf cs ds)
    (he : DigitsOf bs es) : DigitsOf (cs ++ bs) (ds ++ es) :=
  List.rel_append hd he

/-! ## Values -/

/-- The number that digits denote, the last of them in the place of the
ones. -/
def placeValue (ds : List Nat) : Nat := Nat.ofDigits 10 ds.reverse

theorem foldl_digitsOf {cs : List Char} {ds : List Nat} (h : DigitsOf cs ds) (n : Nat) :
    cs.foldl (fun n c => 10 * n + (decimalDigit? c).getD 0) n =
      10 ^ ds.length * n + placeValue ds := by
  induction h generalizing n with
  | nil => simp [placeValue]
  | @cons c d cs ds hd _ ih =>
      rw [List.foldl_cons, decimalDigit?_eq_some_iff.2 hd, Option.getD_some, ih, placeValue,
        placeValue, Nat.ofDigits_reverse_cons, List.length_cons, Nat.pow_succ]
      ring

/-- **A row of digits has the value that its places give it.** -/
theorem digitsValue_eq {cs : List Char} {ds : List Nat} (h : DigitsOf cs ds) :
    digitsValue cs = placeValue ds := by
  rw [digitsValue, foldl_digitsOf h, Nat.mul_zero, Nat.zero_add]

end Text

open Daybook.Text

/-! ## Integers as they are written -/

namespace Written

/-- An integer is written as its digits behind the sign. -/
theorem text_decimal (n : Int) : (decimal n).text = (toString n).toList := by
  rw [text_eq, Int.toString_eq_repr]
  cases n with
  | ofNat m => simp [decimal, fractionText, Int.repr]
  | negSucc m => simp [decimal, fractionText, Int.repr, Int.negSucc_lt_zero]

/-- An integer below a power of ten is written with no more digits than the
power. -/
theorem length_decimal_le_iff (n : Int) {k : Nat} (hk : 0 < k) :
    (decimal n).whole.length ≤ k ↔ n.natAbs < 10 ^ k :=
  Nat.length_toDigits_le_iff (by decide) hk

end Written

/-! ## Floats in free notation -/

namespace Decimal

open Daybook.Written

/-- Digits without an underscore are all kept. -/
theorem joinDigits_eq_self {b : Bool} {cs : List Char} (h : '_' ∉ cs) :
    joinDigits b cs = some cs := by
  induction cs generalizing b with
  | nil => rfl
  | cons c cs ih =>
      rw [List.mem_cons, not_or] at h
      rw [joinDigits, if_neg (Ne.symm h.1), ih h.2, Option.map_some]

/-- No word for a float has a point in it. -/
theorem word?_eq_none {cs : List Char} (h : '.' ∈ cs) : word? cs = none := by
  have hpoint : '.' ∈ (String.ofList (cs.map Char.toLower)).toList := by
    rw [String.toList_ofList]
    exact List.mem_map.2 ⟨'.', h, by decide⟩
  have hne : ∀ w : String, '.' ∉ w.toList → String.ofList (cs.map Char.toLower) ≠ w := by
    rintro w hw rfl
    exact hw hpoint
  simp only [word?]
  rw [if_neg, if_neg (hne "nan" (by decide))]
  rintro (hw | hw)
  · exact hne "inf" (by decide) hw
  · exact hne "infinity" (by decide) hw

theorem magnitude?_fraction {n : Numeral} (hn : IsFraction n) :
    magnitude? (n.whole ++ fractionText n.fraction) =
      some (nearest (digitsValue (n.whole ++ n.fraction.getD []))
        (-((n.fraction.getD []).length : Int))) := by
  obtain ⟨ds, hds, hne, hdigits⟩ := hn.fraction
  rw [hds, fractionText, Option.getD_some]
  have hjoin : '_' ∉ n.whole ++ '.' :: ds := by
    rw [List.mem_append, List.mem_cons]
    rintro (hm | hm | hm)
    · exact absurd (hn.whole _ hm) (by decide)
    · cases hm
    · exact absurd (hdigits _ hm) (by decide)
  have hwhole : (n.whole ++ '.' :: ds).takeWhile isDecimalDigit = n.whole :=
    takeWhile_append_of_head hn.whole (by simp [show isDecimalDigit '.' = false by decide])
  have hfraction : ds.takeWhile isDecimalDigit = ds ∧ ds.dropWhile isDecimalDigit = [] :=
    ⟨List.takeWhile_eq_self_iff.2 hdigits, List.dropWhile_eq_nil_iff.2 hdigits⟩
  simp only [magnitude?, joinDigits_eq_self hjoin, Option.bind_eq_bind, Option.bind_some, hwhole,
    List.drop_left, hfraction, exponent?, Int.zero_sub]
  rw [if_neg (by simp [hne])]

/-- Without a plus only the minus is a sign. -/
theorem splitSigned_eq {cs : List Char} (h : '+' ∉ cs) : splitSigned cs = Numeral.splitSign cs := by
  cases cs with
  | nil => rfl
  | cons c cs =>
      have hplus : c ≠ '+' := fun hc => h (by simp [hc])
      by_cases hminus : c = '-'
      · subst hminus
        rfl
      · simp [splitSigned, Numeral.splitSign, hplus, hminus]

/-- **A plain numeral is read as its float**, as it is in free notation. -/
theorem parse?_text {n : Numeral} (hn : IsFraction n) : parse? n.text = some n.toFloat := by
  obtain ⟨ds, hds, -⟩ := hn.fraction
  have hpadding : ∀ c ∈ n.text, isPadding c = false := by
    intro c hc
    have hvisible := (visible_written (d := .float n hn) nofun hc).1
    rw [isPadding, hvisible, Bool.false_and]
  have hplus : '+' ∉ n.text := by
    intro hc
    exact absurd (mem_written (d := .float n hn) nofun hc) (by decide)
  have hword : word? (n.whole ++ fractionText n.fraction) = none :=
    word?_eq_none (by simp [hds, fractionText])
  rw [parse?, dropTrailing_dropWhile_eq_self hpadding, splitSigned_eq hplus,
    splitSign_fraction hn]
  simp only
  rw [hword, magnitude?_fraction hn]
  rfl

end Decimal
end Daybook
