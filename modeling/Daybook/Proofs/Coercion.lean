import Daybook.Proofs.Decimal

/-!
# Coercion — what an unquoted value is

An unquoted text may be the writing of a literal (`Literal.WrittenAs`): then
it stands for what the literal means, and any other text for itself. There is
a test for each kind of literal, and a text passes one of them at most
(`Kind.test_unique`). So no text is written for two literals, the kinds may
be tested in any order, and the kind of a value tells the kind of its text.
-/

namespace Daybook

open Daybook.Text Daybook.Written

namespace Numeral

theorem integer?_eq_some_iff {raw : List Char} {n : Numeral} :
    integer? raw = some n ↔ IsWhole n ∧ n.text = raw := by
  constructor
  · intro h
    have hraw := splitSign_eq raw
    rw [integer?] at h
    generalize splitSign raw = sign at h hraw
    simp only [Option.ite_none_right_eq_some, Bool.and_eq_true, Bool.not_eq_true',
      List.isEmpty_eq_false_iff, Option.some.injEq] at h
    obtain ⟨⟨hne, hdigits⟩, rfl⟩ := h
    refine ⟨⟨hne, List.all_eq_true.1 hdigits, rfl⟩, ?_⟩
    rw [hraw, text_eq, fractionText, List.append_nil]
  · rintro ⟨hn, rfl⟩
    exact integer?_text hn

theorem fractional?_eq_some_iff {raw : List Char} {n : Numeral} :
    fractional? raw = some n ↔ IsFraction n ∧ n.text = raw := by
  constructor
  · intro h
    have hraw := splitSign_eq raw
    rw [fractional?] at h
    generalize splitSign raw = sign at h hraw
    simp only [drop_takeWhile_length] at h
    split at h
    · next fs hfs =>
      simp only [Option.ite_none_right_eq_some, Bool.and_eq_true, Bool.not_eq_true',
        List.isEmpty_eq_false_iff, Option.some.injEq] at h
      obtain ⟨⟨hne, hdigits⟩, rfl⟩ := h
      have hbehind : Digits fs := List.all_eq_true.1 hdigits
      refine ⟨⟨fun c hc => List.mem_takeWhile_imp hc, fs, rfl, hne, hbehind⟩, ?_⟩
      rw [hraw, text_eq, fractionText, ← hfs, List.takeWhile_append_dropWhile]
    · cases h
  · rintro ⟨hn, rfl⟩
    exact (fractional?_text hn).2

end Numeral

namespace Metadata

/-! ## Literals -/

/-- What is written in an unquoted value that is more than its text: the
digits of an integer, those of a float before and behind its point, a truth
value, or nothing at all. -/
inductive Literal where
  | integer (negative : Bool) (digits : List Nat)
  | float (negative : Bool) (whole fraction : List Nat)
  | bool (b : Bool)
  | null

namespace Literal

/-- The minus of a number below zero. -/
def sign (negative : Bool) : List Char := if negative then ['-'] else []

/-- The word for a truth value. -/
def word (b : Bool) : List Char := (if b then "true" else "false").toList

theorem word_injective : ∀ a b, word a = word b → a = b := by decide

/-- The literal is written as the text. A digit may be one of any script. -/
def WrittenAs : Literal → List Char → Prop
  | integer negative digits, raw => ∃ cs, cs ≠ [] ∧ DigitsOf cs digits ∧ raw = sign negative ++ cs
  | float negative whole fraction, raw => ∃ ws fs, fs ≠ [] ∧ DigitsOf ws whole ∧
      DigitsOf fs fraction ∧ raw = sign negative ++ (ws ++ '.' :: fs)
  | bool b, raw => raw = word b
  | null, raw => raw = []

/-- The value of the literal; an integer with too many digits has none. -/
def meaning : Literal → Except Flaw Scalar
  | integer negative digits =>
    if digits.length ≤ maxDigits then
      .ok (.int (if negative then -(placeValue digits : Int) else placeValue digits))
    else .error .integerTooLong
  | float negative whole fraction =>
    let x := Decimal.nearest (placeValue (whole ++ fraction)) (-(fraction.length : Int))
    .ok (.float (if negative then -x else x))
  | bool b => .ok (.bool b)
  | null => .ok .null

end Literal

/-- The kinds of literals. -/
inductive Kind where
  | integer
  | float
  | bool
  | null
deriving DecidableEq

namespace Literal

/-- The kind of the literal. -/
def kind : Literal → Kind
  | integer .. => .integer
  | float .. => .float
  | bool _ => .bool
  | null => .null

variable {raw : List Char}

theorem writtenAs_integer_iff {negative : Bool} {digits : List Nat} :
    (integer negative digits).WrittenAs raw ↔
      ∃ n, Numeral.integer? raw = some n ∧ n.negative = negative ∧ DigitsOf n.whole digits := by
  simp only [Numeral.integer?_eq_some_iff]
  constructor
  · rintro ⟨cs, hne, hdigits, rfl⟩
    refine ⟨⟨negative, cs, none⟩, ⟨⟨hne, hdigits.digits, rfl⟩, ?_⟩, rfl, hdigits⟩
    rw [text_eq, fractionText, List.append_nil, sign]
  · rintro ⟨n, ⟨hn, rfl⟩, rfl, hdigits⟩
    refine ⟨n.whole, hn.ne_nil, hdigits, ?_⟩
    rw [text_eq, hn.fraction, fractionText, List.append_nil, sign]

theorem writtenAs_float_iff {negative : Bool} {whole fraction : List Nat} :
    (float negative whole fraction).WrittenAs raw ↔
      ∃ n, Numeral.fractional? raw = some n ∧ n.negative = negative ∧ DigitsOf n.whole whole ∧
        DigitsOf (n.fraction.getD []) fraction := by
  simp only [Numeral.fractional?_eq_some_iff]
  constructor
  · rintro ⟨ws, fs, hne, hwhole, hfraction, rfl⟩
    refine ⟨⟨negative, ws, some fs⟩,
      ⟨⟨hwhole.digits, fs, rfl, hne, hfraction.digits⟩, ?_⟩, rfl, hwhole, hfraction⟩
    rw [text_eq, fractionText, sign]
  · rintro ⟨n, ⟨hn, rfl⟩, rfl, hwhole, hfraction⟩
    obtain ⟨fs, hfs, hne, -⟩ := hn.fraction
    rw [hfs] at hfraction
    refine ⟨n.whole, fs, hne, hwhole, hfraction, ?_⟩
    rw [text_eq, hfs, fractionText, sign]

theorem meaning_integer {n : Numeral} {digits : List Nat} (h : DigitsOf n.whole digits) :
    (integer n.negative digits).meaning =
      if n.whole.length ≤ maxDigits then .ok (.int n.toInt) else .error .integerTooLong := by
  rw [meaning, Numeral.toInt, digitsValue_eq h, h.length_eq]

theorem meaning_float {n : Numeral} {whole fraction : List Nat} (hw : DigitsOf n.whole whole)
    (hf : DigitsOf (n.fraction.getD []) fraction) :
    (float n.negative whole fraction).meaning = .ok (.float n.toFloat) := by
  rw [meaning, Numeral.toFloat, digitsValue_eq (hw.append hf), hf.length_eq]

end Literal

/-! ## Tests -/

namespace Kind

/-- The outcome of a test for literals of the kind, if the text is one. -/
def test : Kind → List Char → Option (Except Flaw Scalar)
  | integer, raw => (Numeral.integer? raw).map fun n =>
      if n.whole.length ≤ maxDigits then .ok (.int n.toInt) else .error .integerTooLong
  | float, raw => (Numeral.fractional? raw).map fun n => .ok (.float n.toFloat)
  | bool, raw =>
    if raw = "true".toList then some (.ok (.bool true))
    else if raw = "false".toList then some (.ok (.bool false))
    else none
  | null, raw => if raw.isEmpty then some (.ok .null) else none

/-- The kinds, in the order in which they are tested. -/
def all : List Kind := [integer, float, bool, null]

theorem mem_all (k : Kind) : k ∈ all := by cases k <;> decide

variable {raw : List Char}

/-- A literal passes the test for its kind, and the outcome is its value. -/
theorem test_of_writtenAs {l : Literal} (h : l.WrittenAs raw) :
    l.kind.test raw = some l.meaning := by
  cases l with
  | integer negative digits =>
      obtain ⟨n, hn, rfl, hdigits⟩ := Literal.writtenAs_integer_iff.1 h
      rw [Literal.kind, test, hn, Option.map_some, Literal.meaning_integer hdigits]
  | float negative whole fraction =>
      obtain ⟨n, hn, rfl, hwhole, hfraction⟩ := Literal.writtenAs_float_iff.1 h
      rw [Literal.kind, test, hn, Option.map_some, Literal.meaning_float hwhole hfraction]
  | bool b =>
      subst h
      cases b <;> rfl
  | null =>
      subst h
      rfl

/-- Only literals of the kind pass the test for it. -/
theorem exists_literal {k : Kind} {r : Except Flaw Scalar} (h : k.test raw = some r) :
    ∃ l : Literal, l.kind = k ∧ l.WrittenAs raw := by
  cases k with
  | integer =>
      obtain ⟨n, hn, -⟩ := Option.map_eq_some_iff.1 h
      obtain ⟨digits, hdigits⟩ := exists_digitsOf (Numeral.integer?_eq_some_iff.1 hn).1.whole
      exact ⟨.integer n.negative digits, rfl,
        Literal.writtenAs_integer_iff.2 ⟨n, hn, rfl, hdigits⟩⟩
  | float =>
      obtain ⟨n, hn, -⟩ := Option.map_eq_some_iff.1 h
      have hfraction := (Numeral.fractional?_eq_some_iff.1 hn).1
      obtain ⟨ds, hds, -, hbehind⟩ := hfraction.fraction
      obtain ⟨whole, hwhole⟩ := exists_digitsOf hfraction.whole
      obtain ⟨fraction, hfs⟩ := exists_digitsOf hbehind
      exact ⟨.float n.negative whole fraction, rfl,
        Literal.writtenAs_float_iff.2 ⟨n, hn, rfl, hwhole, by rwa [hds]⟩⟩
  | bool =>
      rw [test] at h
      split at h
      · next hword => exact ⟨.bool true, rfl, hword⟩
      · split at h
        · next hword => exact ⟨.bool false, rfl, hword⟩
        · cases h
  | null =>
      rw [test] at h
      split at h
      · next hempty => exact ⟨.null, rfl, List.isEmpty_iff.1 hempty⟩
      · cases h

/-- A text that passes a test passes none before it. -/
theorem find?_test {k : Kind} {r : Except Flaw Scalar} (h : k.test raw = some r) :
    all.find? (fun j => (j.test raw).isSome) = some k := by
  have hpass : (k.test raw).isSome = true := Option.isSome_of_eq_some h
  obtain ⟨l, rfl, hl⟩ := exists_literal h
  cases l with
  | integer negative digits => exact List.find?_cons_of_pos hpass
  | float negative whole fraction =>
      obtain ⟨n, hn, -⟩ := Literal.writtenAs_float_iff.1 hl
      obtain ⟨hfraction, rfl⟩ := Numeral.fractional?_eq_some_iff.1 hn
      -- what has a point is no integer
      have hfail : ¬(integer.test n.text).isSome = true := by
        rw [test, (fractional?_text hfraction).1]
        nofun
      rw [all, List.find?_cons_of_neg (p := fun j : Kind => (j.test n.text).isSome) hfail]
      exact List.find?_cons_of_pos hpass
  | bool b =>
      subst hl
      cases b <;> rfl
  | null =>
      subst hl
      rfl

/-- **A text passes one test at most.** -/
theorem test_unique {j k : Kind} {r s : Except Flaw Scalar} (hj : j.test raw = some r)
    (hk : k.test raw = some s) : j = k :=
  Option.some.inj ((find?_test hj).symm.trans (find?_test hk))

end Kind

/-- **No text is written for two literals.** -/
theorem Literal.WrittenAs.unique {raw : List Char} {l m : Literal} (hl : l.WrittenAs raw)
    (hm : m.WrittenAs raw) : l = m := by
  have hkind : l.kind = m.kind :=
    Kind.test_unique (Kind.test_of_writtenAs hl) (Kind.test_of_writtenAs hm)
  cases l with
  | integer negative digits =>
      cases m with
      | integer negative' digits' =>
          obtain ⟨n, hn, rfl, hdigits⟩ := writtenAs_integer_iff.1 hl
          obtain ⟨n', hn', rfl, hdigits'⟩ := writtenAs_integer_iff.1 hm
          obtain rfl : n = n' := Option.some.inj (hn.symm.trans hn')
          rw [hdigits.unique hdigits']
      | float | bool | null => cases hkind
  | float negative whole fraction =>
      cases m with
      | float negative' whole' fraction' =>
          obtain ⟨n, hn, rfl, hwhole, hfraction⟩ := writtenAs_float_iff.1 hl
          obtain ⟨n', hn', rfl, hwhole', hfraction'⟩ := writtenAs_float_iff.1 hm
          obtain rfl : n = n' := Option.some.inj (hn.symm.trans hn')
          rw [hwhole.unique hwhole', hfraction.unique hfraction']
      | integer | bool | null => cases hkind
  | bool b =>
      cases m with
      | bool b' =>
          have hword : word b = word b' := hl.symm.trans hm
          rw [word_injective b b' hword]
      | integer | float | null => cases hkind
  | null =>
      cases m with
      | null => rfl
      | integer | float | bool => cases hkind

/-! ## Any order -/

/-- The outcome of the first test that is passed; a text that passes none
is a text. -/
def firstOf (order : List Kind) (raw : List Char) : Except Flaw Scalar :=
  (order.findSome? (·.test raw)).getD (.ok (.text (String.ofList raw)))

theorem coerce_eq_firstOf (raw : List Char) : coerce raw = firstOf Kind.all raw := by
  rw [coerce, firstOf, Kind.all]
  simp only [List.findSome?_cons, List.findSome?_nil, Kind.test]
  cases Numeral.integer? raw with
  | some n => rfl
  | none =>
      cases Numeral.fractional? raw with
      | some n => rfl
      | none =>
          simp only [Option.map_none]
          split
          · rfl
          · split
            · rfl
            · split <;> rfl

section

variable {order : List Kind} {raw : List Char}

/-- The one test that is passed decides, wherever it comes. -/
theorem firstOf_of_test (hall : ∀ k, k ∈ order) {k : Kind} {r : Except Flaw Scalar}
    (h : k.test raw = some r) : firstOf order raw = r := by
  have hsome : (order.findSome? (·.test raw)).isSome := by
    rw [List.findSome?_isSome_iff]
    exact ⟨k, hall k, by rw [h]; rfl⟩
  obtain ⟨s, hs⟩ := Option.isSome_iff_exists.1 hsome
  obtain ⟨j, -, hj⟩ := List.exists_of_findSome?_eq_some hs
  obtain rfl := Kind.test_unique hj h
  rw [firstOf, hs, Option.getD_some]
  exact Option.some.inj (hj.symm.trans h)

theorem firstOf_of_none (h : ∀ k : Kind, k.test raw = none) :
    firstOf order raw = .ok (.text (String.ofList raw)) := by
  rw [firstOf, List.findSome?_eq_none_iff.2 fun k _ => h k, Option.getD_none]

/-- A text that is no literal passes no test. -/
theorem test_eq_none (h : ∀ l : Literal, ¬l.WrittenAs raw) (k : Kind) : k.test raw = none := by
  cases hk : k.test raw with
  | none => rfl
  | some r =>
      obtain ⟨l, -, hl⟩ := Kind.exists_literal hk
      exact absurd hl (h l)

/-- **The order of the tests does not matter.** -/
theorem firstOf_eq_coerce (hall : ∀ k, k ∈ order) : firstOf order raw = coerce raw := by
  rw [coerce_eq_firstOf]
  by_cases hl : ∃ l : Literal, l.WrittenAs raw
  · obtain ⟨l, hl⟩ := hl
    have htest := Kind.test_of_writtenAs hl
    rw [firstOf_of_test hall htest, firstOf_of_test Kind.mem_all htest]
  · have hnone := test_eq_none fun l h => hl ⟨l, h⟩
    rw [firstOf_of_none hnone, firstOf_of_none hnone]

end

/-! ## Values -/

/-- The kind of literals that the value can be of; a text is of none. -/
def Kind.ofScalar? : Scalar → Option Kind
  | .int _ => some .integer
  | .float _ => some .float
  | .bool _ => some .bool
  | .null => some .null
  | .text _ => none

theorem Kind.ofScalar?_meaning {l : Literal} {v : Scalar} (h : l.meaning = .ok v) :
    Kind.ofScalar? v = some l.kind := by
  cases l with
  | integer negative digits =>
      rw [Literal.meaning] at h
      split at h
      · cases h
        rfl
      · cases h
  | float | bool | null =>
      cases h
      rfl

section

variable {raw : List Char}

theorem coerce_of_writtenAs {l : Literal} (h : l.WrittenAs raw) : coerce raw = l.meaning := by
  rw [coerce_eq_firstOf, firstOf_of_test Kind.mem_all (Kind.test_of_writtenAs h)]

theorem coerce_of_not_writtenAs (h : ∀ l : Literal, ¬l.WrittenAs raw) :
    coerce raw = .ok (.text (String.ofList raw)) := by
  rw [coerce_eq_firstOf, firstOf_of_none (test_eq_none h)]

/-- The value is of the kind of the literal that is written. -/
theorem kind_coerce {v : Scalar} (h : coerce raw = .ok v) (k : Kind) :
    Kind.ofScalar? v = some k ↔ ∃ l : Literal, l.kind = k ∧ l.WrittenAs raw := by
  by_cases hl : ∃ l : Literal, l.WrittenAs raw
  · obtain ⟨l, hl⟩ := hl
    rw [coerce_of_writtenAs hl] at h
    rw [Kind.ofScalar?_meaning h, Option.some.injEq]
    constructor
    · exact fun hk => ⟨l, hk, hl⟩
    · rintro ⟨m, hm, hmw⟩
      rw [hl.unique hmw, hm]
  · rw [coerce_of_not_writtenAs fun l h => hl ⟨l, h⟩] at h
    cases h
    constructor
    · nofun
    · rintro ⟨l, -, h⟩
      exact absurd ⟨l, h⟩ hl

/-- The float of a literal is the one that the text is in free notation. -/
theorem coerce_float {negative : Bool} {whole fraction : List Nat}
    (h : (Literal.float negative whole fraction).WrittenAs raw) :
    ∃ x, Decimal.parse? raw = some x ∧ coerce raw = .ok (.float x) := by
  have hmeaning := coerce_of_writtenAs h
  obtain ⟨n, hn, rfl, hwhole, hfraction⟩ := Literal.writtenAs_float_iff.1 h
  obtain ⟨hf, rfl⟩ := Numeral.fractional?_eq_some_iff.1 hn
  exact ⟨n.toFloat, Decimal.parse?_text hf,
    hmeaning.trans (Literal.meaning_float hwhole hfraction)⟩

end

/-- An integer is read back from the digits that it is written in, as long
as they are not too many. -/
theorem coerce_toString (n : Int) : coerce (toString n).toList =
    if n.natAbs < 10 ^ maxDigits then .ok (.int n) else .error .integerTooLong := by
  rw [← text_decimal, coerce, integer?_text (isWhole_decimal n)]
  simp only [toInt_decimal]
  exact if_congr (length_decimal_le_iff n (by decide)) rfl rfl

/-- **Coercion is exact.** A text that a literal is written as becomes what
the literal means, and any other text is kept as it is. No text is written
for two literals, so the kinds may be tested in any order, and the kind of
the value tells the kind of the literal. A float is the one that its text is
in free notation, and an integer is read back from the digits it is written
in, unless they are too many. -/
theorem coerce_exact (raw : List Char) :
    (∀ l : Literal, l.WrittenAs raw → coerce raw = l.meaning) ∧
    ((∀ l : Literal, ¬l.WrittenAs raw) → coerce raw = .ok (.text (String.ofList raw))) ∧
    (∀ l m : Literal, l.WrittenAs raw → m.WrittenAs raw → l = m) ∧
    (∀ order, (∀ k, k ∈ order) → firstOf order raw = coerce raw) ∧
    (∀ v, coerce raw = .ok v →
      ∀ k, Kind.ofScalar? v = some k ↔ ∃ l : Literal, l.kind = k ∧ l.WrittenAs raw) ∧
    (∀ negative whole fraction, (Literal.float negative whole fraction).WrittenAs raw →
      ∃ x, Decimal.parse? raw = some x ∧ coerce raw = .ok (.float x)) ∧
    ∀ n : Int, raw = (toString n).toList → coerce raw =
      if n.natAbs < 10 ^ maxDigits then .ok (.int n) else .error .integerTooLong := by
  refine ⟨fun l => coerce_of_writtenAs, coerce_of_not_writtenAs, fun l m hl hm => hl.unique hm,
    fun order => firstOf_eq_coerce, fun v => kind_coerce, fun _ _ _ => coerce_float, ?_⟩
  rintro n rfl
  exact coerce_toString n

/-- An integer in digits of another script, a float without a digit before
its point, a text that is almost a number, a truth value that is tested for
before numbers are, and an integer with one digit more than is read. -/
theorem coerce_exact_minusSeven :
    ((Literal.integer true [0, 7]).WrittenAs "-٠٧".toList ∧
      coerce "-٠٧".toList = .ok (.int (-7))) ∧
    ((Literal.float false [] [5]).WrittenAs ".5".toList ∧
      Decimal.parse? ".5".toList = some 0.5 ∧ coerce ".5".toList = .ok (.float 0.5)) ∧
    ((∀ l : Literal, ¬l.WrittenAs "1.2.3".toList) ∧
      coerce "1.2.3".toList = .ok (.text "1.2.3")) ∧
    ((∀ k, k ∈ [Kind.null, .bool, .float, .integer]) ∧
      firstOf [.null, .bool, .float, .integer] "true".toList = .ok (.bool true)) ∧
    coerce (toString ((10 : Int) ^ maxDigits)).toList = .error .integerTooLong := by
  have hseven : (Literal.integer true [0, 7]).WrittenAs "-٠٧".toList :=
    ⟨['٠', '٧'], by decide, .cons ⟨by decide, 0x660, by decide, rfl⟩
      (.cons ⟨by decide, 0x660, by decide, rfl⟩ .nil), rfl⟩
  have hhalf : (Literal.float false [] [5]).WrittenAs ".5".toList :=
    ⟨[], ['5'], by decide, .nil, .cons ⟨by decide, 0x30, by decide, rfl⟩ .nil, rfl⟩
  have hnone : ∀ l : Literal, ¬l.WrittenAs "1.2.3".toList := by
    intro l hl
    have htest := Kind.test_of_writtenAs hl
    cases hk : l.kind <;> rw [hk] at htest <;> exact absurd htest nofun
  have horder : ∀ k, k ∈ [Kind.null, .bool, .float, .integer] := by
    intro k
    cases k <;> decide
  obtain ⟨hvalue, -⟩ := coerce_exact "-٠٧".toList
  obtain ⟨hmeaning, -, -, -, -, hfloat, -⟩ := coerce_exact ".5".toList
  have hcoerce : coerce ".5".toList = .ok (.float 0.5) := (hmeaning _ hhalf).trans rfl
  obtain ⟨x, hparse, hx⟩ := hfloat _ _ _ hhalf
  obtain rfl : x = 0.5 := Scalar.float.inj (Except.ok.inj (hx.symm.trans hcoerce))
  obtain ⟨-, htext, -⟩ := coerce_exact "1.2.3".toList
  obtain ⟨-, -, -, hany, -⟩ := coerce_exact "true".toList
  obtain ⟨-, -, -, -, -, -, hlong⟩ := coerce_exact (toString ((10 : Int) ^ maxDigits)).toList
  refine ⟨⟨hseven, ?_⟩, ⟨hhalf, hparse, hcoerce⟩, ⟨hnone, htext hnone⟩, ⟨horder, ?_⟩, ?_⟩
  · rw [hvalue _ hseven]
    simp [Literal.meaning, placeValue, maxDigits, Nat.ofDigits]
  · rw [hany _ horder]
    rfl
  · rw [hlong _ rfl, if_neg (by simp [Int.natAbs_pow])]

end Metadata
end Daybook
