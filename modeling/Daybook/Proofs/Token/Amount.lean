import Daybook.Proofs.Token.Name
import Daybook.Token.Amount
import Daybook.Token.Mark

/-!
# Token — Amount

Numbers, amounts, lists of currency codes, and runs of tags and links:
each stays on its line.
-/

namespace Daybook

open Daybook.Text

/-! ## Numerals -/

namespace Numeral

theorem fractionAhead_lineAhead : OnLine fractionAhead := by
  refine onLine_of_cons (fun _ => rfl) fun c cs _ => ?_
  by_cases hp : c = '.'
  · subst hp
    rw [fractionAhead, fractionAhead, onLine_takeWhile Token.isDecimalDigit_newline]
  · simp [fractionAhead, hp]

theorem splitSign_lineAhead (cs : List Char) :
    splitSign (lineAhead cs) = ((splitSign cs).1, lineAhead (splitSign cs).2) := by
  cases cs with
  | nil => rfl
  | cons c cs =>
      by_cases hc : c = '\n'
      · subst hc
        rfl
      · rw [lineAhead_cons hc]
        by_cases hm : c = '-'
        · subst hm
          rfl
        · simp [splitSign, hm, lineAhead_cons hc]

theorem onLine_ahead? : OnLine ahead? := by
  intro cs
  have hd := onLine_takeWhile Token.isDecimalDigit_newline (splitSign cs).2
  have hle := takeWhile_le_lineAhead Token.isDecimalDigit_newline (splitSign cs).2
  rw [ahead?, ahead?, splitSign_lineAhead]
  simp only
  rw [hd, fractionAhead_lineAhead.drop hle]

theorem fractionAhead_isPrefix {cs ds : List Char} (h : fractionAhead cs = some ds) :
    '.' :: ds <+: cs := by
  cases cs with
  | nil => simp [fractionAhead] at h
  | cons c cs =>
      by_cases hp : c = '.'
      · subst hp
        rw [fractionAhead] at h
        split at h
        · simp at h
        · cases h
          exact List.cons_prefix_cons.2 ⟨rfl, List.takeWhile_prefix _⟩
      · simp [fractionAhead, hp] at h

theorem splitSign_eq (cs : List Char) :
    cs = (if (splitSign cs).1 then ['-'] else []) ++ (splitSign cs).2 := by
  cases cs with
  | nil => rfl
  | cons c cs =>
      by_cases hm : c = '-'
      · subst hm
        rfl
      · simp [splitSign, hm]

/-- A numeral is a beginning of what lies ahead. -/
theorem ahead?_isPrefix {cs : List Char} {n : Numeral} (h : ahead? cs = some n) :
    n.text <+: cs := by
  rw [ahead?] at h
  simp only at h
  split at h
  · simp at h
  · cases h
    have hcs := splitSign_eq cs
    generalize splitSign cs = sign at hcs
    subst hcs
    rw [text, List.append_assoc]
    refine (List.prefix_append_right_inj _).2 ?_
    -- the digits come first, and the fraction is read behind them
    have hsplit := List.takeWhile_append_dropWhile (p := isDecimalDigit) (l := sign.2)
    have hdrop : sign.2.drop (sign.2.takeWhile isDecimalDigit).length
        = sign.2.dropWhile isDecimalDigit := by
      have : (sign.2.takeWhile isDecimalDigit ++ sign.2.dropWhile isDecimalDigit).drop
          (sign.2.takeWhile isDecimalDigit).length = sign.2.dropWhile isDecimalDigit :=
        List.drop_left
      rwa [hsplit] at this
    rw [hdrop]
    cases hf : fractionAhead (sign.2.dropWhile isDecimalDigit) with
    | none => simpa using List.takeWhile_prefix _
    | some ds =>
        have := (List.prefix_append_right_inj (sign.2.takeWhile isDecimalDigit)).2
          (fractionAhead_isPrefix hf)
        rwa [hsplit] at this

theorem ahead?_le (cs : List Char) {n : Numeral} (h : ahead? cs = some n) :
    n.text.length ≤ (lineAhead cs).length :=
  (ahead?_isPrefix ((onLine_ahead? cs).trans h)).length_le

end Numeral

namespace Token

theorem onLine_number? : OnLine number? := by
  intro cs
  rw [number?, number?, Numeral.onLine_ahead?]

theorem number?_le (cs : List Char) : ∀ v n, number? cs = some (v, n) → n ≤ cs.length := by
  intro v n h
  obtain ⟨num, hnum, heq⟩ := Option.map_eq_some_iff.1 h
  cases heq
  exact (Numeral.ahead?_isPrefix hnum).length_le

/-! ## Amounts -/

/-- The currency code that may come behind a number, with its length and
that of the white space before it. -/
def amountCode (cs : List Char) : Option (List Char × Nat) :=
  (amountCurrency (cs.drop (inlineBlanks cs))).map fun code =>
    (code, inlineBlanks cs + code.length)

theorem amount?_eq (cs : List Char) :
    amount? cs = (Numeral.ahead? cs).bind fun n =>
      (amountCode (cs.drop n.text.length)).map fun code =>
        (⟨n.toFloat, String.ofList code.1⟩, n.text.length + code.2) := by
  rw [amount?]
  cases Numeral.ahead? cs with
  | none => rfl
  | some n =>
      simp only [Option.bind_eq_bind, Option.bind_some, amountCode]
      cases h : amountCurrency ((cs.drop n.text.length).drop
          (inlineBlanks (cs.drop n.text.length))) with
      | none => rfl
      | some code => simp [Nat.add_assoc]

theorem onLine_amountCode : OnLine amountCode := by
  intro cs
  have hb := onLine_inlineBlanks cs
  rw [amountCode, amountCode, hb, onLine_amountCurrency.drop (inlineBlanks_le_lineAhead cs)]

theorem amountCode_le (cs : List Char) {code : List Char × Nat} (h : amountCode cs = some code) :
    code.2 ≤ cs.length := by
  obtain ⟨w, hw, rfl⟩ := Option.map_eq_some_iff.1 h
  have h1 := (Lexeme.run_isPrefix hw).length_le
  have h2 := inlineBlanks_le cs
  rw [List.length_drop] at h1
  simp only
  omega

theorem onLine_amount? : OnLine amount? := by
  intro cs
  rw [amount?_eq, amount?_eq, Numeral.onLine_ahead?]
  cases h : Numeral.ahead? cs with
  | none => rfl
  | some n =>
      rw [Option.bind_some, Option.bind_some, onLine_amountCode.drop (Numeral.ahead?_le cs h)]

theorem amount?_le (cs : List Char) : ∀ v n, amount? cs = some (v, n) → n ≤ cs.length := by
  intro v n h
  rw [amount?_eq] at h
  obtain ⟨num, hnum, h⟩ := Option.bind_eq_some_iff.1 h
  obtain ⟨code, hcode, heq⟩ := Option.map_eq_some_iff.1 h
  cases heq
  have h1 := (Numeral.ahead?_isPrefix hnum).length_le
  have h2 := amountCode_le _ hcode
  rw [List.length_drop] at h2
  omega

/-! ## Lists of currency codes -/

theorem moreCurrencies_lineAhead (cs : List Char) :
    moreCurrencies (lineAhead cs) = moreCurrencies cs := by
  fun_induction moreCurrencies cs with
  | case1 rest hnone =>
      rw [lineAhead_cons (by decide), moreCurrencies, onLine_inlineBlanks,
        onLine_currency.drop (inlineBlanks_le_lineAhead rest), hnone]
  | case2 rest code hcode n codes k hmore ih =>
      have hb := inlineBlanks_le_lineAhead rest
      have hc : code.length ≤ ((lineAhead rest).drop (inlineBlanks rest)).length :=
        (Lexeme.headed_isPrefix
          ((onLine_currency.drop hb).trans hcode)).length_le
      have hn : n ≤ (lineAhead rest).length := by
        rw [List.length_drop] at hc
        omega
      rw [lineAhead_drop hn] at ih
      rw [lineAhead_cons (by decide), moreCurrencies, onLine_inlineBlanks,
        onLine_currency.drop hb, hcode]
      simp only
      rw [ih, hmore]
  | case3 cs hno =>
      cases cs with
      | nil => simp [moreCurrencies]
      | cons c cs =>
          by_cases hc : c = '\n'
          · subst hc
            simp [moreCurrencies]
          · have hcomma : c ≠ ',' := fun he => hno cs (he ▸ rfl)
            rw [lineAhead_cons hc]
            simp [moreCurrencies, hcomma]

theorem moreCurrencies_le (cs : List Char) : (moreCurrencies cs).2 ≤ cs.length := by
  fun_induction moreCurrencies cs with
  | case1 rest _ => simp
  | case2 rest code hcode n codes k hmore ih =>
      have h1 := (Lexeme.headed_isPrefix hcode).length_le
      have h2 := inlineBlanks_le rest
      simp only [hmore, List.length_drop, List.length_cons] at ih h1 ⊢
      omega
  | case3 cs _ => simp

theorem onLine_currencies? : OnLine currencies? := by
  intro cs
  rw [currencies?, currencies?, onLine_currency]
  cases h : currency cs with
  | none => rfl
  | some code =>
      have hle : code.length ≤ (lineAhead cs).length :=
        (Lexeme.headed_isPrefix ((onLine_currency cs).trans h)).length_le
      rw [Option.map_some, Option.map_some, ← lineAhead_drop hle, moreCurrencies_lineAhead]

theorem currencies?_le (cs : List Char) :
    ∀ v n, currencies? cs = some (v, n) → n ≤ cs.length := by
  intro v n h
  obtain ⟨code, hcode, heq⟩ := Option.map_eq_some_iff.1 h
  cases heq
  have h1 := (Lexeme.headed_isPrefix hcode).length_le
  have h2 := moreCurrencies_le (cs.drop code.length)
  rw [List.length_drop] at h2
  omega

/-! ## Tags and links -/

theorem isMarkChar_newline : isMarkChar '\n' = false := by decide

theorem onLine_mark? : OnLine mark? := by
  refine onLine_of_cons (fun cs => ?_) fun c cs _ => ?_
  · simp [mark?]
  · rw [mark?, mark?, onLine_takeWhile isMarkChar_newline]

theorem mark?_le {cs : List Char} {m : Mark} {n : Nat} (h : mark? cs = some (m, n)) :
    n ≤ cs.length := by
  cases cs with
  | nil => simp [mark?] at h
  | cons c cs =>
      have hle := (List.takeWhile_prefix (p := isMarkChar) (l := cs)).length_le
      have hn : n = (cs.takeWhile isMarkChar).length + 1 := by
        rw [mark?] at h
        grind
      rw [List.length_cons]
      omega

/-- Tags and links, read one after another. -/
theorem marks_eq (cs : List Char) :
    marks cs = match mark? (cs.drop (inlineBlanks cs)) with
      | none => ([], 0)
      | some (m, n) =>
        (m :: (marks (cs.drop (inlineBlanks cs + n))).1,
          inlineBlanks cs + n + (marks (cs.drop (inlineBlanks cs + n))).2) := by
  rw [marks]
  split <;> simp [*]

theorem marks_le (cs : List Char) : (marks cs).2 ≤ (lineAhead cs).length := by
  fun_induction marks cs with
  | case1 cs _ => simp
  | case2 cs m n h ms k hms ih =>
      have hb := inlineBlanks_le_lineAhead cs
      have hm := mark?_le ((onLine_mark?.drop hb).trans h)
      have hn : inlineBlanks cs + n ≤ (lineAhead cs).length := by
        rw [List.length_drop] at hm
        omega
      rw [hms, lineAhead_drop hn, List.length_drop] at ih
      simp only at ih ⊢
      omega

theorem onLine_marks : OnLine marks := by
  intro cs
  fun_induction marks cs with
  | case1 cs h =>
      rw [marks_eq, onLine_inlineBlanks, onLine_mark?.drop (inlineBlanks_le_lineAhead cs), h]
  | case2 cs m n h ms k hms ih =>
      have hb := inlineBlanks_le_lineAhead cs
      have hm := mark?_le ((onLine_mark?.drop hb).trans h)
      have hn : inlineBlanks cs + n ≤ (lineAhead cs).length := by
        rw [List.length_drop] at hm
        omega
      rw [lineAhead_drop hn] at ih
      rw [marks_eq, onLine_inlineBlanks, onLine_mark?.drop hb, h]
      simp only
      rw [ih, hms]

end Token
end Daybook
