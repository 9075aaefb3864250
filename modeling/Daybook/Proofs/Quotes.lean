import Daybook.Proofs.Builtin

/-!
# Quotes — lines whose quotes come in pairs

A quoted string may reach over line ends, but not when its line holds an
even number of quotes and no backslash (`Paired`): then the quote that
closes it is on the line. A reader that takes an even number of quotes
off such a line leaves one (`Pairing`), so what a directive reads of its
first line stays on it.
-/

namespace Daybook

open Daybook.Text Daybook.Reading

/-- On the line at the front quotes come in pairs, and nothing is
escaped. -/
structure Paired (cs : List Char) : Prop where
  even : (lineAhead cs).count '"' % 2 = 0
  unescaped : '\\' ∉ lineAhead cs

/-- From a line with paired quotes the reader takes a part of the line,
and quotes are paired on what is left of it. -/
def Pairing {α : Type} (r : Reader α) : Prop :=
  ∀ cs, Paired cs → (r cs).Finds fun _ n => n ≤ (lineAhead cs).length ∧ Paired (cs.drop n)

/-- A reader that takes a part of a line with paired quotes. -/
def Confined {α : Type} (r : Reader α) : Prop :=
  ∀ cs, Paired cs → (r cs).Finds fun _ n => n ≤ (lineAhead cs).length

theorem paired_nil : Paired [] := ⟨by simp, by simp⟩

/-- Taking no quote off a line leaves them paired. -/
theorem Paired.drop {cs : List Char} (h : Paired cs) {n : Nat} (hn : n ≤ (lineAhead cs).length)
    (hq : '"' ∉ cs.take n) : Paired (cs.drop n) := by
  have htake : (lineAhead cs).take n = cs.take n := by
    obtain ⟨rest, hrest⟩ := lineAhead_isPrefix cs
    calc (lineAhead cs).take n = (lineAhead cs ++ rest).take n :=
          (List.take_append_of_le_length hn).symm
      _ = cs.take n := by rw [hrest]
  have hcount : (lineAhead cs).count '"' = ((lineAhead cs).drop n).count '"' := by
    have hsplit := congrArg (List.count '"') (List.take_append_drop n (lineAhead cs))
    rw [List.count_append, htake, List.count_eq_zero_of_not_mem hq, Nat.zero_add] at hsplit
    exact hsplit.symm
  refine ⟨?_, ?_⟩
  · rw [lineAhead_drop hn, ← hcount]
    exact h.even
  · rw [lineAhead_drop hn]
    exact fun hm => h.unescaped (List.mem_of_mem_drop hm)

theorem Paired.drop_takeWhile {cs : List Char} (h : Paired cs) {p : Char → Bool}
    (hn : p '\n' = false) (hq : p '"' = false) : Paired (cs.drop (cs.takeWhile p).length) := by
  refine h.drop (takeWhile_le_lineAhead hn cs) ?_
  have htake : cs.take (cs.takeWhile p).length = cs.takeWhile p :=
    (List.prefix_iff_eq_take.1 (List.takeWhile_prefix p)).symm
  intro hm
  rw [htake] at hm
  have := List.mem_takeWhile_imp hm
  rw [hq] at this
  cases this

theorem Paired.drop_inlineBlanks {cs : List Char} (h : Paired cs) :
    Paired (cs.drop (inlineBlanks cs)) :=
  h.drop_takeWhile (by decide) (by decide)

theorem Paired.drop_indentWidth {cs : List Char} (h : Paired cs) :
    Paired (cs.drop (indentWidth cs)) :=
  h.drop_takeWhile (by decide) (by decide)

/-! ## Readers in a row -/

section Readers

variable {α β : Type} {first : Reader α} {next : α → Reader β}

theorem Pairing.confined {r : Reader α} (h : Pairing r) : Confined r :=
  fun cs hp => (h cs hp).mono fun _ _ hn => hn.1

theorem confined_of_le {r : Reader α}
    (h : ∀ cs, (r cs).Finds fun _ n => n ≤ (lineAhead cs).length) : Confined r :=
  fun cs _ => h cs

/-- A part of what is left of a line is a part of the line. -/
theorem add_le_lineAhead {cs : List Char} {k n : Nat} (hk : k ≤ (lineAhead cs).length)
    (hn : n ≤ (lineAhead (cs.drop k)).length) : k + n ≤ (lineAhead cs).length := by
  rw [lineAhead_drop hk, List.length_drop] at hn
  omega

theorem Pairing.andThen (hf : Pairing first) (hn : ∀ v, Pairing (next v)) :
    Pairing fun cs => (first cs).andThen cs next := by
  intro cs hp
  refine finds_andThen ((hf cs hp).mono fun v k hk => (hn v _ hk.2).mono fun _ n h => ⟨?_, ?_⟩)
  · exact add_le_lineAhead hk.1 h.1
  · rw [← List.drop_drop]
    exact h.2

theorem Confined.andThen (hf : Pairing first) (hn : ∀ v, Confined (next v)) :
    Confined fun cs => (first cs).andThen cs next := by
  intro cs hp
  refine finds_andThen ((hf cs hp).mono fun v k hk => (hn v _ hk.2).mono fun _ n h => ?_)
  exact add_le_lineAhead hk.1 h

theorem Pairing.map {r : Reader α} (h : Pairing r) (f : α → β) : Pairing fun cs => (r cs).map f :=
  fun cs hp => (finds_map ..).2 (h cs hp)

theorem Confined.map {r : Reader α} (h : Confined r) (f : α → β) :
    Confined fun cs => (r cs).map f :=
  fun cs hp => (finds_map ..).2 (h cs hp)

/-- A reader that takes no quotes leaves them paired. -/
theorem pairing_of_quoteless {r : Reader α}
    (hle : ∀ cs, (r cs).Finds fun _ n => n ≤ (lineAhead cs).length)
    (hq : ∀ cs, (r cs).Finds fun _ n => '"' ∉ cs.take n) : Pairing r := by
  intro cs hp
  refine finds_iff.2 fun v n hf => ?_
  have hn : n ≤ (lineAhead cs).length := (hle cs).of_eq hf
  exact ⟨hn, hp.drop hn ((hq cs).of_eq hf)⟩

end Readers

/-! ## Lexemes -/

namespace Lexeme

/-- What the lexeme takes holds no quote. -/
def Quoteless (l : Lexeme) : Prop := ∀ cs w, l cs = some w → '"' ∉ w

theorem quoteless_shape {ps : List (Char → Bool)} (h : ∀ p ∈ ps, p '"' = false) :
    (shape ps).Quoteless := by
  intro cs w hw
  fun_induction shape ps cs generalizing w with
  | case1 cs => simp_all
  | case2 => simp at hw
  | case3 p ps c cs hc ih =>
      obtain ⟨v, hv, rfl⟩ := Option.map_eq_some_iff.1 hw
      have hrest := ih (fun q hq => h q (by simp [hq])) v hv
      have hne : '"' ≠ c := by
        rintro rfl
        rw [h p (by simp)] at hc
        cases hc
      simp [hne, hrest]
  | case4 => simp at hw

theorem quoteless_headed {p q : Char → Bool} (hp : p '"' = false) (hq : q '"' = false) :
    (headed p q).Quoteless := by
  intro cs w hw
  cases cs with
  | nil => simp [headed] at hw
  | cons c cs =>
      rw [headed] at hw
      split at hw
      · next hc =>
        cases hw
        have hne : '"' ≠ c := by
          rintro rfl
          rw [hp] at hc
          cases hc
        have hrest : '"' ∉ cs.takeWhile q := fun hm => by
          have := List.mem_takeWhile_imp hm
          rw [hq] at this
          cases this
        simp [hne, hrest]
      · simp at hw

theorem Quoteless.filter {l : Lexeme} (h : l.Quoteless) (p : List Char → List Char → Bool) :
    Quoteless fun cs => (l cs).filter (p cs) :=
  fun cs w hw => h cs w (Option.filter_eq_some_iff.1 hw).1

theorem pairing_read {l : Lexeme} (hl : OnLine l) (hb : l.Begins) (hq : l.Quoteless) :
    Pairing l.read := by
  refine pairing_of_quoteless (finds_le_lineAhead (onLine_read hl) hb.finds_le) fun cs => ?_
  rw [read, finds_ofOption]
  intro v n hv
  obtain ⟨w, hw, heq⟩ := Option.map_eq_some_iff.1 hv
  cases heq
  rw [← List.prefix_iff_eq_take.1 (hb cs w hw)]
  exact hq cs w hw

end Lexeme

/-! ## Tokens -/

namespace Token

theorem pairing_date : Pairing date.read :=
  Lexeme.pairing_read onLine_date (Lexeme.begins_shape _)
    (Lexeme.quoteless_shape (by simp [show isDecimalDigit '"' = false by decide]))

theorem pairing_flag : Pairing flag.read :=
  Lexeme.pairing_read onLine_flag (Lexeme.begins_shape _) (Lexeme.quoteless_shape (by simp))

theorem pairing_account : Pairing account.read :=
  Lexeme.pairing_read onLine_account begins_account
    ((Lexeme.quoteless_headed (by decide) (by decide)).filter _)

theorem quoteless_keyword {word : String} (hw : '"' ∉ word.toList) : (keyword word).Quoteless := by
  intro cs w h
  have hlit := (Option.filter_eq_some_iff.1 h).1
  rw [literal] at hlit
  split at hlit
  · simp at hlit
  · refine Lexeme.quoteless_shape (fun p hp => ?_) cs w hlit
    obtain ⟨c, hc, rfl⟩ := List.mem_map.1 hp
    have hne : '"' ≠ c := fun he => hw (he ▸ hc)
    simpa using hne

theorem pairing_keyword {word : String} (hn : '\n' ∉ word.toList) (hw : '"' ∉ word.toList) :
    Pairing (keyword word).read :=
  Lexeme.pairing_read (onLine_keyword hn) (begins_keyword word) (quoteless_keyword hw)

/-- Without backslashes, a string closes at the first quote. -/
theorem decode_eq {l rest : List Char} (hq : '"' ∉ l) (hb : '\\' ∉ l) :
    Quoted.decode (l ++ '"' :: rest) = some (l, l.length + 1) := by
  induction l with
  | nil => simp [Quoted.decode]
  | cons c l ih =>
      have hc : c ≠ '\\' := fun he => hb (by simp [he])
      have hcq : c ≠ '"' := fun he => hq (by simp [he])
      have hrest := ih (fun h => hq (by simp [h])) fun h => hb (by simp [h])
      rw [List.cons_append, Quoted.decode, if_neg hcq, hrest]
      · rfl
      · exact fun h => absurd h hc
      · intro _ _ h
        exact absurd h hc

/-- **On a line with paired quotes a string closes.** -/
theorem pairing_quoted : Pairing quoted := by
  intro cs hp
  by_cases hq : cs.head? = some '"'
  · obtain ⟨rest, rfl⟩ : ∃ rest, cs = '"' :: rest := by
      cases cs with
      | nil => simp at hq
      | cons c rest => exact ⟨rest, by simpa using hq⟩
    have hline : lineAhead ('"' :: rest) = '"' :: lineAhead rest := lineAhead_cons (by decide) rest
    have heven := hp.even
    have hunescaped := hp.unescaped
    rw [hline, List.count_cons_self] at heven
    rw [hline] at hunescaped
    -- an odd number of quotes is left, so there is one
    have hmem : '"' ∈ lineAhead rest := by
      by_contra hno
      rw [List.count_eq_zero_of_not_mem hno] at heven
      omega
    obtain ⟨l, tail, hsplit, hno⟩ := List.eq_append_cons_of_mem hmem
    obtain ⟨after, hafter⟩ := lineAhead_isPrefix rest
    have hbody : '\\' ∉ l := fun h => hunescaped (by simp [hsplit, h])
    have hdecode : Quoted.decode rest = some (l, l.length + 1) := by
      rw [← hafter, hsplit, List.append_assoc, List.cons_append]
      exact decode_eq hno hbody
    have hle : l.length + 2 ≤ (lineAhead ('"' :: rest)).length := by
      rw [hline, hsplit]
      simp
    have hrest : (lineAhead ('"' :: rest)).drop (l.length + 2) = tail := by
      rw [hline, hsplit, List.drop_succ_cons, List.drop_length_add_append]
      rfl
    rw [quoted, hdecode]
    refine ⟨hle, ?_, ?_⟩
    · rw [lineAhead_drop hle, hrest]
      rw [hsplit, List.count_append, List.count_cons_self, List.count_eq_zero_of_not_mem hno]
        at heven
      omega
    · rw [lineAhead_drop hle, hrest]
      exact fun h => hunescaped (by simp [hsplit, h])
  · rw [quoted_eq_absent hq]
    trivial

theorem quoteless_digits (cs : List Char) : '"' ∉ cs.takeWhile isDecimalDigit := by
  intro h
  have hd := List.mem_takeWhile_imp h
  rw [show isDecimalDigit '"' = false by decide] at hd
  cases hd

theorem quoteless_fractionAhead {cs ds : List Char} (h : Numeral.fractionAhead cs = some ds) :
    '"' ∉ ds := by
  cases cs with
  | nil => simp [Numeral.fractionAhead] at h
  | cons c cs =>
      by_cases hp : c = '.'
      · subst hp
        rw [Numeral.fractionAhead] at h
        split at h
        · simp at h
        · cases h
          exact quoteless_digits _
      · simp [Numeral.fractionAhead, hp] at h

theorem quoteless_ahead? {cs : List Char} {n : Numeral} (h : Numeral.ahead? cs = some n) :
    '"' ∉ n.text := by
  rw [Numeral.ahead?] at h
  simp only at h
  split at h
  · simp at h
  · cases h
    have hsign : ∀ b : Bool, '"' ∉ if b then ['-'] else [] := by decide
    have hwhole := quoteless_digits (Numeral.splitSign cs).2
    rw [Numeral.text]
    simp only [List.mem_append, not_or]
    refine ⟨⟨hsign _, hwhole⟩, ?_⟩
    split
    · simp
    · next ds hf =>
      have hds := quoteless_fractionAhead hf
      simp [hds]

theorem quoteless_amountCurrency : amountCurrency.Quoteless := by
  intro cs w hw hm
  rw [amountCurrency, Lexeme.run] at hw
  split at hw
  · simp at hw
  · cases hw
    have hc := List.mem_takeWhile_imp hm
    rw [show isCurrencyChar '"' = false by decide] at hc
    cases hc

theorem pairing_amount : Pairing fun cs => Reading.ofOption (amount? cs) := by
  intro cs hp
  rw [finds_ofOption]
  intro v n h
  rw [amount?_eq] at h
  obtain ⟨num, hnum, h⟩ := Option.bind_eq_some_iff.1 h
  obtain ⟨code, hcode, heq⟩ := Option.map_eq_some_iff.1 h
  obtain ⟨w, hw, rfl⟩ := Option.map_eq_some_iff.1 hcode
  cases heq
  -- the number, white space and the code, one after another
  have hnumber : Paired (cs.drop num.text.length) := by
    refine hp.drop (Numeral.ahead?_le cs hnum) ?_
    rw [← List.prefix_iff_eq_take.1 (Numeral.ahead?_isPrefix hnum)]
    exact quoteless_ahead? hnum
  have hblank := hnumber.drop_inlineBlanks
  obtain ⟨hle, hcode⟩ := (Lexeme.pairing_read onLine_amountCurrency (Lexeme.begins_run _)
    quoteless_amountCurrency _ hblank).of_eq (v := String.ofList w) (n := w.length)
      (by rw [Lexeme.read, hw]; rfl)
  refine ⟨?_, ?_⟩
  · refine add_le_lineAhead (Numeral.ahead?_le cs hnum) ?_
    exact add_le_lineAhead (inlineBlanks_le_lineAhead _) hle
  · rw [← List.drop_drop, ← List.drop_drop]
    exact hcode

theorem confined_string : Confined string := by
  intro cs hp
  rw [string_eq]
  split
  · exact pairing_quoted.confined cs hp
  · exact finds_le_lineAhead (Lexeme.onLine_read onLine_bareWord) (Lexeme.begins_run _).finds_le cs

end Token

/-! ## Titles and headers -/

namespace Transaction

theorem pairing_behindBlanks {α : Type} {r : Reader α} (h : Pairing r) :
    Pairing (behindBlanks r) := by
  intro cs hp
  refine (finds_shift ..).2 ((h _ hp.drop_inlineBlanks).mono fun _ n hn => ⟨?_, ?_⟩)
  · exact add_le_lineAhead (inlineBlanks_le_lineAhead cs) hn.1
  · rw [← List.drop_drop]
    exact hn.2

theorem pairing_secondTitle (first : String) : Pairing (secondTitle first) := by
  intro cs hp
  rw [secondTitle_eq]
  split
  · exact ⟨Nat.zero_le _, hp⟩
  · exact (pairing_behindBlanks Token.pairing_quoted).map _ cs hp

theorem pairing_titles : Pairing titles := Token.pairing_quoted.andThen pairing_secondTitle

/-- **The header of a transaction stays on its line** when the quotes of
the line come in pairs. -/
theorem confined_header : Confined header := by
  refine Confined.andThen Token.pairing_date fun date => ?_
  refine Confined.andThen (pairing_behindBlanks Token.pairing_flag) fun flag => ?_
  refine Confined.andThen (pairing_behindBlanks pairing_titles) fun t => ?_
  exact (confined_of_le trailingMarks_le_lineAhead).map _

end Transaction

/-! ## Fields in a row -/

namespace Field

variable {r : Registry} {f : Field} {fs : List Field}

theorem read_finds_of_readAs {s : Shape} (h : f.ReadAs r s) {P : Value → Nat → Prop}
    {cs : List Char} (hs : (s.read cs).Finds P) : (f.read r cs).Finds P := by
  rw [read_of_readAs h]
  exact checked_finds hs

/-- A field that leaves quotes paired may stand before others. -/
theorem confined_cons (hf : Pairing (f.read r))
    (hfs : ∀ values, Confined (readAll r fs values)) (values : Pairs Value) :
    Confined (readAll r (f :: fs) values) := by
  intro cs hp
  have hblank := inlineBlanks_le_lineAhead cs
  refine readAll_cons_finds (fun v n hv => ?_) fun _ _ => ?_
  · obtain ⟨hn, hrest⟩ := (hf _ hp.drop_inlineBlanks).of_eq hv
    have hle := add_le_lineAhead hblank hn
    rw [List.drop_drop] at hrest
    exact (hfs _ _ hrest).mono fun _ k hk => add_le_lineAhead hle hk
  · exact (hfs _ _ hp.drop_inlineBlanks).mono fun _ k hk => add_le_lineAhead hblank hk

theorem readAll_le_lineAhead
    (h : ∀ f ∈ fs, ∀ cs, (f.read r cs).Finds fun _ n => n ≤ (lineAhead cs).length)
    (values : Pairs Value) (cs : List Char) :
    (readAll r fs values cs).Finds fun _ n => n ≤ (lineAhead cs).length := by
  induction fs generalizing values cs with
  | nil => exact Nat.zero_le _
  | cons f fs ih =>
      have hblank := inlineBlanks_le_lineAhead cs
      have hfs := ih fun g hg => h g (by simp [hg])
      refine readAll_cons_finds (fun v n hv => ?_) fun _ _ => ?_
      · have hn := add_le_lineAhead hblank ((h f (by simp) _).of_eq hv)
        exact (hfs _ _).mono fun _ k hk => add_le_lineAhead hn hk
      · exact (hfs _ _).mono fun _ k hk => add_le_lineAhead hblank hk

/-- A field that may take an odd number of quotes may stand before others
that do not look for any. -/
theorem confined_cons_last (hf : Confined (f.read r))
    (hfs : ∀ g ∈ fs, ∀ cs, (g.read r cs).Finds fun _ n => n ≤ (lineAhead cs).length)
    (values : Pairs Value) : Confined (readAll r (f :: fs) values) := by
  intro cs hp
  have hblank := inlineBlanks_le_lineAhead cs
  refine readAll_cons_finds (fun v n hv => ?_) fun _ _ => ?_
  · have hn := add_le_lineAhead hblank ((hf _ hp.drop_inlineBlanks).of_eq hv)
    exact (readAll_le_lineAhead hfs _ _).mono fun _ k hk => add_le_lineAhead hn hk
  · exact (readAll_le_lineAhead hfs _ _).mono fun _ k hk => add_le_lineAhead hblank hk

end Field

namespace Builtin

theorem Plain.pairing {f : Field} {s : Shape} (h : Plain f s) (hs : Pairing s.read) :
    Pairing (f.read registry) :=
  fun cs hp => Field.read_finds_of_readAs h.reads (hs cs hp)

theorem Plain.confined {f : Field} {s : Shape} (h : Plain f s) (hs : Confined s.read) :
    Confined (f.read registry) :=
  fun cs hp => Field.read_finds_of_readAs h.reads (hs cs hp)

theorem Plain.read_le_lineAhead {f : Field} {s : Shape} (h : Plain f s)
    (hs : ∀ cs, (s.read cs).Finds fun _ n => n ≤ (lineAhead cs).length) (cs : List Char) :
    (f.read registry cs).Finds fun _ n => n ≤ (lineAhead cs).length :=
  Field.read_finds_of_readAs h.reads (hs cs)

theorem pairing_shape_account : Pairing Shape.account.read := Token.pairing_account.map _

theorem pairing_shape_amount : Pairing Shape.amount.read := Token.pairing_amount.map _

theorem pairing_shape_quoted : Pairing Shape.quoted.read := Token.pairing_quoted.map _

theorem confined_shape_string : Confined Shape.string.read := Token.confined_string.map _

/-- At most one of the shapes may take an odd number of quotes, and what
comes behind that one looks for none. -/
inductive Tame : List Shape → Prop
  | nil : Tame []
  | pairing {s : Shape} {ss : List Shape} (hs : Pairing s.read) (hss : Tame ss) : Tame (s :: ss)
  | last {s : Shape} {ss : List Shape} (hs : Confined s.read)
      (hss : ∀ t ∈ ss, ∀ cs, (t.read cs).Finds fun _ n => n ≤ (lineAhead cs).length) :
      Tame (s :: ss)

theorem tame_bodyShapes {shapes : List Shape} (h : shapes ∈ bodyShapes) : Tame shapes := by
  simp only [bodyShapes, List.mem_cons, List.not_mem_nil, or_false] at h
  rcases h with rfl | rfl | rfl | rfl | rfl | rfl
  · exact .pairing pairing_shape_account
      (.last (confined_of_le (Shape.read_le_lineAhead (s := .currencies) trivial))
        (List.forall_mem_nil _))
  · exact .pairing pairing_shape_account .nil
  · exact .pairing pairing_shape_account (.pairing pairing_shape_amount .nil)
  · refine .last confined_shape_string fun t ht cs => ?_
    rw [List.mem_singleton.1 ht]
    exact Shape.read_le_lineAhead (s := .amount) trivial cs
  · exact .pairing pairing_shape_account (.pairing pairing_shape_quoted .nil)
  · exact .pairing pairing_shape_account
      (.pairing pairing_shape_amount (.last confined_shape_string (List.forall_mem_nil _)))

theorem confined_of_tame {rest : List Field} {shapes : List Shape}
    (h : List.Forall₂ Plain rest shapes) (ht : Tame shapes) (values : Pairs Value) :
    Confined (Field.readAll registry rest values) := by
  induction h generalizing values with
  | nil => exact fun cs _ => Nat.zero_le _
  | cons hf hrest ih =>
      cases ht with
      | pairing hs hss => exact Field.confined_cons (hf.pairing hs) (ih hss) values
      | last hs hss =>
          refine Field.confined_cons_last (hf.confined hs) (fun g hg => ?_) values
          obtain ⟨t, ht, hgt⟩ := exists_plain hrest hg
          exact hgt.read_le_lineAhead (hss t ht)

/-- **The fields of a builtin schema stay on their line** when its quotes
come in pairs. -/
theorem Schema.confined {fields : List Field} {word : String} {shapes : List Shape}
    (h : Schema fields word shapes) (hmem : shapes ∈ bodyShapes) :
    Confined (Field.readAll registry fields []) := by
  obtain ⟨rest, rfl, hrest⟩ := h.split
  have hdate : Pairing (dateField.read registry) := by
    intro cs hp
    rw [read_dateField]
    exact Token.pairing_date.map _ cs hp
  have hword : Pairing ((keywordField word).read registry) := by
    intro cs hp
    rw [read_keywordField]
    exact (Token.pairing_keyword h.singleLine h.quoteless).map _ cs hp
  rw [header_eq]
  exact Field.confined_cons hdate
    (Field.confined_cons hword (confined_of_tame hrest (tame_bodyShapes hmem))) []

end Builtin
end Daybook
