import Daybook.Fault
import Daybook.Proofs.Cursor
import Daybook.Proofs.Settled

/-!
# Quotation — what stands between quotes

A string is written between quotes in many ways (`Spells`), and the quote
that closes it is the first that no backslash escapes (`Closes`). Reading
finds that quote and gives the string that is spelled before it, or it
finds that there is no such quote and says where the string opens.
-/

namespace Daybook

open Daybook.Text Daybook.Reading

namespace Text.Quoted

/-! ## Spelling -/

/-- The text spells the string: a backslash makes the next character
literal, but before `n` and `t`, which stand for a newline and a tab; a
quote or a backslash stands nowhere else. -/
inductive Spells : List Char → List Char → Prop
  | nil : Spells [] []
  | plain {c : Char} {raw s : List Char} (quote : c ≠ '"') (backslash : c ≠ '\\')
      (h : Spells raw s) : Spells (c :: raw) (c :: s)
  | newline {raw s : List Char} (h : Spells raw s) : Spells ('\\' :: 'n' :: raw) ('\n' :: s)
  | tab {raw s : List Char} (h : Spells raw s) : Spells ('\\' :: 't' :: raw) ('\t' :: s)
  | literal {c : Char} {raw s : List Char} (n : c ≠ 'n') (t : c ≠ 't') (h : Spells raw s) :
      Spells ('\\' :: c :: raw) (c :: s)

/-- Behind a backslash, every character spells what it stands for. -/
theorem Spells.escape (c : Char) {raw s : List Char} (h : Spells raw s) :
    Spells ('\\' :: c :: raw) (unescape c :: s) := by
  rw [unescape]
  split
  · next hn =>
    subst hn
    exact h.newline
  · next hn =>
    split
    · next ht =>
      subst ht
      exact h.tab
    · next ht => exact h.literal hn ht

/-- **What is spelled before a quote is read.** -/
theorem Spells.decode_eq {raw s : List Char} (h : Spells raw s) (rest : List Char) :
    decode (raw ++ '"' :: rest) = some (s, raw.length + 1) := by
  induction h with
  | nil => simp [decode]
  | plain quote backslash h ih =>
      rw [List.cons_append, decode, if_neg quote, ih]
      · rfl
      · exact fun hc => absurd hc backslash
      · exact fun _ _ hc => absurd hc backslash
  | newline h ih =>
      rw [List.cons_append, List.cons_append, decode, ih]
      rfl
  | tab h ih =>
      rw [List.cons_append, List.cons_append, decode, ih]
      rfl
  | literal n t h ih =>
      rw [List.cons_append, List.cons_append, decode, ih, unescape, if_neg n, if_neg t]
      rfl

/-- A text spells one string. -/
theorem Spells.unique {raw s s' : List Char} (h : Spells raw s) (h' : Spells raw s') : s = s' := by
  have heq := (h.decode_eq []).symm.trans (h'.decode_eq [])
  exact congrArg Prod.fst (Option.some.inj heq)

/-- What is written for a string spells it. -/
theorem spells_encode (s : List Char) : Spells (encode s) s := by
  induction s with
  | nil => exact .nil
  | cons c s ih =>
      rw [encode]
      split
      · next hc =>
        rcases hc with rfl | rfl
        · exact ih.literal (by decide) (by decide)
        · exact ih.literal (by decide) (by decide)
      · next hc =>
        rw [not_or] at hc
        exact ih.plain hc.2 hc.1

/-! ## The closing quote -/

/-- A backslash escapes the character at the place: it comes right before
and is not escaped itself. -/
def Escaped (cs : List Char) : Nat → Prop
  | 0 => False
  | i + 1 => cs[i]? = some '\\' ∧ ¬Escaped cs i

/-- The string closes at the place: there is a quote that no backslash
escapes, and it is the first. -/
structure Closes (cs : List Char) (i : Nat) : Prop where
  quote : cs[i]? = some '"'
  bare : ¬Escaped cs i
  first : ∀ j < i, cs[j]? = some '"' → Escaped cs j

/-- A character that is no backslash does not matter to those behind. -/
theorem escaped_cons {c : Char} (hc : c ≠ '\\') (cs : List Char) (i : Nat) :
    Escaped (c :: cs) (i + 1) ↔ Escaped cs i := by
  induction i with
  | zero => simp [Escaped, hc]
  | succ i ih => rw [Escaped, ih, List.getElem?_cons_succ, Escaped]

/-- Nor does a backslash with the character that it escapes. -/
theorem escaped_pair (c : Char) (cs : List Char) (i : Nat) :
    Escaped ('\\' :: c :: cs) (i + 2) ↔ Escaped cs i := by
  induction i with
  | zero => simp [Escaped]
  | succ i ih =>
      rw [Escaped, ih, Escaped, List.getElem?_cons_succ, List.getElem?_cons_succ]

theorem closes_cons {c : Char} (hq : c ≠ '"') (hb : c ≠ '\\') (cs : List Char) (i : Nat) :
    Closes (c :: cs) (i + 1) ↔ Closes cs i := by
  constructor
  · rintro ⟨quote, bare, first⟩
    refine ⟨quote, mt (escaped_cons hb cs i).2 bare, fun j hj hquote => ?_⟩
    exact (escaped_cons hb cs j).1 (first (j + 1) (by omega) hquote)
  · rintro ⟨quote, bare, first⟩
    refine ⟨quote, mt (escaped_cons hb cs i).1 bare, fun j hj hquote => ?_⟩
    cases j with
    | zero => exact absurd (Option.some.inj hquote) hq
    | succ j => exact (escaped_cons hb cs j).2 (first j (by omega) hquote)

theorem closes_pair (c : Char) (cs : List Char) (i : Nat) :
    Closes ('\\' :: c :: cs) (i + 2) ↔ Closes cs i := by
  constructor
  · rintro ⟨quote, bare, first⟩
    refine ⟨quote, mt (escaped_pair c cs i).2 bare, fun j hj hquote => ?_⟩
    exact (escaped_pair c cs j).1 (first (j + 2) (by omega) hquote)
  · rintro ⟨quote, bare, first⟩
    refine ⟨quote, mt (escaped_pair c cs i).1 bare, fun j hj hquote => ?_⟩
    match j with
    | 0 => exact absurd (Option.some.inj hquote) (by decide)
    | 1 => simp [Escaped]
    | j + 2 => exact (escaped_pair c cs j).2 (first j (by omega) hquote)

/-- A quote closes at once. -/
theorem closes_quote (cs : List Char) (i : Nat) : Closes ('"' :: cs) i ↔ i = 0 := by
  constructor
  · intro h
    by_contra hi
    exact h.first 0 (by omega) rfl
  · rintro rfl
    exact ⟨rfl, fun h => h, fun j hj => absurd hj (Nat.not_lt_zero j)⟩

/-- A string that is spelled closes at the quote behind it. -/
theorem Spells.closes {raw s : List Char} (h : Spells raw s) (rest : List Char) :
    Closes (raw ++ '"' :: rest) raw.length := by
  induction h with
  | nil => exact (closes_quote rest 0).2 rfl
  | plain quote backslash h ih => exact (closes_cons quote backslash _ _).2 ih
  | newline h ih => exact (closes_pair 'n' _ _).2 ih
  | tab h ih => exact (closes_pair 't' _ _).2 ih
  | @literal c raw s n t h ih => exact (closes_pair c _ _).2 ih

/-- **A string that closes is spelled** by the text before its quote. -/
theorem Closes.spells {cs : List Char} {i : Nat} (h : Closes cs i) : ∃ s, Spells (cs.take i) s := by
  fun_induction decode cs generalizing i with
  | case1 => cases h.quote
  | case2 =>
      cases i with
      | zero => exact absurd (Option.some.inj h.quote) (by decide)
      | succ i => cases h.quote
  | case3 c rest ih =>
      cases i with
      | zero => exact absurd (Option.some.inj h.quote) (by decide)
      | succ i =>
          cases i with
          | zero => exact absurd ⟨rfl, fun he => he⟩ h.bare
          | succ i =>
              obtain ⟨s, hs⟩ := ih ((closes_pair c rest i).1 h)
              exact ⟨_, hs.escape c⟩
  | case4 rest hesc =>
      obtain rfl := (closes_quote rest i).1 h
      exact ⟨[], .nil⟩
  | case5 c rest hlone hesc hquote ih =>
      have hc := ne_backslash hlone hesc
      cases i with
      | zero => exact absurd (Option.some.inj h.quote) hquote
      | succ i =>
          obtain ⟨s, hs⟩ := ih ((closes_cons hquote hc rest i).1 h)
          exact ⟨_, hs.plain hquote hc⟩

theorem Closes.take_append {cs : List Char} {i : Nat} (h : Closes cs i) :
    cs.take i ++ '"' :: cs.drop (i + 1) = cs := by
  obtain ⟨hi, hquote⟩ := List.getElem?_eq_some_iff.1 h.quote
  rw [← hquote, List.getElem_cons_drop, List.take_append_drop]

/-- **Reading goes up to the closing quote.** -/
theorem Closes.decode_eq {cs s : List Char} {i : Nat} (h : Closes cs i)
    (hs : Spells (cs.take i) s) : decode cs = some (s, i + 1) := by
  have hi : i ≤ cs.length := (List.getElem?_eq_some_iff.1 h.quote).1.le
  have hread := hs.decode_eq (cs.drop (i + 1))
  rwa [h.take_append, List.length_take_of_le hi] at hread

/-- What is read was spelled, and the quote behind it closes it. -/
theorem exists_closes {cs s : List Char} {n : Nat} (h : decode cs = some (s, n)) :
    ∃ i, Closes cs i := by
  fun_induction decode cs generalizing s n with
  | case1 => cases h
  | case2 => cases h
  | case3 c rest ih =>
      obtain ⟨⟨t, k⟩, ht, -⟩ := Option.map_eq_some_iff.1 h
      obtain ⟨i, hi⟩ := ih ht
      exact ⟨i + 2, (closes_pair c rest i).2 hi⟩
  | case4 rest hesc => exact ⟨0, (closes_quote rest 0).2 rfl⟩
  | case5 c rest hlone hesc hquote ih =>
      have hc := ne_backslash hlone hesc
      obtain ⟨⟨t, k⟩, ht, -⟩ := Option.map_eq_some_iff.1 h
      obtain ⟨i, hi⟩ := ih ht
      exact ⟨i + 1, (closes_cons hquote hc rest i).2 hi⟩

/-- Nothing is read when no quote closes. -/
theorem decode_eq_none_iff_closes {cs : List Char} : decode cs = none ↔ ¬∃ i, Closes cs i := by
  constructor
  · rintro h ⟨i, hi⟩
    obtain ⟨s, hs⟩ := hi.spells
    rw [hi.decode_eq hs] at h
    cases h
  · intro h
    cases hd : decode cs with
    | none => rfl
    | some answer => exact absurd (exists_closes hd) h

end Text.Quoted

/-! ## Strings at a cursor -/

namespace Token

open Text.Quoted

theorem quoted_eq_absent_iff {cs : List Char} : quoted cs = .absent ↔ cs.head? ≠ some '"' :=
  ⟨fun h hquote => quoted_ne_absent hquote h, quoted_eq_absent⟩

theorem quoted_eq_broken_iff {cs : List Char} :
    (∃ f, quoted ('"' :: cs) = .broken f) ↔ decode cs = none := by
  rw [quoted]
  cases decode cs with
  | none => exact ⟨fun _ => rfl, fun _ => ⟨_, rfl⟩⟩
  | some answer =>
      constructor
      · rintro ⟨f, hf⟩
        cases hf
      · intro h
        cases h

theorem quoted_of_decode {cs s : List Char} {n : Nat} (h : decode cs = some (s, n)) :
    quoted ('"' :: cs) = .found (String.ofList s) (n + 1) := by
  rw [quoted, h]

/-- **A quoted string is read exactly.** Without a quote at the cursor
there is none. With one, it cannot be read if and only if no quote closes
it, and the error is about the place where it opens; and else the string
is what is spelled before the closing quote, and behind that quote reading
goes on. So what is written for a string is read back, whatever comes
behind it. -/
theorem quoted_exact (c : Cursor) :
    (quoted c.rest = .absent ↔ c.next? ≠ some '"') ∧
      (∀ cs, c.rest = '"' :: cs →
        ((∃ f, quoted c.rest = .broken f) ↔ ¬∃ i, Closes cs i) ∧
        (∀ f, quoted c.rest = .broken f → Fault.ofFlaw c f = .unclosedString c ∧
          ∃ d, (Fault.ofFlaw c f).diagnostic? = some d ∧ d.kind = .reading) ∧
        ∀ i, Closes cs i → ∃ s, (∀ s', Spells (cs.take i) s' ↔ s' = s) ∧
          quoted c.rest = .found (String.ofList s) (i + 2) ∧
          (c.advance (i + 2)).rest = cs.drop (i + 1)) ∧
      ∀ (s : String) (rest : List Char), c.rest = '"' :: (encode s.toList ++ '"' :: rest) →
        ∃ n, quoted c.rest = .found s n ∧ (c.advance n).rest = rest := by
  refine ⟨quoted_eq_absent_iff, fun cs hc => ⟨?_, fun f hf => ?_, fun i hi => ?_⟩, ?_⟩
  · rw [hc, quoted_eq_broken_iff, decode_eq_none_iff_closes]
  · obtain rfl := quoted_broken hf
    have hfault : Fault.ofFlaw c (.unclosedString 0) = .unclosedString c :=
      congrArg Fault.unclosedString c.advance_zero
    exact ⟨hfault, _, rfl, rfl⟩
  · obtain ⟨s, hs⟩ := hi.spells
    refine ⟨s, fun s' => ⟨fun hs' => hs'.unique hs, fun he => he ▸ hs⟩, ?_, ?_⟩
    · rw [hc, quoted_of_decode (hi.decode_eq hs)]
    · rw [Cursor.rest_advance, hc, List.drop_succ_cons]
  · intro s rest hc
    have hread := (spells_encode s.toList).decode_eq rest
    refine ⟨_, by rw [hc, quoted_of_decode hread, String.ofList_toList], ?_⟩
    rw [Cursor.rest_advance, hc, List.drop_succ_cons, List.drop_length_add_append]
    rfl

/-- Before a string in which a quote and a backslash are escaped. -/
def escapes : Cursor := (Cursor.start "books" "a \"x\\\"\\n\\\\\" b".toList).advance 2

/-- Neither the escaped quote nor the one behind the escaped backslash is
mistaken for the other, and what is written for a string is read. -/
theorem quoted_exact_escapes :
    quoted escapes.rest = .found "x\"\n\\" 9 ∧ (escapes.advance 9).rest = " b".toList ∧
      ∃ n, quoted (Cursor.start "books" "\"\\\\\\\"\"\"".toList).rest = .found "\\\"" n ∧
        ((Cursor.start "books" "\"\\\\\\\"\"\"".toList).advance n).rest = ['"'] := by
  have hspells : Spells "x\\\"\\n\\\\".toList "x\"\n\\".toList :=
    .plain (by decide) (by decide) (.literal (by decide) (by decide) (.newline
      (.literal (by decide) (by decide) .nil)))
  obtain ⟨s, hs, hfound, hrest⟩ := ((quoted_exact escapes).2.1 _ rfl).2.2 7
    (hspells.closes " b".toList)
  obtain rfl := (hs _).1 hspells
  exact ⟨hfound, hrest, (quoted_exact _).2.2 "\\\"" ['"'] rfl⟩

end Token
end Daybook
