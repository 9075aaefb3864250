import Daybook.Proofs.Transaction

/-!
# Settled — what stands before a line end decides

What a reader finds before the end of a line does not depend on what is
written below that line (`Settled`). So the header of a transaction stays
what it is when the lines of the body change. A line of the body that
opens no string for the lines below (`ClosesOnLine`) is read by itself.
-/

namespace Daybook

open Daybook.Text

/-! ## Values without their lengths -/

namespace Reading

variable {α β : Type}

/-- The value that was found. -/
def value? : Reading α → Option α
  | found v _ => some v
  | _ => none

@[simp] theorem value?_absent : (absent : Reading α).value? = none := rfl

@[simp] theorem value?_found (v : α) (n : Nat) : (found v n).value? = some v := rfl

@[simp] theorem value?_broken (f : Flaw) : (broken f : Reading α).value? = none := rfl

@[simp] theorem value?_shift (n : Nat) (r : Reading α) : (r.shift n).value? = r.value? := by
  cases r <;> rfl

@[simp] theorem value?_map (f : α → β) (r : Reading α) : (r.map f).value? = r.value?.map f := by
  cases r <;> rfl

end Reading

/-! ## Line ends -/

namespace Text

theorem lineAhead_newline_append (cs below : List Char) :
    lineAhead (cs ++ '\n' :: below) = lineAhead cs := by
  induction cs with
  | nil => rfl
  | cons c cs ih =>
      by_cases hc : c = '\n'
      · subst hc
        rfl
      · rw [List.cons_append, lineAhead_cons hc, lineAhead_cons hc, ih]

/-- What looks at one line only does not see the end of it. -/
theorem OnLine.newline {β : Type} {f : List Char → β} (h : OnLine f) (cs below : List Char) :
    f (cs ++ '\n' :: below) = f cs := by
  rw [← h (cs ++ '\n' :: below), lineAhead_newline_append, h]

theorem head?_newline_append (cs below : List Char) :
    (cs ++ '\n' :: below).head? = some (cs.head?.getD '\n') := by
  cases cs <;> rfl

namespace Quoted

/-- The characters up to the closing quote decide. -/
theorem decode_take {cs s : List Char} {n : Nat} (h : decode cs = some (s, n)) :
    decode (cs.take n) = some (s, n) := by
  fun_induction decode cs generalizing s n with
  | case1 => simp at h
  | case2 => simp at h
  | case3 c rest ih =>
      obtain ⟨⟨t, k⟩, ht, heq⟩ := Option.map_eq_some_iff.1 h
      cases heq
      rw [List.take_succ_cons, List.take_succ_cons, decode, ih ht]
      rfl
  | case4 rest hesc =>
      cases h
      simp [decode]
  | case5 c rest hlone hesc hquote ih =>
      obtain ⟨⟨t, k⟩, ht, heq⟩ := Option.map_eq_some_iff.1 h
      cases heq
      have hc := ne_backslash hlone hesc
      rw [List.take_succ_cons, decode, if_neg hquote, ih ht]
      · rfl
      · exact fun he => absurd he hc
      · exact fun _ _ he => absurd he hc

end Quoted
end Text

/-! ## Settled readers -/

namespace Reading

variable {α β : Type}

/-- What the reader finds before a line end, it finds whatever stands
below. -/
def Settled (r : Reader α) : Prop :=
  ∀ (cs below below' : List Char) (v : α) (n : Nat), n ≤ cs.length →
    r (cs ++ '\n' :: below) = .found v n → r (cs ++ '\n' :: below') = .found v n

theorem settled_of_onLine {r : Reader α} (h : OnLine r) : Settled r := by
  intro cs below below' v n _ hf
  rw [h.newline] at hf ⊢
  exact hf

theorem Settled.map {r : Reader α} (h : Settled r) (f : α → β) :
    Settled fun cs => (r cs).map f := by
  intro cs below below' v n hn hf
  show (r (cs ++ '\n' :: below')).map f = _
  cases hr : r (cs ++ '\n' :: below) with
  | absent => simp [hr] at hf
  | broken e => simp [hr] at hf
  | found w k =>
      simp only [hr, map_found] at hf
      cases hf
      rw [h cs below below' w n hn hr]
      rfl

theorem Settled.andThen {first : Reader α} {next : α → Reader β} (hf : Settled first)
    (hn : ∀ v, Settled (next v)) : Settled fun cs => (first cs).andThen cs next := by
  intro cs below below' w m hm hfound
  show (first (cs ++ '\n' :: below')).andThen (cs ++ '\n' :: below') next = _
  cases hr : first (cs ++ '\n' :: below) with
  | absent => simp [hr, Reading.andThen] at hfound
  | broken e => simp [hr, Reading.andThen] at hfound
  | found v k =>
      simp only [hr, Reading.andThen] at hfound
      cases hx : next v ((cs ++ '\n' :: below).drop k) with
      | absent => simp [hx, Reading.shift] at hfound
      | broken e => simp [hx, Reading.shift] at hfound
      | found x j =>
          rw [hx] at hfound
          cases hfound
          have hk : k ≤ cs.length := by omega
          rw [List.drop_append_of_le_length hk] at hx
          have hnext := hn v (cs.drop k) below below' w j (by simp; omega) hx
          rw [hf cs below below' v k hk hr, Reading.andThen, List.drop_append_of_le_length hk,
            hnext, shift_found]

end Reading

namespace Token

theorem quoted_append {cs : List Char} {s : String} {n : Nat} (h : quoted cs = .found s n)
    (ds : List Char) : quoted (cs ++ ds) = .found s n := by
  cases cs with
  | nil => cases h
  | cons c cs =>
      by_cases hc : c = '"'
      · subst hc
        rw [quoted] at h
        rw [List.cons_append, quoted]
        cases hd : Quoted.decode cs with
        | none => simp [hd] at h
        | some answer =>
            rw [Quoted.decode_append hd]
            rw [hd] at h
            exact h
      · simp [quoted, hc] at h

theorem quoted_broken {cs : List Char} {f : Flaw} (h : quoted cs = .broken f) :
    f = .unclosedString 0 := by
  cases cs with
  | nil => cases h
  | cons c cs =>
      by_cases hc : c = '"'
      · subst hc
        rw [quoted] at h
        split at h <;> cases h
        rfl
      · simp [quoted, hc] at h

/-- **A string that is closed before a line end** is the same whatever
stands below. -/
theorem settled_quoted : Reading.Settled quoted := by
  intro cs below below' s n hn hf
  have htake : quoted (cs.take n) = .found s n := by
    cases cs with
    | nil => simp [quoted] at hf
    | cons c cs =>
        by_cases hc : c = '"'
        · subst hc
          rw [List.cons_append, quoted] at hf
          cases hd : Quoted.decode (cs ++ '\n' :: below) with
          | none => simp [hd] at hf
          | some answer =>
              obtain ⟨t, k⟩ := answer
              simp only [hd] at hf
              cases hf
              have hdecode := Quoted.decode_take hd
              rw [List.take_append_of_le_length (Nat.le_of_succ_le_succ hn)] at hdecode
              rw [List.take_succ_cons, quoted, hdecode]
        · simp [quoted, hc] at hf
  have happ := quoted_append htake (cs.drop n ++ '\n' :: below')
  rwa [← List.append_assoc, List.take_append_drop] at happ

end Token

namespace Transaction

open Daybook.Reading

/-! ## Headers -/

theorem settled_behindBlanks {α : Type} {r : Reader α} (h : Settled r) :
    Settled (behindBlanks r) := by
  intro cs below below' v n hn hf
  have hb : ∀ ds, inlineBlanks (cs ++ '\n' :: ds) = inlineBlanks cs :=
    fun ds => onLine_inlineBlanks.newline cs ds
  have hle := inlineBlanks_le cs
  rw [behindBlanks, hb, List.drop_append_of_le_length hle] at hf
  rw [behindBlanks, hb, List.drop_append_of_le_length hle]
  cases hr : r (cs.drop (inlineBlanks cs) ++ '\n' :: below) with
  | absent => simp [hr, Reading.shift] at hf
  | broken e => simp [hr, Reading.shift] at hf
  | found w k =>
      rw [hr] at hf
      cases hf
      rw [h _ below below' v k (by simp; omega) hr, shift_found]

/-- Whether a quoted string comes next behind white space, the line
decides. -/
theorem behindBlanks_quoted_absent {cs below below' : List Char}
    (h : behindBlanks Token.quoted (cs ++ '\n' :: below) = .absent) :
    behindBlanks Token.quoted (cs ++ '\n' :: below') = .absent := by
  have hb : ∀ ds, inlineBlanks (cs ++ '\n' :: ds) = inlineBlanks cs :=
    fun ds => onLine_inlineBlanks.newline cs ds
  have hle := inlineBlanks_le cs
  rw [behindBlanks, hb, List.drop_append_of_le_length hle] at h
  rw [behindBlanks, hb, List.drop_append_of_le_length hle]
  have hhead : (cs.drop (inlineBlanks cs) ++ '\n' :: below').head? ≠ some '"' := by
    intro hq
    rw [head?_newline_append] at hq
    have hsame : (cs.drop (inlineBlanks cs) ++ '\n' :: below).head? = some '"' := by
      rw [head?_newline_append, hq]
    cases hr : Token.quoted (cs.drop (inlineBlanks cs) ++ '\n' :: below) with
    | absent => exact Token.quoted_ne_absent hsame hr
    | found s k => simp [hr, Reading.shift] at h
    | broken f => simp [hr, Reading.shift] at h
  rw [Token.quoted_eq_absent hhead]
  rfl

theorem settled_secondTitle (first : String) : Settled (secondTitle first) := by
  intro cs below below' v n hn hf
  rw [secondTitle_eq] at hf ⊢
  cases hr : behindBlanks Token.quoted (cs ++ '\n' :: below) with
  | absent =>
      rw [hr] at hf
      rw [behindBlanks_quoted_absent hr]
      exact hf
  | broken e => simp [hr] at hf
  | found s k =>
      simp only [hr, map_found, found.injEq] at hf
      obtain ⟨rfl, rfl⟩ := hf
      rw [settled_behindBlanks Token.settled_quoted cs below below' s k hn hr]
      rfl

theorem settled_titles : Settled titles := Token.settled_quoted.andThen settled_secondTitle

/-- **A header stays what it is** whatever stands below its line. -/
theorem settled_header : Settled header := by
  refine (settled_of_onLine (Lexeme.onLine_read Token.onLine_date)).andThen fun date => ?_
  refine (settled_behindBlanks
    (settled_of_onLine (Lexeme.onLine_read Token.onLine_flag))).andThen fun flag => ?_
  refine (settled_behindBlanks settled_titles).andThen fun t => ?_
  exact (settled_of_onLine onLine_trailingMarks).map _

end Transaction

namespace Metadata

open Daybook.Reading

/-! ## Pairs -/

/-- If a pair comes next, its string is closed on the line. -/
def ClosesOnLine (l : List Char) : Prop := ∀ k, pair l ≠ .broken (.unclosedString k)

theorem value_newline {l : List Char} (h : ∀ k, value l ≠ .broken (.unclosedString k))
    (below : List Char) : value (l ++ '\n' :: below) = value l := by
  have hhead : (l ++ '\n' :: below).head? = some '"' ↔ l.head? = some '"' := by
    cases l <;> simp
  rw [value_eq] at h
  rw [value_eq, value_eq]
  by_cases hq : l.head? = some '"'
  · rw [if_pos hq] at h
    rw [if_pos hq, if_pos (hhead.2 hq)]
    cases hr : Token.quoted l with
    | absent => exact absurd hr (Token.quoted_ne_absent hq)
    | broken f =>
        refine absurd ?_ (h 0)
        rw [hr, Token.quoted_broken hr]
        rfl
    | found s n =>
        have hn : n ≤ l.length := (Token.quoted_le l).of_eq hr
        rw [Token.quoted_append hr, andThen, andThen, List.drop_append_of_le_length hn,
          (onLine_quotedValue s).newline]
  · rw [if_neg hq, if_neg (mt hhead.1 hq), onLine_unquoted.newline]

/-- **A pair that closes on its line** is read as by itself. -/
theorem pair_newline_append {l : List Char} (h : ClosesOnLine l) (below : List Char) :
    pair (l ++ '\n' :: below) = pair l := by
  rw [pair_eq, pair_eq, onLine_key?.newline]
  cases hk : key? l with
  | none => rfl
  | some answer =>
      obtain ⟨key, n⟩ := answer
      have hn : n ≤ l.length := key?_le_length hk
      have hvalue : ∀ k, value (l.drop n) ≠ .broken (.unclosedString k) := by
        intro k hv
        refine h (n + k) ?_
        rw [pair_eq, hk]
        simp only [hv]
        rfl
      simp only [List.drop_append_of_le_length hn, value_newline hvalue]

/-- A pair that is alone on its line takes it whole. -/
theorem pair_length {l : List Char} (hl : '\n' ∉ l) {p : String × Scalar} {n : Nat}
    (h : pair l = .found p n) : n = l.length := by
  have hend : AtLineEnd l n := (pair_atLineEnd l).of_eq h
  have hnil : l.drop n = [] := by
    rw [← lineAhead_eq_self fun hm => hl (List.mem_of_mem_drop hm), hend.atEnd]
  have := List.drop_eq_nil_iff.1 hnil
  exact Nat.le_antisymm hend.le this

end Metadata
end Daybook
