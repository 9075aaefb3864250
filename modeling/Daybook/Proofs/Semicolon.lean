import Daybook.Proofs.Quotation

/-!
# Semicolon — where the comment of a line starts

Strings are delimited one after another, each as it is read (`Outside`),
and the comment of a line starts at its first semicolon outside of them
(`CommentAt`). The search for it does not read strings: it counts quotes,
those that a backslash escapes too. So it takes the outside for the inside
behind an odd number of escaped quotes, and it finds the comment if and
only if that does not matter to any semicolon up to the comment.
-/

namespace Daybook

open Daybook.Text

/-! ## The first place -/

/-- The place has the property, and none before it has. -/
def FirstWith (P : Nat → Prop) (p : Nat) : Prop := P p ∧ ∀ q < p, ¬P q

section First

variable {P Q : Nat → Prop} {p q : Nat}

/-- Where some place has the property, there is a first. -/
theorem exists_firstWith (h : P p) : ∃ q ≤ p, FirstWith P q := by
  induction p using Nat.strong_induction_on with
  | _ p ih =>
      by_cases hbefore : ∃ q < p, P q
      · obtain ⟨q, hq, hP⟩ := hbefore
        obtain ⟨r, hr, hfirst⟩ := ih q hq hP
        exact ⟨r, by omega, hfirst⟩
      · exact ⟨p, Nat.le_refl p, h, fun q hq hP => hbefore ⟨q, hq, hP⟩⟩

/-- Before a place there is none with the property if there is no first. -/
theorem not_of_not_firstWith (h : ∀ q < p, ¬FirstWith P q) : ∀ q < p, ¬P q := by
  intro q hq hP
  obtain ⟨r, hr, hfirst⟩ := exists_firstWith hP
  exact h r (by omega) hfirst

/-- **Two searches agree** if and only if the properties do at every place
up to the first with one of them. -/
theorem firstWith_congr_iff :
    (∀ p, FirstWith P p ↔ FirstWith Q p) ↔ ∀ p, (∀ q < p, ¬FirstWith Q q) → (P p ↔ Q p) := by
  constructor
  · intro h p hp
    have hQ := not_of_not_firstWith hp
    have hP : ∀ q < p, ¬P q := not_of_not_firstWith fun q hq hf => hp q hq ((h q).1 hf)
    exact ⟨fun hPp => ((h p).1 ⟨hPp, hP⟩).1, fun hQp => ((h p).2 ⟨hQp, hQ⟩).1⟩
  · intro h p
    constructor
    · rintro ⟨hP, hbefore⟩
      have hnone : ∀ q < p, ¬FirstWith Q q := by
        intro q hq hf
        exact hbefore q hq ((h q fun r hr hfr => hf.2 r hr hfr.1).2 hf.1)
      exact ⟨(h p hnone).1 hP, not_of_not_firstWith hnone⟩
    · rintro ⟨hQ, hbefore⟩
      have hnone : ∀ q < p, ¬FirstWith Q q := fun q hq hf => hbefore q hq hf.1
      refine ⟨(h p hnone).2 hQ, fun q hq hP => hbefore q hq ?_⟩
      exact (h q fun r hr => hnone r (Nat.lt_trans hr hq)).1 hP

end First

namespace Token

/-! ## Strings on a line -/

/-- The place is outside every string. Strings are delimited from the
front on: each takes what is read of it, and an open one hides all that
comes behind. -/
inductive Outside : List Char → Nat → Prop
  | front (cs : List Char) : Outside cs 0
  | plain {c : Char} {cs : List Char} {p : Nat} (quote : c ≠ '"') (behind : Outside cs p) :
      Outside (c :: cs) (p + 1)
  | string {cs : List Char} {s : String} {n p : Nat} (closed : quoted cs = .found s n)
      (behind : Outside (cs.drop n) p) : Outside cs (n + p)

/-- The comment of the line starts at the place. -/
def CommentAt (cs : List Char) : Nat → Prop :=
  FirstWith fun p => (lineAhead cs)[p]? = some ';' ∧ Outside cs p

/-! ## One character after another -/

/-- Where a scan stands that knows what a backslash does. -/
inductive Spot where
  | outside
  | inside
  /-- inside, right behind a backslash that no other escapes -/
  | escaping
deriving DecidableEq

/-- The spot behind one more character. -/
def Spot.next : Spot → Char → Spot
  | .outside, c => if c = '"' then .inside else .outside
  | .inside, c => if c = '"' then .outside else if c = '\\' then .escaping else .inside
  | .escaping, _ => .inside

/-- One for a quote that a backslash escapes, none for any other
character. -/
def Spot.escapes (s : Spot) (c : Char) : Nat := if s = .escaping ∧ c = '"' then 1 else 0

/-- The number of quotes, from the spot on, that a backslash escapes. -/
def Spot.escaped (s : Spot) : List Char → Nat
  | [] => 0
  | c :: cs => s.escapes c + (s.next c).escaped cs

/-- The number of quotes that stand in a string, escaped by a
backslash. -/
def escapedQuotes (cs : List Char) : Nat := Spot.outside.escaped cs

/-- What is read of a string leads out of it. -/
theorem spot_of_decode {cs s : List Char} {n : Nat} (h : Quoted.decode cs = some (s, n)) :
    (cs.take n).foldl Spot.next .inside = .outside := by
  fun_induction Quoted.decode cs generalizing s n with
  | case1 => cases h
  | case2 => cases h
  | case3 c rest ih =>
      obtain ⟨⟨t, k⟩, ht, heq⟩ := Option.map_eq_some_iff.1 h
      cases heq
      exact ih ht
  | case4 rest hesc =>
      cases h
      rfl
  | case5 c rest hlone hesc hquote ih =>
      obtain ⟨⟨t, k⟩, ht, heq⟩ := Option.map_eq_some_iff.1 h
      cases heq
      have hc := Quoted.ne_backslash hlone hesc
      rw [List.take_succ_cons, List.foldl_cons, Spot.next, if_neg hquote, if_neg hc]
      exact ih ht

/-- Where the scan is outside again, a string has been read. -/
theorem decode_of_spot {cs : List Char} {p : Nat} (hp : p ≤ cs.length)
    (h : (cs.take p).foldl Spot.next .inside = .outside) :
    ∃ s n, Quoted.decode cs = some (s, n) ∧ n ≤ p ∧
      ((cs.drop n).take (p - n)).foldl Spot.next .outside = .outside := by
  fun_induction Quoted.decode cs generalizing p with
  | case1 =>
      obtain rfl := Nat.le_zero.1 hp
      cases h
  | case2 =>
      rcases p with _ | _ | p
      · cases h
      · cases h
      · exact absurd hp (by simp)
  | case3 c rest ih =>
      rcases p with _ | _ | p
      · cases h
      · cases h
      · obtain ⟨s, n, hs, hn, hrest⟩ := ih (by simpa using hp) h
        refine ⟨_, n + 2, by rw [hs]; rfl, by omega, ?_⟩
        rwa [List.drop_succ_cons, List.drop_succ_cons, Nat.add_sub_add_right,
          Nat.add_sub_add_right]
  | case4 rest hesc =>
      cases p with
      | zero => cases h
      | succ p => exact ⟨_, 1, rfl, by omega, h⟩
  | case5 c rest hlone hesc hquote ih =>
      have hc := Quoted.ne_backslash hlone hesc
      cases p with
      | zero => cases h
      | succ p =>
          rw [List.take_succ_cons, List.foldl_cons, Spot.next, if_neg hquote, if_neg hc] at h
          obtain ⟨s, n, hs, hn, hrest⟩ := ih (by simpa using hp) h
          refine ⟨_, n + 1, by rw [hs]; rfl, by omega, ?_⟩
          rwa [List.drop_succ_cons, Nat.add_sub_add_right]

theorem Outside.foldl_eq {cs : List Char} {p : Nat} (h : Outside cs p) (hp : p ≤ cs.length) :
    (cs.take p).foldl Spot.next .outside = .outside := by
  induction h with
  | front cs => rfl
  | plain quote _ ih =>
      rw [List.take_succ_cons, List.foldl_cons, Spot.next, if_neg quote]
      exact ih (by simpa using hp)
  | @string cs s n p closed _ ih =>
      obtain ⟨rest, rfl⟩ : ∃ rest, cs = '"' :: rest := by
        have hquote : cs.head? = some '"' := by
          by_contra hne
          rw [quoted_eq_absent hne] at closed
          cases closed
        exact List.head?_eq_some_iff.1 hquote
      rw [quoted] at closed
      split at closed
      · next t k hd =>
        cases closed
        have hstring : (('"' :: rest).take (k + 1)).foldl Spot.next .outside = .outside :=
          spot_of_decode hd
        rw [List.take_add, List.foldl_append, hstring]
        exact ih (by rw [List.length_drop]; omega)
      · cases closed

theorem outside_of_foldl {cs : List Char} {p : Nat} (hp : p ≤ cs.length)
    (h : (cs.take p).foldl Spot.next .outside = .outside) : Outside cs p := by
  induction p using Nat.strong_induction_on generalizing cs with
  | _ p ih =>
      cases p with
      | zero => exact .front cs
      | succ p =>
          cases cs with
          | nil => exact absurd hp (by simp)
          | cons c cs =>
              rw [List.take_succ_cons, List.foldl_cons, Spot.next] at h
              have hp' : p ≤ cs.length := by simpa using hp
              by_cases hc : c = '"'
              · subst hc
                rw [if_pos rfl] at h
                obtain ⟨s, n, hs, hn, hrest⟩ := decode_of_spot hp' h
                have hbehind := ih (p - n) (by omega) (by rw [List.length_drop]; omega) hrest
                have hplace : p + 1 = (n + 1) + (p - n) := by omega
                rw [hplace]
                exact .string (quoted_of_decode hs) hbehind
              · rw [if_neg hc] at h
                exact .plain hc (ih p (Nat.lt_succ_self p) hp' h)

/-- **The scan knows the strings that are read.** -/
theorem outside_iff {cs : List Char} {p : Nat} (hp : p ≤ cs.length) :
    Outside cs p ↔ (cs.take p).foldl Spot.next .outside = .outside :=
  ⟨fun h => h.foldl_eq hp, outside_of_foldl hp⟩

theorem Outside.le {cs : List Char} {p : Nat} (h : Outside cs p) : p ≤ cs.length := by
  induction h with
  | front cs => exact Nat.zero_le _
  | plain _ _ ih => exact Nat.succ_le_succ ih
  | @string cs s n p closed _ ih =>
      have hn : n ≤ cs.length := (quoted_le cs).of_eq closed
      rw [List.length_drop] at ih
      omega

instance (cs : List Char) (p : Nat) : Decidable (Outside cs p) :=
  if h : p ≤ cs.length then decidable_of_iff _ (outside_iff h).symm
  else isFalse fun ho => h ho.le

instance (cs : List Char) (p : Nat) : Decidable (CommentAt cs p) :=
  inferInstanceAs (Decidable (((lineAhead cs)[p]? = some ';' ∧ Outside cs p) ∧
    ∀ q < p, ¬((lineAhead cs)[q]? = some ';' ∧ Outside cs q)))

/-! ## Counting quotes -/

/-- None on the outside of strings, one on the inside. -/
def Spot.side (s : Spot) : Nat := if s = .outside then 0 else 1

/-- A quote leads from side to side, unless it is escaped; no other
character does. -/
theorem Spot.side_next (s : Spot) (c : Char) :
    ((if c = '"' then 1 else 0) + s.escapes c + s.side + (s.next c).side) % 2 = 0 := by
  by_cases hquote : c = '"'
  · subst hquote
    cases s <;> decide
  · cases s with
    | outside => simp [next, escapes, side, hquote]
    | inside =>
        by_cases hescape : c = '\\'
        · simp [next, escapes, side, hescape]
        · simp [next, escapes, side, hquote, hescape]
    | escaping => simp [next, escapes, side, hquote]

/-- **Quotes that are not escaped tell the sides apart**: there is an even
number of them if and only if the scan ends on the side on which it
started. -/
theorem Spot.side_foldl (s : Spot) (cs : List Char) :
    (cs.count '"' + s.escaped cs + s.side + (cs.foldl next s).side) % 2 = 0 := by
  induction cs generalizing s with
  | nil =>
      show (0 + 0 + s.side + s.side) % 2 = 0
      omega
  | cons c cs ih =>
      have hfirst := s.side_next c
      have hrest := ih (s.next c)
      have hcount : (c :: cs).count '"' = cs.count '"' + if c = '"' then 1 else 0 := by
        rw [List.count_cons]
        simp
      rw [hcount, escaped, List.foldl_cons]
      omega

/-- An even number of quotes before a place is what the outside has behind
an even number of escaped quotes, and the inside behind an odd one. -/
theorem count_quotes_even_iff {cs : List Char} {p : Nat} (hp : p ≤ cs.length) :
    (cs.take p).count '"' % 2 = 0 ↔ (Outside cs p ↔ escapedQuotes (cs.take p) % 2 = 0) := by
  have hside := Spot.side_foldl .outside (cs.take p)
  rw [outside_iff hp, escapedQuotes]
  by_cases hout : (cs.take p).foldl Spot.next .outside = .outside
  · simp only [Spot.side, hout, if_true] at hside
    simp only [hout, true_iff]
    omega
  · simp only [Spot.side, hout, if_true, if_false] at hside
    simp only [hout, false_iff]
    omega

/-! ## The search -/

theorem firstWith_zero {P : Nat → Prop} : FirstWith P 0 ↔ P 0 :=
  ⟨fun h => h.1, fun h => ⟨h, fun q hq => absurd hq (Nat.not_lt_zero q)⟩⟩

theorem firstWith_succ {P : Nat → Prop} {p : Nat} :
    FirstWith P (p + 1) ↔ ¬P 0 ∧ FirstWith (fun q => P (q + 1)) p := by
  constructor
  · rintro ⟨hP, hbefore⟩
    exact ⟨hbefore 0 (by omega), hP, fun q hq => hbefore (q + 1) (by omega)⟩
  · rintro ⟨hzero, hP, hbefore⟩
    refine ⟨hP, fun q hq => ?_⟩
    cases q with
    | zero => exact hzero
    | succ q => exact hbefore q (by omega)

/-- A place of the line with a semicolon, behind an even number of quotes;
`inside` stands for one more. -/
def BareAt (inside : Bool) (cs : List Char) (p : Nat) : Prop :=
  (lineAhead cs)[p]? = some ';' ∧ ((cs.take p).count '"' + inside.toNat) % 2 = 0

/-- Behind one more character the places are the same, with a quote
counted. -/
theorem bareAt_succ {c : Char} (hline : c ≠ '\n') (inside : Bool) (cs : List Char) (p : Nat) :
    BareAt inside (c :: cs) (p + 1) ↔ BareAt (if c = '"' then !inside else inside) cs p := by
  rw [BareAt, BareAt, lineAhead_cons hline, List.getElem?_cons_succ, List.take_succ_cons]
  by_cases hquote : c = '"'
  · subst hquote
    rw [if_pos rfl, List.count_cons_self]
    refine and_congr_right fun _ => ?_
    cases inside with
    | false => rfl
    | true =>
        simp only [Bool.toNat_true, Bool.not_true, Bool.toNat_false]
        omega
  · rw [if_neg hquote, List.count_cons_of_ne hquote]

theorem bareAt_zero {c : Char} (hline : c ≠ '\n') (inside : Bool) (cs : List Char) :
    BareAt inside (c :: cs) 0 ↔ c = ';' ∧ inside = false := by
  rw [BareAt, lineAhead_cons hline]
  cases inside <;> simp

/-- The search, one character at a time. -/
theorem commentFrom_cons {c : Char} (hline : c ≠ '\n') (inside : Bool) (cs : List Char) :
    commentFrom inside (c :: cs) =
      if c = ';' ∧ inside = false then some 0
      else (commentFrom (if c = '"' then !inside else inside) cs).map (· + 1) := by
  rw [commentFrom, if_neg hline]
  by_cases hquote : c = '"'
  · subst hquote
    simp
  · rw [if_neg hquote, if_neg hquote]

/-- **The search takes the first semicolon behind an even number of
quotes.** -/
theorem commentFrom_eq_some_iff (inside : Bool) (cs : List Char) (p : Nat) :
    commentFrom inside cs = some p ↔ FirstWith (BareAt inside cs) p := by
  induction cs generalizing inside p with
  | nil => simp [commentFrom, FirstWith, BareAt]
  | cons c cs ih =>
      by_cases hline : c = '\n'
      · subst hline
        simp [commentFrom, FirstWith, BareAt]
      · rw [commentFrom_cons hline]
        cases p with
        | zero =>
            rw [firstWith_zero, bareAt_zero hline]
            split
            · next hsemi => simp [hsemi]
            · next hsemi => simp [hsemi]
        | succ p =>
            have hshift : (fun q => BareAt inside (c :: cs) (q + 1)) =
                BareAt (if c = '"' then !inside else inside) cs :=
              funext fun q => propext (bareAt_succ hline inside cs q)
            rw [firstWith_succ, bareAt_zero hline, hshift, ← ih]
            split
            · next hsemi => simp [hsemi]
            · next hsemi => simp [hsemi]

/-- Without backslashes nothing is escaped. -/
theorem escapedQuotes_eq_zero {cs : List Char} (h : '\\' ∉ cs) : escapedQuotes cs = 0 := by
  have hall : ∀ s : Spot, s ≠ .escaping → s.escaped cs = 0 := by
    intro s hs
    induction cs generalizing s with
    | nil => rfl
    | cons c cs ih =>
        rw [List.mem_cons, not_or] at h
        have hnext : s.next c ≠ .escaping := by
          cases s with
          | outside =>
              rw [Spot.next]
              split <;> decide
          | inside =>
              rw [Spot.next, if_neg (Ne.symm h.1)]
              split <;> decide
          | escaping => exact absurd rfl hs
        rw [Spot.escaped, ih h.2 _ hnext, Spot.escapes, if_neg fun he => hs he.1]
  exact hall .outside (by decide)

/-- A semicolon that the search takes for the start of a comment: outside of
strings with an even number of escaped quotes before it, or inside with an
odd number. -/
theorem bareAt_eq (cs : List Char) :
    BareAt false cs = fun q => (lineAhead cs)[q]? = some ';' ∧
      (Outside cs q ↔ escapedQuotes (cs.take q) % 2 = 0) := by
  funext q
  refine propext (and_congr_right fun hq => ?_)
  have hlt : q < (lineAhead cs).length := (List.getElem?_eq_some_iff.1 hq).1
  exact count_quotes_even_iff (Nat.le_trans hlt.le (lineAhead_length_le cs))

/-- The search finds the comment if and only if the count is even at each
semicolon up to it. -/
theorem firstWith_comment_iff (cs : List Char) :
    (∀ p, FirstWith (fun q => (lineAhead cs)[q]? = some ';' ∧
        (Outside cs q ↔ escapedQuotes (cs.take q) % 2 = 0)) p ↔ CommentAt cs p) ↔
      ∀ p, (lineAhead cs)[p]? = some ';' → (∀ q < p, ¬CommentAt cs q) →
        escapedQuotes (cs.take p) % 2 = 0 := by
  simp only [CommentAt]
  rw [firstWith_congr_iff]
  constructor
  · intro h p hp hnone
    have hsame := h p hnone
    simp only [hp, true_and] at hsame
    by_cases hout : Outside cs p
    · exact (hsame.2 hout).1 hout
    · by_contra hodd
      exact hout (hsame.1 (iff_of_false hout hodd))
  · intro h p hnone
    refine and_congr_right fun hp => ?_
    have heven := h p hp hnone
    exact ⟨fun hout => hout.2 heven, fun hout => iff_of_true hout heven⟩

/-- **Where the search ends.** It takes the first semicolon of the line that
is outside of strings and has an even number of escaped quotes before it, or
is inside and has an odd number. So it finds the comment, and nothing else,
if and only if an even number of quotes is escaped before each semicolon up
to the one that starts the comment; as on any line without a backslash. -/
theorem commentStart_finds_iff (c : Cursor) :
    (∀ p, commentStart c.rest = some p ↔
      FirstWith (fun q => (lineAhead c.rest)[q]? = some ';' ∧
        (Outside c.rest q ↔ escapedQuotes (c.rest.take q) % 2 = 0)) p) ∧
    ((∀ p, commentStart c.rest = some p ↔ CommentAt c.rest p) ↔
      ∀ p, (lineAhead c.rest)[p]? = some ';' → (∀ q < p, ¬CommentAt c.rest q) →
        escapedQuotes (c.rest.take p) % 2 = 0) ∧
    ('\\' ∉ lineAhead c.rest → ∀ p, commentStart c.rest = some p ↔ CommentAt c.rest p) := by
  generalize c.rest = cs
  have hfinds : ∀ p, commentStart cs = some p ↔ FirstWith (fun q =>
      (lineAhead cs)[q]? = some ';' ∧
        (Outside cs q ↔ escapedQuotes (cs.take q) % 2 = 0)) p := by
    intro p
    rw [← bareAt_eq]
    exact commentFrom_eq_some_iff false cs p
  have hagree := firstWith_comment_iff cs
  simp only [← hfinds] at hagree
  refine ⟨hfinds, hagree, fun hplain => hagree.2 fun p hp _ => ?_⟩
  -- without a backslash no quote is escaped
  have hlt : p < (lineAhead cs).length := (List.getElem?_eq_some_iff.1 hp).1
  have htake : '\\' ∉ cs.take p := fun hm => hplain (take_subset_lineAhead hlt.le hm)
  rw [escapedQuotes_eq_zero htake]

/-- A string with an escaped quote and a semicolon, and a comment. -/
def sealedSemicolon : Cursor := .start "books" "\"a\\\";b\" ; c".toList

/-- The search stops inside the string, before the comment. -/
theorem commentStart_sealedSemicolon :
    commentStart sealedSemicolon.rest = some 4 ∧ ¬Outside sealedSemicolon.rest 4 ∧
      CommentAt sealedSemicolon.rest 8 ∧
      ¬∀ p, commentStart sealedSemicolon.rest = some p ↔ CommentAt sealedSemicolon.rest p := by
  have hfound : commentStart sealedSemicolon.rest = some 4 := by decide
  have hinside : ¬Outside sealedSemicolon.rest 4 := by decide
  have hcomment : CommentAt sealedSemicolon.rest 8 := by decide
  exact ⟨hfound, hinside, hcomment, fun h => hinside ((h 4).1 hfound).1.2⟩

end Token
end Daybook
