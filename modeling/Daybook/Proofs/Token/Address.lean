import Daybook.Cursor
import Daybook.Proofs.Token.Name
import Mathlib.Order.Bounds.Basic

/-!
# Token — Address

What a mail address is, a pattern says, whose parts overlap: a point or a
letter may belong to the domain or to its end. Matching the pattern takes
the longest run first and falls back from it where the later parts do not
match (`Pattern.lengths`). Reading does not fall back: it looks for the
last point of the domain that can be the last of the address (`EndPoint`).
Both take the same text.
-/

namespace Daybook

open Daybook.Text

namespace Token

/-! ## Patterns -/

/-- A part of a pattern: one character, or a run of at least `least`
characters of a class. -/
inductive Part where
  | char (c : Char)
  | run (p : Char → Bool) (least : Nat)

/-- The lengths that the part may have at the front, the longest first. -/
def Part.lengths : Part → List Char → List Nat
  | char c, cs => if cs.head? = some c then [1] else []
  | run p least, cs => (List.range' least ((cs.takeWhile p).length + 1 - least)).reverse

/-- Parts one behind another. -/
abbrev Pattern := List Part

namespace Pattern

/-- The lengths that the parts may have together, in the order in which
they are tried: for each length of the first part, those of the others. -/
def lengths : Pattern → List Char → List Nat
  | [], _ => [0]
  | part :: parts, cs =>
    (part.lengths cs).flatMap fun n => (lengths parts (cs.drop n)).map (n + ·)

/-- The first length at which all parts match. -/
def reach (ps : Pattern) (cs : List Char) : Option Nat := (ps.lengths cs).head?

/-- The text that the pattern takes from the front. -/
def ahead (ps : Pattern) : Lexeme := fun cs => (ps.reach cs).map cs.take

/-- The first length of the first part behind which the others match. -/
theorem reach_cons (part : Part) (parts : Pattern) (cs : List Char) :
    reach (part :: parts) cs =
      (part.lengths cs).findSome? fun n => (reach parts (cs.drop n)).map (n + ·) := by
  rw [reach, lengths, List.head?_flatMap]
  simp only [List.head?_map]
  rfl

theorem reach_char (c : Char) (parts : Pattern) (cs : List Char) (n : Nat) :
    reach (.char c :: parts) cs = some n ↔
      ∃ rest k, cs = c :: rest ∧ reach parts rest = some k ∧ n = k + 1 := by
  rw [reach_cons, Part.lengths]
  cases cs with
  | nil => simp
  | cons d cs =>
      by_cases hd : d = c
      · subst hd
        cases hr : reach parts cs with
        | none => simp [hr]
        | some k => simp [hr, Nat.add_comm 1, eq_comm]
      · simp [hd]

/-- The longest first: what is found is found at the greatest number. -/
theorem findSome?_reverse_range' {α : Type} {f : Nat → Option α} {least count : Nat} {b : α} :
    (List.range' least count).reverse.findSome? f = some b ↔
      ∃ k, IsGreatest {k | least ≤ k ∧ k < least + count ∧ f k ≠ none} k ∧ f k = some b := by
  induction count with
  | zero =>
      constructor
      · intro h
        cases h
      · rintro ⟨k, ⟨⟨hle, hlt, -⟩, -⟩, -⟩
        omega
  | succ count ih =>
      rw [List.range'_concat, List.reverse_append, List.reverse_singleton, List.singleton_append,
        Nat.one_mul, List.findSome?_cons]
      cases hlast : f (least + count) with
      | none =>
          have hset : {k | least ≤ k ∧ k < least + (count + 1) ∧ f k ≠ none} =
              {k | least ≤ k ∧ k < least + count ∧ f k ≠ none} := by
            ext k
            constructor
            · rintro ⟨hle, hlt, hk⟩
              have hne : k ≠ least + count := fun he => hk (he ▸ hlast)
              exact ⟨hle, by omega, hk⟩
            · rintro ⟨hle, hlt, hk⟩
              exact ⟨hle, by omega, hk⟩
          rw [hset]
          exact ih
      | some v =>
          constructor
          · intro h
            refine ⟨least + count, ⟨⟨by omega, by omega, by simp [hlast]⟩, ?_⟩, hlast.trans h⟩
            rintro j ⟨-, hj, -⟩
            omega
          · rintro ⟨k, ⟨⟨-, hlt, -⟩, hbound⟩, hk⟩
            have hle : least + count ≤ k := hbound ⟨by omega, by omega, by simp [hlast]⟩
            obtain rfl : k = least + count := by omega
            exact hlast.symm.trans hk

/-- **A run falls back** to the greatest length behind which the other
parts match. -/
theorem reach_run (p : Char → Bool) (least : Nat) (parts : Pattern) (cs : List Char) (n : Nat) :
    reach (.run p least :: parts) cs = some n ↔
      ∃ k, IsGreatest {k | least ≤ k ∧ k ≤ (cs.takeWhile p).length ∧
          reach parts (cs.drop k) ≠ none} k ∧
        ∃ j, reach parts (cs.drop k) = some j ∧ n = k + j := by
  have hset : {k | least ≤ k ∧ k < least + ((cs.takeWhile p).length + 1 - least) ∧
        ((reach parts (cs.drop k)).map (k + ·)) ≠ none} =
      {k | least ≤ k ∧ k ≤ (cs.takeWhile p).length ∧ reach parts (cs.drop k) ≠ none} := by
    ext k
    constructor
    · rintro ⟨hle, hlt, hk⟩
      exact ⟨hle, by omega, fun he => hk (by rw [he]; rfl)⟩
    · rintro ⟨hle, hlt, hk⟩
      exact ⟨hle, by omega, fun he => hk (Option.map_eq_none_iff.1 he)⟩
  rw [reach_cons, Part.lengths, findSome?_reverse_range', hset]
  refine exists_congr fun k => and_congr_right fun _ => ?_
  rw [Option.map_eq_some_iff]
  exact exists_congr fun j => and_congr_right fun _ => eq_comm

end Pattern

/-- A mailbox, an at sign, a domain, a point and at least two letters. -/
def mailPattern : Pattern :=
  [.run isMailboxChar 1, .char '@', .run isDomainChar 1, .char '.', .run Char.isAlpha 2]

/-! ## The end of an address -/

/-- How many letters come right behind the place. -/
def lettersBehind (ds : List Char) (k : Nat) : Nat :=
  ((ds.drop (k + 1)).takeWhile Char.isAlpha).length

/-- The place holds a point with at least two letters behind it. -/
def PointAt (ds : List Char) (k : Nat) : Prop := ds[k]? = some '.' ∧ 2 ≤ lettersBehind ds k

/-- The last point of an address may stand there: something of the domain
comes before it, and at least two letters behind. -/
def EndPoint (ds : List Char) (k : Nat) : Prop := 1 ≤ k ∧ PointAt ds k

theorem pointAt_cons_succ (c : Char) (cs : List Char) (k : Nat) :
    PointAt (c :: cs) (k + 1) ↔ PointAt cs k := Iff.rfl

/-- **The reach of a domain** is the end of the letters behind its last
point with two of them. -/
theorem domainReach_cases (ds : List Char) :
    (domainReach ds = none ∧ ∀ k, ¬PointAt ds k) ∨
      ∃ k, domainReach ds = some (k + 1 + lettersBehind ds k) ∧
        IsGreatest {k | PointAt ds k} k := by
  induction ds with
  | nil => exact .inl ⟨rfl, fun k h => by cases h.1⟩
  | cons c cs ih =>
      rw [domainReach]
      rcases ih with ⟨hnone, hpoint⟩ | ⟨k, hsome, hpoint, hbound⟩
      · rw [hnone]
        simp only
        -- no point behind the first character counts, so only that one may
        split
        · next hc =>
          refine .inr ⟨0, ?_, ⟨?_, ?_⟩⟩
          · rw [Nat.zero_add, Nat.add_comm]
            rfl
          · exact ⟨congrArg some hc.1, hc.2⟩
          · rintro (_ | j) hj
            · exact Nat.le_refl 0
            · exact absurd hj (hpoint j)
        · next hc =>
          refine .inl ⟨rfl, ?_⟩
          rintro (_ | k) hk
          · exact hc ⟨Option.some.inj hk.1, hk.2⟩
          · exact hpoint k hk
      · rw [hsome]
        refine .inr ⟨k + 1, congrArg some ?_, hpoint, ?_⟩
        · show k + 1 + lettersBehind cs k + 1 = k + 1 + 1 + lettersBehind cs k
          omega
        · rintro (_ | j) hj
          · exact Nat.zero_le _
          · exact Nat.succ_le_succ (hbound hj)

/-- Of a domain, the first character is not looked at for points. -/
theorem isGreatest_endPoint_cons (c : Char) (cs : List Char) (k : Nat) :
    IsGreatest {k | EndPoint (c :: cs) k} (k + 1) ↔ IsGreatest {k | PointAt cs k} k := by
  constructor
  · rintro ⟨hk, hbound⟩
    refine ⟨hk.2, fun j hj => ?_⟩
    exact Nat.le_of_succ_le_succ (hbound ⟨Nat.succ_pos j, hj⟩)
  · rintro ⟨hk, hbound⟩
    refine ⟨⟨Nat.succ_pos k, hk⟩, ?_⟩
    rintro (_ | j) ⟨hpos, hj⟩
    · exact Nat.zero_le _
    · exact Nat.succ_le_succ (hbound hj)

/-- So the reach of what is behind it tells the last end point. -/
theorem domainReach_tail_eq_some_iff (ds : List Char) (n : Nat) :
    domainReach ds.tail = some n ↔
      ∃ k, IsGreatest {k | EndPoint ds k} k ∧ n + 1 = k + 1 + lettersBehind ds k := by
  cases ds with
  | nil =>
      constructor
      · intro h
        cases h
      · rintro ⟨k, ⟨⟨-, hk, -⟩, -⟩, -⟩
        cases hk
  | cons c cs =>
      rw [List.tail_cons]
      constructor
      · intro h
        rcases domainReach_cases cs with ⟨hnone, -⟩ | ⟨k, hsome, hlast⟩
        · rw [hnone] at h
          cases h
        · refine ⟨k + 1, (isGreatest_endPoint_cons c cs k).2 hlast, ?_⟩
          rw [hsome] at h
          rw [← Option.some.inj h]
          show k + 1 + lettersBehind cs k + 1 = k + 1 + 1 + lettersBehind cs k
          omega
      · rintro ⟨_ | k, hlast, hn⟩
        · exact absurd hlast.1.1 (Nat.lt_irrefl 0)
        · have hpoint := (isGreatest_endPoint_cons c cs k).1 hlast
          rcases domainReach_cases cs with ⟨-, hno⟩ | ⟨j, hsome, hj⟩
          · exact absurd hpoint.1 (hno k)
          · obtain rfl : j = k := hj.unique hpoint
            have hletters : lettersBehind (c :: cs) (j + 1) = lettersBehind cs j := rfl
            rw [hsome, Option.some.injEq]
            omega

/-- Of end points there is a last one. -/
theorem exists_isGreatest_endPoint {ds : List Char} {k : Nat} (h : EndPoint ds k) :
    ∃ j, IsGreatest {k | EndPoint ds k} j := by
  obtain _ | ⟨c, cs⟩ := ds
  · cases h.2.1
  · obtain _ | k := k
    · exact absurd h.1 (Nat.lt_irrefl 0)
    · rcases domainReach_cases cs with ⟨-, hno⟩ | ⟨j, -, hlast⟩
      · exact absurd h.2 (hno k)
      · exact ⟨j + 1, (isGreatest_endPoint_cons c cs j).2 hlast⟩

/-! ## The pattern of an address -/

theorem isDomainChar_of_isAlpha {c : Char} (h : c.isAlpha = true) : isDomainChar c = true := by
  simp [isDomainChar, Char.isAlphanum, h]

theorem takeWhile_isAlpha_domain (cs : List Char) :
    (cs.takeWhile isDomainChar).takeWhile Char.isAlpha = cs.takeWhile Char.isAlpha := by
  induction cs with
  | nil => rfl
  | cons c cs ih =>
      by_cases hc : c.isAlpha = true
      · simp [isDomainChar_of_isAlpha hc, hc, ih]
      · by_cases hd : isDomainChar c = true
        · simp [hd, hc]
        · simp [hd, hc]

/-- Points of the domain are points of the text: letters do not lead out
of the domain. -/
theorem pointAt_domain (cs : List Char) (k : Nat) :
    PointAt (cs.takeWhile isDomainChar) k ↔
      k ≤ (cs.takeWhile isDomainChar).length ∧ PointAt cs k := by
  induction cs generalizing k with
  | nil =>
      constructor
      · rintro ⟨hk, -⟩
        cases hk
      · rintro ⟨-, hk, -⟩
        cases hk
  | cons c cs ih =>
      by_cases hc : isDomainChar c = true
      · rw [List.takeWhile_cons_of_pos hc]
        cases k with
        | zero =>
            have hletters : lettersBehind (c :: cs.takeWhile isDomainChar) 0 =
                lettersBehind (c :: cs) 0 := congrArg List.length (takeWhile_isAlpha_domain cs)
            rw [PointAt, PointAt, hletters]
            simp
        | succ k =>
            rw [pointAt_cons_succ, pointAt_cons_succ, ih, List.length_cons, Nat.succ_le_succ_iff]
      · rw [List.takeWhile_cons_of_neg hc]
        constructor
        · rintro ⟨hk, -⟩
          cases hk
        · rintro ⟨hk, hpoint, -⟩
          -- at the end of the domain stands no point, which would belong to it
          obtain rfl : k = 0 := by simpa using hk
          obtain rfl : c = '.' := Option.some.inj hpoint
          exact absurd rfl hc

theorem lettersBehind_domain {cs : List Char} {k : Nat}
    (h : k < (cs.takeWhile isDomainChar).length) :
    lettersBehind (cs.takeWhile isDomainChar) k = lettersBehind cs k := by
  induction cs generalizing k with
  | nil => cases h
  | cons c cs ih =>
      by_cases hc : isDomainChar c = true
      · rw [List.takeWhile_cons_of_pos hc] at h ⊢
        cases k with
        | zero => exact congrArg List.length (takeWhile_isAlpha_domain cs)
        | succ k => exact ih (Nat.lt_of_succ_lt_succ h)
      · rw [List.takeWhile_cons_of_neg hc] at h
        cases h

namespace Pattern

theorem reach_letters (cs : List Char) (n : Nat) :
    reach [.run Char.isAlpha 2] cs = some n ↔
      2 ≤ (cs.takeWhile Char.isAlpha).length ∧ n = (cs.takeWhile Char.isAlpha).length := by
  rw [reach_run]
  constructor
  · rintro ⟨k, ⟨⟨hleast, hk, -⟩, hbound⟩, j, hj, rfl⟩
    have hle := hbound ⟨Nat.le_trans hleast hk, Nat.le_refl _, Option.some_ne_none 0⟩
    obtain rfl : 0 = j := Option.some.inj hj
    omega
  · rintro ⟨hleast, rfl⟩
    refine ⟨_, ⟨⟨hleast, Nat.le_refl _, Option.some_ne_none 0⟩, ?_⟩, 0, rfl, rfl⟩
    rintro j ⟨-, hj, -⟩
    exact hj

/-- The end of an address is a point with two letters behind it. -/
theorem reach_ending (cs : List Char) (k n : Nat) :
    reach [.char '.', .run Char.isAlpha 2] (cs.drop k) = some n ↔
      PointAt cs k ∧ n = 1 + lettersBehind cs k := by
  have hbehind : ∀ rest, cs.drop k = '.' :: rest → cs.drop (k + 1) = rest := by
    intro rest h
    rw [← List.drop_drop, h]
    rfl
  rw [reach_char, PointAt, ← List.head?_drop]
  simp only [reach_letters]
  constructor
  · rintro ⟨rest, j, hrest, ⟨hletters, rfl⟩, rfl⟩
    rw [lettersBehind, hbehind rest hrest, hrest]
    exact ⟨⟨rfl, hletters⟩, Nat.add_comm ..⟩
  · rintro ⟨⟨hpoint, hletters⟩, rfl⟩
    obtain ⟨rest, hrest⟩ := List.head?_eq_some_iff.1 hpoint
    rw [lettersBehind, hbehind rest hrest] at hletters ⊢
    exact ⟨rest, _, hrest, ⟨hletters, rfl⟩, Nat.add_comm ..⟩

/-- **The domain falls back** to its last end point. -/
theorem reach_domain (cs : List Char) (n : Nat) :
    reach [.run isDomainChar 1, .char '.', .run Char.isAlpha 2] cs = some n ↔
      ∃ k, IsGreatest {k | EndPoint (cs.takeWhile isDomainChar) k} k ∧
        n = k + 1 + lettersBehind (cs.takeWhile isDomainChar) k := by
  have hmatches : ∀ k, reach [.char '.', .run Char.isAlpha 2] (cs.drop k) ≠ none ↔
      PointAt cs k := by
    intro k
    rw [Option.ne_none_iff_exists']
    simp only [reach_ending]
    exact ⟨fun ⟨_, h, _⟩ => h, fun h => ⟨_, h, rfl⟩⟩
  have hset : {k | 1 ≤ k ∧ k ≤ (cs.takeWhile isDomainChar).length ∧
        reach [.char '.', .run Char.isAlpha 2] (cs.drop k) ≠ none} =
      {k | EndPoint (cs.takeWhile isDomainChar) k} := by
    ext k
    exact and_congr_right fun _ => (and_congr_right fun _ => hmatches k).trans
      (pointAt_domain cs k).symm
  rw [reach_run, hset]
  refine exists_congr fun k => and_congr_right fun hlast => ?_
  have hpoint : PointAt (cs.takeWhile isDomainChar) k := hlast.1.2
  have hlt : k < (cs.takeWhile isDomainChar).length := (List.getElem?_eq_some_iff.1 hpoint.1).1
  simp only [reach_ending, lettersBehind_domain hlt]
  constructor
  · rintro ⟨j, ⟨-, rfl⟩, rfl⟩
    exact (Nat.add_assoc ..).symm
  · rintro rfl
    exact ⟨_, ⟨((pointAt_domain cs k).1 hpoint).2, rfl⟩, Nat.add_assoc ..⟩

end Pattern

/-! ## Addresses -/

/-- The longest mailbox at the front. -/
def mailboxAhead (cs : List Char) : List Char := cs.takeWhile isMailboxChar

/-- The longest domain behind the character that ends the mailbox. -/
def domainAhead (cs : List Char) : List Char :=
  (cs.drop ((mailboxAhead cs).length + 1)).takeWhile isDomainChar

/-- A mail address stands at the front, and the place is that of its last
point in its domain. -/
structure AddressAt (cs : List Char) (k : Nat) : Prop where
  mailbox : mailboxAhead cs ≠ []
  sign : cs[(mailboxAhead cs).length]? = some '@'
  last : IsGreatest {k | EndPoint (domainAhead cs) k} k

/-- The address up to the end of the letters behind the point. -/
def addressText (cs : List Char) (k : Nat) : List Char :=
  mailboxAhead cs ++ '@' :: (domainAhead cs).take (k + 1 + lettersBehind (domainAhead cs) k)

theorem mailboxAhead_append_drop (cs : List Char) :
    mailboxAhead cs ++ cs.drop (mailboxAhead cs).length = cs := by
  rw [mailboxAhead, drop_takeWhile_length, List.takeWhile_append_dropWhile]

/-- A run takes all of its class. -/
theorem run_eq_some_iff {p : Char → Bool} {cs w : List Char} :
    Lexeme.run p cs = some w ↔ cs.takeWhile p ≠ [] ∧ cs.takeWhile p = w := by
  rw [Lexeme.run]
  split
  · next h =>
    rw [List.isEmpty_iff] at h
    simp [h]
  · next h =>
    rw [List.isEmpty_iff] at h
    simp [h]

theorem mailDomain_eq_some_iff {cs w : List Char} :
    mailDomain cs = some w ↔ ∃ rest, cs = '@' :: rest ∧
      rest.takeWhile isDomainChar ≠ [] ∧ rest.takeWhile isDomainChar = w := by
  cases cs with
  | nil => simp [mailDomain]
  | cons c rest =>
      by_cases hc : c = '@'
      · subst hc
        rw [mailDomain, run_eq_some_iff]
        simp
      · simp [mailDomain, hc]

/-- The at sign is behind the mailbox, and the domain behind the sign. -/
theorem drop_mailboxAhead {cs rest : List Char}
    (h : cs.drop (mailboxAhead cs).length = '@' :: rest) :
    cs[(mailboxAhead cs).length]? = some '@' ∧
      rest.takeWhile isDomainChar = domainAhead cs := by
  rw [← List.head?_drop, domainAhead, ← List.drop_drop, h]
  exact ⟨rfl, rfl⟩

/-- **Reading takes the address** up to the last end point. -/
theorem email_eq_some_iff (cs w : List Char) :
    email cs = some w ↔ ∃ k, AddressAt cs k ∧ w = addressText cs k := by
  rw [email_eq]
  simp only [Option.bind_eq_some_iff, Option.map_eq_some_iff, run_eq_some_iff,
    mailDomain_eq_some_iff, domainReach_tail_eq_some_iff]
  constructor
  · rintro ⟨mailbox, ⟨hne, rfl⟩, domain, ⟨rest, hrest, -, rfl⟩, n, ⟨k, hlast, hn⟩, rfl⟩
    obtain ⟨hsign, hdomain⟩ := drop_mailboxAhead hrest
    refine ⟨k, ⟨hne, hsign, hdomain ▸ hlast⟩, ?_⟩
    rw [hn, hdomain]
    rfl
  · rintro ⟨k, ⟨hne, hsign, hlast⟩, rfl⟩
    rw [← List.head?_drop] at hsign
    obtain ⟨rest, hrest⟩ := List.head?_eq_some_iff.1 hsign
    have hdomain := (drop_mailboxAhead hrest).2
    have hnonempty : rest.takeWhile isDomainChar ≠ [] := by
      intro he
      have hpoint := hlast.1.2.1
      rw [← hdomain, he] at hpoint
      cases hpoint
    refine ⟨_, ⟨hne, rfl⟩, _, ⟨rest, hrest, hnonempty, rfl⟩,
      k + lettersBehind (domainAhead cs) k, ⟨k, hdomain ▸ hlast, ?_⟩, ?_⟩
    · rw [hdomain]
      omega
    · rw [hdomain, addressText, Nat.add_right_comm]
      rfl

namespace Pattern

/-- **The mailbox does not fall back**: only behind all of it an at sign
can come. -/
theorem reach_mailPattern (cs : List Char) (n : Nat) :
    reach mailPattern cs = some n ↔
      ∃ k, AddressAt cs k ∧
        n = (mailboxAhead cs).length + (k + 1 + lettersBehind (domainAhead cs) k + 1) := by
  have hsign : ∀ k m, reach [.char '@', .run isDomainChar 1, .char '.', .run Char.isAlpha 2]
      (cs.drop k) = some m ↔ cs[k]? = some '@' ∧
        ∃ j, reach [.run isDomainChar 1, .char '.', .run Char.isAlpha 2] (cs.drop (k + 1)) =
          some j ∧ m = j + 1 := by
    intro k m
    rw [reach_char, ← List.head?_drop]
    constructor
    · rintro ⟨rest, j, hrest, hj, rfl⟩
      rw [← List.drop_drop, hrest]
      exact ⟨rfl, j, hj, rfl⟩
    · rintro ⟨hhead, j, hj, rfl⟩
      obtain ⟨rest, hrest⟩ := List.head?_eq_some_iff.1 hhead
      rw [← List.drop_drop, hrest] at hj
      exact ⟨rest, j, hrest, hj, rfl⟩
  have hwhole : ∀ k ≤ (mailboxAhead cs).length, cs[k]? = some '@' →
      k = (mailboxAhead cs).length := by
    intro k hk hat
    by_contra hne
    have hlt : k < (mailboxAhead cs).length := by omega
    rw [← mailboxAhead_append_drop cs, List.getElem?_append_left hlt] at hat
    have hmem := List.mem_takeWhile_imp (List.mem_of_getElem? hat)
    exact absurd hmem (by decide)
  rw [mailPattern, reach_run]
  simp only [hsign, reach_domain]
  constructor
  · rintro ⟨k, ⟨⟨hpos, hk, -⟩, -⟩, m, ⟨hat, j, ⟨i, hlast, rfl⟩, rfl⟩, rfl⟩
    obtain rfl := hwhole k hk hat
    exact ⟨i, ⟨List.length_pos_iff.1 hpos, hat, hlast⟩, rfl⟩
  · rintro ⟨k, ⟨hne, hat, hlast⟩, rfl⟩
    have hmatch := (hsign (mailboxAhead cs).length _).2
      ⟨hat, _, (reach_domain _ _).2 ⟨k, hlast, rfl⟩, rfl⟩
    refine ⟨_, ⟨⟨List.length_pos_iff.2 hne, Nat.le_refl _, ?_⟩, ?_⟩, _,
      ⟨hat, _, ⟨k, hlast, rfl⟩, rfl⟩, rfl⟩
    · rw [hmatch]
      exact Option.some_ne_none _
    · rintro j ⟨-, hj, -⟩
      exact hj

end Pattern

theorem length_addressText {cs : List Char} {k : Nat} (h : AddressAt cs k) :
    (addressText cs k).length =
      (mailboxAhead cs).length + (k + 1 + lettersBehind (domainAhead cs) k + 1) := by
  have hle : k + 1 + lettersBehind (domainAhead cs) k ≤ (domainAhead cs).length := by
    have hk : k < (domainAhead cs).length := (List.getElem?_eq_some_iff.1 h.last.1.2.1).1
    have hletters := (List.takeWhile_prefix (p := Char.isAlpha)
      (l := (domainAhead cs).drop (k + 1))).length_le
    rw [List.length_drop] at hletters
    rw [lettersBehind]
    omega
  rw [addressText, List.length_append, List.length_cons, List.length_take_of_le hle]

/-- **What is read as a mail address** is what the pattern takes. There is
one if and only if the longest mailbox is not empty, an at sign follows it,
and of the longest domain behind that some point is an end point: not its
first character, and with two letters right behind. The address goes up to
the end of the letters behind the last such point, and this text is what is
given and passed over. -/
theorem email_exact (c : Cursor) :
    email c.rest = mailPattern.ahead c.rest ∧
      (email c.rest ≠ none ↔ mailboxAhead c.rest ≠ [] ∧
        c.rest[(mailboxAhead c.rest).length]? = some '@' ∧
        ∃ k, EndPoint (domainAhead c.rest) k) ∧
      (∀ w, email c.rest = some w ↔ ∃ k, AddressAt c.rest k ∧ w = addressText c.rest k) ∧
      ∀ w, email c.rest = some w →
        email.read c.rest = .found (String.ofList w) w.length ∧
          c.rest = w ++ (c.advance w.length).rest := by
  generalize hcs : c.rest = cs
  have hbegins : ∀ w, email cs = some w → cs.take w.length = w := fun w hw =>
    List.prefix_iff_eq_take.1 (begins_email cs w hw) |>.symm
  refine ⟨?_, ?_, email_eq_some_iff cs, fun w hw => ⟨?_, ?_⟩⟩
  · refine Option.ext fun w => ?_
    rw [Pattern.ahead, Option.map_eq_some_iff, email_eq_some_iff]
    simp only [Pattern.reach_mailPattern]
    constructor
    · rintro ⟨k, hk, rfl⟩
      refine ⟨_, ⟨k, hk, rfl⟩, ?_⟩
      rw [← length_addressText hk]
      exact hbegins _ ((email_eq_some_iff cs _).2 ⟨k, hk, rfl⟩)
    · rintro ⟨_, ⟨k, hk, rfl⟩, rfl⟩
      refine ⟨k, hk, ?_⟩
      rw [← length_addressText hk]
      exact hbegins _ ((email_eq_some_iff cs _).2 ⟨k, hk, rfl⟩)
  · rw [Option.ne_none_iff_exists']
    simp only [email_eq_some_iff]
    constructor
    · rintro ⟨w, k, ⟨hmailbox, hsign, hlast⟩, -⟩
      exact ⟨hmailbox, hsign, k, hlast.1⟩
    · rintro ⟨hmailbox, hsign, k, hk⟩
      obtain ⟨j, hj⟩ := exists_isGreatest_endPoint hk
      exact ⟨_, j, ⟨hmailbox, hsign, hj⟩, rfl⟩
  · rw [Lexeme.read, hw]
    rfl
  · have hsplit := List.take_append_drop w.length cs
    rw [hbegins w hw] at hsplit
    rw [Cursor.rest_advance, hcs, hsplit]

/-- An address before a point with one letter behind it. -/
def looseEnd : Cursor := .start "books" "a.b+c@x.org.c1 ; d".toList

/-- The domain goes on behind the address: its last point is no end
point. -/
theorem email_exact_looseEnd :
    email looseEnd.rest = some "a.b+c@x.org".toList ∧
      mailPattern.ahead looseEnd.rest = some "a.b+c@x.org".toList ∧
      email.read looseEnd.rest = .found "a.b+c@x.org" 11 ∧
      (looseEnd.advance 11).rest = ".c1 ; d".toList := by
  obtain ⟨hpattern, -, -, hfound⟩ := email_exact looseEnd
  have hread : email looseEnd.rest = some "a.b+c@x.org".toList := by decide
  obtain ⟨htext, hrest⟩ := hfound _ hread
  have hwhole : looseEnd.rest = "a.b+c@x.org".toList ++ ".c1 ; d".toList := by decide
  exact ⟨hread, hpattern ▸ hread, htext, List.append_cancel_left (hrest.symm.trans hwhole)⟩

end Token
end Daybook
