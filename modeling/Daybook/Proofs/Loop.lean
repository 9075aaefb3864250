import Daybook.Proofs.Place

/-!
# Loop — the loops that entries are read by

An entry is read by loops over blank lines, metadata, the lines of a
transaction, lists and strings. Each is described by one look at the text
ahead (`Loop.look`): it says whether the loop makes another turn, and
behind how many characters it goes on. The functions of the library are
these loops (`Loop.reach_eq`). A turn always passes over something, so
there are no more turns than characters (`Loop.ends`).
-/

namespace Daybook

open Daybook.Text Daybook.Reading

namespace Reading

variable {α β : Type}

/-- How far the reader got that found something. -/
def reach? : Reading α → Option Nat
  | found _ n => some n
  | _ => none

@[simp] theorem reach?_map (f : α → β) (r : Reading α) : (r.map f).reach? = r.reach? := by
  cases r <;> rfl

@[simp] theorem reach?_shift (n : Nat) (r : Reading α) :
    (r.shift n).reach? = r.reach?.map (n + ·) := by
  cases r <;> rfl

end Reading

/-! ## Loops -/

/-- The loops that entries are read by: over blank lines, the pairs of a
block, the lines of a body, the idle lines behind it, the items of a list,
tags and links, further currency codes, the lines that continue a line
that none accepts, and the characters of a quoted string. -/
inductive Loop where
  | blankLines
  | pairs (indent : Nat)
  | body
  | idleLines
  | items
  | marks
  | currencies
  | folding
  | quoted

namespace Loop

/-- What one look at the text ahead decides: the loop makes a turn and
goes on behind so many characters, or it stops after so many. A flaw stops
it too, and then it has reached nothing. -/
inductive Look where
  | turn (length : Nat)
  | stop (reach : Option Nat)

/-- Where a reader finds nothing the loop stops, and where it finds
something the loop goes on behind it. -/
def Look.behind {α : Type} (step : Nat → Nat) : Reading α → Look
  | .absent => .stop (some 0)
  | .broken _ => .stop none
  | .found _ n => .turn (step n)

/-- A further code takes a comma, white space or none, and the code. -/
def lookForCode : List Char → Look
  | ',' :: rest =>
    match Token.currency (rest.drop (inlineBlanks rest)) with
    | none => .stop (some 0)
    | some code => .turn (inlineBlanks rest + code.length + 1)
  | _ => .stop (some 0)

/-- The quote stops a string. A backslash takes the next character with
it, if there is one. -/
def lookForQuote : List Char → Look
  | [] => .stop none
  | c :: rest =>
    if c = '"' then .stop (some 1)
    else if c = '\\' ∧ rest ≠ [] then .turn 2
    else .turn 1

/-- One look of a loop at the text ahead. -/
def look : Loop → List Char → Look
  | blankLines, cs =>
    if (cs.drop (indentWidth cs)).head? = some '\n' then .turn (indentWidth cs + 1)
    else .stop (some 0)
  | pairs indent, cs =>
    if (cs.drop (indentWidth cs)).head? = some '\n' then .turn (indentWidth cs + 1)
    else if indentWidth cs < indent then .stop (some 0)
    else .behind (Metadata.pairLine (indentWidth cs) cs) (Metadata.pair (cs.drop (indentWidth cs)))
  | body, cs =>
    if indentWidth (cs.drop (Text.blankLines cs)) < Transaction.bodyIndent then .stop (some 0)
    else
      .behind (Transaction.bodyFront cs + ·)
        (Transaction.bodyLine (cs.drop (Transaction.bodyFront cs)))
  | idleLines, cs =>
    if (cs.drop (indentWidth cs)).head?.any (fun c => c == '\n' || c == ';') then
      .turn (lineLength cs)
    else .stop (some 0)
  | items, cs =>
    match Token.item cs with
    | .absent => .stop (some 0)
    | .broken _ => .stop none
    | .found _ n =>
      -- an item with nothing behind it that separates is the last
      if Token.separator (cs.drop n) = 0 then .stop (some n)
      else .turn (n + Token.separator (cs.drop n))
  | marks, cs =>
    match Token.mark? (cs.drop (inlineBlanks cs)) with
    | none => .stop (some 0)
    | some (_, n) => .turn (inlineBlanks cs + n)
  | currencies, cs => lookForCode cs
  | folding, cs =>
    match cs.dropWhile (· != '\n') with
    | [] => .stop (some (lineAhead cs).length)
    | _ :: rest =>
      if Recovery.continues rest then .turn ((lineAhead cs).length + 1)
      else .stop (some (lineAhead cs).length)
  | quoted, cs => lookForQuote cs

/-- How far the library's function reaches that is the loop, unless it
meets a flaw. -/
def reach : Loop → List Char → Option Nat
  | blankLines, cs => some (Text.blankLines cs)
  | pairs indent, cs => (Metadata.pairs indent cs).reach?
  | body, cs => (Transaction.body cs).reach?
  | idleLines, cs => some (Transaction.idleLines cs)
  | items, cs => (Token.items cs).reach?
  | marks, cs => some (Token.marks cs).2
  | currencies, cs => some (Token.moreCurrencies cs).2
  | folding, cs => some (Recovery.extent cs)
  | quoted, cs => (Quoted.decode cs).map (·.2)

/-- What the loop reaches after a look: so far, or as far as it goes on
behind the turn. -/
def reachFrom (l : Loop) (cs : List Char) : Look → Option Nat
  | .stop reach => reach
  | .turn k => (l.reach (cs.drop k)).map (k + ·)

/-! ## The functions are the loops -/

variable (cs : List Char)

theorem reach_blankLines : blankLines.reach cs = blankLines.reachFrom cs (blankLines.look cs) := by
  rw [look]
  split
  · next h =>
    obtain ⟨rest, hrest⟩ := List.head?_eq_some_iff.1 h
    rw [reach, blankLines_of_blank hrest, reachFrom, drop_of_blank hrest]
    rfl
  · next h =>
    rw [reach, blankLines_eq_zero h]
    rfl

theorem reach_pairs (indent : Nat) :
    (pairs indent).reach cs = (pairs indent).reachFrom cs ((pairs indent).look cs) := by
  rw [reach, Metadata.pairs_eq, look]
  split
  · rw [reach?_shift]
    rfl
  · split
    · rfl
    · cases Metadata.pair (cs.drop (indentWidth cs)) with
      | absent => rfl
      | broken f => rfl
      | found p n =>
          simp only [reach?_shift, reach?_map]
          rfl

theorem reach_body : body.reach cs = body.reachFrom cs (body.look cs) := by
  rw [reach, Transaction.body_eq, look]
  split
  · rfl
  · cases Transaction.bodyLine (cs.drop (Transaction.bodyFront cs)) with
    | absent => rfl
    | broken f => rfl
    | found l n =>
        simp only [reach?_shift, reach?_map]
        rfl

theorem reach_idleLines : idleLines.reach cs = idleLines.reachFrom cs (idleLines.look cs) := by
  rw [reach, Transaction.idleLines_eq, look]
  split <;> rfl

theorem reach_items : items.reach cs = items.reachFrom cs (items.look cs) := by
  rw [reach, Token.items_eq, look]
  cases Token.item cs with
  | absent => rfl
  | broken f => rfl
  | found s n =>
      simp only
      split
      · rfl
      · simp only [reach?_shift, reach?_map]
        rfl

theorem reach_marks : marks.reach cs = marks.reachFrom cs (marks.look cs) := by
  rw [reach, Token.marks_eq, look]
  cases Token.mark? (cs.drop (inlineBlanks cs)) with
  | none => rfl
  | some found => rfl

theorem reach_currencies :
    currencies.reach cs = currencies.reachFrom cs (currencies.look cs) := by
  rw [reach, look, lookForCode.eq_def]
  fun_cases Token.moreCurrencies cs with
  | case1 rest h => simp only [h, reachFrom]
  | case2 rest code h n codes k hmore =>
      simp only [h, reachFrom, List.drop_succ_cons, reach]
      rw [show inlineBlanks rest + code.length = n from rfl, hmore, Option.map_some,
        Nat.add_right_comm]
  | case3 other hno =>
      split
      · next rest => exact (hno rest rfl).elim
      · rfl

theorem reach_folding : folding.reach cs = folding.reachFrom cs (folding.look cs) := by
  rw [reach, Recovery.extent_eq, look]
  cases h : cs.dropWhile (· != '\n') with
  | nil => rfl
  | cons c rest =>
      simp only
      split
      · have hrest : cs.drop ((lineAhead cs).length + 1) = rest := by
          rw [← List.drop_drop, drop_lineAhead, h, List.drop_one, List.tail_cons]
        rw [reachFrom, hrest, ← Nat.add_assoc]
        rfl
      · rfl

theorem reach_quoted : quoted.reach cs = quoted.reachFrom cs (quoted.look cs) := by
  rw [reach, look]
  fun_cases Quoted.decode cs with
  | case1 => rfl
  | case2 => rfl
  | case3 c rest =>
      simp [lookForQuote, reachFrom, reach, Function.comp_def, Nat.add_comm]
  | case4 rest h => rfl
  | case5 c rest hlone hesc hquote =>
      -- a backslash that takes a character with it, or ends the text, is among the other cases
      have hplain : ¬(c = '\\' ∧ rest ≠ []) := by
        rintro ⟨rfl, hrest⟩
        cases rest with
        | nil => exact hrest rfl
        | cons d ds => exact hesc d ds rfl rfl
      simp [lookForQuote, hquote, hplain, reachFrom, reach, Function.comp_def, Nat.add_comm]

/-- **Each function of the library is its loop**: it reaches what one
look decides and what it reaches behind the turn. -/
theorem reach_eq (l : Loop) : l.reach cs = l.reachFrom cs (l.look cs) := by
  cases l with
  | blankLines => exact reach_blankLines cs
  | pairs indent => exact reach_pairs cs indent
  | body => exact reach_body cs
  | idleLines => exact reach_idleLines cs
  | items => exact reach_items cs
  | marks => exact reach_marks cs
  | currencies => exact reach_currencies cs
  | folding => exact reach_folding cs
  | quoted => exact reach_quoted cs

/-! ## Turns -/

variable {cs} {k : Nat}

theorem turn_behind {α : Type} {step : Nat → Nat} {r : Reading α}
    (h : Look.behind step r = .turn k) : ∃ v n, r = .found v n ∧ k = step n := by
  cases r with
  | absent => cases h
  | broken f => cases h
  | found v n =>
      cases h
      exact ⟨v, n, rfl, rfl⟩

/-- A blank line ends in its newline. -/
theorem blank_le (h : (cs.drop (indentWidth cs)).head? = some '\n') :
    indentWidth cs + 1 ≤ cs.length := by
  obtain ⟨rest, hrest⟩ := List.head?_eq_some_iff.1 h
  rw [← lineLength_of_blank hrest]
  exact lineLength_le cs

/-- The turn passes over something, and not over more than there is. -/
def Advances (cs : List Char) (k : Nat) : Prop := 0 < k ∧ k ≤ cs.length

theorem advances_blankLines (h : blankLines.look cs = .turn k) : Advances cs k := by
  rw [look] at h
  split at h
  · next hblank =>
    cases h
    exact ⟨Nat.succ_pos _, blank_le hblank⟩
  · cases h

theorem advances_pairs {indent : Nat} (h : (pairs indent).look cs = .turn k) : Advances cs k := by
  rw [look] at h
  split at h
  · next hblank =>
    cases h
    exact ⟨Nat.succ_pos _, blank_le hblank⟩
  · split at h
    · cases h
    · obtain ⟨p, n, hpair, rfl⟩ := turn_behind h
      have hpos := (Metadata.pair_pos hpair).1
      have hline := (Metadata.pair_atLineEnd _).of_eq hpair
      -- the rest of the pair's line is there too, since the pair ends at a place of the text
      have hend := (Boundary.from_inside (indentWidth_le cs) hline.boundary (by omega)).le
      rw [List.drop_drop] at hend
      unfold Metadata.pairLine
      exact ⟨by omega, by omega⟩

theorem advances_body (h : body.look cs = .turn k) : Advances cs k := by
  rw [look] at h
  split at h
  · cases h
  · obtain ⟨l, n, hline, rfl⟩ := turn_behind h
    have hpos := (Transaction.bodyLine_pos hline).1
    exact ⟨by omega, (Transaction.bodyLine_front_boundary hline hpos).le⟩

theorem advances_idleLines (h : idleLines.look cs = .turn k) : Advances cs k := by
  rw [look] at h
  split at h
  · next hidle =>
    cases h
    have hne : cs ≠ [] := by
      rintro rfl
      cases hidle
    exact ⟨lineLength_pos hne, lineLength_le cs⟩
  · cases h

/-- The loop goes on behind what separates two items. -/
theorem advances_items (h : items.look cs = .turn k) : Advances cs k := by
  rw [look] at h
  split at h
  · cases h
  · cases h
  · next s n hitem =>
    split at h
    · cases h
    · cases h
      have hpos := (Token.item_pos hitem).1
      have hitem := (Token.item_le cs).of_eq hitem
      have hsep := Token.separator_le (cs.drop n)
      have hline := lineAhead_length_le (cs.drop n)
      rw [List.length_drop] at hline
      exact ⟨by omega, by omega⟩

theorem advances_marks (h : marks.look cs = .turn k) : Advances cs k := by
  rw [look] at h
  split at h
  · cases h
  · next m n hmark =>
    cases h
    have hpos := (Token.mark?_pos hmark).1
    have hle := Token.mark?_le hmark
    have hblanks := inlineBlanks_le cs
    rw [List.length_drop] at hle
    exact ⟨by omega, by omega⟩

theorem advances_currencies (h : currencies.look cs = .turn k) : Advances cs k := by
  rw [look, lookForCode.eq_def] at h
  split at h
  · next rest =>
    split at h
    · cases h
    · next code hcode =>
      cases h
      have hle := (Lexeme.headed_isPrefix hcode).length_le
      have hblanks := inlineBlanks_le rest
      rw [List.length_drop] at hle
      rw [Advances, List.length_cons]
      exact ⟨by omega, by omega⟩
  · cases h

theorem advances_folding (h : folding.look cs = .turn k) : Advances cs k := by
  rw [look] at h
  split at h
  · cases h
  · next c rest hrest =>
    split at h
    · cases h
      have hlength := congrArg List.length hrest
      rw [← drop_lineAhead, List.length_drop, List.length_cons] at hlength
      exact ⟨Nat.succ_pos _, by omega⟩
    · cases h

theorem advances_quoted (h : quoted.look cs = .turn k) : Advances cs k := by
  rw [look] at h
  cases cs with
  | nil => cases h
  | cons c rest =>
      rw [lookForQuote] at h
      rw [Advances, List.length_cons]
      split at h
      · cases h
      · split at h
        · next hpair =>
          cases h
          have hrest := List.length_pos_iff.2 hpair.2
          exact ⟨by omega, by omega⟩
        · cases h
          exact ⟨by omega, by omega⟩

/-- **A turn passes over something.** -/
theorem advances_turn {l : Loop} (h : l.look cs = .turn k) : Advances cs k := by
  cases l with
  | blankLines => exact advances_blankLines h
  | pairs indent => exact advances_pairs h
  | body => exact advances_body h
  | idleLines => exact advances_idleLines h
  | items => exact advances_items h
  | marks => exact advances_marks h
  | currencies => exact advances_currencies h
  | folding => exact advances_folding h
  | quoted => exact advances_quoted h

/-- From this text on the loop makes so many turns and stops, having
reached so far. -/
inductive Ends (l : Loop) : List Char → Nat → Option Nat → Prop
  | stop {cs : List Char} {reach : Option Nat} (look : l.look cs = .stop reach) : Ends l cs 0 reach
  | turn {cs : List Char} {k turns : Nat} {reach : Option Nat} (look : l.look cs = .turn k)
      (rest : Ends l (cs.drop k) turns reach) : Ends l cs (turns + 1) (reach.map (k + ·))

/-- **Every loop ends**, with no more turns than characters, and reaches
what its function does. -/
theorem ends (l : Loop) (cs : List Char) : ∃ turns ≤ cs.length, l.Ends cs turns (l.reach cs) := by
  -- on the length of what is ahead, which is all that the loops have in common
  induction hlen : cs.length using Nat.strong_induction_on generalizing cs with
  | _ m ih =>
      subst hlen
      rw [reach_eq]
      cases hlook : l.look cs with
      | stop reach => exact ⟨0, Nat.zero_le _, .stop hlook⟩
      | turn k =>
          obtain ⟨hpos, hle⟩ := advances_turn hlook
          have hshorter : (cs.drop k).length < cs.length := by
            rw [List.length_drop]
            omega
          obtain ⟨turns, hturns, hends⟩ := ih _ hshorter (cs.drop k) rfl
          exact ⟨turns + 1, by omega, .turn hlook hends⟩

end Loop

end Daybook
