import Daybook.Proofs.Token.Literal
import Daybook.Metadata

/-!
# Metadata — blocks of pairs

A key is found on its line, a value ends where a line ends, and a block
ends at a boundary of lines: a block is not changed by text at the
margin below it, which is the shape that every directive has.
-/

namespace Daybook.Text

/-- The rest of a line that is over is its newline. -/
theorem Boundary.rest_of_line {cs : List Char} {n : Nat} (h : n ≤ cs.length) :
    Boundary cs (n + lineLength (cs.drop n)) := by
  by_cases hne : cs.drop n = []
  · refine ⟨by simpa [hne, lineLength] using h, .inl ?_⟩
    rw [← List.drop_drop, hne, List.drop_nil]
  · exact .from_inside h (boundary_lineLength _) (lineLength_pos hne)

end Daybook.Text

namespace Daybook.Metadata

open Daybook.Text Daybook.Reading

/-! ## Keys -/

/-- What follows a key: white space or none, the colon, and white space
or the end of the line. -/
def keyEnd (cs : List Char) : Option Nat :=
  match cs.drop (indentWidth cs) with
  | ':' :: rest =>
    if 0 < indentWidth rest ∨ rest.head?.all (· == '\n') then
      some (indentWidth cs + 1 + indentWidth rest)
    else none
  | _ => none

theorem key?_eq (cs : List Char) :
    key? cs = (Lexeme.headed isKeyStart isKeyChar cs).bind fun key =>
      (keyEnd (cs.drop key.length)).map fun n => (key, key.length + n) := by
  rw [key?]
  cases Lexeme.headed isKeyStart isKeyChar cs with
  | none => rfl
  | some key =>
      simp only [Option.bind_eq_bind, Option.bind_some]
      rw [keyEnd]
      generalize cs.drop key.length = behind
      cases behind.drop (indentWidth behind) with
      | nil => rfl
      | cons c rest =>
          by_cases hc : c = ':'
          · subst hc
            simp only
            split
            · simp only [Option.map_some, Nat.add_assoc]
            · rfl
          · simp [hc]

theorem onLine_key : OnLine (Lexeme.headed isKeyStart isKeyChar) :=
  Lexeme.onLine_headed (by decide) (by decide)

theorem onLine_lineEnd : OnLine fun cs : List Char => cs.head?.all (· == '\n') :=
  onLine_head? rfl

theorem onLine_keyEnd : OnLine keyEnd := by
  intro cs
  rw [keyEnd, keyEnd, onLine_indentWidth, ← lineAhead_drop (indentWidth_le_lineAhead cs)]
  cases cs.drop (indentWidth cs) with
  | nil => rfl
  | cons c rest =>
      by_cases hc : c = '\n'
      · subst hc
        rfl
      · rw [lineAhead_cons hc]
        by_cases hcolon : c = ':'
        · subst hcolon
          have hend := onLine_lineEnd rest
          simp only at hend ⊢
          rw [onLine_indentWidth, hend]
        · simp [hcolon]

theorem keyEnd_le {cs : List Char} {n : Nat} (h : keyEnd cs = some n) : n ≤ cs.length := by
  rw [keyEnd] at h
  split at h
  · next rest hd =>
    split at h
    · cases h
      have h1 := congrArg List.length hd
      have h2 := indentWidth_le rest
      rw [List.length_drop, List.length_cons] at h1
      omega
    · simp at h
  · simp at h

theorem onLine_key? : OnLine key? := by
  intro cs
  rw [key?_eq, key?_eq, onLine_key]
  cases h : Lexeme.headed isKeyStart isKeyChar cs with
  | none => rfl
  | some key =>
      have hle : key.length ≤ (lineAhead cs).length :=
        (Lexeme.headed_isPrefix ((onLine_key cs).trans h)).length_le
      rw [Option.bind_some, Option.bind_some, onLine_keyEnd.drop hle]

theorem key?_le_length {cs key : List Char} {n : Nat} (h : key? cs = some (key, n)) :
    n ≤ cs.length := by
  rw [key?_eq] at h
  obtain ⟨k, hk, h⟩ := Option.bind_eq_some_iff.1 h
  obtain ⟨m, hm, heq⟩ := Option.map_eq_some_iff.1 h
  cases heq
  have h1 := (Lexeme.headed_isPrefix hk).length_le
  have h2 := keyEnd_le hm
  rw [List.length_drop] at h2
  omega

theorem key?_le {cs key : List Char} {n : Nat} (h : key? cs = some (key, n)) :
    n ≤ (lineAhead cs).length :=
  key?_le_length ((onLine_key? cs).trans h)

/-! ## Values and pairs -/

/-- The reading stops at the end of a line. -/
structure AtLineEnd (cs : List Char) (n : Nat) : Prop where
  le : n ≤ cs.length
  atEnd : lineAhead (cs.drop n) = []

/-- The unquoted value of a line. -/
def unquoted (cs : List Char) : Reading Scalar :=
  match coerce (trim (lineAhead cs)) with
  | .ok v => .found v (lineAhead cs).length
  | .error f => .broken f

/-- The value of a line whose quoted string has been read: the rest of
the line is passed over. -/
def quotedValue (s : String) : Reader Scalar := fun rest =>
  .found (.text s) (lineAhead rest).length

theorem value_eq (cs : List Char) :
    value cs = if cs.head? = some '"' then (Token.quoted cs).andThen cs quotedValue
      else unquoted cs := by
  rw [value]
  by_cases hq : cs.head? = some '"'
  · rw [if_pos hq]
    cases h : Token.quoted cs with
    | absent => exact absurd h (Token.quoted_ne_absent hq)
    | found s n => rfl
    | broken f => rfl
  · have habsent := Token.quoted_eq_absent hq
    rw [if_neg hq, unquoted]
    cases coerce (trim (lineAhead cs)) with
    | ok v => simp only [habsent]
    | error f => simp only [habsent]

/-- There always is a value, if only an empty one. -/
theorem value_ne_absent (cs : List Char) : value cs ≠ .absent := by
  rw [value_eq]
  split
  · next hq =>
    cases h : Token.quoted cs with
    | absent => exact absurd h (Token.quoted_ne_absent hq)
    | found s n => simp [andThen, quotedValue]
    | broken f => simp [andThen]
  · rw [unquoted]
    split <;> simp

theorem onLine_unquoted : OnLine unquoted := by
  intro cs
  rw [unquoted, unquoted, lineAhead_idem]

theorem onLine_quotedValue (s : String) : OnLine (quotedValue s) := by
  intro cs
  rw [quotedValue, quotedValue, lineAhead_idem]

theorem lineAhead_drop_lineAhead (cs : List Char) :
    lineAhead (cs.drop (lineAhead cs).length) = [] := by
  rw [lineAhead_drop (Nat.le_refl _), List.drop_length]

theorem unquoted_atLineEnd (cs : List Char) :
    (unquoted cs).Finds fun _ n => AtLineEnd cs n := by
  rw [unquoted]
  split
  · exact ⟨lineAhead_length_le cs, lineAhead_drop_lineAhead cs⟩
  · trivial

theorem unquoted_le_lineAhead (cs : List Char) :
    (unquoted cs).Finds fun _ n => n ≤ (lineAhead cs).length :=
  finds_le_lineAhead onLine_unquoted (fun ds => (unquoted_atLineEnd ds).mono fun _ _ h => h.le) cs

theorem value_atLineEnd (cs : List Char) : (value cs).Finds fun _ n => AtLineEnd cs n := by
  rw [value_eq]
  split
  · apply finds_andThen
    refine (Token.quoted_le cs).mono fun _ n hn => ?_
    have hl := lineAhead_length_le (cs.drop n)
    rw [List.length_drop] at hl
    refine ⟨by omega, ?_⟩
    rw [← List.drop_drop, lineAhead_drop_lineAhead]
  · exact unquoted_atLineEnd cs

theorem firm_value : Reading.Firm value := by
  intro cs ds hc hne hd hs
  have hhead : (cs ++ ds).head? = cs.head? := by
    cases cs with
    | nil => exact absurd rfl hne
    | cons c cs => rfl
  rw [value_eq] at hs
  rw [value_eq, value_eq, hhead]
  split
  · next hq =>
    rw [if_pos hq] at hs
    exact Token.firm_quoted.andThen Token.stays_quoted
      (fun s => firm_of_onLine (onLine_quotedValue s)) cs ds hc hne hd hs
  · exact onLine_unquoted.append (hc.newline_mem hne) ds

theorem pair_eq (cs : List Char) :
    pair cs = match key? cs with
      | none => .absent
      | some (key, n) => ((value (cs.drop n)).map fun v => (String.ofList key, v)).shift n := rfl

theorem pair_atLineEnd (cs : List Char) : (pair cs).Finds fun _ n => AtLineEnd cs n := by
  rw [pair_eq]
  split
  · trivial
  · next key n hk =>
    have hle := key?_le_length hk
    refine (finds_shift ..).2 ((finds_map ..).2 ?_)
    refine (value_atLineEnd (cs.drop n)).mono fun _ m hm => ⟨?_, ?_⟩
    · have := hm.le
      rw [List.length_drop] at this
      omega
    · rw [← List.drop_drop, hm.atEnd]

theorem firm_pair : Reading.Firm pair := by
  intro cs ds hc hne hd hs
  rw [pair_eq] at hs
  rw [pair_eq, pair_eq, onLine_key?.append (hc.newline_mem hne)]
  split
  · rfl
  · next key n hk =>
    rw [hk] at hs
    have hne' := hc.drop_ne_nil hne (key?_le hk)
    rw [List.drop_append_of_le_length (key?_le_length hk),
      firm_value _ ds (hc.drop n) hne' hd (by simpa using hs)]

theorem stays_value : Reading.Stays value := by
  intro cs hc hne
  rw [value_eq]
  split
  · refine Token.stays_quoted.andThen (fun s => ?_) cs hc hne
    exact stays_of_le_lineAhead fun cs => Nat.le_refl _
  · refine stays_of_le_lineAhead (fun cs => ?_) cs hc hne
    rw [unquoted]
    split
    · exact Nat.le_refl _
    · trivial

/-- A pair stops at a newline, when there is one at the end. -/
theorem stays_pair : Reading.Stays pair := by
  intro cs hc hne
  rw [pair_eq]
  split
  · trivial
  · next key n hk =>
    have hne' := hc.drop_ne_nil hne (key?_le hk)
    refine (finds_shift ..).2 ((finds_map ..).2 ?_)
    refine (stays_value _ (hc.drop n) hne').mono fun _ m hm => ?_
    rw [List.length_drop] at hm
    omega

theorem newline_eq_lineLength {cs : List Char} (h : lineAhead cs = []) :
    newline cs = lineLength cs := by
  cases cs with
  | nil => rfl
  | cons c cs =>
      have hc : c = '\n' := by
        by_contra hne
        rw [lineAhead_cons hne] at h
        cases h
      subst hc
      simp [newline, lineLength]

theorem AtLineEnd.boundary {cs : List Char} {n : Nat} (h : AtLineEnd cs n) :
    Boundary cs (n + newline (cs.drop n)) := by
  rw [newline_eq_lineLength h.atEnd]
  exact .rest_of_line h.le

/-! ## Blocks -/

/-- How far a pair reaches that stands behind an indent: to the start of
the next line. -/
def pairLine (width : Nat) (cs : List Char) (n : Nat) : Nat :=
  width + n + newline (cs.drop (width + n))

theorem pair_nil : pair [] = .absent := rfl

/-- The pairs of a block, read line by line. -/
theorem pairs_eq (indent : Nat) (cs : List Char) :
    pairs indent cs =
      if (cs.drop (indentWidth cs)).head? = some '\n' then
        (pairs indent (cs.drop (indentWidth cs + 1))).shift (indentWidth cs + 1)
      else if indentWidth cs < indent then .found [] 0
      else
        match pair (cs.drop (indentWidth cs)) with
        | .absent => .found [] 0
        | .broken f => .broken (f.shift (indentWidth cs))
        | .found p n =>
          ((pairs indent (cs.drop (pairLine (indentWidth cs) cs n))).map (p :: ·)).shift
            (pairLine (indentWidth cs) cs n) := by
  rw [pairs]
  split
  · next h => simp [h, pair_nil]
  · next rest h =>
    rw [← List.drop_drop, h]
    rfl
  · next c rest hne h =>
    have hhead : ¬(c :: rest).head? = some '\n' := by simpa using hne
    simp only [h, if_neg hhead]
    split
    · rfl
    · split <;> simp [*, pairLine]

/-- **A block is not changed by text at the margin below it.** -/
theorem pairs_append {indent : Nat} (hindent : 0 < indent) {cs ds : List Char}
    (hc : Complete cs) (hd : AtMargin ds) (hs : (pairs indent cs).Sound) :
    pairs indent (cs ++ ds) = pairs indent cs := by
  have hfront : ∀ cs, Complete cs → cs ≠ [] → cs.drop (indentWidth cs) ≠ [] :=
    fun cs hc hne => hc.drop_ne_nil hne (indentWidth_le_lineAhead cs)
  fun_induction pairs indent cs with
  | case1 cs width h =>
      -- what ends its lines and has nothing behind its indent is empty
      have hnil : cs = [] := by
        by_contra hne
        exact hfront cs hc hne h
      subst hnil
      rw [List.nil_append, pairs_eq, hd.indentWidth_eq_zero, List.drop_zero,
        if_neg hd.head?_ne_newline, if_pos hindent]
  | case2 cs width rest h ih =>
      have hrest : cs.drop (width + 1) = rest := drop_of_blank h
      have hlen : width + 1 ≤ cs.length := by
        have := congrArg List.length h
        rw [List.length_drop, List.length_cons] at this
        omega
      rw [pairs_eq, drop_indentWidth_append hc hd, indentWidth_append hc hd, h,
        List.cons_append, List.head?_cons, if_pos rfl, List.drop_append_of_le_length hlen, hrest,
        ih (hrest ▸ hc.drop _) ((sound_shift _ _).1 hs)]
  | case3 cs width c rest hne h hlt =>
      rw [pairs_eq, drop_indentWidth_append hc hd, indentWidth_append hc hd, h,
        if_neg (by simpa using hne), if_pos hlt]
  | case4 cs width c rest hne h hlt hp =>
      have hpair := firm_pair (c :: rest) ds (h ▸ hc.drop _) (by simp) hd (by simp [hp])
      rw [pairs_eq, drop_indentWidth_append hc hd, indentWidth_append hc hd, h,
        if_neg (by simpa using hne), if_neg hlt, hpair, hp]
  | case5 cs width c rest hne h hlt f hp => exact absurd hs (not_sound_broken _)
  | case6 cs width c rest hne h hlt p n hp m ih =>
      have hpair := firm_pair (c :: rest) ds (h ▸ hc.drop _) (by simp) hd (by simp [hp])
      have hlen : width + n < cs.length := by
        have h1 : n < (c :: rest).length := (stays_pair _ (h ▸ hc.drop _) (by simp)).of_eq hp
        have h2 := congrArg List.length h
        rw [List.length_drop] at h2
        omega
      have hm : pairLine (indentWidth cs) (cs ++ ds) n = m := by
        have hhead : ((cs ++ ds).drop (width + n)).head? = (cs.drop (width + n)).head? := by
          have hcons : cs.drop (width + n) ≠ [] := by simpa using hlen
          rw [List.drop_append_of_le_length (by omega), List.head?_append,
            List.head?_eq_some_head hcons, Option.some_or]
        show width + n + newline _ = width + n + newline _
        rw [newline, newline, hhead]
      have hle : m ≤ cs.length := by
        have h1 : AtLineEnd (cs.drop width) n := h ▸ (pair_atLineEnd (c :: rest)).of_eq hp
        have := h1.boundary.le
        rw [List.drop_drop, List.length_drop] at this
        omega
      rw [pairs_eq, drop_indentWidth_append hc hd, indentWidth_append hc hd, h,
        if_neg (by simpa using hne), if_neg hlt, hpair, hp]
      simp only
      rw [hm, List.drop_append_of_le_length hle,
        ih (hc.drop m) ((sound_map _ _).1 ((sound_shift _ _).1 hs))]

/-- A block ends at a boundary. -/
theorem pairs_boundary (indent : Nat) (cs : List Char) :
    (pairs indent cs).Finds fun _ n => Boundary cs n := by
  fun_induction pairs indent cs with
  | case1 cs width h => exact boundary_zero cs
  | case2 cs width rest h ih =>
      have hrest : cs.drop (width + 1) = rest := drop_of_blank h
      have hline : Boundary cs (width + 1) := lineLength_of_blank h ▸ boundary_lineLength cs
      exact (finds_shift ..).2 (ih.mono fun _ n hn => hline.add (hrest ▸ hn))
  | case3 cs width c rest hne h hlt => exact boundary_zero cs
  | case4 cs width c rest hne h hlt hp => exact boundary_zero cs
  | case5 cs width c rest hne h hlt f hp => trivial
  | case6 cs width c rest hne h hlt p n hp m ih =>
      have hend : AtLineEnd cs (width + n) := by
        have h1 : AtLineEnd (cs.drop width) n := h ▸ (pair_atLineEnd (c :: rest)).of_eq hp
        have h2 := h1.le
        rw [List.length_drop] at h2
        have h3 := indentWidth_le cs
        exact ⟨by omega, by rw [← List.drop_drop]; exact h1.atEnd⟩
      refine (finds_shift ..).2 ((finds_map ..).2 (ih.mono fun _ k hk => ?_))
      exact hend.boundary.add hk

theorem block_eq (indent : Nat) (cs : List Char) :
    block indent cs = match pairs indent cs with
      | .found [] _ => .absent
      | r => r.map Pairs.collect := rfl

theorem block_append {indent : Nat} (hindent : 0 < indent) {cs ds : List Char}
    (hc : Complete cs) (hd : AtMargin ds) (hs : (block indent cs).Sound) :
    block indent (cs ++ ds) = block indent cs := by
  have hpairs : (pairs indent cs).Sound := by
    rw [block_eq] at hs
    split at hs
    · next h => simp [h]
    · exact (sound_map _ _).1 hs
  rw [block_eq, block_eq, pairs_append hindent hc hd hpairs]

theorem block_boundary (indent : Nat) (cs : List Char) :
    (block indent cs).Finds fun _ n => Boundary cs n := by
  rw [block_eq]
  split
  · trivial
  · exact (finds_map ..).2 (pairs_boundary indent cs)

theorem blockOrEmpty_eq (indent : Nat) (cs : List Char) :
    blockOrEmpty indent cs = match block indent cs with
      | .absent => .found [] 0
      | r => r := rfl

theorem blockOrEmpty_append {indent : Nat} (hindent : 0 < indent) {cs ds : List Char}
    (hc : Complete cs) (hd : AtMargin ds) (hs : (blockOrEmpty indent cs).Sound) :
    blockOrEmpty indent (cs ++ ds) = blockOrEmpty indent cs := by
  have hblock : (block indent cs).Sound := by
    rw [blockOrEmpty_eq] at hs
    split at hs
    · next h => simp [h]
    · exact hs
  rw [blockOrEmpty_eq, blockOrEmpty_eq, block_append hindent hc hd hblock]

theorem blockOrEmpty_boundary (indent : Nat) (cs : List Char) :
    (blockOrEmpty indent cs).Finds fun _ n => Boundary cs n := by
  rw [blockOrEmpty_eq]
  split
  · exact boundary_zero cs
  · exact block_boundary indent cs

end Daybook.Metadata
