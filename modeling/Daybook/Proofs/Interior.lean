import Daybook.Proofs.Quotes

/-!
# Interior — the lines of an entry behind its first

When quotes come in pairs on every line, an entry takes nothing of what
starts at the margin but its first line and comments: each further line
is indented, blank, or starts with a semicolon (`Interior`). The property
adds up over consecutive runs of lines, so it is shown run by run.
-/

namespace Daybook

open Daybook.Text Daybook.Reading

namespace Text

/-- The text starts with white space or a semicolon. -/
def Hung (cs : List Char) : Prop := ∃ c, cs.head? = some c ∧ (isBlank c = true ∨ c = ';')

/-- Every line that starts at `m` or behind it and before `n` is of this
kind. -/
def Throughout (P : List Char → Prop) (cs : List Char) (m n : Nat) : Prop :=
  ∀ p, m ≤ p → p < n → Complete (cs.take p) → P (cs.drop p)

/-- Every line that starts at `m` or behind it and before `n` is hung. -/
def Interior (cs : List Char) (m n : Nat) : Prop :=
  ∀ p, m ≤ p → p < n → Complete (cs.take p) → Hung (cs.drop p)

/-- Quotes come in pairs on every line of the text. -/
def Tidy (cs : List Char) : Prop := ∀ p, Complete (cs.take p) → Paired (cs.drop p)

theorem Tidy.paired {cs : List Char} (h : Tidy cs) : Paired cs := h 0 complete_nil

/-- What holds of every line of a text holds of the lines below a
boundary. -/
theorem lines_drop {P : List Char → Prop} (hnil : P []) {cs : List Char}
    (h : ∀ p, Complete (cs.take p) → P (cs.drop p)) {m : Nat} (hm : Boundary cs m) {p : Nat}
    (hp : Complete ((cs.drop m).take p)) : P ((cs.drop m).drop p) := by
  rcases hm.ends with hover | hc
  · rwa [hover, List.drop_nil]
  · rw [List.drop_drop]
    refine h (m + p) ?_
    rw [List.take_add]
    exact hc.append hp

/-- Below a boundary the text is as tidy as the whole. -/
theorem Tidy.drop {cs : List Char} (h : Tidy cs) {m : Nat} (hm : Boundary cs m) :
    Tidy (cs.drop m) := fun _ hp => lines_drop paired_nil h hm hp

/-- The lines below a place end if those of the text do. -/
theorem Complete.take_drop {cs : List Char} {m q : Nat} (h : Complete (cs.take (m + q))) :
    Complete ((cs.drop m).take q) := by
  have hd := h.drop m
  rwa [List.drop_take, Nat.add_sub_cancel_left] at hd

/-- A part of a line does not end it. -/
theorem not_complete_take {cs : List Char} {p : Nat} (h1 : 1 ≤ p)
    (hp : p ≤ (lineAhead cs).length) : ¬Complete (cs.take p) := by
  intro hc
  have htake : cs.take p <+: lineAhead cs :=
    List.prefix_of_prefix_length_le (List.take_prefix p cs) (lineAhead_isPrefix cs)
      (Nat.le_trans (List.length_take_le p cs) hp)
  have hne : cs.take p ≠ [] := by
    intro hnil
    have hlen := congrArg List.length hnil
    have := lineAhead_length_le cs
    rw [List.length_take, List.length_nil] at hlen
    omega
  exact absurd (htake.subset (hc.newline_mem hne)) (newline_notMem_lineAhead cs)

section Throughout

variable {P Q : List Char → Prop} {cs : List Char} {a m n : Nat}

theorem throughout_of_le (h : n ≤ m) : Throughout P cs m n := by
  intro p hm hn
  omega

theorem Throughout.mono (h : Throughout P cs m n) (hpq : ∀ ds, P ds → Q ds) :
    Throughout Q cs m n := fun p hm hn hc => hpq _ (h p hm hn hc)

/-- Runs of lines add up. -/
theorem Throughout.add (hm : Throughout P cs a m) (hn : Throughout P (cs.drop m) 0 n) :
    Throughout P cs a (m + n) := by
  intro p ha hp hc
  by_cases h : p < m
  · exact hm p ha h hc
  · obtain ⟨q, rfl⟩ := Nat.exists_eq_add_of_le (Nat.le_of_not_lt h)
    rw [← List.drop_drop]
    exact hn q (Nat.zero_le q) (by omega) hc.take_drop

/-- No line starts inside a line. -/
theorem throughout_lineLength (P : List Char → Prop) (cs : List Char) :
    Throughout P cs 1 (lineLength cs) := by
  intro p h1 hp hc
  have hle : p ≤ (lineAhead cs).length := by
    rw [lineLength] at hp
    split at hp <;> omega
  exact absurd hc (not_complete_take h1 hle)

/-- The line at the front decides for itself. -/
theorem throughout_line (h : P cs) : Throughout P cs 0 (lineLength cs) := by
  intro p _ hp hc
  cases p with
  | zero => exact h
  | succ p => exact throughout_lineLength P cs (p + 1) (by omega) hp hc

end Throughout

theorem interior_of_le {cs : List Char} {m n : Nat} (h : n ≤ m) : Interior cs m n :=
  throughout_of_le h

theorem Interior.add {cs : List Char} {a m n : Nat} (hm : Interior cs a m)
    (hn : Interior (cs.drop m) 0 n) : Interior cs a (m + n) := Throughout.add hm hn

theorem interior_lineLength (cs : List Char) : Interior cs 1 (lineLength cs) :=
  throughout_lineLength Hung cs

theorem Hung.interior {cs : List Char} (h : Hung cs) : Interior cs 0 (lineLength cs) :=
  throughout_line h

theorem hung_of_indent {cs : List Char} (h : 0 < indentWidth cs) : Hung cs := by
  cases cs with
  | nil => exact absurd h (Nat.lt_irrefl 0)
  | cons c cs =>
      refine ⟨c, rfl, .inl ?_⟩
      by_contra hb
      have hi : isIndent c ≠ true := fun hi => hb (isBlank_of_isIndent hi)
      rw [indentWidth, List.takeWhile_cons_of_neg hi] at h
      exact absurd h (Nat.lt_irrefl 0)

/-- A line that holds a newline or a comment behind its indent is
hung. -/
theorem hung_of_front {cs : List Char}
    (h : (cs.drop (indentWidth cs)).head?.any (fun c => c == '\n' || c == ';') = true) :
    Hung cs := by
  by_cases hw : 0 < indentWidth cs
  · exact hung_of_indent hw
  · rw [Nat.eq_zero_of_not_pos hw, List.drop_zero] at h
    cases cs with
    | nil => simp at h
    | cons c cs =>
        have hc : c = '\n' ∨ c = ';' := by simpa using h
        rcases hc with rfl | rfl
        · exact ⟨_, rfl, .inl isBlank_newline⟩
        · exact ⟨_, rfl, .inr rfl⟩

theorem interior_blankLines (cs : List Char) : Interior cs 0 (blankLines cs) := by
  fun_induction blankLines cs with
  | case1 cs next h ih =>
      rw [← drop_indentWidth] at h
      have hhung : Hung cs := hung_of_front (by rw [h]; rfl)
      refine Interior.add ?_ (drop_of_blank h ▸ ih)
      rw [← lineLength_of_blank h]
      exact hhung.interior
  | case2 cs _ => exact interior_of_le (Nat.le_refl 0)

end Text

/-! ## Metadata -/

namespace Metadata

theorem confined_value : Confined value := by
  intro cs hp
  rw [value_eq]
  split
  · exact Confined.andThen Token.pairing_quoted
      (fun s => confined_of_le fun cs => Nat.le_refl _) cs hp
  · exact unquoted_le_lineAhead cs

theorem quoteless_keyEnd {cs : List Char} {n : Nat} (h : keyEnd cs = some n) (hp : Paired cs) :
    Paired (cs.drop n) := by
  have hle := keyEnd_le ((onLine_keyEnd cs).trans h)
  rw [keyEnd] at h
  split at h
  · next rest hd =>
    split at h
    · cases h
      have hcolon : Paired (':' :: rest) := hd ▸ hp.drop_indentWidth
      have hrest : Paired rest := by
        have hone : 1 ≤ (lineAhead (':' :: rest)).length := by
          rw [lineAhead_cons (by decide)]
          simp
        exact hcolon.drop hone (by simp)
      rw [← List.drop_drop, ← List.drop_drop, hd]
      exact hrest.drop_indentWidth
    · simp at h
  · simp at h

theorem paired_key? {cs key : List Char} {n : Nat} (h : key? cs = some (key, n))
    (hp : Paired cs) : Paired (cs.drop n) := by
  rw [key?_eq] at h
  obtain ⟨k, hk, h⟩ := Option.bind_eq_some_iff.1 h
  obtain ⟨m, hm, heq⟩ := Option.map_eq_some_iff.1 h
  cases heq
  have hkey : Paired (cs.drop key.length) := by
    refine hp.drop (Lexeme.headed_isPrefix ((onLine_key cs).trans hk)).length_le ?_
    rw [← List.prefix_iff_eq_take.1 (Lexeme.headed_isPrefix hk)]
    exact Lexeme.quoteless_headed (by decide) (by decide) cs key hk
  rw [← List.drop_drop]
  exact quoteless_keyEnd hm hkey

theorem confined_pair : Confined pair := by
  intro cs hp
  rw [pair_eq]
  split
  · trivial
  · next key n hk =>
    refine (finds_shift ..).2 ((finds_map ..).2 ?_)
    exact (confined_value _ (paired_key? hk hp)).mono fun _ m hm =>
      add_le_lineAhead (key?_le hk) hm

/-- A pair that stays on its line takes the line. -/
theorem pairLine_eq {cs : List Char} {width n : Nat} {p : String × Scalar}
    (hw : width ≤ (lineAhead cs).length) (hn : n ≤ (lineAhead (cs.drop width)).length)
    (h : pair (cs.drop width) = .found p n) : pairLine width cs n = lineLength cs := by
  have hend : AtLineEnd (cs.drop width) n := (pair_atLineEnd _).of_eq h
  have hnewline : newline (cs.drop (width + n)) = lineLength (cs.drop (width + n)) := by
    refine newline_eq_lineLength ?_
    rw [← List.drop_drop]
    exact hend.atEnd
  rw [pairLine, hnewline, lineLength_drop (add_le_lineAhead hw hn)]

/-- The pairs behind the indents of the lines stay on their lines. -/
def PairsStay (cs : List Char) : Prop :=
  ∀ p, Complete (cs.take p) →
    (pair ((cs.drop p).drop (indentWidth (cs.drop p)))).Finds fun _ n =>
      n ≤ (lineAhead ((cs.drop p).drop (indentWidth (cs.drop p)))).length

theorem pairsStay_of_tidy {cs : List Char} (h : Tidy cs) : PairsStay cs :=
  fun p hp => confined_pair _ (h p hp).drop_indentWidth

theorem PairsStay.drop {cs : List Char} (h : PairsStay cs) {m : Nat} (hm : Boundary cs m) :
    PairsStay (cs.drop m) := by
  intro p hp
  exact lines_drop (P := fun ds => (pair (ds.drop (indentWidth ds))).Finds fun _ n =>
    n ≤ (lineAhead (ds.drop (indentWidth ds))).length) trivial h hm hp

/-- **What a block takes**: hung lines, and lines of pairs that are
indented enough. -/
theorem pairs_throughout {P : List Char → Prop} {indent : Nat} (hhung : ∀ ds, Hung ds → P ds)
    (hpair : ∀ ds, indent ≤ indentWidth ds → pair (ds.drop (indentWidth ds)) ≠ .absent → P ds)
    {cs : List Char} (h : PairsStay cs) :
    (pairs indent cs).Finds fun _ n => Throughout P cs 0 n := by
  fun_induction pairs indent cs with
  | case1 | case3 | case4 => exact throughout_of_le (Nat.le_refl 0)
  | case2 cs width rest hd ih =>
      have hrest : cs.drop (width + 1) = rest := drop_of_blank hd
      have hline : width + 1 = lineLength cs := (lineLength_of_blank hd).symm
      have hblank : P cs := hhung cs (hung_of_front (by rw [hd]; rfl))
      have hstay : PairsStay rest := by
        rw [← hrest, hline]
        exact h.drop (boundary_lineLength cs)
      refine (finds_shift ..).2 ((ih hstay).mono fun _ n hn => ?_)
      refine Throughout.add ?_ (hrest ▸ hn)
      rw [hline]
      exact throughout_line hblank
  | case5 => trivial
  | case6 cs width c rest hne hd hlt p n hp m ih =>
      have hfound : pair (cs.drop (indentWidth cs)) = .found p n := by
        rw [hd]
        exact hp
      have hm : m = lineLength cs :=
        pairLine_eq (indentWidth_le_lineAhead cs) ((h 0 complete_nil).of_eq hfound) hfound
      have hfront : P cs := hpair cs (Nat.le_of_not_lt hlt) (by simp [hfound])
      refine (finds_shift ..).2 ((finds_map ..).2 ?_)
      rw [hm] at ih ⊢
      refine (ih (h.drop (boundary_lineLength cs))).mono fun _ k hk => ?_
      exact (throughout_line hfront).add hk

theorem pairs_interior {indent : Nat} (hindent : 0 < indent) {cs : List Char}
    (h : PairsStay cs) : (pairs indent cs).Finds fun _ n => Interior cs 0 n :=
  pairs_throughout (fun _ hd => hd)
    (fun _ hw _ => hung_of_indent (Nat.lt_of_lt_of_le hindent hw)) h

theorem block_interior {indent : Nat} (hindent : 0 < indent) {cs : List Char}
    (h : PairsStay cs) : (block indent cs).Finds fun _ n => Interior cs 0 n := by
  have := pairs_interior hindent h
  rw [block_eq]
  split
  · trivial
  · exact (finds_map ..).2 this

theorem blockOrEmpty_interior {indent : Nat} (hindent : 0 < indent) {cs : List Char}
    (h : PairsStay cs) : (blockOrEmpty indent cs).Finds fun _ n => Interior cs 0 n := by
  have := block_interior hindent h
  rw [blockOrEmpty_eq]
  split
  · exact interior_of_le (Nat.le_refl 0)
  · exact this

end Metadata

/-! ## Transactions -/

namespace Transaction

theorem idleLines_interior (cs : List Char) : Interior cs 0 (idleLines cs) := by
  fun_induction idleLines cs with
  | case1 cs h => exact interior_of_le (Nat.le_refl 0)
  | case2 cs c rest h hc ih =>
      have hhung : Hung cs := hung_of_front (by rw [h]; simpa using hc)
      exact hhung.interior.add ih
  | case3 cs c rest h hc => exact interior_of_le (Nat.le_refl 0)

/-- A line of a body takes its line, and whole lines below. -/
theorem bodyLine_interior {cs : List Char} (hp : Paired cs)
    (h : Tidy (cs.drop (lineLength cs))) :
    (bodyLine cs).Finds fun _ n =>
      ∃ k, n = lineLength cs + k ∧ Interior (cs.drop (lineLength cs)) 0 k := by
  have hnone : Interior (cs.drop (lineLength cs)) 0 0 := interior_of_le (Nat.le_refl 0)
  rw [bodyLine_eq]
  split
  · exact ⟨0, rfl, hnone⟩
  · split
    · next p n hpair =>
      have hline : Metadata.pairLine 0 cs n = lineLength cs :=
        Metadata.pairLine_eq (Nat.zero_le _)
          (by simpa using (Metadata.confined_pair cs hp).of_eq hpair) (by simpa using hpair)
      rw [Metadata.pairLine, Nat.zero_add] at hline
      exact ⟨0, by rw [hline, Nat.add_zero], hnone⟩
    · trivial
    · refine (finds_map ..).2 ?_
      rw [posting_eq]
      split
      · trivial
      · refine (finds_shift ..).2 ((finds_map ..).2 ?_)
        have hstay := Metadata.pairsStay_of_tidy h
        exact (Metadata.blockOrEmpty_interior (by decide) hstay).mono fun _ k hk => ⟨k, rfl, hk⟩

theorem body_interior {cs : List Char} (h : Tidy cs) :
    (body cs).Finds fun _ n => Interior cs 0 n := by
  fun_induction body cs with
  | case1 | case2 => exact interior_of_le (Nat.le_refl 0)
  | case3 => trivial
  | case4 cs front hlt l n hl ih =>
      have hblank := boundary_blankLines cs
      have htidy := h.drop hblank
      have hwidth := indentWidth_le_lineAhead (cs.drop (blankLines cs))
      have hpos : 0 < indentWidth (cs.drop (blankLines cs)) :=
        Nat.lt_of_lt_of_le (by decide) (Nat.le_of_not_lt hlt)
      -- the line at the front, its indent counted
      have hline := lineLength_drop hwidth
      have hbelow : ((cs.drop (blankLines cs)).drop (indentWidth (cs.drop (blankLines cs)))).drop
          (lineLength ((cs.drop (blankLines cs)).drop (indentWidth (cs.drop (blankLines cs))))) =
          (cs.drop (blankLines cs)).drop (lineLength (cs.drop (blankLines cs))) := by
        rw [List.drop_drop, hline]
      have hdrop : cs.drop front =
          (cs.drop (blankLines cs)).drop (indentWidth (cs.drop (blankLines cs))) :=
        (List.drop_drop ..).symm
      have hfront := bodyLine_interior htidy.paired.drop_indentWidth
        (hbelow ▸ htidy.drop (boundary_lineLength _))
      rw [← hdrop] at hfront
      obtain ⟨k, hk, hinner⟩ := hfront.of_eq hl
      rw [hdrop, hbelow] at hinner
      have hrun : Interior cs 0 (front + n) := by
        have hlines := (hung_of_indent hpos).interior.add hinner
        have hsum : front + n = blankLines cs + (lineLength (cs.drop (blankLines cs)) + k) := by
          rw [hdrop] at hk
          rw [hk, ← hline]
          show blankLines cs + indentWidth (cs.drop (blankLines cs)) + _ = _
          omega
        rw [hsum]
        exact (interior_blankLines cs).add hlines
      have hbound : Boundary cs (front + n) := bodyLine_front_boundary hl (bodyLine_pos hl).1
      refine (finds_shift ..).2 ((finds_map ..).2 ?_)
      exact (ih (h.drop hbound)).mono fun _ m hm => hrun.add hm

/-- **A transaction takes its first line, and hung lines below.** -/
theorem read_interior {cs : List Char} (h : Tidy cs) :
    (read cs).Finds fun _ n => Interior cs 1 n := by
  rw [read_eq]
  refine finds_andThen ((confined_header cs h.paired).mono fun header k hk => ?_)
  have hline := lineLength_drop hk
  have hfirst : Interior cs 1 (k + lineLength (cs.drop k)) := by
    rw [hline]
    exact interior_lineLength cs
  unfold afterHeader
  split
  · exact hfirst
  · refine (finds_shift ..).2 (finds_andThen ?_)
    have htidy : Tidy ((cs.drop k).drop (lineLength (cs.drop k))) := by
      rw [List.drop_drop, hline]
      exact h.drop (boundary_lineLength cs)
    refine (body_interior htidy).mono fun b m hm => ?_
    have hbody := hm.add (idleLines_interior _)
    show Interior cs 1 (k + (lineLength (cs.drop k) + _))
    rw [← Nat.add_assoc]
    refine hfirst.add ?_
    rwa [← List.drop_drop]

end Transaction

/-! ## Directives and recovered lines -/

namespace Directive

theorem metadataBelow_interior {cs : List Char} (h : Metadata.PairsStay cs) :
    (metadataBelow cs).Finds fun _ n => Interior cs 0 n := by
  have hblock : (Metadata.block metadataIndent cs).Finds fun _ n => Interior cs 0 n :=
    Metadata.block_interior (by decide) h
  rw [metadataBelow_eq]
  split
  · exact interior_of_le (Nat.le_refl 0)
  · next m n hm => exact (hblock.of_eq hm).add (interior_blankLines _)
  · trivial

theorem afterFields_interior (kind : String) (values : Pairs Value) {cs : List Char}
    (h : Metadata.PairsStay (cs.drop (lineLength cs))) :
    (afterFields kind values cs).Finds fun _ n =>
      ∃ k, n = lineLength cs + k ∧ Interior (cs.drop (lineLength cs)) 0 k := by
  refine (finds_shift ..).2 (finds_andThen ?_)
  refine (metadataBelow_interior h).mono fun m k hk => ?_
  refine (stamped_length ..).mono fun _ n hn => ⟨k, by rw [hn, Nat.add_zero], hk⟩

/-- **A builtin directive takes its first line, and hung lines below.** -/
theorem body_interior {source : String} {d : Directive}
    (hd : d ∈ (Builtin.grammar source).directives) {cs : List Char} (h : Tidy cs) :
    (d.body Builtin.registry cs).Finds fun _ n => Interior cs 1 n := by
  rcases Builtin.directive_cases hd with ⟨kind, fields, word, shapes, rfl, hs, hmem⟩ | rfl
  · show (readSchema Builtin.registry kind fields cs).Finds _
    rw [readSchema_eq]
    refine finds_andThen ((hs.confined hmem cs h.paired).mono fun values k hk => ?_)
    have hline := lineLength_drop hk
    have htidy : Tidy ((cs.drop k).drop (lineLength (cs.drop k))) := by
      rw [List.drop_drop, hline]
      exact h.drop (boundary_lineLength cs)
    have hstay := Metadata.pairsStay_of_tidy htidy
    refine (afterFields_interior kind values hstay).mono fun _ n hn => ?_
    obtain ⟨m, rfl, hm⟩ := hn
    rw [List.drop_drop, hline] at hm
    rw [← Nat.add_assoc, hline]
    exact (interior_lineLength cs).add hm
  · exact Transaction.read_interior h

end Directive

namespace Recovery

theorem length_line (l rest : List Char) (h : '\n' ∉ l) :
    length (l ++ '\n' :: rest) = l.length + 1 + if continues rest then length rest else 0 := by
  rw [length, extent_line l rest h]
  split
  · have hdrop : (l ++ '\n' :: rest).drop (l.length + (1 + extent rest))
        = rest.drop (extent rest) := by
      rw [List.drop_length_add_append, Nat.add_comm, List.drop_succ_cons]
    rw [hdrop, length]
    omega
  · rw [Nat.add_zero, List.drop_left, if_neg (List.cons_ne_nil _ _)]

/-- A recovered entry takes its first line, and indented lines below. -/
theorem length_interior (cs : List Char) : Interior cs 1 (length cs) := by
  induction cs using line_induction with
  | last l hl =>
      have hlength : length l = lineLength l := by
        rw [length, extent_last hl, List.drop_length, lineLength_eq_length hl]
        rfl
      rw [hlength]
      exact interior_lineLength l
  | line l rest hl ih =>
      have hfirst := interior_lineLength (l ++ '\n' :: rest)
      rw [lineLength_line l rest hl] at hfirst
      rw [length_line l rest hl]
      split
      · next hcont =>
        have hpos : 0 < indentWidth rest := by
          simp only [continues, Bool.and_eq_true, decide_eq_true_eq] at hcont
          exact Nat.lt_of_lt_of_le (by decide) hcont.1
        refine hfirst.add ?_
        rw [drop_line]
        intro p _ hp hc
        cases p with
        | zero => exact hung_of_indent hpos
        | succ p => exact ih (p + 1) (by omega) hp hc
      · exact hfirst

end Recovery

namespace Grammar

/-- **In a tidy text, an entry takes nothing that starts at the margin**
but its first line and comments. -/
theorem entryAt_interior {source : String} {c : Cursor} (h : Tidy c.rest) {e : Entry} {n : Nat}
    (he : (Builtin.grammar source).entryAt c = .ok (e, n)) : Interior c.rest 1 n :=
  entryAt_length (P := fun n => Interior c.rest 1 n) (Builtin.ofShape_grammar source)
    (fun _ hd => Directive.body_interior hd h) (Recovery.length_interior c.rest) he

end Grammar
end Daybook
