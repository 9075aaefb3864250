import Daybook.Text.Line
import Mathlib.Data.List.TakeWhile

/-!
# Line — what a line hides

Only the newline ends a line. The functions of this module that look at
the characters ahead either stop at the newline (`OnLine`: to them the
newline is the end of the text) or step over whole lines; both kinds are
blind to what is written further down, as long as the text before it
ends its last line (`Complete`) and the text below starts at the margin
(`AtMargin`).
-/

namespace Daybook.Text

/-! ## The line at the front -/

/-- `f` sees nothing behind the line at the front: the newline looks to
it like the end of the text. -/
def OnLine {β : Type} (f : List Char → β) : Prop :=
  ∀ cs, f (lineAhead cs) = f cs

theorem newline_notMem_lineAhead (cs : List Char) : '\n' ∉ lineAhead cs := by
  intro h
  have := List.mem_takeWhile_imp h
  simp at this

theorem lineAhead_isPrefix (cs : List Char) : lineAhead cs <+: cs :=
  List.takeWhile_prefix _

theorem lineAhead_length_le (cs : List Char) : (lineAhead cs).length ≤ cs.length :=
  (lineAhead_isPrefix cs).length_le

/-- Before a place of the line stand characters of the line. -/
theorem take_subset_lineAhead {cs : List Char} {p : Nat} (hp : p ≤ (lineAhead cs).length) :
    cs.take p ⊆ lineAhead cs :=
  (List.prefix_of_prefix_length_le (List.take_prefix p cs) (lineAhead_isPrefix cs)
    (Nat.le_trans (List.length_take_le p cs) hp)).subset

theorem lineAhead_eq_self {cs : List Char} (h : '\n' ∉ cs) : lineAhead cs = cs := by
  rw [lineAhead, List.takeWhile_eq_self_iff]
  intro c hc
  have hne : c ≠ '\n' := fun he => h (he ▸ hc)
  simpa using hne

@[simp] theorem lineAhead_nil : lineAhead [] = [] := rfl

@[simp] theorem lineAhead_newline (cs : List Char) : lineAhead ('\n' :: cs) = [] := rfl

theorem lineAhead_cons {c : Char} (h : c ≠ '\n') (cs : List Char) :
    lineAhead (c :: cs) = c :: lineAhead cs := by
  simp [lineAhead, h]

theorem lineAhead_line (l rest : List Char) (h : '\n' ∉ l) :
    lineAhead (l ++ '\n' :: rest) = l := by
  rw [lineAhead, List.takeWhile_append_of_pos, List.takeWhile_cons_of_neg]
  · simp
  · simp
  · intro c hc
    have hne : c ≠ '\n' := fun he => h (he ▸ hc)
    simpa using hne

/-- A text is its first line and what comes behind it. -/
theorem lineAhead_append_dropWhile (cs : List Char) :
    lineAhead cs ++ cs.dropWhile (· != '\n') = cs :=
  List.takeWhile_append_dropWhile

theorem drop_takeWhile_length (p : Char → Bool) (cs : List Char) :
    cs.drop (cs.takeWhile p).length = cs.dropWhile p := by
  have h : (cs.takeWhile p ++ cs.dropWhile p).drop (cs.takeWhile p).length = cs.dropWhile p :=
    List.drop_left
  rwa [List.takeWhile_append_dropWhile] at h

theorem drop_lineAhead (cs : List Char) :
    cs.drop (lineAhead cs).length = cs.dropWhile (· != '\n') :=
  drop_takeWhile_length _ cs

/-- The line ends in a newline, or the text ends with it. -/
theorem dropWhile_newline (cs : List Char) :
    cs.dropWhile (· != '\n') = [] ∨ ∃ rest, cs.dropWhile (· != '\n') = '\n' :: rest := by
  induction cs with
  | nil => exact .inl rfl
  | cons c cs ih =>
      by_cases hc : c = '\n'
      · exact .inr ⟨cs, by simp [hc]⟩
      · simpa [List.dropWhile_cons, hc] using ih

/-- The two shapes of a text: one line without an end, or a line, its
newline and the rest. -/
theorem line_cases (cs : List Char) :
    ('\n' ∉ cs ∧ lineAhead cs = cs) ∨
      ∃ l rest, '\n' ∉ l ∧ cs = l ++ '\n' :: rest := by
  rcases dropWhile_newline cs with h | ⟨rest, h⟩
  · have hl : lineAhead cs = cs := by
      have := lineAhead_append_dropWhile cs
      rwa [h, List.append_nil] at this
    exact .inl ⟨hl ▸ newline_notMem_lineAhead cs, hl⟩
  · exact .inr ⟨lineAhead cs, rest, newline_notMem_lineAhead cs, by
      rw [← h, lineAhead_append_dropWhile]⟩

/-- **Induction on the lines of a text.** -/
theorem line_induction {P : List Char → Prop} (last : ∀ l, '\n' ∉ l → P l)
    (line : ∀ l rest, '\n' ∉ l → P rest → P (l ++ '\n' :: rest)) (cs : List Char) : P cs := by
  induction hlen : cs.length using Nat.strong_induction_on generalizing cs with
  | _ k ih =>
      rcases line_cases cs with ⟨hn, -⟩ | ⟨l, rest, hl, rfl⟩
      · exact last cs hn
      · refine line l rest hl (ih rest.length ?_ rest rfl)
        rw [List.length_append, List.length_cons] at hlen
        omega

theorem lineAhead_idem (cs : List Char) : lineAhead (lineAhead cs) = lineAhead cs :=
  lineAhead_eq_self (newline_notMem_lineAhead cs)

/-- Behind a part of the line, the rest of the line is ahead. -/
theorem lineAhead_drop {cs : List Char} {n : Nat} (h : n ≤ (lineAhead cs).length) :
    lineAhead (cs.drop n) = (lineAhead cs).drop n := by
  rcases line_cases cs with ⟨hn, hl⟩ | ⟨l, rest, hl, rfl⟩
  · rw [hl, lineAhead_eq_self fun hm => hn (List.mem_of_mem_drop hm)]
  · rw [lineAhead_line l rest hl] at h ⊢
    rw [List.drop_append_of_le_length h,
      lineAhead_line _ _ fun hm => hl (List.mem_of_mem_drop hm)]

/-- Text behind a newline is out of sight. -/
theorem lineAhead_append {cs : List Char} (h : '\n' ∈ cs) (ds : List Char) :
    lineAhead (cs ++ ds) = lineAhead cs := by
  rcases line_cases cs with ⟨hn, -⟩ | ⟨l, rest, hl, rfl⟩
  · exact absurd h hn
  · rw [List.append_assoc, List.cons_append, lineAhead_line _ _ hl, lineAhead_line _ _ hl]

theorem OnLine.append {β : Type} {f : List Char → β} (hf : OnLine f) {cs : List Char}
    (h : '\n' ∈ cs) (ds : List Char) : f (cs ++ ds) = f cs := by
  rw [← hf, lineAhead_append h, hf]

theorem OnLine.comp {β γ : Type} {f : List Char → β} (hf : OnLine f) (g : β → γ) :
    OnLine fun cs => g (f cs) := by
  intro cs
  show g _ = g _
  rw [hf]

/-- It is enough that a newline ends what `f` sees, and that behind any
other character it sees the line only. -/
theorem onLine_of_cons {β : Type} {f : List Char → β} (newline : ∀ cs, f ('\n' :: cs) = f [])
    (cons : ∀ c cs, c ≠ '\n' → f (c :: lineAhead cs) = f (c :: cs)) : OnLine f := by
  intro cs
  cases cs with
  | nil => rfl
  | cons c cs =>
      by_cases hc : c = '\n'
      · subst hc
        exact (newline cs).symm
      · rw [lineAhead_cons hc]
        exact cons c cs hc

/-- What looks at the next character only sees nothing further down. -/
theorem onLine_head? {β : Type} {f : Option Char → β} (h : f (some '\n') = f none) :
    OnLine fun cs => f cs.head? := onLine_of_cons (fun _ => h) fun _ _ _ => rfl

/-- A run of characters that are no newlines stays on the line. -/
theorem onLine_takeWhile {p : Char → Bool} (hp : p '\n' = false) :
    OnLine (List.takeWhile p) := by
  intro cs
  induction cs with
  | nil => rfl
  | cons c cs ih =>
      by_cases hc : c = '\n'
      · subst hc
        simp [hp]
      · rw [lineAhead_cons hc, List.takeWhile_cons, List.takeWhile_cons, ih]

theorem takeWhile_le_lineAhead {p : Char → Bool} (hp : p '\n' = false) (cs : List Char) :
    (cs.takeWhile p).length ≤ (lineAhead cs).length := by
  rw [← onLine_takeWhile hp]
  exact (List.takeWhile_prefix p).length_le

/-- Whether a word without newlines comes first, the line decides. -/
theorem onLine_isPrefixOf {w : List Char} (hw : '\n' ∉ w) : OnLine w.isPrefixOf := by
  intro cs
  induction w generalizing cs with
  | nil => rfl
  | cons x w ih =>
      cases cs with
      | nil => rfl
      | cons c cs =>
          by_cases hc : c = '\n'
          · subst hc
            have hx : x ≠ '\n' := fun hx => hw (by simp [hx])
            simp [List.isPrefixOf_cons_cons, hx]
          · rw [lineAhead_cons hc, List.isPrefixOf_cons_cons, List.isPrefixOf_cons_cons,
              ih fun h => hw (List.mem_cons_of_mem x h)]

theorem isIndent_newline : isIndent '\n' = false := by decide

theorem indentWidth_newline (rest : List Char) : indentWidth ('\n' :: rest) = 0 := by
  rw [indentWidth, List.takeWhile_cons_of_neg (by simp [isIndent_newline]), List.length_nil]

theorem inlineBlanks_newline (rest : List Char) : inlineBlanks ('\n' :: rest) = 0 := by
  rw [inlineBlanks, List.takeWhile_cons_of_neg (by simp), List.length_nil]

theorem onLine_indentWidth : OnLine indentWidth :=
  (onLine_takeWhile isIndent_newline).comp List.length

theorem onLine_inlineBlanks : OnLine inlineBlanks :=
  (onLine_takeWhile isInlineBlank_newline).comp List.length

theorem indentWidth_le_lineAhead (cs : List Char) :
    indentWidth cs ≤ (lineAhead cs).length :=
  takeWhile_le_lineAhead isIndent_newline cs

theorem inlineBlanks_le_lineAhead (cs : List Char) :
    inlineBlanks cs ≤ (lineAhead cs).length :=
  takeWhile_le_lineAhead isInlineBlank_newline cs

/-- On a line, one looker may go on where another has stopped. -/
theorem OnLine.drop {β : Type} {f : List Char → β} (hf : OnLine f) {cs : List Char} {n : Nat}
    (h : n ≤ (lineAhead cs).length) : f ((lineAhead cs).drop n) = f (cs.drop n) := by
  rw [← lineAhead_drop h, hf]

/-! ## Whole lines -/

/-- The text ends its last line. -/
def Complete (cs : List Char) : Prop := ∀ c ∈ cs.getLast?, c = '\n'

/-- The text starts at the margin: it is empty, or white space does not
come first. -/
def AtMargin (cs : List Char) : Prop := ∀ c ∈ cs.head?, isBlank c = false

/-- After `n` characters a line starts, or the text is over. -/
structure Boundary (cs : List Char) (n : Nat) : Prop where
  le : n ≤ cs.length
  ends : cs.drop n = [] ∨ Complete (cs.take n)

theorem complete_nil : Complete [] := by simp [Complete]

theorem complete_concat (cs : List Char) : Complete (cs ++ ['\n']) := by simp [Complete]

theorem Complete.drop {cs : List Char} (h : Complete cs) (n : Nat) : Complete (cs.drop n) := by
  intro c hc
  rw [List.getLast?_drop] at hc
  split at hc
  · simp at hc
  · exact h c hc

theorem Complete.newline_mem {cs : List Char} (h : Complete cs) (hne : cs ≠ []) :
    '\n' ∈ cs := by
  have hl := List.getLast?_eq_some_getLast hne
  have hn := h _ hl
  exact hn ▸ List.getLast_mem hne

theorem Complete.append {cs ds : List Char} (hc : Complete cs) (hd : Complete ds) :
    Complete (cs ++ ds) := by
  intro c h
  rw [List.getLast?_append] at h
  cases hl : ds.getLast? with
  | none =>
      rw [hl] at h
      exact hc c h
  | some d =>
      rw [hl] at h
      exact hd c (by simpa [hl] using h)

/-- What ends the last line still does behind anything. -/
theorem Complete.append_left {ds : List Char} (hd : Complete ds) (hne : ds ≠ [])
    (cs : List Char) : Complete (cs ++ ds) := by
  intro c h
  rw [List.getLast?_append, List.getLast?_eq_some_getLast hne, Option.some_or] at h
  exact hd c (List.getLast?_eq_some_getLast hne ▸ h)

/-- In a text that ends its lines, a part of the line leaves something
of the text ahead. -/
theorem Complete.drop_ne_nil {cs : List Char} (h : Complete cs) (hne : cs ≠ []) {n : Nat}
    (hn : n ≤ (lineAhead cs).length) : cs.drop n ≠ [] := by
  intro hd
  have hall : cs.length ≤ (lineAhead cs).length :=
    Nat.le_trans (List.drop_eq_nil_iff.1 hd) hn
  have heq : lineAhead cs = cs := (lineAhead_isPrefix cs).eq_of_length_le hall
  apply newline_notMem_lineAhead cs
  rw [heq]
  exact h.newline_mem hne

theorem lineLength_line (l rest : List Char) (h : '\n' ∉ l) :
    lineLength (l ++ '\n' :: rest) = l.length + 1 := by
  have hd : (l ++ '\n' :: rest).dropWhile (· != '\n') = '\n' :: rest := by
    rw [← drop_lineAhead, lineAhead_line l rest h, List.drop_left]
  simp [lineLength, lineAhead_line l rest h, hd]

theorem lineLength_nil : lineLength [] = 0 := rfl

theorem lineLength_newline (rest : List Char) : lineLength ('\n' :: rest) = 1 :=
  lineLength_line [] rest (List.not_mem_nil)

/-- Behind a line and its newline comes the rest. -/
theorem drop_line (l rest : List Char) : (l ++ '\n' :: rest).drop (l.length + 1) = rest := by
  rw [← List.drop_drop, List.drop_left]
  rfl

theorem Complete.of_line {l rest : List Char} (h : Complete (l ++ '\n' :: rest)) :
    Complete rest := by
  have hdrop := h.drop (l.length + 1)
  rwa [drop_line] at hdrop

theorem lineLength_eq_length {cs : List Char} (h : '\n' ∉ cs) : lineLength cs = cs.length := by
  have hd : cs.dropWhile (· != '\n') = [] := by
    rw [← drop_lineAhead, lineAhead_eq_self h, List.drop_length]
  simp [lineLength, lineAhead_eq_self h, hd]

theorem lineLength_append {cs : List Char} (h : '\n' ∈ cs) (ds : List Char) :
    lineLength (cs ++ ds) = lineLength cs := by
  rcases line_cases cs with ⟨hn, -⟩ | ⟨l, rest, hl, rfl⟩
  · exact absurd h hn
  · rw [List.append_assoc, List.cons_append, lineLength_line _ _ hl, lineLength_line _ _ hl]

theorem boundary_lineLength (cs : List Char) : Boundary cs (lineLength cs) := by
  rcases line_cases cs with ⟨hn, -⟩ | ⟨l, rest, hl, rfl⟩
  · rw [lineLength_eq_length hn]
    exact ⟨Nat.le_refl _, .inl (List.drop_length ..)⟩
  · rw [lineLength_line l rest hl]
    refine ⟨by simp, .inr ?_⟩
    have ht : (l ++ '\n' :: rest).take (l.length + 1) = l ++ ['\n'] := by
      rw [List.take_length_add_append]
      simp
    exact ht ▸ complete_concat l

theorem lineLength_le (cs : List Char) : lineLength cs ≤ cs.length :=
  (boundary_lineLength cs).le

/-- From anywhere on a line, the line ends where it did. -/
theorem lineLength_drop {cs : List Char} {n : Nat} (h : n ≤ (lineAhead cs).length) :
    n + lineLength (cs.drop n) = lineLength cs := by
  rcases line_cases cs with ⟨hn, hl⟩ | ⟨l, rest, hl, rfl⟩
  · rw [hl] at h
    rw [lineLength_eq_length hn, lineLength_eq_length fun hm => hn (List.mem_of_mem_drop hm),
      List.length_drop]
    omega
  · rw [lineAhead_line l rest hl] at h
    rw [lineLength_line l rest hl, List.drop_append_of_le_length h,
      lineLength_line _ _ fun hm => hl (List.mem_of_mem_drop hm), List.length_drop]
    omega

/-- What reaches to the end of a line takes the first line. -/
theorem lineLength_le_rest (cs : List Char) (n : Nat) :
    lineLength cs ≤ n + lineLength (cs.drop n) := by
  by_cases h : n ≤ (lineAhead cs).length
  · rw [lineLength_drop h]
  · rw [lineLength]
    split <;> omega

theorem boundary_zero (cs : List Char) : Boundary cs 0 :=
  ⟨Nat.zero_le _, .inr complete_nil⟩

/-- Boundaries add up. -/
theorem Boundary.add {cs : List Char} {m n : Nat} (hm : Boundary cs m)
    (hn : Boundary (cs.drop m) n) : Boundary cs (m + n) := by
  have hle : m + n ≤ cs.length := by
    have h1 := hm.le
    have h2 := hn.le
    rw [List.length_drop] at h2
    omega
  refine ⟨hle, ?_⟩
  rcases hn.ends with hn | hn
  · exact .inl (by rwa [← List.drop_drop])
  · rcases hm.ends with hm | hm
    · exact .inl (by rw [← List.drop_drop, hm, List.drop_nil])
    · refine .inr ?_
      rw [List.take_add]
      exact hm.append hn

/-- From anywhere on a line, the next boundary is one. -/
theorem Boundary.from_inside {cs : List Char} {m n : Nat} (hm : m ≤ cs.length)
    (hn : Boundary (cs.drop m) n) (hpos : 0 < n) : Boundary cs (m + n) := by
  have hle : m + n ≤ cs.length := by
    have h2 := hn.le
    rw [List.length_drop] at h2
    omega
  refine ⟨hle, ?_⟩
  rcases hn.ends with hn | hc
  · exact .inl (by rwa [← List.drop_drop])
  · refine .inr ?_
    rw [List.take_add]
    refine hc.append_left ?_ _
    intro he
    have := congrArg List.length he
    have hl := hn.le
    simp only [List.length_take, List.length_nil] at this
    omega

/-! ## Indents and blank lines before more text -/

theorem AtMargin.takeWhile_eq_nil {ds : List Char} (h : AtMargin ds) {p : Char → Bool}
    (hp : ∀ c, p c = true → isBlank c = true) : ds.takeWhile p = [] := by
  cases ds with
  | nil => rfl
  | cons d ds =>
      have hd : isBlank d = false := h d rfl
      rw [List.takeWhile_cons_of_neg]
      intro hpd
      rw [hp d hpd] at hd
      exact Bool.noConfusion hd

theorem AtMargin.indentWidth_eq_zero {ds : List Char} (h : AtMargin ds) : indentWidth ds = 0 := by
  rw [indentWidth, h.takeWhile_eq_nil fun _ => isBlank_of_isIndent]
  rfl

theorem AtMargin.inlineBlanks_eq_zero {ds : List Char} (h : AtMargin ds) :
    inlineBlanks ds = 0 := by
  rw [inlineBlanks, h.takeWhile_eq_nil fun c hc => by
    simp only [isInlineBlank, Bool.and_eq_true] at hc
    exact hc.1]
  rfl

theorem AtMargin.head?_ne_newline {ds : List Char} (h : AtMargin ds) : ds.head? ≠ some '\n' := by
  intro hd
  have := h '\n' hd
  simp at this

/-- Complete lines above a text at the margin keep their indent. -/
theorem indentWidth_append {cs ds : List Char} (hc : Complete cs) (hd : AtMargin ds) :
    indentWidth (cs ++ ds) = indentWidth cs := by
  by_cases hne : cs = []
  · subst hne
    rw [List.nil_append, hd.indentWidth_eq_zero]
    rfl
  · exact onLine_indentWidth.append (hc.newline_mem hne) ds

theorem drop_indentWidth (cs : List Char) : cs.drop (indentWidth cs) = cs.dropWhile isIndent :=
  drop_takeWhile_length _ cs

theorem drop_inlineBlanks (cs : List Char) :
    cs.drop (inlineBlanks cs) = cs.dropWhile isInlineBlank := drop_takeWhile_length _ cs

/-- Behind the white space of a line comes no more of it. -/
theorem inlineBlanks_drop (cs : List Char) : inlineBlanks (cs.drop (inlineBlanks cs)) = 0 := by
  rw [drop_inlineBlanks, inlineBlanks]
  cases hd : cs.dropWhile isInlineBlank with
  | nil => rfl
  | cons d ds =>
      have hb := List.head?_dropWhile_not isInlineBlank cs
      rw [hd] at hb
      have hneg : isInlineBlank d = false := by simpa using hb
      rw [List.takeWhile_cons_of_neg (by simp [hneg])]
      rfl

theorem indentWidth_le (cs : List Char) : indentWidth cs ≤ cs.length :=
  (List.takeWhile_prefix _).length_le

theorem inlineBlanks_le (cs : List Char) : inlineBlanks cs ≤ cs.length :=
  (List.takeWhile_prefix _).length_le

/-- Behind a blank line comes the next. -/
theorem drop_of_blank {cs rest : List Char} (h : cs.drop (indentWidth cs) = '\n' :: rest) :
    cs.drop (indentWidth cs + 1) = rest := by
  rw [← List.drop_drop, h, List.drop_one, List.tail_cons]

theorem lineLength_of_blank {cs rest : List Char} (h : cs.drop (indentWidth cs) = '\n' :: rest) :
    lineLength cs = indentWidth cs + 1 := by
  rw [← lineLength_drop (indentWidth_le_lineAhead cs), h, lineLength_newline]

/-- A blank line at the front. -/
theorem blankLines_of_blank {cs rest : List Char} (h : cs.drop (indentWidth cs) = '\n' :: rest) :
    blankLines cs = indentWidth cs + 1 + blankLines rest := by
  rw [drop_indentWidth] at h
  rw [blankLines]
  split
  · next next heq =>
    rw [h] at heq
    rw [(List.cons.inj heq).2]
  · next hno => exact absurd h (hno rest)

/-- No blank line at the front. -/
theorem blankLines_eq_zero {cs : List Char} (h : (cs.drop (indentWidth cs)).head? ≠ some '\n') :
    blankLines cs = 0 := by
  rw [drop_indentWidth] at h
  rw [blankLines]
  split
  · next next heq =>
    rw [heq] at h
    exact absurd rfl h
  · rfl

theorem drop_indentWidth_append {cs ds : List Char} (hc : Complete cs) (hd : AtMargin ds) :
    (cs ++ ds).drop (indentWidth (cs ++ ds)) = cs.drop (indentWidth cs) ++ ds := by
  rw [indentWidth_append hc hd, List.drop_append_of_le_length (indentWidth_le cs)]

theorem boundary_blankLines (cs : List Char) : Boundary cs (blankLines cs) := by
  fun_induction blankLines cs with
  | case1 cs next h ih =>
      rw [← drop_indentWidth] at h
      have hline := boundary_lineLength cs
      rw [lineLength_of_blank h] at hline
      exact hline.add (drop_of_blank h ▸ ih)
  | case2 cs _ => exact boundary_zero cs

theorem blankLines_le (cs : List Char) : blankLines cs ≤ cs.length :=
  (boundary_blankLines cs).le

/-- Behind blank lines there is none. -/
theorem blankLines_drop (cs : List Char) : blankLines (cs.drop (blankLines cs)) = 0 := by
  fun_induction blankLines cs with
  | case1 cs next h ih =>
      rw [← drop_indentWidth] at h
      rw [← List.drop_drop, drop_of_blank h]
      exact ih
  | case2 cs h =>
      rw [List.drop_zero, blankLines]
      split
      · next next heq => exact absurd heq (h next)
      · rfl

/-- **Blank lines end where the margin is**: text at the margin adds
none to the blank lines above it. -/
theorem blankLines_append {cs ds : List Char} (hc : Complete cs) (hd : AtMargin ds) :
    blankLines (cs ++ ds) = blankLines cs := by
  fun_induction blankLines cs with
  | case1 cs next h ih =>
      rw [← drop_indentWidth] at h
      have hnext : Complete next := by
        have hdrop := hc.drop (indentWidth cs + 1)
        rwa [drop_of_blank h] at hdrop
      have happ : (cs ++ ds).drop (indentWidth (cs ++ ds)) = '\n' :: (next ++ ds) := by
        rw [drop_indentWidth_append hc hd, h, List.cons_append]
      rw [blankLines_of_blank happ, ih hnext, indentWidth_append hc hd]
  | case2 cs hno =>
      apply blankLines_eq_zero
      rw [drop_indentWidth_append hc hd, drop_indentWidth]
      cases hf : cs.dropWhile isIndent with
      | nil => exact hd.head?_ne_newline
      | cons c rest =>
          intro he
          have hcn : c = '\n' := by simpa using he
          exact hno rest (hcn ▸ hf)

/-! ## Counting lines -/

/-- Cut at every newline, a text has one piece more than newlines. -/
theorem length_lines (cs : List Char) : (lines cs).length = cs.count '\n' + 1 := by
  induction cs with
  | nil => rfl
  | cons c cs ih =>
      rw [lines]
      split
      · next hc =>
        subst hc
        rw [List.length_cons, ih, List.count_cons_self]
      · next hc =>
        rw [List.count_cons_of_ne hc, ← ih]
        cases hl : lines cs with
        | nil => exact absurd hl (lines_ne_nil cs)
        | cons l ls => rfl

instance (cs : List Char) : Decidable (Complete cs) :=
  inferInstanceAs (Decidable (∀ c ∈ cs.getLast?, c = '\n'))

/-- The number of lines. A newline ends a line; what is left behind the
last one is a line of its own, unless it is empty. -/
def lineCount (cs : List Char) : Nat := cs.count '\n' + if Complete cs then 0 else 1

theorem lineCount_nil : lineCount [] = 0 := by
  rw [lineCount, if_pos complete_nil, List.count_nil]

theorem lineCount_le_length_lines (cs : List Char) : lineCount cs ≤ (lines cs).length := by
  rw [length_lines, lineCount]
  split <;> omega

/-- Behind a place there are no more lines than there were. -/
theorem lineCount_drop_le (cs : List Char) (n : Nat) : lineCount (cs.drop n) ≤ lineCount cs := by
  have hcount : (cs.drop n).count '\n' ≤ cs.count '\n' := (List.drop_sublist n cs).count_le _
  unfold lineCount
  by_cases hc : Complete cs
  · rw [if_pos hc, if_pos (hc.drop n)]
    exact hcount
  · rw [if_neg hc]
    split <;> omega

/-- **The line at the front is one of them.** -/
theorem lineCount_drop_lineLength {cs : List Char} (h : cs ≠ []) :
    lineCount cs = lineCount (cs.drop (lineLength cs)) + 1 := by
  rcases line_cases cs with ⟨hn, -⟩ | ⟨l, rest, hl, rfl⟩
  · have hopen : ¬Complete cs := fun hc => hn (hc.newline_mem h)
    rw [lineLength_eq_length hn, List.drop_length, lineCount_nil, lineCount, if_neg hopen,
      List.count_eq_zero.2 hn]
  · have hcomplete : Complete (l ++ '\n' :: rest) ↔ Complete rest := by
      constructor
      · exact Complete.of_line
      · intro hr
        have hline := (complete_concat l).append hr
        rwa [List.append_assoc] at hline
    rw [lineLength_line l rest hl, drop_line, lineCount, lineCount, List.count_append,
      List.count_eq_zero.2 hl, List.count_cons_self]
    simp only [hcomplete]
    omega

end Daybook.Text
