import Daybook.Proofs.Place
import Daybook.Fault

/-!
# Excerpt — the lines around a place

A report shows the line of a place with up to two lines before and
behind it, each behind its own number, and a marker below the place. What
is cut out of the text and how it is numbered are reckoned apart from
each other (`excerpt`, `Context.numbered`); here the two are shown to
agree, and the marker to stand below the place (`Context.Shows`).
-/

namespace Daybook

open Daybook.Text

namespace Text

/-! ## Lines -/

theorem lines_last {l : List Char} (h : '\n' ∉ l) : lines l = [l] := by
  induction l with
  | nil => rfl
  | cons c l ih =>
      have hc : c ≠ '\n' := fun hc => h (by simp [hc])
      rw [lines, if_neg hc, ih fun hl => h (List.mem_cons_of_mem c hl)]

theorem lines_line (l rest : List Char) (h : '\n' ∉ l) :
    lines (l ++ '\n' :: rest) = l :: lines rest := by
  induction l with
  | nil => rfl
  | cons c l ih =>
      have hc : c ≠ '\n' := fun hc => h (by simp [hc])
      rw [List.cons_append, lines, if_neg hc, ih fun hl => h (List.mem_cons_of_mem c hl)]

theorem newline_notMem_of_mem_lines {cs l : List Char} (h : l ∈ lines cs) : '\n' ∉ l := by
  induction cs using line_induction with
  | last k hk =>
      rw [lines_last hk, List.mem_singleton] at h
      rwa [h]
  | line k rest hk ih =>
      rw [lines_line k rest hk] at h
      rcases List.mem_cons.1 h with rfl | h
      · exact hk
      · exact ih h

/-- What is cut at newlines starts with the line ahead. -/
theorem head?_lines (cs : List Char) : (lines cs).head? = some (lineAhead cs) := by
  rcases line_cases cs with ⟨hn, hl⟩ | ⟨l, rest, hl, rfl⟩
  · rw [lines_last hn, hl]
    rfl
  · rw [lines_line l rest hl, lineAhead_line l rest hl]
    rfl

/-- **Lines that are joined can be cut again.** -/
theorem lines_unlines {ls : List (List Char)} (hne : ls ≠ []) (h : ∀ l ∈ ls, '\n' ∉ l) :
    lines (unlines ls) = ls := by
  induction ls with
  | nil => exact absurd rfl hne
  | cons l ls ih =>
      have hl := h l List.mem_cons_self
      cases ls with
      | nil =>
          rw [unlines, List.intercalate_singleton]
          exact lines_last hl
      | cons m ls =>
          have hrest := ih (by simp) fun k hk => h k (List.mem_cons_of_mem l hk)
          rw [unlines, List.intercalate_cons_cons, List.append_assoc]
          show lines (l ++ '\n' :: unlines (m :: ls)) = _
          rw [lines_line l _ hl, hrest]

/-- Behind whole lines the other lines follow. -/
theorem drop_lines {above : List Char} (h : Complete above) (rest : List Char) :
    (lines (above ++ rest)).drop (above.count '\n') = lines rest := by
  induction above using line_induction with
  | last l hl =>
      have hnil : l = [] := by
        by_contra hne
        exact hl (h.newline_mem hne)
      rw [hnil]
      rfl
  | line l below hl ih =>
      rw [List.append_assoc, List.cons_append, lines_line l _ hl, List.count_append,
        List.count_eq_zero.2 hl, List.count_cons_self, Nat.zero_add, List.drop_succ_cons]
      exact ih h.of_line

/-! ## The line of a place -/

/-- A character that no newline comes before stands on the line ahead. -/
theorem getElem?_lineAhead {cs : List Char} {n : Nat} {ch : Char} (h : cs[n]? = some ch)
    (hch : ch ≠ '\n') (hn : '\n' ∉ cs.take n) : (lineAhead cs)[n]? = some ch := by
  induction cs generalizing n with
  | nil => simp at h
  | cons c cs ih =>
      cases n with
      | zero =>
          rw [List.getElem?_cons_zero] at h
          cases h
          rw [lineAhead_cons hch, List.getElem?_cons_zero]
      | succ n =>
          rw [List.take_succ_cons, List.mem_cons, not_or] at hn
          rw [lineAhead_cons (Ne.symm hn.1), List.getElem?_cons_succ]
          exact ih h hn.2

/-- The line of a place starts behind whole lines, at column one. -/
theorem ColumnAt.lineStart {text : List Char} {p column : Nat} (h : ColumnAt text p column) :
    ∃ s ≤ p, Complete (text.take s) ∧ '\n' ∉ (text.drop s).take (p - s) ∧ column = p - s + 1 := by
  cases h with
  | first hnone => exact ⟨0, Nat.zero_le p, complete_nil, hnone, rfl⟩
  | @behind k before newline last =>
      have htake : text.take (k + 1) = text.take k ++ ['\n'] := by
        rw [List.take_add_one, newline, Option.toList_some]
      refine ⟨k + 1, before, htake ▸ complete_concat _, ?_, by omega⟩
      rwa [← List.drop_take]

theorem ColumnAt.pos {text : List Char} {p column : Nat} (h : ColumnAt text p column) :
    0 < column := by
  obtain ⟨s, -, -, -, rfl⟩ := h.lineStart
  exact Nat.succ_pos _

/-- **The place is where its line and column say.** -/
theorem ColumnAt.getElem?_line {text : List Char} {p column : Nat} {ch : Char}
    (h : ColumnAt text p column) (hp : text[p]? = some ch) (hch : ch ≠ '\n') :
    ∃ l, (lines text)[Grammar.lineAt text p - 1]? = some l ∧ l[column - 1]? = some ch := by
  obtain ⟨s, hs, hcomplete, hline, rfl⟩ := h.lineStart
  -- newlines before the place are newlines before its line
  have hcount : Grammar.lineAt text p - 1 = (text.take s).count '\n' := by
    have hsplit : text.take p = text.take s ++ (text.drop s).take (p - s) := by
      rw [← List.take_add, Nat.add_sub_cancel' hs]
    rw [Grammar.lineAt, hsplit, List.count_append, List.count_eq_zero.2 hline]
    omega
  have hbehind := drop_lines hcomplete (text.drop s)
  rw [List.take_append_drop] at hbehind
  have hrest : (lines text)[(text.take s).count '\n']? = some (lineAhead (text.drop s)) := by
    rw [← head?_lines, ← hbehind, List.head?_drop]
  refine ⟨lineAhead (text.drop s), hcount ▸ hrest, ?_⟩
  rw [Nat.add_sub_cancel]
  apply getElem?_lineAhead _ hch hline
  rw [List.getElem?_drop, Nat.add_sub_cancel' hs, hp]

theorem lineAt_le_length_lines (text : List Char) (p : Nat) :
    Grammar.lineAt text p ≤ (lines text).length := by
  have hcount : (text.take p).count '\n' ≤ text.count '\n' := (List.take_sublist p text).count_le _
  rw [Grammar.lineAt, length_lines]
  omega

end Text

namespace Context

/-! ## Numbered lines -/

/-- A line of the given number, behind its number. The first line is line
one. -/
def row (ls : List (List Char)) (n : Nat) : List Char := gutter n ++ ls[n - 1]?.getD []

/-- The lines from one number to another, each behind its own. -/
def rows (ls : List (List Char)) (first last : Nat) : List (List Char) :=
  (List.range' first (last + 1 - first)).map (row ls)

/-- The lines from one number to another. -/
def window (ls : List (List Char)) (first last : Nat) : List (List Char) :=
  (ls.take last).drop (first - 1)

variable {ls : List (List Char)} {line first last : Nat} {column : Int}

theorem rows_cons (h : first ≤ last) :
    rows ls first last = row ls first :: rows ls (first + 1) last := by
  have hcount : last + 1 - first = last + 1 - (first + 1) + 1 := by omega
  rw [rows, hcount, List.range'_succ, List.map_cons, rows]

theorem rows_nil (h : last < first) : rows ls first last = [] := by
  have hcount : last + 1 - first = 0 := by omega
  rw [rows, hcount, List.range'_zero, List.map_nil]

theorem window_nil (hlast : last < first) : window ls first last = [] := by
  apply List.drop_eq_nil_of_le
  rw [List.length_take]
  omega

theorem window_cons (hfirst : 0 < first) (h : first ≤ last) (hlast : last ≤ ls.length) :
    ∃ l, window ls first last = l :: window ls (first + 1) last ∧
      row ls first = gutter first ++ l := by
  have hlt : first - 1 < ls.length := by omega
  have htake : first - 1 < (ls.take last).length := by
    rw [List.length_take]
    omega
  have hnext : first - 1 + 1 = first + 1 - 1 := by omega
  refine ⟨ls[first - 1], ?_, ?_⟩
  · rw [window, List.drop_eq_getElem_cons htake, List.getElem_take, hnext]
    rfl
  · rw [row, List.getElem?_eq_getElem hlt, Option.getD_some]

/-- Behind the line of the place the lines are numbered and no more. -/
theorem numbered_behind (h : line < first) (hlast : last ≤ ls.length) :
    numbered line column first (window ls first last) = rows ls first last := by
  -- on how many lines are left, of which the first gets its number
  induction hcount : last + 1 - first generalizing first with
  | zero =>
      rw [window_nil (by omega), rows_nil (by omega)]
      rfl
  | succ count ih =>
      have hle : first ≤ last := by omega
      obtain ⟨l, hwindow, hrow⟩ := window_cons (by omega) hle hlast
      have hnext : numbered line column (first + 1 : Nat) (window ls (first + 1) last) =
          rows ls (first + 1) last := ih (by omega) (by omega)
      have hne : (first : Int) ≠ line := by omega
      rw [hwindow, rows_cons hle, hrow, numbered, if_neg hne, ← hnext]
      rfl

/-- **The marker stands below the line of the place**, and nothing else
is put between the lines. -/
theorem numbered_window (hpos : 0 < first) (hfirst : first ≤ line) (hline : line ≤ last)
    (hlast : last ≤ ls.length) :
    numbered line column first (window ls first last) =
      rows ls first line ++ marker line column :: rows ls (line + 1) last := by
  -- on how many lines stand above that of the place
  induction hcount : line - first generalizing first with
  | zero =>
      obtain rfl : first = line := by omega
      obtain ⟨l, hwindow, hrow⟩ := window_cons hpos hline hlast
      have hbehind : numbered first column (first + 1 : Nat) (window ls (first + 1) last) =
          rows ls (first + 1) last := numbered_behind (Nat.lt_add_one first) hlast
      rw [hwindow, rows_cons (Nat.le_refl first), rows_nil (Nat.lt_add_one first), hrow, numbered,
        if_pos rfl, ← hbehind]
      rfl
  | succ count ih =>
      have hle : first ≤ last := by omega
      obtain ⟨l, hwindow, hrow⟩ := window_cons hpos hle hlast
      have hnext : numbered line column (first + 1 : Nat) (window ls (first + 1) last) =
          rows ls (first + 1) line ++ marker line column :: rows ls (line + 1) last :=
        ih (by omega) (by omega) (by omega)
      have hne : (first : Int) ≠ line := by omega
      rw [hwindow, rows_cons hfirst, hrow, numbered, if_neg hne, List.cons_append,
        ← hnext]
      rfl

/-! ## The report of a place -/

/-- The line that comes first in a report. -/
def firstShown (line : Nat) : Nat := max 1 (line - 2)

/-- The line that comes last in a report. -/
def lastShown (ls : List (List Char)) (line : Nat) : Nat := min ls.length (line + 2)

/-- The lines around a place, each behind its number, and the marker
below the line of the place. -/
def shown (ls : List (List Char)) (line column : Nat) : List (List Char) :=
  rows ls (firstShown line) line ++
    marker line column :: rows ls (line + 1) (lastShown ls line)

theorem firstLine_eq (line : Nat) : firstLine line = firstShown line := by
  unfold firstLine firstShown
  omega

/-- What is cut out of the lines are those that the report counts. -/
theorem slice_eq_window (ls : List (List Char)) (line : Nat) :
    slice ls (max 0 ((line : Int) - 1 - 2)) (line + 2) =
      window ls (firstShown line) (lastShown ls line) := by
  have hstart : (max 0 ((line : Int) - 1 - 2)).toNat = firstShown line - 1 := by
    unfold firstShown
    omega
  have hstop : ((line : Int) + 2).toNat = line + 2 := by omega
  have hbelow : ¬(line : Int) + 2 < 0 := by omega
  have habove : ¬max 0 ((line : Int) - 1 - 2) < 0 := by omega
  simp only [slice, if_neg hbelow, if_neg habove, hstart, hstop]
  rw [window, lastShown, Nat.min_comm, ← List.take_eq_take_min]

theorem mem_window {l : List Char} (h : ls[line - 1]? = some l) (hpos : 0 < first)
    (hfirst : first ≤ line) (hline : line ≤ last) : l ∈ window ls first last := by
  apply List.mem_of_getElem? (i := line - first)
  have hindex : first - 1 + (line - first) = line - 1 := by omega
  rw [window, List.getElem?_drop, hindex, List.getElem?_take_of_lt (by omega), h]

/-- The line of the place is among those that are shown. -/
theorem shown_bounds (hpos : 0 < line) (hline : line ≤ ls.length) :
    0 < firstShown line ∧ firstShown line ≤ line ∧ line ≤ lastShown ls line ∧
      lastShown ls line ≤ ls.length := by
  unfold firstShown lastShown
  omega

theorem lines_excerpt {text l : List Char} (hpos : 0 < line)
    (h : (lines text)[line - 1]? = some l) :
    lines (excerpt text line 2) =
      window (lines text) (firstShown line) (lastShown (lines text) line) := by
  have hlt : line - 1 < (lines text).length := (List.getElem?_eq_some_iff.1 h).1
  obtain ⟨hfirst, hbefore, hbehind, -⟩ := shown_bounds hpos (by omega : line ≤ (lines text).length)
  rw [excerpt, slice_eq_window]
  apply lines_unlines (List.ne_nil_of_mem (mem_window h hfirst hbefore hbehind))
  intro k hk
  exact newline_notMem_of_mem_lines (List.mem_of_mem_take (List.mem_of_mem_drop hk))

/-- **The cut and the numbers agree**: the lines that are cut out of the
text are numbered as they are in it. -/
theorem numbered_excerpt {text l : List Char} (hpos : 0 < line)
    (h : (lines text)[line - 1]? = some l) (column : Nat) :
    numbered line column (firstLine line) (lines (excerpt text line 2)) =
      shown (lines text) line column := by
  have hlt : line - 1 < (lines text).length := (List.getElem?_eq_some_iff.1 h).1
  obtain ⟨hfirst, hbefore, hbehind, hlast⟩ :=
    shown_bounds hpos (by omega : line ≤ (lines text).length)
  rw [lines_excerpt hpos h, firstLine_eq, shown]
  exact numbered_window hfirst hbefore hbehind hlast

/-- The excerpt is not empty where the line of the place is not. -/
theorem excerpt_ne_nil {text l : List Char} (hpos : 0 < line)
    (h : (lines text)[line - 1]? = some l) (hne : l ≠ []) : excerpt text line 2 ≠ [] := by
  have hlt : line - 1 < (lines text).length := (List.getElem?_eq_some_iff.1 h).1
  obtain ⟨hfirst, hbefore, hbehind, -⟩ := shown_bounds hpos (by omega : line ≤ (lines text).length)
  have hmem := mem_window h hfirst hbefore hbehind
  intro hempty
  -- an empty excerpt would be one empty line
  rw [← lines_excerpt hpos h, hempty] at hmem
  exact hne (List.mem_singleton.1 hmem)

/-- **What a report shows**: the place, the lines around it, and the
marker. The line of the place is there and not empty. -/
theorem render_contextOf {c : Cursor} {l : List Char} (hpos : 0 < c.line)
    (h : (lines c.text)[c.line - 1]? = some l) (hne : l ≠ []) :
    (Fault.contextOf c).render =
      c.source ++ ":" ++ toString c.line ++ ":" ++ toString c.column ++ "\n" ++
        String.ofList (unlines (shown (lines c.text) c.line c.column)) := by
  have hsnippet : (excerpt c.text c.line 2).isEmpty = false :=
    List.isEmpty_eq_false_iff.2 (excerpt_ne_nil hpos h hne)
  have hmodule : "".isEmpty = true := rfl
  unfold render
  simp only [Fault.contextOf, hsnippet, numbered_excerpt hpos h, hmodule, if_true,
    String.append_empty]
  rfl

/-- The second of three lines, and its second column. -/
example : shown (lines "a\n \"b\nc".toList) 2 2 =
    ["   1 | a".toList, "   2 |  \"b".toList, "        ^^^".toList, "   3 | c".toList] := rfl

end Context
end Daybook
