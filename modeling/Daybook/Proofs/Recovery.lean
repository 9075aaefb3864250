import Daybook.Proofs.Block
import Daybook.Proofs.Coverage
import Daybook.Proofs.Extension

/-!
# Recovery — what no directive accepts is kept

A line that no directive accepts makes an entry of its own, together with
the indented lines below it. Three notions of white space meet there: the
indents of the lines, what is trimmed off the body, and what parts its
words. None of them takes anything away but white space (`ink`), so the
entry has every other character of the lines that it covers (`Keeps`).
-/

namespace Daybook

open Daybook.Text Daybook.Reading

namespace Text

/-! ## What is not white space -/

/-- The characters of a text that are not white space. -/
def ink (cs : List Char) : List Char := cs.filter fun c => !isBlank c

@[simp] theorem ink_nil : ink [] = [] := rfl

@[simp] theorem ink_append (cs ds : List Char) : ink (cs ++ ds) = ink cs ++ ink ds :=
  List.filter_append cs ds

theorem ink_cons (c : Char) (cs : List Char) :
    ink (c :: cs) = if isBlank c then ink cs else c :: ink cs := by
  by_cases hc : isBlank c = true <;> simp [ink, hc]

/-- What only takes white space off the front keeps the ink. -/
theorem ink_dropWhile {p : Char → Bool} (hp : ∀ c, p c = true → isBlank c = true)
    (cs : List Char) : ink (cs.dropWhile p) = ink cs := by
  induction cs with
  | nil => rfl
  | cons c cs ih =>
      rw [List.dropWhile_cons]
      split
      · next hc => rw [ih, ink_cons, if_pos (hp c hc)]
      · rfl

theorem ink_trim (cs : List Char) : ink (trim cs) = ink cs := by
  have hreverse : ∀ ds, ink ds.reverse = (ink ds).reverse := fun ds => List.filter_reverse
  rw [trim, dropTrailing, hreverse, ink_dropWhile fun _ => id, hreverse, List.reverse_reverse,
    ink_dropWhile fun _ => id]

theorem unlines_singleton (l : List Char) : unlines [l] = l := List.intercalate_singleton

theorem unlines_cons_cons (l m : List Char) (ls : List (List Char)) :
    unlines (l :: m :: ls) = l ++ '\n' :: unlines (m :: ls) := by
  rw [unlines, List.intercalate_cons_cons, List.append_assoc]
  rfl

/-- Newlines between lines are white space. -/
theorem ink_unlines (ls : List (List Char)) : ink (unlines ls) = ls.flatMap ink := by
  induction ls with
  | nil => rfl
  | cons l ls ih =>
      cases ls with
      | nil => rw [unlines_singleton, List.flatMap_singleton]
      | cons m ls =>
          rw [unlines_cons_cons, ink_append, ink_cons, if_pos isBlank_newline, ih]
          rfl

theorem ink_lines (cs : List Char) : (lines cs).flatMap ink = ink cs := by
  induction cs using line_induction with
  | last l hl => rw [lines_last hl, List.flatMap_singleton]
  | line l rest hl ih =>
      rw [lines_line l rest hl, List.flatMap_cons, ih, ink_append, ink_cons, if_pos isBlank_newline]

theorem ink_of_blanks {cs : List Char} (h : ∀ c ∈ cs, isBlank c = true) : ink cs = [] := by
  rw [ink, List.filter_eq_nil_iff]
  intro c hc
  simp [h c hc]

theorem ink_of_solid {cs : List Char} (h : ∀ c ∈ cs, isBlank c = false) : ink cs = cs := by
  rw [ink, List.filter_eq_self]
  intro c hc
  simp [h c hc]

/-! ## Words -/

/-- The text is made of these words, which have no white space in them, and
of white space around each. -/
inductive Worded : List Char → List (List Char) → Prop
  | blanks {gap : List Char} (blank : ∀ c ∈ gap, isBlank c = true) : Worded gap []
  | word {gap w rest : List Char} {ws : List (List Char)} (blank : ∀ c ∈ gap, isBlank c = true)
      (filled : w ≠ []) (solid : ∀ c ∈ w, isBlank c = false)
      (ends : ∀ c ∈ rest.head?, isBlank c = true) (behind : Worded rest ws) :
      Worded (gap ++ (w ++ rest)) (w :: ws)

theorem Worded.cons {cs : List Char} {ws : List (List Char)} (h : Worded cs ws) {c : Char}
    (hc : isBlank c = true) : Worded (c :: cs) ws := by
  cases h with
  | blanks blank => exact .blanks (List.forall_mem_cons.2 ⟨hc, blank⟩)
  | word blank filled solid ends behind =>
      exact .word (List.forall_mem_cons.2 ⟨hc, blank⟩) filled solid ends behind

theorem worded_wordsFrom {word : List Char} (hword : ∀ c ∈ word, isBlank c = false)
    (cs : List Char) : Worded (word.reverse ++ cs) (wordsFrom word cs) := by
  have hsolid : ∀ {w : List Char}, (∀ c ∈ w, isBlank c = false) →
      ∀ c ∈ w.reverse, isBlank c = false := fun h c hc => h c (List.mem_reverse.1 hc)
  -- the word that is being gathered stands in front of the text
  induction cs generalizing word with
  | nil =>
      cases word with
      | nil => exact .blanks (List.forall_mem_nil _)
      | cons c word =>
          exact .word (List.forall_mem_nil _) (by simp) (hsolid hword) (by simp)
            (.blanks (List.forall_mem_nil _))
  | cons c cs ih =>
      by_cases hc : isBlank c = true
      · have hrest : Worded (c :: cs) (wordsFrom [] cs) := (ih (List.forall_mem_nil _)).cons hc
        rw [wordsFrom, if_pos hc]
        cases word with
        | nil => exact hrest
        | cons d word =>
            exact .word (List.forall_mem_nil _) (by simp) (hsolid hword) (by simpa using hc) hrest
      · have hnext := ih (List.forall_mem_cons.2 ⟨Bool.eq_false_iff.2 hc, hword⟩)
        rw [List.reverse_cons, List.append_assoc, List.singleton_append] at hnext
        rw [wordsFrom, if_neg hc]
        exact hnext

/-- **The words of a text** are what white space leaves of it. -/
theorem worded_words (cs : List Char) : Worded cs (words cs) :=
  worded_wordsFrom (List.forall_mem_nil _) cs

theorem Worded.flatten_eq {cs : List Char} {ws : List (List Char)} (h : Worded cs ws) :
    ws.flatten = ink cs := by
  induction h with
  | blanks blank => exact (ink_of_blanks blank).symm
  | word blank filled solid ends behind ih =>
      rw [List.flatten_cons, ih, ink_append, ink_append, ink_of_blanks blank, ink_of_solid solid,
        List.nil_append]

/-- At the margin of a text that is not empty stands ink. -/
theorem AtMargin.ink_ne_nil {cs : List Char} (h : AtMargin cs) (hne : cs ≠ []) : ink cs ≠ [] := by
  cases cs with
  | nil => exact absurd rfl hne
  | cons c cs =>
      have hc : isBlank c = false := h c rfl
      rw [ink_cons, hc, if_neg Bool.false_ne_true]
      exact List.cons_ne_nil c _

end Text

namespace Recovery

/-! ## The lines of the entry -/

/-- The line continues the one above it: it is indented, by two at least,
and is more than an indent. -/
def Continues (l : List Char) : Prop := continuationIndent ≤ indentWidth l ∧ ¬BlankLine l

/-- The text starts with this line, the lines that continue it, and those
below, which start with one that does not continue it. -/
structure Run (cs first : List Char) (more below : List (List Char)) : Prop where
  split : lines cs = first :: (more ++ below)
  continues : ∀ l ∈ more, Continues l
  stop : ∀ l ∈ below.head?, ¬Continues l

theorem continues_iff (cs : List Char) : continues cs = true ↔ Continues (lineAhead cs) := by
  have hdrop := lineAhead_drop (indentWidth_le_lineAhead cs)
  have hhead : (cs.drop (indentWidth cs)).head?.any (· != '\n') = true ↔
      lineAhead (cs.drop (indentWidth cs)) ≠ [] := by
    cases cs.drop (indentWidth cs) with
    | nil => simp
    | cons c rest =>
        by_cases hc : c = '\n'
        · simp [hc]
        · simp [hc, lineAhead_cons hc]
  rw [continues, Bool.and_eq_true, decide_eq_true_iff, hhead, hdrop, Continues, blankLine_iff,
    onLine_indentWidth]

/-- What the entry covers, as lines. -/
theorem exists_run (cs : List Char) :
    ∃ more below, Run cs (lineAhead cs) more below ∧
      cs.take (extent cs) = unlines (lineAhead cs :: more) ∧
      (cs.drop (extent cs) = [] ↔ below = []) := by
  induction cs using line_induction with
  | last l hl =>
      refine ⟨[], [], ⟨?_, by simp, by simp⟩, ?_, ?_⟩
      · rw [lines_last hl, lineAhead_eq_self hl]
        rfl
      · rw [extent_last hl, List.take_length, lineAhead_eq_self hl, unlines_singleton]
      · rw [extent_last hl, List.drop_length]
        exact iff_of_true rfl rfl
  | line l rest hl ih =>
      rw [lineAhead_line l rest hl, extent_line l rest hl]
      by_cases hcont : continues rest = true
      · obtain ⟨more, below, hrun, htake, hdrop⟩ := ih
        rw [if_pos hcont]
        refine ⟨lineAhead rest :: more, below, ⟨?_, ?_, hrun.stop⟩, ?_, ?_⟩
        · rw [lines_line l rest hl, hrun.split]
          rfl
        · exact List.forall_mem_cons.2 ⟨(continues_iff rest).1 hcont, hrun.continues⟩
        · rw [List.take_length_add_append, Nat.add_comm, List.take_succ_cons, htake,
            unlines_cons_cons]
        · rw [List.drop_length_add_append, Nat.add_comm, List.drop_succ_cons]
          exact hdrop
      · rw [if_neg hcont]
        refine ⟨[], lines rest, ⟨lines_line l rest hl, by simp, ?_⟩, ?_, ?_⟩
        · rw [head?_lines]
          rintro k ⟨rfl⟩
          rwa [← continues_iff]
        · rw [Nat.add_zero, List.take_left, unlines_singleton]
        · simp [lines_ne_nil]

/-! ## What the entry says -/

/-- The date and the kind that the words of a body give: a date if the
first word is one, and the word behind it; or else the first word. -/
inductive Headed : List (List Char) → String → String → Prop
  | dated {w : List Char} {ws : List (List Char)} (date : Token.date w = some w) :
      Headed (w :: ws) (String.ofList w) (String.ofList (ws.headD []))
  | undated {w : List Char} {ws : List (List Char)} (other : Token.date w ≠ some w) :
      Headed (w :: ws) "" (String.ofList w)

theorem headed_headOf {body : List Char} (h : words body ≠ []) :
    Headed (words body) (String.ofList (headOf body).1) (String.ofList (headOf body).2) := by
  rw [headOf]
  cases hw : words body with
  | nil => exact absurd hw h
  | cons w ws =>
      by_cases hd : Token.date w = some w
      · simp only [if_pos hd]
        exact .dated hd
      · simp only [if_neg hd]
        exact .undated hd

theorem ink_bodyOf (covered : List Char) : ink (bodyOf covered) = ink covered := by
  have hindent : ∀ l : List Char, ink (l.dropWhile isIndent) = ink l :=
    ink_dropWhile fun _ => isBlank_of_isIndent
  rw [bodyOf, ink_trim, ink_unlines, List.flatMap_map]
  simp only [hindent]
  exact ink_lines covered

/-- What the entry says of the text that it covers: its body has all of it
but white space and stands in the metadata too, and the date and the kind
are taken from the body's words. -/
structure Tells (covered : List Char) (e : Entry) (u : Unrecognised) : Prop where
  detail : e.detail = .unrecognised u
  body_ne : u.body ≠ ""
  body_eq : e.metadata.get? "body" = some (.text u.body)
  ink_eq : ink u.body.toList = ink covered
  headed : ∃ ws, Worded u.body.toList ws ∧ Headed ws e.date u.type

/-- The line at the front has ink, and so has what the entry covers. -/
theorem ink_covered_ne_nil {cs : List Char} (hm : AtMargin cs) (hne : cs ≠ []) :
    ink (cs.take (extent cs)) ≠ [] := by
  obtain ⟨more, below, -, htake, -⟩ := exists_run cs
  have hline : ink (lineAhead cs) ≠ [] := by
    cases cs with
    | nil => exact absurd rfl hne
    | cons c cs =>
        have hc : c ≠ '\n' := fun hc => hm.head?_ne_newline (hc ▸ rfl)
        rw [lineAhead_cons hc]
        exact AtMargin.ink_ne_nil hm (List.cons_ne_nil c _)
  rw [htake, ink_unlines, List.flatMap_cons]
  exact List.append_ne_nil_of_left_ne_nil hline _

/-- The entry, with what it says apart from the rest. -/
theorem exists_entryAt (c : Cursor) {body : List Char}
    (h : bodyOf (c.rest.take (extent c.rest)) = body) :
    ∃ value metadata, entryAt c = ⟨String.ofList (headOf body).1, metadata, .unrecognised
        ⟨String.ofList (headOf body).2, value, String.ofList body⟩⟩ ∧
      Pairs.get? metadata "body" = some (.text (String.ofList body)) := by
  subst h
  exact ⟨_, _, rfl, rfl⟩

theorem tells_entryAt {c : Cursor} (hm : AtMargin c.rest) (hne : c.rest ≠ []) :
    ∃ u, Tells (c.rest.take (extent c.rest)) (entryAt c) u := by
  have hink := ink_bodyOf (c.rest.take (extent c.rest))
  have hcovered := ink_covered_ne_nil hm hne
  generalize hbody : bodyOf (c.rest.take (extent c.rest)) = body at hink
  obtain ⟨value, metadata, hentry, hmeta⟩ := exists_entryAt c hbody
  -- what holds of the body holds because it has the ink of what is covered
  rw [hentry]
  rw [← hink] at hcovered
  have hwords : words body ≠ [] := by
    intro hnil
    rw [← (worded_words body).flatten_eq, hnil] at hcovered
    exact hcovered rfl
  have hfilled : String.ofList body ≠ "" := by
    intro hempty
    have hnil : body = [] := by simpa using congrArg String.toList hempty
    exact hwords (by rw [hnil]; rfl)
  refine ⟨_, rfl, hfilled, hmeta, ?_, ?_⟩
  · rw [String.toList_ofList]
    exact hink
  · rw [String.toList_ofList]
    exact ⟨words body, worded_words body, headed_headOf hwords⟩

end Recovery

namespace Grammar

/-! ## The entries of a text -/

variable {g : Grammar}

/-- The span is that of a recovered line, and its entry keeps what stands
there: it covers its line from the first character on that is not white
space, the lines that continue it, and the newline behind them. -/
structure Keeps (text : List Char) (s : Span) (first : List Char) (more below : List (List Char))
    (u : Unrecognised) : Prop where
  start : FirstOnLine text s.start
  run : Recovery.Run (text.drop s.start) first more below
  stop : s.stop = s.start + (unlines (first :: more)).length + if below = [] then 0 else 1
  tells : Recovery.Tells (unlines (first :: more)) s.entry u
  warning : ∃ column, ColumnAt text s.start column ∧
    s.entry.warning = some (.text (Entry.notice (lineAt text s.start) column))

/-- The line and the column of a place that is reached from the start. -/
theorem place_advance (source : String) {text : List Char} {p : Nat} (h : p ≤ text.length) :
    ((Cursor.start source text).advance p).line = lineAt text p ∧
      ColumnAt text p ((Cursor.start source text).advance p).column := by
  have hwithin := (Cursor.within_start source text).advance p
  have hposition : ((Cursor.start source text).advance p).position = p := by
    rw [Cursor.position_advance_of_le h]
    exact Nat.zero_add p
  have hline := hwithin.line
  have hcolumn := hwithin.column
  rw [hposition] at hline hcolumn
  exact ⟨hline, hcolumn⟩

/-- **A line that is left to recovery is kept.** -/
theorem Span.Reads.keeps {text : List Char} {s : Span} (hs : s.Reads g text)
    (hrec : g.Recovers ((Cursor.start g.source text).advance s.start)) :
    ∃ first more below u, Keeps text s first more below u := by
  have hlt : s.start < text.length := Nat.lt_of_lt_of_le hs.nonempty hs.stop.le
  have hrest : ((Cursor.start g.source text).advance s.start).rest = text.drop s.start := rfl
  obtain ⟨hline, hcolumn⟩ := place_advance g.source hlt.le
  have hreads := hs.reads
  rw [entryAt_of_recovers hrec, Except.ok.injEq, Prod.mk.injEq] at hreads
  obtain ⟨hentry, hlength⟩ := hreads
  generalize (Cursor.start g.source text).advance s.start = c at *
  have hne : c.rest ≠ [] := by
    rw [hrest, ne_eq, List.drop_eq_nil_iff]
    exact Nat.not_le_of_lt hlt
  obtain ⟨u, htells⟩ := Recovery.tells_entryAt (hrest ▸ hs.first.margin) hne
  obtain ⟨more, below, hrun, htake, hdrop⟩ := Recovery.exists_run c.rest
  rw [hentry, htake] at htells
  refine ⟨lineAhead c.rest, more, below, u, hs.first, hrest ▸ hrun, ?_, htells, c.column,
    hcolumn, ?_⟩
  · have hextent : (unlines (lineAhead c.rest :: more)).length = Recovery.extent c.rest := by
      rw [← htake, List.length_take, Nat.min_eq_left (Recovery.extent_le c.rest)]
    have hstop := hs.nonempty
    rw [Recovery.length] at hlength
    simp only [hdrop] at hlength
    omega
  · rw [← hentry, Entry.warning_entryAt, hline]

/-- **Recovery loses no text.** In whatever is read by schemas over the
library's shapes and the directive for transactions, an entry that no
directive made keeps the lines that it covers, and the entries cover the
text. -/
theorem parse_keeps (h : g.OfShape fun _ => True) {text : String} {es : List Entry}
    (hok : g.parse text = .ok es) :
    ∃ spans : List Span, spans.map (·.entry) = es ∧ Covers g text.toList 0 spans ∧
      ∀ s ∈ spans, s.entry.isUnrecognised = true →
        ∃ first more below u, Keeps text.toList s first more below u := by
  obtain ⟨spans, hmap, hcovers⟩ := parse_covers h hok
  refine ⟨spans, hmap, hcovers, fun s hs hun => ?_⟩
  have hreads := hcovers.mem_reads s hs
  exact hreads.keeps ((recovers_iff h hreads.reads).2 hun)

/-- A line behind white space that no directive accepts, one that continues
it, a blank line, and one more that no directive accepts. -/
def strayText : String := "; c\n  2024-01-02 fob  \"x\"\n\t  y z \n \t\nend"

/-- What it holds. -/
def strays : List Entry := [
  ⟨"2024-01-02",
    [("warning", .text "Unknown directive at line 2, column 3"), ("location", .text "stray:2"),
      ("type", .text "fob"), ("body", .text "2024-01-02 fob  \"x\"\ny z")],
    .unrecognised ⟨"fob", none, "2024-01-02 fob  \"x\"\ny z"⟩⟩,
  ⟨"",
    [("warning", .text "Unknown directive at line 5, column 1"), ("location", .text "stray:5"),
      ("type", .text "end"), ("body", .text "end")],
    .unrecognised ⟨"end", none, "end"⟩⟩]

theorem parse_keeps_strays :
    (Builtin.grammar "stray").OfShape (fun _ => True) ∧
      (Builtin.grammar "stray").parse strayText = .ok strays ∧
      ∃ spans : List Span, spans.map (·.entry) = strays ∧
        Covers (Builtin.grammar "stray") strayText.toList 0 spans ∧
        ∀ s ∈ spans, s.entry.isUnrecognised = true →
          ∃ first more below u, Keeps strayText.toList s first more below u := by
  have hshape : (Builtin.grammar "stray").OfShape fun _ => True := fun d hd =>
    (Builtin.ofShape_grammar "stray" d hd).mono fun _ _ => trivial
  have hparse : (Builtin.grammar "stray").parse strayText = .ok strays := by
    with_unfolding_all rfl
  exact ⟨hshape, hparse, parse_keeps hshape hparse⟩

end Grammar
end Daybook
