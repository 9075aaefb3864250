import Daybook.Proofs.Quotation
import Daybook.Proofs.Written.Transaction

/-!
# Written — headings

The first line of a transaction need not be written in the one way in
which it is printed: any white space of the line may stand between its
parts, or none, and a string may be spelled as one likes (`Heading`). A
comment may come behind it. Some comments close the transaction, but only
where no body is below, and so a comment changes nothing of what is read
(`read_commented`).
-/

namespace Daybook

open Daybook.Text Daybook.Reading

namespace Reading

variable {α : Type}

theorem value?_eq_some_iff {r : Reading α} {v : α} : r.value? = some v ↔ ∃ n, r = .found v n := by
  cases r with
  | absent => simp
  | found w n => simp
  | broken f => simp

end Reading

namespace Written

/-! ## White space -/

/-- Behind white space, one of the characters comes next. -/
def Behind (cs rest : List Char) : Prop :=
  ∃ (g : Gap) (c : Char) (more : List Char), c ∈ cs ∧ rest = g.text ++ c :: more

/-- The line, or what is looked at of it, ends here: with the text, at a
newline or at a comment. -/
def LineStops (rest : List Char) : Prop := ∀ c ∈ rest.head?, c = '\n' ∨ c = ';'

/-! ## Strings -/

/-- A string between quotes, in one of its spellings. -/
structure Quotation where
  raw : List Char
  value : List Char
  spells : Quoted.Spells raw value

namespace Quotation

/-- The string with its quotes. -/
def text (q : Quotation) : List Char := '"' :: (q.raw ++ ['"'])

/-- The string that is meant. -/
def string (q : Quotation) : String := String.ofList q.value

theorem solid (q : Quotation) : Solid q.text := ⟨'"', _, rfl, by decide⟩

theorem takes (p : List Char → Prop) (q : Quotation) : Takes p Token.quoted q.text q.string := by
  intro rest _
  have hread := Token.quoted_of_decode (q.spells.decode_eq rest)
  rw [text, List.cons_append, List.append_assoc, List.cons_append, List.nil_append, hread,
    List.length_cons, List.length_append]
  rfl

end Quotation

/-! ## Labels -/

/-- A tag or link, with the white space before it. -/
structure Label where
  gap : Gap
  link : Bool
  name : MarkName

namespace Label

/-- The sign before the name. -/
def sign (l : Label) : Char := if l.link then '^' else '#'

/-- The label as it is written. -/
def text (l : Label) : List Char := l.gap.text ++ l.sign :: l.name.text

/-- The label that is read. -/
def mark (l : Label) : Mark := if l.link then .link l.name.string else .tag l.name.string

theorem sign_cases (l : Label) : l.sign = '#' ∨ l.sign = '^' := by
  rw [sign]
  split
  · exact .inr rfl
  · exact .inl rfl

theorem mark?_append (l : Label) {rest : List Char}
    (hr : ∀ c ∈ rest.head?, Token.isMarkChar c = false) :
    Token.mark? (l.sign :: (l.name.text ++ rest)) = some (l.mark, l.name.text.length + 1) := by
  obtain ⟨gap, link, name⟩ := l
  cases link with
  | false => exact mark?_signed (.inl ⟨rfl, rfl⟩) name hr
  | true => exact mark?_signed (.inr ⟨rfl, rfl⟩) name hr

end Label

/-- Labels in a row. -/
def labelsText (ls : List Label) : List Char := ls.flatMap Label.text

/-- What may come behind a header: the end of its line or a comment. -/
def headingEnds : List Char := ['\n', ';']

/-- What may come behind the titles: labels, too. -/
def titleEnds : List Char := '#' :: '^' :: headingEnds

theorem visible_of_titleEnds {c : Char} (h : c ∈ titleEnds) :
    isInlineBlank c = false ∧ Token.isMarkChar c = false ∧ c ≠ '"' := by
  simp only [titleEnds, headingEnds, List.mem_cons, List.not_mem_nil, or_false] at h
  rcases h with rfl | rfl | rfl | rfl
  all_goals decide

theorem Behind.mono {cs ds rest : List Char} (h : Behind cs rest) (hsub : cs ⊆ ds) :
    Behind ds rest := by
  obtain ⟨g, c, more, hc, rfl⟩ := h
  exact ⟨g, c, more, hsub hc, rfl⟩

/-- Labels start with a sign behind their white space. -/
theorem behind_labelsText_cons (l : Label) (ls : List Label) (rest : List Char) :
    Behind titleEnds (labelsText (l :: ls) ++ rest) := by
  refine ⟨l.gap, l.sign, l.name.text ++ (labelsText ls ++ rest), ?_, ?_⟩
  · rcases l.sign_cases with h | h
    · simp [titleEnds, h]
    · simp [titleEnds, h]
  · simp [labelsText, Label.text]

/-- Labels are what comes behind the titles. -/
theorem behind_labelsText (ls : List Label) {rest : List Char} (hr : Behind headingEnds rest) :
    Behind titleEnds (labelsText ls ++ rest) := by
  cases ls with
  | nil => exact hr.mono fun c hc => List.mem_cons_of_mem _ (List.mem_cons_of_mem _ hc)
  | cons l ls => exact behind_labelsText_cons l ls rest

/-- No name goes on there. -/
theorem Behind.head?_isMarkChar {rest : List Char} (h : Behind titleEnds rest) :
    ∀ c ∈ rest.head?, Token.isMarkChar c = false := by
  obtain ⟨g, c, more, hc, rfl⟩ := h
  intro d hd
  rcases hg : g.text with _ | ⟨b, bs⟩
  · rw [hg] at hd
    obtain rfl : c = d := by simpa using hd
    exact (visible_of_titleEnds hc).2.1
  · rw [hg] at hd
    obtain rfl : b = d := by simpa using hd
    have hb : isBlank b = true := (Bool.and_eq_true_iff.1 (g.blank b (by simp [hg]))).1
    by_contra hmark
    rw [Token.visible_isMarkChar b (by simpa using hmark)] at hb
    cases hb

theorem marks_headingEnd {rest : List Char} (hr : Behind headingEnds rest) :
    Token.marks rest = ([], 0) := by
  obtain ⟨g, c, more, hc, rfl⟩ := hr
  have hinline : isInlineBlank c = false :=
    (visible_of_titleEnds (List.mem_cons_of_mem _ (List.mem_cons_of_mem _ hc))).1
  rw [Token.marks_eq, g.drop_inlineBlanks_append hinline]
  have hnone : Token.mark? (c :: more) = none := by
    have hne : c ≠ '#' ∧ c ≠ '^' := by
      simp only [headingEnds, List.mem_cons, List.not_mem_nil, or_false] at hc
      rcases hc with rfl | rfl
      all_goals decide
    simp [Token.mark?, hne]
  rw [hnone]

/-- Where no name goes on behind labels, none goes on where they start. -/
theorem head?_labelsText (ls : List Label) {rest : List Char}
    (hr : ∀ c ∈ rest.head?, Token.isMarkChar c = false) :
    ∀ c ∈ (labelsText ls ++ rest).head?, Token.isMarkChar c = false := by
  cases ls with
  | nil => exact hr
  | cons l ls => exact (behind_labelsText_cons l ls rest).head?_isMarkChar

theorem Label.isInlineBlank_sign (l : Label) : isInlineBlank l.sign = false := by
  rcases l.sign_cases with h | h
  · rw [h]
    decide
  · rw [h]
    decide

/-- Labels are read one by one, up to what comes behind them. -/
theorem marks_labelsText_append (ls : List Label) {rest : List Char}
    (hr : ∀ c ∈ rest.head?, Token.isMarkChar c = false) :
    Token.marks (labelsText ls ++ rest) =
      (ls.map Label.mark ++ (Token.marks rest).1, (labelsText ls).length + (Token.marks rest).2) := by
  induction ls with
  | nil => simp [labelsText]
  | cons l ls ih =>
      have htext : labelsText (l :: ls) ++ rest =
          l.gap.text ++ l.sign :: (l.name.text ++ (labelsText ls ++ rest)) := by
        simp [labelsText, Label.text]
      have hmark := l.mark?_append (head?_labelsText ls hr)
      have hdrop : (l.gap.text ++ l.sign :: (l.name.text ++ (labelsText ls ++ rest))).drop
          (l.gap.text.length + (l.name.text.length + 1)) = labelsText ls ++ rest := by
        rw [← List.drop_drop, List.drop_left, List.drop_succ_cons, List.drop_left]
      rw [htext, Token.marks_eq, l.gap.drop_inlineBlanks_append l.isInlineBlank_sign, hmark]
      simp only [l.gap.inlineBlanks_append l.isInlineBlank_sign, hdrop, ih]
      refine Prod.ext rfl ?_
      simp [labelsText, Label.text]
      omega

/-- **Labels are read back.** -/
theorem marks_labelsText (ls : List Label) {rest : List Char} (hr : Behind headingEnds rest) :
    Token.marks (labelsText ls ++ rest) = (ls.map Label.mark, (labelsText ls).length) := by
  have hhead : ∀ c ∈ rest.head?, Token.isMarkChar c = false :=
    (behind_labelsText [] hr).head?_isMarkChar
  rw [marks_labelsText_append ls hhead, marks_headingEnd hr, List.append_nil, Nat.add_zero]

/-! ## Headings -/

/-- The first line of a transaction: a date, a flag, one quoted string or
two, tags and links, with white space before each part or none. -/
structure Heading where
  date : Word Token.date
  beforeFlag : Gap
  flag : Word Token.flag
  beforeTitles : Gap
  /-- the payee with the white space behind it, if there is one -/
  payee : Option (Quotation × Gap)
  narration : Quotation
  labels : List Label

namespace Heading

/-- Payee and narration as they are written. -/
def titlesText (payee : Option (Quotation × Gap)) (narration : Quotation) : List Char :=
  match payee with
  | none => narration.text
  | some (p, g) => p.text ++ (g.text ++ narration.text)

/-- The line as it is written. -/
def text (h : Heading) : List Char :=
  h.date.text ++ (h.beforeFlag.text ++ h.flag.text ++
    (h.beforeTitles.text ++ titlesText h.payee h.narration ++ labelsText h.labels))

/-- The header that is read. -/
def header (h : Heading) : Transaction.Header :=
  ⟨h.date.string, h.flag.string, h.payee.map (·.1.string), h.narration.string,
    h.labels.map Label.mark⟩

theorem takes_shape {ps : List (Char → Bool)} (w : Word (.shape ps)) :
    Takes (fun _ => True) (Lexeme.shape ps).read w.text w.string := by
  intro rest _
  rw [Lexeme.read, Lexeme.shape_append w.whole]
  rfl

theorem solid_titlesText (payee : Option (Quotation × Gap)) (narration : Quotation) :
    Solid (titlesText payee narration) := by
  cases payee with
  | none => exact narration.solid
  | some p => exact p.1.solid.append _

theorem takes_titles (payee : Option (Quotation × Gap)) (narration : Quotation) :
    Takes (Behind titleEnds) Transaction.titles (titlesText payee narration)
      (payee.map (·.1.string), narration.string) := by
  cases payee with
  | none =>
      rintro rest ⟨g, c, more, hc, rfl⟩
      obtain ⟨hinline, -, hquote⟩ := visible_of_titleEnds hc
      have hsecond : Transaction.secondTitle narration.string (g.text ++ c :: more) =
          .found (none, narration.string) 0 := by
        rw [Transaction.secondTitle_eq, Transaction.behindBlanks,
          g.drop_inlineBlanks_append hinline, Token.quoted_eq_absent (by simpa using hquote)]
        rfl
      rw [Transaction.titles_eq, titlesText, narration.takes (fun _ => True) _ trivial,
        Reading.andThen, List.drop_left, hsecond]
      rfl
  | some p =>
      refine (p.1.takes fun _ => True).andThen (u := p.2.text ++ narration.text) ?_
        fun _ _ => trivial
      intro rest hr
      have hsecond := (narration.takes (Behind titleEnds)).behindGap narration.solid p.2 rest hr
      show Transaction.secondTitle p.1.string (p.2.text ++ narration.text ++ rest) = _
      rw [Transaction.secondTitle_eq, hsecond]
      rfl

/-- **The first line is read** as far as it is written. -/
theorem takes (h : Heading) :
    Takes (Behind headingEnds) Transaction.header h.text h.header := by
  refine (takes_shape h.date).andThen ?_ fun _ _ => trivial
  refine ((takes_shape h.flag).behindGap (h.flag.solid Token.separate_flag) h.beforeFlag).andThen
    ?_ fun _ _ => trivial
  refine ((takes_titles h.payee h.narration).behindGap (solid_titlesText _ _)
    h.beforeTitles).andThen ?_ fun rest => behind_labelsText h.labels
  intro rest hr
  show (Transaction.trailingMarks (labelsText h.labels ++ rest)).map _ = _
  rw [Transaction.trailingMarks, marks_labelsText h.labels hr]
  rfl

/-! ## A comment behind the first line -/

theorem behind_newline (below : List Char) : Behind headingEnds ('\n' :: below) :=
  ⟨⟨[], List.forall_mem_nil _⟩, '\n', below, by decide, rfl⟩

theorem behind_comment (rest : List Char) : Behind headingEnds (' ' :: ';' :: rest) :=
  ⟨⟨[' '], List.forall_mem_singleton.2 rfl⟩, ';', rest, by decide, rfl⟩

theorem read_value (h : Heading) {rest : List Char} (hr : Behind headingEnds rest) :
    (Transaction.read (h.text ++ rest)).value? =
      (Transaction.afterHeader h.header rest).value? := by
  rw [Transaction.read_eq, h.takes rest hr, andThen, List.drop_left, value?_shift]

end Heading
end Written

namespace Transaction

theorem bodyAndIdle_value (h : Header) (cs : List Char) :
    (bodyAndIdle h cs).value? = (body cs).value?.map h.entry := by
  rw [bodyAndIdle]
  cases body cs <;> rfl

/-- At the end of the first line, the body below is read. -/
theorem afterHeader_newline (h : Header) (below : List Char) :
    (afterHeader h ('\n' :: below)).value? = (body below).value?.map h.entry := by
  have hend : endsWithComment ('\n' :: below) = false := rfl
  rw [afterHeader, hend, if_neg Bool.false_ne_true, value?_shift, lineLength_newline,
    List.drop_succ_cons, List.drop_zero, bodyAndIdle_value]

/-- Behind a comment, too, unless the comment closes the transaction. -/
theorem afterHeader_comment (h : Header) {comment : List Char} (hc : '\n' ∉ comment)
    (below : List Char) :
    (afterHeader h (' ' :: ';' :: (comment ++ '\n' :: below))).value? =
      if endsWithComment (' ' :: ';' :: (comment ++ '\n' :: below)) then some (h.entry ⟨[], []⟩)
      else (body below).value?.map h.entry := by
  have hline : '\n' ∉ ' ' :: ';' :: comment := by simp [hc]
  have hlength := lineLength_line (' ' :: ';' :: comment) below hline
  have hdrop := drop_line (' ' :: ';' :: comment) below
  rw [List.cons_append, List.cons_append] at hlength hdrop
  rw [afterHeader]
  split
  · rfl
  · rw [value?_shift, hlength, hdrop, bodyAndIdle_value]

/-- A line that does not consist of spaces and tabs alone holds something
behind its indent. -/
theorem exists_behind_indent {cs : List Char} (h : ∃ c ∈ lineAhead cs, isIndent c = false) :
    ∃ c rest, cs.drop (indentWidth cs) = c :: rest ∧ c ≠ '\n' := by
  have hne : lineAhead (cs.drop (indentWidth cs)) ≠ [] := by
    obtain ⟨c, hc, hindent⟩ := h
    rw [lineAhead_drop (indentWidth_le_lineAhead cs), ← onLine_indentWidth cs, drop_indentWidth]
    intro hnil
    rw [List.dropWhile_eq_nil_iff.1 hnil c hc] at hindent
    cases hindent
  cases hd : cs.drop (indentWidth cs) with
  | nil => exact absurd (by rw [hd]; rfl) hne
  | cons c rest =>
      refine ⟨c, rest, rfl, ?_⟩
      rintro rfl
      exact hne (by rw [hd]; rfl)

/-- **A comment closes a transaction only where it has no body.** -/
theorem body_of_endsWithComment {comment below : List Char} (hc : '\n' ∉ comment)
    (hb : below = [] ∨ ∃ c ∈ lineAhead below, isIndent c = false)
    (hend : endsWithComment (' ' :: ';' :: (comment ++ '\n' :: below)) = true) :
    body below = .found ⟨[], []⟩ 0 := by
  apply Written.body_outdented
  rw [Written.Outdented]
  rcases hb with rfl | hb
  · rw [List.drop_nil]
    decide
  · obtain ⟨c, rest, hdrop, hne⟩ := exists_behind_indent hb
    have hline : '\n' ∉ ' ' :: ';' :: comment := by simp [hc]
    have hbelow : below ≠ [] := by
      rintro rfl
      simp at hdrop
    -- the next line is not blank, so its indent is what the comment depends on
    have hnext := nextIndent_line (' ' :: ';' :: comment) below hline
    rw [if_neg hbelow, hdrop, if_neg (by simpa using hne), List.cons_append,
      List.cons_append] at hnext
    rw [endsWithComment] at hend
    split at hend
    · cases hend
    · rw [hnext, Bool.and_eq_true] at hend
      rw [blankLines_eq_zero (by simpa [hdrop] using hne), List.drop_zero]
      simpa using hend.2

end Transaction

namespace Written

/-- **A comment behind the first line changes nothing** of a transaction,
whatever it says, unless a blank line comes next. -/
theorem Heading.read_commented (h : Heading) {comment below : List Char} (hc : '\n' ∉ comment)
    (hb : below = [] ∨ ∃ c ∈ lineAhead below, isIndent c = false) (e : Entry) :
    (∃ n, Transaction.read (h.text ++ '\n' :: below) = .found e n) ↔
      ∃ n, Transaction.read (h.text ++ ' ' :: ';' :: (comment ++ '\n' :: below)) =
        .found e n := by
  have hplain := h.read_value (behind_newline below)
  have hcommented := h.read_value (behind_comment (comment ++ '\n' :: below))
  rw [Transaction.afterHeader_newline] at hplain
  rw [Transaction.afterHeader_comment h.header hc] at hcommented
  rw [← value?_eq_some_iff, ← value?_eq_some_iff, hplain, hcommented]
  split
  · next hend =>
    rw [Transaction.body_of_endsWithComment hc hb hend]
    rfl
  · rfl

/-- The first line of a purchase: the flag stands close to the payee, and
tabs separate the narration and the link. -/
def purchase : Heading where
  date := ⟨"2024-01-01".toList, rfl⟩
  beforeFlag := ⟨[' '], List.forall_mem_singleton.2 rfl⟩
  flag := ⟨['*'], rfl⟩
  beforeTitles := ⟨[], List.forall_mem_nil _⟩
  payee := some (⟨_, "The \"Shop\"".toList, Quoted.spells_encode _⟩,
    ⟨['\t'], List.forall_mem_singleton.2 rfl⟩)
  narration := ⟨_, "Lunch".toList, Quoted.spells_encode _⟩
  labels := [⟨⟨['\t'], List.forall_mem_singleton.2 rfl⟩, true, ⟨"trip".toList, rfl⟩⟩]

/-- A comment that closes the transaction, and one above a body. -/
theorem Heading.read_commented_purchase :
    (∃ n, Transaction.read (purchase.text ++ ' ' :: ';' :: ("; \"paid".toList ++
        '\n' :: "2024".toList)) = .found (purchase.header.entry ⟨[], []⟩) n) ∧
      ∃ n, Transaction.read (purchase.text ++ ' ' :: ';' :: (" #paid".toList ++
        '\n' :: "  k: true\n".toList)) =
          .found (purchase.header.entry ⟨[], [("k", .bool true)]⟩) n := by
  constructor
  · exact (purchase.read_commented (by decide) (.inr ⟨'2', by decide, by decide⟩) _).1
      ⟨_, by with_unfolding_all rfl⟩
  · exact (purchase.read_commented (by decide) (.inr ⟨'k', by decide, by decide⟩) _).1
      ⟨_, by with_unfolding_all rfl⟩

end Written
end Daybook
