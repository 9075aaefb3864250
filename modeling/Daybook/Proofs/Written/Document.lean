import Daybook.Proofs.Written.Transaction

/-!
# Written — documents

A document is written as its entries one after another, with blank lines
and comments between them. It is read back: the entries come in their
order, each with the line it was written on. The end of an entry is found
only by what stands below it, and what an entry passes over there the
walk passes over as well.
-/

namespace Daybook

open Daybook.Text Daybook.Reading

namespace Written

/-! ## Entries -/

/-- An entry as it may be written. Its metadata leaves the key for the
place free. -/
inductive Record where
  | statement (s : Statement) (date : Word Token.date) (labels : Labels) (metadata : Block)
      (free : "location" ∉ Pairs.names metadata.value)
  | deal (d : Deal) (free : "location" ∉ Pairs.names d.metadata.value)

namespace Record

/-- The date that starts the entry. -/
def date : Record → Word Token.date
  | statement _ date _ _ _ => date
  | deal d _ => d.head.date

/-- The word behind the date. -/
def lead : Record → List Char
  | statement s _ _ _ _ => s.kind.toList
  | deal d _ => d.head.flag.text

/-- The lines of the entry. -/
def text : Record → List Char
  | statement s date labels metadata _ => s.text date labels metadata
  | deal d _ => d.text

/-- The entry, without its place. -/
def entry : Record → Entry
  | statement s date labels metadata _ => s.entry date labels metadata
  | deal d _ => d.entry

/-- The entry as it is read from the given line of a source. -/
def located (r : Record) (source : String) (line : Nat) : Entry :=
  { r.entry with
    metadata := r.entry.metadata ++ [("location", .text (Entry.place source line))] }

theorem locatedAt_entry (r : Record) (source : String) (line : Nat) :
    r.entry.locatedAt (Entry.place source line) = r.located source line := by
  have hfree : "location" ∉ r.entry.metadata.names := by
    cases r with
    | statement s date labels metadata free => exact free
    | deal d free => exact free
  rw [Entry.locatedAt, Pairs.put_of_notMem hfree]
  rfl

/-- A date, a space and the word behind it start the entry. -/
theorem text_eq (r : Record) (rest : List Char) :
    ∃ tail, Apart tail ∧ r.text ++ rest = r.date.text ++ ' ' :: (r.lead ++ tail) := by
  cases r with
  | statement s date labels metadata free =>
      have hend : Apart (labels.text ++ '\n' :: (metadata.text Directive.metadataIndent ++ rest)) :=
        labels.apart (LineEnd.apart ⟨_, rfl⟩)
      refine ⟨_, apart_rowText s.columns hend, ?_⟩
      simp [text, Record.date, lead, Statement.text, rowText, Column.keyword]
  | deal d free =>
      refine ⟨_, apart_space (titlesText d.head.payee d.head.narration ++ (d.head.labels.text ++
        '\n' :: (d.metadata.text Transaction.bodyIndent ++ (legsText d.legs ++ rest)))), ?_⟩
      simp [text, Record.date, lead, Deal.text, Head.text]

theorem solid (r : Record) (rest : List Char) : Solid (r.text ++ rest) := by
  obtain ⟨tail, -, htext⟩ := r.text_eq rest
  rw [htext]
  exact (r.date.solid Token.separate_date).append _

/-- No comment starts like an entry. -/
theorem gap_text (r : Record) (rest : List Char) : Grammar.gap (r.text ++ rest) = 0 := by
  obtain ⟨tail, -, htext⟩ := r.text_eq rest
  refine Grammar.gap_eq_zero_iff.2 ⟨(r.solid rest).atMargin, ?_⟩
  have hwhole := r.date.whole
  rw [htext]
  cases hdate : r.date.text with
  | nil => simp [hdate, Token.date, Lexeme.shape] at hwhole
  | cons c cs =>
      have hdigit : isDecimalDigit c = true := by
        by_contra hno
        simp [hdate, Token.date, Lexeme.shape, hno] at hwhole
      have hsemi : c ≠ ';' := by
        rintro rfl
        exact absurd hdigit (by decide)
      have hstar : '*' ≠ c := by
        rintro rfl
        exact absurd hdigit (by decide)
      simp [Grammar.startsComment, hsemi, hstar, List.isPrefixOf_cons_cons]

end Record

/-! ## Telling entries apart -/

/-- The directive for transactions. -/
def transactionDirective : Directive := .custom "transaction" fun c => Transaction.read c.rest

/-- The directive wants a word behind the date of which `p` holds. -/
inductive Wants : Directive → (List Char → Bool) → Prop where
  | keyword {word : String} (hword : word ∈ keywords) (kind : String) (fs : List Field) :
      Wants (.schema kind (Builtin.header word ++ fs)) (· == word.toList)
  | flag : Wants transactionDirective fun w => w.head?.any fun c => c == '*' || c == '!'

/-- **Where another word stands behind the date, a directive is absent.** -/
theorem Wants.absent {d : Directive} {p : List Char → Bool} (h : Wants d p)
    (date : Word Token.date) {w rest : List Char} (hs : Solid w)
    (hw : ∀ c ∈ w, isBlank c = false) (hp : p w = false) (hr : Apart rest) :
    d.body Builtin.registry (date.text ++ ' ' :: (w ++ rest)) = .absent := by
  cases h with
  | keyword hword kind fs =>
      exact schema_absent hword fs date hs hw (by simpa using hp) hr
  | flag =>
      obtain ⟨c, cs, rfl, hc⟩ := hs
      exact read_absent date (by simpa using hp) hc (cs ++ rest)

namespace Record

/-- The directive that reads the entry. -/
def directive : Record → Directive
  | statement s _ _ _ _ => s.directive
  | deal _ _ => transactionDirective

theorem flag_cases (w : Word Token.flag) : w.text = ['*'] ∨ w.text = ['!'] := by
  have hwhole := w.whole
  cases htext : w.text with
  | nil => simp [htext, Token.flag, Lexeme.shape] at hwhole
  | cons c cs =>
      simp only [htext, Token.flag, Lexeme.shape, Option.ite_none_right_eq_some, Bool.or_eq_true,
        beq_iff_eq, Option.map_some, Option.some.injEq, List.cons.injEq, true_and] at hwhole
      obtain ⟨rfl | rfl, rfl⟩ := hwhole
      · exact .inl rfl
      · exact .inr rfl

/-- The word behind the date can be seen, so it ends where white space
comes next. -/
theorem lead_visible (r : Record) : Solid r.lead ∧ ∀ c ∈ r.lead, isBlank c = false := by
  have hsolid : ∀ w : List Char, w ≠ [] → (∀ c ∈ w, isBlank c = false) →
      Solid w ∧ ∀ c ∈ w, isBlank c = false := by
    intro w hne hw
    cases w with
    | nil => exact absurd rfl hne
    | cons c cs => exact ⟨⟨c, cs, rfl, hw c (by simp)⟩, hw⟩
  cases r with
  | statement s date labels metadata free =>
      refine hsolid _ ?_ (visible_keywords _ s.kind_mem)
      cases s <;> simp [lead, Statement.kind]
  | deal d free =>
      rcases flag_cases d.head.flag with hflag | hflag
      · exact hsolid _ (by simp [lead, hflag]) (by simp [lead, hflag]; decide)
      · exact hsolid _ (by simp [lead, hflag]) (by simp [lead, hflag]; decide)

/-- The directives that are tried first, with what they want. -/
def wanted : List (Directive × (List Char → Bool)) :=
  [(Builtin.openDirective, (· == "open".toList)), (Builtin.closeDirective, (· == "close".toList)),
    (Builtin.balanceDirective, (· == "balance".toList)),
    (Builtin.priceDirective, (· == "price".toList)), (Builtin.noteDirective, (· == "note".toList)),
    (transactionDirective, fun w => w.head?.any fun c => c == '*' || c == '!')]

theorem wants_wanted : ∀ p ∈ wanted, Wants p.1 p.2 := by
  have hkeyword : ∀ word ∈ keywords, ∀ fs, Wants (.schema word (Builtin.header word ++ fs))
      (· == word.toList) := fun word hword fs => .keyword hword word fs
  intro p hp
  simp only [wanted, List.mem_cons, List.not_mem_nil, or_false] at hp
  rcases hp with rfl | rfl | rfl | rfl | rfl | rfl
  · exact hkeyword "open" (by simp [keywords]) _
  · exact hkeyword "close" (by simp [keywords]) _
  · exact hkeyword "balance" (by simp [keywords]) _
  · exact hkeyword "price" (by simp [keywords]) _
  · exact hkeyword "note" (by simp [keywords]) _
  · exact .flag

/-- The directives above the entry's own want other words. -/
theorem tries_of_index (r : Record) {source : String} (n : Nat)
    (hd : (Builtin.grammar source).directives[n]? = some r.directive)
    (hlead : ∀ p ∈ wanted.take n, p.2 r.lead = false) (rest : List Char) :
    (Builtin.grammar source).Tries (r.text ++ rest) r.directive := by
  have hall : (Builtin.grammar source).directives =
      wanted.map Prod.fst ++ [Builtin.budgetDirective] := rfl
  obtain ⟨hn, hget⟩ := List.getElem?_eq_some_iff.1 hd
  have habove : (Builtin.grammar source).directives.take n = (wanted.take n).map Prod.fst := by
    have hle : n ≤ (wanted.map Prod.fst).length := by
      rw [hall, List.length_append] at hn
      exact Nat.lt_succ_iff.1 hn
    rw [hall, List.take_append_of_le_length hle, List.map_take]
  refine ⟨(Builtin.grammar source).directives.take n,
    (Builtin.grammar source).directives.drop (n + 1), ?_, ?_⟩
  · rw [← hget, List.getElem_cons_drop, List.take_append_drop]
  · intro d hmem
    rw [habove] at hmem
    obtain ⟨p, hp, rfl⟩ := List.mem_map.1 hmem
    obtain ⟨tail, htail, htext⟩ := r.text_eq rest
    obtain ⟨hsolid, hvisible⟩ := r.lead_visible
    rw [htext]
    have hwants := wants_wanted p (List.mem_of_mem_take hp)
    exact hwants.absent r.date hsolid hvisible (hlead p hp) htail

/-- **The first directive that answers is the entry's own.** -/
theorem tries (r : Record) (source : String) (rest : List Char) :
    (Builtin.grammar source).Tries (r.text ++ rest) r.directive := by
  cases r with
  | statement s date labels metadata free =>
      cases s with
      | opens a codes =>
          cases codes with
          | nil => exact tries_of_index _ 0 rfl (by simp) rest
          | cons first more => exact tries_of_index _ 0 rfl (by simp) rest
      | closes a => exact tries_of_index _ 1 rfl (by simp [wanted, lead, Statement.kind]) rest
      | balance a q => exact tries_of_index _ 2 rfl (by simp [wanted, lead, Statement.kind]) rest
      | price t q => exact tries_of_index _ 3 rfl (by simp [wanted, lead, Statement.kind]) rest
      | note a t => exact tries_of_index _ 4 rfl (by simp [wanted, lead, Statement.kind]) rest
      | budget a q period =>
          cases period with
          | none => exact tries_of_index _ 6 rfl (by simp [wanted, lead, Statement.kind]) rest
          | some p => exact tries_of_index _ 6 rfl (by simp [wanted, lead, Statement.kind]) rest
  | deal d free =>
      refine tries_of_index _ 5 rfl ?_ rest
      rcases flag_cases d.head.flag with hflag | hflag <;> simp [wanted, lead, hflag]

end Record

/-! ## What an entry passes over below it -/

/-- From behind these characters, the walk goes on as from before them. -/
def Passed (cs : List Char) (k : Nat) : Prop :=
  ∀ (g : Grammar) (c : Cursor), c.rest = cs → g.items (c.advance k) = g.items c

theorem passed_zero (cs : List Char) : Passed cs 0 := by
  intro g c _
  rw [Cursor.advance_zero]

theorem passed_blankLines (cs : List Char) : Passed cs (blankLines cs) := by
  rintro g c rfl
  exact Grammar.items_blankLines

theorem passed_idleLines (cs : List Char) : Passed cs (Transaction.idleLines cs) := by
  rintro g c rfl
  exact Grammar.items_idleLines

theorem Passed.add {cs : List Char} {m n : Nat} (hm : Passed cs m) (hn : Passed (cs.drop m) n) :
    Passed cs (m + n) := by
  intro g c hc
  rw [← Cursor.advance_advance, hn g (c.advance m) (by rw [Cursor.rest_advance, hc]), hm g c hc]

theorem Outdented.mono {m n : Nat} {cs : List Char} (h : Outdented m cs) (hle : m ≤ n) :
    Outdented n cs := Nat.lt_of_lt_of_le h hle

namespace Record

/-- **An entry is read back.** What it takes of the text below it, the
walk would pass over. -/
theorem body_text (r : Record) {rest : List Char} (h : Outdented 1 rest) :
    ∃ k, Passed rest k ∧ r.directive.body Builtin.registry (r.text ++ rest) =
      .found r.entry (r.text.length + k) := by
  cases r with
  | statement s date labels metadata free =>
      refine ⟨metadata.behind rest, ?_, s.body_text date labels metadata (h.mono (by decide))⟩
      rcases metadata.behind_cases rest with hk | hk
      · rw [hk]
        exact passed_zero rest
      · rw [hk]
        exact passed_blankLines rest
  | deal d free =>
      obtain ⟨k, hk, hread⟩ := d.read_text (h.mono (by decide) : Outdented _ rest)
      refine ⟨k + Transaction.idleLines (rest.drop k), ?_, ?_⟩
      · refine Passed.add ?_ (passed_idleLines _)
        rcases hk with rfl | rfl
        · exact passed_zero rest
        · exact passed_blankLines rest
      · rw [← Nat.add_assoc]
        exact hread

theorem entryAt_text (r : Record) (source : String) {c : Cursor} {rest : List Char}
    (hc : c.rest = r.text ++ rest) (h : Outdented 1 rest) :
    ∃ k, Passed rest k ∧ (Builtin.grammar source).entryAt c =
      .ok (r.located c.source c.line, r.text.length + k) := by
  obtain ⟨k, hk, hbody⟩ := r.body_text h
  have hfirst := Grammar.firstBody_of_tries (r.tries source rest) hbody
  refine ⟨k, hk, ?_⟩
  rw [Grammar.entryAt_eq (Builtin.ofShape_grammar source), hc, hfirst]
  simp only [Cursor.location_eq, r.locatedAt_entry]

/-- **The walk takes the entry, and goes on behind it.** -/
theorem items_text (r : Record) (source : String) {c : Cursor} {rest : List Char}
    (hc : c.rest = r.text ++ rest) (h : Outdented 1 rest) :
    ∃ item : Item, item.entry = r.located c.source c.line ∧ (Builtin.grammar source).items c =
      (item :: ((Builtin.grammar source).items (c.advance r.text.length)).1,
        ((Builtin.grammar source).items (c.advance r.text.length)).2) := by
  obtain ⟨k, hk, hentry⟩ := r.entryAt_text source hc h
  have hne : c.rest ≠ [] := by
    rw [hc]
    exact (r.solid rest).ne_nil
  have hgap : Grammar.gap c.rest = 0 := by
    rw [hc]
    exact r.gap_text rest
  have hpos := Grammar.entryAt_pos (Builtin.ofShape_grammar source) hne hentry
  have hbehind : (c.advance r.text.length).rest = rest := by
    rw [Cursor.rest_advance, hc, List.drop_left]
  have hitems := Grammar.items_found hgap hne hentry hpos
  rw [← Cursor.advance_advance, hk _ _ hbehind] at hitems
  exact ⟨_, rfl, hitems⟩

end Record

/-! ## Documents -/

/-- What a document is made of: empty lines, lines with a comment, and
entries. -/
inductive Piece where
  | blank
  | comment (text : List Char) (single : '\n' ∉ text)
  | record (r : Record)

/-- The lines of the piece. -/
def Piece.text : Piece → List Char
  | blank => ['\n']
  | comment text _ => ';' :: (text ++ ['\n'])
  | record r => r.text

/-- The entry that the piece is, if it is one. -/
def Piece.entries (source : String) (line : Nat) : Piece → List Entry
  | record r => [r.located source line]
  | _ => []

/-- The text of the document. -/
def print (ps : List Piece) : List Char := ps.flatMap Piece.text

/-- The entries of the document, which starts at the given line. -/
def entries (source : String) : Nat → List Piece → List Entry
  | _, [] => []
  | line, p :: ps => p.entries source line ++ entries source (line + p.text.count '\n') ps

theorem outdented_of_atMargin {cs : List Char} (h : AtMargin cs) : Outdented 1 cs := by
  have hzero : indentWidth cs = 0 := h.indentWidth_eq_zero
  have hblank : blankLines cs = 0 := by
    refine blankLines_eq_zero ?_
    rw [hzero, List.drop_zero]
    exact h.head?_ne_newline
  rw [Outdented, hblank, List.drop_zero, hzero]
  exact Nat.one_pos

/-- **Whatever comes next in a document, its line is not indented.** -/
theorem outdented_print (ps : List Piece) : Outdented 1 (print ps) := by
  induction ps with
  | nil => exact outdented_of_atMargin (by simp [print, AtMargin])
  | cons p ps ih =>
      have htext : print (p :: ps) = p.text ++ print ps := rfl
      rw [htext]
      cases p with
      | blank =>
          have hzero := indentWidth_newline (print ps)
          have hlines : blankLines ('\n' :: print ps) = 1 + blankLines (print ps) := by
            have hfront : ('\n' :: print ps).drop (indentWidth ('\n' :: print ps)) =
                '\n' :: print ps := by rw [hzero, List.drop_zero]
            rw [blankLines_of_blank hfront, hzero]
          show Outdented 1 ('\n' :: print ps)
          rw [Outdented, hlines, ← List.drop_drop]
          exact ih
      | comment text single =>
          exact outdented_of_atMargin (Solid.atMargin ⟨';', _, rfl, by decide⟩)
      | record r => exact outdented_of_atMargin (r.solid _).atMargin

theorem passed_blank (rest : List Char) : Passed ('\n' :: rest) 1 := by
  intro g c hc
  exact (Grammar.items_newline hc).symm

theorem passed_comment {text : List Char} (h : '\n' ∉ text) (rest : List Char) :
    Passed (';' :: (text ++ ['\n']) ++ rest) (';' :: (text ++ ['\n'])).length := by
  intro g c hc
  have hline : (';' :: (text ++ ['\n'])) ++ rest = (';' :: text) ++ '\n' :: rest := by simp
  have hlength : lineLength c.rest = (';' :: (text ++ ['\n'])).length := by
    rw [hc, hline, lineLength_line _ _ (by simpa using h)]
    simp
  have hidle : Grammar.idleFront c.rest = true := by
    refine Grammar.idleFront_of_indent ?_
    have hzero : indentWidth c.rest = 0 := by
      rw [hc, hline, List.cons_append, indentWidth, List.takeWhile_cons_of_neg (by decide)]
      rfl
    rw [hzero, hc, List.drop_zero]
    rfl
  rw [← hlength]
  exact (Grammar.items_idleFront hidle).symm

/-- **The walk reads the document back**, from wherever it starts. -/
theorem items_print (source : String) (ps : List Piece) {c : Cursor} (h : c.rest = print ps) :
    ((Builtin.grammar source).items c).2 = none ∧
      ((Builtin.grammar source).items c).1.map (·.entry) = entries c.source c.line ps := by
  induction ps generalizing c with
  | nil =>
      rw [Grammar.items_nil h]
      exact ⟨rfl, rfl⟩
  | cons p ps ih =>
      have htext : c.rest = p.text ++ print ps := h
      have hbehind : (c.advance p.text.length).rest = print ps := by
        rw [Cursor.rest_advance, htext, List.drop_left]
      have hline : (c.advance p.text.length).line = c.line + p.text.count '\n' := by
        rw [Cursor.line_advance, htext, List.take_left]
      obtain ⟨hnone, hentries⟩ := ih hbehind
      rw [Cursor.source_advance, hline] at hentries
      have hpassed : Passed c.rest p.text.length → p.entries c.source c.line = [] →
          ((Builtin.grammar source).items c).2 = none ∧
            ((Builtin.grammar source).items c).1.map (·.entry) =
              entries c.source c.line (p :: ps) := by
        intro hskip hnothing
        rw [← hskip (Builtin.grammar source) c rfl, entries, hnothing, List.nil_append]
        exact ⟨hnone, hentries⟩
      cases p with
      | blank => exact hpassed (htext ▸ passed_blank (print ps)) rfl
      | comment text single => exact hpassed (htext ▸ passed_comment single (print ps)) rfl
      | record r =>
          obtain ⟨item, hentry, hitems⟩ := r.items_text source htext (outdented_print ps)
          rw [hitems]
          refine ⟨hnone, ?_⟩
          rw [List.map_cons, hentry, entries]
          exact congrArg _ hentries

/-- **Documents are read back as they were written**: the entries in
their order, each with the line it was written on. -/
theorem parseText_print (ps : List Piece) (source : String) :
    parseText (String.ofList (print ps)) Builtin.modules source = .ok (entries source 1 ps) := by
  obtain ⟨hnone, hentries⟩ := items_print source ps
    (c := .start source (String.ofList (print ps)).toList) (by simp)
  have hwalk : (Builtin.grammar source).walk (String.ofList (print ps)) =
      (((Builtin.grammar source).walk (String.ofList (print ps))).1, none) := Prod.ext rfl hnone
  rw [Builtin.parseText_modules, Grammar.parse, hwalk]
  exact congrArg Except.ok hentries

/-- Two and a half dollars. -/
def counted : Quantity where
  numeral := ⟨false, ['2'], some ['5']⟩
  isNumeral := by
    refine ⟨⟨List.cons_ne_nil _ _, List.forall_mem_singleton.2 rfl⟩, ?_⟩
    rintro ds ⟨⟩
    exact ⟨List.cons_ne_nil _ _, List.forall_mem_singleton.2 rfl⟩
  code := ⟨"USD".toList, rfl⟩

/-- A comment, and below it the balance of an account. -/
def countedCash : List Piece :=
  [.comment " counted".toList (by decide),
    .record (.statement (.balance ⟨"Assets:Cash".toList, rfl⟩ counted) ⟨"2024-01-02".toList, rfl⟩
      ⟨[], []⟩ ⟨[], List.nodup_nil⟩ (by decide))]

/-- The entry knows its line, and its amount is the float that the digits
denote. -/
example : print countedCash = "; counted\n2024-01-02 balance Assets:Cash 2.5 USD\n".toList ∧
    entries "books" 1 countedCash = [⟨"2024-01-02", [("location", .text "books:2")],
      .plain "balance" [("keyword", .text "balance"), ("account", .text "Assets:Cash"),
        ("amount", .amount ⟨2.5, "USD"⟩)]⟩] := ⟨rfl, rfl⟩

end Written
end Daybook
