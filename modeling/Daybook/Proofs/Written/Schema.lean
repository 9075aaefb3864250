import Daybook.Proofs.Written.Metadata
import Daybook.Proofs.Builtin

/-!
# Written — schema lines

An entry of a builtin schema is written on one line, with its fields, tags
and links apart by spaces, and its metadata stands on indented lines
below. The keyword tells the schemas apart, and a field that may be left
out is not mistaken for the tags and links behind it.
-/

namespace Daybook

open Daybook.Text Daybook.Reading

namespace Written

/-! ## Statements -/

/-- The period of a budget. -/
structure Period where
  text : String
  isPeriod : Builtin.isPeriod (.text text) = .ok true

/-- What an entry of a builtin schema says. Currencies and the period may
be left out. -/
inductive Statement where
  | opens (account : Word Token.account) (currencies : List (Word Token.currency))
  | closes (account : Word Token.account)
  | balance (account : Word Token.account) (amount : Quantity)
  | price (commodity : String) (amount : Quantity)
  | note (account : Word Token.account) (comment : String)
  | budget (account : Word Token.account) (amount : Quantity) (period : Option Period)

/-- A field with its text on the line and its value. -/
structure Column where
  field : Field
  text : List Char
  value : Value

/-- The field for the currencies of an account. -/
def currenciesField : Field :=
  { name := "currencies", type := "array", reader := some Shape.currencies.read }

/-- The field for the commodity of a price. -/
def commodityField : Field := { name := "commodity", type := "string", required := true }

/-- The field for the comment of a note. -/
def commentField : Field :=
  { name := "comment", type := "string", required := true, reader := some Shape.quoted.read }

/-- The field for the period of a budget. -/
def periodField : Field :=
  { name := "period", type := "string", fallback := some (.text "monthly"),
    check := some (.own Builtin.isPeriod) }

namespace Column

/-- An account on the line. -/
def account (w : Word Token.account) : Column := ⟨Builtin.account, w.text, .text w.string⟩

/-- An amount on the line. -/
def amount (q : Quantity) : Column := ⟨Builtin.amount, q.text, .amount q.amount⟩

/-- The keyword on the line. -/
def keyword (word : String) : Column := ⟨Builtin.keywordField word, word.toList, .text word⟩

end Column

namespace Statement

/-- The keyword of the line, which is the kind of the entry. -/
def kind : Statement → String
  | opens .. => "open"
  | closes .. => "close"
  | balance .. => "balance"
  | price .. => "price"
  | note .. => "note"
  | budget .. => "budget"

/-- The fields that are written. -/
def columns : Statement → List Column
  | opens a [] => [.account a]
  | opens a (first :: more) => [.account a, ⟨currenciesField, first.text ++ codesText more,
      .texts ((first :: more).map Word.string)⟩]
  | closes a => [.account a]
  | balance a q => [.account a, .amount q]
  | price c q => [⟨commodityField, quote c, .text c⟩, .amount q]
  | note a c => [.account a, ⟨commentField, quote c, .text c⟩]
  | budget a q none => [.account a, .amount q]
  | budget a q (some p) => [.account a, .amount q, ⟨periodField, quote p.text, .text p.text⟩]

/-- The fields that are left out. -/
def omitted : Statement → List Field
  | opens _ [] => [currenciesField]
  | budget _ _ none => [periodField]
  | _ => []

/-- The directive of the statement. -/
def directive (s : Statement) : Directive :=
  .schema s.kind (Builtin.header s.kind ++ (s.columns.map (·.field) ++ s.omitted))

/-- The fields of the entry, but for its tags and links. -/
def fields (s : Statement) : Pairs Value :=
  ("keyword", .text s.kind) :: s.columns.map (fun c => (c.field.name, c.value)) ++
    s.omitted.filterMap fun f => f.fallback.map fun v => (f.name, v)

end Statement

/-! ## Reading columns -/

/-- The text of the column is read as its value, where white space comes
behind. -/
structure Column.Reads (c : Column) : Prop where
  takes : Takes Apart (c.field.read Builtin.registry) c.text c.value
  solid : Solid c.text

/-- Columns in a row, each behind a space. -/
def rowText (cs : List Column) : List Char := cs.flatMap fun c => ' ' :: c.text

theorem Field.takes_of_none {f : Field} {s : Shape} (h : f.ReadAs Builtin.registry s)
    (hc : f.check = none) {p : List Char → Prop} {w : List Char} {v : Value}
    (ht : Takes p s.read w v) : Takes p (f.read Builtin.registry) w v := by
  intro rest hr
  rw [Field.read_of_none h hc]
  exact ht rest hr

theorem takes_shape_amount (q : Quantity) :
    Takes Apart Shape.amount.read q.text (.amount q.amount) :=
  q.takes.map Value.amount

theorem Column.Reads.account (w : Word Token.account) : (Column.account w).Reads where
  takes := Field.takes_of_none Builtin.plain_account.reads rfl
    ((w.takes Token.separate_account).map Value.text)
  solid := w.solid Token.separate_account

theorem Column.Reads.amount (q : Quantity) : (Column.amount q).Reads where
  takes := Field.takes_of_none Builtin.plain_amount.reads rfl (takes_shape_amount q)
  solid := q.solid

theorem readAs_currencies : currenciesField.ReadAs Builtin.registry .currencies := rfl

theorem readAs_commodity : commodityField.ReadAs Builtin.registry .string := rfl

theorem readAs_comment : commentField.ReadAs Builtin.registry .quoted := rfl

theorem readAs_period : periodField.ReadAs Builtin.registry .string := rfl

theorem takes_period (p : Period) :
    Takes Apart (periodField.read Builtin.registry) (quote p.text) (.text p.text) := by
  intro rest hr
  have hstring : Shape.string.read (quote p.text ++ rest) =
      .found (.text p.text) (quote p.text).length :=
    (takes_string Apart p.text).map Value.text rest hr
  have haccept : periodField.accepts Builtin.registry (.text p.text) = .ok true := p.isPeriod
  rw [Field.read_of_readAs readAs_period, hstring, Field.checked, haccept]

/-- **Every column is read back.** -/
theorem Statement.reads (s : Statement) : ∀ c ∈ s.columns, c.Reads := by
  have hstring (t : String) : Takes Apart Shape.string.read (quote t) (.text t) :=
    (takes_string Apart t).map Value.text
  have hquoted (t : String) : Takes Apart Shape.quoted.read (quote t) (.text t) :=
    (takes_quoted Apart t).map Value.text
  have htwo {x y : Column} (hx : x.Reads) (hy : y.Reads) : ∀ c ∈ [x, y], c.Reads :=
    List.forall_mem_cons.2 ⟨hx, List.forall_mem_singleton.2 hy⟩
  cases s with
  | opens a codes =>
      cases codes with
      | nil => exact List.forall_mem_singleton.2 (.account a)
      | cons first more =>
          have hcodes : Takes Apart Shape.currencies.read (first.text ++ codesText more)
              (.texts ((first :: more).map Word.string)) :=
            (takes_currencies first more).map Value.texts
          exact htwo (.account a) ⟨Field.takes_of_none readAs_currencies rfl hcodes,
            (first.solid separate_currency).append _⟩
  | closes a => exact List.forall_mem_singleton.2 (.account a)
  | balance a q => exact htwo (.account a) (.amount q)
  | price t q =>
      exact htwo ⟨Field.takes_of_none readAs_commodity rfl (hstring t), solid_quote t⟩ (.amount q)
  | note a t =>
      exact htwo (.account a) ⟨Field.takes_of_none readAs_comment rfl (hquoted t), solid_quote t⟩
  | budget a q period =>
      cases period with
      | none => exact htwo (.account a) (.amount q)
      | some p =>
          exact List.forall_mem_cons.2 ⟨.account a,
            htwo (.amount q) ⟨takes_period p, solid_quote p.text⟩⟩

theorem apart_rowText (cs : List Column) {rest : List Char} (hr : Apart rest) :
    Apart (rowText cs ++ rest) := by
  cases cs with
  | nil => exact hr
  | cons c cs => exact apart_space _

/-- **Columns are read one by one.** -/
theorem readAll_rowText {cols : List Column} (h : ∀ c ∈ cols, c.Reads) (fs : List Field)
    (values : Pairs Value) {rest : List Char} (hr : Apart rest) :
    Field.readAll Builtin.registry (cols.map (·.field) ++ fs) values (rowText cols ++ rest) =
      (Field.readAll Builtin.registry fs
        ((cols.map fun c => (c.field.name, c.value)).foldl (fun m p => m.put p.1 p.2) values)
        rest).shift (rowText cols).length := by
  induction cols generalizing values with
  | nil => exact (Reading.shift_zero _).symm
  | cons c cols ih =>
      have hc := h c (by simp)
      have htext : rowText (c :: cols) ++ rest = ' ' :: (c.text ++ (rowText cols ++ rest)) := by
        simp [rowText]
      have hgap := inlineBlanks_space (hc.solid.append (rowText cols ++ rest))
      have hread := hc.takes _ (apart_rowText cols hr)
      have hdrop : (' ' :: (c.text ++ (rowText cols ++ rest))).drop (1 + c.text.length) =
          rowText cols ++ rest := by
        rw [Nat.add_comm, List.drop_succ_cons, List.drop_left]
      rw [htext, List.map_cons, List.cons_append, Field.readAll_cons, hgap, List.drop_succ_cons,
        List.drop_zero, hread]
      simp only [hdrop]
      rw [ih (fun c' hc' => h c' (by simp [hc'])), Reading.shift_shift, List.map_cons,
        List.foldl_cons]
      congr 1
      simp [rowText]
      omega

/-! ## Tags and links behind the columns -/

namespace Labels

/-- What tags and links add to the fields. -/
def fields (l : Labels) : Pairs Value :=
  if l.marks = [] then []
  else [("tags", .texts (l.tags.map Word.string)), ("links", .texts (l.links.map Word.string))]

/-- Behind the white space, a line of labels goes on with a sign, or it
ends. -/
theorem head_text (l : Labels) (below : List Char) :
    ∃ c rest, (l.text ++ '\n' :: below).drop (inlineBlanks (l.text ++ '\n' :: below)) = c :: rest ∧
      (c = '#' ∨ c = '^' ∨ c = '\n') := by
  have hsigned : ∀ (sign : Char) (names : List MarkName) (cs : List Char), isBlank sign = false →
      names ≠ [] → ∃ rest, (signed sign names ++ cs).drop (inlineBlanks (signed sign names ++ cs)) =
        sign :: rest := by
    intro sign names cs hsign hne
    cases names with
    | nil => exact absurd rfl hne
    | cons name names =>
        have htext : signed sign (name :: names) ++ cs =
            ' ' :: sign :: (name.text ++ (signed sign names ++ cs)) := by simp [signed]
        rw [htext, inlineBlanks_space ⟨sign, _, rfl, hsign⟩]
        exact ⟨_, rfl⟩
  rw [text, List.append_assoc]
  by_cases ht : l.tags = []
  · by_cases hl : l.links = []
    · exact ⟨'\n', below, by simp [ht, hl, signed, inlineBlanks_newline], .inr (.inr rfl)⟩
    · obtain ⟨rest, hrest⟩ := hsigned '^' l.links ('\n' :: below) (by decide) hl
      exact ⟨'^', rest, by simpa [ht, signed] using hrest, .inr (.inl rfl)⟩
  · obtain ⟨rest, hrest⟩ := hsigned '#' l.tags (signed '^' l.links ++ '\n' :: below) (by decide) ht
    exact ⟨'#', rest, hrest, .inl rfl⟩

end Labels

/-- The line behind what has been read of it: labels, perhaps without the
space before them. -/
structure Trailing (l : Labels) (below cs : List Char) (n : Nat) : Prop where
  line : ∃ t, cs = t ++ '\n' :: below ∧ '\n' ∉ t ∧ ';' ∉ t ∧ n + t.length = l.text.length
  marks : (Token.marks cs).1 = l.marks

theorem trailing_text (l : Labels) (below : List Char) {n : Nat}
    (hn : n = 0 ∨ n = inlineBlanks (l.text ++ '\n' :: below)) :
    Trailing l below ((l.text ++ '\n' :: below).drop n) n := by
  have hnewline := l.notMem_text (.inl rfl)
  have hle : n ≤ l.text.length := by
    rcases hn with rfl | rfl
    · exact Nat.zero_le _
    · have h := inlineBlanks_le_lineAhead (l.text ++ '\n' :: below)
      rwa [lineAhead_line _ _ hnewline] at h
  refine ⟨⟨l.text.drop n, List.drop_append_of_le_length hle, ?_, ?_, ?_⟩, ?_⟩
  · exact fun h => hnewline (List.mem_of_mem_drop h)
  · exact fun h => l.notMem_text (.inr rfl) (List.mem_of_mem_drop h)
  · rw [List.length_drop]
    omega
  · have hmarks : Token.marks (l.text ++ '\n' :: below) = (l.marks, l.text.length) :=
      l.marks_text ⟨_, rfl⟩
    rcases hn with rfl | rfl
    · rw [List.drop_zero, hmarks]
    · -- white space before a mark is not missed
      rw [Token.marks_eq] at hmarks
      rw [Token.marks_eq, inlineBlanks_drop, List.drop_zero]
      cases hm : Token.mark? ((l.text ++ '\n' :: below).drop
          (inlineBlanks (l.text ++ '\n' :: below))) with
      | none =>
          rw [hm] at hmarks
          exact congrArg Prod.fst hmarks
      | some mark =>
          rw [hm] at hmarks
          simp only [List.drop_drop, Nat.zero_add] at hmarks ⊢
          exact congrArg Prod.fst hmarks

theorem Trailing.addMarks {l : Labels} {below cs : List Char} {n : Nat}
    (h : Trailing l below cs n) (values : Pairs Value) (ht : "tags" ∉ values.names)
    (hl : "links" ∉ values.names) : Directive.addMarks values cs = values ++ l.fields := by
  obtain ⟨t, rfl, hnewline, hsemi, -⟩ := h.line
  have hcomment := commentStart_eq_none hnewline hsemi below
  have hmarks := h.marks
  unfold Directive.addMarks
  cases hm : Token.marks (t ++ '\n' :: below) with
  | mk ms k =>
      rw [hm] at hmarks
      simp only at hmarks
      subst hmarks
      have hlinks : "links" ∉ (values ++ [("tags", Value.texts (Mark.tags l.marks))] :
          Pairs Value).names := by
        simpa [Pairs.names] using hl
      have hputs : (values.put "tags" (.texts (Mark.tags l.marks))).put "links"
          (.texts (Mark.links l.marks)) = values ++
            [("tags", .texts (l.tags.map Word.string)), ("links", .texts (l.links.map Word.string))] := by
        rw [Pairs.put_of_notMem ht, Pairs.put_of_notMem hlinks, l.tags_marks, l.links_marks,
          List.append_assoc]
        rfl
      by_cases hnone : l.marks = []
      · simp [hnone, Labels.fields]
      · rw [Labels.fields, if_neg hnone, ← hputs]
        split
        · next heq => exact absurd (congrArg Prod.fst heq) hnone
        · next ms' n' hsome heq =>
          cases heq
          simp [hcomment]

/-- Where a label or the end of the line comes next, no currency code
stands. -/
theorem currencies_absent {c : Char} (hc : c = '#' ∨ c = '^' ∨ c = '\n') (rest : List Char) :
    currenciesField.read Builtin.registry (c :: rest) = .absent := by
  have hupper : c.isUpper = false := by rcases hc with rfl | rfl | rfl <;> decide
  have hcode : Token.currency (c :: rest) = none := by
    simp [Token.currency, Lexeme.headed, hupper]
  rw [Field.read_of_none readAs_currencies rfl, Shape.read, Token.currencies?, hcode]
  rfl

/-- A label is no period. -/
theorem period_absent {c : Char} (hc : c = '#' ∨ c = '^' ∨ c = '\n') (rest : List Char) :
    periodField.read Builtin.registry (c :: rest) = .absent := by
  have hquote : (c :: rest).head? ≠ some '"' := by
    rcases hc with rfl | rfl | rfl <;> simp
  rw [Field.read_of_readAs readAs_period, Shape.read, Token.string_eq, if_neg hquote]
  by_cases hnewline : c = '\n'
  · subst hnewline
    have hnone : Token.bareWord ('\n' :: rest) = none := by simp [Token.bareWord, Lexeme.run]
    rw [Lexeme.read, hnone]
    rfl
  · have hsign : c = '#' ∨ c = '^' := by
      rcases hc with hc | hc | hc
      · exact .inl hc
      · exact .inr hc
      · exact absurd hc hnewline
    have hblank : isBlank c = false := by rcases hsign with rfl | rfl <;> decide
    have hword : Token.bareWord (c :: rest) = some (c :: rest.takeWhile fun c => !isBlank c) := by
      simp [Token.bareWord, Lexeme.run, hblank]
    have hrefuse : ∀ w, periodField.accepts Builtin.registry (.text (String.ofList (c :: w))) =
        .ok false := by
      intro w
      show Builtin.isPeriod (.text (String.ofList (c :: w))) = .ok false
      rcases hsign with rfl | rfl <;> simp [Builtin.isPeriod]
    rw [Lexeme.read, hword]
    simp only [Option.map_some, Reading.ofOption, Reading.map_found, Field.checked, hrefuse]

/-- A field that is left out is not found in tags and links. -/
theorem readAll_omitted (s : Statement) (l : Labels) (below : List Char) (values : Pairs Value) :
    ∃ n, (n = 0 ∨ n = inlineBlanks (l.text ++ '\n' :: below)) ∧
      Field.readAll Builtin.registry s.omitted values (l.text ++ '\n' :: below) =
        .found (s.omitted.foldl (fun vs f => f.orElse vs) values) n := by
  obtain ⟨c, rest, hdrop, hc⟩ := l.head_text below
  have hnone : Field.readAll Builtin.registry [] values (l.text ++ '\n' :: below) =
      .found values 0 := rfl
  have hone : ∀ f : Field, f.required = false → f.read Builtin.registry (c :: rest) = .absent →
      Field.readAll Builtin.registry [f] values (l.text ++ '\n' :: below) =
        .found (f.orElse values) (inlineBlanks (l.text ++ '\n' :: below)) := by
    intro f hf hread
    rw [Field.readAll_cons, hdrop, hread]
    simp only [hf]
    rfl
  cases s with
  | opens a codes =>
      cases codes with
      | nil => exact ⟨_, .inr rfl, hone _ rfl (currencies_absent hc rest)⟩
      | cons first more => exact ⟨0, .inl rfl, hnone⟩
  | closes a => exact ⟨0, .inl rfl, hnone⟩
  | balance a q => exact ⟨0, .inl rfl, hnone⟩
  | price t q => exact ⟨0, .inl rfl, hnone⟩
  | note a t => exact ⟨0, .inl rfl, hnone⟩
  | budget a q period =>
      cases period with
      | none => exact ⟨_, .inr rfl, hone _ rfl (period_absent hc rest)⟩
      | some p => exact ⟨0, .inl rfl, hnone⟩

/-! ## Dates and keywords -/

theorem Column.Reads.keyword {word : String} (hne : word ≠ "")
    (hw : ∀ c ∈ word.toList, isBlank c = false) : (Column.keyword word).Reads where
  takes := by
    intro rest hr
    show (Builtin.keywordField word).read Builtin.registry (word.toList ++ rest) = _
    rw [Builtin.read_keywordField]
    exact (takes_keyword hne).map Value.text rest hr
  solid := by
    cases h : word.toList with
    | nil => exact absurd (String.toList_eq_nil_iff.1 h) hne
    | cons c cs => exact ⟨c, cs, h, hw c (by simp [h])⟩

/-- A date is read before the other fields. -/
theorem readAll_date (date : Word Token.date) (fs : List Field) {rest : List Char}
    (hr : Apart rest) :
    Field.readAll Builtin.registry (Builtin.dateField :: fs) [] (date.text ++ rest) =
      (Field.readAll Builtin.registry fs [("date", .text date.string)] rest).shift
        date.text.length := by
  have hblank := inlineBlanks_solid ((date.solid Token.separate_date).append rest)
  have hread : Builtin.dateField.read Builtin.registry (date.text ++ rest) =
      .found (.text date.string) date.text.length := by
    rw [Builtin.read_dateField]
    exact (date.takes Token.separate_date).map Value.text rest hr
  rw [Field.readAll_cons, hblank, List.drop_zero, hread]
  simp only [Nat.zero_add, List.drop_left]
  rfl

/-- The keywords of the builtin schemas. -/
def keywords : List String := ["open", "close", "balance", "price", "note", "budget"]

theorem visible_keywords : ∀ word ∈ keywords, ∀ c ∈ word.toList, isBlank c = false := by
  simp [keywords]
  decide

theorem Statement.kind_mem (s : Statement) : s.kind ∈ keywords := by
  cases s <;> simp [keywords, kind]

/-- **Where another word stands behind the date, a schema is absent.** -/
theorem schema_absent {word kind : String} (hword : word ∈ keywords) (fs : List Field)
    (date : Word Token.date) {w rest : List Char} (hs : Solid w)
    (hw : ∀ c ∈ w, isBlank c = false) (hne : w ≠ word.toList) (hr : Apart rest) :
    (Directive.schema kind (Builtin.header word ++ fs)).body Builtin.registry
      (date.text ++ ' ' :: (w ++ rest)) = .absent := by
  have hkeyword : (Builtin.keywordField word).read Builtin.registry (w ++ rest) = .absent := by
    rw [Builtin.read_keywordField]
    show ((Token.keyword word).read (w ++ rest)).map Value.text = .absent
    rw [Lexeme.read, keyword_other (visible_keywords word hword) hw hne hr]
    rfl
  show Directive.readSchema Builtin.registry kind (Builtin.header word ++ fs) _ = _
  rw [Directive.readSchema_eq, Builtin.header_eq, List.cons_append,
    readAll_date date _ (apart_space _),
    List.cons_append, Field.readAll_cons, inlineBlanks_space (hs.append rest),
    List.drop_succ_cons, List.drop_zero, hkeyword]
  rfl

/-! ## Whole entries -/

namespace Statement

/-- The names of the columns, which depend on nothing but the kind and on
what is left out. -/
def columnNames : Statement → List String
  | opens _ [] => ["account"]
  | opens _ (_ :: _) => ["account", "currencies"]
  | closes _ => ["account"]
  | balance .. => ["account", "amount"]
  | price .. => ["commodity", "amount"]
  | note .. => ["account", "comment"]
  | budget _ _ none => ["account", "amount"]
  | budget _ _ (some _) => ["account", "amount", "period"]

theorem names_columns (s : Statement) :
    s.columns.map (fun c => c.field.name) = s.columnNames := by
  cases s with
  | opens a codes => cases codes <;> rfl
  | budget a q period => cases period <;> rfl
  | _ => rfl

/-- The names that the fields of an entry do not have. -/
def foreign : List String := ["date", "kind", "meta", "tags", "links"]

theorem names_fields (s : Statement) : ∀ name ∈ s.fields.names, name ∉ foreign := by
  have hnames : s.fields.names = "keyword" :: s.columnNames ++
      (s.omitted.filterMap fun f => f.fallback.map fun v => (f.name, v)).map (·.1) := by
    simp [fields, Pairs.names, ← names_columns, Function.comp_def]
  rw [hnames]
  cases s with
  | opens a codes => cases codes <;> simp [columnNames, omitted, currenciesField, foreign]
  | budget a q period => cases period <;> simp [columnNames, omitted, periodField, foreign]
  | _ => simp [columnNames, omitted, foreign]

/-- The pairs that the columns give. -/
def given (s : Statement) : Pairs Value :=
  (Column.keyword s.kind :: s.columns).map fun c => (c.field.name, c.value)

theorem foldl_given (s : Statement) (date : String) :
    s.given.foldl (fun m p => Pairs.put m p.1 p.2) [("date", .text date)] =
      ("date", .text date) :: s.given := by
  refine Pairs.foldl_put [("date", .text date)] s.given ?_
  have hnames : Pairs.names ([("date", Value.text date)] ++ s.given) =
      "date" :: "keyword" :: s.columnNames := by
    simp [given, Pairs.names, ← names_columns, Function.comp_def, Column.keyword,
      Builtin.keywordField]
  rw [hnames]
  cases s with
  | opens a codes => cases codes <;> simp [columnNames]
  | budget a q period => cases period <;> simp [columnNames]
  | _ => simp [columnNames]

theorem foldl_omitted (s : Statement) (date : String) :
    s.omitted.foldl (fun vs f => f.orElse vs) (("date", .text date) :: s.given) =
      ("date", .text date) :: s.fields := by
  cases s with
  | opens a codes => cases codes <;> rfl
  | budget a q period => cases period <;> rfl
  | _ => rfl

/-- No field is named like the date, or like tags or links. -/
theorem notMem_names (s : Statement) (date : String) {name : String}
    (h : name ∈ foreign ∧ name ≠ "date") :
    name ∉ Pairs.names (("date", Value.text date) :: s.fields) := by
  intro hmem
  rcases List.mem_cons.1 hmem with rfl | hmem
  · exact h.2 rfl
  · exact s.names_fields name hmem h.1

/-- The entry keeps its date apart from its fields. -/
theorem without_fields (s : Statement) (date : String) (l : Labels) :
    Pairs.without (("date", Value.text date) :: (s.fields ++ l.fields)) Directive.reserved =
      s.fields ++ l.fields := by
  have hdate : "date" ∈ Directive.reserved := by decide
  rw [Pairs.without, List.filter_cons_of_neg (by simpa using hdate), List.filter_eq_self]
  intro p hp
  have hreserved : ∀ name ∈ Directive.reserved, name ∈ foreign := by decide
  rcases List.mem_append.1 hp with hp | hp
  · have hnot : p.1 ∉ Directive.reserved := fun hr =>
      s.names_fields p.1 (List.mem_map_of_mem hp) (hreserved _ hr)
    simpa using hnot
  · rw [Labels.fields] at hp
    split at hp
    · cases hp
    · simp only [List.mem_cons, List.not_mem_nil, or_false] at hp
      rcases hp with rfl | rfl <;> simp [Directive.reserved]

/-- An entry of the statement as it is written. -/
def text (s : Statement) (date : Word Token.date) (labels : Labels) (metadata : Block) :
    List Char :=
  date.text ++ (rowText (.keyword s.kind :: s.columns) ++
    (labels.text ++ '\n' :: metadata.text Directive.metadataIndent))

/-- The entry, without its place. -/
def entry (s : Statement) (date : Word Token.date) (labels : Labels) (metadata : Block) : Entry :=
  ⟨date.string, metadata.value, .plain s.kind (s.fields ++ labels.fields)⟩

end Statement

theorem metadataBelow_text (b : Block) {rest : List Char}
    (h : Outdented Directive.metadataIndent rest) :
    Directive.metadataBelow (b.text Directive.metadataIndent ++ rest) =
      .found b.value ((b.text Directive.metadataIndent).length + b.behind rest) := by
  rw [Directive.metadataBelow_eq, block_text b h]
  by_cases hb : b.pairs = []
  · simp [hb, Block.value, Block.text, blockText, Block.behind]
  · rw [if_neg hb]
    simp [Block.behind, hb, List.drop_length_add_append, blankLines_drop]

/-- The fields of a statement are read off its line, up to the labels. -/
theorem Statement.readAll_text (s : Statement) (date : Word Token.date) (l : Labels)
    (below : List Char) : ∃ n, (n = 0 ∨ n = inlineBlanks (l.text ++ '\n' :: below)) ∧
      Field.readAll Builtin.registry
          (Builtin.header s.kind ++ (s.columns.map (·.field) ++ s.omitted)) []
          (date.text ++ (rowText (.keyword s.kind :: s.columns) ++ (l.text ++ '\n' :: below))) =
        .found (("date", .text date.string) :: s.fields)
          (date.text.length + ((rowText (.keyword s.kind :: s.columns)).length + n)) := by
  have hkeyword : (Column.keyword s.kind).Reads := by
    refine .keyword ?_ (visible_keywords _ s.kind_mem)
    intro hnil
    have := s.kind_mem
    rw [hnil] at this
    exact absurd this (by decide)
  have hreads : ∀ c ∈ Column.keyword s.kind :: s.columns, c.Reads := by
    intro c hc
    rcases List.mem_cons.1 hc with rfl | hc
    · exact hkeyword
    · exact s.reads c hc
  have hend : Apart (l.text ++ '\n' :: below) := l.apart (LineEnd.apart ⟨_, rfl⟩)
  have hheader : Builtin.header s.kind ++ (s.columns.map (·.field) ++ s.omitted) =
      Builtin.dateField :: ((Column.keyword s.kind :: s.columns).map (·.field) ++ s.omitted) := rfl
  obtain ⟨n, hn, homitted⟩ := readAll_omitted s l below (("date", .text date.string) :: s.given)
  refine ⟨n, hn, ?_⟩
  rw [hheader, readAll_date date _ (apart_rowText _ hend), readAll_rowText hreads _ _ hend]
  have hgiven := s.foldl_given date.string
  rw [Statement.given] at hgiven homitted
  rw [hgiven, homitted]
  have hfields := s.foldl_omitted date.string
  rw [Statement.given] at hfields
  rw [hfields, Reading.shift_found, Reading.shift_found]

/-- **An entry of a schema is read back.** -/
theorem Statement.body_text (s : Statement) (date : Word Token.date) (labels : Labels)
    (metadata : Block) {rest : List Char} (h : Outdented Directive.metadataIndent rest) :
    s.directive.body Builtin.registry (s.text date labels metadata ++ rest) =
      .found (s.entry date labels metadata)
        ((s.text date labels metadata).length + metadata.behind rest) := by
  have htext : s.text date labels metadata ++ rest = date.text ++
      (rowText (.keyword s.kind :: s.columns) ++ (labels.text ++
        '\n' :: (metadata.text Directive.metadataIndent ++ rest))) := by
    simp [Statement.text]
  obtain ⟨n, hn, hfields⟩ := s.readAll_text date labels
    (metadata.text Directive.metadataIndent ++ rest)
  have htrailing := trailing_text labels (metadata.text Directive.metadataIndent ++ rest) hn
  obtain ⟨t, ht, hnewline, -, hlen⟩ := htrailing.line
  have hmarks := htrailing.addMarks (("date", .text date.string) :: s.fields)
    (s.notMem_names date.string (by decide)) (s.notMem_names date.string (by decide))
  have hdrop : (date.text ++ (rowText (.keyword s.kind :: s.columns) ++ (labels.text ++
      '\n' :: (metadata.text Directive.metadataIndent ++ rest)))).drop (date.text.length +
        ((rowText (.keyword s.kind :: s.columns)).length + n)) =
      t ++ '\n' :: (metadata.text Directive.metadataIndent ++ rest) := by
    rw [List.drop_length_add_append, List.drop_length_add_append, ht]
  rw [ht] at hmarks
  show Directive.readSchema Builtin.registry s.kind _ _ = _
  rw [htext, Directive.readSchema_eq, hfields, Reading.andThen, hdrop,
    Directive.afterFields_eq (d := date.string) rfl, hmarks, lineLength_line _ _ hnewline]
  rw [drop_line, metadataBelow_text metadata h]
  simp only [Reading.map_found, Reading.shift_found, List.cons_append, s.without_fields]
  refine congrArg (Reading.found _) ?_
  simp [Statement.text]
  omega

end Written
end Daybook
