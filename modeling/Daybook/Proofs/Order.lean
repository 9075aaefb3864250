import Daybook.Proofs.Written.Schema
import Mathlib.Data.List.Nodup

/-!
# Order — builtin modules in any order

Directives are tried in turn, and the first that answers decides. For the
builtin ones the order does not matter: the header of a line announces
one kind (`announced`), a directive of another kind answers with absence,
and it does so before it has read anything that could end the reading.
So two lists of modules that hold the same directives read alike.
-/

namespace Daybook

open Daybook.Text Daybook.Reading

/-! ## Directives that exclude each other -/

namespace Grammar

/-- At this text no two of the directives answer. -/
def Exclusive (r : Registry) (cs : List Char) (ds : List Directive) : Prop :=
  ∀ d ∈ ds, ∀ d' ∈ ds, d.body r cs ≠ .absent → d'.body r cs ≠ .absent → d = d'

variable {r : Registry} {cs : List Char} {ds ds' : List Directive}

theorem firstBody_absent (h : ∀ d ∈ ds, d.body r cs = .absent) :
    firstBody r cs ds = .absent := by
  induction ds with
  | nil => rfl
  | cons d ds ih =>
      rw [firstBody, h d (by simp)]
      apply ih
      intro d' hd'
      exact h d' (by simp [hd'])

/-- The one directive that answers decides, wherever it stands. -/
theorem firstBody_of_exclusive (h : Exclusive r cs ds) {d : Directive} (hd : d ∈ ds)
    (ha : d.body r cs ≠ .absent) : firstBody r cs ds = d.body r cs := by
  induction ds with
  | nil => cases hd
  | cons b ds ih =>
      by_cases hb : b.body r cs = .absent
      · have hrest : d ∈ ds := by
          rcases List.mem_cons.1 hd with rfl | hrest
          · exact absurd hb ha
          · exact hrest
        rw [firstBody_of_absent hb]
        apply ih _ hrest
        intro d₁ h₁ d₂ h₂
        exact h d₁ (by simp [h₁]) d₂ (by simp [h₂])
      · -- one that answers before the given directive is that directive
        obtain rfl : b = d := h b (by simp) d hd hb ha
        exact firstBody_of_answer hb ds

/-- **Where directives exclude each other, their order does not
matter**, nor how often each is listed. -/
theorem firstBody_congr (h : Exclusive r cs ds) (hsame : ∀ d, d ∈ ds ↔ d ∈ ds') :
    firstBody r cs ds = firstBody r cs ds' := by
  have h' : Exclusive r cs ds' := by
    intro d₁ h₁ d₂ h₂
    exact h d₁ ((hsame d₁).2 h₁) d₂ ((hsame d₂).2 h₂)
  by_cases hex : ∃ d ∈ ds, d.body r cs ≠ .absent
  · obtain ⟨d, hd, ha⟩ := hex
    rw [firstBody_of_exclusive h hd ha, firstBody_of_exclusive h' ((hsame d).1 hd) ha]
  · have hall : ∀ d ∈ ds, d.body r cs = .absent := by
      intro d hd
      by_contra ha
      exact hex ⟨d, hd, ha⟩
    rw [firstBody_absent hall, firstBody_absent fun d hd => hall d ((hsame d).2 hd)]

/-- Grammars that read the same entry at every place walk alike. -/
theorem items_congr {g g' : Grammar} (h : ∀ c, g.entryAt c = g'.entryAt c) (c : Cursor) :
    g.items c = g'.items c := by
  induction c using walk_induction g with
  | skip c hg ih => rw [items_gap hg, items_gap hg, ih]
  | done c hr => rw [items_nil hr, items_nil hr]
  | broken c f hg hr he => rw [items_broken hg hr he, items_broken hg hr (h c ▸ he)]
  | stalled c e hg hr he => rw [items_stalled hg hr he, items_stalled hg hr (h c ▸ he)]
  | found c e n hg hr he hn ih =>
      rw [items_found hg hr he hn, items_found hg hr (h c ▸ he) hn, ih]

end Grammar

/-! ## What a header announces -/

namespace Token

/-- A keyword is the whole word at the front. -/
theorem keyword_bareWord {word : String} (hword : ∀ c ∈ word.toList, isBlank c = false)
    {cs w : List Char} (h : keyword word cs = some w) : bareWord cs = some word.toList := by
  rw [keyword, Option.filter_eq_some_iff] at h
  obtain ⟨hlit, hnext⟩ := h
  have hbegins : w <+: cs := begins_literal word cs w hlit
  rw [literal] at hlit
  split at hlit
  · cases hlit
  · next hne =>
    obtain rfl : w = word.toList := Lexeme.word_eq hlit
    obtain ⟨rest, rfl⟩ := hbegins
    rw [List.drop_left] at hnext
    -- the word ends where the keyword does, since white space is behind it
    have hrun : (word.toList ++ rest).takeWhile (fun c => !isBlank c) = word.toList := by
      rw [List.takeWhile_append_of_pos (by simpa using hword)]
      cases rest with
      | nil => simp
      | cons c rest => simp_all
    have hsome : word.toList ≠ [] := by simpa using hne
    rw [bareWord, Lexeme.run, hrun, if_neg (by simpa using hsome)]

end Token

namespace Builtin

/-- The kind of directive that the word behind a date stands for: flags
are those of transactions, and other directives are called by name. -/
def kindOf (word : List Char) : String :=
  if (Token.flag word).isSome then "transaction" else String.ofList word

/-- The kind that the header at the front announces: there is a date, and
a word behind it. -/
def announced (cs : List Char) : Option String :=
  let front := cs.drop (inlineBlanks cs)
  (Token.date front).bind fun date =>
    let behind := front.drop date.length
    (Token.bareWord (behind.drop (inlineBlanks behind))).map kindOf

theorem announced_eq {cs date word : List Char}
    (hd : Token.date (cs.drop (inlineBlanks cs)) = some date)
    (hw : Token.bareWord ((cs.drop (inlineBlanks cs + date.length)).drop
      (inlineBlanks (cs.drop (inlineBlanks cs + date.length)))) = some word) :
    announced cs = some (kindOf word) := by
  simp only [announced, hd, Option.bind_some, List.drop_drop]
  rw [List.drop_drop] at hw
  rw [hw, Option.map_some]

/-- A schema that answers has found its date and its keyword. -/
theorem schema_front {kind word : String} {fields : List Field} {cs : List Char}
    (h : (Directive.schema kind (header word ++ fields)).body registry cs ≠ .absent) :
    ∃ date w, Token.date (cs.drop (inlineBlanks cs)) = some date ∧
      Token.keyword word ((cs.drop (inlineBlanks cs + date.length)).drop
        (inlineBlanks (cs.drop (inlineBlanks cs + date.length)))) = some w := by
  have hread : Field.readAll registry (header word ++ fields) [] cs ≠ .absent := by
    intro hnone
    apply h
    show Directive.readSchema registry kind (header word ++ fields) cs = .absent
    rw [Directive.readSchema_eq, hnone]
    rfl
  -- the date is read first: without it the fields are absent, and nothing else was asked
  rw [header_eq, List.cons_append, Field.readAll_cons, read_dateField] at hread
  cases hd : Token.date (cs.drop (inlineBlanks cs)) with
  | none =>
      have hdate : Shape.date.read (cs.drop (inlineBlanks cs)) = .absent := by
        show (Token.date.read _).map Value.text = .absent
        rw [Lexeme.read, hd]
        rfl
      rw [hdate] at hread
      exact absurd rfl hread
  | some date =>
      have hdate : Shape.date.read (cs.drop (inlineBlanks cs)) =
          .found (.text (String.ofList date)) date.length := by
        show (Token.date.read _).map Value.text = _
        rw [Lexeme.read, hd]
        rfl
      rw [hdate] at hread
      simp only at hread
      rw [List.cons_append, Field.readAll_cons, read_keywordField] at hread
      -- then the keyword, from behind the date
      generalize hbehind : cs.drop (inlineBlanks cs + date.length) = behind at hread
      cases hk : Token.keyword word (behind.drop (inlineBlanks behind)) with
      | some w => exact ⟨date, w, rfl, hbehind ▸ hk⟩
      | none =>
          have hkeyword : (Shape.keyword word).read (behind.drop (inlineBlanks behind)) =
              .absent := by
            show ((Token.keyword word).read _).map Value.text = .absent
            rw [Lexeme.read, hk]
            rfl
          rw [hkeyword] at hread
          exact absurd rfl hread

/-- A flag is the first character of the word that it stands in. -/
theorem flag_bareWord {cs w : List Char} (h : Token.flag cs = some w) :
    ∃ word, Token.bareWord cs = some word ∧ kindOf word = "transaction" := by
  cases cs with
  | nil => cases h
  | cons c cs =>
      have hc : c = '*' ∨ c = '!' := by
        by_contra hc
        simp_all [Token.flag, Lexeme.shape]
      have hb : isBlank c = false := by rcases hc with rfl | rfl <;> decide
      refine ⟨c :: cs.takeWhile fun c => !isBlank c, by simp [Token.bareWord, Lexeme.run, hb], ?_⟩
      rw [kindOf]
      rcases hc with rfl | rfl <;> rfl

/-- The builtin directives are schemas called by their keyword, and the
one for transactions. -/
theorem directive_called {source : String} {d : Directive}
    (h : d ∈ (grammar source).directives) :
    (∃ word ∈ Written.keywords, ∃ fields, d = .schema word (header word ++ fields)) ∨
      d = .custom "transaction" fun c => Transaction.read c.rest := by
  have hd : d ∈ [openDirective, closeDirective, balanceDirective, priceDirective, noteDirective,
    .custom "transaction" fun c => Transaction.read c.rest, budgetDirective] := h
  simp only [List.mem_cons, List.not_mem_nil, or_false] at hd
  rcases hd with rfl | rfl | rfl | rfl | rfl | rfl | rfl
  · exact .inl ⟨"open", by simp [Written.keywords], _, rfl⟩
  · exact .inl ⟨"close", by simp [Written.keywords], _, rfl⟩
  · exact .inl ⟨"balance", by simp [Written.keywords], _, rfl⟩
  · exact .inl ⟨"price", by simp [Written.keywords], _, rfl⟩
  · exact .inl ⟨"note", by simp [Written.keywords], _, rfl⟩
  · exact .inr rfl
  · exact .inl ⟨"budget", by simp [Written.keywords], _, rfl⟩

theorem flag_keywords : ∀ word ∈ Written.keywords, Token.flag word.toList = none := by
  simp [Written.keywords]
  decide

/-- **A directive answers only where the header announces its kind.** -/
theorem announced_of_body {source : String} {d : Directive}
    (hd : d ∈ (grammar source).directives) {cs : List Char} (h : d.body registry cs ≠ .absent) :
    announced cs = some d.kind := by
  rcases directive_called hd with ⟨word, hword, fields, rfl⟩ | rfl
  · obtain ⟨date, w, hdate, hkeyword⟩ := schema_front h
    have hbare := Token.keyword_bareWord (Written.visible_keywords word hword) hkeyword
    rw [announced_eq hdate hbare, kindOf, flag_keywords word hword]
    simp [Directive.kind]
  · have hheader : Transaction.header cs ≠ .absent := by
      intro hnone
      apply h
      show Transaction.read cs = .absent
      rw [Transaction.read_eq, hnone]
      rfl
    obtain ⟨date, flag, hdate, hflag⟩ := Transaction.header_front hheader
    obtain ⟨word, hbare, hkind⟩ := flag_bareWord hflag
    have hzero := Token.date_visible hdate
    rw [announced_eq (by rwa [hzero]) (by rwa [hzero, Nat.zero_add]), hkind]
    rfl

theorem nodup_kinds (source : String) : ((grammar source).directives.map (·.kind)).Nodup := by
  show ["open", "close", "balance", "price", "note", "transaction", "budget"].Nodup
  decide

/-- **At no text do two builtin directives answer.** -/
theorem exclusive_directives (source : String) (cs : List Char) :
    Grammar.Exclusive registry cs (grammar source).directives := by
  intro d hd d' hd' h h'
  have hkind : d.kind = d'.kind := by
    have hd₁ := announced_of_body hd h
    rw [announced_of_body hd' h'] at hd₁
    exact (Option.some.inj hd₁).symm
  exact List.inj_on_of_nodup_map (nodup_kinds source) hd hd' hkind

/-! ## Lists of modules -/

/-- All the names are those of builtin modules. -/
theorem named_eq_ok_iff {names : List String} {ms : List Module} :
    named names = .ok ms ↔ (∀ name ∈ names, (Module.find? modules name).isSome) ∧
      ms = names.filterMap (Module.find? modules) := by
  rw [named]
  split
  · next hall =>
    rw [List.filter_eq_nil_iff] at hall
    constructor
    · intro h
      refine ⟨fun name hname => ?_, (Except.ok.inj h).symm⟩
      simpa [Option.isSome_iff_ne_none] using hall name hname
    · rintro ⟨-, rfl⟩
      rfl
  · next unknown hne =>
    constructor
    · intro h
      cases h
    · rintro ⟨hall, -⟩
      refine absurd (List.filter_eq_nil_iff.2 fun name hname => ?_) hne
      simp [Option.isSome_iff_ne_none.1 (hall name hname)]

/-- Of modules, only which there are decides whether a dependency is
missing. -/
theorem missing_eq_nil_congr {ms ns : List Module} (h : ∀ m, m ∈ ms ↔ m ∈ ns)
    (hms : Module.missing ms = []) : Module.missing ns = [] := by
  have hnames : ∀ name, name ∈ ms.map (·.name) ↔ name ∈ ns.map (·.name) := by
    simp [h]
  rw [Module.missing, List.flatMap_eq_nil_iff] at hms ⊢
  intro m hm
  have hmet := hms m ((h m).2 hm)
  rw [List.map_eq_nil_iff, List.filter_eq_nil_iff] at hmet ⊢
  intro name hname
  simpa [hnames] using hmet name hname

theorem mem_modules_of_named {names : List String} {ms : List Module}
    (h : named names = .ok ms) : ∀ m ∈ ms, m ∈ modules := by
  intro m hm
  obtain ⟨-, rfl⟩ := named_eq_ok_iff.1 h
  obtain ⟨name, -, hfind⟩ := List.mem_filterMap.1 hm
  exact List.mem_of_find?_eq_some hfind

/-- The grammar of a list of modules. -/
def grammarOf (ms : List Module) (source : String) : Grammar :=
  { source, directives := Module.allDirectives ms, registry }

theorem parseText_eq {ms : List Module} (h : Module.missing ms = []) (text source : String) :
    parseText text ms source = (grammarOf ms source).parse text := by
  unfold parseText Grammar.assemble
  rw [h]
  rfl

/-- The directives of builtin modules are builtin directives. -/
theorem mem_directives {ms : List Module} (h : ∀ m ∈ ms, m ∈ modules) (source : String)
    {d : Directive} (hd : d ∈ Module.allDirectives ms) : d ∈ (grammar source).directives := by
  obtain ⟨m, hm, hdm⟩ := List.mem_flatMap.1 hd
  exact List.mem_flatMap.2 ⟨m, h m hm, hdm⟩

/-- **Grammars of the same builtin modules read the same entry at every
place.** -/
theorem entryAt_congr {ms ns : List Module} (hms : ∀ m ∈ ms, m ∈ modules)
    (h : ∀ m, m ∈ ms ↔ m ∈ ns) (source : String) (c : Cursor) :
    (grammarOf ms source).entryAt c = (grammarOf ns source).entryAt c := by
  have hns : ∀ m ∈ ns, m ∈ modules := fun m hm => hms m ((h m).2 hm)
  have hshape : ∀ {ls : List Module}, (∀ m ∈ ls, m ∈ modules) →
      (grammarOf ls source).OfShape Shape.SingleLine := by
    intro ls hls d hd
    exact ofShape_grammar source d (mem_directives hls source hd)
  have hsame : ∀ d, d ∈ Module.allDirectives ms ↔ d ∈ Module.allDirectives ns := by
    intro d
    simp [Module.allDirectives, h]
  have hexclusive : Grammar.Exclusive registry c.rest (Module.allDirectives ms) := by
    intro d hd d' hd'
    exact exclusive_directives source c.rest d (mem_directives hms source hd) d'
      (mem_directives hms source hd')
  have hbody : Grammar.firstBody registry c.rest (Module.allDirectives ms) =
      Grammar.firstBody registry c.rest (Module.allDirectives ns) :=
    Grammar.firstBody_congr hexclusive hsame
  rw [Grammar.entryAt_eq (hshape hms), Grammar.entryAt_eq (hshape hns)]
  unfold grammarOf
  rw [hbody]

/-- **Modules that are listed in another order read the same.** Two lists
of builtin modules' names hold the same names, in any order and as often
as they like, and every dependency is met. Then the second list can be
used as well, and every text gets the same answer from both. -/
theorem parseText_named {as bs : List String} (hsame : ∀ name, name ∈ as ↔ name ∈ bs)
    {ms : List Module} (has : named as = .ok ms) (hms : Module.missing ms = []) :
    ∃ ns, named bs = .ok ns ∧ Module.missing ns = [] ∧
      ∀ text source, parseText text ms source = parseText text ns source := by
  have hbuiltin := mem_modules_of_named has
  obtain ⟨hall, rfl⟩ := named_eq_ok_iff.1 has
  have hbs : named bs = .ok (bs.filterMap (Module.find? modules)) :=
    named_eq_ok_iff.2 ⟨fun name hname => hall name ((hsame name).2 hname), rfl⟩
  have hmodules : ∀ m, m ∈ as.filterMap (Module.find? modules) ↔
      m ∈ bs.filterMap (Module.find? modules) := by
    simp [hsame]
  have hns := missing_eq_nil_congr hmodules hms
  refine ⟨_, hbs, hns, fun text source => ?_⟩
  have hwalk : (grammarOf _ source).walk text = (grammarOf _ source).walk text :=
    Grammar.items_congr (entryAt_congr hbuiltin hmodules source) (.start source text.toList)
  rw [parseText_eq hms, parseText_eq hns, Grammar.parse, Grammar.parse, hwalk]

/-- Reversed, with a module listed twice. -/
theorem parseText_named_reversed :
    ∃ ns, named ["custom-reporting", "transactions", "core-beancount", "transactions"] = .ok ns ∧
      Module.missing ns = [] ∧
      ∀ text source, parseText text modules source = parseText text ns source := by
  have hsame : ∀ name, name ∈ ["core-beancount", "transactions", "custom-reporting"] ↔
      name ∈ ["custom-reporting", "transactions", "core-beancount", "transactions"] := by
    intro name
    simp only [List.mem_cons, List.not_mem_nil, or_false]
    grind
  exact parseText_named hsame rfl rfl

end Builtin
end Daybook
