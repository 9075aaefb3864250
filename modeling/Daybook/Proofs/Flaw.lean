import Daybook.Proofs.Builtin

/-!
# Flaw — which flaws a reader can meet

Only a quote that nothing closes and an integer with too many digits end
the reading of a ledger. Readers of tokens and of fields meet the first
alone (`Unclosed`); metadata may meet both (`Fatal`). Either way the flaw
names the place of the opening quote.
-/

namespace Daybook

open Daybook.Text Daybook.Reading

/-- A quote comes first, and nothing closes the string behind it. -/
def Opens (cs : List Char) : Prop :=
  ∃ rest, cs = '"' :: rest ∧ Quoted.decode rest = none

/-- The flaw is a string that opens ahead and is never closed. -/
def Unclosed (cs : List Char) (f : Flaw) : Prop :=
  ∃ offset, f = .unclosedString offset ∧ Opens (cs.drop offset)

/-- The flaw is a string that is never closed, or too long an integer. -/
def Fatal (cs : List Char) (f : Flaw) : Prop := Unclosed cs f ∨ f = .integerTooLong

theorem Unclosed.shift {cs : List Char} {k : Nat} {f : Flaw} (h : Unclosed (cs.drop k) f) :
    Unclosed cs (f.shift k) := by
  obtain ⟨offset, rfl, hopens⟩ := h
  exact ⟨k + offset, rfl, by rwa [← List.drop_drop]⟩

theorem Fatal.shift {cs : List Char} {k : Nat} {f : Flaw} (h : Fatal (cs.drop k) f) :
    Fatal cs (f.shift k) := by
  rcases h with h | rfl
  · exact .inl h.shift
  · exact .inr rfl

namespace Reading

variable {α β : Type} {cs : List Char}

/-- Flaws that are met further on are met. -/
theorem Breaks.shift {Q : List Char → Flaw → Prop}
    (hQ : ∀ k f, Q (cs.drop k) f → Q cs (f.shift k)) {k : Nat} {r : Reading α}
    (h : r.Breaks (Q (cs.drop k))) : (r.shift k).Breaks (Q cs) :=
  (breaks_shift ..).2 (h.mono (hQ k))

theorem Breaks.andThen {Q : List Char → Flaw → Prop}
    (hQ : ∀ k f, Q (cs.drop k) f → Q cs (f.shift k)) {r : Reading α} {next : α → Reader β}
    (hr : r.Breaks (Q cs)) (hn : ∀ v k, (next v (cs.drop k)).Breaks (Q (cs.drop k))) :
    (r.andThen cs next).Breaks (Q cs) :=
  breaks_andThen.2 ⟨hr, finds_iff.2 fun v k _ => (hn v k).mono (hQ k)⟩

end Reading

/-! ## Tokens and shapes -/

namespace Token

theorem quoted_breaks (cs : List Char) : (quoted cs).Breaks (Unclosed cs) := by
  cases cs with
  | nil => trivial
  | cons c cs =>
      by_cases hc : c = '"'
      · subst hc
        rw [quoted]
        split
        · trivial
        · next h => exact ⟨0, rfl, cs, rfl, h⟩
      · rw [quoted_eq_absent (by simpa using hc)]
        trivial

theorem read_breaks (l : Lexeme) (cs : List Char) (Q : Flaw → Prop) : (l.read cs).Breaks Q :=
  breaks_ofOption ..

theorem string_breaks (cs : List Char) : (string cs).Breaks (Unclosed cs) := by
  rw [string_eq]
  split
  · exact quoted_breaks cs
  · exact read_breaks ..

theorem item_breaks (cs : List Char) : (item cs).Breaks (Unclosed cs) := by
  rw [item_eq]
  split
  · exact quoted_breaks cs
  · exact read_breaks ..

theorem items_breaks (cs : List Char) : (items cs).Breaks (Unclosed cs) := by
  fun_induction items cs with
  | case1 cs h => trivial
  | case2 cs f h =>
      have := item_breaks cs
      rwa [h] at this
  | case3 cs s n h gap hgap => trivial
  | case4 cs s n h gap hgap ih =>
      exact Breaks.shift (fun _ _ => .shift) ((breaks_map ..).2 ih)

theorem array_breaks (cs : List Char) : (array cs).Breaks (Unclosed cs) := by
  have := items_breaks cs
  rw [array_eq]
  split
  · trivial
  · exact this

end Token

/-- **A field's shape meets no flaw but an unclosed string**, metadata
apart. -/
theorem Shape.read_breaks {s : Shape} (h : s.SingleLine) (cs : List Char) :
    (s.read cs).Breaks (Unclosed cs) := by
  cases s with
  | string => exact (breaks_map ..).2 (Token.string_breaks cs)
  | array => exact (breaks_map ..).2 (Token.array_breaks cs)
  | quoted => exact (breaks_map ..).2 (Token.quoted_breaks cs)
  | object => exact h.elim
  | newline => exact h.elim
  | marks =>
      rw [read_marks_eq]
      split <;> trivial
  | number | boolean | amount | mark | currencies => exact (breaks_map ..).2 (breaks_ofOption ..)
  | date | account | email | currency => exact (breaks_map ..).2 (Token.read_breaks ..)
  | literal w | keyword w => exact (breaks_map ..).2 (Token.read_breaks ..)

/-! ## Metadata -/

namespace Metadata

theorem unquoted_breaks (cs : List Char) : (unquoted cs).Breaks (Fatal cs) := by
  rw [unquoted]
  split
  · trivial
  · next f h =>
    rw [coerce] at h
    split at h
    · split at h
      · simp at h
      · cases h
        exact .inr rfl
    · split at h
      · simp at h
      · split at h
        · simp at h
        · split at h
          · simp at h
          · split at h <;> simp at h

theorem value_breaks (cs : List Char) : (value cs).Breaks (Fatal cs) := by
  rw [value_eq]
  split
  · exact Breaks.andThen (fun _ _ => .shift) ((Token.quoted_breaks cs).mono fun _ => .inl)
      fun _ _ => trivial
  · exact unquoted_breaks cs

theorem pair_breaks (cs : List Char) : (pair cs).Breaks (Fatal cs) := by
  rw [pair_eq]
  split
  · trivial
  · exact Breaks.shift (fun _ _ => .shift) ((breaks_map ..).2 (value_breaks _))

theorem pairs_breaks (indent : Nat) (cs : List Char) :
    (pairs indent cs).Breaks (Fatal cs) := by
  fun_induction pairs indent cs with
  | case1 | case3 | case4 => trivial
  | case2 cs width rest h ih =>
      have hrest : cs.drop (width + 1) = rest := drop_of_blank h
      exact Breaks.shift (fun _ _ => .shift) (hrest ▸ ih)
  | case5 cs width c rest hne h hlt f hp =>
      have hpair : Fatal (cs.drop width) f := by
        have := pair_breaks (c :: rest)
        rw [hp] at this
        rwa [h]
      exact hpair.shift
  | case6 cs width c rest hne h hlt p n hp m ih =>
      exact Breaks.shift (fun _ _ => .shift) ((breaks_map ..).2 ih)

theorem block_breaks (indent : Nat) (cs : List Char) : (block indent cs).Breaks (Fatal cs) := by
  have := pairs_breaks indent cs
  rw [block_eq]
  split
  · trivial
  · exact (breaks_map ..).2 this

theorem blockOrEmpty_breaks (indent : Nat) (cs : List Char) :
    (blockOrEmpty indent cs).Breaks (Fatal cs) := by
  have := block_breaks indent cs
  rw [blockOrEmpty_eq]
  split
  · trivial
  · exact this

end Metadata

/-! ## Transactions -/

namespace Transaction

theorem behindBlanks_breaks {α : Type} {r : Reader α} (h : ∀ cs, (r cs).Breaks (Unclosed cs))
    (cs : List Char) : (behindBlanks r cs).Breaks (Unclosed cs) :=
  Breaks.shift (fun _ _ => .shift) (h _)

theorem secondTitle_breaks (first : String) (cs : List Char) :
    (secondTitle first cs).Breaks (Unclosed cs) := by
  have := behindBlanks_breaks Token.quoted_breaks cs
  rw [secondTitle_eq]
  split
  · trivial
  · exact (breaks_map ..).2 this

theorem titles_breaks (cs : List Char) : (titles cs).Breaks (Unclosed cs) :=
  Breaks.andThen (fun _ _ => .shift) (Token.quoted_breaks cs) fun _ _ => secondTitle_breaks ..

theorem header_breaks (cs : List Char) : (header cs).Breaks (Unclosed cs) := by
  refine Breaks.andThen (fun _ _ => .shift) (Token.read_breaks ..) fun date k => ?_
  refine Breaks.andThen (fun _ _ => .shift)
    (behindBlanks_breaks (fun _ => Token.read_breaks ..) _) fun flag k => ?_
  refine Breaks.andThen (fun _ _ => .shift) (behindBlanks_breaks titles_breaks _) fun t k => ?_
  exact (breaks_map ..).2 trivial

theorem posting_breaks (cs : List Char) : (posting cs).Breaks (Fatal cs) := by
  rw [posting_eq]
  split
  · trivial
  · exact Breaks.shift (fun _ _ => .shift) ((breaks_map ..).2 (Metadata.blockOrEmpty_breaks ..))

theorem bodyLine_breaks (cs : List Char) : (bodyLine cs).Breaks (Fatal cs) := by
  have := Metadata.pair_breaks cs
  rw [bodyLine_eq]
  split
  · trivial
  · split
    · trivial
    · next f h => rwa [h] at this
    · exact (breaks_map ..).2 (posting_breaks cs)

theorem body_breaks (cs : List Char) : (body cs).Breaks (Fatal cs) := by
  fun_induction body cs with
  | case1 | case2 => trivial
  | case3 cs front hlt f h =>
      have hline : Fatal (cs.drop front) f := by
        have := bodyLine_breaks (cs.drop front)
        rwa [h] at this
      exact hline.shift
  | case4 cs front hlt l n h ih =>
      exact Breaks.shift (fun _ _ => .shift) ((breaks_map ..).2 ih)

theorem read_breaks (cs : List Char) : (read cs).Breaks (Fatal cs) := by
  refine Breaks.andThen (fun _ _ => .shift) ((header_breaks cs).mono fun _ => .inl) fun h k => ?_
  show (afterHeader h (cs.drop k)).Breaks _
  unfold afterHeader
  split
  · trivial
  · refine Breaks.shift (fun _ _ => .shift) ?_
    exact Breaks.andThen (fun _ _ => .shift) (body_breaks _) fun _ _ => trivial

end Transaction

/-! ## Fields -/

namespace Field

theorem checked_breaks {f : Field} {r : Registry} {Q : Flaw → Prop} {answer : Reading Value}
    (h : answer.Breaks Q) (hc : answer.Finds fun v _ => ∀ e, f.accepts r v = .error e → Q e) :
    (f.checked r answer).Breaks Q := by
  cases answer with
  | absent => trivial
  | broken e => exact h
  | found v n =>
      rw [checked]
      split
      · trivial
      · trivial
      · next e he => exact hc e he

theorem readAll_breaks {r : Registry} {Q : List Char → Flaw → Prop}
    (hQ : ∀ cs k f, Q (cs.drop k) f → Q cs (f.shift k)) {fs : List Field}
    (h : ∀ f ∈ fs, ∀ cs, (f.read r cs).Breaks (Q cs)) (values : Pairs Value)
    (cs : List Char) : (readAll r fs values cs).Breaks (Q cs) := by
  induction fs generalizing values cs with
  | nil => trivial
  | cons f fs ih =>
      have hf := h f (by simp) (cs.drop (inlineBlanks cs))
      have hfs := ih fun g hg => h g (by simp [hg])
      rw [readAll_cons]
      cases hv : f.read r (cs.drop (inlineBlanks cs)) with
      | broken e =>
          rw [hv] at hf
          exact hQ _ _ e hf
      | found v n => exact Breaks.shift (hQ cs) (hfs _ _)
      | absent =>
          simp only
          split
          · trivial
          · exact Breaks.shift (hQ cs) (hfs _ _)

end Field

/-! ## The builtin schemas -/

namespace Builtin

theorem Plain.read_breaks {f : Field} {s : Shape} (h : Plain f s) (hs : s.SingleLine)
    (cs : List Char) : (f.read registry cs).Breaks (Unclosed cs) := by
  rcases h.check with hnone | ⟨hcheck, rfl⟩
  · rw [Field.read_of_none h.reads hnone]
    exact Shape.read_breaks hs cs
  · -- the check of a period is only asked about texts
    rw [Field.read_of_readAs h.reads]
    refine Field.checked_breaks (Shape.read_breaks hs cs) ?_
    refine (finds_map ..).2 (finds_iff.2 fun t n _ e he => ?_)
    rw [Field.accepts, hcheck] at he
    cases he

variable {fields : List Field} {word : String} {shapes : List Shape}

theorem Schema.readAll_breaks (h : Schema fields word shapes) (hs : ∀ s ∈ shapes, s.SingleLine)
    (cs : List Char) : (Field.readAll registry fields [] cs).Breaks (Unclosed cs) := by
  obtain ⟨rest, rfl, hrest⟩ := h.split
  refine Field.readAll_breaks (fun _ _ _ => .shift) (fun f hf cs => ?_) [] cs
  rw [header_eq] at hf
  rcases List.mem_append.1 hf with hf | hf
  · simp only [List.mem_cons, List.not_mem_nil, or_false] at hf
    rcases hf with rfl | rfl
    · rw [read_dateField]
      have hdate : Shape.date.SingleLine := trivial
      exact Shape.read_breaks hdate cs
    · rw [read_keywordField]
      have hword : (Shape.keyword word).SingleLine := h.singleLine
      exact Shape.read_breaks hword cs
  · obtain ⟨s, hmem, hfs⟩ := exists_plain hrest hf
    exact hfs.read_breaks (hs s hmem) cs

/-- The date of a builtin entry is a text. -/
theorem Schema.readAll_date (h : Schema fields word shapes) (cs : List Char) :
    (Field.readAll registry fields [] cs).Finds fun vs _ =>
      ∃ d, vs.get? "date" = some (.text d) := by
  obtain ⟨rest, rfl, hrest⟩ := h.split
  have hnames : ∀ f ∈ keywordField word :: rest, f.name ≠ "date" := by
    intro f hf
    rcases List.mem_cons.1 hf with rfl | hf
    · show "keyword" ≠ "date"
      decide
    · obtain ⟨s, -, hfs⟩ := exists_plain hrest hf
      exact hfs.name
  rw [header_eq, List.cons_append, Field.readAll_cons, read_dateField]
  split
  · trivial
  · next v n hv =>
    have htext : (Shape.date.read (cs.drop (inlineBlanks cs))).Finds fun v _ => ∃ d, v = .text d :=
      (finds_map ..).2 (finds_iff.2 fun d _ _ => ⟨d, rfl⟩)
    obtain ⟨d, rfl⟩ := htext.of_eq hv
    refine (finds_shift ..).2 ((Field.get?_readAll_of_ne hnames _ _).mono fun vs _ hvs => ?_)
    exact ⟨d, hvs.trans (Pairs.get?_put_self ..)⟩
  · trivial

end Builtin

namespace Directive

theorem metadataBelow_breaks (cs : List Char) : (metadataBelow cs).Breaks (Fatal cs) := by
  have := Metadata.block_breaks metadataIndent cs
  rw [metadataBelow_eq]
  split
  · trivial
  · trivial
  · next f h => rwa [h] at this

/-- **A builtin directive meets only unclosed strings and integers with
too many digits.** -/
theorem body_breaks {source : String} {d : Directive}
    (h : d ∈ (Builtin.grammar source).directives) (cs : List Char) :
    (d.body Builtin.registry cs).Breaks (Fatal cs) := by
  rcases Builtin.directive_cases h with ⟨kind, fields, word, shapes, rfl, hs, hmem⟩ | rfl
  · have hfields := hs.readAll_breaks (Builtin.singleLine_bodyShapes shapes hmem) cs
    show (readSchema Builtin.registry kind fields cs).Breaks _
    rw [readSchema_eq]
    refine breaks_andThen.2 ⟨hfields.mono fun _ => .inl, ?_⟩
    refine (hs.readAll_date cs).mono fun values k hd => ?_
    obtain ⟨date, hd⟩ := hd
    have hbelow : (afterFields kind values (cs.drop k)).Breaks (Fatal (cs.drop k)) := by
      rw [afterFields_eq hd]
      exact Breaks.shift (fun _ _ => .shift) ((breaks_map ..).2 (metadataBelow_breaks _))
    exact hbelow.mono fun _ => .shift
  · exact Transaction.read_breaks cs

end Directive
end Daybook
