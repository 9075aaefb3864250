import Daybook.Proofs.Flaw

/-!
# LongInteger — where an integer stops the reading

An unquoted value of metadata that is an integer with too many digits
stops the reading of the whole text. Whether it does so depends on
whether the reading comes to the value at all: `ComesTo` follows the
readers of blocks, bodies and texts, and names the values they come to.
Each reader meets such an integer if and only if it comes to one.
-/

namespace Daybook

open Daybook.Text Daybook.Reading

namespace Reading

variable {α β : Type}

/-- The reader met an integer with too many digits. -/
def TooLong (r : Reading α) : Prop := r = .broken .integerTooLong

@[simp] theorem not_tooLong_absent : ¬(absent : Reading α).TooLong := nofun

@[simp] theorem not_tooLong_found (v : α) (n : Nat) : ¬(found v n).TooLong := nofun

@[simp] theorem tooLong_broken (f : Flaw) :
    (broken f : Reading α).TooLong ↔ f = .integerTooLong := by
  simp [TooLong]

@[simp] theorem tooLong_map (f : α → β) (r : Reading α) : (r.map f).TooLong ↔ r.TooLong := by
  cases r <;> simp [TooLong]

@[simp] theorem tooLong_shift (k : Nat) (r : Reading α) : (r.shift k).TooLong ↔ r.TooLong := by
  cases r with
  | absent => rfl
  | found v n => simp [TooLong]
  | broken f => cases f <;> simp [shift, Flaw.shift]

theorem tooLong_andThen {r : Reading α} {cs : List Char} {next : α → Reader β} :
    (r.andThen cs next).TooLong ↔
      r.TooLong ∨ ∃ v k, r = .found v k ∧ (next v (cs.drop k)).TooLong := by
  cases r with
  | absent => simp [andThen]
  | broken f => simp [andThen]
  | found v k => simp [andThen]

theorem not_tooLong_of_unclosed {r : Reading α} {cs : List Char} (h : r.Breaks (Unclosed cs)) :
    ¬r.TooLong := by
  intro ht
  rw [ht] at h
  obtain ⟨offset, hf, -⟩ := h
  cases hf

end Reading

/-! ## Metadata -/

namespace Metadata

/-- An unquoted integer with more digits than are read stands at the
front, alone on its line. -/
def LongInteger (cs : List Char) : Prop :=
  cs.head? ≠ some '"' ∧
    ∃ n, Numeral.integer? (trim (lineAhead cs)) = some n ∧ maxDigits < n.whole.length

theorem coerce_eq_integerTooLong {raw : List Char} :
    coerce raw = .error .integerTooLong ↔
      ∃ n, Numeral.integer? raw = some n ∧ maxDigits < n.whole.length := by
  unfold coerce
  cases hi : Numeral.integer? raw with
  | some n =>
      by_cases hn : n.whole.length ≤ maxDigits
      · simp [hn]
      · simp [hn, Nat.lt_of_not_le hn]
  | none =>
      simp only [reduceCtorEq, false_and, exists_false, iff_false]
      split
      · simp
      · split
        · simp
        · split
          · simp
          · split <;> simp

theorem value_tooLong (cs : List Char) : (value cs).TooLong ↔ LongInteger cs := by
  rw [value_eq, LongInteger]
  by_cases hq : cs.head? = some '"'
  · have hquoted := not_tooLong_of_unclosed (Token.quoted_breaks cs)
    simp [hq, tooLong_andThen, hquoted, quotedValue]
  · rw [if_neg hq, unquoted, ← coerce_eq_integerTooLong]
    cases coerce (trim (lineAhead cs)) with
    | ok v => simp
    | error f => simp [hq]

theorem pair_tooLong (cs : List Char) :
    (pair cs).TooLong ↔ ∃ key n, key? cs = some (key, n) ∧ LongInteger (cs.drop n) := by
  rw [pair_eq]
  cases hk : key? cs with
  | none => simp
  | some p =>
      obtain ⟨key, n⟩ := p
      simp [value_tooLong]

/-- Reading the pairs of a block comes to the value in front of `v`. -/
inductive ComesTo (indent : Nat) : List Char → List Char → Prop
  | blank {cs rest v : List Char} (h : cs.drop (indentWidth cs) = '\n' :: rest)
      (hv : ComesTo indent rest v) : ComesTo indent cs v
  | here {cs key : List Char} {n : Nat} (hw : indent ≤ indentWidth cs)
      (hk : key? (cs.drop (indentWidth cs)) = some (key, n)) :
      ComesTo indent cs ((cs.drop (indentWidth cs)).drop n)
  | later {cs v : List Char} {p : String × Scalar} {n : Nat} (hw : indent ≤ indentWidth cs)
      (hp : pair (cs.drop (indentWidth cs)) = .found p n)
      (hv : ComesTo indent (cs.drop (pairLine (indentWidth cs) cs n)) v) : ComesTo indent cs v

/-- The reading comes to an integer with too many digits. -/
def Meets (reads : List Char → List Char → Prop) (cs : List Char) : Prop :=
  ∃ v, reads cs v ∧ LongInteger v

theorem key?_newline (rest : List Char) : key? ('\n' :: rest) = none := rfl

theorem pair_newline (rest : List Char) : pair ('\n' :: rest) = .absent := rfl

/-- The front of a line that is no blank line, read as a block reads it. -/
theorem meets_line {indent : Nat} {cs : List Char} (hw : indent ≤ indentWidth cs)
    (hn : (cs.drop (indentWidth cs)).head? ≠ some '\n') :
    Meets (ComesTo indent) cs ↔ (pair (cs.drop (indentWidth cs))).TooLong ∨
      ∃ p n, pair (cs.drop (indentWidth cs)) = .found p n ∧
        Meets (ComesTo indent) (cs.drop (pairLine (indentWidth cs) cs n)) := by
  rw [pair_tooLong]
  constructor
  · rintro ⟨v, hv, hlong⟩
    cases hv with
    | blank h _ => exact absurd (by rw [h]; rfl) hn
    | here _ hk => exact .inl ⟨_, _, hk, hlong⟩
    | later _ hp hv => exact .inr ⟨_, _, hp, v, hv, hlong⟩
  · rintro (⟨key, n, hk, hlong⟩ | ⟨p, n, hp, v, hv, hlong⟩)
    · exact ⟨_, .here hw hk, hlong⟩
    · exact ⟨v, .later hw hp hv, hlong⟩

/-- **A block meets an integer with too many digits if and only if it
comes to one.** -/
theorem pairs_tooLong (indent : Nat) (cs : List Char) :
    (pairs indent cs).TooLong ↔ Meets (ComesTo indent) cs := by
  fun_induction pairs indent cs with
  | case1 cs width h =>
      have hk : key? (cs.drop (indentWidth cs)) = none := by rw [h]; rfl
      have hp : pair (cs.drop (indentWidth cs)) = .absent := by rw [h]; rfl
      simp only [not_tooLong_found, false_iff]
      rintro ⟨v, hv, -⟩
      cases hv with
      | blank h' _ => cases h.symm.trans h'
      | here _ hk' => simp [hk] at hk'
      | later _ hp' _ => simp [hp] at hp'
  | case2 cs width rest h ih =>
      rw [tooLong_shift, ih]
      constructor
      · rintro ⟨v, hv, hlong⟩
        exact ⟨v, .blank h hv, hlong⟩
      · rintro ⟨v, hv, hlong⟩
        cases hv with
        | blank h' hv =>
            have hrest := List.cons.inj (h'.symm.trans h)
            exact ⟨v, hrest.2 ▸ hv, hlong⟩
        | here _ hk => rw [h, key?_newline] at hk; cases hk
        | later _ hp _ => rw [h, pair_newline] at hp; cases hp
  | case3 cs width c rest hne h hlt =>
      simp only [not_tooLong_found, false_iff]
      rintro ⟨v, hv, -⟩
      cases hv with
      | blank h' _ => exact absurd (List.cons.inj (h.symm.trans h')).1 hne
      | here hw _ => exact absurd hlt (Nat.not_lt.2 hw)
      | later hw _ _ => exact absurd hlt (Nat.not_lt.2 hw)
  | case4 cs width c rest hne h hlt hp =>
      have hhead : (cs.drop (indentWidth cs)).head? ≠ some '\n' := by
        rw [h]
        simpa using hne
      rw [meets_line (Nat.le_of_not_lt hlt) hhead, h, hp]
      simp
  | case5 cs width c rest hne h hlt f hp =>
      have hhead : (cs.drop (indentWidth cs)).head? ≠ some '\n' := by
        rw [h]
        simpa using hne
      rw [meets_line (Nat.le_of_not_lt hlt) hhead, h, hp]
      cases f <;> simp [Flaw.shift]
  | case6 cs width c rest hne h hlt p n hp m ih =>
      have hhead : (cs.drop (indentWidth cs)).head? ≠ some '\n' := by
        rw [h]
        simpa using hne
      rw [meets_line (Nat.le_of_not_lt hlt) hhead, h, hp, tooLong_shift,
        tooLong_map, ih]
      simp [m, pairLine, width]

theorem block_tooLong (indent : Nat) (cs : List Char) :
    (block indent cs).TooLong ↔ Meets (ComesTo indent) cs := by
  rw [← pairs_tooLong, block_eq]
  split
  · next h => simp [h]
  · exact tooLong_map ..

theorem blockOrEmpty_tooLong (indent : Nat) (cs : List Char) :
    (blockOrEmpty indent cs).TooLong ↔ Meets (ComesTo indent) cs := by
  rw [← block_tooLong, blockOrEmpty_eq]
  split
  · next h => simp [h]
  · rfl

end Metadata

/-! ## Transactions -/

namespace Transaction

open Metadata (Meets)

/-- How far the line of a posting reaches. -/
def postingLine (account cs : List Char) : Nat :=
  (postingReach account cs).2 + lineLength (cs.drop (postingReach account cs).2)

/-- Reading a posting comes to the value in front of `v`. -/
def PostingComesTo (cs v : List Char) : Prop :=
  ∃ account, Token.account cs = some account ∧
    Metadata.ComesTo postingIndent (cs.drop (postingLine account cs)) v

/-- Reading a line of a body comes to the value in front of `v`. -/
def LineComesTo (cs v : List Char) : Prop :=
  cs.head? ≠ some ';' ∧
    ((∃ key n, Metadata.key? cs = some (key, n) ∧ v = cs.drop n) ∨
      Metadata.key? cs = none ∧ PostingComesTo cs v)

/-- Reading a body comes to the value in front of `v`. -/
inductive BodyComesTo : List Char → List Char → Prop
  | here {cs v : List Char} (hw : bodyIndent ≤ indentWidth (cs.drop (blankLines cs)))
      (hv : LineComesTo (cs.drop (bodyFront cs)) v) : BodyComesTo cs v
  | later {cs v : List Char} {l : BodyLine} {n : Nat}
      (hw : bodyIndent ≤ indentWidth (cs.drop (blankLines cs)))
      (hl : bodyLine (cs.drop (bodyFront cs)) = .found l n)
      (hv : BodyComesTo (cs.drop (bodyFront cs + n)) v) : BodyComesTo cs v

/-- Reading a transaction comes to the value in front of `v`. -/
def ComesTo (cs v : List Char) : Prop :=
  ∃ h n, header cs = .found h n ∧ endsWithComment (cs.drop n) = false ∧
    BodyComesTo ((cs.drop n).drop (lineLength (cs.drop n))) v

theorem posting_tooLong (cs : List Char) : (posting cs).TooLong ↔ Meets PostingComesTo cs := by
  rw [posting_eq]
  cases ha : Token.account cs with
  | none => simp [Meets, PostingComesTo, ha]
  | some account =>
      have hline : postingLine account cs = lineLength cs :=
        lineLength_drop (postingReach_lineAhead ha).2
      simp only [tooLong_shift, tooLong_map, Metadata.blockOrEmpty_tooLong]
      simp [Meets, PostingComesTo, ha, hline]

theorem bodyLine_tooLong (cs : List Char) : (bodyLine cs).TooLong ↔ Meets LineComesTo cs := by
  have hpair := Metadata.pair_tooLong cs
  rw [bodyLine_eq]
  by_cases hc : cs.head? = some ';'
  · simp [Meets, LineComesTo, hc]
  · rw [if_neg hc]
    cases hk : Metadata.key? cs with
    | none =>
        have habsent : Metadata.pair cs = .absent := by rw [Metadata.pair_eq, hk]
        simp only [habsent, tooLong_map, posting_tooLong]
        simp [Meets, LineComesTo, hc, hk]
    | some p =>
        obtain ⟨key, n⟩ := p
        have hmeets : Meets LineComesTo cs ↔ Metadata.LongInteger (cs.drop n) := by
          simp [Meets, LineComesTo, hc, hk]
        have hlong : (Metadata.pair cs).TooLong ↔ Metadata.LongInteger (cs.drop n) := by
          simp [hpair, hk]
        rw [hmeets, ← hlong]
        cases hp : Metadata.pair cs with
        | absent =>
            rw [Metadata.pair_eq, hk] at hp
            cases hv : Metadata.value (cs.drop n) <;> simp [hv, shift] at hp
            exact absurd hv (Metadata.value_ne_absent _)
        | found pr m => simp
        | broken f => simp

theorem body_tooLong (cs : List Char) : (body cs).TooLong ↔ Meets BodyComesTo cs := by
  have hcases : ∀ cs, bodyIndent ≤ indentWidth (cs.drop (blankLines cs)) →
      (Meets BodyComesTo cs ↔ (bodyLine (cs.drop (bodyFront cs))).TooLong ∨
        ∃ l n, bodyLine (cs.drop (bodyFront cs)) = .found l n ∧
          Meets BodyComesTo (cs.drop (bodyFront cs + n))) := by
    intro cs hw
    rw [bodyLine_tooLong]
    constructor
    · rintro ⟨v, hv, hlong⟩
      cases hv with
      | here _ hv => exact .inl ⟨v, hv, hlong⟩
      | later _ hl hv => exact .inr ⟨_, _, hl, v, hv, hlong⟩
    · rintro (⟨v, hv, hlong⟩ | ⟨l, n, hl, v, hv, hlong⟩)
      · exact ⟨v, .here hw hv, hlong⟩
      · exact ⟨v, .later hw hl hv, hlong⟩
  fun_induction body cs with
  | case1 cs hlt =>
      simp only [not_tooLong_found, false_iff]
      rintro ⟨v, hv, -⟩
      cases hv with
      | here hw _ => exact absurd hlt (Nat.not_lt.2 hw)
      | later hw _ _ => exact absurd hlt (Nat.not_lt.2 hw)
  | case2 cs front hlt h =>
      have hline : bodyLine (cs.drop (bodyFront cs)) = .absent := h
      rw [hcases cs (Nat.le_of_not_lt hlt), hline]
      simp
  | case3 cs front hlt f h =>
      have hline : bodyLine (cs.drop (bodyFront cs)) = .broken f := h
      rw [hcases cs (Nat.le_of_not_lt hlt), hline]
      cases f <;> simp [Flaw.shift]
  | case4 cs front hlt l n h ih =>
      have hline : bodyLine (cs.drop (bodyFront cs)) = .found l n := h
      have hrest : (body (cs.drop (bodyFront cs + n))).TooLong ↔
        Meets BodyComesTo (cs.drop (bodyFront cs + n)) := ih
      rw [hcases cs (Nat.le_of_not_lt hlt), hline, tooLong_shift, tooLong_map]
      refine hrest.trans ?_
      simp

theorem read_tooLong (cs : List Char) : (read cs).TooLong ↔ Meets ComesTo cs := by
  have hheader := not_tooLong_of_unclosed (header_breaks cs)
  have hafter : ∀ h rest, (afterHeader h rest).TooLong ↔ endsWithComment rest = false ∧
      Meets BodyComesTo (rest.drop (lineLength rest)) := by
    intro h rest
    unfold afterHeader
    split
    · next hc => simp [hc]
    · next hc => simp [hc, bodyAndIdle, tooLong_andThen, body_tooLong]
  rw [read_eq, tooLong_andThen]
  simp only [hheader, false_or, hafter]
  constructor
  · rintro ⟨h, n, hh, hc, v, hv, hlong⟩
    exact ⟨v, ⟨h, n, hh, hc, hv⟩, hlong⟩
  · rintro ⟨v, ⟨h, n, hh, hc, hv⟩, hlong⟩
    exact ⟨h, n, hh, hc, v, hv, hlong⟩

end Transaction

/-! ## Directives and texts -/

namespace Directive

open Metadata (Meets)

/-- Reading an entry by the directive comes to the value in front of
`v`. -/
def ComesTo (r : Registry) : Directive → List Char → List Char → Prop
  | schema _ fields, cs, v => ∃ values n, Field.readAll r fields [] cs = .found values n ∧
      Metadata.ComesTo metadataIndent ((cs.drop n).drop (lineLength (cs.drop n))) v
  | custom _ _, cs, v => Transaction.ComesTo cs v

theorem metadataBelow_tooLong (cs : List Char) :
    (metadataBelow cs).TooLong ↔ Meets (Metadata.ComesTo metadataIndent) cs := by
  rw [← Metadata.block_tooLong, metadataBelow_eq]
  split
  · next h => simp [h]
  · next h => simp [h]
  · next h => simp [h]

/-- **A builtin directive meets an integer with too many digits if and
only if it comes to one.** -/
theorem body_tooLong {source : String} {d : Directive}
    (h : d ∈ (Builtin.grammar source).directives) (cs : List Char) :
    (d.body Builtin.registry cs).TooLong ↔ Meets (d.ComesTo Builtin.registry) cs := by
  rcases Builtin.directive_cases h with ⟨kind, fields, word, shapes, rfl, hs, hmem⟩ | rfl
  · have hfields := not_tooLong_of_unclosed
      (hs.readAll_breaks (Builtin.singleLine_bodyShapes shapes hmem) cs)
    have hbelow : ∀ values n, Field.readAll Builtin.registry fields [] cs = .found values n →
        ((afterFields kind values (cs.drop n)).TooLong ↔
          Meets (Metadata.ComesTo metadataIndent) ((cs.drop n).drop (lineLength (cs.drop n)))) := by
      intro values n hv
      obtain ⟨date, hd⟩ := (hs.readAll_date cs).of_eq hv
      rw [afterFields_eq hd, tooLong_shift, tooLong_map, metadataBelow_tooLong]
    show (readSchema Builtin.registry kind fields cs).TooLong ↔ _
    rw [readSchema_eq, tooLong_andThen]
    constructor
    · rintro (ht | ⟨values, n, hv, ht⟩)
      · exact absurd ht hfields
      · obtain ⟨v, hcomes, hlong⟩ := (hbelow values n hv).1 ht
        exact ⟨v, ⟨values, n, hv, hcomes⟩, hlong⟩
    · rintro ⟨v, ⟨values, n, hv, hcomes⟩, hlong⟩
      exact .inr ⟨values, n, hv, (hbelow values n hv).2 ⟨v, hcomes, hlong⟩⟩
  · exact Transaction.read_tooLong cs

end Directive

namespace Grammar

open Metadata (Meets)

variable {g : Grammar}

/-- How far the entry at the front reaches. -/
def reach? (g : Grammar) (cs : List Char) : Option Nat :=
  match firstBody g.registry cs g.directives with
  | .found _ n => some n
  | .absent => some (Recovery.length cs)
  | .broken _ => none

/-- Reading a text comes to the value in front of `v`. -/
inductive ComesTo (g : Grammar) : List Char → List Char → Prop
  | gap {cs v : List Char} (hg : 0 < gap cs) (hv : ComesTo g (cs.drop (gap cs)) v) :
      ComesTo g cs v
  | here {cs v : List Char} {d : Directive} (hg : gap cs = 0) (hr : cs ≠ [])
      (hd : g.Tries cs d) (hv : d.ComesTo g.registry cs v) : ComesTo g cs v
  | later {cs v : List Char} {n : Nat} (hg : gap cs = 0) (hr : cs ≠ [])
      (hn : g.reach? cs = some n) (hv : ComesTo g (cs.drop n) v) : ComesTo g cs v

variable {source : String}

/-- The entry at the front of a text meets an integer with too many
digits if and only if the directive that reads it comes to one. -/
theorem firstBody_meets (cs : List Char) :
    (firstBody Builtin.registry cs (Builtin.grammar source).directives).TooLong ↔
      ∃ d, (Builtin.grammar source).Tries cs d ∧ Meets (d.ComesTo Builtin.registry) cs := by
  refine (firstBody_eq_iff (g := Builtin.grammar source) (by nofun)).trans (exists_congr fun d => ?_)
  exact and_congr_right fun hd => Directive.body_tooLong hd.mem cs

theorem ofFlaw_eq_integerTooLong {c : Cursor} {f : Flaw} :
    Fault.ofFlaw c f = .integerTooLong ↔ f = .integerTooLong := by
  cases f <;> simp [Fault.ofFlaw]

theorem reach?_of_found {p : Shape → Prop} (h : g.OfShape p) {c : Cursor} {e : Entry} {n : Nat}
    (he : g.entryAt c = .ok (e, n)) : g.reach? c.rest = some n := by
  rw [entryAt_eq h] at he
  rw [reach?]
  cases hf : firstBody g.registry c.rest g.directives with
  | found e' n' => rw [hf] at he; cases he; rfl
  | absent => rw [hf] at he; cases he; rfl
  | broken f => simp [hf] at he

theorem reach?_of_broken {p : Shape → Prop} (h : g.OfShape p) {c : Cursor} {f : Fault}
    (he : g.entryAt c = .error f) : g.reach? c.rest = none := by
  obtain ⟨flaw, hbody, -⟩ := exists_flaw_of_entryAt h he
  rw [reach?, hbody]

theorem entryAt_tooLong {p : Shape → Prop} (h : g.OfShape p) (c : Cursor) :
    g.entryAt c = .error .integerTooLong ↔
      (firstBody g.registry c.rest g.directives).TooLong := by
  rw [entryAt_eq h]
  cases firstBody g.registry c.rest g.directives with
  | found e n => simp
  | absent => simp
  | broken f => simp [ofFlaw_eq_integerTooLong]

/-- Where an entry comes next, the reading goes into it or on behind
it. -/
theorem meets_entry {cs : List Char} (hg : gap cs = 0) (hr : cs ≠ []) :
    Meets g.ComesTo cs ↔ (∃ d, g.Tries cs d ∧ Meets (d.ComesTo g.registry) cs) ∨
      ∃ n, g.reach? cs = some n ∧ Meets g.ComesTo (cs.drop n) := by
  constructor
  · rintro ⟨v, hv, hlong⟩
    cases hv with
    | gap hpos _ => omega
    | here _ _ hd hv => exact .inl ⟨_, hd, v, hv, hlong⟩
    | later _ _ hn hv => exact .inr ⟨_, hn, v, hv, hlong⟩
  · rintro (⟨d, hd, v, hv, hlong⟩ | ⟨n, hn, v, hv, hlong⟩)
    · exact ⟨v, .here hg hr hd hv, hlong⟩
    · exact ⟨v, .later hg hr hn hv, hlong⟩

/-- **The walk ends at an integer with too many digits if and only if it
comes to one.** -/
theorem items_tooLong (c : Cursor) :
    ((Builtin.grammar source).items c).2 = some .integerTooLong ↔
      Meets (Builtin.grammar source).ComesTo c.rest := by
  have hshape := Builtin.ofShape_grammar source
  have hsplit : ∀ c : Cursor, gap c.rest = 0 → c.rest ≠ [] →
      (Meets (Builtin.grammar source).ComesTo c.rest ↔
        (∃ d, (Builtin.grammar source).Tries c.rest d ∧
          Meets (d.ComesTo Builtin.registry) c.rest) ∨
        ∃ n, (Builtin.grammar source).reach? c.rest = some n ∧
          Meets (Builtin.grammar source).ComesTo (c.rest.drop n)) :=
    fun _ hg hr => meets_entry hg hr
  induction c using walk_induction (Builtin.grammar source) with
  | skip c hg ih =>
      rw [items_gap hg]
      refine Iff.trans ih ⟨?_, ?_⟩
      · rintro ⟨v, hv, hlong⟩
        exact ⟨v, .gap hg hv, hlong⟩
      · rintro ⟨v, hv, hlong⟩
        cases hv with
        | gap _ hv => exact ⟨v, hv, hlong⟩
        | here hz _ _ _ => omega
        | later hz _ _ _ => omega
  | done c hr =>
      rw [items_nil hr]
      simp only [reduceCtorEq, false_iff]
      rintro ⟨v, hv, -⟩
      cases hv with
      | gap hpos _ => exact ne_nil_of_gap hpos hr
      | here _ hne _ _ => exact hne hr
      | later _ hne _ _ => exact hne hr
  | broken c f hg hr he =>
      have hentry := (entryAt_tooLong hshape c).trans (firstBody_meets c.rest)
      have hreach := reach?_of_broken hshape he
      rw [he] at hentry
      rw [hsplit c hg hr, items_broken hg hr he, hreach]
      simpa using hentry
  | stalled c e hg hr he => exact absurd (entryAt_pos hshape hr he) (Nat.lt_irrefl 0)
  | found c e n hg hr he hn ih =>
      have hentry := (entryAt_tooLong hshape c).trans (firstBody_meets c.rest)
      have hreach := reach?_of_found hshape he
      have hnone : ¬∃ d, (Builtin.grammar source).Tries c.rest d ∧
          Meets (d.ComesTo Builtin.registry) c.rest := by
        intro hmeets
        rw [← hentry, he] at hmeets
        cases hmeets
      rw [hsplit c hg hr, items_found hg hr he hn, hreach]
      refine Iff.trans ih ⟨?_, ?_⟩
      · exact fun hmeets => .inr ⟨n, rfl, hmeets⟩
      · rintro (hmeets | ⟨k, hk, hmeets⟩)
        · exact absurd hmeets hnone
        · cases hk
          exact hmeets

end Grammar
end Daybook
