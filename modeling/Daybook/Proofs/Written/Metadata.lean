import Daybook.Proofs.Written.Literal
import Daybook.Proofs.Metadata

/-!
# Written — metadata

A pair is written as a key, a colon and its value on an indented line. An
unquoted value is told by what it looks like, so that integers, floats,
truth values and null are read back as what they were.
-/

namespace Daybook

open Daybook.Text

namespace Pairs

variable {α : Type}

/-- A new name goes to the end. -/
theorem put_of_notMem {ps : Pairs α} {name : String} (h : name ∉ ps.names) (v : α) :
    ps.put name v = ps ++ [(name, v)] := by
  induction ps with
  | nil => rfl
  | cons p ps ih =>
      rw [names, List.map_cons, List.mem_cons, not_or] at h
      rw [put, if_neg (Ne.symm h.1), ih h.2]
      rfl

/-- New names are added in their order. -/
theorem foldl_put (ps qs : Pairs α) (h : (names (ps ++ qs)).Nodup) :
    qs.foldl (fun m p => put m p.1 p.2) ps = ps ++ qs := by
  induction qs generalizing ps with
  | nil => rw [List.foldl_nil, List.append_nil]
  | cons q qs ih =>
      have hsplit : ps ++ q :: qs = ps ++ [q] ++ qs := List.append_cons ps q qs
      have hnew : q.1 ∉ ps.names := by
        rw [names, List.map_append, List.map_cons, List.nodup_append] at h
        intro hmem
        exact h.2.2 q.1 hmem q.1 (by simp) rfl
      rw [List.foldl_cons, put_of_notMem hnew, ih _ (hsplit ▸ h), hsplit]

theorem collect_of_nodup {ps : Pairs α} (h : ps.names.Nodup) : collect ps = ps :=
  foldl_put [] ps h

end Pairs

namespace Written

/-! ## Values -/

/-- The decimal digits of an integer, behind a minus if it is negative. -/
def decimal (n : Int) : Numeral := ⟨decide (n < 0), Nat.toDigits 10 n.natAbs, none⟩

/-- The numeral is an integer: digits, and no point. -/
structure IsWhole (n : Numeral) : Prop where
  ne_nil : n.whole ≠ []
  whole : Digits n.whole
  fraction : n.fraction = none

/-- The numeral has a fraction; there may be no digit before the point. -/
structure IsFraction (n : Numeral) : Prop where
  whole : Digits n.whole
  fraction : ∃ ds, n.fraction = some ds ∧ ds ≠ [] ∧ Digits ds

/-- A value of metadata as it may be written: an integer with no more
digits than are read, a float as a numeral, a text between quotes. -/
inductive Datum where
  | null
  | bool (b : Bool)
  | int (n : Int) (fits : (decimal n).whole.length ≤ Metadata.maxDigits)
  | float (n : Numeral) (isFraction : IsFraction n)
  | text (s : String)

namespace Datum

/-- The value as it is written. -/
def written : Datum → List Char
  | null => []
  | bool b => (if b then "true" else "false").toList
  | int n _ => (decimal n).text
  | float n _ => n.text
  | text s => quote s

/-- The value. -/
def scalar : Datum → Scalar
  | null => .null
  | bool b => .bool b
  | int n _ => .int n
  | float n _ => .float n.toFloat
  | text s => .text s

end Datum

theorem decimalDigit?_of_isDigit {c : Char} (h : c.isDigit = true) :
    decimalDigit? c = some (c.toNat - 48) := by
  simp [Char.isDigit, UInt32.le_iff_toNat_le] at h
  have hval : c.val.toNat = c.toNat := rfl
  obtain ⟨zeros, hzeros⟩ : ∃ zeros, digitZeros = 0x30 :: zeros := ⟨_, rfl⟩
  have hrow : (decide (0x30 ≤ c.toNat) && decide (c.toNat ≤ 0x30 + 9)) = true := by
    simp
    omega
  rw [decimalDigit?, hzeros, List.find?_cons]
  simp only [hrow]
  rfl

theorem isDigit_toDigits {n : Nat} {c : Char} (h : c ∈ Nat.toDigits 10 n) : c.isDigit = true :=
  Nat.isDigit_of_mem_toDigits (by decide) (by decide) h

theorem digits_toDigits (n : Nat) : Digits (Nat.toDigits 10 n) := by
  intro c hc
  rw [isDecimalDigit, decimalDigit?_of_isDigit (isDigit_toDigits hc)]
  rfl

theorem digitsValue_toDigits (n : Nat) : digitsValue (Nat.toDigits 10 n) = n := by
  have hfold : ∀ (cs : List Char) (m : Nat), (∀ c ∈ cs, c.isDigit = true) →
      cs.foldl (fun n c => 10 * n + (decimalDigit? c).getD 0) m = Nat.ofDigitChars 10 cs m := by
    intro cs m hcs
    induction cs generalizing m with
    | nil => rfl
    | cons c cs ih =>
        rw [List.foldl_cons, Nat.ofDigitChars_cons, decimalDigit?_of_isDigit (hcs c (by simp))]
        exact ih _ fun d hd => hcs d (by simp [hd])
  rw [digitsValue, hfold _ 0 (fun _ hc => isDigit_toDigits hc), Nat.ofDigitChars_ten_toDigits]

theorem toInt_decimal (n : Int) : (decimal n).toInt = n := by
  rw [Numeral.toInt, decimal, digitsValue_toDigits]
  by_cases hn : n < 0
  · rw [if_pos (by simpa using hn)]
    omega
  · rw [if_neg (by simpa using hn)]
    omega

/-- The digits of an integer are what stands before no point. -/
theorem isWhole_decimal (n : Int) : IsWhole (decimal n) :=
  ⟨Nat.toDigits_ne_nil, digits_toDigits n.natAbs, rfl⟩

theorem splitSign_whole {n : Numeral} (hn : IsWhole n) :
    Numeral.splitSign n.text = (n.negative, n.whole) := by
  have h := splitSign_text n [] hn.whole (.inl hn.ne_nil)
  simpa [hn.fraction, fractionText] using h

/-- An integer is told by its digits. -/
theorem integer?_text {n : Numeral} (hn : IsWhole n) : Numeral.integer? n.text = some n := by
  have hall : n.whole.all isDecimalDigit = true := List.all_eq_true.2 hn.whole
  rw [Numeral.integer?, splitSign_whole hn]
  simp only [hall]
  rw [if_pos (by simp [hn.ne_nil]), ← hn.fraction]

theorem splitSign_fraction {n : Numeral} (hn : IsFraction n) :
    Numeral.splitSign n.text = (n.negative, n.whole ++ fractionText n.fraction) := by
  obtain ⟨ds, hds, -⟩ := hn.fraction
  have h := splitSign_text n [] hn.whole (.inr (by simp [hds]))
  simpa using h

/-- A float is told by its point. -/
theorem fractional?_text {n : Numeral} (hn : IsFraction n) :
    Numeral.integer? n.text = none ∧ Numeral.fractional? n.text = some n := by
  obtain ⟨ds, hds, hne, hdigits⟩ := hn.fraction
  have hsplit := splitSign_fraction hn
  rw [hds, fractionText] at hsplit
  have htake : (n.whole ++ '.' :: ds).takeWhile isDecimalDigit = n.whole :=
    takeWhile_append_of_head hn.whole (by simp [show isDecimalDigit '.' = false by decide])
  constructor
  · rw [Numeral.integer?, hsplit]
    simp [show isDecimalDigit '.' = false by decide]
  · rw [Numeral.fractional?, hsplit]
    simp only [htake, List.drop_left]
    rw [if_pos]
    · rw [← hds]
    · have hall : ds.all isDecimalDigit = true := List.all_eq_true.2 hdigits
      simp [hne, hall]

theorem coerce_written (d : Datum) (h : ∀ s, d ≠ .text s) :
    Metadata.coerce d.written = .ok d.scalar := by
  cases d with
  | null => rfl
  | bool b => cases b <;> rfl
  | int n fits =>
      show Metadata.coerce (decimal n).text = .ok (.int n)
      rw [Metadata.coerce, integer?_text (isWhole_decimal n)]
      simp only [if_pos fits, toInt_decimal]
  | float n isFraction =>
      obtain ⟨hint, hfloat⟩ := fractional?_text isFraction
      show Metadata.coerce n.text = .ok (.float n.toFloat)
      rw [Metadata.coerce, hint, hfloat]
  | text s => exact absurd rfl (h s)

theorem mem_numeral {n : Numeral} (hw : Digits n.whole)
    (hf : ∀ ds ∈ n.fraction, Digits ds) {c : Char} (hc : c ∈ n.text) :
    isDecimalDigit c = true ∨ c = '-' ∨ c = '.' := by
  rw [text_eq] at hc
  rcases List.mem_append.1 hc with hc | hc
  · cases hn : n.negative with
    | true => exact .inr (.inl (by simpa [hn] using hc))
    | false => simp [hn] at hc
  · rcases List.mem_append.1 hc with hc | hc
    · exact .inl (hw c hc)
    · cases hfr : n.fraction with
      | none => simp [hfr, fractionText] at hc
      | some ds =>
          rw [hfr] at hc
          rcases List.mem_cons.1 hc with rfl | hc
          · exact .inr (.inr rfl)
          · exact .inl (hf ds hfr c hc)

/-- What an unquoted value is made of. -/
theorem mem_written {d : Datum} (h : ∀ s, d ≠ .text s) {c : Char} (hc : c ∈ d.written) :
    c.isAlphanum = true ∨ isDecimalDigit c = true ∨ c = '-' ∨ c = '.' := by
  cases d with
  | null => cases hc
  | bool b =>
      have hletters : ∀ c ∈ (if b then "true" else "false").toList, c.isAlphanum = true := by
        cases b <;> simp
      exact .inl (hletters c hc)
  | int n fits => exact .inr (mem_numeral (digits_toDigits _) (by simp [decimal]) hc)
  | float n isFraction =>
      obtain ⟨ds, hds, -, hdigits⟩ := isFraction.fraction
      exact .inr (mem_numeral isFraction.whole (by simpa [hds] using hdigits) hc)
  | text s => exact absurd rfl (h s)

/-- Nothing of an unquoted value is white space or a quote. -/
theorem visible_written {d : Datum} (h : ∀ s, d ≠ .text s) {c : Char} (hc : c ∈ d.written) :
    isBlank c = false ∧ c ≠ '"' := by
  rcases mem_written h hc with hc | hc | rfl | rfl
  · refine ⟨isBlank_of_isAlphanum hc, ?_⟩
    rintro rfl
    exact absurd hc (by decide)
  · refine ⟨isBlank_of_isDecimalDigit hc, ?_⟩
    rintro rfl
    exact absurd hc (by decide)
  · decide
  · decide

/-- Nothing is dropped at either end of a text that holds none of the
class. -/
theorem dropTrailing_dropWhile_eq_self {p : Char → Bool} {cs : List Char}
    (h : ∀ c ∈ cs, p c = false) : dropTrailing p (cs.dropWhile p) = cs := by
  have hdrop : ∀ ds : List Char, (∀ c ∈ ds, p c = false) → ds.dropWhile p = ds := by
    intro ds hds
    cases ds with
    | nil => rfl
    | cons c ds => rw [List.dropWhile_cons_of_neg (by simp [hds c (by simp)])]
  rw [dropTrailing, hdrop cs h, hdrop cs.reverse fun c hc => h c (List.mem_reverse.1 hc),
    List.reverse_reverse]

theorem trim_eq_self {cs : List Char} (h : ∀ c ∈ cs, isBlank c = false) : trim cs = cs :=
  dropTrailing_dropWhile_eq_self h

/-- **A value is read back** at the end of its line. -/
theorem takes_value (d : Datum) : Takes LineEnd Metadata.value d.written d.scalar := by
  rintro rest ⟨below, rfl⟩
  rw [Metadata.value_eq]
  by_cases htext : ∃ s, d = .text s
  · obtain ⟨s, rfl⟩ := htext
    have hquoted := takes_quoted (fun _ => True) s ('\n' :: below) trivial
    have hhead : (quote s ++ '\n' :: below).head? = some '"' := rfl
    show (if (quote s ++ '\n' :: below).head? = some '"' then _ else _) = _
    rw [if_pos hhead]
    show (Token.quoted (quote s ++ '\n' :: below)).andThen _ _ = _
    have hdrop : ((Datum.text s).written ++ '\n' :: below).drop (quote s).length = '\n' :: below :=
      List.drop_left
    rw [hquoted, Reading.andThen, hdrop]
    simp [Metadata.quotedValue, lineAhead, Datum.written, Datum.scalar]
  · have hplain : ∀ s, d ≠ .text s := fun s hs => htext ⟨s, hs⟩
    have hsingle : '\n' ∉ d.written := by
      intro hn
      have := (visible_written hplain hn).1
      rw [isBlank_newline] at this
      cases this
    have hhead : (d.written ++ '\n' :: below).head? ≠ some '"' := by
      cases hw : d.written with
      | nil => simp
      | cons c cs =>
          have := (visible_written hplain (c := c) (by simp [hw])).2
          simpa using this
    rw [if_neg hhead, Metadata.unquoted, lineAhead_line _ _ hsingle,
      trim_eq_self fun c hc => (visible_written hplain hc).1, coerce_written d hplain]

/-! ## Pairs -/

/-- A key. -/
abbrev KeyName : Type := Word (.headed Metadata.isKeyStart Metadata.isKeyChar)

theorem visible_isKeyStart : Visible Metadata.isKeyStart := by
  intro c h
  simp only [Metadata.isKeyStart, Bool.or_eq_true, beq_iff_eq] at h
  rcases h with h | rfl
  · exact isBlank_of_isAlphanum (by simp [Char.isAlphanum, h])
  · decide

/-- A key and its value. -/
structure Pair where
  key : KeyName
  datum : Datum

namespace Pair

/-- The pair as it is written. -/
def text (p : Pair) : List Char := p.key.text ++ ':' :: ' ' :: p.datum.written

/-- The pair that is read. -/
def value (p : Pair) : String × Scalar := (p.key.string, p.datum.scalar)

/-- The pair on a line of its own. -/
def line (indent : Nat) (p : Pair) : List Char :=
  List.replicate indent ' ' ++ (p.text ++ ['\n'])

theorem solid (p : Pair) : Solid p.text :=
  (Lexeme.solid_headed visible_isKeyStart p.key.whole).append _

end Pair

/-- No indent comes first in a value, or where it is missing. -/
theorem indentWidth_written (d : Datum) {rest : List Char} (hr : LineEnd rest) :
    indentWidth (d.written ++ rest) = 0 := by
  obtain ⟨below, rfl⟩ := hr
  cases hw : d.written with
  | nil => exact indentWidth_newline below
  | cons c cs =>
      have hc : isBlank c = false := by
        by_cases htext : ∃ s, d = .text s
        · obtain ⟨s, rfl⟩ := htext
          obtain rfl : '"' = c := (List.cons.inj hw).1
          decide
        · exact (visible_written (fun s hs => htext ⟨s, hs⟩) (by simp [hw])).1
      exact Solid.indentWidth_eq_zero ⟨c, _, rfl, hc⟩

theorem keyEnd_written (d : Datum) {rest : List Char} (hr : LineEnd rest) :
    Metadata.keyEnd (':' :: ' ' :: (d.written ++ rest)) = some 2 := by
  have hcolon : indentWidth (':' :: ' ' :: (d.written ++ rest)) = 0 := by
    rw [indentWidth, List.takeWhile_cons_of_neg (by decide), List.length_nil]
  have hspace : indentWidth (' ' :: (d.written ++ rest)) = 1 := by
    have hzero := indentWidth_written d hr
    rw [indentWidth] at hzero ⊢
    rw [List.takeWhile_cons_of_pos (by decide), List.length_cons, hzero]
  rw [Metadata.keyEnd, hcolon, List.drop_zero]
  simp [hspace]

/-- **A pair is read back** at the end of its line. -/
theorem takes_pair (p : Pair) : Takes LineEnd Metadata.pair p.text p.value := by
  intro rest hr
  have hcolon : ∀ c ∈ (':' :: ' ' :: (p.datum.written ++ rest)).head?,
      Metadata.isKeyChar c = false := by
    intro c hc
    obtain rfl : ':' = c := by simpa using hc
    decide
  have hkey : Metadata.key? (p.text ++ rest) = some (p.key.text, p.key.text.length + 2) := by
    rw [Pair.text, List.append_assoc, List.cons_append, List.cons_append, Metadata.key?_eq,
      Lexeme.headed_append p.key.whole hcolon, Option.bind_some, List.drop_left,
      keyEnd_written p.datum hr, Option.map_some]
  have hdrop : (p.text ++ rest).drop (p.key.text.length + 2) = p.datum.written ++ rest := by
    rw [Pair.text, List.append_assoc, List.drop_length_add_append]
    rfl
  rw [Metadata.pair_eq, hkey]
  simp only [hdrop]
  rw [takes_value p.datum rest hr]
  simp [Pair.value, Pair.text, Word.string]
  omega

/-! ## Blocks -/

/-- Behind blank lines no line follows that is indented as far. -/
def Outdented (indent : Nat) (cs : List Char) : Prop :=
  indentWidth (cs.drop (blankLines cs)) < indent

/-- Pairs, each on a line of its own. -/
def blockText (indent : Nat) (ps : List Pair) : List Char := ps.flatMap (Pair.line indent)

theorem pairs_of_outdented {indent : Nat} {cs : List Char} (h : Outdented indent cs) :
    Metadata.pairs indent cs = .found [] (blankLines cs) := by
  unfold Outdented at h
  fun_induction blankLines cs with
  | case1 cs next hnext ih =>
      rw [← drop_indentWidth] at hnext
      have hbehind := drop_of_blank hnext
      rw [← List.drop_drop, hbehind] at h
      rw [Metadata.pairs_eq, if_pos (by simp [hnext]), hbehind, ih h, Reading.shift_found]
  | case2 cs hno =>
      have hhead : (cs.drop (indentWidth cs)).head? ≠ some '\n' := by
        intro hhead
        obtain ⟨next, hnext⟩ := List.head?_eq_some_iff.1 hhead
        exact hno next (drop_indentWidth cs ▸ hnext)
      rw [List.drop_zero] at h
      rw [Metadata.pairs_eq, if_neg hhead, if_pos h]

theorem indentWidth_replicate (n : Nat) {cs : List Char} (h : Solid cs) :
    indentWidth (List.replicate n ' ' ++ cs) = n := by
  obtain ⟨c, rest, rfl, hc⟩ := h
  have hi := isIndent_of_isBlank hc
  have htake : (List.replicate n ' ' ++ c :: rest).takeWhile isIndent = List.replicate n ' ' := by
    refine takeWhile_append_of_head (fun d hd => ?_) (by simp [hi])
    rw [List.eq_of_mem_replicate hd]
    rfl
  rw [indentWidth, htake, List.length_replicate]

theorem drop_replicate (n : Nat) (cs : List Char) :
    (List.replicate n ' ' ++ cs).drop n = cs :=
  List.drop_left' List.length_replicate

/-- **A block is read back**, with the blank lines behind it. -/
theorem pairs_blockText {indent : Nat} (ps : List Pair) {rest : List Char}
    (h : Outdented indent rest) : Metadata.pairs indent (blockText indent ps ++ rest) =
      .found (ps.map Pair.value) ((blockText indent ps).length + blankLines rest) := by
  induction ps with
  | nil => simpa [blockText] using pairs_of_outdented h
  | cons p ps ih =>
      have htext : blockText indent (p :: ps) ++ rest = List.replicate indent ' ' ++
          (p.text ++ '\n' :: (blockText indent ps ++ rest)) := by simp [blockText, Pair.line]
      have hsolid : Solid (p.text ++ '\n' :: (blockText indent ps ++ rest)) := p.solid.append _
      have hwidth := indentWidth_replicate indent hsolid
      have hhead : (p.text ++ '\n' :: (blockText indent ps ++ rest)).head? ≠ some '\n' :=
        hsolid.atMargin.head?_ne_newline
      have hpair := takes_pair p ('\n' :: (blockText indent ps ++ rest)) ⟨_, rfl⟩
      have hnewline : Metadata.newline ((List.replicate indent ' ' ++
          (p.text ++ '\n' :: (blockText indent ps ++ rest))).drop (indent + p.text.length)) = 1 := by
        rw [← List.drop_drop, drop_replicate, List.drop_left]
        rfl
      have hbelow : (List.replicate indent ' ' ++
          (p.text ++ '\n' :: (blockText indent ps ++ rest))).drop (indent + p.text.length + 1) =
            blockText indent ps ++ rest := by
        rw [Nat.add_assoc, ← List.drop_drop, drop_replicate, drop_line]
      rw [htext, Metadata.pairs_eq, hwidth, drop_replicate, if_neg hhead,
        if_neg (Nat.lt_irrefl indent), hpair]
      simp only [Metadata.pairLine, hnewline, hbelow, ih, Reading.map_found, Reading.shift_found]
      simp [blockText, Pair.line]
      omega

/-- Metadata: pairs with different keys. -/
structure Block where
  pairs : List Pair
  distinct : (pairs.map (·.value.1)).Nodup

namespace Block

/-- The metadata. -/
def value (b : Block) : Metadata := b.pairs.map Pair.value

/-- The metadata on lines of its own. -/
def text (indent : Nat) (b : Block) : List Char := blockText indent b.pairs

/-- Pairs with different keys are all kept. -/
theorem collect_value (b : Block) : Pairs.collect b.value = b.value := by
  refine Pairs.collect_of_nodup ?_
  rw [Pairs.names, value, List.map_map]
  exact b.distinct

/-- How many characters of the blank lines behind it are read with the
metadata: none if there is none. -/
def behind (b : Block) (rest : List Char) : Nat := if b.pairs = [] then 0 else blankLines rest

end Block

/-- **Metadata is read back**, with the blank lines behind it. -/
theorem block_text {indent : Nat} (b : Block) {rest : List Char} (h : Outdented indent rest) :
    Metadata.block indent (b.text indent ++ rest) =
      if b.pairs = [] then .absent
      else .found b.value ((b.text indent).length + blankLines rest) := by
  have hpairs := pairs_blockText b.pairs h
  rw [Metadata.block_eq, Block.text, hpairs]
  cases hb : b.pairs with
  | nil => rfl
  | cons p ps =>
      have hcollect := b.collect_value
      rw [Block.value, hb, List.map_cons] at hcollect
      simp [hcollect, Block.value, hb]

theorem blockOrEmpty_text {indent : Nat} (b : Block) {rest : List Char}
    (h : Outdented indent rest) : Metadata.blockOrEmpty indent (b.text indent ++ rest) =
      .found b.value ((b.text indent).length + b.behind rest) := by
  rw [Metadata.blockOrEmpty_eq, block_text b h]
  by_cases hb : b.pairs = []
  · simp [hb, Block.value, Block.text, blockText, Block.behind]
  · simp [hb, Block.behind]

end Written
end Daybook
