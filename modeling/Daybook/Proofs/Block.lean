import Daybook.Proofs.Automaton
import Daybook.Proofs.Quotation

/-!
# Block — metadata, line by line

A block of metadata takes lines as long as each is blank, or is indented
enough and holds a pair (`Run`). What a pair is, its line alone says
(`Holds`), so the answer of a block can be read off the lines
(`Answers`), if no quoted value goes on below its line. With a greater
indent the run is a beginning of the run with a smaller one.
-/

namespace Daybook

namespace Text

/-- The line is made of spaces and tabs only. -/
def BlankLine (l : List Char) : Prop := ∀ c ∈ l, isIndent c = true

theorem blankLine_iff {l : List Char} : BlankLine l ↔ l.drop (indentWidth l) = [] := by
  rw [drop_indentWidth, List.dropWhile_eq_nil_iff]
  rfl

end Text

namespace Metadata

open Daybook.Text Daybook.Text.Quoted Daybook.Reading

/-! ## What a line holds -/

/-- What the rest of a line gives as a value: the string that is spelled
up to the closing quote, or what the trimmed text looks like. -/
inductive Gives : List Char → Scalar → Prop
  | quoted {raw s : List Char} (spelled : Spells raw s) (tail : List Char) :
      Gives ('"' :: (raw ++ '"' :: tail)) (.text (String.ofList s))
  | unquoted {raw : List Char} {v : Scalar} (bare : raw.head? ≠ some '"')
      (value : coerce (trim raw) = .ok v) : Gives raw v

/-- What stands between a key and its value: the colon, with spaces and
tabs or none before it, and behind it some, unless nothing follows. -/
structure Parts (before behind raw : List Char) : Prop where
  blanks : ∀ c ∈ before, isIndent c = true
  gap : ∀ c ∈ behind, isIndent c = true
  parted : behind ≠ [] ∨ raw = []
  edge : ∀ c ∈ raw.head?, isIndent c = false

/-- The line holds the pair at its front: a key, and behind a colon its
value. -/
inductive Holds : List Char → String × Scalar → Prop
  | pair {first : Char} {key before behind raw : List Char} {v : Scalar}
      (start : isKeyStart first = true) (letters : ∀ c ∈ key, isKeyChar c = true)
      (parts : Parts before behind raw) (value : Gives raw v) :
      Holds (first :: (key ++ (before ++ ':' :: (behind ++ raw))))
        (String.ofList (first :: key), v)

theorem isKeyChar_of_isIndent {c : Char} (h : isIndent c = true) : isKeyChar c = false := by
  simp only [isIndent, Bool.or_eq_true, beq_iff_eq] at h
  rcases h with rfl | rfl <;> decide

/-- How far the indent of a text reaches that starts with one. -/
theorem indentWidth_append_of_head {w rest : List Char} (hw : ∀ c ∈ w, isIndent c = true)
    (hr : ∀ c ∈ rest.head?, isIndent c = false) : indentWidth (w ++ rest) = w.length := by
  rw [indentWidth, takeWhile_append_of_head hw hr]

/-- **What is read as a value** at the end of a line. -/
theorem gives_iff {raw : List Char} (hline : '\n' ∉ raw) {v : Scalar} :
    Gives raw v ↔ (value raw).value? = some v := by
  rw [value_eq]
  by_cases hq : raw.head? = some '"'
  · obtain ⟨cs, rfl⟩ := List.head?_eq_some_iff.1 hq
    rw [if_pos hq]
    constructor
    · rintro (⟨spelled, tail⟩ | ⟨bare, -⟩)
      · rw [Token.quoted_of_decode (spelled.decode_eq tail)]
        rfl
      · exact absurd hq bare
    · intro h
      cases hd : decode cs with
      | none => simp [Token.quoted, hd, andThen] at h
      | some answer =>
          obtain ⟨s, n⟩ := answer
          obtain ⟨i, hi⟩ := exists_closes hd
          obtain ⟨t, ht⟩ := hi.spells
          rw [Token.quoted_of_decode (hi.decode_eq ht)] at h
          cases h
          rw [← hi.take_append]
          exact .quoted ht _
  · rw [if_neg hq, unquoted, lineAhead_eq_self hline]
    constructor
    · intro h
      cases h with
      | quoted spelled tail => exact absurd rfl hq
      | unquoted bare value => rw [value, value?_found]
    · intro h
      cases hc : coerce (trim raw) with
      | error f => simp [hc] at h
      | ok w =>
          rw [hc] at h
          cases h
          exact .unquoted hq hc

theorem Parts.keyEnd_eq {before behind raw : List Char} (h : Parts before behind raw) :
    keyEnd (before ++ ':' :: (behind ++ raw)) = some (before.length + 1 + behind.length) := by
  have hbefore : indentWidth (before ++ ':' :: (behind ++ raw)) = before.length := by
    refine indentWidth_append_of_head h.blanks fun c hc => ?_
    obtain rfl : ':' = c := by simpa using hc
    decide
  have hbehind : indentWidth (behind ++ raw) = behind.length :=
    indentWidth_append_of_head h.gap h.edge
  have hparted : 0 < (behind : List Char).length ∨ (behind ++ raw).head?.all (· == '\n') := by
    rcases h.parted with hne | rfl
    · exact .inl (List.length_pos_iff.2 hne)
    · cases behind with
      | nil => exact .inr rfl
      | cons c cs => exact .inl (Nat.zero_lt_succ _)
  rw [keyEnd, hbefore, List.drop_left]
  simp only [hbehind]
  rw [if_pos hparted]

/-- What follows a key on its line has these parts. -/
theorem exists_parts {cs : List Char} (hline : '\n' ∉ cs) {n : Nat} (h : keyEnd cs = some n) :
    ∃ before behind raw, Parts before behind raw ∧ cs = before ++ ':' :: (behind ++ raw) ∧
      cs.drop n = raw := by
  rw [keyEnd] at h
  split at h
  · next rest hd =>
    split at h
    · next hparted =>
      cases h
      have hsplit := List.takeWhile_append_dropWhile (p := isIndent) (l := cs)
      have hrest := List.takeWhile_append_dropWhile (p := isIndent) (l := rest)
      have hraw := List.head?_dropWhile_not isIndent rest
      rw [← drop_indentWidth, hd] at hsplit
      have hbehind : cs.drop (indentWidth cs + 1 + indentWidth rest) = rest.dropWhile isIndent := by
        rw [← List.drop_drop, ← List.drop_drop, hd, List.drop_one, List.tail_cons,
          drop_indentWidth]
      refine ⟨cs.takeWhile isIndent, rest.takeWhile isIndent, rest.dropWhile isIndent,
        ⟨fun c hc => List.mem_takeWhile_imp hc, fun c hc => List.mem_takeWhile_imp hc, ?_, ?_⟩,
        ?_, hbehind⟩
      · rcases hparted with hpos | hend
        · exact .inl (List.length_pos_iff.1 hpos)
        · -- on the line, no newline can end it
          cases rest with
          | nil => exact .inr rfl
          | cons c rest =>
              obtain rfl : c = '\n' := by simpa using hend
              refine absurd ?_ hline
              rw [← hsplit]
              simp
      · intro c hc
        rw [hc] at hraw
        simpa using hraw
      · rw [hrest, hsplit]
    · cases h
  · cases h

/-- A key ends where the colon comes next, or white space. -/
theorem Parts.headed_eq {before behind raw : List Char} (h : Parts before behind raw)
    {first : Char} (start : isKeyStart first = true) {key : List Char}
    (letters : ∀ c ∈ key, isKeyChar c = true) :
    Lexeme.headed isKeyStart isKeyChar (first :: (key ++ (before ++ ':' :: (behind ++ raw)))) =
      some (first :: key) := by
  rw [Lexeme.headed, if_pos start, takeWhile_append_of_head letters]
  intro c hc
  cases before with
  | nil =>
      obtain rfl : ':' = c := by simpa using hc
      decide
  | cons d before =>
      obtain rfl : d = c := by simpa using hc
      exact isKeyChar_of_isIndent (h.blanks d List.mem_cons_self)

theorem value_of_holds {l : List Char} (hline : '\n' ∉ l) {p : String × Scalar} (h : Holds l p) :
    (pair l).value? = some p := by
  obtain @⟨first, key, before, behind, raw, v, start, letters, parts, value⟩ := h
  have hkey : key? (first :: (key ++ (before ++ ':' :: (behind ++ raw)))) =
      some (first :: key, key.length + 1 + (before.length + 1 + behind.length)) := by
    rw [key?_eq, parts.headed_eq start letters, Option.bind_some, List.length_cons,
      List.drop_succ_cons, List.drop_left, parts.keyEnd_eq]
    rfl
  have hsplit : first :: (key ++ (before ++ ':' :: (behind ++ raw))) =
      first :: (key ++ (before ++ ':' :: behind)) ++ raw := by simp
  have hlength : (first :: (key ++ (before ++ ':' :: behind))).length =
      key.length + 1 + (before.length + 1 + behind.length) := by
    simp
    omega
  have hraw : '\n' ∉ raw := by
    rw [hsplit, List.mem_append, not_or] at hline
    exact hline.2
  rw [pair_eq, hkey, hsplit, ← hlength]
  simp only [List.drop_left, value?_shift, value?_map]
  rw [(gives_iff hraw).1 value, Option.map_some]

theorem holds_of_value {l : List Char} (hline : '\n' ∉ l) {p : String × Scalar}
    (h : (pair l).value? = some p) : Holds l p := by
  rw [pair_eq, key?_eq] at h
  cases l with
  | nil => cases h
  | cons first l =>
      rw [Lexeme.headed] at h
      by_cases start : isKeyStart first = true
      · have hdrop : (first :: l).drop (first :: l.takeWhile isKeyChar).length =
            l.dropWhile isKeyChar := drop_takeWhile_length isKeyChar l
        have hl := List.takeWhile_append_dropWhile (p := isKeyChar) (l := l)
        have hbehind : '\n' ∉ l.dropWhile isKeyChar := fun hm =>
          hline (List.mem_cons_of_mem first ((List.dropWhile_sublist isKeyChar).subset hm))
        rw [if_pos start, Option.bind_some, hdrop] at h
        cases hend : keyEnd (l.dropWhile isKeyChar) with
        | none => simp [hend] at h
        | some n =>
            obtain ⟨before, behind, raw, parts, hsplit, hraw⟩ := exists_parts hbehind hend
            rw [hend, Option.map_some] at h
            simp only [← List.drop_drop, hdrop, hraw, value?_shift, value?_map] at h
            obtain ⟨v, hv, rfl⟩ := Option.map_eq_some_iff.1 h
            have hnoline : '\n' ∉ raw := fun hm => hbehind (by rw [hsplit]; simp [hm])
            have hwhole : first :: l = first :: (l.takeWhile isKeyChar ++
                (before ++ ':' :: (behind ++ raw))) := by rw [← hsplit, hl]
            rw [hwhole]
            exact .pair start (fun c hc => List.mem_takeWhile_imp hc) parts
              ((gives_iff hnoline).2 hv)
      · simp [start] at h

/-- **A line holds a pair** if and only if one is read at its front. -/
theorem holds_iff {l : List Char} (hline : '\n' ∉ l) {p : String × Scalar} :
    Holds l p ↔ (pair l).value? = some p := ⟨value_of_holds hline, holds_of_value hline⟩

/-! ## Runs of lines -/

/-- The line belongs to a block: it is blank, or it is indented enough and
holds a pair behind its indent. -/
def InBlock (indent : Nat) (l : List Char) : Prop :=
  BlankLine l ∨ indent ≤ indentWidth l ∧ ∃ p, Holds (l.drop (indentWidth l)) p

/-- The pairs that lines of a block hold. -/
inductive Collects (indent : Nat) : List (List Char) → List (String × Scalar) → Prop
  | nil : Collects indent [] []
  | blank {l : List Char} {ls : List (List Char)} {ps : List (String × Scalar)}
      (blank : BlankLine l) (below : Collects indent ls ps) : Collects indent (l :: ls) ps
  | pair {l : List Char} {ls : List (List Char)} {p : String × Scalar}
      {ps : List (String × Scalar)} (wide : indent ≤ indentWidth l)
      (holds : Holds (l.drop (indentWidth l)) p) (below : Collects indent ls ps) :
      Collects indent (l :: ls) (p :: ps)

/-- The longest run of lines at the front that belong to a block, the lines
behind it, and the pairs that the run holds. -/
structure Run (indent : Nat) (cs : List Char) (run rest : List (List Char))
    (ps : List (String × Scalar)) : Prop where
  split : lines cs = run ++ rest
  collects : Collects indent run ps
  stop : ∀ l ∈ rest.head?, ¬InBlock indent l

/-- The place behind a run: the start of the first line that does not
belong to it, or of a blank line that ends the text without a newline, or
the end of the text. -/
inductive Behind (cs : List Char) (run rest : List (List Char)) : Nat → Prop
  | line (more : rest ≠ []) : Behind cs run rest (Transaction.linesText run).length
  | blank {upper : List (List Char)} {l : List Char} (split : run = upper ++ [l])
      (last : rest = []) (blank : BlankLine l) :
      Behind cs run rest (Transaction.linesText upper).length
  | text {upper : List (List Char)} {l : List Char} (split : run = upper ++ [l])
      (last : rest = []) (filled : ¬BlankLine l) : Behind cs run rest cs.length

/-- On no line to which the run comes does a quoted value stay open. -/
def ClosesValues (indent : Nat) (cs : List Char) : Prop :=
  ∀ above l below, lines cs = above ++ l :: below → (∀ k ∈ above, InBlock indent k) →
    indent ≤ indentWidth l → ClosesOnLine (l.drop (indentWidth l))

theorem newline_notMem_drop {l : List Char} (h : '\n' ∉ l) (n : Nat) : '\n' ∉ l.drop n :=
  fun hm => h (List.mem_of_mem_drop hm)

theorem ClosesValues.front {indent : Nat} {cs l : List Char} {below : List (List Char)}
    (h : ClosesValues indent cs) (hl : lines cs = l :: below) (hw : indent ≤ indentWidth l) :
    ClosesOnLine (l.drop (indentWidth l)) :=
  h [] l below hl (List.forall_mem_nil _) hw

theorem ClosesValues.below {indent : Nat} {l rest : List Char} (hl : '\n' ∉ l)
    (h : ClosesValues indent (l ++ '\n' :: rest)) (hin : InBlock indent l) :
    ClosesValues indent rest := by
  intro above k below hsplit habove hw
  refine h (l :: above) k below ?_ (List.forall_mem_cons.2 ⟨hin, habove⟩) hw
  rw [lines_line l rest hl, hsplit, List.cons_append]

/-! ## Line by line -/

/-- What a line is to a block. -/
inductive Judged (indent : Nat) (l : List Char) : Prop
  | blank (h : BlankLine l)
  | stops (filled : ¬BlankLine l) (h : ¬InBlock indent l)
      (none : indentWidth l < indent ∨ pair (l.drop (indentWidth l)) = .absent)
  | pair (filled : ¬BlankLine l) (wide : indent ≤ indentWidth l) {p : String × Scalar} {n : Nat}
      (holds : Holds (l.drop (indentWidth l)) p)
      (found : pair (l.drop (indentWidth l)) = .found p n)
  | breaks (filled : ¬BlankLine l) (wide : indent ≤ indentWidth l) {f : Flaw}
      (broken : pair (l.drop (indentWidth l)) = .broken f)

/-- **The line alone decides what it is to a block.** -/
theorem judged {l : List Char} (hl : '\n' ∉ l) (indent : Nat) : Judged indent l := by
  have hholds : ∀ p, Holds (l.drop (indentWidth l)) p ↔
      (pair (l.drop (indentWidth l))).value? = some p :=
    fun p => holds_iff (newline_notMem_drop hl _)
  by_cases hblank : BlankLine l
  · exact .blank hblank
  · by_cases hwide : indent ≤ indentWidth l
    · cases hp : pair (l.drop (indentWidth l)) with
      | absent =>
          refine .stops hblank ?_ (.inr hp)
          rintro (hb | ⟨-, p, hh⟩)
          · exact hblank hb
          · rw [hholds, hp] at hh
            cases hh
      | broken f => exact .breaks hblank hwide hp
      | found p n => exact .pair hblank hwide ((hholds p).2 (by rw [hp, value?_found])) hp
    · refine .stops hblank ?_ (.inl (Nat.lt_of_not_le hwide))
      rintro (hb | ⟨hw, -⟩)
      · exact hblank hb
      · exact hwide hw

/-- A line that is not blank has something behind its indent, and that is
no newline. -/
theorem head?_drop_ne_newline {l : List Char} (hl : '\n' ∉ l) (hfilled : ¬BlankLine l)
    (tail : List Char) : (l.drop (indentWidth l) ++ tail).head? ≠ some '\n' := by
  rw [blankLine_iff] at hfilled
  rw [List.head?_append, List.head?_eq_some_head hfilled, Option.some_or]
  exact fun hn => newline_notMem_drop hl _ (Option.some.inj hn ▸ List.head_mem hfilled)

/-- The text is a line and what comes behind it: nothing, or a newline and
more lines. -/
structure Front (l tail cs : List Char) : Prop where
  single : '\n' ∉ l
  eq : cs = l ++ tail
  ends : ∀ c ∈ tail.head?, c = '\n'

theorem Front.indentWidth_eq {l tail cs : List Char} (h : Front l tail cs) :
    indentWidth cs = indentWidth l := by
  rw [h.eq]
  cases tail with
  | nil => rw [List.append_nil]
  | cons c below =>
      obtain rfl : c = '\n' := h.ends c rfl
      exact onLine_indentWidth.newline l below

theorem Front.drop_eq {l tail cs : List Char} (h : Front l tail cs) :
    cs.drop (indentWidth cs) = l.drop (indentWidth l) ++ tail := by
  rw [h.indentWidth_eq, h.eq, List.drop_append_of_le_length (indentWidth_le l)]

theorem Front.pair_eq {l tail cs : List Char} (h : Front l tail cs)
    (hcloses : ClosesOnLine (l.drop (indentWidth l))) :
    pair (l.drop (indentWidth l) ++ tail) = pair (l.drop (indentWidth l)) := by
  cases tail with
  | nil => rw [List.append_nil]
  | cons c below =>
      obtain rfl : c = '\n' := h.ends c rfl
      exact pair_newline_append hcloses below

section Line

variable {indent : Nat} {l tail cs : List Char}

/-- The pairs of a text whose first line ends the block. -/
theorem pairs_stop (h : Front l tail cs) (hfilled : ¬BlankLine l)
    (hcloses : indent ≤ indentWidth l → ClosesOnLine (l.drop (indentWidth l)))
    (hnone : indentWidth l < indent ∨ pair (l.drop (indentWidth l)) = .absent) :
    pairs indent cs = .found [] 0 := by
  rw [pairs_eq, h.drop_eq, h.indentWidth_eq,
    if_neg (head?_drop_ne_newline h.single hfilled tail)]
  split
  · rfl
  · next hlow =>
    rw [h.pair_eq (hcloses (Nat.le_of_not_lt hlow)), hnone.resolve_left hlow]

/-- The pairs of a text whose first line holds one: that pair, and those of
the lines below. -/
theorem pairs_pair (h : Front l tail cs) (hfilled : ¬BlankLine l) (hwide : indent ≤ indentWidth l)
    (hcloses : ClosesOnLine (l.drop (indentWidth l))) {p : String × Scalar} {n : Nat}
    (hp : pair (l.drop (indentWidth l)) = .found p n) :
    pairs indent cs = ((pairs indent (tail.drop 1)).map (p :: ·)).shift
      (l.length + newline tail) := by
  have hn := pair_length (newline_notMem_drop h.single _) hp
  have hwidth := indentWidth_le l
  have hl : indentWidth l + n = l.length := by
    rw [hn, List.length_drop]
    omega
  have hdrop : cs.drop l.length = tail := by rw [h.eq, List.drop_left]
  have hbelow : cs.drop (l.length + newline tail) = tail.drop 1 := by
    rw [← List.drop_drop, hdrop]
    cases tail with
    | nil => rfl
    | cons c below =>
        obtain rfl : c = '\n' := h.ends c rfl
        rfl
  rw [pairs_eq, h.drop_eq, h.indentWidth_eq,
    if_neg (head?_drop_ne_newline h.single hfilled tail), if_neg (Nat.not_lt_of_le hwide),
    h.pair_eq hcloses, hp]
  simp only [pairLine, hl, hdrop, hbelow]

/-- A first line on which a pair breaks. -/
theorem pairs_unsound (h : Front l tail cs) (hfilled : ¬BlankLine l)
    (hwide : indent ≤ indentWidth l) (hcloses : ClosesOnLine (l.drop (indentWidth l))) {f : Flaw}
    (hp : pair (l.drop (indentWidth l)) = .broken f) : ¬(pairs indent cs).Sound := by
  rw [pairs_eq, h.drop_eq, h.indentWidth_eq,
    if_neg (head?_drop_ne_newline h.single hfilled tail), if_neg (Nat.not_lt_of_le hwide),
    h.pair_eq hcloses, hp]
  exact not_sound_broken _

end Line

/-- A blank line at the front is passed over. -/
theorem pairs_blank {l : List Char} (hblank : BlankLine l) (indent : Nat) (below : List Char) :
    pairs indent (l ++ '\n' :: below) = (pairs indent below).shift (l.length + 1) := by
  have hnil := blankLine_iff.1 hblank
  have hlength : indentWidth l = l.length :=
    Nat.le_antisymm (indentWidth_le l) (List.drop_eq_nil_iff.1 hnil)
  rw [pairs_eq, Transaction.drop_indentWidth_newline, Transaction.indentWidth_newline_append, hnil,
    hlength, drop_line]
  rfl

/-- A blank line that ends the text is left where it is. -/
theorem pairs_blank_last {l : List Char} (hblank : BlankLine l) (indent : Nat) :
    pairs indent l = .found [] 0 := by
  rw [pairs_eq, blankLine_iff.1 hblank, pair_nil]
  split
  · next h => cases h
  · split <;> rfl

/-! ## The run of a text -/

/-- What is read of the run of a text, and how far. -/
structure Reaches (indent : Nat) (cs : List Char) (run rest : List (List Char))
    (ps : List (String × Scalar)) (n : Nat) : Prop where
  longest : Run indent cs run rest ps
  pairs_eq : pairs indent cs = .found ps n
  behind : Behind cs run rest n

theorem Behind.cons {below : List Char} {run rest : List (List Char)} {n : Nat}
    (h : Behind below run rest n) (l : List Char) :
    Behind (l ++ '\n' :: below) (l :: run) rest (l.length + 1 + n) := by
  have hlength : ∀ ls, (Transaction.linesText (l :: ls)).length =
      l.length + 1 + (Transaction.linesText ls).length := by
    intro ls
    have := congrArg List.length (Transaction.linesText_cons l ls [])
    simp only [List.append_nil, List.length_append, List.length_cons] at this
    omega
  cases h with
  | line more => exact hlength run ▸ .line more
  | @blank upper k split last blank =>
      have hsplit : l :: run = (l :: upper) ++ [k] := congrArg (l :: ·) split
      exact hlength upper ▸ .blank hsplit last blank
  | @text upper k split last filled =>
      have hsplit : l :: run = (l :: upper) ++ [k] := congrArg (l :: ·) split
      have hwhole : (l ++ '\n' :: below).length = l.length + 1 + below.length := by
        rw [List.length_append, List.length_cons]
        omega
      exact hwhole ▸ .text hsplit last filled

/-- **The run of a text is what is read of it**, if no value goes on below
its line and none breaks. By induction on the lines. -/
theorem exists_reaches {indent : Nat} {cs : List Char} (hsound : (pairs indent cs).Sound)
    (hcloses : ClosesValues indent cs) : ∃ run rest ps n, Reaches indent cs run rest ps n := by
  -- the run below a line that goes on is that of the lines below it
  induction cs using line_induction with
  | last l hl =>
      have hlines : lines l = [l] := lines_last hl
      have hfront : Front l [] l := ⟨hl, (List.append_nil l).symm, by simp⟩
      have hcl := hcloses.front hlines
      cases judged hl indent with
      | blank h =>
          refine ⟨[l], [], [], 0, ⟨hlines, .blank h .nil, by simp⟩, pairs_blank_last h indent, ?_⟩
          exact .blank (List.nil_append [l]).symm rfl h
      | stops filled h none =>
          refine ⟨[], [l], [], 0, ⟨hlines, .nil, by simpa using h⟩,
            pairs_stop hfront filled hcl none, ?_⟩
          exact .line (List.cons_ne_nil l [])
      | @pair filled wide p n holds found =>
          refine ⟨[l], [], [p], l.length, ⟨hlines, .pair wide holds .nil, by simp⟩, ?_, ?_⟩
          · rw [pairs_pair hfront filled wide (hcl wide) found]
            rw [List.drop_nil, Transaction.pairs_nil]
            rfl
          · exact .text (List.nil_append [l]).symm rfl filled
      | breaks filled wide broken =>
          exact absurd hsound (pairs_unsound hfront filled wide (hcl wide) broken)
  | line l rest hl ih =>
      have hlines : lines (l ++ '\n' :: rest) = l :: lines rest := lines_line l rest hl
      have hfront : Front l ('\n' :: rest) (l ++ '\n' :: rest) := ⟨hl, rfl, by simp⟩
      have hcl := hcloses.front hlines
      cases judged hl indent with
      | blank h =>
          rw [pairs_blank h, sound_shift] at hsound
          obtain ⟨run, others, ps, n, hrun⟩ := ih hsound (hcloses.below hl (.inl h))
          refine ⟨l :: run, others, ps, l.length + 1 + n, ⟨?_, .blank h hrun.longest.collects,
            hrun.longest.stop⟩, ?_, hrun.behind.cons l⟩
          · rw [hlines, hrun.longest.split, List.cons_append]
          · rw [pairs_blank h, hrun.pairs_eq, shift_found]
      | stops filled h none =>
          refine ⟨[], l :: lines rest, [], 0, ⟨hlines, .nil, by simpa using h⟩,
            pairs_stop hfront filled hcl none, ?_⟩
          exact .line (List.cons_ne_nil l _)
      | @pair filled wide p n holds found =>
          have hpairs := pairs_pair hfront filled wide (hcl wide) found
          rw [hpairs, sound_shift, sound_map] at hsound
          obtain ⟨run, others, ps, k, hrun⟩ := ih hsound (hcloses.below hl (.inr ⟨wide, p, holds⟩))
          refine ⟨l :: run, others, p :: ps, l.length + 1 + k, ⟨?_, .pair wide holds
            hrun.longest.collects, hrun.longest.stop⟩, ?_, hrun.behind.cons l⟩
          · rw [hlines, hrun.longest.split, List.cons_append]
          · rw [hpairs, List.drop_one, List.tail_cons, hrun.pairs_eq, map_found, shift_found]
            rfl
      | breaks filled wide broken =>
          exact absurd hsound (pairs_unsound hfront filled wide (hcl wide) broken)

/-! ## A greater indent -/

section Indents

variable {i j : Nat}

theorem InBlock.mono (hij : i ≤ j) {l : List Char} (h : InBlock j l) : InBlock i l := by
  rcases h with blank | ⟨wide, holds⟩
  · exact .inl blank
  · exact .inr ⟨Nat.le_trans hij wide, holds⟩

theorem ClosesValues.mono (hij : i ≤ j) {cs : List Char} (h : ClosesValues i cs) :
    ClosesValues j cs := by
  intro above l below hsplit habove hwide
  exact h above l below hsplit (fun k hk => (habove k hk).mono hij) (Nat.le_trans hij hwide)

theorem Collects.inBlock {indent : Nat} {ls : List (List Char)} {ps : List (String × Scalar)}
    (h : Collects indent ls ps) : ∀ l ∈ ls, InBlock indent l := by
  induction h with
  | nil => exact List.forall_mem_nil _
  | blank blank below ih => exact List.forall_mem_cons.2 ⟨.inl blank, ih⟩
  | pair wide holds below ih => exact List.forall_mem_cons.2 ⟨.inr ⟨wide, _, holds⟩, ih⟩

/-- **With a greater indent the run is a beginning** of the run with a
smaller one. -/
theorem Run.isPrefix (hij : i ≤ j) {cs : List Char} {run rest run' rest' : List (List Char)}
    {ps ps' : List (String × Scalar)} (h : Run i cs run rest ps) (h' : Run j cs run' rest' ps') :
    run' <+: run := by
  rcases List.append_eq_append_iff.1 (h.split.symm.trans h'.split) with
    ⟨more, hrun, hrest⟩ | ⟨more, hrun, hrest⟩
  · -- what the longer run would have more starts with a line that stops the other
    cases more with
    | nil =>
        have hsame : run' = run := by rw [hrun, List.append_nil]
        exact hsame ▸ List.prefix_refl run
    | cons l more =>
        refine absurd ?_ (h.stop l (by rw [hrest]; rfl))
        exact (h'.collects.inBlock l (by rw [hrun]; simp)).mono hij
  · exact ⟨more, hrun.symm⟩

/-- Where `r` finds a list, `s` finds a beginning of it that reaches no
further. -/
def Shortens {α : Type} (r s : Reading (List α)) : Prop :=
  r.Finds fun ps n => ∃ ps' n', s = .found ps' n' ∧ ps' <+: ps ∧ n' ≤ n

theorem Shortens.stop {α : Type} (r : Reading (List α)) : Shortens r (.found [] 0) :=
  finds_iff.2 fun _ n _ => ⟨[], 0, rfl, List.nil_prefix, Nat.zero_le n⟩

theorem Shortens.shift {α : Type} {r s : Reading (List α)} (h : Shortens r s) (k : Nat) :
    Shortens (r.shift k) (s.shift k) := by
  refine (finds_shift ..).2 (h.mono fun ps n hs => ?_)
  obtain ⟨ps', n', rfl, hprefix, hle⟩ := hs
  exact ⟨ps', k + n', rfl, hprefix, Nat.add_le_add_left hle k⟩

theorem Shortens.cons {α : Type} {r s : Reading (List α)} (h : Shortens r s) (p : α) :
    Shortens (r.map (p :: ·)) (s.map (p :: ·)) := by
  refine (finds_map ..).2 (h.mono fun ps n hs => ?_)
  obtain ⟨ps', n', rfl, hprefix, hle⟩ := hs
  exact ⟨p :: ps', n', rfl, List.cons_prefix_cons.2 ⟨rfl, hprefix⟩, hle⟩

/-- **With a greater indent no more pairs are read**, and no further. -/
theorem pairs_shortens (hij : i ≤ j) (cs : List Char) : Shortens (pairs i cs) (pairs j cs) := by
  -- up to the first line that is indented too little, the two readings take the same lines
  induction hlen : cs.length using Nat.strong_induction_on generalizing cs with
  | _ k ih =>
      have hrec : ∀ m, 0 < m → cs ≠ [] →
          Shortens (pairs i (cs.drop m)) (pairs j (cs.drop m)) := by
        intro m hm hne
        have hpos := List.length_pos_iff.2 hne
        exact ih _ (by rw [List.length_drop]; omega) _ rfl
      rw [pairs_eq i, pairs_eq j]
      by_cases hline : (cs.drop (indentWidth cs)).head? = some '\n'
      · have hne : cs ≠ [] := by
          rintro rfl
          cases hline
        rw [if_pos hline, if_pos hline]
        exact (hrec _ (Nat.succ_pos _) hne).shift _
      · rw [if_neg hline, if_neg hline]
        by_cases hlow : indentWidth cs < j
        · rw [if_pos hlow]
          exact .stop _
        · rw [if_neg hlow, if_neg fun hi => hlow (Nat.lt_of_lt_of_le hi hij)]
          cases hpair : pair (cs.drop (indentWidth cs)) with
          | absent => exact .stop _
          | broken f => trivial
          | found p n =>
              have hne : cs ≠ [] := by
                rintro rfl
                cases hpair
              have hpos : 0 < pairLine (indentWidth cs) cs n := by
                have := (pair_pos hpair).1
                rw [pairLine]
                omega
              exact ((hrec _ hpos hne).cons p).shift _

end Indents

/-! ## The answer -/

/-- What the answer of a block says: the longest run of lines at the front
is read, nothing is found if it holds no pair, and otherwise its pairs are
gathered, up to the place behind the run. -/
structure Answers (indent : Nat) (cs : List Char) (run rest : List (List Char))
    (ps : List (String × Scalar)) (n : Nat) : Prop where
  longest : Run indent cs run rest ps
  absent_iff : block indent cs = .absent ↔ ps = []
  found : ps ≠ [] → ∃ m, block indent cs = .found m n ∧ Pairs.Gathers ps m
  behind : Behind cs run rest n

theorem Reaches.answers {indent : Nat} {cs : List Char} {run rest : List (List Char)}
    {ps : List (String × Scalar)} {n : Nat} (h : Reaches indent cs run rest ps n) :
    Answers indent cs run rest ps n := by
  have hblock := block_eq indent cs
  rw [h.pairs_eq] at hblock
  cases ps with
  | nil => exact ⟨h.longest, ⟨fun _ => rfl, fun _ => hblock⟩, absurd rfl, h.behind⟩
  | cons p ps =>
      refine ⟨h.longest, ⟨fun ha => ?_, fun hn => by cases hn⟩, fun _ => ?_, h.behind⟩
      · rw [hblock] at ha
        cases ha
      · exact ⟨_, hblock, Pairs.gathers_collect (p :: ps)⟩

theorem sound_pairs {indent : Nat} {cs : List Char} (h : (block indent cs).Sound) :
    (pairs indent cs).Sound := by
  rw [block_eq] at h
  split at h
  · next hp => simp [hp]
  · exact (sound_map _ _).1 h

/-- **A block of metadata is the longest run of lines that belong to it**,
if none of its values is broken or goes on below its line; and what a
greater indent reads is a beginning of what a smaller one reads. An indent
below zero asks for none. -/
theorem block_answers {i : Int} {c : Cursor} (hsound : (block i.toNat c.rest).Sound)
    (hcloses : ClosesValues i.toNat c.rest) :
    ∃ run rest ps n, Answers i.toNat c.rest run rest ps n ∧
      ∀ j : Int, i ≤ j → ∃ run' rest' ps' n', Answers j.toNat c.rest run' rest' ps' n' ∧
        run' <+: run ∧ ps' <+: ps ∧ n' ≤ n := by
  obtain ⟨run, rest, ps, n, h⟩ := exists_reaches (sound_pairs hsound) hcloses
  refine ⟨run, rest, ps, n, h.answers, fun j hj => ?_⟩
  have hij : i.toNat ≤ j.toNat := Int.toNat_le_toNat hj
  obtain ⟨ps₁, n₁, hpairs, hprefix, hle⟩ := (pairs_shortens hij c.rest).of_eq h.pairs_eq
  have hsound' : (pairs j.toNat c.rest).Sound := by
    rw [hpairs]
    exact sound_found ps₁ n₁
  obtain ⟨run', rest', ps', n', h'⟩ := exists_reaches hsound' (hcloses.mono hij)
  -- both say what is read with the greater indent
  have hsame := hpairs.symm.trans h'.pairs_eq
  cases hsame
  exact ⟨run', rest', ps₁, n₁, h'.answers, h.longest.isPrefix hij h'.longest, hprefix, hle⟩

/-- A block with tabs, a blank line, a key without a value and one that is
written again. A blank line ends the text. -/
def notesText : List Char := "    k: \"x\"\n\t\n\t\tn:\n   k: \"y;\" z\n  ".toList

theorem block_answers_notes :
    (block 2 notesText).Sound ∧ ClosesValues 2 notesText ∧
      ∃ run rest ps n, Answers 2 notesText run rest ps n ∧
        ∀ j : Int, 2 ≤ j → ∃ run' rest' ps' n', Answers j.toNat notesText run' rest' ps' n' ∧
          run' <+: run ∧ ps' <+: ps ∧ n' ≤ n := by
  have hblock : block 2 notesText = .found [("k", .text "y;"), ("n", .null)] 31 := by
    with_unfolding_all rfl
  have hsound : (block 2 notesText).Sound := by
    rw [hblock]
    exact sound_found _ _
  have hlines : lines notesText = ["    k: \"x\"".toList, "\t".toList, "\t\tn:".toList,
      "   k: \"y;\" z".toList, "  ".toList] := rfl
  have hcloses : ClosesValues 2 notesText := by
    intro above l below hsplit _ _
    have hl : l ∈ lines notesText := by
      rw [hsplit]
      exact List.mem_append_right above List.mem_cons_self
    rw [hlines] at hl
    simp only [List.mem_cons, List.not_mem_nil, or_false] at hl
    rcases hl with rfl | rfl | rfl | rfl | rfl
    all_goals exact fun k hk => by cases hk
  exact ⟨hsound, hcloses, block_answers (i := 2) (c := .start "notes" notesText) hsound hcloses⟩

end Metadata
end Daybook
