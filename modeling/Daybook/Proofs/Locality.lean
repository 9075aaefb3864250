import Daybook.Proofs.Field
import Daybook.Proofs.Quotation
import Daybook.Proofs.Token.Address
import Daybook.Proofs.Written.Literal

/-!
# Locality — what is read stays on its line

Every shape but those with quotes takes a part of its line and sees
nothing below it (`Shape.Unquoted`). A string or a list may reach over line
ends, but only between quotes: the other stretches of its text stay on their
lines (`Laid`). So where the last quoted string of it closes, a line goes on
that decides the rest (`Shape.LocalFrom`), and what is written below that
line changes neither the value nor the place where reading ends.
-/

namespace Daybook

open Daybook.Text Daybook.Reading

theorem Reading.map_eq_found {α β : Type} {r : Reading α} {f : α → β} {w : β} {n : Nat}
    (h : r.map f = .found w n) : ∃ v, r = .found v n ∧ w = f v := by
  cases r with
  | absent => cases h
  | broken e => cases h
  | found v k =>
      cases h
      exact ⟨v, rfl, rfl⟩

/-! ## The text of a list -/

namespace Token

open Text.Quoted

/-- The place behind a stretch of text, unless it is none. -/
def behind (stretch : List Char) (k : Nat) : Nat := if k = 0 then 0 else stretch.length + k

/-- The text lays out the items: gaps are of blanks and commas, bare items
hold no blank and start with no quote, and quoted strings stand between their
quotes. The last quote closes before the place `k`, which is zero if there is
none. -/
inductive Laid : List Char → List String → Nat → Prop
  | nil : Laid [] [] 0
  | gap {gap text : List Char} {ss : List String} {k : Nat}
      (separates : ∀ c ∈ gap, isInlineBlank c = true ∨ c = ',') (rest : Laid text ss k) :
      Laid (gap ++ text) ss (behind gap k)
  | bare {word text : List Char} {ss : List String} {k : Nat}
      (visible : ∀ c ∈ word, isBlank c = false) (unquoted : word.head? ≠ some '"')
      (rest : Laid text ss k) : Laid (word ++ text) (String.ofList word :: ss) (behind word k)
  | quoted {raw s text : List Char} {ss : List String} {k : Nat} (spelled : Spells raw s)
      (rest : Laid text ss k) :
      Laid ('"' :: (raw ++ '"' :: text)) (String.ofList s :: ss) (raw.length + 2 + k)

theorem newline_notMem_gap {gap : List Char}
    (h : ∀ c ∈ gap, isInlineBlank c = true ∨ c = ',') : '\n' ∉ gap := by
  intro hm
  rcases h '\n' hm with hblank | hcomma
  · rw [isInlineBlank_newline] at hblank
    cases hblank
  · cases hcomma

theorem newline_notMem_visible {word : List Char} (h : ∀ c ∈ word, isBlank c = false) :
    '\n' ∉ word := by
  intro hm
  have hblank := h '\n' hm
  rw [isBlank_newline] at hblank
  cases hblank

theorem newline_notMem_drop_behind {stretch text : List Char} {k : Nat} (hline : '\n' ∉ stretch)
    (hrest : '\n' ∉ text.drop k) : '\n' ∉ (stretch ++ text).drop (behind stretch k) := by
  rw [behind]
  split
  · next hk =>
    subst hk
    exact fun hm => (List.mem_append.1 hm).elim hline hrest
  · rwa [List.drop_length_add_append]

/-- Behind the last quote the text stays on its line. -/
theorem Laid.newline_notMem_drop {text : List Char} {ss : List String} {k : Nat}
    (h : Laid text ss k) : '\n' ∉ text.drop k := by
  induction h with
  | nil => exact List.not_mem_nil
  | gap separates rest ih => exact newline_notMem_drop_behind (newline_notMem_gap separates) ih
  | bare visible _ rest ih => exact newline_notMem_drop_behind (newline_notMem_visible visible) ih
  | @quoted raw s text ss k spelled rest ih =>
      have hlen : raw.length + 2 + k = (raw.length + (k + 1)) + 1 := by omega
      rw [hlen, List.drop_succ_cons, List.drop_length_add_append, List.drop_succ_cons]
      exact ih

/-- The last quote closes within the text. -/
theorem Laid.le {text : List Char} {ss : List String} {k : Nat} (h : Laid text ss k) :
    k ≤ text.length := by
  induction h with
  | nil => exact Nat.le_refl 0
  | gap _ rest ih | bare _ _ rest ih =>
      rw [behind, List.length_append]
      split <;> omega
  | quoted spelled rest ih =>
      simp only [List.length_cons, List.length_append]
      omega

theorem newline_notMem_take {cs : List Char} {n : Nat} (h : n ≤ (lineAhead cs).length) :
    '\n' ∉ cs.take n := fun hm => newline_notMem_lineAhead cs (take_subset_lineAhead h hm)

/-- A quoted string takes what it spells and its quotes. -/
theorem exists_spells_of_quoted {cs : List Char} {s : String} {n : Nat}
    (h : quoted cs = .found s n) : ∃ raw t, Spells raw t ∧ s = String.ofList t ∧
      cs.take n = '"' :: (raw ++ ['"']) := by
  cases cs with
  | nil => cases h
  | cons c cs =>
      by_cases hc : c = '"'
      · subst hc
        cases hd : decode cs with
        | none => simp [quoted, hd] at h
        | some answer =>
            obtain ⟨i, hi⟩ := exists_closes hd
            obtain ⟨t, ht⟩ := hi.spells
            rw [quoted_of_decode (hi.decode_eq ht)] at h
            cases h
            refine ⟨cs.take i, t, ht, rfl, ?_⟩
            have hlen : i ≤ cs.length := (List.getElem?_eq_some_iff.1 hi.quote).1.le
            rw [List.take_succ_cons, List.take_add_one, hi.quote]
            rfl
      · simp [quoted, hc] at h

/-- What a lexeme is read as is what it takes. -/
theorem eq_take_of_read {l : Lexeme} (hb : l.Begins) {cs : List Char} {s : String} {n : Nat}
    (h : l.read cs = .found s n) : l cs = some (cs.take n) ∧ s = String.ofList (cs.take n) := by
  rw [Lexeme.read] at h
  cases hw : l cs with
  | none => simp [hw, ofOption] at h
  | some w =>
      rw [hw] at h
      cases h
      rw [← List.prefix_iff_eq_take.1 (hb cs w hw)]
      exact ⟨rfl, rfl⟩

/-- What the lexeme takes holds no blank. -/
def Blankless (l : Lexeme) : Prop := ∀ cs w, l cs = some w → ∀ c ∈ w, isBlank c = false

theorem blankless_bareWord : Blankless bareWord := by
  intro cs w hw c hc
  rw [bareWord, run_eq_some_iff] at hw
  rw [← hw.2] at hc
  simpa using List.mem_takeWhile_imp hc

theorem isBlank_of_endsItem {c : Char} (h : endsItem c = false) : isBlank c = false := by
  simp only [endsItem, Bool.or_eq_false_iff] at h
  exact h.1.1

theorem blankless_bareItem : Blankless bareItem := by
  intro cs w hw c hc
  cases cs with
  | nil => cases hw
  | cons d cs =>
      rw [bareItem, Lexeme.headed] at hw
      split at hw
      · next hd =>
        cases hw
        rcases List.mem_cons.1 hc with rfl | hrest
        · simp only [Bool.and_eq_true, Bool.not_eq_true'] at hd
          exact isBlank_of_endsItem hd.1.1.1
        · exact isBlank_of_endsItem (by simpa using List.mem_takeWhile_imp hrest)
      · cases hw

theorem isInlineBlank_of_mem_take {cs : List Char} {c : Char} (h : c ∈ cs.take (inlineBlanks cs)) :
    isInlineBlank c = true := by
  rw [inlineBlanks, ← List.prefix_iff_eq_take.1 (List.takeWhile_prefix isInlineBlank)] at h
  exact List.mem_takeWhile_imp h

/-- What separates two items is blanks and perhaps a comma. -/
theorem mem_take_separator {cs : List Char} {c : Char} (h : c ∈ cs.take (separator cs)) :
    isInlineBlank c = true ∨ c = ',' := by
  rw [separator] at h
  split at h
  · next rest hcomma =>
    have hrest : cs.drop (inlineBlanks cs + 1) = rest := by
      rw [← List.drop_drop, hcomma, List.drop_one, List.tail_cons]
    rw [List.take_add, List.take_add, hcomma, hrest] at h
    simp only [List.mem_append] at h
    rcases h with (hfront | hmiddle) | hbehind
    · exact .inl (isInlineBlank_of_mem_take hfront)
    · exact .inr (List.mem_singleton.1 hmiddle)
    · exact .inl (isInlineBlank_of_mem_take hbehind)
  · exact .inl (isInlineBlank_of_mem_take h)

section QuotedOr

variable {r : Reader String} {l : Lexeme}
  (heq : ∀ cs, r cs = if cs.head? = some '"' then quoted cs else l.read cs)

include heq

/-- A quoted string or a word lies before what lies behind it. -/
theorem exists_laid_of_quotedOr (hv : Blankless l) (hb : l.Begins) {cs text : List Char}
    {s : String} {ss : List String} {n k : Nat} (h : r cs = .found s n) (hrest : Laid text ss k) :
    ∃ k', Laid (cs.take n ++ text) (s :: ss) k' := by
  rw [heq] at h
  split at h
  · obtain ⟨raw, t, ht, rfl, htake⟩ := exists_spells_of_quoted h
    rw [htake, List.cons_append, List.append_assoc]
    exact ⟨_, .quoted ht hrest⟩
  · next hquote =>
    obtain ⟨hw, rfl⟩ := eq_take_of_read hb h
    refine ⟨_, .bare (hv cs _ hw) (fun hhead => hquote ?_) hrest⟩
    rw [List.head?_take] at hhead
    split at hhead
    · cases hhead
    · exact hhead

theorem quotedOr_newline_absent (hl : OnLine l) {cs below : List Char} (below' : List Char)
    (h : r (cs ++ '\n' :: below) = .absent) : r (cs ++ '\n' :: below') = .absent := by
  have hhead : (cs ++ '\n' :: below').head? = (cs ++ '\n' :: below).head? := by
    rw [head?_newline_append, head?_newline_append]
  have hread := Lexeme.onLine_read hl
  rw [heq] at h
  rw [heq, hhead]
  split
  · next hq =>
    rw [if_pos hq] at h
    exact absurd h (quoted_ne_absent hq)
  · next hq =>
    rwa [if_neg hq, hread.newline, ← hread.newline cs below'] at h

/-- What closes or ends before a line end is the same whatever stands below. -/
theorem settled_quotedOr (hl : OnLine l) : Settled r := by
  intro cs below below' s n hn hf
  have hhead : (cs ++ '\n' :: below').head? = (cs ++ '\n' :: below).head? := by
    rw [head?_newline_append, head?_newline_append]
  rw [heq] at hf
  rw [heq, hhead]
  split
  · next hq =>
    rw [if_pos hq] at hf
    exact settled_quoted cs below below' s n hn hf
  · next hq =>
    rw [if_neg hq] at hf
    exact settled_of_onLine (Lexeme.onLine_read hl) cs below below' s n hn hf

end QuotedOr

theorem begins_bareItem : bareItem.Begins := Lexeme.begins_headed _ _

/-- **A list is laid out** in the text that it takes. -/
theorem exists_laid_of_items (cs : List Char) :
    (items cs).Finds fun ss n => ∃ k, Laid (cs.take n) ss k := by
  fun_induction items cs with
  | case1 cs h => exact ⟨0, .nil⟩
  | case2 cs f h => trivial
  | case3 cs s n h gap hgap =>
      have hitem := exists_laid_of_quotedOr item_eq blankless_bareItem begins_bareItem h .nil
      rwa [List.append_nil] at hitem
  | case4 cs s n h gap hgap ih =>
      refine (finds_shift ..).2 ((finds_map ..).2 (ih.mono fun ss m hm => ?_))
      obtain ⟨k, hk⟩ := hm
      have hgap : ∀ c ∈ (cs.drop n).take gap, isInlineBlank c = true ∨ c = ',' :=
        fun c hc => mem_take_separator hc
      have hrest := hk.gap hgap
      have hlaid := exists_laid_of_quotedOr item_eq blankless_bareItem begins_bareItem h hrest
      rw [List.take_add, List.take_add, List.append_assoc]
      exact hlaid

/-- **A list that ends before a line end** is the same whatever stands
below. -/
theorem settled_items : Settled items := by
  intro cs below below' ss n hn hf
  have hitem : Settled item := settled_quotedOr item_eq onLine_bareItem
  generalize htext : cs ++ '\n' :: below = text at hf
  fun_induction items text generalizing cs ss n with
  | case1 text h =>
      subst htext
      rw [items_eq, quotedOr_newline_absent item_eq onLine_bareItem below' h]
      exact hf
  | case2 text f h => cases hf
  | case3 text s m h gap hgap =>
      subst htext
      cases hf
      have hsep : separator ((cs ++ '\n' :: below').drop m) = 0 := by
        rw [← hgap, List.drop_append_of_le_length hn, onLine_separator.newline,
          ← onLine_separator.newline _ below, ← List.drop_append_of_le_length hn]
      rw [items_eq, hitem cs below below' s m hn h]
      exact if_pos hsep
  | case4 text s m h gap hgap ih =>
      subst htext
      cases hrest : items ((cs ++ '\n' :: below).drop (m + gap)) with
      | absent => simp [hrest, Reading.shift] at hf
      | broken f => simp [hrest, Reading.shift] at hf
      | found ts k =>
          rw [hrest] at hf
          cases hf
          have hm : m ≤ cs.length := by omega
          have hgapm : m + gap ≤ cs.length := by omega
          have hsep : separator ((cs ++ '\n' :: below').drop m) = gap := by
            rw [List.drop_append_of_le_length hm, onLine_separator.newline,
              ← onLine_separator.newline _ below, ← List.drop_append_of_le_length hm]
          have hbelow := ih (cs.drop (m + gap)) ts k (by simp; omega)
            (List.drop_append_of_le_length hgapm).symm hrest
          rw [items_eq, hitem cs below below' s m hm h]
          simp only
          rw [hsep, if_neg hgap, List.drop_append_of_le_length hgapm, hbelow]
          rfl

theorem settled_array : Settled array := by
  intro cs below below' ss n hn hf
  rw [array_eq] at hf
  split at hf
  · cases hf
  · next hne =>
    rw [array_eq, settled_items cs below below' ss n hn hf]
    split
    · next heq =>
      cases heq
      exact absurd hf (hne _)
    · rfl

end Token

namespace Shape

/-! ## Shapes on their lines -/

/-- What a shape without quotes takes holds no newline. -/
theorem newline_notMem_of_read {s : Shape} (h : s.Unquoted) {cs : List Char} {v : Value} {n : Nat}
    (hf : s.read cs = .found v n) : '\n' ∉ cs.take n :=
  Token.newline_notMem_take ((read_le_lineAhead h cs).of_eq hf)

/-- What is found before a line end does not depend on what stands below. -/
theorem settled_string : Settled string.read :=
  Settled.map (Token.settled_quotedOr Token.string_eq Token.onLine_bareWord) _

theorem settled_array : Settled array.read := Token.settled_array.map _

theorem literal_eq {w : String} {cs found : List Char} (h : Token.literal w cs = some found) :
    found = w.toList := by
  rw [Token.literal] at h
  split at h
  · cases h
  · exact Lexeme.word_eq h

theorem keyword_eq {w : String} {cs found : List Char} (h : Token.keyword w cs = some found) :
    found = w.toList := literal_eq (Option.filter_eq_some_iff.1 h).1

end Shape

/-! ## Places of another text -/

namespace Cursor

/-- The same place in another text. -/
def inText (c : Cursor) (text : List Char) : Cursor :=
  { c with text := text, rest := text.drop c.position, rest_eq := rfl }

variable {c : Cursor} {upper below : List Char}

theorem rest_of_text (ht : c.text = upper ++ '\n' :: below) (hp : c.position ≤ upper.length) :
    c.rest = upper.drop c.position ++ '\n' :: below := by
  rw [c.rest_eq, ht, List.drop_append_of_le_length hp]

/-- Before a newline, moving on is the same whatever stands below it. -/
theorem advance_inText (ht : c.text = upper ++ '\n' :: below) (hp : c.position ≤ upper.length)
    {n : Nat} (hn : n ≤ (upper.drop c.position).length) (below' : List Char) :
    (c.inText (upper ++ '\n' :: below')).advance n =
      (c.advance n).inText (upper ++ '\n' :: below') := by
  have hrest : (c.inText (upper ++ '\n' :: below')).rest =
      upper.drop c.position ++ '\n' :: below' := List.drop_append_of_le_length hp
  have htake : (c.inText (upper ++ '\n' :: below')).rest.take n = c.rest.take n := by
    rw [hrest, rest_of_text ht hp, List.take_append_of_le_length hn,
      List.take_append_of_le_length hn]
  have hlength : (c.rest.take n).length = n := by
    rw [rest_of_text ht hp, List.take_append_of_le_length hn, List.length_take_of_le hn]
  apply ext_fields
  · rfl
  · rfl
  · show ((upper ++ '\n' :: below').drop c.position).drop n =
      (upper ++ '\n' :: below').drop (c.position + (c.rest.take n).length)
    rw [List.drop_drop, hlength]
  · exact congrArg (c.position + ·.length) htake
  · exact congrArg (c.line + ·.count '\n') htake
  · exact congrArg (columnAfter c.column) htake

end Cursor

namespace Shape

/-- Another text below a newline, at or behind the place `k` characters
ahead, changes neither what is read nor where reading ends. -/
def LocalFrom (s : Shape) (c : Cursor) (v : Value) (n k : Nat) : Prop :=
  ∀ upper below below', c.text = upper ++ '\n' :: below → c.position + k ≤ upper.length →
    s.read (c.inText (upper ++ '\n' :: below')).rest = .found v n ∧
      (c.inText (upper ++ '\n' :: below')).advance n =
        (c.advance n).inText (upper ++ '\n' :: below')

/-- What is taken without a newline behind a place ends on the line of that
place. -/
theorem localFrom_of_settled {s : Shape} {c : Cursor} {v : Value} {n k : Nat}
    (hs : Settled s.read) (hf : s.read c.rest = .found v n)
    (hline : '\n' ∉ (c.rest.take n).drop k) : s.LocalFrom c v n k := by
  intro upper below below' ht hk
  have hp : c.position ≤ upper.length := by omega
  have hrest := Cursor.rest_of_text ht hp
  have hn : n ≤ (upper.drop c.position).length := by
    by_contra hlt
    -- the newline would be taken
    refine hline (List.mem_of_getElem? (i := (upper.drop c.position).length - k) ?_)
    rw [List.length_drop] at hlt
    rw [List.getElem?_drop, List.length_drop, Nat.add_sub_cancel' (by omega),
      List.getElem?_take_of_lt (by omega), hrest, List.getElem?_append_right (by simp)]
    simp
  refine ⟨?_, Cursor.advance_inText ht hp hn below'⟩
  have hbelow := hs (upper.drop c.position) below below' v n hn (hrest ▸ hf)
  rwa [← List.drop_append_of_le_length hp] at hbelow

end Shape

namespace Cursor

open Shape Token

/-- **Reading is local to lines.** Blanks that are skipped hold no newline,
and neither does what a shape without quotes takes; a keyword or literal takes
its word alone. A string or a list takes newlines between quotes only. What is
read, and where reading ends, is decided by the text up to the end of the line
of the cursor, or of the line on which the last quoted string closes. -/
theorem read_local (c : Cursor) :
    ('\n' ∉ c.rest.take (inlineBlanks c.rest) ∧
      ∀ upper below below', c.text = upper ++ '\n' :: below → c.position ≤ upper.length →
        (c.inText (upper ++ '\n' :: below')).skipBlanks =
          c.skipBlanks.inText (upper ++ '\n' :: below')) ∧
    (∀ (s : Shape) v n, s.Unquoted → s.read c.rest = .found v n →
      '\n' ∉ c.rest.take n ∧ s.LocalFrom c v n 0) ∧
    (∀ (w : String) v n, (Shape.literal w).read c.rest = .found v n ∨
      (Shape.keyword w).read c.rest = .found v n → c.rest.take n = w.toList) ∧
    (∀ v n, Shape.string.read c.rest = .found v n → ∃ s, v = .text s ∧
      (∃ k, Laid (c.rest.take n) [s] k) ∧
      ∀ k, Laid (c.rest.take n) [s] k → Shape.string.LocalFrom c v n k) ∧
    ∀ v n, Shape.array.read c.rest = .found v n → ∃ ss, v = .texts ss ∧
      (∃ k, Laid (c.rest.take n) ss k) ∧
      ∀ k, Laid (c.rest.take n) ss k → Shape.array.LocalFrom c v n k := by
  refine ⟨⟨?_, ?_⟩, ?_, ?_, ?_, ?_⟩
  · exact newline_notMem_take (inlineBlanks_le_lineAhead c.rest)
  · intro upper below below' ht hp
    have hrest := rest_of_text ht hp
    have hblanks : ∀ ds, inlineBlanks (upper.drop c.position ++ '\n' :: ds) =
        inlineBlanks (upper.drop c.position) := onLine_inlineBlanks.newline _
    have hskip : inlineBlanks (c.inText (upper ++ '\n' :: below')).rest = inlineBlanks c.rest := by
      show inlineBlanks ((upper ++ '\n' :: below').drop c.position) = _
      rw [List.drop_append_of_le_length hp, hblanks, hrest, hblanks]
    rw [skipBlanks, skipBlanks, hskip]
    refine advance_inText ht hp ?_ below'
    rw [hrest, hblanks]
    exact inlineBlanks_le _
  · intro s v n hs hf
    have hline := newline_notMem_of_read hs hf
    exact ⟨hline, localFrom_of_settled (settled_of_onLine (onLine_read hs)) hf hline⟩
  · rintro w v n (hf | hf)
    · obtain ⟨s, hs, -⟩ := map_eq_found hf
      exact literal_eq (eq_take_of_read (begins_literal w) hs).1
    · obtain ⟨s, hs, -⟩ := map_eq_found hf
      exact keyword_eq (eq_take_of_read (begins_keyword w) hs).1
  · intro v n hf
    obtain ⟨s, hs, rfl⟩ := map_eq_found hf
    have hlaid := exists_laid_of_quotedOr string_eq blankless_bareWord (Lexeme.begins_run _) hs .nil
    rw [List.append_nil] at hlaid
    exact ⟨s, rfl, hlaid,
      fun k hk => localFrom_of_settled settled_string hf hk.newline_notMem_drop⟩
  · intro v n hf
    obtain ⟨ss, hss, rfl⟩ := map_eq_found hf
    exact ⟨ss, rfl, (array_finds (exists_laid_of_items c.rest)).of_eq hss,
      fun k hk => localFrom_of_settled settled_array hf hk.newline_notMem_drop⟩

/-- A list with a string that reaches over a line end. -/
def twoLineList : Cursor := .start "books" "\"a\nb\", c ; x\nbelow".toList

/-- A keyword, and a line below it. -/
def openLine : Cursor := .start "books" "open\nx".toList

/-- The list is the same with any text below its second line, and the keyword
with any text below its line. -/
theorem read_local_twoLineList :
    Shape.array.read twoLineList.rest = .found (.texts ["a\nb", "c"]) 9 ∧
      (∀ below, Shape.array.read ("\"a\nb\", c ; x".toList ++ '\n' :: below) =
        .found (.texts ["a\nb", "c"]) 9) ∧
      (Shape.keyword "open").Unquoted ∧
      (Shape.keyword "open").read openLine.rest = .found (.text "open") 4 ∧
      ∀ below, (Shape.keyword "open").read ("open".toList ++ '\n' :: below) =
        .found (.text "open") 4 := by
  have hread : Shape.array.read twoLineList.rest = .found (.texts ["a\nb", "c"]) 9 := by
    with_unfolding_all rfl
  have hunquoted : (Shape.keyword "open").Unquoted := by
    show '\n' ∉ "open".toList
    decide
  have hopen : (Shape.keyword "open").read openLine.rest = .found (.text "open") 4 := by
    with_unfolding_all rfl
  obtain ⟨-, -, -, -, hlists⟩ := read_local twoLineList
  obtain ⟨-, hshapes, -⟩ := read_local openLine
  obtain ⟨ss, -, ⟨k, hlaid⟩, hlocal⟩ := hlists _ _ hread
  have hk : k ≤ 9 := hlaid.le.trans (List.length_take_le ..)
  have hplace : twoLineList.position + k ≤ "\"a\nb\", c ; x".toList.length :=
    Nat.le_trans (Nat.add_le_add_left hk 0) (by decide)
  refine ⟨hread, fun below => ?_, hunquoted, hopen, fun below => ?_⟩
  · exact (hlocal k hlaid _ "below".toList below rfl hplace).1
  · exact ((hshapes _ _ _ hunquoted hopen).2 "open".toList "x".toList below rfl (by decide)).1

end Cursor
end Daybook
