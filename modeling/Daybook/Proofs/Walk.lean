import Daybook.Proofs.Cursor
import Daybook.Proofs.Directive
import Daybook.Grammar

/-!
# Walk — one step of the walk through a text

The walk does one of three things: it passes over what lies between
entries, it ends, or it takes the entry at the cursor. A line that holds
nothing but white space or a comment (`Idle`) is passed over whole, so
the blank and comment lines that an entry skips behind itself are
skipped by the walk as well.
-/

namespace Daybook

/-- The place of a line, as the metadata of an entry names it. -/
def Entry.place (source : String) (line : Nat) : String := source ++ ":" ++ toString line

theorem Cursor.location_eq (c : Cursor) : c.location = Entry.place c.source c.line := rfl

namespace Grammar

open Daybook.Text Daybook.Reading

variable {g : Grammar} {c : Cursor}

/-! ## The three steps -/

theorem items_gap (h : 0 < gap c.rest) : g.items c = g.items (c.advance (gap c.rest)) := by
  rw [items, dif_pos h]

theorem gap_nil : gap [] = 0 := rfl

theorem items_nil (h : c.rest = []) : g.items c = ([], none) := by
  have hg : ¬0 < gap c.rest := by
    rw [h, gap_nil]
    exact Nat.lt_irrefl 0
  rw [items, dif_neg hg, dif_pos h]

theorem items_found {e : Entry} {n : Nat} (hg : gap c.rest = 0) (hr : c.rest ≠ [])
    (he : g.entryAt c = .ok (e, n)) (hn : 0 < n) :
    g.items c = (⟨c, e, c.advance n⟩ :: (g.items (c.advance n)).1, (g.items (c.advance n)).2) := by
  have hg' : ¬0 < gap c.rest := by omega
  rw [items, dif_neg hg', dif_neg hr, he]
  simp only [dif_pos hn]

theorem items_broken {f : Fault} (hg : gap c.rest = 0) (hr : c.rest ≠ [])
    (he : g.entryAt c = .error f) : g.items c = ([], some f) := by
  have hg' : ¬0 < gap c.rest := by omega
  rw [items, dif_neg hg', dif_neg hr, he]

theorem items_stalled {e : Entry} (hg : gap c.rest = 0) (hr : c.rest ≠ [])
    (he : g.entryAt c = .ok (e, 0)) : g.items c = ([], some .stalled) := by
  have hg' : ¬0 < gap c.rest := by omega
  rw [items, dif_neg hg', dif_neg hr, he]
  simp only [dif_neg (Nat.lt_irrefl 0)]

theorem ne_nil_of_gap {cs : List Char} (h : 0 < gap cs) : cs ≠ [] := by
  rintro rfl
  exact absurd h (Nat.lt_irrefl 0)

/-- **Induction along the walk**, which passes over what lies between
entries, ends, or takes the entry at the cursor. -/
theorem walk_induction (g : Grammar) {P : Cursor → Prop}
    (skip : ∀ c, 0 < gap c.rest → P (c.advance (gap c.rest)) → P c)
    (done : ∀ c, c.rest = [] → P c)
    (broken : ∀ c f, gap c.rest = 0 → c.rest ≠ [] → g.entryAt c = .error f → P c)
    (stalled : ∀ c e, gap c.rest = 0 → c.rest ≠ [] → g.entryAt c = .ok (e, 0) → P c)
    (found : ∀ c e n, gap c.rest = 0 → c.rest ≠ [] → g.entryAt c = .ok (e, n) → 0 < n →
      P (c.advance n) → P c) (c : Cursor) : P c := by
  induction hlen : c.rest.length using Nat.strong_induction_on generalizing c with
  | _ m ih =>
      have hrec : ∀ n, 0 < n → c.rest ≠ [] → P (c.advance n) := by
        intro n hn hr
        have hpos := List.length_pos_iff.2 hr
        refine ih _ ?_ (c.advance n) rfl
        rw [Cursor.rest_advance, List.length_drop]
        omega
      by_cases hg : 0 < gap c.rest
      · exact skip c hg (hrec _ hg (ne_nil_of_gap hg))
      · have hg : gap c.rest = 0 := Nat.eq_zero_of_not_pos hg
        by_cases hr : c.rest = []
        · exact done c hr
        · cases he : g.entryAt c with
          | error f => exact broken c f hg hr he
          | ok answer =>
              obtain ⟨e, n⟩ := answer
              by_cases hn : 0 < n
              · exact found c e n hg hr he hn (hrec n hn hr)
              · obtain rfl : n = 0 := Nat.eq_zero_of_not_pos hn
                exact stalled c e hg hr he

/-! ## The answer -/

/-- The fault that ends the walk is the answer. -/
theorem parse_eq_error_iff {text : String} {f : Fault} :
    g.parse text = .error f ↔ (g.items (.start g.source text.toList)).2 = some f := by
  rw [parse, walk]
  obtain ⟨items, fault⟩ := g.items (.start g.source text.toList)
  cases fault with
  | none => simp
  | some f' => simp

/-- A walk that no fault ends is answered with its entries. -/
theorem parse_eq_ok_iff {text : String} {es : List Entry} :
    g.parse text = .ok es ↔ (g.items (.start g.source text.toList)).2 = none ∧
      (g.items (.start g.source text.toList)).1.map (·.entry) = es := by
  rw [parse, walk]
  obtain ⟨items, fault⟩ := g.items (.start g.source text.toList)
  cases fault with
  | none => simp
  | some f => simp

/-! ## What lies between entries -/

theorem gap_of_blank {cs : List Char} (h : 0 < inlineBlanks cs) : gap cs = inlineBlanks cs :=
  if_pos h

theorem gap_of_newline (cs : List Char) : gap ('\n' :: cs) = 1 := by
  simp [gap, inlineBlanks_newline]

theorem gap_of_comment {cs : List Char} (h : inlineBlanks cs = 0) (hc : startsComment cs = true) :
    gap cs = (lineAhead cs).length := by
  have hn : cs.head? ≠ some '\n' := by
    intro hn
    cases cs with
    | nil => simp at hn
    | cons d ds =>
        simp only [List.head?_cons, Option.some.injEq] at hn
        subst hn
        simp [startsComment] at hc
  rw [gap, if_neg (by omega), if_neg hn, if_pos hc]

/-- Where an entry may start, neither white space nor a comment comes
next. -/
theorem gap_eq_zero_iff {cs : List Char} :
    gap cs = 0 ↔ AtMargin cs ∧ startsComment cs = false := by
  cases cs with
  | nil => simp [gap_nil, AtMargin, startsComment]
  | cons d ds =>
      by_cases hn : d = '\n'
      · subst hn
        simp [gap_of_newline, AtMargin]
      · by_cases hb : isBlank d = true
        · have hin : isInlineBlank d = true := by simp [isInlineBlank, hb, hn]
          have hpos : 0 < inlineBlanks (d :: ds) := by simp [inlineBlanks, hin]
          rw [gap_of_blank hpos]
          simp [AtMargin, hb]
          omega
        · have hin : isInlineBlank d = false := by simp [isInlineBlank, hb]
          have hzero : inlineBlanks (d :: ds) = 0 := by simp [inlineBlanks, hin]
          by_cases hc : startsComment (d :: ds) = true
          · rw [gap_of_comment hzero hc, lineAhead_cons hn]
            simp [hc]
          · simp [gap, hzero, hn, hc, AtMargin, hb]

/-- Is the line at the front white space or a comment? -/
def idleFront (cs : List Char) : Bool :=
  (cs.drop (inlineBlanks cs)).head?.all (· == '\n') || startsComment (cs.drop (inlineBlanks cs))

theorem startsComment_of_semicolon (cs : List Char) : startsComment (';' :: cs) = true := rfl

theorem items_blanks : g.items c = g.items (c.advance (inlineBlanks c.rest)) := by
  by_cases h : 0 < inlineBlanks c.rest
  · have := items_gap (g := g) (c := c) (by rwa [gap_of_blank h])
    rwa [gap_of_blank h] at this
  · rw [Nat.eq_zero_of_not_pos h, Cursor.advance_zero]

theorem items_newline {cs : List Char} (h : c.rest = '\n' :: cs) :
    g.items c = g.items (c.advance 1) := by
  have hg : gap c.rest = 1 := by rw [h, gap_of_newline]
  have := items_gap (g := g) (c := c) (by omega)
  rwa [hg] at this

/-- **An idle line is passed over whole.** -/
theorem items_idleFront (h : idleFront c.rest = true) :
    g.items c = g.items (c.advance (lineLength c.rest)) := by
  rw [items_blanks, ← lineLength_drop (inlineBlanks_le_lineAhead c.rest),
    ← Cursor.advance_advance, ← Cursor.rest_advance]
  have hzero : inlineBlanks (c.advance (inlineBlanks c.rest)).rest = 0 := inlineBlanks_drop c.rest
  have hidle : (c.advance (inlineBlanks c.rest)).rest.head?.all (· == '\n') = true ∨
      startsComment (c.advance (inlineBlanks c.rest)).rest = true := by
    simpa [idleFront] using h
  generalize c.advance (inlineBlanks c.rest) = d at hzero hidle ⊢
  cases hr : d.rest with
  | nil => rw [lineLength_nil, Cursor.advance_zero]
  | cons x xs =>
      by_cases hx : x = '\n'
      · subst hx
        rw [lineLength_newline]
        exact items_newline hr
      · have hc : startsComment d.rest = true := by simpa [hr, hx] using hidle
        have hgap : gap d.rest = (lineAhead d.rest).length := gap_of_comment hzero hc
        have hpos : 0 < (lineAhead d.rest).length := by simp [hr, lineAhead_cons hx]
        rw [items_gap (by omega), hgap, ← hr, ← lineLength_drop (Nat.le_refl _),
          ← Cursor.advance_advance, ← Cursor.rest_advance]
        -- behind the comment its newline comes next, unless the text is over
        have hend : (d.advance (lineAhead d.rest).length).rest = d.rest.dropWhile (· != '\n') :=
          drop_lineAhead d.rest
        rcases dropWhile_newline d.rest with hn | ⟨ys, hn⟩
        · rw [hend, hn, lineLength_nil, Cursor.advance_zero]
        · rw [hend, hn, lineLength_newline]
          exact items_newline (hend.trans hn)

/-- An indent with a newline or a semicolon behind it is all the white
space there is. -/
theorem idleFront_of_indent {cs : List Char}
    (h : (cs.drop (indentWidth cs)).head?.any (fun c => c == '\n' || c == ';') = true) :
    idleFront cs = true := by
  have hsame : inlineBlanks cs = indentWidth cs := by
    induction cs with
    | nil => rfl
    | cons c cs ih =>
        rw [indentWidth, inlineBlanks, List.takeWhile_cons, List.takeWhile_cons]
        by_cases hi : isIndent c = true
        · have hrec : (cs.drop (indentWidth cs)).head?.any (fun c => c == '\n' || c == ';') := by
            simpa [indentWidth, hi] using h
          rw [if_pos hi, if_pos (isInlineBlank_of_isIndent hi)]
          exact congrArg (· + 1) (ih hrec)
        · have hc : c = '\n' ∨ c = ';' := by simpa [indentWidth, hi] using h
          have hb : isInlineBlank c = false := by rcases hc with rfl | rfl <;> decide
          rw [if_neg hi, if_neg (by simp [hb])]
  rw [idleFront, hsame]
  cases hd : cs.drop (indentWidth cs) with
  | nil => rfl
  | cons c rest =>
      rw [hd] at h
      have hc : c = '\n' ∨ c = ';' := by simpa using h
      rcases hc with rfl | rfl
      · rfl
      · rw [startsComment_of_semicolon, Bool.or_true]

/-- Blank lines are passed over. -/
theorem items_blankLines : g.items (c.advance (blankLines c.rest)) = g.items c := by
  generalize hcs : c.rest = cs
  fun_induction blankLines cs generalizing c with
  | case1 cs next hnext ih =>
      subst hcs
      rw [← drop_indentWidth] at hnext
      have hbehind : (c.advance (indentWidth c.rest + 1)).rest = next := by
        rw [Cursor.rest_advance, drop_of_blank hnext]
      have hidle : idleFront c.rest = true := idleFront_of_indent (by simp [hnext])
      rw [← Cursor.advance_advance, ih hbehind, items_idleFront hidle,
        lineLength_of_blank hnext]
  | case2 cs hno => rw [Cursor.advance_zero]

/-- **The lines that a transaction passes over behind itself** are
passed over by the walk. -/
theorem items_idleLines :
    g.items (c.advance (Transaction.idleLines c.rest)) = g.items c := by
  induction hlen : c.rest.length using Nat.strong_induction_on generalizing c with
  | _ k ih =>
      rw [Transaction.idleLines_eq]
      split
      · next h =>
        have hne : c.rest ≠ [] := by
          intro hnil
          rw [hnil] at h
          simp at h
        have hpos := lineLength_pos hne
        have hlt : (c.advance (lineLength c.rest)).rest.length < k := by
          have := List.length_pos_iff.2 hne
          rw [Cursor.rest_advance, List.length_drop]
          omega
        have hrec := ih _ hlt (c := c.advance (lineLength c.rest)) rfl
        rw [← Cursor.advance_advance, items_idleFront (idleFront_of_indent h)]
        exact hrec
      · rw [Cursor.advance_zero]

/-! ## The entry at the cursor -/

/-- The directives of the grammar are schemas of such shapes, and the one
for transactions. -/
def OfShape (g : Grammar) (p : Shape → Prop) : Prop :=
  ∀ d ∈ g.directives, d.OfShape g.registry p

/-- What the directives make of the text ahead: `firstOf` before the
entry's place is stamped. -/
def firstBody (r : Registry) (cs : List Char) : List Directive → Reading Entry
  | [] => .absent
  | d :: ds =>
    match d.body r cs with
    | .absent => firstBody r cs ds
    | answer => answer

theorem firstOf_eq {r : Registry} {p : Shape → Prop} {ds : List Directive}
    (h : ∀ d ∈ ds, d.OfShape r p) (c : Cursor) :
    firstOf r c ds = (firstBody r c.rest ds).map (·.locatedAt c.location) := by
  induction ds with
  | nil => rfl
  | cons d ds ih =>
      have hds := ih fun d' hd' => h d' (by simp [hd'])
      rw [firstOf, firstBody, Directive.read_eq_body (h d (by simp)), hds]
      cases d.body r c.rest <;> rfl

theorem firstBody_of_absent {r : Registry} {cs : List Char} {d : Directive}
    (h : d.body r cs = .absent) (ds : List Directive) :
    firstBody r cs (d :: ds) = firstBody r cs ds := by
  rw [firstBody, h]

theorem firstBody_of_answer {r : Registry} {cs : List Char} {d : Directive}
    (h : d.body r cs ≠ .absent) (ds : List Directive) :
    firstBody r cs (d :: ds) = d.body r cs := by
  rw [firstBody]
  split
  · next ha => exact absurd ha h
  · rfl

/-- **The first directive that does not answer with absence** decides. -/
theorem firstBody_split_iff {r : Registry} {cs : List Char} {ds : List Directive}
    {answer : Reading Entry} (ha : answer ≠ .absent) :
    firstBody r cs ds = answer ↔ ∃ before d after, ds = before ++ d :: after ∧
      (∀ d' ∈ before, d'.body r cs = .absent) ∧ d.body r cs = answer := by
  induction ds with
  | nil => simp [firstBody, ha.symm]
  | cons b ds ih =>
      by_cases hb : b.body r cs = .absent
      · rw [firstBody_of_absent hb, ih]
        constructor
        · rintro ⟨before, d, after, rfl, hbefore, hd⟩
          exact ⟨b :: before, d, after, rfl, List.forall_mem_cons.2 ⟨hb, hbefore⟩, hd⟩
        · rintro ⟨before, d, after, heq, hbefore, hd⟩
          rcases List.cons_eq_append_iff.1 heq with ⟨rfl, hcons⟩ | ⟨before, rfl, htail⟩
          · obtain ⟨rfl, -⟩ := List.cons.inj hcons
            exact absurd (hd.symm.trans hb) ha
          · exact ⟨before, d, after, htail, (List.forall_mem_cons.1 hbefore).2, hd⟩
      · rw [firstBody_of_answer hb]
        constructor
        · exact fun h => ⟨[], b, ds, rfl, List.forall_mem_nil _, h⟩
        · rintro ⟨before, d, after, heq, hbefore, hd⟩
          rcases List.cons_eq_append_iff.1 heq with ⟨rfl, hcons⟩ | ⟨before, rfl, -⟩
          · obtain ⟨rfl, -⟩ := List.cons.inj hcons
            exact hd
          · exact absurd (List.forall_mem_cons.1 hbefore).1 hb

/-- The answer of the first directive that does not answer with absence
is one of the directives' answers. -/
theorem firstBody_finds {r : Registry} {cs : List Char} {P : Entry → Nat → Prop}
    {ds : List Directive} (h : ∀ d ∈ ds, (d.body r cs).Finds P) : (firstBody r cs ds).Finds P := by
  refine finds_iff.2 fun e n he => ?_
  obtain ⟨before, d, after, rfl, -, hd⟩ := (firstBody_split_iff (by nofun)).1 he
  exact (h d (by simp)).of_eq hd

theorem firstBody_breaks {r : Registry} {cs : List Char} {Q : Flaw → Prop}
    {ds : List Directive} (h : ∀ d ∈ ds, (d.body r cs).Breaks Q) :
    (firstBody r cs ds).Breaks Q := by
  cases hf : firstBody r cs ds with
  | absent | found => trivial
  | broken f =>
      obtain ⟨before, d, after, rfl, -, hd⟩ := (firstBody_split_iff (by nofun)).1 hf
      have hbreaks := h d (by simp)
      rwa [hd] at hbreaks

/-- The directive is the first that does not answer with absence, if it
does not. -/
def Tries (g : Grammar) (cs : List Char) (d : Directive) : Prop :=
  ∃ before after, g.directives = before ++ d :: after ∧
    ∀ d' ∈ before, d'.body g.registry cs = .absent

theorem Tries.mem {cs : List Char} {d : Directive} (h : g.Tries cs d) : d ∈ g.directives := by
  obtain ⟨before, after, heq, -⟩ := h
  exact heq ▸ List.mem_append_right before List.mem_cons_self

/-- An answer is that of the directive that was tried last. -/
theorem firstBody_eq_iff {cs : List Char} {answer : Reading Entry} (ha : answer ≠ .absent) :
    firstBody g.registry cs g.directives = answer ↔
      ∃ d, g.Tries cs d ∧ d.body g.registry cs = answer := by
  rw [firstBody_split_iff ha]
  constructor
  · rintro ⟨before, d, after, heq, hbefore, hd⟩
    exact ⟨d, ⟨before, after, heq, hbefore⟩, hd⟩
  · rintro ⟨d, ⟨before, after, heq, hbefore⟩, hd⟩
    exact ⟨before, d, after, heq, hbefore, hd⟩

theorem firstBody_of_tries {cs : List Char} {d : Directive} (h : g.Tries cs d) {e : Entry}
    {n : Nat} (hd : d.body g.registry cs = .found e n) :
    firstBody g.registry cs g.directives = .found e n := (firstBody_eq_iff (by nofun)).2 ⟨d, h, hd⟩

/-- The text ahead decides, and the cursor gives the place. -/
theorem entryAt_eq {p : Shape → Prop} (h : g.OfShape p) (c : Cursor) :
    g.entryAt c = match firstBody g.registry c.rest g.directives with
      | .found e n => .ok (e.locatedAt c.location, n)
      | .broken f => .error (.ofFlaw c f)
      | .absent => .ok (Recovery.entryAt c, Recovery.length c.rest) := by
  rw [entryAt, firstOf_eq h]
  cases firstBody g.registry c.rest g.directives <;> rfl

/-- A fault at the cursor is the flaw that the directives met. -/
theorem exists_flaw_of_entryAt {p : Shape → Prop} (h : g.OfShape p) {f : Fault}
    (he : g.entryAt c = .error f) :
    ∃ flaw, firstBody g.registry c.rest g.directives = .broken flaw ∧ f = .ofFlaw c flaw := by
  rw [entryAt_eq h] at he
  cases hb : firstBody g.registry c.rest g.directives with
  | found e n => simp [hb] at he
  | absent => simp [hb] at he
  | broken flaw =>
      rw [hb] at he
      exact ⟨flaw, rfl, (Except.error.inj he).symm⟩

/-- What holds of the lengths of all that directives read, and of
recovered lines, holds of the length of the entry. -/
theorem entryAt_length {p : Shape → Prop} (h : g.OfShape p) {P : Nat → Prop}
    (hread : ∀ d ∈ g.directives, (d.body g.registry c.rest).Finds fun _ n => P n)
    (hrecover : P (Recovery.length c.rest)) {e : Entry} {n : Nat}
    (he : g.entryAt c = .ok (e, n)) : P n := by
  rw [entryAt_eq h] at he
  cases hb : firstBody g.registry c.rest g.directives with
  | found e' n' =>
      rw [hb] at he
      cases he
      exact (firstBody_finds hread).of_eq hb
  | broken f => simp [hb] at he
  | absent =>
      rw [hb] at he
      cases he
      exact hrecover

/-- **Every entry ends at a boundary.** -/
theorem entryAt_boundary {p : Shape → Prop} (h : g.OfShape p) {e : Entry} {n : Nat}
    (he : g.entryAt c = .ok (e, n)) : Boundary c.rest n :=
  entryAt_length h (fun d hd => Directive.body_boundary (h d hd) c.rest)
    (Recovery.length_boundary c.rest) he

/-- **Every entry takes the line it starts on.** -/
theorem lineLength_le_entryAt {p : Shape → Prop} (h : g.OfShape p) {e : Entry} {n : Nat}
    (he : g.entryAt c = .ok (e, n)) : lineLength c.rest ≤ n :=
  entryAt_length h (fun d _ => Directive.lineLength_le_body g.registry d c.rest)
    (Recovery.lineLength_le_length c.rest) he

theorem entryAt_pos {p : Shape → Prop} (h : g.OfShape p) (hr : c.rest ≠ []) {e : Entry} {n : Nat}
    (he : g.entryAt c = .ok (e, n)) : 0 < n :=
  Nat.lt_of_lt_of_le (lineLength_pos hr) (lineLength_le_entryAt h he)

end Grammar
end Daybook
