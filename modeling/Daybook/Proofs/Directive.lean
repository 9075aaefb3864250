import Daybook.Proofs.Field
import Daybook.Proofs.Transaction
import Daybook.Builtin
import Daybook.Recovery

/-!
# Directive — lines, blocks and recovered lines

A directive reads its line by its fields and then passes over whole
lines, so its entry ends at a boundary. A directive whose shapes stay on
their line does not see text at the margin below it, and neither does
the recovery of a line that no directive accepts.
-/

namespace Daybook

open Daybook.Text Daybook.Reading

namespace Directive

/-! ## Schemas -/

theorem metadataBelow_eq (cs : List Char) :
    metadataBelow cs = match Metadata.block metadataIndent cs with
      | .absent => .found [] 0
      | .found m n => .found m (n + blankLines (cs.drop n))
      | .broken f => .broken f := rfl

theorem metadataBelow_append {cs ds : List Char} (hc : Complete cs) (hd : AtMargin ds)
    (hs : (metadataBelow cs).Sound) : metadataBelow (cs ++ ds) = metadataBelow cs := by
  have hblock : (Metadata.block metadataIndent cs).Sound := by
    rw [metadataBelow_eq] at hs
    split at hs
    · next h => simp [h]
    · next h => simp [h]
    · exact absurd hs (not_sound_broken _)
  rw [metadataBelow_eq, metadataBelow_eq, Metadata.block_append (by decide) hc hd hblock]
  split
  · rfl
  · next m n h =>
    have hn : n ≤ cs.length := ((Metadata.block_boundary _ cs).of_eq h).le
    rw [List.drop_append_of_le_length hn, blankLines_append (hc.drop n) hd]
  · rfl

theorem metadataBelow_boundary (cs : List Char) :
    (metadataBelow cs).Finds fun _ n => Boundary cs n := by
  rw [metadataBelow_eq]
  split
  · exact boundary_zero cs
  · next m n h =>
    exact ((Metadata.block_boundary _ cs).of_eq h).add (boundary_blankLines _)
  · trivial

/-- The entry of the values of a line and the metadata below. -/
def stamped (kind : String) (values : Pairs Value) (metadata : Metadata) : Reading Entry :=
  match entryOf kind values metadata with
  | .ok e => .found e 0
  | .error f => .broken f

/-- What comes behind the fields of a line: tags and links, the rest of
the line, and metadata. -/
def afterFields (kind : String) (values : Pairs Value) : Reader Entry := fun rest =>
  ((metadataBelow (rest.drop (lineLength rest))).andThen (rest.drop (lineLength rest))
    fun metadata _ => stamped kind (addMarks values rest) metadata).shift (lineLength rest)

theorem readSchema_eq (r : Registry) (kind : String) (fields : List Field) (cs : List Char) :
    readSchema r kind fields cs =
      (Field.readAll r fields [] cs).andThen cs (afterFields kind) := rfl

theorem onLine_addMarks (values : Pairs Value) : OnLine (addMarks values) := by
  intro cs
  rw [addMarks, addMarks, Token.onLine_marks, Token.onLine_commentStart]

theorem stamped_length (kind : String) (values : Pairs Value) (metadata : Metadata) :
    (stamped kind values metadata).Finds fun _ n => n = 0 := by
  rw [stamped]
  split
  · rfl
  · trivial

/-- Tags and links leave other values as they are. -/
theorem get?_addMarks {values : Pairs Value} {name : String} (ht : "tags" ≠ name)
    (hl : "links" ≠ name) (cs : List Char) :
    (addMarks values cs).get? name = values.get? name := by
  unfold addMarks
  split
  · rfl
  · split
    · rw [Pairs.get?_put_of_ne hl, Pairs.get?_put_of_ne ht]
    · rfl

theorem stamped_of_date {kind : String} {values : Pairs Value} {d : String}
    (h : values.get? "date" = some (.text d)) (metadata : Metadata) :
    stamped kind values metadata =
      .found ⟨d, metadata, .plain kind (values.without reserved)⟩ 0 := by
  rw [stamped, entryOf, h]

/-- What comes behind fields that gave a date. -/
theorem afterFields_eq {kind : String} {values : Pairs Value} {d : String}
    (h : values.get? "date" = some (.text d)) (cs : List Char) :
    afterFields kind values cs =
      ((metadataBelow (cs.drop (lineLength cs))).map fun metadata =>
        ⟨d, metadata, .plain kind ((addMarks values cs).without reserved)⟩).shift
          (lineLength cs) := by
  have hd : (addMarks values cs).get? "date" = some (.text d) := by
    rw [get?_addMarks (by decide) (by decide), h]
  rw [afterFields]
  cases metadataBelow (cs.drop (lineLength cs)) with
  | absent => rfl
  | broken f => rfl
  | found m n =>
      rw [Reading.andThen, stamped_of_date hd]
      rfl

theorem firm_afterFields (kind : String) (values : Pairs Value) :
    Firm (afterFields kind values) := by
  intro cs ds hc hne hd hs
  have hn := hc.newline_mem hne
  have hbelow : (metadataBelow (cs.drop (lineLength cs))).Sound :=
    (sound_andThen.1 ((sound_shift _ _).1 hs)).1
  rw [afterFields, afterFields, (onLine_addMarks values).append hn, lineLength_append hn,
    List.drop_append_of_le_length (lineLength_le cs),
    metadataBelow_append (hc.drop _) hd hbelow]
  rfl

theorem afterFields_boundary (kind : String) (values : Pairs Value) (cs : List Char) :
    (afterFields kind values cs).Finds fun _ n =>
      ∃ k, n = lineLength cs + k ∧ Boundary (cs.drop (lineLength cs)) k := by
  refine (finds_shift ..).2 (finds_andThen ?_)
  refine (metadataBelow_boundary _).mono fun m k hk => ?_
  refine (stamped_length ..).mono fun _ n hn => ⟨k, by rw [hn, Nat.add_zero], hk⟩

theorem firm_readSchema {r : Registry} {fields : List Field}
    (h : ∀ f ∈ fields, f.OfShape r Shape.SingleLine) (kind : String) :
    Firm (readSchema r kind fields) :=
  (Field.firm_readAll h []).andThen (Field.stays_readAll h []) (firm_afterFields kind)

/-- **An entry of a schema ends at a boundary.** -/
theorem readSchema_boundary {r : Registry} {fields : List Field} {p : Shape → Prop}
    (h : ∀ f ∈ fields, f.OfShape r p) (kind : String) (cs : List Char) :
    (readSchema r kind fields cs).Finds fun _ n => Boundary cs n := by
  rw [readSchema_eq]
  apply finds_andThen
  refine (Field.readAll_le h [] cs).mono fun values n hn =>
    (afterFields_boundary ..).mono fun _ m hm => ?_
  obtain ⟨k, rfl, hk⟩ := hm
  rw [← Nat.add_assoc]
  exact (Boundary.rest_of_line hn).add (by rwa [← List.drop_drop])

/-! ## Directives of the library -/

/-- The directive is a schema of the library's shapes, or the one for
transactions. -/
def OfShape (r : Registry) (p : Shape → Prop) : Directive → Prop
  | schema _ fields => ∀ f ∈ fields, f.OfShape r p
  | custom _ read => read = fun c => Transaction.read c.rest

theorem OfShape.mono {r : Registry} {d : Directive} {p q : Shape → Prop} (h : d.OfShape r p)
    (hpq : ∀ s, p s → q s) : d.OfShape r q := by
  cases d with
  | schema kind fields => exact fun f hf => (h f hf).mono hpq
  | custom kind read => exact h

/-- What the directive reads, before the entry's place is stamped. -/
def body (r : Registry) : Directive → Reader Entry
  | schema kind fields => readSchema r kind fields
  | custom _ _ => Transaction.read

theorem read_eq_body {r : Registry} {p : Shape → Prop} {d : Directive} (h : d.OfShape r p)
    (c : Cursor) : d.read r c = (d.body r c.rest).map (·.locatedAt c.location) := by
  cases d with
  | schema kind fields => rfl
  | custom kind read =>
      have hr : read = fun c => Transaction.read c.rest := h
      rw [Directive.read, hr]
      rfl

theorem body_boundary {r : Registry} {p : Shape → Prop} {d : Directive} (h : d.OfShape r p)
    (cs : List Char) : (d.body r cs).Finds fun _ n => Boundary cs n := by
  cases d with
  | schema kind fields => exact readSchema_boundary h kind cs
  | custom kind read => exact Transaction.read_boundary cs

/-- An entry takes its first line. -/
theorem lineLength_le_body (r : Registry) (d : Directive) (cs : List Char) :
    (d.body r cs).Finds fun _ n => lineLength cs ≤ n := by
  cases d with
  | schema kind fields =>
      show (readSchema r kind fields cs).Finds _
      rw [readSchema_eq]
      refine finds_andThen (finds_iff.2 fun values k _ => ?_)
      refine (afterFields_boundary kind values _).mono fun _ n hn => ?_
      obtain ⟨m, rfl, -⟩ := hn
      have := lineLength_le_rest cs k
      omega
  | custom kind read => exact Transaction.lineLength_le_read cs

theorem stamped_recognised (kind : String) (values : Pairs Value) (metadata : Metadata) :
    (stamped kind values metadata).Finds fun e _ => e.isUnrecognised = false := by
  rw [stamped]
  split
  · next e he =>
    rw [entryOf] at he
    split at he <;> cases he <;> rfl
  · trivial

/-- What a directive reads is never taken for a line that none accepts. -/
theorem body_recognised (r : Registry) (d : Directive) (cs : List Char) :
    (d.body r cs).Finds fun e _ => e.isUnrecognised = false := by
  cases d with
  | schema kind fields =>
      show (readSchema r kind fields cs).Finds _
      rw [readSchema_eq]
      refine finds_andThen (finds_iff.2 fun values n _ => ?_)
      refine (finds_shift ..).2 (finds_andThen (finds_iff.2 fun metadata k _ => ?_))
      exact stamped_recognised kind _ metadata
  | custom kind read => exact Transaction.read_recognised cs

/-- **A directive does not see text at the margin below it.** -/
theorem body_append {r : Registry} {d : Directive} (h : d.OfShape r Shape.SingleLine)
    {cs ds : List Char} (hc : Complete cs) (hne : cs ≠ []) (hd : AtMargin ds)
    (hs : (d.body r cs).Sound) :
    Transaction.Reaches (d.body r cs) (d.body r (cs ++ ds)) cs.length ds := by
  cases d with
  | schema kind fields =>
      have happ : Directive.body r (schema kind fields) (cs ++ ds)
          = Directive.body r (schema kind fields) cs :=
        firm_readSchema h kind cs ds hc hne hd hs
      rw [happ]
      exact ⟨id, fun e n hf => ⟨0, by rw [hf, Nat.add_zero], .inl rfl⟩⟩
  | custom kind read => exact Transaction.read_append hc hne hd hs

end Directive

/-! ## Recovered lines -/

namespace Recovery

theorem extent_eq (cs : List Char) :
    extent cs = (lineAhead cs).length +
      match cs.dropWhile (· != '\n') with
      | [] => 0
      | _ :: rest => if continues rest then 1 + extent rest else 0 := by
  rw [extent]
  split
  · next h => simp [h]
  · next c rest h => simp [h]

theorem extent_line (l rest : List Char) (h : '\n' ∉ l) :
    extent (l ++ '\n' :: rest) =
      l.length + if continues rest then 1 + extent rest else 0 := by
  have hd : (l ++ '\n' :: rest).dropWhile (· != '\n') = '\n' :: rest := by
    rw [← drop_lineAhead, lineAhead_line l rest h, List.drop_left]
  rw [extent_eq, hd, lineAhead_line l rest h]

/-- The last line goes as far as the text. -/
theorem extent_last {l : List Char} (h : '\n' ∉ l) : extent l = l.length := by
  have hd : l.dropWhile (· != '\n') = [] := by
    rw [← drop_lineAhead, lineAhead_eq_self h, List.drop_length]
  rw [extent_eq, hd, lineAhead_eq_self h]
  rfl

theorem ne_nil_of_continues {cs : List Char} (h : continues cs = true) : cs ≠ [] := by
  rintro rfl
  simp [continues, continuationIndent, indentWidth] at h

theorem continues_append {cs ds : List Char} (hc : Complete cs) (hd : AtMargin ds) :
    continues (cs ++ ds) = continues cs := by
  rw [continues, continues, drop_indentWidth_append hc hd, indentWidth_append hc hd]
  by_cases hne : cs = []
  · subst hne
    rfl
  · rw [List.head?_append,
      List.head?_eq_some_head (hc.drop_ne_nil hne (indentWidth_le_lineAhead cs)),
      Option.some_or]

theorem extent_append {cs ds : List Char} (hc : Complete cs) (hne : cs ≠ [])
    (hd : AtMargin ds) : extent (cs ++ ds) = extent cs := by
  induction cs using line_induction with
  | last l hl => exact absurd (hc.newline_mem hne) hl
  | line l rest hl ih =>
      rw [List.append_assoc, List.cons_append, extent_line l _ hl, extent_line l _ hl,
        continues_append hc.of_line hd]
      split
      · next hcont => rw [ih hc.of_line (ne_nil_of_continues hcont)]
      · rfl

theorem extent_le (cs : List Char) : extent cs ≤ cs.length := by
  induction cs using line_induction with
  | last l hl => exact Nat.le_of_eq (extent_last hl)
  | line l rest hl ih =>
      rw [extent_line l rest hl, List.length_append, List.length_cons]
      split <;> omega

/-- In a text that ends its lines, the recovered lines stop at a
newline. -/
theorem extent_lt {cs : List Char} (hc : Complete cs) (hne : cs ≠ []) :
    extent cs < cs.length := by
  induction cs using line_induction with
  | last l hl => exact absurd (hc.newline_mem hne) hl
  | line l rest hl ih =>
      rw [extent_line l rest hl, List.length_append, List.length_cons]
      split
      · next hcont =>
        have hrest := ih hc.of_line (ne_nil_of_continues hcont)
        omega
      · omega

/-- The recovered lines stop where a line ends. -/
theorem extent_atLineEnd (cs : List Char) : Metadata.AtLineEnd cs (extent cs) := by
  refine ⟨extent_le cs, ?_⟩
  induction cs using line_induction with
  | last l hl =>
      rw [extent_last hl, List.drop_length]
      rfl
  | line l rest hl ih =>
      rw [extent_line l rest hl]
      split
      · rw [List.drop_length_add_append, Nat.add_comm 1, List.drop_succ_cons]
        exact ih
      · rw [Nat.add_zero, List.drop_left, lineAhead_newline]

theorem length_eq (cs : List Char) :
    length cs = extent cs + lineLength (cs.drop (extent cs)) := by
  have h := (extent_atLineEnd cs).atEnd
  rw [length, ← Metadata.newline_eq_lineLength h, Metadata.newline]
  cases hd : cs.drop (extent cs) with
  | nil => rfl
  | cons c rest =>
      by_cases hc : c = '\n'
      · subst hc
        rfl
      · rw [hd, lineAhead_cons hc] at h
        cases h

/-- **A recovered entry ends at a boundary.** -/
theorem length_boundary (cs : List Char) : Boundary cs (length cs) := by
  rw [length_eq]
  exact .rest_of_line (extent_le cs)

theorem lineLength_le_length (cs : List Char) : lineLength cs ≤ length cs := by
  rw [length_eq]
  exact lineLength_le_rest cs _

theorem length_append {cs ds : List Char} (hc : Complete cs) (hne : cs ≠ [])
    (hd : AtMargin ds) : length (cs ++ ds) = length cs := by
  have hlt := extent_lt hc hne
  have h1 : cs.drop (extent cs) ≠ [] := by simpa using hlt
  rw [length, length, extent_append hc hne hd,
    List.drop_append_of_le_length (Nat.le_of_lt hlt), if_neg h1, if_neg (by simp [h1])]

end Recovery
end Daybook
