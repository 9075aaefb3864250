import Daybook.Proofs.Optional
import Daybook.Proofs.Semicolon
import Daybook.Proofs.Written.Heading

/-!
# Labels — tags and links behind the fields

Tags and links are read as the longest run of labels at the front
(`Longest`). No label holds a semicolon, so the run of a text is that of
the text before any semicolon of it, and it ends before a comment starts:
what a schema does not read of its line by its fields is read as labels as
far as labels go, whatever comment comes behind.
-/

namespace Daybook

open Daybook.Text Daybook.Reading

/-! ## Values under a name -/

namespace Pairs

variable {α : Type}

theorem get?_of_notMem {ps : Pairs α} {name : String} (h : name ∉ ps.names) :
    ps.get? name = none := by
  rw [get?, Option.map_eq_none_iff, List.find?_eq_none]
  intro p hp hname
  exact h (List.mem_map.2 ⟨p, hp, by simpa using hname⟩)

/-- Names that are kept keep their values. -/
theorem get?_without {left : List String} {name : String} (h : name ∉ left) (ps : Pairs α) :
    (ps.without left).get? name = ps.get? name := by
  rw [get?, get?, without, List.find?_filter]
  congr 2
  funext p
  by_cases hp : p.1 = name
  · simp [hp, h]
  · simp [hp]

end Pairs

/-! ## Kinds of marks -/

/-- Every mark goes to one of the lists, and each list keeps the order. -/
theorem Mark.split (ms : List Mark) :
    ((Mark.tags ms).map Mark.tag ++ (Mark.links ms).map Mark.link).Perm ms ∧
      ((Mark.tags ms).map Mark.tag).Sublist ms ∧ ((Mark.links ms).map Mark.link).Sublist ms := by
  induction ms with
  | nil => exact ⟨.refl _, .refl _, .refl _⟩
  | cons m ms ih =>
      obtain ⟨hperm, htags, hlinks⟩ := ih
      cases m with
      | tag name => exact ⟨hperm.cons _, htags.cons_cons _, hlinks.cons _⟩
      | link name =>
          exact ⟨List.perm_middle.trans (hperm.cons _), htags.cons _, hlinks.cons_cons _⟩

namespace Written

/-! ## A label at the front -/

theorem labelsText_cons (l : Label) (ls : List Label) :
    labelsText (l :: ls) = l.text ++ labelsText ls := List.flatMap_cons

theorem labelsText_singleton (l : Label) : labelsText [l] = l.text := List.flatMap_singleton ..

/-- The longest name at the front. -/
theorem exists_markName {cs : List Char} (h : cs.takeWhile Token.isMarkChar ≠ []) :
    ∃ (name : MarkName) (rest : List Char), name.text = cs.takeWhile Token.isMarkChar ∧
      cs = name.text ++ rest ∧ ∀ c ∈ rest.head?, Token.isMarkChar c = false := by
  have hwhole : Lexeme.run Token.isMarkChar (cs.takeWhile Token.isMarkChar) =
      some (cs.takeWhile Token.isMarkChar) := by
    rw [Lexeme.run, List.takeWhile_takeWhile]
    simpa using h
  refine ⟨⟨_, hwhole⟩, cs.dropWhile Token.isMarkChar, rfl,
    List.takeWhile_append_dropWhile.symm, ?_⟩
  intro c hc
  have hstop := List.head?_dropWhile_not Token.isMarkChar cs
  rw [Option.mem_def.1 hc] at hstop
  simpa using hstop

/-- A mark that is read is a label. -/
theorem exists_label {cs : List Char} {m : Mark} {n : Nat} (h : Token.mark? cs = some (m, n))
    (g : Gap) : ∃ (l : Label) (rest : List Char), l.mark = m ∧ g.text ++ cs = l.text ++ rest ∧
      l.text.length = g.text.length + n := by
  cases cs with
  | nil => cases h
  | cons c cs =>
      have hname : cs.takeWhile Token.isMarkChar ≠ [] := by
        intro hnil
        simp [Token.mark?, hnil] at h
      obtain ⟨name, rest, -, rfl, hrest⟩ := exists_markName hname
      have hsign : c = '#' ∨ c = '^' := by
        by_contra hne
        rw [not_or] at hne
        simp [Token.mark?, hne] at h
      obtain ⟨link, hlink⟩ : ∃ link, (Label.mk g link name).sign = c := by
        rcases hsign with rfl | rfl
        · exact ⟨false, rfl⟩
        · exact ⟨true, rfl⟩
      subst hlink
      cases ((Label.mk g link name).mark?_append hrest).symm.trans h
      exact ⟨⟨g, link, name⟩, rest, rfl, by simp [Label.text], by simp [Label.text]⟩

/-- The white space at the front. -/
theorem exists_gap (cs : List Char) :
    ∃ g : Gap, g.text ++ cs.drop (inlineBlanks cs) = cs ∧ g.text.length = inlineBlanks cs := by
  refine ⟨⟨cs.takeWhile isInlineBlank, fun c hc => List.mem_takeWhile_imp hc⟩, ?_, rfl⟩
  rw [drop_inlineBlanks]
  exact List.takeWhile_append_dropWhile

/-! ## The longest run -/

/-- **What is read is a run of labels.** -/
theorem exists_labels (cs : List Char) : ∃ ls, labelsText ls <+: cs ∧
    Token.marks cs = (ls.map Label.mark, (labelsText ls).length) := by
  fun_induction Token.marks cs with
  | case1 cs _ => exact ⟨[], List.nil_prefix, rfl⟩
  | case2 cs m n h ms k hms ih =>
      obtain ⟨g, hcs, hg⟩ := exists_gap cs
      obtain ⟨l, rest, rfl, hsplit, hlength⟩ := exists_label h g
      rw [hcs] at hsplit
      have hbehind : cs.drop (inlineBlanks cs + n) = rest := by
        rw [← hg, ← hlength, hsplit, List.drop_left]
      rw [hbehind] at ih hms
      obtain ⟨ls, hpre, hmarks⟩ := ih
      cases hms.symm.trans hmarks
      refine ⟨l :: ls, ?_, Prod.ext rfl ?_⟩
      · rw [labelsText_cons, hsplit]
        exact (List.prefix_append_right_inj _).2 hpre
      · rw [labelsText_cons, List.length_append, hlength, hg]

/-- **No run of labels at the front goes further.** -/
theorem length_le_marks (ls : List Label) {cs : List Char} (h : labelsText ls <+: cs) :
    (labelsText ls).length ≤ (Token.marks cs).2 := by
  induction ls generalizing cs with
  | nil => exact Nat.zero_le _
  | cons l ls ih =>
      obtain ⟨rest, rfl⟩ := h
      cases ls with
      | nil =>
          -- the name of the last label may go on behind it
          obtain ⟨hne, hall⟩ := Lexeme.run_whole l.name.whole
          have hlong : (l.name.text ++ rest).takeWhile Token.isMarkChar =
              l.name.text ++ rest.takeWhile Token.isMarkChar :=
            List.takeWhile_append_of_pos hall
          have hsome : (l.name.text ++ rest).takeWhile Token.isMarkChar ≠ [] := by
            simp [hlong, hne]
          obtain ⟨name, rest', hname, hsplit, hrest⟩ := exists_markName hsome
          have htext : labelsText [l] ++ rest = labelsText [⟨l.gap, l.link, name⟩] ++ rest' := by
            simp only [labelsText_singleton, Label.text, List.append_assoc, List.cons_append,
              hsplit]
            rfl
          rw [htext, marks_labelsText_append _ hrest, labelsText_singleton, labelsText_singleton,
            Label.text, Label.text, hname, hlong]
          simp only [List.length_append, List.length_cons]
          omega
      | cons l' ls =>
          have hhead := (behind_labelsText_cons l' ls rest).head?_isMarkChar
          have hrun := ih (List.prefix_append (labelsText (l' :: ls)) rest)
          rw [labelsText_cons, ← labelsText_singleton, List.append_assoc,
            marks_labelsText_append [l] hhead, List.length_append]
          omega

/-- The labels are the longest run at the front: every run there is a
beginning of it. -/
def Longest (cs : List Char) (ls : List Label) : Prop :=
  labelsText ls <+: cs ∧ ∀ ls', labelsText ls' <+: cs → labelsText ls' <+: labelsText ls

theorem exists_longest (cs : List Char) : ∃ ls, Longest cs ls := by
  obtain ⟨ls, hpre, hmarks⟩ := exists_labels cs
  refine ⟨ls, hpre, fun ls' hpre' => List.prefix_of_prefix_length_le hpre' hpre ?_⟩
  have hle := length_le_marks ls' hpre'
  rwa [hmarks] at hle

/-- The text of labels tells them. -/
theorem map_mark_of_labelsText {ls ls' : List Label} (h : labelsText ls = labelsText ls') :
    ls.map Label.mark = ls'.map Label.mark := by
  have hread : ∀ ls, (Token.marks (labelsText ls)).1 = ls.map Label.mark := by
    intro ls
    have hend : ∀ c ∈ ([] : List Char).head?, Token.isMarkChar c = false := nofun
    have hmarks := marks_labelsText_append ls hend
    rw [List.append_nil] at hmarks
    rw [hmarks, Token.marks_eq]
    simp [Token.mark?]
  rw [← hread ls, ← hread ls', h]

/-- **The longest run is read.** -/
theorem Longest.marks_eq {cs : List Char} {ls : List Label} (h : Longest cs ls) :
    Token.marks cs = (ls.map Label.mark, (labelsText ls).length) := by
  obtain ⟨ls', hpre, hmarks⟩ := exists_labels cs
  have hle := length_le_marks ls h.1
  rw [hmarks] at hle
  have htext : labelsText ls' = labelsText ls := (h.2 ls' hpre).eq_of_length_le hle
  rw [hmarks, htext, map_mark_of_labelsText htext]

/-- **A written run is the longest** where the line stops. -/
theorem longest_of_lineStops (ls : List Label) {rest : List Char} (hr : LineStops rest) :
    Longest (labelsText ls ++ rest) ls := by
  have hhead : ∀ c ∈ rest.head?, Token.isMarkChar c = false := by
    intro c hc
    rcases hr c hc with rfl | rfl
    · decide
    · decide
  have hnone : Token.marks rest = ([], 0) := by
    cases rest with
    | nil => simp [Token.marks_eq, Token.mark?]
    | cons c rest =>
        have hinline : isInlineBlank c = false := by
          rcases hr c rfl with rfl | rfl
          · decide
          · decide
        have hsign : c ≠ '#' ∧ c ≠ '^' := by
          rcases hr c rfl with rfl | rfl
          · decide
          · decide
        have hgap : inlineBlanks (c :: rest) = 0 := by simp [inlineBlanks, hinline]
        rw [Token.marks_eq, hgap]
        simp [Token.mark?, hsign]
  refine ⟨List.prefix_append _ _, fun ls' h => ?_⟩
  have hle := length_le_marks ls' h
  rw [marks_labelsText_append ls hhead, hnone] at hle
  exact List.prefix_of_prefix_length_le h (List.prefix_append _ _) hle

/-- A label is at the front if and only if some are read. -/
theorem Longest.ne_nil_iff {cs : List Char} {ls : List Label} (h : Longest cs ls) :
    ls ≠ [] ↔ ∃ l : Label, l.text <+: cs := by
  constructor
  · intro hne
    obtain ⟨l, ls, rfl⟩ := List.exists_cons_of_ne_nil hne
    have hfront : l.text <+: labelsText (l :: ls) := by
      rw [labelsText_cons]
      exact List.prefix_append _ _
    exact ⟨l, hfront.trans h.1⟩
  · rintro ⟨l, hl⟩ rfl
    have hrun : labelsText [l] <+: [] := h.2 [l] (by rwa [labelsText_singleton])
    rw [labelsText_singleton, List.prefix_nil] at hrun
    simp [Label.text] at hrun

/-! ## Comments -/

theorem semicolon_notMem_labelsText (ls : List Label) : ';' ∉ labelsText ls := by
  intro h
  obtain ⟨l, -, hl⟩ := List.mem_flatMap.1 h
  rcases List.mem_append.1 hl with hgap | hrest
  · exact absurd (l.gap.blank _ hgap) (by decide)
  · rcases List.mem_cons.1 hrest with hsign | hname
    · rcases l.sign_cases with hs | hs
      · rw [hs] at hsign
        cases hsign
      · rw [hs] at hsign
        cases hsign
    · exact absurd ((Lexeme.run_whole l.name.whole).2 _ hname) (by decide)

/-- Labels at the front end before any semicolon. -/
theorem length_le_of_semicolon {cs : List Char} {ls : List Label} (h : labelsText ls <+: cs)
    {p : Nat} (hp : cs[p]? = some ';') : (labelsText ls).length ≤ p := by
  by_contra hlt
  obtain ⟨rest, rfl⟩ := h
  rw [List.getElem?_append_left (by omega)] at hp
  exact semicolon_notMem_labelsText ls (List.mem_of_getElem? hp)

/-- **A comment hides no label and adds none.** The longest run is that of
the text before the semicolon. -/
theorem Longest.take {cs : List Char} {ls : List Label} (h : Longest cs ls) {p : Nat}
    (hp : cs[p]? = some ';') : Longest (cs.take p) ls :=
  ⟨List.prefix_take_iff.2 ⟨h.1, length_le_of_semicolon h.1 hp⟩,
    fun ls' h' => h.2 ls' (h'.trans (List.take_prefix p cs))⟩

theorem getElem?_of_commentStart {cs : List Char} {p : Nat}
    (h : Token.commentStart cs = some p) : cs[p]? = some ';' := by
  have hline := ((Token.commentFrom_eq_some_iff false cs p).1 h).1.1
  obtain ⟨behind, hbehind⟩ := lineAhead_isPrefix cs
  obtain ⟨hlt, -⟩ := List.getElem?_eq_some_iff.1 hline
  rw [← hbehind, List.getElem?_append_left hlt, hline]

end Written

namespace Directive

open Daybook.Written

/-! ## Behind the fields -/

/-- **The check for a comment lets every run pass.** -/
theorem addMarks_of_longest {cs : List Char} {ls : List Label} (h : Longest cs ls)
    (values : Pairs Value) : addMarks values cs = if ls = [] then values else
      (values.put "tags" (.texts (Mark.tags (ls.map Label.mark)))).put "links"
        (.texts (Mark.links (ls.map Label.mark))) := by
  have hguard : (Token.commentStart cs).all fun start =>
      decide ((labelsText ls).length ≤ start) := by
    rw [Option.all_eq_true]
    intro p hp
    exact decide_eq_true (length_le_of_semicolon h.1 (getElem?_of_commentStart hp))
  unfold addMarks
  rw [h.marks_eq]
  cases ls with
  | nil => rfl
  | cons l ls => exact if_pos hguard

theorem fields_stamped (kind : String) (values : Pairs Value) (metadata : Metadata) :
    (stamped kind values metadata).Finds fun e _ => e.fields = values.without reserved := by
  rw [stamped]
  split
  · next e he =>
    rw [entryOf] at he
    split at he <;> cases he <;> rfl
  · trivial

theorem fields_afterFields (kind : String) (values : Pairs Value) (cs : List Char) :
    (afterFields kind values cs).Finds fun e _ =>
      e.fields = (addMarks values cs).without reserved := by
  refine (finds_shift ..).2 (finds_andThen (finds_iff.2 fun metadata n _ => ?_))
  exact fields_stamped kind _ metadata

/-- The entry shows the labels as tags and links, or neither if there are
none. -/
structure Shows (e : Entry) (ls : List Label) : Prop where
  tags : e.fields.get? "tags" =
    if ls = [] then none else some (.texts (Mark.tags (ls.map Label.mark)))
  links : e.fields.get? "links" =
    if ls = [] then none else some (.texts (Mark.links (ls.map Label.mark)))

theorem shows_of_longest {e : Entry} {values : Pairs Value} {cs : List Char} {ls : List Label}
    (h : Longest cs ls) (he : e.fields = (addMarks values cs).without reserved)
    (ht : "tags" ∉ values.names) (hl : "links" ∉ values.names) : Shows e ls := by
  rw [addMarks_of_longest h] at he
  by_cases hnone : ls = []
  · rw [if_pos hnone] at he
    constructor
    · rw [he, if_pos hnone, Pairs.get?_without (by decide), Pairs.get?_of_notMem ht]
    · rw [he, if_pos hnone, Pairs.get?_without (by decide), Pairs.get?_of_notMem hl]
  · rw [if_neg hnone] at he
    constructor
    · rw [he, if_neg hnone, Pairs.get?_without (by decide),
        Pairs.get?_put_of_ne (by decide), Pairs.get?_put_self]
    · rw [he, if_neg hnone, Pairs.get?_without (by decide), Pairs.get?_put_self]

/-- An entry's fields are those that were read, with what `addMarks` adds
behind them. -/
theorem fields_read (r : Registry) (kind : String) (fields : List Field) (c : Cursor) :
    ((schema kind fields).read r c).Finds fun e _ =>
      ∃ values k, Field.readAll r fields [] c.rest = .found values k ∧
        e.fields = (addMarks values (c.rest.drop k)).without reserved := by
  show ((readSchema r kind fields c.rest).map (·.locatedAt c.location)).Finds _
  rw [finds_map, readSchema_eq]
  refine finds_andThen (finds_iff.2 fun values k hread => ?_)
  exact (fields_afterFields kind values _).mono fun e _ he => ⟨values, k, hread, he⟩

/-- Where the fields end, the labels start that an entry shows. -/
theorem read_shows {r : Registry} {kind : String} {fields : List Field} {c : Cursor} {e : Entry}
    {n : Nat} (hnames : ∀ f ∈ fields, f.name ≠ "tags" ∧ f.name ≠ "links")
    (h : (schema kind fields).read r c = .found e n) :
    ∃ values k, Field.readAll r fields [] c.rest = .found values k ∧
      ∀ ls, Longest (c.advance k).rest ls → Shows e ls := by
  obtain ⟨values, k, hread, he⟩ := (fields_read r kind fields c).of_eq h
  have hforeign : ∀ name ∈ values.names, name ≠ "tags" ∧ name ≠ "links" := by
    intro name hname
    have hnamed := (Field.names_readAll fields [] c.rest).of_eq hread name hname
    obtain ⟨f, hf, rfl⟩ := List.mem_map.1 (hnamed.resolve_left List.not_mem_nil)
    exact hnames f hf
  refine ⟨values, k, hread, fun ls hls => ?_⟩
  rw [Cursor.rest_advance] at hls
  exact shows_of_longest hls he (fun ht => (hforeign _ ht).1 rfl) fun hl => (hforeign _ hl).2 rfl

/-- The answer for a run of labels. -/
def labelsReading (ls : List Label) : Reading Value :=
  if ls = [] then .absent
  else .found (.list (ls.map fun l => .mark l.mark)) (labelsText ls).length

theorem read_marks_of_longest {cs : List Char} {ls : List Label} (h : Longest cs ls) :
    Shape.marks.read cs = labelsReading ls := by
  rw [Shape.read_marks_eq, h.marks_eq, labelsReading]
  cases ls with
  | nil => rfl
  | cons l ls => simp

/-- **Tags and links of a line.** At every place the longest run of labels
is read, white space before each or none, and reading goes on behind it. It
holds no semicolon and ends before the comment that is searched for. A run
of any labels is read back at the end of a line or before a comment, and
every label goes to one of the lists, which keep the order. An entry of a
schema that names no field for them has tags and links if and only if a
label is what comes behind the fields; then it has those of the longest run
there, which is the longest of the text before any semicolon. -/
theorem labels_behind_fields (c : Cursor) :
    (∃ ls, Longest c.rest ls ∧ Shape.marks.read c.rest = labelsReading ls ∧
      c.rest = labelsText ls ++ (c.advance (labelsText ls).length).rest ∧ ';' ∉ labelsText ls ∧
      ∀ p, Token.commentStart c.rest = some p → (labelsText ls).length ≤ p) ∧
    (∀ ls rest, LineStops rest → c.rest = labelsText ls ++ rest →
      Shape.marks.read c.rest = labelsReading ls ∧
        (c.advance (labelsText ls).length).rest = rest) ∧
    (∀ ms, ((Mark.tags ms).map Mark.tag ++ (Mark.links ms).map Mark.link).Perm ms ∧
      ((Mark.tags ms).map Mark.tag).Sublist ms ∧ ((Mark.links ms).map Mark.link).Sublist ms) ∧
    ∀ r kind fields e n, (∀ f ∈ fields, f.name ≠ "tags" ∧ f.name ≠ "links") →
      (schema kind fields).read r c = .found e n →
      ∃ values k ls, Field.readAll r fields [] c.rest = .found values k ∧
        ((e.fields.get? "tags").isSome ↔ ∃ l : Label, l.text <+: (c.advance k).rest) ∧
        ((e.fields.get? "links").isSome ↔ ∃ l : Label, l.text <+: (c.advance k).rest) ∧
        Shows e ls ∧ Longest (c.advance k).rest ls ∧
        ∀ p, (c.advance k).rest[p]? = some ';' → Longest ((c.advance k).rest.take p) ls := by
  refine ⟨?_, ?_, Mark.split, ?_⟩
  · obtain ⟨ls, hls⟩ := exists_longest c.rest
    refine ⟨ls, hls, read_marks_of_longest hls, ?_, semicolon_notMem_labelsText ls, ?_⟩
    · rw [Cursor.rest_advance]
      exact (List.prefix_iff_eq_append.1 hls.1).symm
    · exact fun p hp => length_le_of_semicolon hls.1 (getElem?_of_commentStart hp)
  · intro ls rest hrest hc
    constructor
    · rw [hc]
      exact read_marks_of_longest (longest_of_lineStops ls hrest)
    · rw [Cursor.rest_advance, hc, List.drop_left]
  · intro r kind fields e n hnames hread
    obtain ⟨values, k, hfields, hshows⟩ := read_shows hnames hread
    obtain ⟨ls, hls⟩ := exists_longest (c.advance k).rest
    have hshown := hshows ls hls
    refine ⟨values, k, ls, hfields, ?_, ?_, hshown, hls, fun p hp => hls.take hp⟩
    · rw [hshown.tags, ← hls.ne_nil_iff]
      by_cases hnone : ls = [] <;> simp [hnone]
    · rw [hshown.links, ← hls.ne_nil_iff]
      by_cases hnone : ls = [] <;> simp [hnone]

/-- The fields of a closing of an account. -/
def closeFields : List Field := Builtin.header "close" ++ [Builtin.account]

/-- Tags and a link, and a comment with what would be a tag. -/
def labelledClose : Cursor := .start "books" "2024-01-01 close Ab #x^y\t#z ; #w\n".toList

/-- A tag and a link. -/
def tagAndLink : List Label := [
  ⟨.none, false, ⟨"x".toList, rfl⟩⟩, ⟨.space, true, ⟨"y".toList, rfl⟩⟩]

/-- The run of the first line ends before its comment, and so does that of
the second, which is written without white space. -/
theorem labels_behind_fields_close :
    (∀ f ∈ closeFields, f.name ≠ "tags" ∧ f.name ≠ "links") ∧
      (∃ e n, (schema "close" closeFields).read ⟨FieldReader.builtin, []⟩ labelledClose =
          .found e n ∧
        e.fields.get? "tags" = some (.texts ["x", "z"]) ∧
        e.fields.get? "links" = some (.texts ["y"]) ∧
        ∃ ls, Longest " #x^y\t#z ; #w\n".toList ls ∧ Longest " #x^y\t#z ".toList ls ∧
          ls.map Label.mark = [.tag "x", .link "y", .tag "z"]) ∧
      LineStops ";#z".toList ∧ Shape.marks.read "#x ^y;#z".toList =
        .found (.list [.mark (.tag "x"), .mark (.link "y")]) 5 := by
  have hnames : ∀ f ∈ closeFields, f.name ≠ "tags" ∧ f.name ≠ "links" := by decide
  have hread : (schema "close" closeFields).read ⟨FieldReader.builtin, []⟩ labelledClose = .found
      ⟨"2024-01-01", [("location", .text "books:1")], .plain "close" [("keyword", .text "close"),
        ("account", .text "Ab"), ("tags", .texts ["x", "z"]), ("links", .texts ["y"])]⟩ 33 := by
    with_unfolding_all rfl
  have hall : Field.readAll ⟨FieldReader.builtin, []⟩ closeFields [] labelledClose.rest = .found
      [("date", .text "2024-01-01"), ("keyword", .text "close"), ("account", .text "Ab")] 19 := by
    with_unfolding_all rfl
  obtain ⟨-, -, -, hentry⟩ := labels_behind_fields labelledClose
  obtain ⟨values, k, ls, hfields, -, -, hshows, hls, hcut⟩ := hentry _ _ _ _ _ hnames hread
  cases hall.symm.trans hfields
  have hmarks : Token.marks (labelledClose.advance 19).rest =
      ([.tag "x", .link "y", .tag "z"], 8) := by
    with_unfolding_all rfl
  have hstops : LineStops ";#z".toList := fun c hc => .inr (Option.some.inj hc).symm
  obtain ⟨-, hwritten, -, -⟩ := labels_behind_fields (.start "books" "#x ^y;#z".toList)
  refine ⟨hnames, ⟨_, _, hread, rfl, rfl, ls, hls, hcut 9 (by decide), ?_⟩, hstops, ?_⟩
  · exact congrArg Prod.fst (hls.marks_eq.symm.trans hmarks)
  · exact (hwritten tagAndLink ";#z".toList hstops rfl).1

end Directive
end Daybook
