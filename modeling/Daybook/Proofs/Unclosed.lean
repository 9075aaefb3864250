import Daybook.Proofs.Excerpt
import Daybook.Proofs.Flaw

/-!
# Unclosed — the string that a reading error names

Reading a text fails with an error that a user can mend only at a quoted
string that nothing closes. Whichever fields, headers or metadata lead to
it, the error names the place of its opening quote (`Names`), and the
report shows that place (`Diagnostic.Pinpoints`).
-/

namespace Daybook

open Daybook.Text Daybook.Reading

/-! ## Strings without an end -/

namespace Text.Quoted

/-- Nothing closes the string: from here on a backslash makes the next
character literal, no other character is a quote, and the text ends. -/
inductive Endless : List Char → Prop
  | atEnd : Endless []
  | backslash : Endless ['\\']
  | escaped (c : Char) {rest : List Char} (h : Endless rest) : Endless ('\\' :: c :: rest)
  | plain {c : Char} {rest : List Char} (quote : c ≠ '"') (backslash : c ≠ '\\')
      (h : Endless rest) : Endless (c :: rest)

theorem decode_eq_none_iff {cs : List Char} : decode cs = none ↔ Endless cs := by
  constructor
  · intro h
    fun_induction decode cs with
    | case1 => exact .atEnd
    | case2 => exact .backslash
    | case3 c rest ih => exact .escaped c (ih (Option.map_eq_none_iff.1 h))
    | case4 => cases h
    | case5 c rest hlone hesc hquote ih =>
        have hc := ne_backslash hlone hesc
        exact .plain hquote hc (ih (Option.map_eq_none_iff.1 h))
  · intro h
    induction h with
    | atEnd => rfl
    | backslash => rfl
    | escaped c h ih => rw [decode, ih, Option.map_none]
    | plain quote backslash h ih =>
        rw [decode, if_neg quote, ih, Option.map_none]
        · exact fun hc => absurd hc backslash
        · exact fun _ _ hc => absurd hc backslash

end Text.Quoted

open Text.Quoted

theorem opens_drop_iff {text : List Char} {p : Nat} :
    Opens (text.drop p) ↔ text[p]? = some '"' ∧ Endless (text.drop (p + 1)) := by
  rw [← List.head?_drop, ← List.drop_drop, ← decode_eq_none_iff]
  constructor
  · rintro ⟨rest, hrest, hdecode⟩
    rw [hrest]
    exact ⟨rfl, hdecode⟩
  · rintro ⟨hhead, hdecode⟩
    obtain ⟨rest, hrest⟩ := List.head?_eq_some_iff.1 hhead
    rw [hrest] at hdecode
    exact ⟨rest, hrest, hdecode⟩

/-! ## Where a flaw points -/

/-- When the flaw is that of a string, such a string opens where the flaw
says. Of other flaws nothing is said. -/
def Names (cs : List Char) (f : Flaw) : Prop :=
  ∀ offset, f = .unclosedString offset → Opens (cs.drop offset)

theorem Names.shift {cs : List Char} {k : Nat} {f : Flaw} (h : Names (cs.drop k) f) :
    Names cs (f.shift k) := by
  intro offset hf
  cases f with
  | unclosedString n =>
      cases hf
      rw [← List.drop_drop]
      exact h n rfl
  | _ => cases hf

theorem Fatal.names {cs : List Char} {f : Flaw} (h : Fatal cs f) : Names cs f := by
  intro offset hf
  subst hf
  rcases h with ⟨n, hn, hopens⟩ | h
  · cases hn
    exact hopens
  · cases h

/-- A field of any shape names the string that it meets. -/
theorem Shape.read_names (s : Shape) (cs : List Char) : (s.read cs).Breaks (Names cs) := by
  have hline : s.SingleLine → (s.read cs).Breaks (Names cs) := fun hs =>
    (Shape.read_breaks hs cs).mono fun _ h => Fatal.names (.inl h)
  cases s with
  | object => exact (breaks_map ..).2 ((Metadata.block_breaks 0 cs).mono fun _ => Fatal.names)
  | newline => exact (breaks_map ..).2 (Token.read_breaks ..)
  | literal w => exact (breaks_map ..).2 (Token.read_breaks ..)
  | keyword w => exact (breaks_map ..).2 (Token.read_breaks ..)
  | _ => exact hline trivial

namespace Field

variable {f : Field} {r : Registry}

/-- The field's check does not itself answer that a string is not closed:
that is said of texts, and a check is asked about values. -/
def Quiet (r : Registry) (f : Field) : Prop :=
  ∀ v offset, f.accepts r v ≠ .error (.unclosedString offset)

theorem quiet_of_none (h : f.check = none) : f.Quiet r := by
  intro v offset herror
  rw [accepts, h] at herror
  cases herror

theorem read_names (h : f.OfShape r fun _ => True) (hq : f.Quiet r) (cs : List Char) :
    (f.read r cs).Breaks (Names cs) := by
  rw [read_eq]
  cases hr : f.readerIn r with
  | none =>
      intro offset hf
      cases hf
  | some reader =>
      obtain ⟨s, -, rfl⟩ := h reader hr
      -- the flaw is the reader's or the check's, and the check is quiet
      apply checked_breaks (s.read_names cs)
      apply finds_iff.2
      rintro v n - e he offset rfl
      exact absurd he (hq v offset)

end Field

namespace Directive

/-- The checks of the directive's fields are quiet. -/
def Quiet (r : Registry) (d : Directive) : Prop := ∀ f ∈ d.fields, f.Quiet r

/-- A date that is no text is no matter of strings. -/
theorem stamped_names (kind : String) (values : Pairs Value) (metadata : Metadata)
    (cs : List Char) : (stamped kind values metadata).Breaks (Names cs) := by
  rw [stamped, entryOf]
  split
  · trivial
  · next f h =>
    split at h
    · cases h
    · cases h
    · cases h
      intro offset hf
      cases hf

/-- **A directive names the string that it meets**, in its fields, in the
metadata below or in a transaction. -/
theorem body_names {r : Registry} {d : Directive} (h : d.OfShape r fun _ => True)
    (hq : d.Quiet r) (cs : List Char) : (d.body r cs).Breaks (Names cs) := by
  cases d with
  | schema kind fields =>
      show (readSchema r kind fields cs).Breaks _
      rw [readSchema_eq]
      have hfields : (Field.readAll r fields [] cs).Breaks (Names cs) :=
        Field.readAll_breaks (fun _ _ _ => .shift)
          (fun f hf => Field.read_names (h f hf) (hq f hf)) [] cs
      apply Breaks.andThen (fun _ _ => .shift) hfields
      intro values k
      apply Breaks.shift (fun _ _ => .shift)
      apply Breaks.andThen (fun _ _ => .shift)
      · exact (metadataBelow_breaks _).mono fun _ => Fatal.names
      · exact fun metadata n => stamped_names ..
  | custom kind read => exact (Transaction.read_breaks cs).mono fun _ => Fatal.names

end Directive

/-- A string that is never closed opens at `d`, which is the cursor or
lies behind it. -/
def Cursor.OpensAt (c d : Cursor) : Prop := ∃ p, Opens (c.rest.drop p) ∧ d = c.advance p

theorem Cursor.OpensAt.of_advance {c d : Cursor} {k : Nat} (h : (c.advance k).OpensAt d) :
    c.OpensAt d := by
  obtain ⟨p, hopens, rfl⟩ := h
  rw [Cursor.rest_advance, List.drop_drop] at hopens
  exact ⟨k + p, hopens, Cursor.advance_advance ..⟩

namespace Grammar

variable {g : Grammar} {c d : Cursor}

/-- The checks of the grammar's fields are quiet. -/
def Quiet (g : Grammar) : Prop := ∀ d ∈ g.directives, d.Quiet g.registry

theorem entryAt_unclosed (h : g.OfShape fun _ => True) (hq : g.Quiet)
    (he : g.entryAt c = .error (.unclosedString d)) : c.OpensAt d := by
  have hnames : (firstBody g.registry c.rest g.directives).Breaks (Names c.rest) :=
    firstBody_breaks fun dir hdir => Directive.body_names (h dir hdir) (hq dir hdir) c.rest
  obtain ⟨flaw, hbody, hfault⟩ := exists_flaw_of_entryAt h he
  rw [hbody] at hnames
  cases flaw with
  | unclosedString offset =>
      cases hfault
      exact ⟨offset, hnames offset rfl, rfl⟩
  | _ => cases hfault

/-- **The walk ends at a string that opens ahead** and is never closed. -/
theorem items_unclosed (h : g.OfShape fun _ => True) (hq : g.Quiet)
    (hf : (g.items c).2 = some (.unclosedString d)) : c.OpensAt d := by
  induction c using walk_induction g with
  | skip c hg ih =>
      rw [items_gap hg] at hf
      exact (ih hf).of_advance
  | done c hr => simp [items_nil hr] at hf
  | broken c f hg hr he =>
      rw [items_broken hg hr he] at hf
      cases hf
      exact entryAt_unclosed h hq he
  | stalled c e hg hr he => simp [items_stalled hg hr he] at hf
  | found c e n hg hr he hn ih =>
      rw [items_found hg hr he hn] at hf
      exact (ih hf).of_advance

end Grammar

/-! ## The report -/

/-- Of the faults that a user can mend, only a string that is not closed
has to do with the text. -/
theorem Fault.eq_unclosedString {f : Fault} {d : Diagnostic} (hd : f.diagnostic? = some d)
    (hk : d.kind = .reading) : ∃ c, f = .unclosedString c := by
  cases f with
  | unclosedString c => exact ⟨c, rfl⟩
  | _ =>
      cases hd
      try cases hk

open Context

/-- The diagnostic says where the string opens that nothing closes, at
place `p` of the text. The context names the line and column of the
place. What is rendered is the place, the lines from two before to two
behind, each behind its number, with the marker below the line of the
place, and the message. Above the first caret of the marker stands the
opening quote. -/
structure Diagnostic.Pinpoints (d : Diagnostic) (source : String) (text : List Char)
    (p line column : Nat) : Prop where
  quote : text[p]? = some '"'
  endless : Endless (text.drop (p + 1))
  onLine : line = Grammar.lineAt text p
  inside : line ≤ (lines text).length
  atColumn : ColumnAt text p column
  context : ∃ c, d.context = some c ∧ c.source = source ∧ c.line = line ∧ c.column = column
  message : d.message = "Unterminated string at line " ++ toString line
  render : d.render = source ++ ":" ++ toString line ++ ":" ++ toString column ++ "\n" ++
    String.ofList (unlines (shown (lines text) line column)) ++ "\n" ++ d.message
  caret : ∃ spaces, marker line column = List.replicate spaces ' ' ++ "^^^".toList ∧
    (row (lines text) line)[spaces]? = some '"'

/-- The marker's first caret stands below the character of the place. -/
theorem Context.marker_below {ls : List (List Char)} {l : List Char} {line column : Nat} {ch : Char}
    (hcolumn : 0 < column) (hl : ls[line - 1]? = some l) (hch : l[column - 1]? = some ch) :
    ∃ spaces, marker line column = List.replicate spaces ' ' ++ "^^^".toList ∧
      (row ls line)[spaces]? = some ch := by
  refine ⟨(gutter line).length + (column - 1), ?_, ?_⟩
  · have hcount : (((gutter line).length : Int) + column - 1).toNat =
        (gutter line).length + (column - 1) := by omega
    rw [marker, hcount]
  · rw [row, hl, Option.getD_some, List.getElem?_append_right (Nat.le_add_right ..),
      Nat.add_sub_cancel_left, hch]

/-- **The diagnostic of a string that is not closed shows where it
opens.** -/
theorem Fault.pinpoints {source : String} {text : List Char} {c : Cursor}
    (h : (Cursor.start source text).OpensAt c) {d : Diagnostic}
    (hd : (Fault.unclosedString c).diagnostic? = some d) :
    ∃ p line column, d.Pinpoints source text p line column := by
  obtain ⟨p, hopens, rfl⟩ := h
  rw [Cursor.rest_start] at hopens
  obtain ⟨hquote, hendless⟩ := opens_drop_iff.1 hopens
  have hlt : p < text.length := (List.getElem?_eq_some_iff.1 hquote).1
  have hposition : ((Cursor.start source text).advance p).position = p := by
    rw [Cursor.position_advance_of_le (Nat.le_of_lt hlt)]
    exact Nat.zero_add p
  have hwithin := (Cursor.within_start source text).advance p
  -- how the cursor got there does not matter any more, only what it counts
  generalize (Cursor.start source text).advance p = c at hd hwithin hposition
  have honLine := hwithin.line
  have hatColumn := hwithin.column
  rw [hposition] at honLine hatColumn
  obtain ⟨l, hl, hch⟩ := hatColumn.getElem?_line hquote (by decide)
  rw [← honLine] at hl
  have hpos : 0 < c.line := by
    rw [honLine, Grammar.lineAt]
    omega
  -- the quote is on the line, so the report has something to show
  have hne : l ≠ [] := by
    rintro rfl
    simp at hch
  have hrender := Context.render_contextOf hpos (hwithin.ofText ▸ hl) hne
  rw [hwithin.ofText, hwithin.ofSource] at hrender
  cases hd
  have hinside : c.line ≤ (lines text).length := honLine ▸ lineAt_le_length_lines text p
  refine ⟨p, c.line, c.column, hquote, hendless, honLine, hinside, hatColumn,
    ⟨_, rfl, hwithin.ofSource, rfl, rfl⟩, rfl, ?_, Context.marker_below hatColumn.pos hl hch⟩
  show (Fault.contextOf c).render ++ "\n" ++ _ = _
  rw [hrender]

/-- **A reading error pinpoints a string.** With schemas of any of the
library's shapes and quiet checks, and transactions: when reading a text
fails at what is written in it, the diagnostic shows where a string opens
that nothing closes. -/
theorem Grammar.parse_pinpoints {g : Grammar} (h : g.OfShape fun _ => True) (hq : g.Quiet)
    {text : String} {f : Fault} (hf : g.parse text = .error f) {d : Diagnostic}
    (hd : f.diagnostic? = some d) (hk : d.kind = .reading) :
    ∃ p line column, d.Pinpoints g.source text.toList p line column := by
  obtain ⟨c, rfl⟩ := Fault.eq_unclosedString hd hk
  exact Fault.pinpoints (items_unclosed h hq (parse_eq_error_iff.1 hf)) hd

namespace Builtin

/-- The check of a period refuses what is no text, and says nothing of
strings. -/
theorem isPeriod_ne_unclosedString (v : Value) (offset : Nat) :
    isPeriod v ≠ .error (.unclosedString offset) := by
  intro herror
  rw [isPeriod.eq_def] at herror
  split at herror <;> cases herror

/-- **The checks of the builtin directives are quiet.** -/
theorem quiet_grammar (source : String) : (grammar source).Quiet := by
  intro d hd f hf
  rcases directive_cases hd with ⟨kind, fields, word, shapes, rfl, hs, -⟩ | rfl
  · obtain ⟨rest, rfl, hrest⟩ := hs.split
    rcases List.mem_append.1 hf with hf | hf
    · rw [header_eq, List.mem_pair] at hf
      rcases hf with rfl | rfl
      · exact Field.quiet_of_none rfl
      · exact Field.quiet_of_none rfl
    · obtain ⟨s, -, hplain⟩ := exists_plain hrest hf
      rcases hplain.check with hnone | ⟨hperiod, -⟩
      · exact Field.quiet_of_none hnone
      · intro v offset
        rw [Field.accepts, hperiod]
        exact isPeriod_ne_unclosedString v offset
  · cases hf

/-- A note on the fourth of seven lines whose comment nothing closes. -/
def openNote : String := "; a\n; b\n; c\n2024-01-01 note Ab \"x\n; \\\"\n; e\n; f"

/-- The report of the note's comment. -/
theorem parse_pinpoints_openNote : ∃ f d, (grammar "books").parse openNote = .error f ∧
    f.diagnostic? = some d ∧ d.kind = .reading ∧
    ∃ p line column, d.Pinpoints "books" openNote.toList p line column := by
  have hf : (grammar "books").parse openNote =
      .error (.unclosedString ((Cursor.start "books" openNote.toList).advance 31)) := by
    with_unfolding_all rfl
  have hshape : (grammar "books").OfShape fun _ => True := fun d hd =>
    (ofShape_grammar "books" d hd).mono fun _ _ => trivial
  exact ⟨_, _, hf, rfl, rfl,
    Grammar.parse_pinpoints hshape (quiet_grammar "books") hf rfl rfl⟩

end Builtin
end Daybook
