import Daybook.Proofs.LongInteger

/-!
# Outcome — how reading a text ends

With the builtin modules, reading ends in entries, at a quoted string
that nothing closes, or at an integer with too many digits. Nothing else
can happen, and the last happens exactly when the reading comes to such
an integer.
-/

namespace Daybook

open Daybook.Text Daybook.Reading

namespace Builtin

variable {source : String}

/-- The fault is that of a string that opens at the cursor or behind it
and is never closed, or of an integer with too many digits. -/
def EndsReading (c : Cursor) (f : Fault) : Prop :=
  (∃ p, Opens (c.rest.drop p) ∧ f = .unclosedString (c.advance p)) ∨ f = .integerTooLong

theorem EndsReading.of_advance {c : Cursor} {f : Fault} {k : Nat}
    (h : EndsReading (c.advance k) f) : EndsReading c f := by
  rcases h with ⟨p, hopens, rfl⟩ | rfl
  · rw [Cursor.rest_advance, List.drop_drop] at hopens
    exact .inl ⟨k + p, hopens, by rw [Cursor.advance_advance]⟩
  · exact .inr rfl

theorem entryAt_fault {c : Cursor} {f : Fault} (h : (grammar source).entryAt c = .error f) :
    EndsReading c f := by
  have hbreaks : (Grammar.firstBody registry c.rest (grammar source).directives).Breaks
      (Fatal c.rest) := Grammar.firstBody_breaks fun d hd => Directive.body_breaks hd c.rest
  obtain ⟨flaw, hbody, hfault⟩ := Grammar.exists_flaw_of_entryAt (ofShape_grammar source) h
  rw [registry_grammar] at hbody
  rw [hbody] at hbreaks
  rcases hbreaks with ⟨offset, rfl, hopens⟩ | rfl
  · exact .inl ⟨offset, hopens, hfault⟩
  · exact .inr hfault

/-- **Only two faults end the walk.** -/
theorem items_fault {c : Cursor} {f : Fault} (h : ((grammar source).items c).2 = some f) :
    EndsReading c f := by
  induction c using Grammar.walk_induction (grammar source) with
  | skip c hg ih =>
      rw [Grammar.items_gap hg] at h
      exact (ih h).of_advance
  | done c hr => simp [Grammar.items_nil hr] at h
  | broken c f' hg hr he =>
      rw [Grammar.items_broken hg hr he] at h
      cases h
      exact entryAt_fault he
  | stalled c e hg hr he =>
      have hn : 0 < 0 := Grammar.entryAt_pos (ofShape_grammar source) hr he
      exact absurd hn (Nat.lt_irrefl 0)
  | found c e n hg hr he hn ih =>
      rw [Grammar.items_found hg hr he hn] at h
      exact (ih h).of_advance

/-! ## The answers -/

/-- The answer is what a text may get: entries, or the fault of a string
that opens somewhere in the text and is never closed. -/
def Proper (source text : String) : Except Fault (List Entry) → Prop
  | .ok _ => True
  | .error f => ∃ p, Opens (text.toList.drop p) ∧
      f = .unclosedString ((Cursor.start source text.toList).advance p)

/-- Reading the text comes to an unquoted integer of metadata that has
more digits than are read. -/
def MeetsLongInteger (source text : String) : Prop :=
  Metadata.Meets (grammar source).ComesTo text.toList

theorem parseText_eq_integerTooLong (text source : String) :
    parseText text modules source = .error .integerTooLong ↔ MeetsLongInteger source text := by
  rw [parseText_modules, Grammar.parse_eq_error_iff]
  exact Grammar.items_tooLong (.start source text.toList)

theorem parseText_error {text source : String} {f : Fault}
    (h : parseText text modules source = .error f) :
    (∃ p, Opens (text.toList.drop p) ∧
        f = .unclosedString ((Cursor.start source text.toList).advance p)) ∨
      f = .integerTooLong := by
  rw [parseText_modules, Grammar.parse_eq_error_iff] at h
  exact items_fault h

/-- **A text gets a proper answer unless its reading comes to an integer
with too many digits**; then that fault is the answer. -/
theorem parseText_outcome (text source : String) :
    Proper source text (parseText text modules source) ∧ ¬MeetsLongInteger source text ∨
      parseText text modules source = .error .integerTooLong ∧ MeetsLongInteger source text := by
  rw [← parseText_eq_integerTooLong]
  cases hp : parseText text modules source with
  | ok es => exact .inl ⟨trivial, nofun⟩
  | error f =>
      rcases parseText_error hp with ⟨p, hopens, rfl⟩ | rfl
      · exact .inl ⟨⟨p, hopens, rfl⟩, nofun⟩
      · exact .inr ⟨rfl, rfl⟩

/-! ## A text that meets too long an integer -/

theorem trim_replicate {c : Char} (h : isBlank c = false) (n : Nat) :
    trim (List.replicate n c) = List.replicate n c := by
  simp [trim, dropTrailing, h]

theorem longInteger_replicate {n : Nat} (h : Metadata.maxDigits < n) :
    Metadata.LongInteger (List.replicate n '1') := by
  have hne : n ≠ 0 := by
    rintro rfl
    exact absurd h (Nat.not_lt_zero _)
  have hline : lineAhead (List.replicate n '1') = List.replicate n '1' :=
    lineAhead_eq_self (by simp)
  have hsign : Numeral.splitSign (List.replicate n '1') = (false, List.replicate n '1') := by
    cases n with
    | zero => exact absurd rfl hne
    | succ n => rfl
  refine ⟨by simp [List.head?_replicate, hne], ⟨false, List.replicate n '1', none⟩, ?_, by simpa⟩
  rw [hline, trim_replicate (by decide), Numeral.integer?, hsign]
  simp [hne, show isDecimalDigit '1' = true by decide]

/-- The text before the value of a key. -/
def keyFront : List Char := "2024-01-01 close Ab\n  k: ".toList

/-- An entry whose metadata holds an integer: a one, and more digits. -/
def closeWith (digits : List Char) : List Char := keyFront ++ '1' :: digits

/-- The reading of such an entry comes to the integer. -/
theorem closeWith_comesTo (source : String) (digits : List Char) :
    (grammar source).ComesTo (closeWith digits) ('1' :: digits) := by
  have hgap : Grammar.gap (closeWith digits) = 0 := by with_unfolding_all rfl
  have hne : closeWith digits ≠ [] := by simp [closeWith]
  have hopen : openDirective.body registry (closeWith digits) = .absent := by with_unfolding_all rfl
  have htries : (grammar source).Tries (closeWith digits) closeDirective :=
    ⟨[openDirective], _, rfl, fun d hd => by rw [List.mem_singleton.1 hd, registry_grammar, hopen]⟩
  have hfields : Field.readAll registry closeDirective.fields [] (closeWith digits) =
      .found [("date", .text "2024-01-01"), ("keyword", .text "close"),
        ("account", .text "Ab")] 19 := by with_unfolding_all rfl
  have hbelow : ((closeWith digits).drop 19).drop (lineLength ((closeWith digits).drop 19)) =
      ' ' :: ' ' :: 'k' :: ':' :: ' ' :: '1' :: digits := by with_unfolding_all rfl
  refine .here hgap hne htries ⟨_, 19, hfields, ?_⟩
  rw [hbelow]
  have hwidth : indentWidth (' ' :: ' ' :: 'k' :: ':' :: ' ' :: '1' :: digits) = 2 := by
    with_unfolding_all rfl
  have hkey : Metadata.key? ('k' :: ':' :: ' ' :: '1' :: digits) = some (['k'], 3) := by
    with_unfolding_all rfl
  exact .here (Nat.le_of_eq hwidth.symm) (by rw [hwidth]; exact hkey)

/-- Metadata with an integer of 4301 digits. -/
def longClose : String := String.ofList (closeWith (List.replicate 4300 '1'))

theorem meetsLongInteger_longClose (source : String) : MeetsLongInteger source longClose := by
  have hlong : Metadata.LongInteger ('1' :: List.replicate 4300 '1') :=
    longInteger_replicate (show Metadata.maxDigits < 4301 by decide)
  refine ⟨'1' :: List.replicate 4300 '1', ?_, hlong⟩
  rw [longClose, String.toList_ofList]
  exact closeWith_comesTo source _

theorem parseText_longClose : ¬Proper "books" longClose (parseText longClose modules "books") := by
  have hlong : Metadata.LongInteger ('1' :: List.replicate 4300 '1') :=
    longInteger_replicate (show Metadata.maxDigits < 4301 by decide)
  have hmeets : MeetsLongInteger "books" longClose := by
    refine ⟨'1' :: List.replicate 4300 '1', ?_, hlong⟩
    rw [longClose, String.toList_ofList]
    exact closeWith_comesTo "books" _
  rw [(parseText_eq_integerTooLong longClose "books").2 hmeets]
  rintro ⟨p, -, hf⟩
  cases hf

end Builtin
end Daybook
