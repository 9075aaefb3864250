import Daybook.Proofs.Walk
import Mathlib.Data.List.Forall2

/-!
# Builtin — the grammar of the builtin modules

Every builtin schema is a row of fields with a shape each: a date, a
keyword, and a few more (`Schema`). None of the shapes looks below its
line, so what holds of grammars of such shapes holds of the builtin one.
-/

namespace Daybook

namespace Field

/-- The field is read by the shape. -/
def ReadAs (r : Registry) (f : Field) (s : Shape) : Prop := f.readerIn r = some s.read

theorem ofShape_readAs {r : Registry} {fs : List Field} {ss : List Shape} {p : Shape → Prop}
    (h : List.Forall₂ (ReadAs r) fs ss) (hp : ∀ s ∈ ss, p s) :
    ∀ f ∈ fs, f.OfShape r p := by
  induction h with
  | nil => exact nofun
  | @cons f s fs ss hf _ ih =>
      intro f' hf'
      rcases List.mem_cons.1 hf' with rfl | hmem
      · intro reader hr
        rw [hf] at hr
        cases hr
        exact ⟨s, hp s (by simp), rfl⟩
      · exact ih (fun s' hs' => hp s' (by simp [hs'])) f' hmem

theorem read_of_readAs {f : Field} {r : Registry} {s : Shape} (h : f.ReadAs r s)
    (cs : List Char) : f.read r cs = f.checked r (s.read cs) := by
  rw [read_eq, h]

/-- Without a check, a field is read as its shape is. -/
theorem read_of_none {f : Field} {r : Registry} {s : Shape} (h : f.ReadAs r s)
    (hc : f.check = none) (cs : List Char) : f.read r cs = s.read cs := by
  rw [read_of_readAs h]
  cases s.read cs with
  | absent => rfl
  | broken e => rfl
  | found v n => rw [checked, accepts, hc]

end Field

namespace Builtin

/-- What the names of types and checks stand for by default. -/
def registry : Registry := ⟨FieldReader.builtin, []⟩

/-- The grammar of the builtin modules. -/
def grammar (source : String) : Grammar :=
  { source, directives := Module.allDirectives modules, registry }

@[simp] theorem registry_grammar (source : String) : (grammar source).registry = registry := rfl

theorem parseText_modules (text source : String) :
    parseText text modules source = (grammar source).parse text := rfl

/-- A field of a builtin schema that the shape reads. Only the period of a
budget has a check, and only the date sets the date. -/
structure Plain (f : Field) (s : Shape) : Prop where
  reads : f.ReadAs registry s
  check : f.check = none ∨ f.check = some (.own isPeriod) ∧ s = .string
  name : f.name ≠ "date"

/-- The fields are a date, a keyword, and fields of the given shapes. -/
structure Schema (fields : List Field) (word : String) (shapes : List Shape) : Prop where
  singleLine : '\n' ∉ word.toList
  quoteless : '"' ∉ word.toList
  split : ∃ rest, fields = header word ++ rest ∧ List.Forall₂ Plain rest shapes

/-- The field for the date of a directive. -/
def dateField : Field := { name := "date", type := "date", required := true }

/-- The field for the keyword of a directive. -/
def keywordField (word : String) : Field :=
  { name := "keyword", type := "string", required := true,
    reader := some (Shape.keyword word).read }

theorem header_eq (word : String) : header word = [dateField, keywordField word] := rfl

theorem read_dateField (cs : List Char) : dateField.read registry cs = Shape.date.read cs := by
  have h : dateField.ReadAs registry .date := rfl
  exact Field.read_of_none h rfl cs

theorem read_keywordField (word : String) (cs : List Char) :
    (keywordField word).read registry cs = (Shape.keyword word).read cs := by
  have h : (keywordField word).ReadAs registry (.keyword word) := rfl
  exact Field.read_of_none h rfl cs

/-- The shapes that builtin schemas have behind the keyword. -/
def bodyShapes : List (List Shape) :=
  [[.account, .currencies], [.account], [.account, .amount], [.string, .amount],
    [.account, .quoted], [.account, .amount, .string]]

theorem exists_plain {rest : List Field} {shapes : List Shape}
    (h : List.Forall₂ Plain rest shapes) {f : Field} (hf : f ∈ rest) :
    ∃ s ∈ shapes, Plain f s := by
  induction h with
  | nil => simp at hf
  | cons hplain _ ih =>
      rcases List.mem_cons.1 hf with rfl | hf
      · exact ⟨_, by simp, hplain⟩
      · obtain ⟨s, hs, hp⟩ := ih hf
        exact ⟨s, by simp [hs], hp⟩

theorem plain_account : Plain account .account := ⟨rfl, .inl rfl, by decide⟩

theorem plain_amount : Plain amount .amount := ⟨rfl, .inl rfl, by decide⟩

/-- **The builtin directives**: six schemas, and the one for
transactions. -/
theorem directive_cases {source : String} {d : Directive} (h : d ∈ (grammar source).directives) :
    (∃ kind fields word shapes, d = .schema kind fields ∧ Schema fields word shapes ∧
        shapes ∈ bodyShapes) ∨
      d = .custom "transaction" fun c => Transaction.read c.rest := by
  have hd : d ∈ [openDirective, closeDirective, balanceDirective, priceDirective, noteDirective,
    .custom "transaction" fun c => Transaction.read c.rest, budgetDirective] := h
  simp only [List.mem_cons, List.not_mem_nil, or_false] at hd
  rcases hd with rfl | rfl | rfl | rfl | rfl | rfl | rfl
  · refine .inl ⟨_, _, "open", [.account, .currencies], rfl, ⟨by decide, by decide, _, rfl, ?_⟩,
      by simp [bodyShapes]⟩
    exact .cons plain_account (.cons ⟨rfl, .inl rfl, by decide⟩ .nil)
  · refine .inl ⟨_, _, "close", [.account], rfl, ⟨by decide, by decide, _, rfl, ?_⟩,
      by simp [bodyShapes]⟩
    exact .cons plain_account .nil
  · refine .inl ⟨_, _, "balance", [.account, .amount], rfl, ⟨by decide, by decide, _, rfl, ?_⟩,
      by simp [bodyShapes]⟩
    exact .cons plain_account (.cons plain_amount .nil)
  · refine .inl ⟨_, _, "price", [.string, .amount], rfl, ⟨by decide, by decide, _, rfl, ?_⟩,
      by simp [bodyShapes]⟩
    exact .cons ⟨rfl, .inl rfl, by decide⟩ (.cons plain_amount .nil)
  · refine .inl ⟨_, _, "note", [.account, .quoted], rfl, ⟨by decide, by decide, _, rfl, ?_⟩,
      by simp [bodyShapes]⟩
    exact .cons plain_account (.cons ⟨rfl, .inl rfl, by decide⟩ .nil)
  · exact .inr rfl
  · refine .inl ⟨_, _, "budget", [.account, .amount, .string], rfl,
      ⟨by decide, by decide, _, rfl, ?_⟩, by simp [bodyShapes]⟩
    exact .cons plain_account (.cons plain_amount (.cons ⟨rfl, .inr ⟨rfl, rfl⟩, by decide⟩ .nil))

/-- The fields of a schema with their shapes. -/
theorem Schema.reads {fields : List Field} {word : String} {shapes : List Shape}
    (h : Schema fields word shapes) :
    List.Forall₂ (Field.ReadAs registry) fields (.date :: .keyword word :: shapes) := by
  obtain ⟨rest, rfl, hrest⟩ := h.split
  exact .cons rfl (.cons rfl (hrest.imp fun _ _ hf => hf.reads))

theorem singleLine_bodyShapes : ∀ shapes ∈ bodyShapes, ∀ s ∈ shapes, s.SingleLine := by
  simp [bodyShapes, Shape.SingleLine]

/-- **The builtin directives read nothing below their lines** but
metadata and postings. -/
theorem ofShape_grammar (source : String) : (grammar source).OfShape Shape.SingleLine := by
  intro d hd
  rcases directive_cases hd with ⟨kind, fields, word, shapes, rfl, hs, hmem⟩ | rfl
  · refine Field.ofShape_readAs hs.reads fun s hin => ?_
    rcases List.mem_cons.1 hin with rfl | hin
    · trivial
    · rcases List.mem_cons.1 hin with rfl | hin
      · exact hs.singleLine
      · exact singleLine_bodyShapes shapes hmem s hin
  · rfl

end Builtin
end Daybook
