import Daybook.Proofs.Concatenation
import Daybook.Proofs.Labels

/-!
# Lookup — fields by their names

The fields of a directive share one space of names with what every entry
has. A field's value is set once, since its name is no other field's, and
what is read behind it leaves it as it is (`get?_readAll`). So looking its
name up gives what was read, or what the field gives when it is left out,
unless something that every entry has is under that name and hides it
(`hidden`): its place, or an attribute of the class.
-/

namespace Daybook

open Daybook.Text Daybook.Reading

/-! ## Values of fields in a row -/

namespace Field

variable {r : Registry}

/-- What a field gives for what was read in its place: the value, or if the
field may be left out and is, its default if it has one. -/
inductive Gives (f : Field) : Reading Value → Option Value → Prop
  | read (v : Value) (n : Nat) : Gives f (.found v n) (some v)
  | leftOut (optional : f.required = false) : Gives f .absent f.fallback

/-- What a field gives is in the end under its name. -/
theorem get?_readAll {f : Field} {after : List Field} {values : Pairs Value}
    (hvalues : f.name ∉ values.names) (hafter : f.name ∉ after.map (·.name)) (cs : List Char) :
    (readAll r (f :: after) values cs).Finds fun vs _ =>
      Gives f (f.read r (cs.drop (inlineBlanks cs))) (vs.get? f.name) := by
  have hothers : ∀ g ∈ after, g.name ≠ f.name := fun g hg he =>
    hafter (he ▸ List.mem_map_of_mem hg)
  refine readAll_cons_finds (fun v n hv => ?_) fun hreq habsent => ?_
  · refine (get?_readAll_of_ne hothers _ _).mono fun vs _ hvs => ?_
    rw [hvs, Pairs.get?_put_self, hv]
    exact .read v n
  · refine (get?_readAll_of_ne hothers _ _).mono fun vs _ hvs => ?_
    have hgiven : (f.orElse values).get? f.name = f.fallback := by
      rw [orElse]
      split
      · next hnone => rw [Pairs.get?_of_notMem hvalues, hnone]
      · next v hsome => rw [Pairs.get?_put_self, hsome]
    rw [hvs, hgiven, habsent]
    exact .leftOut hreq

end Field

/-! ## Entries of a schema -/

/-- A plain entry shows its fields behind what every entry has. -/
theorem Entry.get?_plain {e : Entry} {kind name : String} {fields : Pairs Value}
    (h : e.detail = .plain kind fields) (hname : name ∉ Directive.reserved)
    (hplace : name ≠ "location") : e.get? name = (e.fields.get? name).map .value := by
  have hne : ∀ own ∈ Directive.reserved, name ≠ own := by
    rintro own hown rfl
    exact hname hown
  rw [Entry.get?, if_neg (hne "kind" (by decide)), if_neg (hne "date" (by decide)),
    if_neg (hne "meta" (by decide)), if_neg hplace, Entry.fields, h]

/-- The place of an entry hides a field of that name. -/
theorem Entry.get?_location (e : Entry) : e.get? "location" = some (.ofScalar? e.location) := rfl

namespace Directive

variable {r : Registry} {kind : String}

theorem stamped_plain (values : Pairs Value) (metadata : Metadata) :
    (stamped kind values metadata).Finds fun e _ => ∃ fields, e.detail = .plain kind fields := by
  rw [stamped]
  split
  · next e he =>
    rw [entryOf] at he
    split at he <;> cases he <;> exact ⟨_, rfl⟩
  · trivial

/-- What a schema reads is a plain entry of its kind. -/
theorem read_plain (fields : List Field) (c : Cursor) :
    ((schema kind fields).read r c).Finds fun e _ => ∃ values, e.detail = .plain kind values := by
  show ((readSchema r kind fields c.rest).map (·.locatedAt c.location)).Finds _
  rw [finds_map, readSchema_eq]
  refine finds_andThen (finds_iff.2 fun values k _ => ?_)
  refine (finds_shift ..).2 (finds_andThen (finds_iff.2 fun metadata n _ => ?_))
  exact stamped_plain _ metadata

/-- The place is stamped into what is read. -/
theorem read_location (d : Directive) (c : Cursor) :
    (d.read r c).Finds fun e _ => e.location = some (.text c.location) := by
  cases d <;> exact (finds_map ..).2 (finds_iff.2 fun e _ _ => Entry.location_locatedAt e _)

/-- The names of an entry's own data, of its tags and of its links tell no
field; under every other name the fields keep what was read. -/
theorem get?_without_reserved {name : String} (hname : name ∉ ownNames) (values : Pairs Value)
    (cs : List Char) : ((addMarks values cs).without reserved).get? name = values.get? name := by
  have hne : ∀ own ∈ ownNames, own ≠ name := by
    rintro own hown rfl
    exact hname hown
  rw [Pairs.get?_without fun h => hname (List.mem_append_left _ h),
    get?_addMarks (hne "tags" (by decide)) (hne "links" (by decide))]

/-- What a field of an entry gives is among the entry's fields. -/
theorem get?_fields {before after : List Field} {f : Field} {c : Cursor} {e : Entry} {n : Nat}
    (hnames : ((before ++ f :: after).map (·.name)).Nodup) (hf : f.name ∉ ownNames)
    (h : (schema kind (before ++ f :: after)).read r c = .found e n) :
    ∃ values k, Field.readAll r before [] c.rest = .found values k ∧
      f.Gives (f.read r (c.advance k).skipBlanks.rest) (e.fields.get? f.name) := by
  obtain ⟨all, k, hall, he⟩ := (fields_read r kind _ c).of_eq h
  rw [List.map_append, List.map_cons] at hnames
  obtain ⟨-, hrest, hapart⟩ := List.nodup_append.1 hnames
  rw [he, get?_without_reserved hf]
  rw [Field.readAll_append] at hall
  cases hbefore : Field.readAll r before [] c.rest with
  | absent => simp [hbefore, Reading.andThen] at hall
  | broken e => simp [hbefore, Reading.andThen] at hall
  | found values m =>
      have hvalues : f.name ∉ values.names := by
        intro hmem
        have hnamed := (Field.names_readAll before [] c.rest).of_eq hbefore f.name hmem
        exact hapart _ (hnamed.resolve_left List.not_mem_nil) _ List.mem_cons_self rfl
      have hgives : ((Field.readAll r (f :: after) values (c.rest.drop m)).shift m).Finds
          fun vs _ => f.Gives (f.read r (c.advance m).skipBlanks.rest) (vs.get? f.name) :=
        (finds_shift ..).2 (Field.get?_readAll hvalues (List.nodup_cons.1 hrest).1 _)
      rw [hbefore] at hall
      exact ⟨values, m, rfl, hgives.of_eq hall⟩

/-- What hides a field of the name: an attribute of the class, or else the
place of the entry that is read at the cursor. -/
def hidden {α : Type} (ofClass : String → Option α) (c : Cursor) (name : String) :
    Option (α ⊕ Shown) :=
  match ofClass name with
  | some a => some (.inl a)
  | none => if name = "location" then some (.inr (.value (.text c.location))) else none

theorem get_eq_hidden_getD {α : Type} {ofClass : String → Option α} {c : Cursor} {e : Entry}
    {values : Pairs Value} {name : String} {given : Option Value}
    (hplain : e.detail = .plain kind values) (hplace : e.location = some (.text c.location))
    (hname : name ∉ ownNames) (hgiven : e.fields.get? name = given) (d : α ⊕ Shown) :
    e.get ofClass name d =
      (hidden ofClass c name).getD ((given.map fun v => .inr (.value v)).getD d) := by
  rw [Entry.get, hidden]
  cases ofClass name with
  | some a => rfl
  | none =>
      simp only
      by_cases hlocation : name = "location"
      · subst hlocation
        rw [Entry.get?_location, hplace]
        rfl
      · rw [Entry.get?_plain hplain (fun h => hname (List.mem_append_left _ h)) hlocation, hgiven,
          if_neg hlocation, Option.map_map]
        rfl

/-- **Looking up a field.** Where a directive of distinctly named fields
finds an entry, the fields before a field are read up to some place, and
behind the blanks there the field gives a value or nothing. Looking its name
up gives that value, or else the default of the look-up, unless an attribute
of the class or the entry's place is under the name and hides it. -/
theorem get_field {before after : List Field} {f : Field} {c : Cursor} {e : Entry} {n : Nat}
    (hnames : ((before ++ f :: after).map (·.name)).Nodup)
    (hown : ∀ g ∈ before ++ f :: after, g.name ∉ ownNames)
    (h : (schema kind (before ++ f :: after)).read r c = .found e n) :
    ∃ values k given, Field.readAll r before [] c.rest = .found values k ∧
      f.Gives (f.read r (c.advance k).skipBlanks.rest) given ∧
      ∀ (α : Type) (ofClass : String → Option α) (d : α ⊕ Shown), e.get ofClass f.name d =
        (hidden ofClass c f.name).getD ((given.map fun v => .inr (.value v)).getD d) := by
  have hf : f.name ∉ ownNames := hown f (List.mem_append_right _ List.mem_cons_self)
  obtain ⟨values, k, hbefore, hgives⟩ := get?_fields hnames hf h
  obtain ⟨shown, hplain⟩ := (read_plain _ c).of_eq h
  have hplace := (read_location _ c).of_eq h
  refine ⟨values, k, _, hbefore, hgives, fun α ofClass d => ?_⟩
  exact get_eq_hidden_getD hplain hplace hf rfl d

/-- Without an attribute of the name, nothing but the name of the place
hides a field. -/
theorem hidden_eq_none {α : Type} {ofClass : String → Option α} {name : String}
    (h : ofClass name = none) (hname : name ≠ "location") (c : Cursor) :
    hidden ofClass c name = none := by
  rw [hidden, h]
  exact if_neg hname

/-- A note, and a period that may be left out. -/
def noteFields : List Field := [
  { name := "note", type := "string", required := true },
  { name := "period", type := "string", fallback := some (.text "monthly") }]

/-- A note without a period. -/
def noteLine : Cursor := .start "books" "rent\n".toList

/-- The note shows what was read, and the period its default. -/
theorem get_field_note : (noteFields.map (·.name)).Nodup ∧
    (∀ g ∈ noteFields, g.name ∉ ownNames) ∧
    ∃ e n, (schema "note" noteFields).read ⟨FieldReader.builtin, []⟩ noteLine = .found e n ∧
      ∀ (α : Type) (ofClass : String → Option α) (d : α ⊕ Shown),
        (ofClass "note" = none → e.get ofClass "note" d = .inr (.value (.text "rent"))) ∧
        (ofClass "period" = none → e.get ofClass "period" d = .inr (.value (.text "monthly"))) := by
  have hnames : (noteFields.map (·.name)).Nodup := by decide
  have hown : ∀ g ∈ noteFields, g.name ∉ ownNames := by decide
  have hread : (schema "note" noteFields).read ⟨FieldReader.builtin, []⟩ noteLine =
      .found ⟨"", [("location", .text "books:1")],
        .plain "note" [("note", .text "rent"), ("period", .text "monthly")]⟩ 5 := by
    with_unfolding_all rfl
  refine ⟨hnames, hown, _, _, hread, fun α ofClass d => ⟨fun hnone => ?_, fun hnone => ?_⟩⟩
  · obtain ⟨values, k, given, hbefore, hgives, hget⟩ :=
      @get_field _ _ [] _ _ noteLine _ _ hnames hown hread
    cases hbefore
    have hnote : Field.read ⟨"note", "string", true, none, none, none⟩ ⟨FieldReader.builtin, []⟩
        (noteLine.advance 0).skipBlanks.rest = .found (.text "rent") 4 := by
      with_unfolding_all rfl
    rw [hnote] at hgives
    cases hgives
    rw [hget, hidden_eq_none hnone (by decide)]
    rfl
  · obtain ⟨values, k, given, hbefore, hgives, hget⟩ :=
      @get_field _ _ [_] _ _ noteLine _ _ hnames hown hread
    have hall : Field.readAll ⟨FieldReader.builtin, []⟩
        [⟨"note", "string", true, none, none, none⟩] [] noteLine.rest =
          .found [("note", .text "rent")] 4 := by
      with_unfolding_all rfl
    cases hall.symm.trans hbefore
    have hperiod : Field.read ⟨"period", "string", false, some (.text "monthly"), none, none⟩
        ⟨FieldReader.builtin, []⟩ (noteLine.advance 4).skipBlanks.rest = .absent := by
      with_unfolding_all rfl
    rw [hperiod] at hgives
    cases hgives
    rw [hget, hidden_eq_none hnone (by decide)]
    rfl

/-- A field of the name under which every entry shows its place. -/
def locationField : Field := { name := "location", type := "string", required := true }

/-- **A field named for the place is read and hidden.** The text gives the
value of the only field, and looking the field up gives the place. -/
theorem get_locationField : locationField.name ∉ ownNames ∧
    locationField.read ⟨FieldReader.builtin, []⟩ "foo\n".toList = .found (.text "foo") 3 ∧
    ∃ e, (schema "card" [locationField]).read ⟨FieldReader.builtin, []⟩
        (.start "stdin" "foo\n".toList) = .found e 4 ∧
      e.fields = [("location", .text "foo")] ∧
      e.get (fun _ => (none : Option Empty)) "location" (.inr (.value .null)) =
        .inr (.value (.text "stdin:1")) ∧
      e.get (fun _ => (none : Option Empty)) "location" (.inr (.value .null)) ≠
        .inr (.value (.text "foo")) := by
  have hread : (schema "card" [locationField]).read ⟨FieldReader.builtin, []⟩
      (.start "stdin" "foo\n".toList) = .found ⟨"", [("location", .text "stdin:1")],
        .plain "card" [("location", .text "foo")]⟩ 4 := by
    with_unfolding_all rfl
  refine ⟨by decide, by with_unfolding_all rfl, _, hread, rfl, rfl, ?_⟩
  show (.inr (.value (.text "stdin:1")) : Empty ⊕ Shown) ≠ _
  simp

end Directive
end Daybook
