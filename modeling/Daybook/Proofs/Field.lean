import Daybook.Proofs.Token.Amount
import Daybook.Proofs.Metadata
import Daybook.Field

/-!
# Field — what the shapes of fields see

A shape without quotes looks at its line only (`Shape.Unquoted`). So one
that stays on its line, quoted strings apart (`Shape.SingleLine`), does not
see text below it, and no shape takes more than there is. Both facts pass
from shapes to fields, whatever their checks, and to fields in a row, one
field at a time (`Field.readAll_cons_finds`).
-/

namespace Daybook

open Daybook.Text Daybook.Reading

/-! ## Shapes -/

namespace Shape

/-- The shape stays on its line, quoted strings apart. -/
def SingleLine : Shape → Prop
  | object | newline => False
  | literal w | keyword w => '\n' ∉ w.toList
  | _ => True

/-- The shape has no quotes and stays on its line. -/
def Unquoted : Shape → Prop
  | string | array | quoted | object | newline => False
  | literal w | keyword w => '\n' ∉ w.toList
  | _ => True

theorem singleLine_cases {s : Shape} (h : s.SingleLine) :
    s.Unquoted ∨ s = .string ∨ s = .array ∨ s = .quoted := by
  cases s with
  | string | array | quoted => simp
  | object | newline => exact h.elim
  | literal w | keyword w => exact .inl h
  | _ => exact .inl trivial

theorem read_marks_eq (cs : List Char) :
    marks.read cs = match Token.marks cs with
      | ([], _) => .absent
      | (ms, n) => .found (.list (ms.map .mark)) n := rfl

theorem onLine_read_marks : OnLine marks.read := by
  intro cs
  rw [read_marks_eq, read_marks_eq, Token.onLine_marks]

theorem onLine_map {α : Type} {r : Reader α} (h : OnLine r) (f : α → Value) :
    OnLine fun cs => (r cs).map f := h.comp (·.map f)

theorem onLine_mapOption {α : Type} {r : List Char → Option (α × Nat)} (h : OnLine r)
    (f : α → Value) : OnLine fun cs => (ofOption (r cs)).map f := onLine_map (h.comp ofOption) f

/-- **A shape without quotes looks at its line only.** -/
theorem onLine_read {s : Shape} (h : s.Unquoted) : OnLine s.read := by
  cases s with
  | number => exact onLine_mapOption Token.onLine_number? _
  | boolean => exact onLine_mapOption Token.onLine_boolean? _
  | date => exact onLine_map (Lexeme.onLine_read Token.onLine_date) _
  | amount => exact onLine_mapOption Token.onLine_amount? _
  | account => exact onLine_map (Lexeme.onLine_read Token.onLine_account) _
  | email => exact onLine_map (Lexeme.onLine_read Token.onLine_email) _
  | mark => exact onLine_mapOption Token.onLine_mark? _
  | marks => exact onLine_read_marks
  | currency => exact onLine_map (Lexeme.onLine_read Token.onLine_currency) _
  | currencies => exact onLine_mapOption Token.onLine_currencies? _
  | literal w => exact onLine_map (Lexeme.onLine_read (Token.onLine_literal h)) _
  | keyword w => exact onLine_map (Lexeme.onLine_read (Token.onLine_keyword h)) _
  | string | array | quoted | object | newline => exact h.elim

/-- No shape takes more than there is. -/
theorem read_le (s : Shape) (cs : List Char) : (s.read cs).Finds fun _ n => n ≤ cs.length := by
  cases s with
  | string => exact (finds_map ..).2 (Token.quotedOr_le Token.string_eq (Lexeme.begins_run _) cs)
  | number => exact (finds_map ..).2 ((finds_ofOption ..).2 (Token.number?_le cs))
  | boolean => exact (finds_map ..).2 ((finds_ofOption ..).2 (Token.boolean?_le cs))
  | date => exact (finds_map ..).2 ((Lexeme.begins_shape _).finds_le cs)
  | amount => exact (finds_map ..).2 ((finds_ofOption ..).2 (Token.amount?_le cs))
  | account => exact (finds_map ..).2 (Token.begins_account.finds_le cs)
  | array => exact (finds_map ..).2 (Token.array_finds (Token.items_le cs))
  | email => exact (finds_map ..).2 (Token.begins_email.finds_le cs)
  | object =>
      exact (finds_map ..).2 ((Metadata.block_boundary 0 cs).mono fun _ _ h => h.le)
  | mark => exact (finds_map ..).2 ((finds_ofOption ..).2 fun _ _ => Token.mark?_le)
  | marks =>
      have hle := Nat.le_trans (Token.marks_le cs) (lineAhead_length_le cs)
      rw [read_marks_eq]
      split
      · trivial
      · simp_all
  | quoted => exact (finds_map ..).2 (Token.quoted_le cs)
  | currency => exact (finds_map ..).2 ((Lexeme.begins_headed _ _).finds_le cs)
  | currencies => exact (finds_map ..).2 ((finds_ofOption ..).2 (Token.currencies?_le cs))
  | newline => exact (finds_map ..).2 ((Token.begins_literal _).finds_le cs)
  | literal w => exact (finds_map ..).2 ((Token.begins_literal w).finds_le cs)
  | keyword w => exact (finds_map ..).2 ((Token.begins_keyword w).finds_le cs)

/-- What a shape without quotes takes is a part of the line. -/
theorem read_le_lineAhead {s : Shape} (h : s.Unquoted) (cs : List Char) :
    (s.read cs).Finds fun _ n => n ≤ (lineAhead cs).length :=
  finds_le_lineAhead (onLine_read h) s.read_le cs

theorem firm_read {s : Shape} (h : s.SingleLine) : Firm s.read := by
  rcases singleLine_cases h with h | rfl | rfl | rfl
  · exact firm_of_onLine (onLine_read h)
  · exact (Token.firm_quotedOr Token.string_eq Token.onLine_bareWord).map _
  · exact Token.firm_array.map _
  · exact Token.firm_quoted.map _

theorem stays_read {s : Shape} (h : s.SingleLine) : Stays s.read := by
  rcases singleLine_cases h with h | rfl | rfl | rfl
  · exact stays_of_le_lineAhead (read_le_lineAhead h)
  · exact (Token.stays_quotedOr Token.string_eq Token.onLine_bareWord
      (Lexeme.begins_run _)).map _
  · exact Stays.map (fun cs hc hne => Token.array_finds (Token.stays_items cs hc hne)) _
  · exact Token.stays_quoted.map _

end Shape

/-! ## Fields -/

namespace Field

/-- The reader of the field: its own, or the one that its type names. -/
def readerIn (f : Field) (r : Registry) : Option FieldReader :=
  f.reader <|> r.readers.get? f.type

/-- The field is read by one of the library's shapes. -/
def OfShape (f : Field) (r : Registry) (p : Shape → Prop) : Prop :=
  ∀ reader, f.readerIn r = some reader → ∃ s, p s ∧ reader = s.read

theorem OfShape.mono {f : Field} {r : Registry} {p q : Shape → Prop} (h : f.OfShape r p)
    (hpq : ∀ s, p s → q s) : f.OfShape r q := by
  intro reader hr
  obtain ⟨s, hs, rfl⟩ := h reader hr
  exact ⟨s, hpq s hs, rfl⟩

/-- What a check makes of the value that was read. -/
def checked (f : Field) (r : Registry) : Reading Value → Reading Value
  | .found v n =>
    match f.accepts r v with
    | .ok true => .found v n
    | .ok false => .absent
    | .error e => .broken e
  | other => other

theorem read_eq (f : Field) (r : Registry) (cs : List Char) :
    f.read r cs = match f.readerIn r with
      | none => .broken (.unknownFieldType f.type)
      | some reader => f.checked r (reader cs) := by
  rw [read]
  rfl

theorem checked_finds {f : Field} {r : Registry} {P : Value → Nat → Prop} {answer : Reading Value}
    (h : answer.Finds P) : (f.checked r answer).Finds P := by
  cases answer with
  | absent => trivial
  | broken e => trivial
  | found v n =>
      rw [checked]
      split
      · exact h
      · trivial
      · trivial

theorem sound_of_checked {f : Field} {r : Registry} {answer : Reading Value}
    (h : (f.checked r answer).Sound) : answer.Sound := by
  cases answer with
  | absent => trivial
  | found v n => trivial
  | broken e => exact h

theorem firm_read {f : Field} {r : Registry} (h : f.OfShape r Shape.SingleLine) :
    Firm (f.read r) := by
  intro cs ds hc hne hd hs
  rw [read_eq] at hs
  rw [read_eq, read_eq]
  cases hr : f.readerIn r with
  | none => rfl
  | some reader =>
      obtain ⟨s, hsingle, rfl⟩ := h reader hr
      rw [hr] at hs
      simp only
      rw [Shape.firm_read hsingle cs ds hc hne hd (sound_of_checked hs)]

theorem read_finds {f : Field} {r : Registry} {p : Shape → Prop} (h : f.OfShape r p)
    {P : Value → Nat → Prop} {cs : List Char} (hp : ∀ s, p s → (s.read cs).Finds P) :
    (f.read r cs).Finds P := by
  rw [read_eq]
  cases hr : f.readerIn r with
  | none => trivial
  | some reader =>
      obtain ⟨s, hs, rfl⟩ := h reader hr
      exact checked_finds (hp s hs)

theorem stays_read {f : Field} {r : Registry} (h : f.OfShape r Shape.SingleLine) :
    Stays (f.read r) :=
  fun cs hc hne => read_finds h fun _ hs => Shape.stays_read hs cs hc hne

theorem read_le {f : Field} {r : Registry} {p : Shape → Prop} (h : f.OfShape r p)
    (cs : List Char) : (f.read r cs).Finds fun _ n => n ≤ cs.length :=
  read_finds h fun s _ => s.read_le cs

/-! ## Fields in a row -/

theorem readAll_cons (r : Registry) (f : Field) (fs : List Field) (values : Pairs Value)
    (cs : List Char) :
    readAll r (f :: fs) values cs =
      match f.read r (cs.drop (inlineBlanks cs)) with
      | .broken e => .broken (e.shift (inlineBlanks cs))
      | .found v n =>
        (readAll r fs (values.put f.name v) (cs.drop (inlineBlanks cs + n))).shift
          (inlineBlanks cs + n)
      | .absent =>
        if f.required then .absent
        else (readAll r fs (f.orElse values) (cs.drop (inlineBlanks cs))).shift
          (inlineBlanks cs) := rfl

/-- **One field and the others**: what the others find behind it, all of
them find together. There are two cases, for a field that is there and for
one that may be left out and is. -/
theorem readAll_cons_finds {r : Registry} {f : Field} {fs : List Field} {values : Pairs Value}
    {cs : List Char} {P : Pairs Value → Nat → Prop}
    (found : ∀ v n, f.read r (cs.drop (inlineBlanks cs)) = .found v n →
      (readAll r fs (values.put f.name v) (cs.drop (inlineBlanks cs + n))).Finds
        fun vs k => P vs (inlineBlanks cs + n + k))
    (absent : f.required = false → f.read r (cs.drop (inlineBlanks cs)) = .absent →
      (readAll r fs (f.orElse values) (cs.drop (inlineBlanks cs))).Finds
        fun vs k => P vs (inlineBlanks cs + k)) :
    (readAll r (f :: fs) values cs).Finds P := by
  rw [readAll_cons]
  cases hv : f.read r (cs.drop (inlineBlanks cs)) with
  | broken e => trivial
  | found v n => exact (finds_shift ..).2 (found v n hv)
  | absent =>
      simp only
      split
      · trivial
      · next hreq => exact (finds_shift ..).2 (absent (Bool.eq_false_iff.2 hreq) hv)

/-- A field that is left out has no part in the values of others. -/
theorem get?_orElse_of_ne {f : Field} {name : String} (h : f.name ≠ name) (values : Pairs Value) :
    (f.orElse values).get? name = values.get? name := by
  rw [orElse]
  split
  · rfl
  · exact Pairs.get?_put_of_ne h values _

/-- Fields of other names leave a value as it is. -/
theorem get?_readAll_of_ne {r : Registry} {name : String} {fs : List Field}
    (h : ∀ f ∈ fs, f.name ≠ name) (values : Pairs Value) (cs : List Char) :
    (readAll r fs values cs).Finds fun vs _ => vs.get? name = values.get? name := by
  induction fs generalizing values cs with
  | nil => rfl
  | cons f fs ih =>
      obtain ⟨hf, hfs⟩ := List.forall_mem_cons.1 h
      refine readAll_cons_finds (fun v n _ => ?_) fun _ _ => ?_
      · exact (ih hfs _ _).mono fun vs _ hvs => hvs.trans (Pairs.get?_put_of_ne hf values v)
      · exact (ih hfs _ _).mono fun vs _ hvs => hvs.trans (get?_orElse_of_ne hf values)

theorem firm_readAll {r : Registry} {fs : List Field}
    (h : ∀ f ∈ fs, f.OfShape r Shape.SingleLine) (values : Pairs Value) :
    Firm (readAll r fs values) := by
  induction fs generalizing values with
  | nil => exact fun cs ds _ _ _ _ => rfl
  | cons f fs ih =>
      intro cs ds hc hne hd hs
      have hf := h f (by simp)
      have hfs := ih fun g hg => h g (by simp [hg])
      have hgap := inlineBlanks_le cs
      have hne' := hc.drop_ne_nil hne (inlineBlanks_le_lineAhead cs)
      have hfirm : (f.read r (cs.drop (inlineBlanks cs))).Sound →
          f.read r ((cs ++ ds).drop (inlineBlanks cs)) = f.read r (cs.drop (inlineBlanks cs)) := by
        intro hsound
        rw [List.drop_append_of_le_length hgap]
        exact firm_read hf _ ds (hc.drop _) hne' hd hsound
      rw [readAll_cons] at hs
      rw [readAll_cons, readAll_cons, onLine_inlineBlanks.append (hc.newline_mem hne)]
      cases hv : f.read r (cs.drop (inlineBlanks cs)) with
      | broken e => simp [hv] at hs
      | found v n =>
          have hn : n < (cs.drop (inlineBlanks cs)).length :=
            (stays_read hf _ (hc.drop _) hne').of_eq hv
          rw [List.length_drop] at hn
          have hlt : inlineBlanks cs + n < cs.length := by omega
          simp only [hv, sound_shift] at hs
          rw [hfirm (hv ▸ sound_found v n), hv]
          simp only
          rw [List.drop_append_of_le_length (Nat.le_of_lt hlt),
            hfs _ _ ds (hc.drop _) (by simpa using hlt) hd hs]
      | absent =>
          simp only [hv] at hs
          rw [hfirm (hv ▸ sound_absent), hv]
          simp only
          split
          · rfl
          · next hreq =>
            rw [if_neg hreq, sound_shift] at hs
            rw [List.drop_append_of_le_length hgap, hfs _ _ ds (hc.drop _) hne' hd hs]

theorem stays_readAll {r : Registry} {fs : List Field}
    (h : ∀ f ∈ fs, f.OfShape r Shape.SingleLine) (values : Pairs Value) :
    Stays (readAll r fs values) := by
  induction fs generalizing values with
  | nil => exact fun cs _ hne => List.length_pos_iff.2 hne
  | cons f fs ih =>
      intro cs hc hne
      have hf := h f (by simp)
      have hfs := ih fun g hg => h g (by simp [hg])
      have hne' := hc.drop_ne_nil hne (inlineBlanks_le_lineAhead cs)
      refine readAll_cons_finds (fun v n hv => ?_) fun _ _ => ?_
      · have hn : n < (cs.drop (inlineBlanks cs)).length :=
          (stays_read hf _ (hc.drop _) hne').of_eq hv
        rw [List.length_drop] at hn
        refine (hfs (values.put f.name v) (cs.drop (inlineBlanks cs + n)) (hc.drop _)
          (by simp; omega)).mono fun _ k hk => ?_
        rw [List.length_drop] at hk
        omega
      · refine (hfs (f.orElse values) _ (hc.drop _) hne').mono fun _ k hk => ?_
        rw [List.length_drop] at hk
        omega

theorem readAll_le {r : Registry} {fs : List Field} {p : Shape → Prop}
    (h : ∀ f ∈ fs, f.OfShape r p) (values : Pairs Value) (cs : List Char) :
    (readAll r fs values cs).Finds fun _ n => n ≤ cs.length := by
  induction fs generalizing values cs with
  | nil => exact Nat.zero_le _
  | cons f fs ih =>
      have hfs := ih fun g hg => h g (by simp [hg])
      have hgap := inlineBlanks_le cs
      refine readAll_cons_finds (fun v n hv => ?_) fun _ _ => ?_
      · have hn : n ≤ (cs.drop (inlineBlanks cs)).length := (read_le (h f (by simp)) _).of_eq hv
        rw [List.length_drop] at hn
        refine (hfs _ _).mono fun _ k hk => ?_
        rw [List.length_drop] at hk
        omega
      · refine (hfs _ _).mono fun _ k hk => ?_
        rw [List.length_drop] at hk
        omega

end Field
end Daybook
