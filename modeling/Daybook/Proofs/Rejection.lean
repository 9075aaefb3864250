import Daybook.Worker

/-!
# Rejection — the answer to a message that is no request

A message that is no request is answered by one error. It carries the id of
the message if that is an integer or a truth value; an id that a request
may have in another form is lost, and the error carries zero. There is no
answer at all where the type of the message cannot be written.
-/

namespace Daybook

namespace Value

/-! ## Values that cannot be written -/

/-- An integer with more digits than are written stands in the value. -/
inductive Overlong : Value → Prop
  | int {n : Int} (long : Nat.pow 10 maxWrittenDigits ≤ n.natAbs) : Overlong (.int n)
  | item {v : Value} {vs : List Value} (mem : v ∈ vs) (overlong : Overlong v) : Overlong (.list vs)
  | key {k v : Value} {es : List (Value × Value)} (mem : (k, v) ∈ es) (overlong : Overlong k) :
      Overlong (.mapping es)
  | value {k v : Value} {es : List (Value × Value)} (mem : (k, v) ∈ es) (overlong : Overlong v) :
      Overlong (.mapping es)

/-- What is written unless there is an overlong integer. -/
inductive Writes {α : Type} (overlong : Prop) : Except Fault α → Prop
  | ok (text : α) (short : ¬overlong) : Writes overlong (.ok text)
  | error (long : overlong) : Writes overlong (.error .integerTooLong)

theorem Writes.map {α β : Type} {p q : Prop} {a : Except Fault α} (h : Writes p a) (hpq : p ↔ q)
    (f : α → β) : Writes q (f <$> a) := by
  cases h with
  | ok text short => exact .ok (f text) fun hq => short (hpq.2 hq)
  | error long => exact .error (hpq.1 long)

/-- Two parts are written one after the other. -/
theorem Writes.both {α β γ : Type} {p q r : Prop} {a : Except Fault α} {b : Except Fault β}
    (ha : Writes p a) (hb : Writes q b) (hr : p ∨ q ↔ r) (f : α → β → γ) :
    Writes r (do return f (← a) (← b)) := by
  cases ha with
  | error long => exact .error (hr.1 (.inl long))
  | ok s short =>
      cases hb with
      | error long => exact .error (hr.1 (.inr long))
      | ok t short' => exact .ok (f s t) fun h => (hr.2 h).elim short short'

theorem overlong_list_iff {vs : List Value} : Overlong (.list vs) ↔ ∃ v ∈ vs, Overlong v := by
  constructor
  · intro h
    cases h with
    | item mem overlong => exact ⟨_, mem, overlong⟩
  · rintro ⟨v, mem, overlong⟩
    exact .item mem overlong

theorem overlong_mapping_iff {es : List (Value × Value)} :
    Overlong (.mapping es) ↔ ∃ e ∈ es, Overlong e.1 ∨ Overlong e.2 := by
  constructor
  · intro h
    cases h with
    | key mem overlong => exact ⟨_, mem, .inl overlong⟩
    | value mem overlong => exact ⟨_, mem, .inr overlong⟩
  · rintro ⟨⟨k, v⟩, mem, overlong | overlong⟩
    · exact .key mem overlong
    · exact .value mem overlong

theorem writes_integerText (n : Int) : Writes (Overlong (.int n)) (integerText n) := by
  rw [integerText]
  split
  · next hshort =>
    refine .ok _ fun h => ?_
    cases h with
    | int long => exact absurd hshort (Nat.not_lt.2 long)
  · next hlong => exact .error (.int (Nat.not_lt.1 hlong))

theorem writes_scalar (s : Scalar) : Writes (Overlong (.scalar s)) s.shown := by
  cases s with
  | int n => exact writes_integerText n
  | null => exact .ok _ nofun
  | bool b => exact .ok _ nofun
  | float x => exact .ok _ nofun
  | text t => exact .ok _ nofun

mutual

/-- **A value is written** unless an overlong integer stands in it. -/
theorem writes_shown : ∀ v : Value, Writes (Overlong v) v.shown
  | .scalar s => by
      rw [shown]
      exact writes_scalar s
  | .list vs => by
      rw [shown]
      exact (writes_shownItems vs).map overlong_list_iff.symm _
  | .mapping es => by
      rw [shown]
      exact (writes_shownEntries es).map overlong_mapping_iff.symm _
  | .amount a => by
      rw [shown]
      exact .ok _ nofun
  | .mark m => by
      rw [shown]
      exact .ok _ nofun

theorem writes_shownItems : ∀ vs : List Value, Writes (∃ v ∈ vs, Overlong v) (shownItems vs)
  | [] => by
      rw [shownItems]
      exact .ok _ (by simp)
  | v :: vs => by
      rw [shownItems]
      exact (writes_shown v).both (writes_shownItems vs) (by simp) _

theorem writes_shownEntries : ∀ es : List (Value × Value),
    Writes (∃ e ∈ es, Overlong e.1 ∨ Overlong e.2) (shownEntries es)
  | [] => by
      rw [shownEntries]
      exact .ok _ (by simp)
  | (k, v) :: es => by
      have hentry : Writes (Overlong k ∨ Overlong v)
          (do return (← k.shown) ++ ": " ++ (← v.shown)) :=
        (writes_shown k).both (writes_shown v) Iff.rfl _
      have hfirst : (Overlong k ∨ Overlong v) ∨ (∃ e ∈ es, Overlong e.1 ∨ Overlong e.2) ↔
          ∃ e ∈ (k, v) :: es, Overlong e.1 ∨ Overlong e.2 := by simp
      rw [shownEntries]
      simpa using hentry.both (writes_shownEntries es) hfirst (· :: ·)

end

theorem writes_plainText (v : Value) : Writes (Overlong v) v.plainText := by
  cases v with
  | scalar s =>
      cases s with
      | text t => exact .ok _ nofun
      | null => exact writes_scalar _
      | bool b => exact writes_scalar _
      | int n => exact writes_scalar _
      | float x => exact writes_scalar _
  | list vs => exact writes_shown _
  | mapping es => exact writes_shown _
  | amount a => exact .ok _ nofun
  | mark m => exact .ok _ nofun

/-- Is the value an integer or a truth value? -/
def isInteger : Value → Bool
  | .int _ => true
  | .bool _ => true
  | _ => false

end Value

namespace Request

/-! ## What is wrong with a message -/

/-- The message's own id is kept: it is an integer or a truth value. -/
def keepsId (es : List (Value × Value)) : Bool := (Value.lookup es "id").any Value.isInteger

/-- The type of the message, or null. -/
def typeIn (es : List (Value × Value)) : Value := (Value.lookup es "type").getD .null

theorem Checked.both_eq_ok {α β : Type} {a : Checked α} {b : Checked β} {x : α} {y : β}
    (h : Checked.both a b = .ok (x, y)) : a = .ok x ∧ b = .ok y := by
  cases a with
  | error m => cases b <;> cases h
  | ok a =>
      cases b with
      | error n => cases h
      | ok b =>
          cases h
          exact ⟨rfl, rfl⟩

/-- The id of a request is what its message's id denotes. -/
theorem idIn_of_ofMessage {es : List (Value × Value)} {request : Request}
    (h : ofMessage es = .ok request) : idIn es = .ok request.id := by
  unfold ofMessage at h
  split at h
  · split at h
    · next id file hboth =>
      cases h
      exact (Checked.both_eq_ok hboth).1
    · cases h
  · split at h
    · next id files hboth =>
      cases h
      exact (Checked.both_eq_ok hboth).1
    · cases h
  · cases h

/-- A rejection is worded unless the type of the message cannot be
written. -/
theorem writes_message {es : List (Value × Value)} {rejection : Rejection}
    (h : ofMessage es = .error rejection) :
    Value.Writes (Value.Overlong (typeIn es)) rejection.message := by
  have hknown : ∀ (type : String) (n : Nat), typeIn es = .text type →
      Value.Writes (Value.Overlong (typeIn es)) (Rejection.invalid type n).message := by
    intro type n htype
    rw [htype]
    exact .ok _ nofun
  unfold ofMessage at h
  split at h
  · next htype =>
    split at h
    · cases h
    · next n _ =>
      cases h
      exact hknown "parse" n htype
  · next htype =>
    split at h
    · cases h
    · next n _ =>
      cases h
      exact hknown "parseMultiple" n htype
  · cases h
    exact (Value.writes_plainText _).map Iff.rfl _

/-- **The id of the answer to a rejection.** An id that a request may have
is kept, or zero takes its place. -/
theorem rejectedId_eq {es : List (Value × Value)} {id : Int} (h : idIn es = .ok id) :
    rejectedId es = if keepsId es then id else 0 := by
  rw [idIn] at h
  rw [rejectedId, keepsId]
  cases hid : Value.lookup es "id" with
  | none =>
      rw [hid] at h
      cases h
  | some v =>
      rw [hid] at h
      cases v with
      | scalar s =>
          cases s with
          | int n =>
              cases h
              rfl
          | bool b =>
              cases h
              rfl
          | null => rfl
          | float x => rfl
          | text t => rfl
      | _ => rfl

end Request

namespace Worker

/-! ## The answer -/

/-- One error tells its id. -/
theorem id_of_error {m n : Int} {s t : String}
    (h : (⟨[.error m s], none⟩ : Answers) = ⟨[.error n t], none⟩) : m = n := by
  cases h
  rfl

/-- **The answer to a message that is no request.** Where its id alone would
do for a request, which is answered under some number, the message gets
exactly one answer, an error under that number, if and only if its id is an
integer or a truth value or denotes zero, and its type can be written. With
a type that can be written there is one error all the same, under zero where
the id is lost; without one there is no answer. -/
theorem handleMessage_rejected (w : Worker) {es accepted : List (Value × Value)}
    {rejection : Request.Rejection} {request : Request}
    (hrejected : Request.ofMessage es = .error rejection)
    (haccepted : Request.ofMessage accepted = .ok request)
    (hid : Value.lookup accepted "id" = Value.lookup es "id") :
    ((∃ text, w.handleMessage (.mapping es) = ⟨[.error request.id text], none⟩) ↔
      (Request.keepsId es ∨ request.id = 0) ∧ ¬Value.Overlong (Request.typeIn es)) ∧
    (¬Value.Overlong (Request.typeIn es) → ∃ text, rejection.message = .ok text ∧
      w.handleMessage (.mapping es) =
        ⟨[.error (if Request.keepsId es then request.id else 0) text], none⟩) ∧
    (Value.Overlong (Request.typeIn es) →
      w.handleMessage (.mapping es) = ⟨[], some .integerTooLong⟩) := by
  have hdenotes : Request.idIn es = .ok request.id := by
    rw [← Request.idIn_of_ofMessage haccepted, Request.idIn, Request.idIn, hid]
  have hnumber := Request.rejectedId_eq hdenotes
  have hwrites := Request.writes_message hrejected
  cases hmessage : rejection.message with
  | error f =>
      have hanswer : w.handleMessage (.mapping es) = ⟨[], some f⟩ := by
        simp only [handleMessage, Value.entries, hrejected, hmessage]
      rw [hmessage] at hwrites
      cases hwrites with
      | error long =>
          rw [hanswer]
          refine ⟨⟨?_, fun h => absurd long h.2⟩, fun short => absurd long short, fun _ => rfl⟩
          rintro ⟨text, h⟩
          cases h
  | ok text =>
      have hanswer : w.handleMessage (.mapping es) =
          ⟨[.error (if Request.keepsId es then request.id else 0) text], none⟩ := by
        simp only [handleMessage, Value.entries, hrejected, hmessage, hnumber]
      rw [hmessage] at hwrites
      cases hwrites with
      | ok _ short =>
          rw [hanswer]
          refine ⟨?_, fun _ => ⟨text, rfl, rfl⟩, fun long => absurd long short⟩
          by_cases hkept : Request.keepsId es
          · rw [if_pos hkept]
            exact ⟨fun _ => ⟨.inl hkept, short⟩, fun _ => ⟨text, rfl⟩⟩
          · rw [if_neg hkept]
            constructor
            · rintro ⟨_, h⟩
              exact ⟨.inr (id_of_error h).symm, short⟩
            · rintro ⟨hzero, -⟩
              exact ⟨text, by rw [hzero.resolve_left hkept]⟩

/-- A message of a type that there is not. -/
def frobnicate : List (Value × Value) := [(.text "id", .int 7), (.text "type", .text "frobnicate")]

/-- A request under the same number. -/
def emptyFile (id : Value) : List (Value × Value) :=
  [(.text "id", id), (.text "type", .text "parse"),
    (.text "data", .mapping [(.text "text", .text "")])]

/-- The number is kept. -/
theorem handleMessage_rejected_frobnicate :
    Request.ofMessage frobnicate = .error (.unknownType (.text "frobnicate")) ∧
      Request.ofMessage (emptyFile (.int 7)) = .ok (.single 7 ⟨"", "stdin"⟩) ∧
      Value.lookup (emptyFile (.int 7)) "id" = Value.lookup frobnicate "id" ∧
      ∃ text, handleMessage {} (.mapping frobnicate) = ⟨[.error 7 text], none⟩ := by
  have hrejected : Request.ofMessage frobnicate =
      .error (.unknownType (.text "frobnicate")) := by
    with_unfolding_all rfl
  have haccepted : Request.ofMessage (emptyFile (.int 7)) = .ok (.single 7 ⟨"", "stdin"⟩) := by
    with_unfolding_all rfl
  have hid : Value.lookup (emptyFile (.int 7)) "id" = Value.lookup frobnicate "id" := by
    with_unfolding_all rfl
  obtain ⟨hkept, -, -⟩ := handleMessage_rejected {} hrejected haccepted hid
  have hshort : ¬Value.Overlong (Request.typeIn frobnicate) := nofun
  exact ⟨hrejected, haccepted, hid, hkept.2 ⟨.inl (by with_unfolding_all rfl), hshort⟩⟩

/-- A message without data, and its id is a text. -/
def textId : List (Value × Value) := [(.text "id", .text "7"), (.text "type", .text "parse")]

/-- With data the message is a request under seven, and without it the
answer is an error under zero. -/
theorem handleMessage_textId :
    Request.ofMessage textId = .error (.invalid "parse" 1) ∧
      Request.ofMessage (emptyFile (.text "7")) = .ok (.single 7 ⟨"", "stdin"⟩) ∧
      Value.lookup (emptyFile (.text "7")) "id" = Value.lookup textId "id" ∧
      handleMessage {} (.mapping textId) =
        ⟨[.error 0 "Invalid parse request: 1 validation error(s)"], none⟩ ∧
      ¬∃ text, handleMessage {} (.mapping textId) = ⟨[.error 7 text], none⟩ := by
  have hanswer : handleMessage {} (.mapping textId) =
      ⟨[.error 0 "Invalid parse request: 1 validation error(s)"], none⟩ := by
    with_unfolding_all rfl
  refine ⟨by with_unfolding_all rfl, by with_unfolding_all rfl, by with_unfolding_all rfl,
    hanswer, ?_⟩
  rintro ⟨text, h⟩
  rw [hanswer] at h
  exact absurd (id_of_error h) (by decide)

end Worker
end Daybook
