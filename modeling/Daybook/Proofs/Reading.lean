import Daybook.Proofs.Line
import Daybook.Reading

/-!
# Reading — what may be said of an answer

Three things are said of readers throughout: what they find has a
property (`Finds`), the flaw they meet has one (`Breaks`), and they
answer the same when more text is put below (`Firm`). Each passes
through the combinators `map`, `shift` and `andThen`.
-/

namespace Daybook.Reading

open Daybook.Text

variable {α β : Type}

/-- What was found, if anything was, has the property. -/
def Finds (P : α → Nat → Prop) : Reading α → Prop
  | found v n => P v n
  | _ => True

/-- The flaw that was met, if one was, has the property. -/
def Breaks (Q : Flaw → Prop) : Reading α → Prop
  | broken f => Q f
  | _ => True

/-- No flaw was met. -/
def Sound (r : Reading α) : Prop := r.Breaks fun _ => False

/-! ## Shifts -/

theorem shift_zero (r : Reading α) : r.shift 0 = r := by
  cases r with
  | absent => rfl
  | found v n => rw [shift_found, Nat.zero_add]
  | broken f => cases f <;> simp [shift, Flaw.shift]

theorem shift_shift (m n : Nat) (r : Reading α) : (r.shift n).shift m = r.shift (m + n) := by
  cases r with
  | absent => rfl
  | found v k => rw [shift_found, shift_found, shift_found, Nat.add_assoc]
  | broken f => cases f <;> simp [shift, Flaw.shift, Nat.add_assoc]

theorem map_shift (f : α → β) (n : Nat) (r : Reading α) :
    (r.shift n).map f = (r.map f).shift n := by
  cases r <;> rfl

/-! ## Finds -/

@[simp] theorem finds_absent (P : α → Nat → Prop) : (absent : Reading α).Finds P := trivial

@[simp] theorem finds_broken (P : α → Nat → Prop) (f : Flaw) :
    (broken f : Reading α).Finds P := trivial

@[simp] theorem finds_found (P : α → Nat → Prop) (v : α) (n : Nat) :
    (found v n).Finds P ↔ P v n := Iff.rfl

theorem Finds.of_eq {P : α → Nat → Prop} {r : Reading α} (h : r.Finds P) {v : α} {n : Nat}
    (he : r = found v n) : P v n := by
  subst he
  exact h

theorem finds_iff {P : α → Nat → Prop} {r : Reading α} :
    r.Finds P ↔ ∀ v n, r = found v n → P v n := by
  constructor
  · intro h v n he
    exact h.of_eq he
  · intro h
    cases r with
    | found v n => exact h v n rfl
    | absent => trivial
    | broken f => trivial

theorem Finds.mono {P P' : α → Nat → Prop} {r : Reading α} (h : r.Finds P)
    (hp : ∀ v n, P v n → P' v n) : r.Finds P' := by
  cases r with
  | found v n => exact hp v n h
  | absent => trivial
  | broken f => trivial

@[simp] theorem finds_map (P : β → Nat → Prop) (f : α → β) (r : Reading α) :
    (r.map f).Finds P ↔ r.Finds fun v n => P (f v) n := by
  cases r <;> rfl

@[simp] theorem finds_shift (P : α → Nat → Prop) (k : Nat) (r : Reading α) :
    (r.shift k).Finds P ↔ r.Finds fun v n => P v (k + n) := by
  cases r <;> rfl

@[simp] theorem finds_ofOption (P : α → Nat → Prop) (o : Option (α × Nat)) :
    (ofOption o).Finds P ↔ ∀ v n, o = some (v, n) → P v n := by
  cases o with
  | none => simp [ofOption]
  | some p => simp [ofOption, Prod.ext_iff]

theorem finds_andThen {P : β → Nat → Prop} {r : Reading α} {cs : List Char}
    {next : α → Reader β}
    (h : r.Finds fun v k => (next v (cs.drop k)).Finds fun w n => P w (k + n)) :
    (r.andThen cs next).Finds P := by
  cases r with
  | found v k => exact (finds_shift ..).2 h
  | absent => trivial
  | broken f => trivial

theorem finds_andThen_le {r : Reader α} {next : α → Reader β}
    (hr : ∀ cs, (r cs).Finds fun _ n => n ≤ cs.length)
    (hn : ∀ v cs, (next v cs).Finds fun _ n => n ≤ cs.length) (cs : List Char) :
    ((r cs).andThen cs next).Finds fun _ n => n ≤ cs.length := by
  apply finds_andThen
  refine (hr cs).mono fun v k hk => (hn v _).mono fun _ n h => ?_
  rw [List.length_drop] at h
  omega

/-! ## Breaks -/

@[simp] theorem breaks_absent (Q : Flaw → Prop) : (absent : Reading α).Breaks Q := trivial

@[simp] theorem breaks_found (Q : Flaw → Prop) (v : α) (n : Nat) :
    (found v n).Breaks Q := trivial

@[simp] theorem breaks_broken (Q : Flaw → Prop) (f : Flaw) :
    (broken f : Reading α).Breaks Q ↔ Q f := Iff.rfl

theorem Breaks.mono {Q Q' : Flaw → Prop} {r : Reading α} (h : r.Breaks Q)
    (hq : ∀ f, Q f → Q' f) : r.Breaks Q' := by
  cases r with
  | found v n => trivial
  | absent => trivial
  | broken f => exact hq f h

@[simp] theorem breaks_map (Q : Flaw → Prop) (f : α → β) (r : Reading α) :
    (r.map f).Breaks Q ↔ r.Breaks Q := by
  cases r <;> rfl

@[simp] theorem breaks_shift (Q : Flaw → Prop) (k : Nat) (r : Reading α) :
    (r.shift k).Breaks Q ↔ r.Breaks fun f => Q (f.shift k) := by
  cases r <;> rfl

@[simp] theorem breaks_ofOption (Q : Flaw → Prop) (o : Option (α × Nat)) :
    (ofOption o).Breaks Q := by
  cases o <;> trivial

theorem breaks_andThen {Q : Flaw → Prop} {r : Reading α} {cs : List Char}
    {next : α → Reader β} :
    (r.andThen cs next).Breaks Q ↔ r.Breaks Q ∧
      r.Finds fun v k => (next v (cs.drop k)).Breaks fun f => Q (f.shift k) := by
  cases r with
  | found v k => exact (breaks_shift ..).trans (by simp [Finds])
  | absent => simp [andThen]
  | broken f => simp [andThen]

/-! ## Sound -/

@[simp] theorem sound_absent : (absent : Reading α).Sound := trivial

@[simp] theorem sound_found (v : α) (n : Nat) : (found v n).Sound := trivial

@[simp] theorem not_sound_broken (f : Flaw) : ¬(broken f : Reading α).Sound := id

@[simp] theorem sound_map (f : α → β) (r : Reading α) : (r.map f).Sound ↔ r.Sound := by
  cases r <;> rfl

@[simp] theorem sound_shift (k : Nat) (r : Reading α) : (r.shift k).Sound ↔ r.Sound := by
  cases r <;> rfl

theorem sound_andThen {r : Reading α} {cs : List Char} {next : α → Reader β} :
    (r.andThen cs next).Sound ↔
      r.Sound ∧ r.Finds fun v k => (next v (cs.drop k)).Sound := breaks_andThen

/-! ## Firm -/

/-- The reader answers the same when text at the margin is put below a
text that ends its lines: unless it meets a flaw, it has seen all that
it will look at. -/
def Firm (r : Reader α) : Prop :=
  ∀ cs ds, Complete cs → cs ≠ [] → AtMargin ds → (r cs).Sound → r (cs ++ ds) = r cs

/-- What the reader finds leaves something of a text that ends its
lines. -/
def Stays (r : Reader α) : Prop :=
  ∀ cs, Complete cs → cs ≠ [] → (r cs).Finds fun _ n => n < cs.length

theorem firm_of_onLine {r : Reader α} (h : OnLine r) : Firm r := by
  intro cs ds hc hne _ _
  exact h.append (hc.newline_mem hne) ds

theorem Firm.map {r : Reader α} (h : Firm r) (f : α → β) : Firm fun cs => (r cs).map f := by
  intro cs ds hc hne hd hs
  show (r (cs ++ ds)).map f = (r cs).map f
  rw [h cs ds hc hne hd ((sound_map f _).1 hs)]

theorem Stays.map {r : Reader α} (h : Stays r) (f : α → β) :
    Stays fun cs => (r cs).map f := by
  intro cs hc hne
  exact (finds_map ..).2 (h cs hc hne)

/-- The reader `first`, and `next` behind it. -/
theorem Firm.andThen {first : Reader α} {next : α → Reader β} (hf : Firm first)
    (hs : Stays first) (hn : ∀ v, Firm (next v)) :
    Firm fun cs => (first cs).andThen cs next := by
  intro cs ds hc hne hd hsound
  obtain ⟨h1, h2⟩ := sound_andThen.1 hsound
  show (first (cs ++ ds)).andThen (cs ++ ds) next = (first cs).andThen cs next
  rw [hf cs ds hc hne hd h1]
  cases hr : first cs with
  | absent => rfl
  | broken f => rfl
  | found v k =>
      have hk : k < cs.length := (hs cs hc hne).of_eq hr
      have hrest : (next v (cs.drop k)).Sound := h2.of_eq hr
      show (next v ((cs ++ ds).drop k)).shift k = (next v (cs.drop k)).shift k
      rw [List.drop_append_of_le_length (Nat.le_of_lt hk),
        hn v _ _ (hc.drop k) (by simp; omega) hd hrest]

theorem Stays.andThen {first : Reader α} {next : α → Reader β} (hs : Stays first)
    (hn : ∀ v, Stays (next v)) : Stays fun cs => (first cs).andThen cs next := by
  intro cs hc hne
  apply finds_andThen
  refine finds_iff.2 fun v k hr => ?_
  have hk : k < cs.length := (hs cs hc hne).of_eq hr
  refine (hn v _ (hc.drop k) (by simp; omega)).mono fun _ n h => ?_
  rw [List.length_drop] at h
  omega

end Daybook.Reading
