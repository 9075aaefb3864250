import Daybook.Proofs.Token.Name
import Daybook.Token.Mark
import Daybook.Metadata

/-!
# Written — words

What is written for a name is a word that the name's lexeme takes whole.
Behind a word white space comes, and there the lexeme ends, so a word is
read back as it was written.
-/

namespace Daybook

open Daybook.Text

namespace Text

/-! ## White space comes next -/

/-- White space comes next. -/
def Apart (cs : List Char) : Prop := ∃ c rest, cs = c :: rest ∧ isBlank c = true

theorem apart_space (cs : List Char) : Apart (' ' :: cs) := ⟨_, _, rfl, by decide⟩

/-- The line ends here. -/
def LineEnd (cs : List Char) : Prop := ∃ rest, cs = '\n' :: rest

theorem LineEnd.apart {cs : List Char} (h : LineEnd cs) : Apart cs := by
  obtain ⟨rest, rfl⟩ := h
  exact ⟨_, _, rfl, isBlank_newline⟩

/-- The text starts with a character that is not white space. -/
def Solid (cs : List Char) : Prop := ∃ c rest, cs = c :: rest ∧ isBlank c = false

theorem Solid.append {cs : List Char} (h : Solid cs) (ds : List Char) : Solid (cs ++ ds) := by
  obtain ⟨c, rest, rfl, hc⟩ := h
  exact ⟨c, rest ++ ds, rfl, hc⟩

theorem Solid.atMargin {cs : List Char} (h : Solid cs) : AtMargin cs := by
  obtain ⟨c, rest, rfl, hc⟩ := h
  intro d hd
  obtain rfl : c = d := by simpa using hd
  exact hc

theorem Solid.indentWidth_eq_zero {cs : List Char} (h : Solid cs) : indentWidth cs = 0 :=
  h.atMargin.indentWidth_eq_zero

theorem Solid.ne_nil {cs : List Char} (h : Solid cs) : cs ≠ [] := by
  obtain ⟨c, rest, rfl, -⟩ := h
  exact List.cons_ne_nil c rest

/-- A character of ASCII that can be seen is not white space. -/
theorem isBlank_of_visible {c : Char} (hl : 0x20 < c.toNat) (hu : c.toNat < 0x80) :
    isBlank c = false := by
  simp [isBlank]
  omega

theorem isBlank_of_isDecimalDigit {c : Char} (h : isDecimalDigit c = true) :
    isBlank c = false := by
  obtain ⟨d, hd⟩ := Option.isSome_iff_exists.1 h
  obtain ⟨first, hfirst, -⟩ := Option.map_eq_some_iff.1 hd
  have hrow := List.find?_some hfirst
  simp only [Bool.and_eq_true, decide_eq_true_eq] at hrow
  -- no row of digits holds white space
  have hclear : ∀ z ∈ digitZeros, 0x20 < z ∧ (z + 9 < 0x85 ∨ 0xA0 < z) ∧
      (z + 9 < 0x1680 ∨ 0x1680 < z) ∧ (z + 9 < 0x2000 ∨ 0x205F < z) ∧
      (z + 9 < 0x3000 ∨ 0x3000 < z) := by decide
  have := hclear first (List.mem_of_find?_eq_some hfirst)
  simp [isBlank]
  omega

/-- No white space is in a range of visible characters of ASCII. -/
theorem isBlank_of_between {first last c : Char} (hfirst : 0x20 < first.toNat)
    (hlast : last.toNat < 0x80) (h : first.val ≤ c.val ∧ c.val ≤ last.val) :
    isBlank c = false := by
  obtain ⟨hlower, hupper⟩ := h
  rw [UInt32.le_iff_toNat_le] at hlower hupper
  exact isBlank_of_visible (Nat.lt_of_lt_of_le hfirst hlower) (Nat.lt_of_le_of_lt hupper hlast)

theorem isBlank_of_isUpper {c : Char} (h : c.isUpper = true) : isBlank c = false := by
  have hrange : 'A'.val ≤ c.val ∧ c.val ≤ 'Z'.val := of_decide_eq_true h
  exact isBlank_of_between (by decide) (by decide) hrange

theorem isBlank_of_isLower {c : Char} (h : c.isLower = true) : isBlank c = false := by
  have hrange : (decide ('a'.val ≤ c.val) && decide (c.val ≤ 'z'.val)) = true := h
  rw [Bool.and_eq_true, decide_eq_true_eq, decide_eq_true_eq] at hrange
  exact isBlank_of_between (by decide) (by decide) hrange

theorem isBlank_of_isDigit {c : Char} (h : c.isDigit = true) : isBlank c = false := by
  have hrange : (decide ('0'.val ≤ c.val) && decide (c.val ≤ '9'.val)) = true := h
  rw [Bool.and_eq_true, decide_eq_true_eq, decide_eq_true_eq] at hrange
  exact isBlank_of_between (by decide) (by decide) hrange

theorem isBlank_of_isAlphanum {c : Char} (h : c.isAlphanum = true) : isBlank c = false := by
  have hcases : ((c.isUpper || c.isLower) || c.isDigit) = true := h
  rw [Bool.or_eq_true, Bool.or_eq_true] at hcases
  rcases hcases with (hupper | hlower) | hdigit
  · exact isBlank_of_isUpper hupper
  · exact isBlank_of_isLower hlower
  · exact isBlank_of_isDigit hdigit

/-- What is not white space is no indent. -/
theorem isIndent_of_isBlank {c : Char} (h : isBlank c = false) : isIndent c = false := by
  by_contra hi
  rw [isBlank_of_isIndent (by simpa using hi)] at h
  cases h

/-- No white space is of the class. -/
def Visible (p : Char → Bool) : Prop := ∀ c, p c = true → isBlank c = false

theorem Apart.head?_eq_false {p : Char → Bool} (hp : Visible p) {cs : List Char}
    (h : Apart cs) : ∀ c ∈ cs.head?, p c = false := by
  obtain ⟨c, rest, rfl, hc⟩ := h
  intro d hd
  obtain rfl : c = d := by simpa using hd
  by_contra hgo
  rw [hp c (by simpa using hgo)] at hc
  cases hc

/-- A run ends where a character of another class comes next. -/
theorem takeWhile_append_of_head {p : Char → Bool} {w rest : List Char}
    (hw : ∀ c ∈ w, p c = true) (hr : ∀ c ∈ rest.head?, p c = false) :
    (w ++ rest).takeWhile p = w := by
  rw [List.takeWhile_append_of_pos hw]
  cases rest with
  | nil => rw [List.takeWhile_nil, List.append_nil]
  | cons c rest =>
      have hc : p c = false := hr c rfl
      rw [List.takeWhile_cons_of_neg (by simp [hc]), List.append_nil]

theorem inlineBlanks_solid {cs : List Char} (h : Solid cs) : inlineBlanks cs = 0 :=
  h.atMargin.inlineBlanks_eq_zero

/-- One space, and something solid behind it. -/
theorem inlineBlanks_space {cs : List Char} (h : Solid cs) : inlineBlanks (' ' :: cs) = 1 := by
  have hrest := inlineBlanks_solid h
  rw [inlineBlanks] at hrest ⊢
  rw [List.takeWhile_cons_of_pos (by decide), List.length_cons, hrest]

end Text

/-! ## Lexemes that white space ends -/

namespace Lexeme

/-- What the lexeme takes whole is solid, and it takes no more of it when
white space comes behind. -/
structure Separate (l : Lexeme) : Prop where
  solid : ∀ w, l w = some w → Solid w
  ends : ∀ w, l w = some w → ∀ rest, Apart rest → l (w ++ rest) = some w

/-- What a headed lexeme takes whole. -/
theorem headed_whole {p q : Char → Bool} {w : List Char} (h : headed p q w = some w) :
    ∃ c cs, w = c :: cs ∧ p c = true ∧ ∀ d ∈ cs, q d = true := by
  cases w with
  | nil => simp [headed] at h
  | cons c cs =>
      rw [headed] at h
      split at h
      · next hc =>
        have hall : cs.takeWhile q = cs := (List.cons.inj (Option.some.inj h)).2
        exact ⟨c, cs, rfl, hc, List.takeWhile_eq_self_iff.1 hall⟩
      · cases h

theorem headed_append {p q : Char → Bool} {w rest : List Char} (h : headed p q w = some w)
    (hr : ∀ c ∈ rest.head?, q c = false) : headed p q (w ++ rest) = some w := by
  obtain ⟨c, cs, rfl, hc, hall⟩ := headed_whole h
  rw [List.cons_append, headed, if_pos hc, takeWhile_append_of_head hall hr]

theorem solid_headed {p q : Char → Bool} (hp : Visible p) {w : List Char}
    (h : headed p q w = some w) : Solid w := by
  obtain ⟨c, cs, rfl, hc, -⟩ := headed_whole h
  exact ⟨c, cs, rfl, hp c hc⟩

theorem separate_headed {p q : Char → Bool} (hp : Visible p) (hq : Visible q) :
    Separate (headed p q) :=
  ⟨fun _ hw => solid_headed hp hw, fun _ hw _ hr => headed_append hw (hr.head?_eq_false hq)⟩

/-- What a run takes whole. -/
theorem run_whole {p : Char → Bool} {w : List Char} (h : run p w = some w) :
    w ≠ [] ∧ ∀ c ∈ w, p c = true := by
  rw [run] at h
  split at h
  · cases h
  · next hne =>
    have hall : w.takeWhile p = w := Option.some.inj h
    exact ⟨by simpa [hall] using hne, List.takeWhile_eq_self_iff.1 hall⟩

theorem separate_run {p : Char → Bool} (hp : Visible p) : Separate (run p) := by
  constructor
  · intro w hw
    obtain ⟨hne, hall⟩ := run_whole hw
    cases w with
    | nil => exact absurd rfl hne
    | cons c cs => exact ⟨c, cs, rfl, hp c (hall c (by simp))⟩
  · intro w hw rest hr
    obtain ⟨hne, hall⟩ := run_whole hw
    rw [run, takeWhile_append_of_head hall (hr.head?_eq_false hp), if_neg (by simpa using hne)]

theorem shape_append {ps : List (Char → Bool)} {w : List Char} (h : shape ps w = some w)
    (rest : List Char) : shape ps (w ++ rest) = some w := by
  induction ps generalizing w with
  | nil =>
      have hw : [] = w := Option.some.inj h
      subst hw
      rfl
  | cons p ps ih =>
      cases w with
      | nil => simp [shape] at h
      | cons c cs =>
          rw [shape] at h
          split at h
          · next hc =>
            obtain ⟨v, hv, hcons⟩ := Option.map_eq_some_iff.1 h
            obtain rfl : v = cs := (List.cons.inj hcons).2
            rw [List.cons_append, shape, if_pos hc, ih hv]
            rfl
          · cases h

theorem separate_shape {p : Char → Bool} {ps : List (Char → Bool)} (hp : Visible p) :
    Separate (shape (p :: ps)) := by
  refine ⟨fun w hw => ?_, fun w hw rest _ => shape_append hw rest⟩
  cases w with
  | nil => simp [shape] at hw
  | cons c cs =>
      rw [shape] at hw
      split at hw
      · next hc => exact ⟨c, cs, rfl, hp c hc⟩
      · cases hw

theorem Separate.filter {l : Lexeme} (h : l.Separate) (p : List Char → Bool) :
    Separate fun cs => (l cs).filter p := by
  constructor
  · intro w hw
    exact h.solid w (Option.filter_eq_some_iff.1 hw).1
  · intro w hw rest hr
    obtain ⟨hl, hp⟩ := Option.filter_eq_some_iff.1 hw
    show (l (w ++ rest)).filter p = some w
    rw [h.ends w hl rest hr, Option.filter_some, if_pos hp]

end Lexeme

namespace Token

theorem separate_date : Lexeme.Separate date :=
  Lexeme.separate_shape fun _ h => isBlank_of_isDecimalDigit h

/-- A date starts with a digit, so no white space comes before it. -/
theorem date_visible {cs w : List Char} (h : date cs = some w) :
    inlineBlanks cs = 0 := by
  cases cs with
  | nil => rfl
  | cons c cs =>
      by_cases hd : isDecimalDigit c = true
      · rw [inlineBlanks, List.takeWhile_cons_of_neg]
        · rfl
        · simp [isInlineBlank, isBlank_of_isDecimalDigit hd]
      · simp [date, Lexeme.shape, hd] at h

theorem visible_isAccountChar : Visible isAccountChar := by
  intro c h
  simp only [isAccountChar, Bool.or_eq_true, beq_iff_eq] at h
  rcases h with ((h | rfl) | rfl) | rfl
  · exact isBlank_of_isAlphanum h
  · decide
  · decide
  · decide

theorem separate_account : Lexeme.Separate account :=
  (Lexeme.separate_headed (fun _ h => isBlank_of_isUpper h) visible_isAccountChar).filter
    fun w => decide (2 ≤ w.length)

theorem visible_isCurrencyChar : Visible isCurrencyChar := by
  intro c h
  simp only [isCurrencyChar, Bool.or_eq_true, beq_iff_eq] at h
  rcases h with (h | h) | rfl
  · exact isBlank_of_isUpper h
  · exact isBlank_of_isAlphanum (by simp [Char.isAlphanum, h])
  · decide

theorem separate_amountCurrency : Lexeme.Separate amountCurrency :=
  Lexeme.separate_run visible_isCurrencyChar

theorem separate_flag : Lexeme.Separate flag := by
  refine Lexeme.separate_shape fun c h => ?_
  simp only [Bool.or_eq_true, beq_iff_eq] at h
  rcases h with rfl | rfl <;> decide

theorem visible_isMarkChar : Visible isMarkChar := by
  intro c h
  simp only [isMarkChar, Bool.or_eq_true, beq_iff_eq] at h
  rcases h with (h | rfl) | rfl
  · exact isBlank_of_isAlphanum h
  · decide
  · decide

end Token

/-! ## Words -/

namespace Written

/-- A text that the lexeme takes whole. -/
structure Word (l : Lexeme) where
  text : List Char
  whole : l text = some text

/-- The word as a string. -/
def Word.string {l : Lexeme} (w : Word l) : String := String.ofList w.text

/-- Of `w`, with something behind it that is as `p` says, the reader takes
`w` and gives `v`. -/
def Takes {α : Type} (p : List Char → Prop) (r : Reader α) (w : List Char) (v : α) : Prop :=
  ∀ rest, p rest → r (w ++ rest) = .found v w.length

theorem Takes.map {α β : Type} {p : List Char → Prop} {r : Reader α} {w : List Char} {v : α}
    (h : Takes p r w v) (f : α → β) : Takes p (fun cs => (r cs).map f) w (f v) := by
  intro rest hr
  show (r (w ++ rest)).map f = _
  rw [h rest hr, Reading.map_found]

/-- **A word is read back.** -/
theorem Word.takes {l : Lexeme} (hl : l.Separate) (w : Word l) :
    Takes Apart l.read w.text w.string := by
  intro rest hr
  rw [Lexeme.read, hl.ends w.text w.whole rest hr]
  rfl

theorem Word.solid {l : Lexeme} (hl : l.Separate) (w : Word l) : Solid w.text :=
  hl.solid w.text w.whole

end Written
end Daybook
