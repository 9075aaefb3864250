import Daybook.Proofs.Reading
import Daybook.Token.Boolean
import Daybook.Token.Name

/-!
# Token — Name

Lexemes and truth values.

Every token but the quoted string is made of characters that are no
newlines, and what it looks at behind its end (a blank, a letter that
would go on) it decides at a newline as at the end of the text. So each
is `OnLine`, and each takes a beginning of what lies ahead.
-/

namespace Daybook

open Daybook.Text

/-! ## Lexemes -/

namespace Lexeme

/-- The lexeme is a beginning of what lies ahead. -/
def Begins (l : Lexeme) : Prop := ∀ cs w, l cs = some w → w <+: cs

theorem onLine_run {p : Char → Bool} (hp : p '\n' = false) : OnLine (run p) := by
  intro cs
  rw [run, run, onLine_takeWhile hp]

theorem onLine_headed {p q : Char → Bool} (hp : p '\n' = false) (hq : q '\n' = false) :
    OnLine (headed p q) := by
  refine onLine_of_cons (fun cs => ?_) fun c cs _ => ?_
  · simp [headed, hp]
  · rw [headed, headed, onLine_takeWhile hq]

theorem onLine_shape {ps : List (Char → Bool)} (h : ∀ p ∈ ps, p '\n' = false) :
    OnLine (shape ps) := by
  induction ps with
  | nil => exact fun cs => by simp [shape]
  | cons p ps ih =>
      have hrest := ih fun q hq => h q (List.mem_cons_of_mem p hq)
      refine onLine_of_cons (fun cs => ?_) fun c cs _ => ?_
      · simp [shape, h p]
      · rw [shape, shape, hrest cs]

theorem begins_run (p : Char → Bool) : (run p).Begins := fun _ _ => run_isPrefix

theorem begins_headed (p q : Char → Bool) : (headed p q).Begins := fun _ _ => headed_isPrefix

theorem begins_shape (ps : List (Char → Bool)) : (shape ps).Begins := fun _ _ => shape_isPrefix

theorem Begins.filter {l : Lexeme} (h : l.Begins) (p : List Char → List Char → Bool) :
    Begins fun cs => (l cs).filter (p cs) :=
  fun cs w hw => h cs w (Option.filter_eq_some_iff.1 hw).1

theorem onLine_read {l : Lexeme} (h : OnLine l) : OnLine l.read := by
  intro cs
  rw [read, read, h]

theorem Begins.finds_le {l : Lexeme} (h : l.Begins) (cs : List Char) :
    (l.read cs).Finds fun _ n => n ≤ cs.length := by
  rw [read, Reading.finds_ofOption]
  intro v n hv
  obtain ⟨w, hw, heq⟩ := Option.map_eq_some_iff.1 hv
  cases heq
  exact (h cs w hw).length_le

end Lexeme

/-- A reader of one line that takes no more than there is stays on it. -/
theorem Reading.finds_le_lineAhead {α : Type} {r : Reader α} (h : OnLine r)
    (hle : ∀ cs, (r cs).Finds fun _ n => n ≤ cs.length) (cs : List Char) :
    (r cs).Finds fun _ n => n ≤ (lineAhead cs).length := by
  rw [← h cs]
  exact hle (lineAhead cs)

theorem Reading.stays_of_le_lineAhead {α : Type} {r : Reader α}
    (hle : ∀ cs, (r cs).Finds fun _ n => n ≤ (lineAhead cs).length) : Stays r := by
  intro cs hc hne
  refine (hle cs).mono fun _ n hn => ?_
  have hd := hc.drop_ne_nil hne hn
  exact Nat.lt_of_not_le fun hge => hd (List.drop_eq_nil_of_le hge)

theorem Lexeme.firm_read {l : Lexeme} (h : OnLine l) : Reading.Firm l.read :=
  Reading.firm_of_onLine (Lexeme.onLine_read h)

theorem Lexeme.stays_read {l : Lexeme} (h : OnLine l) (hb : l.Begins) : Reading.Stays l.read :=
  Reading.stays_of_le_lineAhead (Reading.finds_le_lineAhead (Lexeme.onLine_read h) hb.finds_le)

namespace Token

/-! ## Names -/

theorem isDecimalDigit_newline : isDecimalDigit '\n' = false := by decide

theorem onLine_date : OnLine date := by
  apply Lexeme.onLine_shape
  simp [isDecimalDigit_newline]

theorem onLine_account : OnLine account :=
  (Lexeme.onLine_headed (by decide) (by decide)).comp _

theorem onLine_flag : OnLine flag := by
  apply Lexeme.onLine_shape
  simp

theorem onLine_currency : OnLine currency := Lexeme.onLine_headed (by decide) (by decide)

theorem onLine_amountCurrency : OnLine amountCurrency := Lexeme.onLine_run (by decide)

theorem onLine_bareWord : OnLine bareWord := Lexeme.onLine_run (by decide)

theorem onLine_bareItem : OnLine bareItem := Lexeme.onLine_headed (by decide) (by decide)

/-- Whether a blank comes next is decided on the line: a newline is one,
and so is the end of the text. -/
theorem onLine_blankNext : OnLine fun cs : List Char => cs.head?.all isBlank := onLine_head? rfl

theorem begins_literal (w : String) : (literal w).Begins := by
  intro cs v hv
  rw [literal] at hv
  split at hv
  · simp at hv
  · exact Lexeme.shape_isPrefix hv

theorem onLine_literal {w : String} (hw : '\n' ∉ w.toList) : OnLine (literal w) := by
  intro cs
  rw [literal, literal, Lexeme.word, Lexeme.onLine_shape]
  intro p hp
  obtain ⟨c, hc, rfl⟩ := List.mem_map.1 hp
  have hne : c ≠ '\n' := fun he => hw (he ▸ hc)
  simpa using hne.symm

theorem begins_keyword (w : String) : (keyword w).Begins :=
  (begins_literal w).filter fun cs found => (cs.drop found.length).head?.all isBlank

theorem onLine_keyword {w : String} (hw : '\n' ∉ w.toList) : OnLine (keyword w) := by
  intro cs
  have hl := onLine_literal hw cs
  rw [keyword, keyword, hl]
  cases hf : literal w cs with
  | none => rfl
  | some found =>
      have hle : found.length ≤ (lineAhead cs).length :=
        (begins_literal w _ _ (hl.trans hf)).length_le
      rw [Option.filter_some, Option.filter_some, onLine_blankNext.drop hle]

theorem begins_account : account.Begins :=
  (Lexeme.begins_headed _ _).filter fun _ w => 2 ≤ w.length

/-! ## Mail addresses -/

/-- What stands behind the at sign, if one comes next. -/
def mailDomain : Lexeme
  | '@' :: rest => Lexeme.run isDomainChar rest
  | _ => none

theorem email_eq (cs : List Char) :
    email cs = (Lexeme.run isMailboxChar cs).bind fun mailbox =>
      (mailDomain (cs.drop mailbox.length)).bind fun domain =>
        (domainReach domain.tail).map fun reach => mailbox ++ '@' :: domain.take (reach + 1) := by
  rw [email]
  cases Lexeme.run isMailboxChar cs with
  | none => rfl
  | some mailbox =>
      simp only [Option.bind_eq_bind, Option.bind_some]
      split
      · next rest hd =>
        rw [hd, mailDomain]
        cases Lexeme.run isDomainChar rest with
        | none => rfl
        | some domain => cases h : domainReach domain.tail <;> simp [h]
      · next hno =>
        rw [mailDomain]
        · rfl
        · exact hno

theorem onLine_mailDomain : OnLine mailDomain := by
  refine onLine_of_cons (fun _ => rfl) fun c cs _ => ?_
  by_cases ha : c = '@'
  · subst ha
    exact Lexeme.onLine_run (by decide) cs
  · simp [mailDomain, ha]

theorem onLine_email : OnLine email := by
  have hrun : OnLine (Lexeme.run isMailboxChar) := Lexeme.onLine_run (by decide)
  intro cs
  rw [email_eq, email_eq, hrun cs]
  cases hm : Lexeme.run isMailboxChar cs with
  | none => rfl
  | some mailbox =>
      have hle : mailbox.length ≤ (lineAhead cs).length :=
        (Lexeme.run_isPrefix ((hrun cs).trans hm)).length_le
      rw [Option.bind_some, Option.bind_some, onLine_mailDomain.drop hle]

theorem begins_email : email.Begins := by
  intro cs w hw
  rw [email_eq] at hw
  obtain ⟨mailbox, hm, hw⟩ := Option.bind_eq_some_iff.1 hw
  obtain ⟨domain, hd, hw⟩ := Option.bind_eq_some_iff.1 hw
  obtain ⟨reach, -, rfl⟩ := Option.map_eq_some_iff.1 hw
  obtain ⟨behind, rfl⟩ := Lexeme.run_isPrefix hm
  rw [List.drop_left] at hd
  refine (List.prefix_append_right_inj _).2 ?_
  cases behind with
  | nil => simp [mailDomain] at hd
  | cons c rest =>
      by_cases ha : c = '@'
      · subst ha
        refine List.cons_prefix_cons.2 ⟨rfl, ?_⟩
        exact (List.take_prefix _ _).trans (Lexeme.run_isPrefix hd)
      · simp [mailDomain, ha] at hd

/-! ## Truth values, numbers and amounts -/

theorem onLine_wordEnd : OnLine fun cs : List Char => cs.head?.any continuesWord :=
  onLine_head? rfl

theorem onLine_spelled? {ws : List Char} (h : ∀ w ∈ ws, matchesLetter w '\n' = false) :
    OnLine (spelled? ws) := by
  induction ws with
  | nil =>
      intro cs
      have hend := onLine_wordEnd cs
      simp only at hend
      rw [spelled?, spelled?, hend]
  | cons w ws ih =>
      have hrest := ih fun v hv => h v (List.mem_cons_of_mem w hv)
      refine onLine_of_cons (fun cs => ?_) fun c cs _ => ?_
      · simp [spelled?, h w]
      · rw [spelled?, spelled?, hrest cs]

theorem spelled?_isPrefix : ∀ {ws cs found : List Char}, spelled? ws cs = some found →
    found <+: cs
  | [], cs, found, h => by
    rw [spelled?] at h
    split at h
    · simp at h
    · cases h
      exact List.nil_prefix
  | _ :: _, [], _, h => by simp [spelled?] at h
  | w :: ws, c :: cs, found, h => by
    rw [spelled?] at h
    split at h
    · obtain ⟨v, hv, rfl⟩ := Option.map_eq_some_iff.1 h
      exact List.cons_prefix_cons.2 ⟨rfl, spelled?_isPrefix hv⟩
    · simp at h

theorem truthWords_newline : ∀ w ∈ truthWords, ∀ c ∈ w.toList, matchesLetter c '\n' = false := by
  simp [truthWords, matchesLetter]

theorem onLine_boolean? : OnLine boolean? := by
  intro cs
  have h : (truthWords.findSome? fun w => spelled? w.toList (lineAhead cs))
      = truthWords.findSome? fun w => spelled? w.toList cs := by
    have hall : ∀ w ∈ truthWords, spelled? w.toList (lineAhead cs) = spelled? w.toList cs :=
      fun w hw => onLine_spelled? (truthWords_newline w hw) cs
    revert hall
    generalize truthWords = words
    intro hall
    induction words with
    | nil => rfl
    | cons w ws ih =>
        rw [List.findSome?_cons, List.findSome?_cons, hall w (by simp),
          ih fun v hv => hall v (by simp [hv])]
  rw [boolean?, boolean?, h]

theorem boolean?_le (cs : List Char) : ∀ v n, boolean? cs = some (v, n) → n ≤ cs.length := by
  intro v n h
  rw [boolean?] at h
  obtain ⟨found, hf, heq⟩ := Option.map_eq_some_iff.1 h
  obtain ⟨w, -, hw⟩ := List.exists_of_findSome?_eq_some hf
  cases heq
  exact (spelled?_isPrefix hw).length_le

end Token
end Daybook
