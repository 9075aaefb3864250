import Daybook.Proofs.Metadata
import Daybook.Proofs.Token.Amount
import Daybook.Transaction

/-!
# Transaction — header, body and what ends them

The header stays within its text, the body is a run of whole lines, and
the blank and comment lines behind it are whole lines too. Text at the
margin below changes nothing of what was read; only when the transaction
reaches the end of the text above does it go on over the comment lines
that come first below (`read_append`).
-/

namespace Daybook.Transaction

open Daybook.Text Daybook.Reading

/-! ## The header -/

section BehindBlanks

variable {α : Type} {r : Reader α}

theorem firm_behindBlanks (h : Firm r) : Firm (behindBlanks r) := by
  intro cs ds hc hne hd hs
  have hb := onLine_inlineBlanks.append (hc.newline_mem hne) ds
  have hne' := hc.drop_ne_nil hne (inlineBlanks_le_lineAhead cs)
  rw [behindBlanks, sound_shift] at hs
  rw [behindBlanks, behindBlanks, hb, List.drop_append_of_le_length (inlineBlanks_le cs),
    h _ ds (hc.drop _) hne' hd hs]

theorem stays_behindBlanks (h : Stays r) : Stays (behindBlanks r) := by
  intro cs hc hne
  have hne' := hc.drop_ne_nil hne (inlineBlanks_le_lineAhead cs)
  refine (finds_shift ..).2 ((h _ (hc.drop _) hne').mono fun _ n hn => ?_)
  rw [List.length_drop] at hn
  omega

theorem behindBlanks_le (h : ∀ cs, (r cs).Finds fun _ n => n ≤ cs.length) (cs : List Char) :
    (behindBlanks r cs).Finds fun _ n => n ≤ cs.length := by
  have hb := inlineBlanks_le cs
  refine (finds_shift ..).2 ((h _).mono fun _ n hn => ?_)
  rw [List.length_drop] at hn
  omega

end BehindBlanks

/-- The second of two titles; without one, the first is the narration. -/
def secondTitle (first : String) : Reader (Option String × String) := fun rest =>
  match behindBlanks Token.quoted rest with
  | .absent => .found (none, first) 0
  | r => r.map fun second => (some first, second)

theorem titles_eq (cs : List Char) :
    titles cs = (Token.quoted cs).andThen cs secondTitle := rfl

theorem secondTitle_eq (first : String) (rest : List Char) :
    secondTitle first rest = match behindBlanks Token.quoted rest with
      | .absent => .found (none, first) 0
      | r => r.map fun second => (some first, second) := rfl

theorem firm_secondTitle (first : String) : Firm (secondTitle first) := by
  intro cs ds hc hne hd hs
  have hquoted : (behindBlanks Token.quoted cs).Sound := by
    rw [secondTitle_eq] at hs
    split at hs
    · next h => simp [h]
    · exact (sound_map _ _).1 hs
  rw [secondTitle_eq, secondTitle_eq,
    firm_behindBlanks Token.firm_quoted cs ds hc hne hd hquoted]

theorem stays_secondTitle (first : String) : Stays (secondTitle first) := by
  intro cs hc hne
  rw [secondTitle_eq]
  split
  · exact List.length_pos_iff.2 hne
  · exact (finds_map ..).2 (stays_behindBlanks Token.stays_quoted cs hc hne)

theorem secondTitle_le (first : String) (cs : List Char) :
    (secondTitle first cs).Finds fun _ n => n ≤ cs.length := by
  rw [secondTitle_eq]
  split
  · exact Nat.zero_le _
  · exact (finds_map ..).2 (behindBlanks_le Token.quoted_le cs)

theorem firm_titles : Firm titles :=
  Token.firm_quoted.andThen Token.stays_quoted firm_secondTitle

theorem stays_titles : Stays titles := Token.stays_quoted.andThen stays_secondTitle

theorem onLine_trailingMarks : OnLine trailingMarks := by
  intro cs
  rw [trailingMarks, trailingMarks, Token.onLine_marks]

theorem trailingMarks_le_lineAhead (cs : List Char) :
    (trailingMarks cs).Finds fun _ n => n ≤ (lineAhead cs).length := Token.marks_le cs

theorem firm_header : Firm header := by
  refine (Lexeme.firm_read Token.onLine_date).andThen
    (Lexeme.stays_read Token.onLine_date (Lexeme.begins_shape _)) fun date => ?_
  refine (firm_behindBlanks (Lexeme.firm_read Token.onLine_flag)).andThen
    (stays_behindBlanks (Lexeme.stays_read Token.onLine_flag (Lexeme.begins_shape _)))
    fun flag => ?_
  refine (firm_behindBlanks firm_titles).andThen (stays_behindBlanks stays_titles) fun t => ?_
  exact (firm_of_onLine onLine_trailingMarks).map _

theorem stays_header : Stays header := by
  refine (Lexeme.stays_read Token.onLine_date (Lexeme.begins_shape _)).andThen fun date => ?_
  refine (stays_behindBlanks (Lexeme.stays_read Token.onLine_flag (Lexeme.begins_shape _))).andThen
    fun flag => ?_
  refine (stays_behindBlanks stays_titles).andThen fun t => ?_
  exact (stays_of_le_lineAhead trailingMarks_le_lineAhead).map _

theorem titles_le (cs : List Char) : (titles cs).Finds fun _ n => n ≤ cs.length :=
  finds_andThen_le Token.quoted_le secondTitle_le cs

theorem header_le (cs : List Char) : (header cs).Finds fun _ n => n ≤ cs.length := by
  refine finds_andThen_le (Lexeme.begins_shape _).finds_le (fun date cs => ?_) cs
  refine finds_andThen_le (behindBlanks_le (Lexeme.begins_shape _).finds_le) (fun flag cs => ?_) cs
  refine finds_andThen_le (behindBlanks_le titles_le) (fun t cs => ?_) cs
  exact (finds_map ..).2 ((trailingMarks_le_lineAhead cs).mono fun _ n h =>
    Nat.le_trans h (lineAhead_length_le cs))

/-- A header starts with a date and a flag, or it is none. -/
theorem header_front {cs : List Char} (h : header cs ≠ .absent) :
    ∃ date flag, Token.date cs = some date ∧ Token.flag ((cs.drop date.length).drop
      (inlineBlanks (cs.drop date.length))) = some flag := by
  cases hd : Token.date cs with
  | none => simp [header, Lexeme.read, hd, Reading.andThen, Reading.ofOption] at h
  | some date =>
      cases hf : Token.flag ((cs.drop date.length).drop (inlineBlanks (cs.drop date.length))) with
      | some flag => exact ⟨date, flag, rfl, hf⟩
      | none =>
          simp [header, Lexeme.read, hd, behindBlanks, hf, Reading.andThen, Reading.ofOption,
            Reading.shift, -List.drop_drop] at h

/-! ## The comment that ends a header -/

theorem nextIndent_line (l rest : List Char) (h : '\n' ∉ l) :
    nextIndent (l ++ '\n' :: rest) =
      if rest = [] then none
      else if (rest.drop (indentWidth rest)).head?.all (· == '\n') then some 0
      else some (indentWidth rest) := by
  have hd : (l ++ '\n' :: rest).dropWhile (· != '\n') = '\n' :: rest := by
    rw [← drop_lineAhead, lineAhead_line l rest h, List.drop_left]
  rw [nextIndent, hd, drop_indentWidth]
  cases rest with
  | nil => rfl
  | cons c rest =>
      simp only [List.cons_ne_nil, if_false]
      cases (c :: rest).dropWhile isIndent with
      | nil => rfl
      | cons d more =>
          by_cases hn : d = '\n'
          · subst hn
            rfl
          · simp [hn]

/-- At the margin below, no line is indented. -/
theorem nextIndent_append {cs ds : List Char} (hc : Complete cs) (hne : cs ≠ [])
    (hd : AtMargin ds) {p : Nat → Bool} (hp : p 0 = true) :
    (nextIndent (cs ++ ds)).all p = (nextIndent cs).all p := by
  rcases line_cases cs with ⟨hn, -⟩ | ⟨l, rest, hl, rfl⟩
  · exact absurd (hc.newline_mem hne) hn
  · have hrest : Complete rest := by
      have := hc.drop (l.length + 1)
      rwa [List.drop_length_add_append] at this
    rw [List.append_assoc, List.cons_append, nextIndent_line l _ hl, nextIndent_line l _ hl]
    by_cases hnil : rest = []
    · subst hnil
      rw [List.nil_append, if_pos rfl, hd.indentWidth_eq_zero]
      split
      · rfl
      · split <;> simp [hp]
    · have hfront := hrest.drop_ne_nil hnil (indentWidth_le_lineAhead rest)
      rw [if_neg (by simp [hnil]), if_neg hnil, drop_indentWidth_append hrest hd,
        indentWidth_append hrest hd, List.head?_append, List.head?_eq_some_head hfront,
        Option.some_or]

theorem endsWithComment_append {cs ds : List Char} (hc : Complete cs) (hne : cs ≠ [])
    (hd : AtMargin ds) : endsWithComment (cs ++ ds) = endsWithComment cs := by
  have hn := hc.newline_mem hne
  rw [endsWithComment, endsWithComment, Token.onLine_commentStart.append hn,
    lineAhead_append hn, nextIndent_append hc hne hd (by decide)]

/-! ## The lines of a body -/

/-- How far the account and the amount of a posting reach. -/
def postingReach (account : List Char) (cs : List Char) : Option Amount × Nat :=
  let behind := account.length + inlineBlanks (cs.drop account.length)
  let amount := Token.amount? (cs.drop behind)
  (amount.map (·.1), behind + (amount.map (·.2)).getD 0)

theorem postingReach_lineAhead {cs account : List Char} (h : Token.account cs = some account) :
    postingReach account (lineAhead cs) = postingReach account cs ∧
      (postingReach account cs).2 ≤ (lineAhead cs).length := by
  have hacc : account.length ≤ (lineAhead cs).length :=
    (Token.begins_account _ _ ((Token.onLine_account cs).trans h)).length_le
  have hblank := inlineBlanks_le_lineAhead (cs.drop account.length)
  rw [lineAhead_drop hacc, List.length_drop] at hblank
  have hbehind : account.length + inlineBlanks (cs.drop account.length) ≤
      (lineAhead cs).length := by omega
  have hamount := Token.onLine_amount?.drop hbehind
  rw [postingReach, postingReach, onLine_inlineBlanks.drop hacc, hamount]
  refine ⟨rfl, ?_⟩
  cases ha : Token.amount? (cs.drop (account.length +
      inlineBlanks (cs.drop account.length))) with
  | none => simpa using hbehind
  | some p =>
      have hle := Token.amount?_le _ p.1 p.2 (hamount.trans ha)
      rw [List.length_drop] at hle
      simp only [Option.map_some, Option.getD_some]
      omega

/-- A posting takes its line and the block of pairs below. -/
theorem posting_eq (cs : List Char) :
    posting cs = match Token.account cs with
      | none => .absent
      | some account =>
        ((Metadata.blockOrEmpty postingIndent (cs.drop (lineLength cs))).map fun metadata =>
          ⟨String.ofList account, (postingReach account cs).1, metadata⟩).shift
            (lineLength cs) := by
  have hreach : posting cs = match Token.account cs with
      | none => .absent
      | some account =>
        let (amount, reach) := postingReach account cs
        let line := reach + lineLength (cs.drop reach)
        ((Metadata.blockOrEmpty postingIndent (cs.drop line)).map fun metadata =>
          ⟨String.ofList account, amount, metadata⟩).shift line := rfl
  rw [hreach]
  cases ha : Token.account cs with
  | none => rfl
  | some account => simp only [lineLength_drop (postingReach_lineAhead ha).2]

theorem firm_posting : Firm posting := by
  intro cs ds hc hne hd hs
  have hn := hc.newline_mem hne
  rw [posting_eq] at hs
  rw [posting_eq, posting_eq, Token.onLine_account.append hn, lineLength_append hn,
    List.drop_append_of_le_length (lineLength_le cs)]
  cases ha : Token.account cs with
  | none => rfl
  | some account =>
      have hacc : Token.account (cs ++ ds) = some account := by
        rw [Token.onLine_account.append hn, ha]
      have hreach : postingReach account (cs ++ ds) = postingReach account cs := by
        rw [← (postingReach_lineAhead hacc).1, lineAhead_append hn, (postingReach_lineAhead ha).1]
      rw [ha] at hs
      simp only at hs ⊢
      rw [hreach, Metadata.blockOrEmpty_append (by decide) (hc.drop _) hd (by simpa using hs)]

theorem posting_boundary (cs : List Char) : (posting cs).Finds fun _ n => Boundary cs n := by
  rw [posting_eq]
  split
  · trivial
  · refine (finds_shift ..).2 ((finds_map ..).2 ?_)
    exact (Metadata.blockOrEmpty_boundary _ _).mono fun _ n hn => (boundary_lineLength cs).add hn

theorem bodyLine_eq (cs : List Char) :
    bodyLine cs = if cs.head? = some ';' then .found .comment (lineLength cs)
      else match Metadata.pair cs with
        | .found p n => .found (.pair p) (n + Metadata.newline (cs.drop n))
        | .broken f => .broken f
        | .absent => (posting cs).map .posting := rfl

theorem firm_bodyLine : Firm bodyLine := by
  intro cs ds hc hne hd hs
  have hhead : (cs ++ ds).head? = cs.head? := by
    rw [List.head?_append, List.head?_eq_some_head hne, Option.some_or]
  rw [bodyLine_eq] at hs
  rw [bodyLine_eq, bodyLine_eq, hhead]
  split
  · rw [lineLength_append (hc.newline_mem hne)]
  · next hsemi =>
    rw [if_neg hsemi] at hs
    have hpair : (Metadata.pair cs).Sound := by
      cases hp : Metadata.pair cs with
      | found p n => trivial
      | absent => trivial
      | broken f => simp [hp] at hs
    rw [Metadata.firm_pair cs ds hc hne hd hpair]
    cases hp : Metadata.pair cs with
    | found p n =>
        have hn : n < cs.length := (Metadata.stays_pair cs hc hne).of_eq hp
        have hdrop : cs.drop n ≠ [] := by simpa using hn
        simp only [Metadata.newline]
        rw [List.drop_append_of_le_length (Nat.le_of_lt hn), List.head?_append,
          List.head?_eq_some_head hdrop, Option.some_or]
    | broken f => rfl
    | absent =>
        simp only [hp] at hs
        simp only
        rw [firm_posting cs ds hc hne hd ((sound_map _ _).1 hs)]

theorem bodyLine_boundary (cs : List Char) : (bodyLine cs).Finds fun _ n => Boundary cs n := by
  rw [bodyLine_eq]
  split
  · exact boundary_lineLength cs
  · split
    · next p n hp => exact ((Metadata.pair_atLineEnd cs).of_eq hp).boundary
    · trivial
    · exact (finds_map ..).2 (posting_boundary cs)

/-! ## Bodies -/

/-- How far the blank lines and the indent of the next line reach. -/
def bodyFront (cs : List Char) : Nat :=
  blankLines cs + indentWidth (cs.drop (blankLines cs))

theorem body_eq (cs : List Char) :
    body cs =
      if indentWidth (cs.drop (blankLines cs)) < bodyIndent then .found ⟨[], []⟩ 0
      else
        match bodyLine (cs.drop (bodyFront cs)) with
        | .absent => .found ⟨[], []⟩ 0
        | .broken f => .broken (f.shift (bodyFront cs))
        | .found l n =>
          ((body (cs.drop (bodyFront cs + n))).map fun b => b.add l).shift (bodyFront cs + n) := by
  rw [body]
  simp only [bodyFront]
  split
  · rfl
  · split <;> simp [*]

theorem bodyFront_le (cs : List Char) : bodyFront cs ≤ cs.length := by
  have h1 := blankLines_le cs
  have h2 := indentWidth_le (cs.drop (blankLines cs))
  rw [List.length_drop] at h2
  rw [bodyFront]
  omega

theorem bodyFront_append {cs ds : List Char} (hc : Complete cs) (hd : AtMargin ds) :
    indentWidth ((cs ++ ds).drop (blankLines (cs ++ ds))) =
        indentWidth (cs.drop (blankLines cs)) ∧
      bodyFront (cs ++ ds) = bodyFront cs := by
  have h : indentWidth ((cs ++ ds).drop (blankLines (cs ++ ds))) =
      indentWidth (cs.drop (blankLines cs)) := by
    rw [blankLines_append hc hd, List.drop_append_of_le_length (blankLines_le cs),
      indentWidth_append (hc.drop _) hd]
  refine ⟨h, ?_⟩
  rw [bodyFront, bodyFront, h, blankLines_append hc hd]

/-- An indented line of a complete text is not empty behind its indent. -/
theorem drop_bodyFront_ne_nil {cs : List Char} (hc : Complete cs)
    (h : 0 < indentWidth (cs.drop (blankLines cs))) : cs.drop (bodyFront cs) ≠ [] := by
  rw [bodyFront, ← List.drop_drop]
  refine (hc.drop _).drop_ne_nil ?_ (indentWidth_le_lineAhead _)
  intro hnil
  rw [hnil] at h
  exact absurd h (by decide)

/-- The first line of a body, before text at the margin. -/
theorem bodyLine_front_append {cs ds : List Char} (hc : Complete cs) (hd : AtMargin ds)
    (hin : ¬indentWidth (cs.drop (blankLines cs)) < bodyIndent)
    (hs : (bodyLine (cs.drop (bodyFront cs))).Sound) :
    bodyLine ((cs ++ ds).drop (bodyFront cs)) = bodyLine (cs.drop (bodyFront cs)) := by
  have hpos : 0 < indentWidth (cs.drop (blankLines cs)) :=
    Nat.lt_of_lt_of_le (by decide) (Nat.le_of_not_lt hin)
  rw [List.drop_append_of_le_length (bodyFront_le cs)]
  exact firm_bodyLine _ ds (hc.drop _) (drop_bodyFront_ne_nil hc hpos) hd hs

theorem bodyLine_front_boundary {cs : List Char} {l : BodyLine} {n : Nat}
    (h : bodyLine (cs.drop (bodyFront cs)) = .found l n) (hn : 0 < n) :
    Boundary cs (bodyFront cs + n) :=
  .from_inside (bodyFront_le cs) ((bodyLine_boundary _).of_eq h) hn

/-- **A body is not changed by text at the margin below it.** -/
theorem body_append {cs ds : List Char} (hc : Complete cs) (hd : AtMargin ds)
    (hs : (body cs).Sound) : body (cs ++ ds) = body cs := by
  fun_induction body cs with
  | case1 cs hlt => rw [body_eq, (bodyFront_append hc hd).1, if_pos hlt]
  | case2 cs front hlt h =>
      have hl := bodyLine_front_append hc hd hlt (h ▸ sound_absent)
      obtain ⟨hwidth, hfront⟩ := bodyFront_append hc hd
      rw [body_eq, hwidth, if_neg hlt, hfront, hl]
      simp only [bodyFront, front] at h ⊢
      rw [h]
  | case3 cs front hlt f h => exact absurd hs (not_sound_broken _)
  | case4 cs front hlt l n h ih =>
      have hl := bodyLine_front_append hc hd hlt (h ▸ sound_found l n)
      have hle := (bodyLine_front_boundary h (bodyLine_pos h).1).le
      obtain ⟨hwidth, hfront⟩ := bodyFront_append hc hd
      have hrest := ih (hc.drop _) ((sound_map _ _).1 ((sound_shift _ _).1 hs))
      rw [body_eq, hwidth, if_neg hlt, hfront, hl]
      simp only [bodyFront, front] at h hrest hle ⊢
      rw [h]
      simp only
      rw [List.drop_append_of_le_length hle, hrest]

theorem body_boundary (cs : List Char) : (body cs).Finds fun _ n => Boundary cs n := by
  fun_induction body cs with
  | case1 cs hlt => exact boundary_zero cs
  | case2 cs front hlt h => exact boundary_zero cs
  | case3 cs front hlt f h => trivial
  | case4 cs front hlt l n h ih =>
      have hline := bodyLine_front_boundary h (bodyLine_pos h).1
      exact (finds_shift ..).2 ((finds_map ..).2 (ih.mono fun _ k hk => hline.add hk))

/-! ## The blank and comment lines behind -/

theorem idleLines_eq (cs : List Char) :
    idleLines cs =
      if (cs.drop (indentWidth cs)).head?.any (fun c => c == '\n' || c == ';') then
        lineLength cs + idleLines (cs.drop (lineLength cs))
      else 0 := by
  rw [idleLines]
  split
  · next h => simp [h]
  · next c rest h => simp [h]

theorem idleLines_boundary (cs : List Char) : Boundary cs (idleLines cs) := by
  fun_induction idleLines cs with
  | case1 cs h => exact boundary_zero cs
  | case2 cs c rest h hc ih => exact (boundary_lineLength cs).add ih
  | case3 cs c rest h hc => exact boundary_zero cs

/-- The lines that are passed over go on below a text only when they
reach its end. -/
theorem idleLines_append {cs ds : List Char} (hc : Complete cs) (hd : AtMargin ds) :
    idleLines (cs ++ ds) =
      idleLines cs + if idleLines cs = cs.length then idleLines ds else 0 := by
  fun_induction idleLines cs with
  | case1 cs h =>
      have hnil : cs = [] := by
        by_contra hne
        exact hc.drop_ne_nil hne (indentWidth_le_lineAhead cs) h
      subst hnil
      simp
  | case2 cs c rest h hidle ih =>
      have hne : cs ≠ [] := by
        rintro rfl
        simp at h
      have hany : ((cs ++ ds).drop (indentWidth (cs ++ ds))).head?.any
          (fun c => c == '\n' || c == ';') = true := by
        rw [drop_indentWidth_append hc hd, h]
        simpa using hidle
      have hll := lineLength_le cs
      rw [idleLines_eq, if_pos hany, lineLength_append (hc.newline_mem hne),
        List.drop_append_of_le_length hll, ih (hc.drop _), List.length_drop]
      have hiff : idleLines (cs.drop (lineLength cs)) = cs.length - lineLength cs ↔
          lineLength cs + idleLines (cs.drop (lineLength cs)) = cs.length := by omega
      simp only [hiff]
      omega
  | case3 cs c rest h hidle =>
      have hne : cs ≠ [] := by
        rintro rfl
        simp at h
      have hany : ¬((cs ++ ds).drop (indentWidth (cs ++ ds))).head?.any
          (fun c => c == '\n' || c == ';') = true := by
        rw [drop_indentWidth_append hc hd, h]
        simpa using hidle
      have hpos : ¬0 = cs.length := by
        have := List.length_pos_iff.2 hne
        omega
      rw [idleLines_eq, if_neg hany, if_neg hpos]

/-! ## The whole transaction -/

/-- A body, and the blank and comment lines behind it. -/
def bodyAndIdle (h : Header) : Reader Entry := fun cs =>
  (body cs).andThen cs fun b rest => .found (h.entry b) (idleLines rest)

/-- What comes behind a header. -/
def afterHeader (h : Header) : Reader Entry := fun rest =>
  if endsWithComment rest then .found (h.entry ⟨[], []⟩) (lineLength rest)
  else (bodyAndIdle h (rest.drop (lineLength rest))).shift (lineLength rest)

theorem read_eq (cs : List Char) : read cs = (header cs).andThen cs afterHeader := rfl

theorem bodyAndIdle_boundary (h : Header) (cs : List Char) :
    (bodyAndIdle h cs).Finds fun _ n => Boundary cs n := by
  apply finds_andThen
  exact (body_boundary cs).mono fun b k hk => hk.add (idleLines_boundary _)

theorem afterHeader_boundary (h : Header) (cs : List Char) :
    (afterHeader h cs).Finds fun _ n =>
      ∃ k, n = lineLength cs + k ∧ Boundary (cs.drop (lineLength cs)) k := by
  rw [afterHeader]
  split
  · exact ⟨0, rfl, boundary_zero _⟩
  · exact (finds_shift ..).2 ((bodyAndIdle_boundary h _).mono fun _ k hk => ⟨k, rfl, hk⟩)

/-- **A transaction ends at a boundary.** -/
theorem read_boundary (cs : List Char) : (read cs).Finds fun _ n => Boundary cs n := by
  rw [read_eq]
  apply finds_andThen
  refine (header_le cs).mono fun h n hn => (afterHeader_boundary h _).mono fun _ m hm => ?_
  obtain ⟨k, rfl, hk⟩ := hm
  rw [← Nat.add_assoc]
  exact (Boundary.rest_of_line hn).add (by rwa [← List.drop_drop])

/-- A transaction takes its first line. -/
theorem lineLength_le_read (cs : List Char) :
    (read cs).Finds fun _ n => lineLength cs ≤ n := by
  rw [read_eq]
  refine finds_andThen (finds_iff.2 fun h k _ => (afterHeader_boundary h _).mono fun _ n hn => ?_)
  obtain ⟨m, rfl, -⟩ := hn
  have := lineLength_le_rest cs k
  omega

theorem read_recognised (cs : List Char) :
    (read cs).Finds fun e _ => e.isUnrecognised = false := by
  rw [read_eq]
  refine finds_andThen (finds_iff.2 fun header n _ => ?_)
  rw [afterHeader]
  split
  · rfl
  · refine (finds_shift ..).2 (finds_andThen (finds_iff.2 fun b k _ => ?_))
    rfl

/-- How `answer`, to a text of length `length`, compares with `longer`,
to that text with `ds` put below: the same entry is read, and nothing
more is passed over than the blank and comment lines that come first
below, if the end of the text was reached. -/
structure Reaches (answer longer : Reading Entry) (length : Nat) (ds : List Char) : Prop where
  absent : answer = .absent → longer = .absent
  found : ∀ e n, answer = .found e n → ∃ k, longer = .found e (n + k) ∧
    (k = 0 ∨ n = length ∧ k = idleLines ds)

theorem Reaches.shift {answer longer : Reading Entry} {length : Nat} {ds : List Char}
    (h : Reaches answer longer length ds) (m : Nat) :
    Reaches (answer.shift m) (longer.shift m) (m + length) ds where
  absent ha := by
    cases answer with
    | absent => rw [h.absent rfl]; rfl
    | found e n => simp [Reading.shift] at ha
    | broken f => simp [Reading.shift] at ha
  found e n hf := by
    cases answer with
    | absent => simp [Reading.shift] at hf
    | broken f => simp [Reading.shift] at hf
    | found e' n' =>
        cases hf
        obtain ⟨k, hk, hreach⟩ := h.found _ _ rfl
        refine ⟨k, by rw [hk, shift_found, Nat.add_assoc], ?_⟩
        exact hreach.imp_right fun hr => ⟨by omega, hr.2⟩

theorem bodyAndIdle_append (h : Header) {cs ds : List Char} (hc : Complete cs)
    (hd : AtMargin ds) :
    Reaches (bodyAndIdle h cs) (bodyAndIdle h (cs ++ ds)) cs.length ds := by
  cases hb : body cs with
  | absent =>
      have happ := body_append hc hd (hb ▸ sound_absent)
      refine ⟨fun _ => ?_, fun e n hf => ?_⟩
      · rw [bodyAndIdle, happ, hb]
        rfl
      · simp [bodyAndIdle, hb, andThen] at hf
  | broken f => exact ⟨fun ha => by simp [bodyAndIdle, hb, andThen] at ha,
      fun e n hf => by simp [bodyAndIdle, hb, andThen] at hf⟩
  | found b n =>
      have happ := body_append hc hd (hb ▸ sound_found b n)
      have hn : n ≤ cs.length := ((body_boundary cs).of_eq hb).le
      have hidle := idleLines_append (hc.drop n) hd
      refine ⟨fun ha => by simp [bodyAndIdle, hb, andThen] at ha, fun e m hf => ?_⟩
      rw [bodyAndIdle, hb] at hf
      cases hf
      rw [bodyAndIdle, happ, hb, andThen, shift_found,
        List.drop_append_of_le_length hn, hidle, List.length_drop]
      refine ⟨_, congrArg _ (Nat.add_assoc ..).symm, ?_⟩
      have hle := (idleLines_boundary (cs.drop n)).le
      rw [List.length_drop] at hle
      split
      · exact .inr ⟨by omega, rfl⟩
      · exact .inl rfl

theorem afterHeader_append (h : Header) {cs ds : List Char} (hc : Complete cs) (hne : cs ≠ [])
    (hd : AtMargin ds) :
    Reaches (afterHeader h cs) (afterHeader h (cs ++ ds)) cs.length ds := by
  have hle := lineLength_le cs
  rw [afterHeader, afterHeader, endsWithComment_append hc hne hd,
    lineLength_append (hc.newline_mem hne)]
  split
  · exact ⟨nofun, fun e n hf => ⟨0, by rw [hf, Nat.add_zero], .inl rfl⟩⟩
  · have hrest := (bodyAndIdle_append h (hc.drop (lineLength cs)) hd).shift (lineLength cs)
    rw [List.length_drop, Nat.add_sub_cancel' hle] at hrest
    rw [List.drop_append_of_le_length hle]
    exact hrest

/-- **A transaction does not see text at the margin below it**, but for
the comment lines that it passes over behind its last line. -/
theorem read_append {cs ds : List Char} (hc : Complete cs) (hne : cs ≠ []) (hd : AtMargin ds)
    (hs : (read cs).Sound) : Reaches (read cs) (read (cs ++ ds)) cs.length ds := by
  rw [read_eq] at hs
  have happ := firm_header cs ds hc hne hd (sound_andThen.1 hs).1
  rw [read_eq, read_eq, happ]
  cases hh : header cs with
  | absent => exact ⟨fun _ => rfl, nofun⟩
  | broken f => simp [hh, andThen] at hs
  | found h n =>
      have hn : n < cs.length := (stays_header cs hc hne).of_eq hh
      have hrest := (afterHeader_append h (hc.drop n) (by simpa using hn) hd).shift n
      rw [List.length_drop, Nat.add_sub_cancel' (Nat.le_of_lt hn)] at hrest
      rw [andThen, andThen, List.drop_append_of_le_length (Nat.le_of_lt hn)]
      exact hrest

end Daybook.Transaction
