import Daybook.Proofs.Written.Schema

/-!
# Written — transactions

A transaction is written as a header line, its metadata on lines below,
and a line for each posting, whose own metadata is indented further. The
body is read line by line: every line tells by its indent, and by a colon
behind its first word, whether it is a pair or a posting, and whose.
-/

namespace Daybook

open Daybook.Text Daybook.Reading

namespace Written

/-! ## White space -/

/-- White space of a line, or none. -/
structure Gap where
  text : List Char
  blank : ∀ c ∈ text, isInlineBlank c = true

namespace Gap

theorem blank_none : ∀ c ∈ [], isInlineBlank c = true := List.forall_mem_nil _

theorem blank_space : ∀ c ∈ [' '], isInlineBlank c = true := List.forall_mem_singleton.2 rfl

theorem blank_tab : ∀ c ∈ ['\t'], isInlineBlank c = true := List.forall_mem_singleton.2 rfl

/-- No white space. -/
def none : Gap := ⟨[], blank_none⟩

/-- One space. -/
def space : Gap := ⟨[' '], blank_space⟩

/-- One tab. -/
def tab : Gap := ⟨['\t'], blank_tab⟩

variable (g : Gap) {c : Char}

theorem inlineBlanks_append (hc : isInlineBlank c = false) (cs : List Char) :
    inlineBlanks (g.text ++ c :: cs) = g.text.length := by
  rw [inlineBlanks, takeWhile_append_of_head g.blank]
  intro d hd
  rwa [← Option.some.inj hd]

theorem drop_inlineBlanks_append (hc : isInlineBlank c = false) (cs : List Char) :
    (g.text ++ c :: cs).drop (inlineBlanks (g.text ++ c :: cs)) = c :: cs := by
  rw [g.inlineBlanks_append hc, List.drop_left]

end Gap

/-! ## Readers in a row -/

section Rows

variable {α β : Type} {p q : List Char → Prop} {w u : List Char}

theorem Takes.andThen {first : Reader α} {next : α → Reader β} {v : α} {x : β}
    (hf : Takes p first w v) (hn : Takes q (next v) u x) (hp : ∀ rest, q rest → p (u ++ rest)) :
    Takes q (fun cs => (first cs).andThen cs next) (w ++ u) x := by
  intro rest hr
  have hfirst := hf (u ++ rest) (hp rest hr)
  show (first (w ++ u ++ rest)).andThen (w ++ u ++ rest) next = _
  rw [List.append_assoc, hfirst, Reading.andThen, List.drop_left, hn rest hr,
    Reading.shift_found, List.length_append]

/-- White space is passed over. -/
theorem Takes.behindGap {r : Reader α} {v : α} (h : Takes p r w v) (hw : Solid w) (g : Gap) :
    Takes p (Transaction.behindBlanks r) (g.text ++ w) v := by
  intro rest hr
  obtain ⟨c, cs, rfl, hc⟩ := hw
  have hinline : isInlineBlank c = false := by rw [isInlineBlank, hc, Bool.false_and]
  have htake := h rest hr
  rw [List.cons_append] at htake
  rw [List.append_assoc, List.cons_append, Transaction.behindBlanks,
    g.drop_inlineBlanks_append hinline, htake, g.inlineBlanks_append hinline, shift_found,
    List.length_append]

/-- So is one space. -/
theorem Takes.behindSpace {r : Reader α} {v : α} (h : Takes p r w v) (hw : Solid w) :
    Takes p (Transaction.behindBlanks r) (' ' :: w) v :=
  h.behindGap hw ⟨[' '], List.forall_mem_singleton.2 rfl⟩

end Rows

/-! ## Headers -/

/-- Tags and links come next, and the line ends behind them. -/
def LabelsAhead (cs : List Char) : Prop :=
  ∃ (l : Labels) (below : List Char), cs = l.text ++ '\n' :: below

/-- Payee and narration. -/
def titlesText (payee : Option String) (narration : String) : List Char :=
  match payee with
  | none => quote narration
  | some name => quote name ++ ' ' :: quote narration

theorem solid_titlesText (payee : Option String) (narration : String) :
    Solid (titlesText payee narration) := by
  cases payee with
  | none => exact solid_quote narration
  | some name => exact (solid_quote name).append _

theorem takes_titles (payee : Option String) (narration : String) :
    Takes LabelsAhead Transaction.titles (titlesText payee narration) (payee, narration) := by
  cases payee with
  | none =>
      rintro rest ⟨l, below, rfl⟩
      obtain ⟨c, more, hdrop, hc⟩ := l.head_text below
      have hquote : (c :: more).head? ≠ some '"' := by
        rcases hc with rfl | rfl | rfl <;> simp
      have hsecond : Transaction.secondTitle narration (l.text ++ '\n' :: below) =
          .found (none, narration) 0 := by
        rw [Transaction.secondTitle_eq, Transaction.behindBlanks, hdrop,
          Token.quoted_eq_absent hquote]
        rfl
      have hfirst := takes_quoted LabelsAhead narration (l.text ++ '\n' :: below) ⟨l, below, rfl⟩
      rw [Transaction.titles_eq, titlesText, hfirst, Reading.andThen, List.drop_left, hsecond]
      rfl
  | some name =>
      refine (takes_quoted (fun _ => True) name).andThen (u := ' ' :: quote narration) ?_
        fun _ _ => trivial
      intro rest hr
      have hsecond :=
        (takes_quoted LabelsAhead narration).behindSpace (solid_quote narration) rest hr
      show Transaction.secondTitle name (' ' :: quote narration ++ rest) = _
      rw [Transaction.secondTitle_eq, hsecond]
      rfl

theorem takes_trailingMarks (l : Labels) :
    Takes LineEnd Transaction.trailingMarks l.text l.marks := by
  intro rest hr
  rw [Transaction.trailingMarks, l.marks_text hr]

/-- The first line of a transaction. -/
structure Head where
  date : Word Token.date
  flag : Word Token.flag
  payee : Option String
  narration : String
  labels : Labels

namespace Head

/-- The line as it is written. -/
def text (h : Head) : List Char :=
  h.date.text ++ (' ' :: h.flag.text ++ (' ' :: titlesText h.payee h.narration ++ h.labels.text))

/-- The header that is read. -/
def header (h : Head) : Transaction.Header :=
  ⟨h.date.string, h.flag.string, h.payee, h.narration, h.labels.marks⟩

/-- **The first line is read back.** -/
theorem takes (h : Head) : Takes LineEnd Transaction.header h.text h.header := by
  have hlabels : ∀ rest, LineEnd rest → LabelsAhead (h.labels.text ++ rest) := by
    rintro rest ⟨below, rfl⟩
    exact ⟨h.labels, below, rfl⟩
  refine (h.date.takes Token.separate_date).andThen ?_ fun _ _ => apart_space _
  refine ((h.flag.takes Token.separate_flag).behindSpace
    (h.flag.solid Token.separate_flag)).andThen ?_ fun _ _ => apart_space _
  refine ((takes_titles h.payee h.narration).behindSpace (solid_titlesText _ _)).andThen ?_ hlabels
  exact (takes_trailingMarks h.labels).map _

end Head

/-! ## Postings -/

/-- An account with an amount or without, and its metadata. The account
does not look like a key with its colon. -/
structure Leg where
  account : Word Token.account
  unlikeKey : ∀ w, account.text = w ++ [':'] → ':' ∈ w
  amount : Option Quantity
  metadata : Block

namespace Leg

/-- The amount, two spaces behind the account. -/
def amountText : Option Quantity → List Char
  | none => []
  | some q => ' ' :: ' ' :: q.text

/-- The line of the posting behind its indent, and its metadata. -/
def text (l : Leg) : List Char :=
  l.account.text ++ (amountText l.amount ++ '\n' :: l.metadata.text Transaction.postingIndent)

/-- The posting that is read. -/
def posting (l : Leg) : Posting :=
  ⟨l.account.string, l.amount.map Quantity.amount, l.metadata.value⟩

theorem solid (l : Leg) : Solid l.text := (l.account.solid Token.separate_account).append _

theorem apart_amountText (amount : Option Quantity) (below : List Char) :
    Apart (amountText amount ++ '\n' :: below) := by
  cases amount with
  | none => exact ⟨_, _, rfl, isBlank_newline⟩
  | some q => exact apart_space _

theorem inlineBlanks_twoSpaces {cs : List Char} (h : Solid cs) :
    inlineBlanks (' ' :: ' ' :: cs) = 2 := by
  have hone := inlineBlanks_space h
  rw [inlineBlanks] at hone ⊢
  rw [List.takeWhile_cons_of_pos (by decide), List.length_cons, hone]

/-- An account and an amount reach as far as they are written. -/
theorem postingReach_text (account : List Char) (amount : Option Quantity) (below : List Char) :
    Transaction.postingReach account (account ++ (amountText amount ++ '\n' :: below)) =
      (amount.map Quantity.amount, account.length + (amountText amount).length) := by
  cases amount with
  | none =>
      have hblank := inlineBlanks_newline below
      have hnone : Token.amount? ('\n' :: below) = none := by
        have hdigits : ('\n' :: below).takeWhile isDecimalDigit = [] :=
          List.takeWhile_cons_of_neg (by simp [Token.isDecimalDigit_newline])
        simp [Token.amount?_eq, Numeral.ahead?, Numeral.splitSign, hdigits]
      simp [Transaction.postingReach, amountText, hblank, hnone]
  | some q =>
      have hend : Apart ('\n' :: below) := ⟨_, _, rfl, isBlank_newline⟩
      have hblank : inlineBlanks (amountText (some q) ++ '\n' :: below) = 2 :=
        inlineBlanks_twoSpaces (q.solid.append _)
      have hdrop : (account ++ (amountText (some q) ++ '\n' :: below)).drop (account.length + 2) =
          q.text ++ '\n' :: below := by
        rw [List.drop_length_add_append]
        rfl
      have hamount := q.amount?_text hend
      simp only [Transaction.postingReach, List.drop_left, hblank, hdrop, hamount]
      refine Prod.ext rfl ?_
      simp [amountText]
      omega

/-- **A posting is read back.** -/
theorem posting_text (l : Leg) {rest : List Char} (h : Outdented Transaction.postingIndent rest) :
    Transaction.posting (l.text ++ rest) =
      .found l.posting (l.text.length + l.metadata.behind rest) := by
  have htext : l.text ++ rest = l.account.text ++ (amountText l.amount ++
      '\n' :: (l.metadata.text Transaction.postingIndent ++ rest)) := by simp [text]
  have haccount : Token.account (l.text ++ rest) = some l.account.text := by
    rw [htext]
    exact Token.separate_account.ends _ l.account.whole _ (apart_amountText _ _)
  have hreach := postingReach_text l.account.text l.amount
    (l.metadata.text Transaction.postingIndent ++ rest)
  have hdrop : (l.text ++ rest).drop (l.account.text.length + (amountText l.amount).length) =
      '\n' :: (l.metadata.text Transaction.postingIndent ++ rest) := by
    rw [htext, List.drop_length_add_append, List.drop_left]
  rw [← htext] at hreach
  have hline : lineLength (l.text ++ rest) =
      l.account.text.length + (amountText l.amount).length + 1 := by
    have hrest := lineLength_drop (Transaction.postingReach_lineAhead haccount).2
    rw [hreach, hdrop, lineLength_newline] at hrest
    exact hrest.symm
  have hbelow : (l.text ++ rest).drop (l.account.text.length + (amountText l.amount).length + 1) =
      l.metadata.text Transaction.postingIndent ++ rest := by
    rw [← List.drop_drop, hdrop]
    rfl
  rw [Transaction.posting_eq, haccount, hline, hbelow]
  simp only [hreach]
  rw [blockOrEmpty_text l.metadata h, Reading.map_found, Reading.shift_found]
  refine congrArg (Reading.found _) ?_
  simp [text]
  omega

/-- Behind an account no colon follows. -/
theorem keyEnd_amountText (amount : Option Quantity) (below : List Char) :
    Metadata.keyEnd (amountText amount ++ '\n' :: below) = none := by
  cases amount with
  | none =>
      have hzero := indentWidth_newline below
      simp [amountText, Metadata.keyEnd, hzero]
  | some q =>
      obtain ⟨c, cs, htext, hc⟩ := q.head_text
      have hcolon : c ≠ ':' := by
        rintro rfl
        rcases hc with hc | hc
        · cases hc
        · exact absurd hc (by decide)
      have hwidth : indentWidth (amountText (some q) ++ '\n' :: below) = 2 :=
        indentWidth_replicate 2 (q.solid.append ('\n' :: below))
      have hdrop : (amountText (some q) ++ '\n' :: below).drop 2 = c :: (cs ++ '\n' :: below) := by
        rw [amountText, htext]
        rfl
      rw [Metadata.keyEnd, hwidth, hdrop]
      split
      · next heq => exact absurd (List.cons.inj heq).1 hcolon
      · rfl

theorem account_whole (w : Word Token.account) :
    ∃ c cs, w.text = c :: cs ∧ c.isUpper = true ∧ ∀ d ∈ cs, Token.isAccountChar d = true :=
  Lexeme.headed_whole (Option.filter_eq_some_iff.1 w.whole).1

/-- Of what may stand in an account, only a colon ends a key. -/
theorem eq_colon {d : Char} (h : Token.isAccountChar d = true)
    (hk : Metadata.isKeyChar d = false) : d = ':' := by
  simp only [Token.isAccountChar, Bool.or_eq_true, beq_iff_eq] at h
  simp only [Metadata.isKeyChar, Bool.or_eq_false_iff, beq_eq_false_iff_ne] at hk
  rcases h with ((h | h) | h) | h
  · rw [hk.1.1] at h
    cases h
  · exact h
  · exact absurd h hk.1.2
  · exact absurd h hk.2

/-- The colon of an account has more of the account behind it. -/
theorem keyEnd_colon {d : Char} (hd : Token.isAccountChar d = true) (rest : List Char) :
    Metadata.keyEnd (':' :: d :: rest) = none := by
  have hblank := Token.visible_isAccountChar d hd
  have hnewline : d ≠ '\n' := by
    rintro rfl
    rw [isBlank_newline] at hblank
    cases hblank
  have hzero : indentWidth (':' :: d :: rest) = 0 :=
    Solid.indentWidth_eq_zero ⟨':', _, rfl, by decide⟩
  have hrest : indentWidth (d :: rest) = 0 := Solid.indentWidth_eq_zero ⟨d, rest, rfl, hblank⟩
  simp [Metadata.keyEnd, hzero, hrest, hnewline]

theorem visible_isKeyChar : Visible Metadata.isKeyChar := by
  intro c h
  simp only [Metadata.isKeyChar, Bool.or_eq_true, beq_iff_eq] at h
  rcases h with (h | rfl) | rfl
  · exact isBlank_of_isAlphanum h
  · decide
  · decide

/-- A key at the front is as long as its characters go on. -/
theorem key?_cons {c : Char} (hc : Metadata.isKeyStart c = true) {key tail : List Char}
    (hkey : ∀ d ∈ key, Metadata.isKeyChar d = true)
    (htail : ∀ d ∈ tail.head?, Metadata.isKeyChar d = false)
    (hend : Metadata.keyEnd tail = none) : Metadata.key? (c :: (key ++ tail)) = none := by
  have hhead : Lexeme.headed Metadata.isKeyStart Metadata.isKeyChar (c :: (key ++ tail)) =
      some (c :: key) := by
    rw [Lexeme.headed, if_pos hc, takeWhile_append_of_head hkey htail]
  have hdrop : (c :: (key ++ tail)).drop (c :: key).length = tail := by
    rw [List.length_cons, List.drop_succ_cons, List.drop_left]
  rw [Metadata.key?_eq, hhead, Option.bind_some, hdrop, hend]
  rfl

/-- **No posting is taken for a pair.** Its account goes on behind its
first colon, or has none. -/
theorem pair_text (l : Leg) (rest : List Char) : Metadata.pair (l.text ++ rest) = .absent := by
  obtain ⟨c, cs, haccount, hc, hcs⟩ := account_whole l.account
  generalize hbelow : l.metadata.text Transaction.postingIndent ++ rest = below
  have htext : l.text ++ rest = c :: (cs ++ (amountText l.amount ++ '\n' :: below)) := by
    simp [text, haccount, ← hbelow]
  have hstart : Metadata.isKeyStart c = true := by
    show ((c.isUpper || c.isLower) || c == '_') = true
    rw [hc, Bool.true_or, Bool.true_or]
  -- the key that might stand here is the account up to its first colon
  have hsplit := List.takeWhile_append_dropWhile (p := Metadata.isKeyChar) (l := cs)
  have hall : ∀ d ∈ cs.takeWhile Metadata.isKeyChar, Metadata.isKeyChar d = true :=
    fun d hd => List.mem_takeWhile_imp hd
  have hstop := List.head?_dropWhile_not Metadata.isKeyChar cs
  generalize cs.takeWhile Metadata.isKeyChar = key at hsplit hall
  generalize cs.dropWhile Metadata.isKeyChar = more at hsplit hstop
  have hnone : Metadata.key? (l.text ++ rest) = none := by
    rw [htext, ← hsplit]
    cases more with
    | nil =>
        rw [List.append_nil]
        exact key?_cons hstart hall
          ((apart_amountText l.amount below).head?_eq_false visible_isKeyChar)
          (keyEnd_amountText l.amount below)
    | cons d more =>
        have hd : Metadata.isKeyChar d = false := by simpa using hstop
        obtain rfl : d = ':' := eq_colon (hcs d (by simp [← hsplit])) hd
        rw [List.append_assoc]
        refine key?_cons hstart hall (by simpa using hd) ?_
        cases more with
        | nil =>
            -- the account would be a key and its colon
            have hcolon := l.unlikeKey (c :: key) (by simp [haccount, ← hsplit])
            rcases List.mem_cons.1 hcolon with rfl | hmem
            · exact absurd hc (by decide)
            · rw [hall _ hmem] at hd
              cases hd
        | cons e more =>
            exact keyEnd_colon (hcs e (by simp [← hsplit])) _
  rw [Metadata.pair_eq, hnone]

end Leg

/-! ## Bodies -/

/-- A line that is indented by two spaces has no blank line before it. -/
theorem front_line {w : List Char} (hw : Solid w) :
    blankLines (' ' :: ' ' :: w) = 0 ∧ indentWidth (' ' :: ' ' :: w) = 2 := by
  have hwidth : indentWidth (' ' :: ' ' :: w) = 2 := indentWidth_replicate 2 hw
  refine ⟨blankLines_eq_zero ?_, hwidth⟩
  rw [hwidth]
  exact hw.atMargin.head?_ne_newline

/-- The body goes on behind each of its lines. -/
theorem body_line {w : List Char} (hw : Solid w) {l : Transaction.BodyLine} {n : Nat}
    (h : Transaction.bodyLine w = .found l n) :
    Transaction.body (' ' :: ' ' :: w) =
      ((Transaction.body (w.drop n)).map fun b => b.add l).shift (2 + n) := by
  obtain ⟨hblank, hwidth⟩ := front_line hw
  have hfront : Transaction.bodyFront (' ' :: ' ' :: w) = 2 := by
    rw [Transaction.bodyFront, hblank, List.drop_zero, hwidth]
  have hdrop : (' ' :: ' ' :: w).drop (2 + n) = w.drop n := by
    rw [← List.drop_drop]
    rfl
  rw [Transaction.body_eq, hblank, List.drop_zero, hwidth, if_neg (by decide), hfront,
    List.drop_succ_cons, List.drop_succ_cons, List.drop_zero, h]
  simp only [hdrop]

theorem bodyLine_pair (p : Pair) (rest : List Char) :
    Transaction.bodyLine (p.text ++ '\n' :: rest) =
      .found (.pair p.value) (p.text.length + 1) := by
  have hhead : (p.text ++ '\n' :: rest).head? ≠ some ';' := by
    obtain ⟨c, cs, hkey, hc, -⟩ := Lexeme.headed_whole p.key.whole
    have hsemi : c ≠ ';' := by
      rintro rfl
      exact absurd hc (by decide)
    simpa [Pair.text, hkey] using hsemi
  have hpair := takes_pair p ('\n' :: rest) ⟨rest, rfl⟩
  rw [Transaction.bodyLine_eq, if_neg hhead, hpair]
  simp [Metadata.newline]

theorem bodyLine_leg (l : Leg) {rest : List Char}
    (h : Outdented Transaction.postingIndent rest) :
    Transaction.bodyLine (l.text ++ rest) =
      .found (.posting l.posting) (l.text.length + l.metadata.behind rest) := by
  have hhead : (l.text ++ rest).head? ≠ some ';' := by
    obtain ⟨c, cs, haccount, hc, -⟩ := Leg.account_whole l.account
    have hsemi : c ≠ ';' := by
      rintro rfl
      exact absurd hc (by decide)
    simpa [Leg.text, haccount] using hsemi
  rw [Transaction.bodyLine_eq, if_neg hhead, l.pair_text rest, l.posting_text h]
  rfl

/-- Postings, each on a line of its own with its metadata below. -/
def legsText (ls : List Leg) : List Char := ls.flatMap fun l => ' ' :: ' ' :: l.text

theorem legsText_cons (l : Leg) (ls : List Leg) (rest : List Char) :
    legsText (l :: ls) ++ rest = ' ' :: ' ' :: (l.text ++ (legsText ls ++ rest)) := by
  simp [legsText]

theorem length_legsText (l : Leg) (ls : List Leg) :
    (legsText (l :: ls)).length = 2 + l.text.length + (legsText ls).length := by
  simp [legsText]
  omega

/-- What is not indented as far as a body ends it, with the blank lines
before. -/
theorem body_outdented {rest : List Char} (h : Outdented Transaction.bodyIndent rest) :
    Transaction.body rest = .found ⟨[], []⟩ 0 := by
  have hlow : indentWidth (rest.drop (blankLines rest)) < Transaction.bodyIndent := h
  rw [Transaction.body_eq, if_pos hlow]

theorem Outdented.drop_blankLines {indent : Nat} {cs : List Char} (h : Outdented indent cs) :
    Outdented indent (cs.drop (blankLines cs)) := by
  rw [Outdented, blankLines_drop, List.drop_zero]
  exact h

/-- A posting's metadata ends where the next posting or anything less
indented follows. -/
theorem outdented_legsText (ls : List Leg) {rest : List Char}
    (h : Outdented Transaction.bodyIndent rest) :
    Outdented Transaction.postingIndent (legsText ls ++ rest) := by
  cases ls with
  | nil => exact Nat.lt_trans h (by decide)
  | cons l ls =>
      have hsolid : Solid (l.text ++ (legsText ls ++ rest)) := l.solid.append _
      obtain ⟨hblank, hwidth⟩ := front_line hsolid
      rw [legsText_cons, Outdented, hblank, List.drop_zero, hwidth]
      decide

/-- No blank line comes before a posting. -/
theorem blankLines_legsText {ls : List Leg} (hne : ls ≠ []) (rest : List Char) :
    blankLines (legsText ls ++ rest) = 0 := by
  cases ls with
  | nil => exact absurd rfl hne
  | cons l ls =>
      rw [legsText_cons]
      exact (front_line (l.solid.append _)).1

theorem Block.behind_cases (b : Block) (rest : List Char) :
    b.behind rest = 0 ∨ b.behind rest = blankLines rest := by
  rw [Block.behind]
  split
  · exact .inl rfl
  · exact .inr rfl

/-- **Postings are read back.** The last of them may take the blank lines
behind. -/
theorem body_legsText (ls : List Leg) {rest : List Char}
    (h : Outdented Transaction.bodyIndent rest) :
    ∃ k, (k = 0 ∨ k = blankLines rest) ∧ Transaction.body (legsText ls ++ rest) =
      .found ⟨ls.map Leg.posting, []⟩ ((legsText ls).length + k) := by
  induction ls with
  | nil => exact ⟨0, .inl rfl, body_outdented h⟩
  | cons l ls ih =>
      have hline := bodyLine_leg l (outdented_legsText ls h)
      have hdrop : ∀ n, (l.text ++ (legsText ls ++ rest)).drop (l.text.length + n) =
          (legsText ls ++ rest).drop n := fun n => List.drop_length_add_append ..
      have hlength := length_legsText l ls
      have hstep := body_line (l.solid.append (legsText ls ++ rest)) hline
      rw [hdrop] at hstep
      rw [legsText_cons, hstep]
      by_cases hlast : ls = []
      · -- behind the last posting the body ends
        subst hlast
        have hrest : legsText [] ++ rest = rest := rfl
        have hend : Transaction.body (rest.drop (l.metadata.behind rest)) = .found ⟨[], []⟩ 0 := by
          rcases l.metadata.behind_cases rest with hk | hk
          · rw [hk, List.drop_zero]
            exact body_outdented h
          · rw [hk]
            exact body_outdented h.drop_blankLines
        refine ⟨l.metadata.behind rest, l.metadata.behind_cases rest, ?_⟩
        rw [hrest, hend, Reading.map_found, Reading.shift_found, hlength]
        refine congrArg (Reading.found _) ?_
        simp [legsText]
        omega
      · have hnone : l.metadata.behind (legsText ls ++ rest) = 0 := by
          rcases l.metadata.behind_cases (legsText ls ++ rest) with hk | hk
          · exact hk
          · rw [hk, blankLines_legsText hlast]
        obtain ⟨k, hk, hbody⟩ := ih
        refine ⟨k, hk, ?_⟩
        rw [hnone, List.drop_zero, hbody, Reading.map_found, Reading.shift_found, hlength]
        refine congrArg (Reading.found _) ?_
        omega

/-- The pairs of an entry are read before its postings. -/
theorem body_blockText (ps : List Pair) (rest : List Char) :
    Transaction.body (blockText Transaction.bodyIndent ps ++ rest) =
      ((Transaction.body rest).map fun b =>
        { b with metadata := ps.map Pair.value ++ b.metadata }).shift
          (blockText Transaction.bodyIndent ps).length := by
  induction ps with
  | nil =>
      rw [blockText, List.flatMap_nil, List.nil_append, List.length_nil, Reading.shift_zero]
      cases Transaction.body rest <;> rfl
  | cons p ps ih =>
      have htext : blockText Transaction.bodyIndent (p :: ps) ++ rest = ' ' :: ' ' ::
          (p.text ++ '\n' :: (blockText Transaction.bodyIndent ps ++ rest)) := by
        simp [blockText, Pair.line, Transaction.bodyIndent, List.replicate]
      have hlength : (blockText Transaction.bodyIndent (p :: ps)).length =
          2 + (p.text.length + 1) + (blockText Transaction.bodyIndent ps).length := by
        simp [blockText, Pair.line, Transaction.bodyIndent]
        omega
      rw [htext, body_line (p.solid.append _) (bodyLine_pair p _), drop_line, ih, hlength,
        Reading.map_shift, Reading.shift_shift]
      refine congrArg (Reading.shift _) ?_
      cases Transaction.body rest <;> rfl

/-! ## Whole transactions -/

/-- A transaction: its first line, its metadata and its postings. -/
structure Deal where
  head : Head
  metadata : Block
  legs : List Leg

namespace Deal

/-- The transaction as it is written. -/
def text (d : Deal) : List Char :=
  d.head.text ++ '\n' :: (d.metadata.text Transaction.bodyIndent ++ legsText d.legs)

/-- The entry, without its place. -/
def entry (d : Deal) : Entry :=
  ⟨d.head.date.string, d.metadata.value, .transaction
    ⟨d.head.flag.string, d.head.payee, d.head.narration, d.legs.map Leg.posting,
      d.head.labels.tags.map Word.string, d.head.labels.links.map Word.string⟩⟩

theorem entry_eq (d : Deal) :
    d.head.header.entry ⟨d.legs.map Leg.posting, d.metadata.value⟩ = d.entry := by
  rw [Transaction.Header.entry, d.metadata.collect_value, Head.header, d.head.labels.tags_marks,
    d.head.labels.links_marks]
  rfl

/-- **A transaction is read back.** Blank lines and comments behind it may
be passed over with it. -/
theorem read_text (d : Deal) {rest : List Char} (h : Outdented Transaction.bodyIndent rest) :
    ∃ k, (k = 0 ∨ k = blankLines rest) ∧ Transaction.read (d.text ++ rest) =
      .found d.entry (d.text.length + k + Transaction.idleLines (rest.drop k)) := by
  obtain ⟨k, hk, hlegs⟩ := body_legsText d.legs h
  refine ⟨k, hk, ?_⟩
  generalize hbelow : d.metadata.text Transaction.bodyIndent ++ (legsText d.legs ++ rest) = below
  have htext : d.text ++ rest = d.head.text ++ '\n' :: below := by
    simp [text, ← hbelow]
  have hhead := d.head.takes ('\n' :: below) ⟨below, rfl⟩
  have hcomment : Transaction.endsWithComment ('\n' :: below) = false := by
    have hnone := commentStart_eq_none (l := []) (by simp) (by simp) below
    rw [List.nil_append] at hnone
    rw [Transaction.endsWithComment, hnone]
  have hline := lineLength_newline below
  have hbody : Transaction.body below = .found ⟨d.legs.map Leg.posting, d.metadata.value⟩
      ((d.metadata.text Transaction.bodyIndent).length + ((legsText d.legs).length + k)) := by
    rw [← hbelow, Block.text, body_blockText, hlegs, Reading.map_found, Reading.shift_found,
      List.append_nil]
    rfl
  have hdrop : below.drop ((d.metadata.text Transaction.bodyIndent).length +
      ((legsText d.legs).length + k)) = rest.drop k := by
    rw [← hbelow, List.drop_length_add_append, List.drop_length_add_append]
  rw [htext, Transaction.read_eq, hhead, Reading.andThen, List.drop_left,
    Transaction.afterHeader, hcomment, hline]
  simp only [Bool.false_eq_true, if_false, List.drop_succ_cons, List.drop_zero]
  rw [Transaction.bodyAndIdle, hbody, Reading.andThen, hdrop, d.entry_eq, Reading.shift_found,
    Reading.shift_found, Reading.shift_found]
  refine congrArg (Reading.found _) ?_
  simp [text]
  omega

end Deal

/-- Where no flag stands behind the date, a transaction is absent. -/
theorem read_absent (date : Word Token.date) {c : Char} (hc : c ≠ '*' ∧ c ≠ '!')
    (hb : isBlank c = false) (rest : List Char) :
    Transaction.read (date.text ++ ' ' :: c :: rest) = .absent := by
  have hdate := (date.takes Token.separate_date) (' ' :: c :: rest) (apart_space _)
  have hflag : Transaction.behindBlanks Token.flag.read (' ' :: c :: rest) = .absent := by
    rw [Transaction.behindBlanks, inlineBlanks_space ⟨c, rest, rfl, hb⟩, List.drop_succ_cons,
      List.drop_zero]
    simp [Lexeme.read, Token.flag, Lexeme.shape, hc, Reading.ofOption, Reading.shift]
  have hheader : Transaction.header (date.text ++ ' ' :: c :: rest) = .absent := by
    rw [Transaction.header, hdate, Reading.andThen, List.drop_left, hflag]
    rfl
  rw [Transaction.read_eq, hheader]
  rfl

end Written
end Daybook
