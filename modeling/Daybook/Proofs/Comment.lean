import Daybook.Proofs.Builtin
import Daybook.Proofs.Outline
import Daybook.Proofs.Written.Word

/-!
# Comment — comment lines in a body

A comment line among the lines of a body changes nothing of what is read,
but for one place: below a posting it ends the posting's metadata. Pairs
that come behind it and would have been the posting's become pairs of the
transaction (`Moves`).
-/

namespace Daybook.Transaction

open Daybook.Text Daybook.Reading

/-! ## Comment lines -/

/-- An indented line that starts with a semicolon. -/
structure CommentLine (l : List Char) : Prop where
  noNewline : '\n' ∉ l
  indented : bodyIndent ≤ indentWidth l
  semicolon : (l.drop (indentWidth l)).head? = some ';'

/-- Spaces, a semicolon and any text without a newline. -/
theorem commentLine_spaces {width : Nat} (hw : bodyIndent ≤ width) {text : List Char}
    (h : '\n' ∉ text) : CommentLine (List.replicate width ' ' ++ ';' :: text) := by
  have hindent : indentWidth (List.replicate width ' ' ++ ';' :: text) = width := by
    have hspaces : ∀ c ∈ List.replicate width ' ', isIndent c = true := by
      intro c hc
      rw [(List.mem_replicate.1 hc).2]
      rfl
    rw [indentWidth, List.takeWhile_append_of_pos hspaces, List.takeWhile_cons_of_neg (by decide),
      List.append_nil, List.length_replicate]
  have hdrop : (List.replicate width ' ' ++ ';' :: text).drop width = ';' :: text := by
    rw [List.drop_append_of_le_length (by simp), List.drop_eq_nil_of_le (by simp), List.nil_append]
  refine ⟨by simp [h], by rwa [hindent], ?_⟩
  rw [hindent, hdrop]
  rfl

theorem CommentLine.single {l : List Char} (h : CommentLine l) : Single l := by
  refine ⟨h.noNewline, fun k hk => ?_⟩
  rw [pair_absent_of_head h.semicolon] at hk
  cases hk

theorem CommentLine.ne_nil {l : List Char} (h : CommentLine l) :
    l.drop (indentWidth l) ≠ [] := by
  intro hnil
  have hsemi := h.semicolon
  rw [hnil] at hsemi
  cases hsemi

theorem CommentLine.kindOf_eq {l : List Char} (h : CommentLine l) : kindOf l = .comment := by
  rw [kindOf, if_neg h.ne_nil, if_neg (Nat.not_lt.2 h.indented), if_pos h.semicolon]

/-- A comment does not belong to the metadata of a posting. -/
theorem CommentLine.own?_eq {l : List Char} (h : CommentLine l) : own? l = none := by
  rw [own?, if_neg h.ne_nil, pair_absent_of_head h.semicolon]
  split <;> rfl

/-- The open posting gets no more metadata: its pairs go to the body. -/
def Remainder.release (r : Remainder) : Remainder := ⟨[], r.body.prepend r.own⟩

/-- What a comment does to what is read below it. -/
def Place.cut : Place → Remainder → Remainder
  | .posting, r => r.release
  | _, r => r

/-- **A comment line is passed over**; below a posting it cuts the
metadata off. -/
theorem resume_comment (s : Place) {l : List Char} (h : CommentLine l) (below : List Char) :
    resume s (l ++ '\n' :: below) = (resume s below).map s.cut := by
  rw [resume_line s h.single]
  cases s with
  | plain =>
      rw [Place.next, h.kindOf_eq]
      refine congrArg (fun f => (resume .plain below).map f) (funext fun r => ?_)
      rw [Place.put, h.kindOf_eq]
      rfl
  | ended => rfl
  | broken => rfl
  | posting =>
      have hput : Place.posting.put l = id := by
        funext r
        simp only [Place.put, h.own?_eq, h.kindOf_eq]
        rfl
      have hnext : Place.posting.next l = .plain := by
        simp only [Place.next, h.own?_eq, h.kindOf_eq]
        rfl
      rw [hput, hnext, Option.map_id, resume, body_of_pairs, Option.map_map]
      rfl

/-! ## Pairs that change hands -/

/-- The pairs `own` are metadata of a posting in the first body and of
the transaction in the second; nothing else differs. -/
structure Moves (own : List (String × Scalar)) (b b' : Body) : Prop where
  split : ∃ (above below : List Posting) (account : String) (amount : Option Amount)
    (kept upper lower : List (String × Scalar)),
    b = ⟨above ++ ⟨account, amount, Pairs.collect (kept ++ own)⟩ :: below, upper ++ lower⟩ ∧
      b' = ⟨above ++ ⟨account, amount, Pairs.collect kept⟩ :: below, upper ++ (own ++ lower)⟩

theorem Moves.add {own : List (String × Scalar)} {b b' : Body} (h : Moves own b b')
    (l : BodyLine) : Moves own (b.add l) (b'.add l) := by
  obtain ⟨above, below, account, amount, kept, upper, lower, rfl, rfl⟩ := h.split
  cases l with
  | comment => exact h
  | pair p => exact ⟨above, below, account, amount, kept, p :: upper, lower, rfl, rfl⟩
  | posting p => exact ⟨p :: above, below, account, amount, kept, upper, lower, rfl, rfl⟩

/-- The pairs `own` change hands: they are the last of the open posting,
or a posting further down had them. -/
inductive Moved (own : List (String × Scalar)) : Place → Remainder → Remainder → Prop
  | opened (kept : List (String × Scalar)) (b : Body) :
      Moved own .posting ⟨kept ++ own, b⟩ ⟨kept, b.prepend own⟩
  | closed {s : Place} {ps : List (String × Scalar)} {b b' : Body} (h : Moves own b b') :
      Moved own s ⟨ps, b⟩ ⟨ps, b'⟩

section Moved

variable {own : List (String × Scalar)} {r r' : Remainder}

/-- A posting above the open pairs takes those that are left. -/
theorem moves_posting (account : String) (amount : Option Amount)
    (kept : List (String × Scalar)) (b : Body) :
    Moves own (b.add (.posting ⟨account, amount, Pairs.collect (kept ++ own)⟩))
      ((b.prepend own).add (.posting ⟨account, amount, Pairs.collect kept⟩)) :=
  ⟨[], b.postings, account, amount, kept, [], b.metadata, rfl, rfl⟩

theorem Moved.putKind {k : LineKind} (h : Moved own k.place r r') (s : Place) :
    Moved own s (k.put r) (k.put r') := by
  cases k with
  | posting account amount =>
      cases h with
      | opened kept b => exact .closed (moves_posting account amount kept b)
      | closed h => exact .closed (h.add _)
  | pair p =>
      cases h with
      | closed h => exact .closed (h.add _)
  | blank =>
      cases h with
      | closed h => exact .closed h
  | comment =>
      cases h with
      | closed h => exact .closed h
  | other =>
      cases h with
      | closed h => exact .closed h
  | broken =>
      cases h with
      | closed h => exact .closed h

/-- **A line above** keeps what changes hands apart from all else. -/
theorem Moved.put {s : Place} {l : List Char} (h : Moved own (s.next l) r r') :
    Moved own s (s.put l r) (s.put l r') := by
  cases s with
  | plain => exact h.putKind .plain
  | ended => exact h
  | broken => exact h
  | posting =>
      simp only [Place.next] at h
      simp only [Place.put]
      cases ho : own? l with
      | none =>
          rw [ho] at h
          exact h.putKind .posting
      | some ps =>
          rw [ho] at h
          cases h with
          | opened kept b =>
              simp only [← List.append_assoc]
              exact .opened (ps ++ kept) b
          | closed h => exact .closed h

theorem Moved.putAll {s : Place} {ls : List (List Char)} (h : Moved own (s.below ls) r r') :
    Moved own s (s.putAll ls r) (s.putAll ls r') := by
  induction ls generalizing s with
  | nil => exact h
  | cons l ls ih => exact (ih h).put

theorem Moved.moves (h : Moved own .plain r r') : Moves own r.body r'.body := by
  cases h with
  | closed h => exact h

end Moved

/-! ## Bodies -/

/-- The boundary between the lines cuts the metadata of a posting: it
lies below the posting, and `own` is metadata of it that comes next. -/
structure Cuts (upper : List (List Char)) (lower : List Char)
    (own : List (String × Scalar)) : Prop where
  below : Place.plain.below upper = .posting
  ahead : ∃ n, Metadata.pairs postingIndent lower = .found own n
  more : own ≠ []

theorem body_eq_resume (cs : List Char) : (body cs).value? = (resume .plain cs).map (·.body) := by
  rw [resume, Option.map_map]
  exact (Option.map_id' ..).symm

section Bodies

variable {upper : List (List Char)} {lower l : List Char}

/-- What the lines above make of what a comment leaves. -/
theorem body_comment_eq (hu : ∀ l ∈ upper, Single l) (hl : CommentLine l)
    (lower : List Char) :
    (body (linesText upper ++ lower)).value? =
        (resume (Place.plain.below upper) lower).map (fun r => (Place.plain.putAll upper r).body) ∧
      (body (linesText upper ++ (l ++ '\n' :: lower))).value? =
        (resume (Place.plain.below upper) lower).map
          (fun r => (Place.plain.putAll upper ((Place.plain.below upper).cut r)).body) := by
  refine ⟨?_, ?_⟩
  · rw [body_eq_resume, resume_lines .plain hu, Option.map_map]
    rfl
  · rw [body_eq_resume, resume_lines .plain hu, resume_comment _ hl, Option.map_map,
      Option.map_map]
    rfl

/-- **A comment that cuts no metadata is passed over.** -/
theorem body_comment (hu : ∀ l ∈ upper, Single l) (hl : CommentLine l)
    (hcut : ∀ own, ¬Cuts upper lower own) :
    (body (linesText upper ++ (l ++ '\n' :: lower))).value? =
      (body (linesText upper ++ lower)).value? := by
  obtain ⟨hbefore, hafter⟩ := body_comment_eq hu hl lower
  rw [hbefore, hafter]
  cases hplace : Place.plain.below upper with
  | plain => rfl
  | ended => rfl
  | broken => rfl
  | posting =>
      rw [resume]
      cases hps : Metadata.pairs postingIndent lower with
      | absent => rfl
      | broken f => rfl
      | found own n =>
          obtain rfl : own = [] := by
            by_contra hmore
            exact hcut own ⟨hplace, ⟨n, hps⟩, hmore⟩
          rw [behindPairs, Option.map_map, Option.map_map]
          rfl

/-- **A comment that cuts metadata** moves the rest of it. -/
theorem body_cut (hu : ∀ l ∈ upper, Single l) (hl : CommentLine l)
    {own : List (String × Scalar)} (hcut : Cuts upper lower own) :
    Option.Rel (Moves own) (body (linesText upper ++ lower)).value?
      (body (linesText upper ++ (l ++ '\n' :: lower))).value? := by
  obtain ⟨hbefore, hafter⟩ := body_comment_eq hu hl lower
  obtain ⟨n, hps⟩ := hcut.ahead
  rw [hbefore, hafter, hcut.below, resume, hps, behindPairs]
  cases (body (lower.drop n)).value? with
  | none => exact .none
  | some b =>
      -- at the boundary all that is open changes hands; the lines above keep it apart
      have hopen : Moved own (Place.plain.below upper) ⟨[] ++ own, b⟩ ⟨[], b.prepend own⟩ :=
        hcut.below ▸ .opened [] b
      exact .some (Moved.putAll hopen).moves

end Bodies

/-! ## Transactions -/

/-- The text is a header and the rest of its line, without the newline
and without a comment. -/
structure Heads (h : Header) (head : List Char) : Prop where
  ends : ∃ n, header (head ++ ['\n']) = .found h n ∧ n ≤ head.length ∧
    '\n' ∉ head.drop n ∧ Token.commentStart (head.drop n) = none

theorem body_ne_absent (cs : List Char) : body cs ≠ .absent := by
  fun_induction body cs with
  | case1 cs hlt => simp
  | case2 cs front hlt h => simp
  | case3 cs front hlt f h => simp
  | case4 cs front hlt l n h ih =>
      cases hb : body (cs.drop (front + n)) with
      | absent => exact absurd hb ih
      | broken f => simp [Reading.shift]
      | found b k => simp

section Heads

variable {h : Header} {head : List Char}

theorem Heads.header_eq (hh : Heads h head) (below : List Char) :
    ∃ n, header (head ++ '\n' :: below) = .found h n := by
  obtain ⟨n, hf, hn, -⟩ := hh.ends
  exact ⟨n, settled_header head [] below h n hn hf⟩

/-- Below a header without a comment, a body is read. -/
theorem Heads.read_eq (hh : Heads h head) (below : List Char) :
    read (head ++ '\n' :: below) = ((body below).andThen below fun b rest =>
      .found (h.entry b) (idleLines rest)).shift (head.length + 1) := by
  obtain ⟨n, hf, hn, hline, hc⟩ := hh.ends
  have hheader : header (head ++ '\n' :: below) = .found h n :=
    settled_header head [] below h n hn hf
  have hcomment : endsWithComment (head.drop n ++ '\n' :: below) = false := by
    rw [endsWithComment, Token.onLine_commentStart.newline, hc]
  rw [Transaction.read_eq, hheader, andThen, List.drop_append_of_le_length hn, afterHeader,
    hcomment, if_neg Bool.false_ne_true, lineLength_line _ below hline, drop_line, shift_shift,
    List.length_drop]
  rw [show n + (head.length - n + 1) = head.length + 1 by omega]
  rfl

theorem Heads.read_value (hh : Heads h head) (below : List Char) :
    (read (head ++ '\n' :: below)).value? = (body below).value?.map h.entry := by
  rw [hh.read_eq, value?_shift]
  cases body below <;> rfl

theorem Heads.read_ne_absent (hh : Heads h head) (below : List Char) :
    read (head ++ '\n' :: below) ≠ .absent := by
  rw [hh.read_eq]
  cases hb : body below with
  | absent => exact absurd hb (body_ne_absent below)
  | broken f => simp [andThen, Reading.shift]
  | found b n => simp [andThen]

end Heads

end Daybook.Transaction

namespace Daybook

open Daybook.Text Daybook.Reading

theorem Cursor.location_start (source : String) (cs : List Char) :
    (Cursor.start source cs).location = Entry.place source 1 := rfl

/-- The entry that is read at the cursor, unless that meets a flaw. -/
def Grammar.entryAt? (g : Grammar) (c : Cursor) : Option Entry :=
  (g.entryAt c).toOption.map (·.1)

namespace Builtin

/-! ## Entries -/

/-- No keyword starts like a flag. -/
theorem keyword_of_flag {word : String} {first : Char} (hfirst : word.toList.head? = some first)
    (hflag : first ≠ '*' ∧ first ≠ '!') {cs w : List Char} (h : Token.flag cs = some w) :
    Token.keyword word cs = none := by
  rw [Token.keyword, Option.filter_eq_none_iff]
  intro found hfound
  exfalso
  rw [Token.literal] at hfound
  split at hfound
  · cases hfound
  · cases cs with
    | nil => simp [Token.flag, Lexeme.shape] at h
    | cons c cs =>
        obtain ⟨rest, hword⟩ := List.head?_eq_some_iff.1 hfirst
        have hc : c = first := by
          by_contra hc
          simp [hword, Lexeme.word, Lexeme.shape, hc] at hfound
        simp [Token.flag, Lexeme.shape, hc, hflag] at h

/-- Where the header of a transaction stands, a schema is absent: its
keyword is no flag. -/
theorem schema_absent_of_header {cs : List Char} {h : Transaction.Header} {n : Nat}
    (hh : Transaction.header cs = .found h n) {word : String}
    {first : Char} (hfirst : word.toList.head? = some first) (hflag : first ≠ '*' ∧ first ≠ '!')
    (kind : String) (fs : List Field) :
    (Directive.schema kind (header word ++ fs)).body registry cs = .absent := by
  have hne : Transaction.header cs ≠ .absent := by
    rw [hh]
    exact nofun
  obtain ⟨date, flag, hdate, hf⟩ := Transaction.header_front hne
  have hblank := Token.date_visible hdate
  have hkeyword : (keywordField word).read registry
      ((cs.drop date.length).drop (inlineBlanks (cs.drop date.length))) = .absent := by
    rw [read_keywordField]
    show ((Token.keyword word).read _).map Value.text = .absent
    rw [Lexeme.read, keyword_of_flag hfirst hflag hf]
    rfl
  have hread : dateField.read registry cs = .found (.text (String.ofList date)) date.length := by
    rw [read_dateField]
    show (Token.date.read cs).map Value.text = _
    rw [Lexeme.read, hdate]
    rfl
  show Directive.readSchema registry kind (header word ++ fs) cs = .absent
  rw [Directive.readSchema_eq, header_eq, List.cons_append, Field.readAll_cons, hblank,
    List.drop_zero, hread]
  simp only [Nat.zero_add]
  rw [List.cons_append, Field.readAll_cons, hkeyword]
  rfl

/-- **Where the header of a transaction stands, no other directive
answers.** -/
theorem firstBody_of_header {source : String} {cs : List Char} {h : Transaction.Header} {n : Nat}
    (hh : Transaction.header cs = .found h n) (hread : Transaction.read cs ≠ .absent) :
    Grammar.firstBody registry cs (grammar source).directives = Transaction.read cs := by
  -- the schemas that are tried before it are absent
  have hopen : openDirective.body registry cs = .absent :=
    schema_absent_of_header hh rfl (by decide) _ _
  have hclose : closeDirective.body registry cs = .absent :=
    schema_absent_of_header hh rfl (by decide) _ _
  have hbalance : balanceDirective.body registry cs = .absent :=
    schema_absent_of_header hh rfl (by decide) _ _
  have hprice : priceDirective.body registry cs = .absent :=
    schema_absent_of_header hh rfl (by decide) _ _
  have hnote : noteDirective.body registry cs = .absent :=
    schema_absent_of_header hh rfl (by decide) _ _
  have hcustom : (Directive.custom "transaction" fun c => Transaction.read c.rest).body
      registry cs = Transaction.read cs := rfl
  show Grammar.firstBody registry cs [openDirective, closeDirective, balanceDirective,
    priceDirective, noteDirective, .custom "transaction" fun c => Transaction.read c.rest,
    budgetDirective] = _
  simp only [Grammar.firstBody, hopen, hclose, hbalance, hprice, hnote, hcustom]

section Comments

variable {source : String} {c c' : Cursor} {h : Transaction.Header} {head : List Char}

/-- Below the header of a transaction, the body decides. -/
theorem entryAt?_of_heads (hh : Transaction.Heads h head) {below : List Char}
    (hc : c.rest = head ++ '\n' :: below) :
    (grammar source).entryAt? c =
      (Transaction.body below).value?.map fun b => (h.entry b).locatedAt c.location := by
  obtain ⟨n, hheader⟩ := hh.header_eq below
  have hfirst : Grammar.firstBody (grammar source).registry c.rest (grammar source).directives =
      Transaction.read (head ++ '\n' :: below) := by
    rw [hc]
    exact firstBody_of_header hheader (hh.read_ne_absent below)
  have hlocated : (Transaction.body below).value?.map (fun b => (h.entry b).locatedAt c.location) =
      (Transaction.read (head ++ '\n' :: below)).value?.map (·.locatedAt c.location) := by
    rw [hh.read_value, Option.map_map]
    rfl
  rw [Grammar.entryAt?, Grammar.entryAt_eq (ofShape_grammar source), hfirst, hlocated]
  cases hr : Transaction.read (head ++ '\n' :: below) with
  | absent => exact absurd hr (hh.read_ne_absent below)
  | broken f => rfl
  | found e n => rfl

/-- **A comment line in a transaction changes nothing, unless it cuts the
metadata of a posting.** Then the pairs that come next are metadata of the
transaction and no longer of the posting, and nothing else changes. -/
theorem entryAt?_comment {upper : List (List Char)} {lower l : List Char}
    (hh : Transaction.Heads h head) (hupper : ∀ l ∈ upper, Transaction.Single l)
    (hl : Transaction.CommentLine l)
    (hc : c.rest = head ++ '\n' :: (Transaction.linesText upper ++ lower))
    (hc' : c'.rest = head ++ '\n' :: (Transaction.linesText upper ++ (l ++ '\n' :: lower)))
    (hlocation : c'.location = c.location) :
    ((∀ own, ¬Transaction.Cuts upper lower own) →
        (grammar source).entryAt? c' = (grammar source).entryAt? c) ∧
      ∀ own, Transaction.Cuts upper lower own →
        Option.Rel (fun e e' => ∃ b b', Transaction.Moves own b b' ∧
            e = (h.entry b).locatedAt c.location ∧ e' = (h.entry b').locatedAt c.location)
          ((grammar source).entryAt? c) ((grammar source).entryAt? c') := by
  rw [entryAt?_of_heads hh hc, entryAt?_of_heads hh hc', hlocation]
  constructor
  · intro hcut
    rw [Transaction.body_comment hupper hl hcut]
  · intro own hcut
    have hrel := Transaction.body_cut hupper hl hcut
    generalize (Transaction.body (Transaction.linesText upper ++ lower)).value? = before,
      (Transaction.body (Transaction.linesText upper ++ (l ++ '\n' :: lower))).value? = after at *
    cases hrel with
    | none => exact .none
    | some hmoves => exact .some ⟨_, _, hmoves, rfl, rfl⟩

end Comments

/-- The header of a transaction. -/
def lunch : Transaction.Header := ⟨"2024-01-01", "*", none, "Lunch", []⟩

/-- The line of the header. -/
def lunchLine : List Char := "2024-01-01 * \"Lunch\"".toList

/-- A posting and a pair of its metadata. -/
def lunchPosting : List (List Char) := ["  Assets:A 1 USD".toList, "    k: 1".toList]

/-- In front of a posting a comment is passed over; between two pairs of
its metadata it moves the second. -/
theorem entryAt?_comment_lunch :
    (grammar "stdin").entryAt? (.start "stdin" (lunchLine ++ '\n' :: (Transaction.linesText [] ++
          ("  ; c".toList ++ '\n' :: "  Assets:A\n".toList)))) =
        (grammar "stdin").entryAt? (.start "stdin" (lunchLine ++ '\n' ::
          (Transaction.linesText [] ++ "  Assets:A\n".toList))) ∧
      Option.Rel (fun e e' => ∃ b b', Transaction.Moves [("l", .int 2)] b b' ∧
          e = (lunch.entry b).locatedAt (Entry.place "stdin" 1) ∧
          e' = (lunch.entry b').locatedAt (Entry.place "stdin" 1))
        ((grammar "stdin").entryAt? (.start "stdin" (lunchLine ++ '\n' ::
          (Transaction.linesText lunchPosting ++ "    l: 2\n".toList))))
        ((grammar "stdin").entryAt? (.start "stdin" (lunchLine ++ '\n' ::
          (Transaction.linesText lunchPosting ++
            ("  ; c".toList ++ '\n' :: "    l: 2\n".toList))))) := by
  have hh : Transaction.Heads lunch lunchLine :=
    ⟨20, by with_unfolding_all rfl, by decide, by decide, rfl⟩
  have hl : Transaction.CommentLine "  ; c".toList :=
    Transaction.commentLine_spaces (Nat.le_refl 2) (by decide)
  have hupper : ∀ l ∈ lunchPosting, Transaction.Single l := by
    intro l hl
    simp only [lunchPosting, List.mem_cons, List.not_mem_nil, or_false] at hl
    rcases hl with rfl | rfl
    · exact ⟨by decide, fun k hk => by cases hk⟩
    · exact ⟨by decide, fun k hk => by cases hk⟩
  have hcut : Transaction.Cuts lunchPosting "    l: 2\n".toList [("l", .int 2)] :=
    ⟨rfl, ⟨9, by with_unfolding_all rfl⟩, List.cons_ne_nil _ _⟩
  refine ⟨?_, ?_⟩
  · exact (entryAt?_comment hh (List.forall_mem_nil _) hl (Cursor.rest_start "stdin" _)
      (Cursor.rest_start "stdin" _) (Cursor.location_start "stdin" _)).1
        fun own h => nomatch h.below
  · exact (entryAt?_comment hh hupper hl (Cursor.rest_start "stdin" _)
      (Cursor.rest_start "stdin" _) (Cursor.location_start "stdin" _)).2 _ hcut

/-- Two pairs below a posting. -/
def lunchText : String := "2024-01-01 * \"Lunch\"\n  Assets:A 1 USD\n    k: 1\n    l: 2\n"

/-- The same pairs with a comment between them. -/
def lunchCommented : String :=
  "2024-01-01 * \"Lunch\"\n  Assets:A 1 USD\n    k: 1\n    ; c\n    l: 2\n"

/-- The entry with the metadata of the posting and of the transaction. -/
def lunchEntry (own metadata : Metadata) : Entry :=
  ⟨"2024-01-01", metadata ++ [("location", .text "stdin:1")], .transaction ⟨"*", none, "Lunch",
    [⟨"Assets:A", some ⟨Numeral.toFloat ⟨false, ['1'], none⟩, "USD"⟩, own⟩], [], []⟩⟩

/-- **A comment takes metadata away from a posting.** -/
theorem parseText_lunchCommented :
    (∃ lower, lunchText.toList =
        lunchLine ++ '\n' :: (Transaction.linesText lunchPosting ++ lower) ∧
      lunchCommented.toList = lunchLine ++ '\n' :: (Transaction.linesText lunchPosting ++
        ("    ; c".toList ++ '\n' :: lower))) ∧
    parseText lunchText modules "stdin" = .ok [lunchEntry [("k", .int 1), ("l", .int 2)] []] ∧
    parseText lunchCommented modules "stdin" =
      .ok [lunchEntry [("k", .int 1)] [("l", .int 2)]] ∧
    parseText lunchCommented modules "stdin" ≠ parseText lunchText modules "stdin" := by
  have hplain : parseText lunchText modules "stdin" =
      .ok [lunchEntry [("k", .int 1), ("l", .int 2)] []] := by with_unfolding_all rfl
  have hcommented : parseText lunchCommented modules "stdin" =
      .ok [lunchEntry [("k", .int 1)] [("l", .int 2)]] := by with_unfolding_all rfl
  refine ⟨⟨"    l: 2\n".toList, rfl, rfl⟩, hplain, hcommented, fun hsame => ?_⟩
  rw [hplain, hcommented] at hsame
  simp [lunchEntry] at hsame

end Builtin
end Daybook
