import Daybook.Proofs.Settled

/-!
# Outline — a body, line by line

Two loops read a body: one takes its lines, and when a line is a posting,
another takes the posting's metadata from the lines below. Where a line
boundary lies between them is a `Place`: among the lines of the body, in
the metadata of a posting, or behind the end. From each place the rest of
the text is read on (`resume`), and one line more above it changes the
place and what was read in a way that the line alone decides
(`resume_line`).
-/

namespace Daybook.Transaction

open Daybook.Text Daybook.Reading

/-! ## Kinds of lines -/

/-- What a line of a body is. -/
inductive LineKind where
  | blank
  | comment
  | pair (p : String × Scalar)
  | posting (account : String) (amount : Option Amount)
  /-- a line that ends the body -/
  | other
  /-- a pair whose value cannot be read -/
  | broken

/-- What the line is, by itself. -/
def kindOf (l : List Char) : LineKind :=
  let cs := l.drop (indentWidth l)
  if cs = [] then .blank
  else if indentWidth l < bodyIndent then .other
  else if cs.head? = some ';' then .comment
  else
    match Metadata.pair cs with
    | .found p _ => .pair p
    | .broken _ => .broken
    | .absent =>
      match Token.account cs with
      | none => .other
      | some account => .posting (String.ofList account) (postingReach account cs).1

/-- The line ends before the next, and so does the value of a pair on
it. -/
structure Single (l : List Char) : Prop where
  noNewline : '\n' ∉ l
  closes : Metadata.ClosesOnLine (l.drop (indentWidth l))

theorem indentWidth_newline_append (l below : List Char) :
    indentWidth (l ++ '\n' :: below) = indentWidth l := onLine_indentWidth.newline l below

theorem drop_indentWidth_newline (l below : List Char) :
    (l ++ '\n' :: below).drop (indentWidth (l ++ '\n' :: below)) =
      l.drop (indentWidth l) ++ '\n' :: below := by
  rw [indentWidth_newline_append, List.drop_append_of_le_length (indentWidth_le l)]

/-! ## Bodies without their lengths -/

/-- A blank line is passed over. -/
theorem body_blank {cs rest : List Char} (h : cs.drop (indentWidth cs) = '\n' :: rest) :
    (body cs).value? = (body rest).value? := by
  have hblank := blankLines_of_blank h
  have hdrop : cs.drop (blankLines cs) = rest.drop (blankLines rest) := by
    rw [hblank, ← List.drop_drop, drop_of_blank h]
  have hfront : bodyFront cs = indentWidth cs + 1 + bodyFront rest := by
    rw [bodyFront, bodyFront, hdrop, hblank, Nat.add_assoc]
  have hbehind : ∀ n, cs.drop (bodyFront cs + n) = rest.drop (bodyFront rest + n) := by
    intro n
    rw [hfront, Nat.add_assoc, ← List.drop_drop, drop_of_blank h]
  have hline := hbehind 0
  rw [Nat.add_zero, Nat.add_zero] at hline
  rw [body_eq, body_eq, hdrop, hline]
  split
  · rfl
  · cases bodyLine (rest.drop (bodyFront rest)) with
    | absent => rfl
    | broken f => rfl
    | found l n => simp [hbehind n]

/-- How a body goes on with the line that was read at the front of
`cs`. -/
def goOn (cs : List Char) : Reading BodyLine → Option Body
  | .absent => some ⟨[], []⟩
  | .broken _ => none
  | .found l n => (body (cs.drop n)).value?.map fun b => b.add l

/-- The first line that is not blank ends the body, or the body goes on
behind it. -/
theorem body_front {cs : List Char} (h : (cs.drop (indentWidth cs)).head? ≠ some '\n') :
    (body cs).value? =
      if indentWidth cs < bodyIndent then some ⟨[], []⟩
      else goOn (cs.drop (indentWidth cs)) (bodyLine (cs.drop (indentWidth cs))) := by
  have hblank := blankLines_eq_zero h
  have hfront : bodyFront cs = indentWidth cs := by
    rw [bodyFront, hblank, List.drop_zero, Nat.zero_add]
  rw [body_eq, hblank, List.drop_zero, hfront]
  split
  · rfl
  · cases bodyLine (cs.drop (indentWidth cs)) with
    | absent => rfl
    | broken f => rfl
    | found l n => simp [goOn]

/-- Puts pairs in front of a body. -/
def Body.prepend (ps : List (String × Scalar)) (b : Body) : Body :=
  { b with metadata := ps ++ b.metadata }

theorem head?_ne_semicolon {cs key : List Char} {n : Nat}
    (h : Metadata.key? cs = some (key, n)) : cs.head? ≠ some ';' := by
  intro hc
  cases cs with
  | nil => cases hc
  | cons c cs =>
      obtain rfl : c = ';' := by simpa using hc
      have hstart : Metadata.isKeyStart ';' = false := by decide
      simp [Metadata.key?_eq, Lexeme.headed, hstart] at h

theorem pair_absent_of_head {cs : List Char} (h : cs.head? = some ';') :
    Metadata.pair cs = .absent := by
  rw [Metadata.pair_eq]
  split
  · rfl
  · next hk => exact absurd h (head?_ne_semicolon hk)

/-- Where a pair is read, a body reads it, if the line is indented. -/
theorem body_pair {cs : List Char} (hw : bodyIndent ≤ indentWidth cs)
    (hp : Metadata.pair (cs.drop (indentWidth cs)) ≠ .absent) :
    (body cs).value? = match Metadata.pair (cs.drop (indentWidth cs)) with
      | .found p n =>
        (body (cs.drop (Metadata.pairLine (indentWidth cs) cs n))).value?.map (·.add (.pair p))
      | _ => none := by
  have hhead : (cs.drop (indentWidth cs)).head? ≠ some '\n' := by
    intro hn
    cases hd : cs.drop (indentWidth cs) with
    | nil => simp [hd] at hn
    | cons c rest =>
        obtain rfl : c = '\n' := by simpa [hd] using hn
        exact hp (by rw [hd]; rfl)
  have hsemi : (cs.drop (indentWidth cs)).head? ≠ some ';' :=
    fun hc => hp (pair_absent_of_head hc)
  rw [body_front hhead, if_neg (Nat.not_lt.2 hw), bodyLine_eq, if_neg hsemi]
  cases hpair : Metadata.pair (cs.drop (indentWidth cs)) with
  | absent => exact absurd hpair hp
  | broken f => rfl
  | found p n =>
      have hline : (cs.drop (indentWidth cs)).drop
          (n + Metadata.newline ((cs.drop (indentWidth cs)).drop n)) =
            cs.drop (Metadata.pairLine (indentWidth cs) cs n) := by
        rw [Metadata.pairLine, List.drop_drop, List.drop_drop, Nat.add_assoc]
      simp only [goOn]
      rw [hline]

/-! ## Behind a posting -/

/-- What the text still holds below a posting: more metadata of it, and
more of the body. -/
structure Remainder where
  own : List (String × Scalar)
  body : Body

/-- The pairs of the open posting that were read at the front of `cs`, and
the body behind them. -/
def behindPairs (cs : List Char) : Reading (List (String × Scalar)) → Option Remainder
  | .found own n => (body (cs.drop n)).value?.map (Remainder.mk own)
  | _ => none

theorem behindPairs_shift (cs : List Char) (n : Nat) (r : Reading (List (String × Scalar))) :
    behindPairs cs (r.shift n) = behindPairs (cs.drop n) r := by
  cases r with
  | absent => rfl
  | broken f => rfl
  | found own k => rw [shift_found, behindPairs, behindPairs, List.drop_drop]

theorem behindPairs_cons (cs : List Char) (p : String × Scalar)
    (r : Reading (List (String × Scalar))) :
    behindPairs cs (r.map (p :: ·)) =
      (behindPairs cs r).map fun rest => { rest with own := p :: rest.own } := by
  cases r with
  | absent => rfl
  | broken f => rfl
  | found own k =>
      rw [map_found, behindPairs, behindPairs, Option.map_map]
      rfl

/-- **A body reads the pairs of a block** as pairs of its own. -/
theorem body_of_pairs (cs : List Char) :
    (body cs).value? = (behindPairs cs (Metadata.pairs postingIndent cs)).map fun r =>
      r.body.prepend r.own := by
  have hnone : ∀ ds, (body ds).value? =
      (behindPairs ds (.found [] 0)).map fun r => r.body.prepend r.own := by
    intro ds
    rw [behindPairs, Option.map_map]
    exact (Option.map_id' ..).symm
  fun_induction Metadata.pairs postingIndent cs with
  | case1 cs width h => exact hnone cs
  | case2 cs width rest h ih =>
      rw [body_blank h, ih, behindPairs_shift, drop_of_blank h]
  | case3 cs width c rest hne h hlt => exact hnone cs
  | case4 cs width c rest hne h hlt hp => exact hnone cs
  | case5 cs width c rest hne h hlt f hp =>
      have hpair : Metadata.pair (cs.drop (indentWidth cs)) = .broken f := h ▸ hp
      have hwide : bodyIndent ≤ indentWidth cs :=
        Nat.le_trans (by decide) (Nat.le_of_not_lt hlt)
      rw [body_pair hwide (by simp [hpair]), hpair]
      rfl
  | case6 cs width c rest hne h hlt p n hp m ih =>
      have hpair : Metadata.pair (cs.drop (indentWidth cs)) = .found p n := h ▸ hp
      have hwide : bodyIndent ≤ indentWidth cs :=
        Nat.le_trans (by decide) (Nat.le_of_not_lt hlt)
      rw [body_pair hwide (by simp [hpair]), hpair, behindPairs_shift, behindPairs_cons]
      show (body (cs.drop m)).value?.map _ = _
      rw [ih, Option.map_map, Option.map_map]
      rfl

/-! ## Places -/

/-- Where the boundary between two lines lies. -/
inductive Place where
  /-- among the lines of the body -/
  | plain
  /-- below a posting, where its metadata may go on -/
  | posting
  /-- behind the end of the body -/
  | ended
  /-- behind a value that cannot be read -/
  | broken

/-- Reads on from a place. -/
def resume : Place → List Char → Option Remainder
  | .plain, cs => (body cs).value?.map (Remainder.mk [])
  | .posting, cs => behindPairs cs (Metadata.pairs postingIndent cs)
  | .ended, _ => some ⟨[], ⟨[], []⟩⟩
  | .broken, _ => none

/-- The place below a line of the body. -/
def LineKind.place : LineKind → Place
  | .posting _ _ => .posting
  | .other => .ended
  | .broken => .broken
  | _ => .plain

/-- A line of the body, in front of what is read below it. -/
def LineKind.put : LineKind → Remainder → Remainder
  | .pair p, r => { r with body := r.body.add (.pair p) }
  | .posting account amount, r =>
    ⟨[], r.body.add (.posting ⟨account, amount, Pairs.collect r.own⟩)⟩
  | _, r => r

/-- What a line adds to the metadata of the posting above, if it belongs
to it: a blank line does, and so does a pair that is indented enough. -/
def own? (l : List Char) : Option (List (String × Scalar)) :=
  let cs := l.drop (indentWidth l)
  if cs = [] then some []
  else if indentWidth l < postingIndent then none
  else
    match Metadata.pair cs with
    | .found p _ => some [p]
    | _ => none

/-- The place below a line. -/
def Place.next : Place → List Char → Place
  | .plain, l => (kindOf l).place
  | .posting, l => if (own? l).isSome then .posting else (kindOf l).place
  | s, _ => s

/-- A line, in front of what is read below it. -/
def Place.put : Place → List Char → Remainder → Remainder
  | .plain, l, r => (kindOf l).put r
  | .posting, l, r =>
    match own? l with
    | some ps => { r with own := ps ++ r.own }
    | none => (kindOf l).put r
  | _, _, r => r

/-! ## One line -/

section Line

variable {l : List Char}

/-- A posting on a line, with the metadata below. -/
theorem posting_newline {cs : List Char} (hcs : '\n' ∉ cs) (below : List Char) :
    posting (cs ++ '\n' :: below) = match Token.account cs with
      | none => .absent
      | some account =>
        ((Metadata.blockOrEmpty postingIndent below).map fun metadata =>
          ⟨String.ofList account, (postingReach account cs).1, metadata⟩).shift (cs.length + 1) := by
  have haccount : Token.account (cs ++ '\n' :: below) = Token.account cs :=
    Token.onLine_account.newline cs below
  rw [posting_eq, haccount, lineLength_line cs below hcs, drop_line]
  cases ha : Token.account cs with
  | none => rfl
  | some account =>
      have hreach := (postingReach_lineAhead (haccount.trans ha)).1
      rw [lineAhead_line cs below hcs] at hreach
      simp only [hreach]

/-- A body goes on with a posting where its metadata ends. -/
theorem goOn_posting {cs account : List Char} (hcs : '\n' ∉ cs)
    (ha : Token.account cs = some account) (below : List Char) :
    goOn (cs ++ '\n' :: below) ((posting (cs ++ '\n' :: below)).map .posting) =
      (resume .posting below).map fun r => r.body.add (.posting
        ⟨String.ofList account, (postingReach account cs).1, Pairs.collect r.own⟩) := by
  have hbelow := drop_line cs below
  have hrest := body_of_pairs below
  rw [posting_newline hcs, ha, resume]
  simp only [Metadata.blockOrEmpty_eq, Metadata.block_eq]
  cases hps : Metadata.pairs postingIndent below with
  | broken f => rfl
  | absent =>
      rw [hps] at hrest
      simp only [map_absent, map_found, shift_found, goOn, Nat.add_zero]
      rw [hbelow, hrest]
      rfl
  | found own n =>
      rw [hps, behindPairs, Option.map_map] at hrest
      rw [behindPairs, Option.map_map]
      cases own with
      | nil =>
          -- blank lines that no pair follows are left to the body
          simp only [map_found, shift_found, goOn, Nat.add_zero]
          rw [hbelow, hrest, Option.map_map]
          rfl
      | cons p own =>
          simp only [map_found, shift_found, goOn]
          rw [← List.drop_drop, hbelow]
          rfl

/-- What the kind of the first line says of a body. -/
theorem body_newline (h : Single l) (below : List Char) :
    (body (l ++ '\n' :: below)).value? = match kindOf l with
      | .blank => (body below).value?
      | .comment => (body below).value?
      | .pair p => (body below).value?.map (·.add (.pair p))
      | .posting account amount => (resume .posting below).map fun r =>
          r.body.add (.posting ⟨account, amount, Pairs.collect r.own⟩)
      | .other => some ⟨[], []⟩
      | .broken => none := by
  have hwidth := indentWidth_newline_append l below
  have hdrop := drop_indentWidth_newline l below
  have hnl : '\n' ∉ l.drop (indentWidth l) := fun hm => h.noNewline (List.mem_of_mem_drop hm)
  have hpair := Metadata.pair_newline_append h.closes below
  have hbelow := drop_line (l.drop (indentWidth l)) below
  have hlength := lineLength_line _ below hnl
  rw [kindOf]
  generalize l.drop (indentWidth l) = cs at *
  by_cases hnil : cs = []
  · subst hnil
    rw [if_pos rfl]
    exact body_blank hdrop
  · have hhead : (cs ++ '\n' :: below).head? = cs.head? := by
      rw [List.head?_append, List.head?_eq_some_head hnil, Option.some_or]
    have hfront : (cs ++ '\n' :: below).head? ≠ some '\n' := by
      rw [hhead]
      exact fun hn => hnl (List.mem_of_mem_head? hn)
    rw [if_neg hnil, body_front (hdrop ▸ hfront), hdrop, hwidth]
    by_cases hlow : indentWidth l < bodyIndent
    · rw [if_pos hlow, if_pos hlow]
    · rw [if_neg hlow, if_neg hlow, bodyLine_eq, hhead]
      by_cases hsemi : cs.head? = some ';'
      · rw [if_pos hsemi, if_pos hsemi, hlength, goOn, hbelow]
        exact Option.map_id' ..
      · rw [if_neg hsemi, if_neg hsemi, hpair]
        cases hp : Metadata.pair cs with
        | broken f => rfl
        | found p n =>
            have hn : n = cs.length := Metadata.pair_length hnl hp
            have hend : n + Metadata.newline ((cs ++ '\n' :: below).drop n) = cs.length + 1 := by
              rw [hn, List.drop_left]
              rfl
            simp only [hend]
            rw [goOn, hbelow]
        | absent =>
            cases ha : Token.account cs with
            | none =>
                rw [posting_newline hnl, ha]
                rfl
            | some account => exact goOn_posting hnl ha below

/-- Among the lines of a body, the next line decides how it goes on. -/
theorem resume_plain (h : Single l) (below : List Char) :
    resume .plain (l ++ '\n' :: below) =
      (resume (kindOf l).place below).map (kindOf l).put := by
  rw [resume, body_newline h]
  cases kindOf l with
  | blank => exact (Option.map_id' ..).symm
  | comment => exact (Option.map_id' ..).symm
  | pair p =>
      show _ = ((body below).value?.map (Remainder.mk [])).map _
      rw [Option.map_map, Option.map_map]
      rfl
  | posting account amount =>
      rw [Option.map_map]
      rfl
  | other => rfl
  | broken => rfl

/-- Below a posting, the next line adds to its metadata, or the body goes
on with it. -/
theorem resume_posting (h : Single l) (below : List Char) :
    resume .posting (l ++ '\n' :: below) = match own? l with
      | some ps => (resume .posting below).map fun r => { r with own := ps ++ r.own }
      | none => resume .plain (l ++ '\n' :: below) := by
  have hwidth := indentWidth_newline_append l below
  have hdrop := drop_indentWidth_newline l below
  have hwhole := drop_line l below
  have hnl : '\n' ∉ l.drop (indentWidth l) := fun hm => h.noNewline (List.mem_of_mem_drop hm)
  have hpair := Metadata.pair_newline_append h.closes below
  have hlength : indentWidth l + (l.drop (indentWidth l)).length = l.length := by
    rw [List.length_drop, Nat.add_sub_cancel' (indentWidth_le l)]
  have hstart : resume .posting (l ++ '\n' :: below) = behindPairs (l ++ '\n' :: below)
      (Metadata.pairs postingIndent (l ++ '\n' :: below)) := rfl
  rw [hstart, own?, Metadata.pairs_eq, hdrop, hwidth, hpair]
  by_cases hnil : l.drop (indentWidth l) = []
  · have hall : indentWidth l = l.length := by rw [← hlength, hnil, List.length_nil, Nat.add_zero]
    rw [hnil, List.nil_append, List.head?_cons, if_pos rfl, if_pos rfl, hall, behindPairs_shift,
      hwhole]
    exact (Option.map_id' ..).symm
  · have hhead : (l.drop (indentWidth l) ++ '\n' :: below).head? ≠ some '\n' := by
      rw [List.head?_append, List.head?_eq_some_head hnil, Option.some_or]
      exact fun hn => hnl (Option.some.inj hn ▸ List.head_mem hnil)
    rw [if_neg hhead, if_neg hnil]
    by_cases hlow : indentWidth l < postingIndent
    · rw [if_pos hlow, if_pos hlow]
      rfl
    · rw [if_neg hlow, if_neg hlow]
      cases hp : Metadata.pair (l.drop (indentWidth l)) with
      | absent => rfl
      | broken f =>
          have hwide : bodyIndent ≤ indentWidth (l ++ '\n' :: below) := by
            rw [hwidth]
            exact Nat.le_trans (by decide) (Nat.le_of_not_lt hlow)
          have hbroken := hdrop ▸ hpair.trans hp
          show none = (body (l ++ '\n' :: below)).value?.map _
          rw [body_pair hwide (by simp [hbroken]), hbroken]
          rfl
      | found p n =>
          have hn := Metadata.pair_length hnl hp
          have hline : Metadata.pairLine (indentWidth l) (l ++ '\n' :: below) n = l.length + 1 := by
            rw [Metadata.pairLine, hn, hlength, List.drop_left]
            rfl
          simp only [hline, hwhole]
          rw [behindPairs_shift, hwhole, behindPairs_cons]
          rfl

/-- **One line more** changes the place and what was read below it. -/
theorem resume_line (s : Place) (h : Single l) (below : List Char) :
    resume s (l ++ '\n' :: below) = (resume (s.next l) below).map (s.put l) := by
  cases s with
  | plain => exact resume_plain h below
  | ended => rfl
  | broken => rfl
  | posting =>
      have hput : Place.posting.put l = fun r => match own? l with
        | some ps => { r with own := ps ++ r.own }
        | none => (kindOf l).put r := rfl
      rw [resume_posting h, Place.next, hput]
      cases own? l with
      | some ps => rfl
      | none => exact resume_plain h below

end Line

/-! ## Several lines -/

/-- The lines, each with its newline. -/
def linesText (ls : List (List Char)) : List Char := ls.flatMap (· ++ ['\n'])

/-- The place below the lines. -/
def Place.below (s : Place) (ls : List (List Char)) : Place := ls.foldl Place.next s

/-- The lines, in front of what is read below them. -/
def Place.putAll (s : Place) : List (List Char) → Remainder → Remainder
  | [], r => r
  | l :: ls, r => s.put l ((s.next l).putAll ls r)

theorem linesText_cons (l : List Char) (ls : List (List Char)) (rest : List Char) :
    linesText (l :: ls) ++ rest = l ++ '\n' :: (linesText ls ++ rest) := by
  simp [linesText]

/-- **What lines hold in front of a text** does not depend on the text. -/
theorem resume_lines (s : Place) {ls : List (List Char)} (h : ∀ l ∈ ls, Single l)
    (rest : List Char) :
    resume s (linesText ls ++ rest) = (resume (s.below ls) rest).map (s.putAll ls) := by
  induction ls generalizing s with
  | nil => exact (Option.map_id' ..).symm
  | cons l ls ih =>
      have hls : ∀ l ∈ ls, Single l := fun l' hl' => h l' (List.mem_cons_of_mem l hl')
      rw [linesText_cons, resume_line s (h l List.mem_cons_self), ih (s.next l) hls,
        Option.map_map]
      rfl

end Daybook.Transaction
