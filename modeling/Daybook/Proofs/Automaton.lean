import Daybook.Proofs.Comment
import Daybook.Proofs.Excerpt
import Daybook.Proofs.Inference
import Mathlib.Data.List.Induction

/-!
# Automaton — a body in one pass

Two nested loops read a body, each with blank lines of its own to pass
over and with a place of its own to go back to. Here is what they amount
to: an automaton that goes over the lines once and is either among the
lines of the body or below a posting (`Mode`). Each line has one effect,
which the mode and the line alone decide (`Mode.effect?`), and the effects
one after another make the postings and the metadata (`Sheet.run`). Each
line takes the automaton to where it takes the two loops (`judged`), and
so they end with the same (`Sheet.finish_run`).
-/

namespace Daybook

open Daybook.Text Daybook.Reading

namespace Pairs

variable {α : Type}

/-- The names of `m` stand in the order in which `ps` first has them, and
each has the value that it is given last. -/
structure Gathers (ps : List (String × α)) (m : Pairs α) : Prop where
  names_eq : m.names = (names ps).eraseDups
  get?_eq : ∀ name, m.get? name = get? ps.reverse name

theorem collect_concat (ps : List (String × α)) (p : String × α) :
    collect (ps ++ [p]) = (collect ps).put p.1 p.2 := by
  rw [collect, List.foldl_append]
  rfl

theorem get?_reverse_concat (ps : List (String × α)) (p : String × α) (name : String) :
    get? (ps ++ [p]).reverse name = if p.1 = name then some p.2 else get? ps.reverse name := by
  rw [List.reverse_append, List.reverse_singleton, List.singleton_append, get?, List.find?_cons]
  by_cases h : p.1 = name
  · simp [h]
  · simp [h, get?]

/-- **A repeated name keeps its first place and takes its last value.** -/
theorem gathers_collect (ps : List (String × α)) : Gathers ps (collect ps) := by
  induction ps using List.reverseRecOn with
  | nil => exact ⟨rfl, fun _ => rfl⟩
  | append_singleton ps p ih =>
      refine ⟨?_, fun name => ?_⟩
      · have happend : names (ps ++ [p]) = names ps ++ [p.1] := List.map_append
        rw [collect_concat, names_put, ih.names_eq, happend, List.eraseDups_append]
        by_cases h : p.1 ∈ names ps
        · simp [h, List.removeAll]
        · simp [h, List.removeAll, List.eraseDups_cons]
      · rw [collect_concat, get?_reverse_concat]
        by_cases h : p.1 = name
        · rw [if_pos h, h, get?_put_self]
        · rw [if_neg h, get?_put_of_ne h, ih.get?_eq]

end Pairs

namespace Transaction

/-! ## The automaton -/

/-- Where the automaton is. -/
inductive Mode where
  /-- among the lines of the body -/
  | plain
  /-- below posting `k`, where its metadata may go on -/
  | below (k : Nat)

/-- What a line does. -/
inductive Effect where
  | blank
  | comment
  /-- a pair of the transaction's metadata -/
  | shared (p : String × Scalar)
  /-- a pair of the metadata of posting `k` -/
  | own (k : Nat) (p : String × Scalar)
  /-- a new posting -/
  | opens (account : String) (amount : Option Amount)

/-- The amount behind an account and white space, if one comes there. -/
def amountBehind (cs : List Char) : Option Amount :=
  (Token.amount? (cs.drop (inlineBlanks cs))).map (·.1)

/-- What a line does among the lines of the body, unless it ends it. -/
def plainEffect? (l : List Char) : Option Effect :=
  let cs := l.drop (indentWidth l)
  if indentWidth l < bodyIndent then none
  else if cs.head? = some ';' then some .comment
  else
    match Metadata.pair cs with
    | .found p _ => some (.shared p)
    | .broken _ => none
    | .absent => (Token.account cs).map fun account =>
        .opens (String.ofList account) (amountBehind (cs.drop account.length))

/-- What a line adds to the metadata of posting `k` above it. -/
def ownEffect? (k : Nat) (l : List Char) : Option Effect :=
  if indentWidth l < postingIndent then none
  else (Metadata.pair (l.drop (indentWidth l))).value?.map (.own k)

/-- What a line does, unless it ends the body. -/
def Mode.effect? (m : Mode) (l : List Char) : Option Effect :=
  if l.drop (indentWidth l) = [] then some .blank
  else
    match m with
    | .plain => plainEffect? l
    | .below k => (ownEffect? k l).or (plainEffect? l)

/-- The posting with one more pair in its metadata. -/
def postingWith (p : String × Scalar) (q : Posting) : Posting :=
  { q with metadata := q.metadata.put p.1 p.2 }

/-- What the lines have made so far, and where the automaton is. -/
structure Sheet where
  postings : List Posting
  metadata : Metadata
  mode : Mode

/-- The start of a body. -/
def Sheet.start : Sheet := ⟨[], [], .plain⟩

/-- What an effect makes of a sheet. -/
def Sheet.apply (s : Sheet) : Effect → Sheet
  | .blank => s
  | .comment => { s with mode := .plain }
  | .shared p => { s with metadata := s.metadata.put p.1 p.2, mode := .plain }
  | .own k p => { s with postings := s.postings.modify k (postingWith p) }
  | .opens account amount =>
    { s with
      postings := s.postings ++ [⟨account, amount, []⟩]
      mode := .below s.postings.length }

/-- The effects of the lines up to the one that ends the body. -/
def Sheet.effects (s : Sheet) : List (List Char) → List Effect
  | [] => []
  | l :: ls =>
    match s.mode.effect? l with
    | none => []
    | some e => e :: (s.apply e).effects ls

/-- One pass over the lines. -/
def Sheet.run (s : Sheet) (ls : List (List Char)) : Sheet := (s.effects ls).foldl Sheet.apply s

/-- The lines that the automaton looks at: those with an effect, and the
one behind them, which ends the body. -/
def Sheet.seen (s : Sheet) (ls : List (List Char)) : List (List Char) :=
  ls.take ((s.effects ls).length + 1)

/-- A quoted value on the line does not go on below it. -/
def ClosesValue (l : List Char) : Prop :=
  bodyIndent ≤ indentWidth l → Metadata.ClosesOnLine (l.drop (indentWidth l))

theorem Sheet.effects_none {s : Sheet} {l : List Char} (h : s.mode.effect? l = none)
    (ls : List (List Char)) : s.effects (l :: ls) = [] := by
  rw [Sheet.effects, h]

theorem Sheet.effects_some {s : Sheet} {l : List Char} {e : Effect}
    (h : s.mode.effect? l = some e) (ls : List (List Char)) :
    s.effects (l :: ls) = e :: (s.apply e).effects ls := by
  rw [Sheet.effects, h]

/-! ## Effects and kinds of lines -/

/-- The effect of a line of this kind among the lines of the body. -/
def LineKind.effect? : LineKind → Option Effect
  | .blank => some .blank
  | .comment => some .comment
  | .pair p => some (.shared p)
  | .posting account amount => some (.opens account amount)
  | .other => none
  | .broken => none

section Line

variable {l : List Char}

theorem kindOf_blank (h : l.drop (indentWidth l) = []) : kindOf l = .blank := by
  rw [kindOf, if_pos h]

theorem kindOf_ne_blank (h : l.drop (indentWidth l) ≠ []) : kindOf l ≠ .blank := by
  intro hkind
  rw [kindOf, if_neg h] at hkind
  split at hkind
  · cases hkind
  · split at hkind
    · cases hkind
    · split at hkind
      · cases hkind
      · cases hkind
      · split at hkind <;> cases hkind

theorem own?_blank (h : l.drop (indentWidth l) = []) : own? l = some [] := by
  rw [own?, if_pos h]

theorem plainEffect?_eq (h : l.drop (indentWidth l) ≠ []) :
    plainEffect? l = (kindOf l).effect? := by
  rw [plainEffect?, kindOf, if_neg h]
  split
  · rfl
  · split
    · rfl
    · cases Metadata.pair (l.drop (indentWidth l)) with
      | found p n => rfl
      | broken f => rfl
      | absent =>
          cases Token.account (l.drop (indentWidth l)) with
          | none => rfl
          | some account =>
              simp only [LineKind.effect?, postingReach, amountBehind, List.drop_drop,
                Option.map_some, Nat.add_assoc]

/-- Below a posting, a line is its own or is judged as any other. -/
theorem ownEffect?_eq (h : l.drop (indentWidth l) ≠ []) (k : Nat) :
    (own? l = none ∧ ownEffect? k l = none) ∨
      ∃ p, own? l = some [p] ∧ ownEffect? k l = some (.own k p) := by
  rw [own?, ownEffect?, if_neg h]
  split
  · exact .inl ⟨rfl, rfl⟩
  · cases Metadata.pair (l.drop (indentWidth l)) with
    | absent => exact .inl ⟨rfl, rfl⟩
    | broken f => exact .inl ⟨rfl, rfl⟩
    | found p n => exact .inr ⟨p, rfl, rfl⟩

end Line

/-! ## One line -/

/-- The mode as a place between two lines. -/
def Mode.place : Mode → Place
  | .plain => .plain
  | .below _ => .posting

/-- More metadata for the posting above, if there is one. -/
def Mode.give (m : Mode) (own : List (String × Scalar)) (ps : List Posting) : List Posting :=
  match m with
  | .plain => ps
  | .below k => ps.modify k fun q => { q with metadata := q.metadata.overlay own }

/-- A sheet, and what is still to be read of the body. -/
def Sheet.finish (s : Sheet) (r : Remainder) : List Posting × Metadata :=
  (s.mode.give r.own s.postings ++ r.body.postings, s.metadata.overlay r.body.metadata)

/-- Nothing to be read. -/
def Remainder.empty : Remainder := ⟨[], ⟨[], []⟩⟩

theorem Mode.give_nil (m : Mode) (ps : List Posting) : m.give [] ps = ps := by
  cases m with
  | plain => rfl
  | below k => exact List.modify_id k ps

theorem Sheet.finish_empty (s : Sheet) : s.finish .empty = (s.postings, s.metadata) := by
  show (s.mode.give [] s.postings ++ [], s.metadata) = _
  rw [Mode.give_nil, List.append_nil]

/-- Among the lines of a body, no posting is open that has more metadata
to come. -/
theorem own_of_resume {cs : List Char} {r : Remainder} (h : resume .plain cs = some r) :
    r.own = [] := by
  rw [resume] at h
  obtain ⟨b, -, rfl⟩ := Option.map_eq_some_iff.1 h
  rfl

/-- How a line is judged in a mode, beside the place below it and what it
adds to what is read there. -/
inductive Judged (s : Sheet) (l : List Char) : Prop
  | goesOn (e : Effect) (effect : s.mode.effect? l = some e)
      (next : s.mode.place.next l = (s.apply e).mode.place)
      (put : ∀ r, ((s.apply e).mode.place = .plain → r.own = []) →
        s.finish (s.mode.place.put l r) = (s.apply e).finish r)
  | ends (effect : s.mode.effect? l = none) (next : s.mode.place.next l = .ended)
      (put : s.mode.place.put l .empty = .empty)
  | breaks (effect : s.mode.effect? l = none) (next : s.mode.place.next l = .broken)

theorem modify_length_concat (ps : List Posting) (q : Posting) (f : Posting → Posting) :
    (ps ++ [q]).modify ps.length f = ps ++ [f q] := by
  induction ps with
  | nil => rfl
  | cons p ps ih => rw [List.cons_append, List.length_cons, List.modify_succ_cons, ih]; rfl

theorem Mode.give_cons (k : Nat) (p : String × Scalar) (own : List (String × Scalar))
    (ps : List Posting) :
    (Mode.below k).give (p :: own) ps = (Mode.below k).give own (ps.modify k (postingWith p)) := by
  rw [Mode.give, Mode.give, List.modify_modify_eq]
  rfl

section Line

variable {s : Sheet} {l : List Char}

/-- A line that is judged as among the lines of the body. -/
theorem judged_kind (h : l.drop (indentWidth l) ≠ [])
    (heffect : s.mode.effect? l = plainEffect? l)
    (hnext : s.mode.place.next l = (kindOf l).place)
    (hput : s.mode.place.put l = (kindOf l).put) : Judged s l := by
  rw [plainEffect?_eq h] at heffect
  cases hk : kindOf l with
  | blank => exact absurd hk (kindOf_ne_blank h)
  | comment =>
      rw [hk] at heffect hnext hput
      refine .goesOn _ heffect hnext fun r hr => ?_
      rw [hput]
      show (s.mode.give r.own s.postings ++ r.body.postings, _) = _
      rw [hr rfl, Mode.give_nil]
      rfl
  | pair p =>
      rw [hk] at heffect hnext hput
      refine .goesOn _ heffect hnext fun r hr => ?_
      rw [hput, Sheet.finish, LineKind.put, hr rfl, Mode.give_nil]
      rfl
  | posting account amount =>
      rw [hk] at heffect hnext hput
      refine .goesOn _ heffect hnext fun r _ => ?_
      rw [hput, Sheet.finish, Sheet.finish, LineKind.put, Mode.give_nil]
      show _ = ((s.postings ++ [_]).modify s.postings.length _ ++ _, _)
      rw [modify_length_concat, List.append_assoc]
      rfl
  | other =>
      rw [hk] at heffect hnext hput
      exact .ends heffect hnext (congrFun hput .empty)
  | broken =>
      rw [hk] at heffect hnext
      exact .breaks heffect hnext

/-- **A line takes the automaton where it takes the reader.** -/
theorem judged (s : Sheet) (l : List Char) : Judged s l := by
  obtain ⟨ps, metadata, m⟩ := s
  by_cases hblank : l.drop (indentWidth l) = []
  · have heffect : m.effect? l = some .blank := by
      cases m with
      | plain => rw [Mode.effect?, if_pos hblank]
      | below k => rw [Mode.effect?, if_pos hblank]
    cases m with
    | plain =>
        refine .goesOn .blank heffect ?_ fun r _ => ?_
        · show (kindOf l).place = .plain
          rw [kindOf_blank hblank]
          rfl
        · show Sheet.finish _ ((kindOf l).put r) = _
          rw [kindOf_blank hblank]
          rfl
    | below k =>
        refine .goesOn .blank heffect ?_ fun r _ => ?_
        · simp only [Mode.place, Place.next, own?_blank hblank]
          rfl
        · simp only [Mode.place, Place.put, own?_blank hblank]
          rfl
  · cases m with
    | plain => exact judged_kind hblank (if_neg hblank) rfl rfl
    | below k =>
        have heffect : (Mode.below k).effect? l = (ownEffect? k l).or (plainEffect? l) :=
          if_neg hblank
        rcases ownEffect?_eq hblank k with ⟨hown, hown?⟩ | ⟨p, hown, hown?⟩
        · rw [hown?, Option.none_or] at heffect
          refine judged_kind hblank heffect ?_ ?_
          · simp only [Mode.place, Place.next, hown]
            rfl
          · funext r
            simp only [Mode.place, Place.put, hown]
        · rw [hown?, Option.some_or] at heffect
          refine .goesOn _ heffect ?_ fun r _ => ?_
          · simp only [Mode.place, Place.next, hown]
            rfl
          · simp only [Mode.place, Place.put, hown]
            show ((Mode.below k).give (p :: r.own) ps ++ _, _) =
              ((Mode.below k).give r.own (ps.modify k (postingWith p)) ++ _, _)
            rw [Mode.give_cons]
            rfl

/-! ## The reader, line by line -/

/-- A line that is indented too little, and is not blank, ends the body. -/
theorem resume_low (m : Mode) {cs : List Char} (hlow : indentWidth cs < bodyIndent)
    (hfront : (cs.drop (indentWidth cs)).head? ≠ some '\n') :
    resume m.place cs = some .empty := by
  have hbody : (body cs).value? = some ⟨[], []⟩ := by rw [body_front hfront, if_pos hlow]
  cases m with
  | plain =>
      show (body cs).value?.map _ = _
      rw [hbody]
      rfl
  | below k =>
      have hpairs : Metadata.pairs postingIndent cs = .found [] 0 := by
        rw [Metadata.pairs_eq, if_neg hfront, if_pos (Nat.lt_trans hlow (by decide))]
      show behindPairs cs (Metadata.pairs postingIndent cs) = _
      rw [hpairs, behindPairs, List.drop_zero, hbody]
      rfl

theorem kindOf_low (h : l.drop (indentWidth l) ≠ []) (hlow : indentWidth l < bodyIndent) :
    kindOf l = .other := by
  rw [kindOf, if_neg h, if_pos hlow]

theorem own?_low (h : l.drop (indentWidth l) ≠ []) (hlow : indentWidth l < bodyIndent) :
    own? l = none := by
  rw [own?, if_neg h, if_pos (Nat.lt_trans hlow (by decide))]

theorem next_low (m : Mode) (h : l.drop (indentWidth l) ≠ [])
    (hlow : indentWidth l < bodyIndent) : m.place.next l = .ended ∧ m.place.put l .empty = .empty := by
  cases m with
  | plain =>
      simp only [Mode.place, Place.next, Place.put, kindOf_low h hlow]
      exact ⟨rfl, rfl⟩
  | below k =>
      simp only [Mode.place, Place.next, Place.put, own?_low h hlow, kindOf_low h hlow]
      exact ⟨rfl, rfl⟩

/-- A line with a value that does not go on below it is read by itself,
or is indented too little to have one. -/
theorem ClosesValue.cases (h : ClosesValue l) (hl : '\n' ∉ l) :
    Single l ∨ (l.drop (indentWidth l) ≠ [] ∧ indentWidth l < bodyIndent) := by
  by_cases hblank : l.drop (indentWidth l) = []
  · refine .inl ⟨hl, fun k hk => ?_⟩
    rw [hblank, Metadata.pair_nil] at hk
    cases hk
  · by_cases hlow : indentWidth l < bodyIndent
    · exact .inr ⟨hblank, hlow⟩
    · exact .inl ⟨hl, h (Nat.le_of_not_lt hlow)⟩

/-- Below a mode, too, the next line changes the place and what is read. -/
theorem resume_mode (m : Mode) (hl : '\n' ∉ l) (h : ClosesValue l) (below : List Char) :
    resume m.place (l ++ '\n' :: below) =
      (resume (m.place.next l) below).map (m.place.put l) := by
  rcases h.cases hl with hs | ⟨hne, hlow⟩
  · exact resume_line m.place hs below
  · obtain ⟨hnext, hput⟩ := next_low m hne hlow
    have hfront : ((l ++ '\n' :: below).drop (indentWidth (l ++ '\n' :: below))).head? ≠
        some '\n' := by
      rw [drop_indentWidth_newline, List.head?_append, List.head?_eq_some_head hne,
        Option.some_or]
      exact fun hn => hl (List.mem_of_mem_drop (Option.some.inj hn ▸ List.head_mem hne))
    rw [resume_low m ((indentWidth_newline_append l below).symm ▸ hlow) hfront, hnext]
    show some Remainder.empty = some (m.place.put l .empty)
    rw [hput]

/-! ## The last line -/

theorem body_nil : (body []).value? = some ⟨[], []⟩ := by
  rw [body_front (by simp)]
  rfl

theorem pairs_nil (indent : Nat) : Metadata.pairs indent [] = .found [] 0 := by
  rw [Metadata.pairs_eq, if_neg (by simp)]
  split
  · rfl
  · rfl

theorem resume_nil (m : Mode) : resume m.place [] = some .empty :=
  resume_low m (by decide) (by simp)

/-- A posting on the last line has no metadata. -/
theorem posting_last {cs : List Char} (hcs : '\n' ∉ cs) :
    posting cs = match Token.account cs with
      | none => .absent
      | some account =>
        .found ⟨String.ofList account, (postingReach account cs).1, []⟩ cs.length := by
  rw [posting_eq, lineLength_eq_length hcs, List.drop_length, Metadata.blockOrEmpty_eq,
    Metadata.block_eq, pairs_nil]
  rfl

/-- The last line is read as if a newline came behind it. -/
theorem body_last (h : Single l) : (body l).value? = (body (l ++ ['\n'])).value? := by
  have hnl : '\n' ∉ l.drop (indentWidth l) := fun hm => h.noNewline (List.mem_of_mem_drop hm)
  rw [body_newline h [], body_front fun hn => hnl (List.mem_of_mem_head? hn), kindOf, body_nil]
  generalize l.drop (indentWidth l) = cs at *
  by_cases hnil : cs = []
  · subst hnil
    rw [if_pos rfl]
    exact ite_self _
  · rw [if_neg hnil]
    by_cases hlow : indentWidth l < bodyIndent
    · rw [if_pos hlow, if_pos hlow]
    · rw [if_neg hlow, if_neg hlow, bodyLine_eq]
      by_cases hsemi : cs.head? = some ';'
      · rw [if_pos hsemi, if_pos hsemi, goOn, lineLength_eq_length hnl, List.drop_length, body_nil]
        rfl
      · rw [if_neg hsemi, if_neg hsemi]
        cases hp : Metadata.pair cs with
        | broken f => rfl
        | found p n =>
            obtain rfl : n = cs.length := Metadata.pair_length hnl hp
            simp only [goOn, List.drop_length, ← List.drop_drop, List.drop_nil, body_nil]
        | absent =>
            rw [posting_last hnl]
            cases ha : Token.account cs with
            | none => rfl
            | some account =>
                have hbelow : resume .posting [] = some .empty := resume_nil (.below 0)
                simp only [map_found, goOn, List.drop_length, body_nil, hbelow]
                rfl

theorem resume_plain_last (h : Single l) : resume .plain l = resume .plain (l ++ ['\n']) := by
  rw [resume, resume, body_last h]

theorem resume_posting_last (h : Single l) :
    resume .posting l = resume .posting (l ++ ['\n']) := by
  have hnl : '\n' ∉ l.drop (indentWidth l) := fun hm => h.noNewline (List.mem_of_mem_drop hm)
  have hfront : (l.drop (indentWidth l)).head? ≠ some '\n' :=
    fun hn => hnl (List.mem_of_mem_head? hn)
  have hstart : resume .posting l = behindPairs l (Metadata.pairs postingIndent l) := rfl
  have hnone : behindPairs l (.found [] 0) = resume .plain l := rfl
  have hempty : resume .posting [] = some .empty := resume_nil (.below 0)
  rw [resume_posting h, hstart, Metadata.pairs_eq, if_neg hfront, own?, hempty]
  by_cases hblank : l.drop (indentWidth l) = []
  · have hbody : resume .plain l = (resume .plain []).map LineKind.blank.put := by
      rw [resume_plain_last h, resume_plain h, kindOf_blank hblank]
      rfl
    have hnil : resume .plain [] = some .empty := resume_nil .plain
    rw [if_pos hblank, hblank, Metadata.pair_nil, ite_self, hnone, hbody, hnil]
    rfl
  · rw [if_neg hblank]
    by_cases hlow : indentWidth l < postingIndent
    · rw [if_pos hlow, if_pos hlow, hnone]
      exact resume_plain_last h
    · rw [if_neg hlow, if_neg hlow]
      cases hp : Metadata.pair (l.drop (indentWidth l)) with
      | absent => exact hnone.trans (resume_plain_last h)
      | broken f =>
          have hwide : bodyIndent ≤ indentWidth l :=
            Nat.le_trans (by decide) (Nat.le_of_not_lt hlow)
          show none = resume .plain (l ++ ['\n'])
          rw [← resume_plain_last h, resume, body_pair hwide (by simp [hp]), hp]
          rfl
      | found p n =>
          have hend : l.drop (Metadata.pairLine (indentWidth l) l n) = [] := by
            obtain rfl : n = (l.drop (indentWidth l)).length := Metadata.pair_length hnl hp
            rw [Metadata.pairLine, List.length_drop, Nat.add_sub_cancel' (indentWidth_le l),
              List.drop_length]
            exact List.drop_length
          simp only
          rw [behindPairs_shift, behindPairs_cons, hend, pairs_nil, behindPairs, List.drop_nil,
            body_nil]
          rfl

/-- The last line, too, is read as if a newline came behind it. -/
theorem resume_last (m : Mode) (hl : '\n' ∉ l) (h : ClosesValue l) :
    resume m.place l = resume m.place (l ++ ['\n']) := by
  rcases h.cases hl with hs | ⟨hne, hlow⟩
  · cases m with
    | plain => exact resume_plain_last hs
    | below k => exact resume_posting_last hs
  · obtain ⟨hnext, hput⟩ := next_low m hne hlow
    have hfront : (l.drop (indentWidth l)).head? ≠ some '\n' :=
      fun hn => hl (List.mem_of_mem_drop (List.mem_of_mem_head? hn))
    rw [resume_low m hlow hfront, resume_mode m hl h, hnext]
    show some Remainder.empty = some (m.place.put l .empty)
    rw [hput]

end Line

/-! ## The whole body -/

/-- One line of what is read: it ends the body, or its effect goes to the
sheet and the rest is read from there. -/
theorem Sheet.finish_line {s : Sheet} {l rest : List Char} {r : Remainder}
    (h : (resume (s.mode.place.next l) rest).map (s.mode.place.put l) = some r) :
    (s.mode.effect? l = none ∧ r = .empty) ∨
      ∃ e r', s.mode.effect? l = some e ∧ resume (s.apply e).mode.place rest = some r' ∧
        s.finish r = (s.apply e).finish r' := by
  obtain ⟨r', hr', rfl⟩ := Option.map_eq_some_iff.1 h
  cases judged s l with
  | goesOn e effect next put =>
      rw [next] at hr'
      exact .inr ⟨e, r', effect, hr', put r' fun hplain => own_of_resume (hplain ▸ hr')⟩
  | ends effect next put =>
      rw [next] at hr'
      cases hr'
      exact .inl ⟨effect, put⟩
  | breaks effect next =>
      rw [next] at hr'
      cases hr'

/-- **The automaton finishes a sheet as the reader does.** -/
theorem Sheet.finish_run {cs : List Char} (s : Sheet) {r : Remainder}
    (hcloses : ∀ l ∈ s.seen (lines cs), ClosesValue l) (hr : resume s.mode.place cs = some r) :
    s.finish r = ((s.run (lines cs)).postings, (s.run (lines cs)).metadata) := by
  induction cs using line_induction generalizing s r with
  | last l hl =>
      rw [lines_last hl] at hcloses ⊢
      have hcl := hcloses l List.mem_cons_self
      rw [resume_last s.mode hl hcl, resume_mode s.mode hl hcl] at hr
      rcases Sheet.finish_line hr with ⟨heffect, rfl⟩ | ⟨e, r', heffect, hr', hfinish⟩
      · rw [Sheet.run, Sheet.effects_none heffect, Sheet.finish_empty]
        rfl
      · rw [resume_nil] at hr'
        cases hr'
        rw [hfinish, Sheet.run, Sheet.effects_some heffect, Sheet.finish_empty]
        rfl
  | line l rest hl ih =>
      rw [lines_line l rest hl] at hcloses ⊢
      have hcl := hcloses l List.mem_cons_self
      rw [resume_mode s.mode hl hcl] at hr
      rcases Sheet.finish_line hr with ⟨heffect, rfl⟩ | ⟨e, r', heffect, hr', hfinish⟩
      · rw [Sheet.run, Sheet.effects_none heffect, Sheet.finish_empty]
        rfl
      · rw [hfinish, Sheet.run, Sheet.effects_some heffect, List.foldl_cons]
        refine ih (s.apply e) (fun k hk => hcloses k ?_) hr'
        rw [Sheet.seen, Sheet.effects_some heffect]
        exact List.mem_cons_of_mem l hk

/-! ## What the effects make -/

/-- The account and the amount of a posting that is opened. -/
def Effect.opened? : Effect → Option (String × Option Amount)
  | .opens account amount => some (account, amount)
  | _ => none

/-- A pair of the transaction's metadata. -/
def Effect.shared? : Effect → Option (String × Scalar)
  | .shared p => some p
  | _ => none

/-- A pair of the metadata of posting `k`. -/
def Effect.own? (k : Nat) : Effect → Option (String × Scalar)
  | .own j p => if j = k then some p else none
  | _ => none

/-- A posting but for its metadata. -/
def postingHead (p : Posting) : String × Option Amount := (p.account, p.amount)

theorem map_head_modify (ps : List Posting) (k : Nat) (p : String × Scalar) :
    (ps.modify k (postingWith p)).map postingHead = ps.map postingHead := by
  apply List.ext_getElem?
  intro i
  rw [List.getElem?_map, List.getElem?_map, List.getElem?_modify]
  cases ps[i]? with
  | none => rfl
  | some q =>
      show some (postingHead (if k = i then postingWith p q else q)) = some (postingHead q)
      split
      · rfl
      · rfl

/-- Postings are made by the lines that open one, in their order. -/
theorem map_head_foldl_apply (s : Sheet) (es : List Effect) :
    (es.foldl Sheet.apply s).postings.map postingHead =
      s.postings.map postingHead ++ es.filterMap Effect.opened? := by
  induction es generalizing s with
  | nil => exact (List.append_nil _).symm
  | cons e es ih =>
      rw [List.foldl_cons, ih]
      cases e with
      | blank => rfl
      | comment => rfl
      | shared p => rfl
      | own k p =>
          show (s.postings.modify k (postingWith p)).map postingHead ++ _ = _
          rw [map_head_modify]
          rfl
      | opens account amount =>
          show (s.postings ++ [_]).map postingHead ++ _ = _
          rw [List.map_append, List.append_assoc]
          rfl

/-- The metadata of the transaction is made by its pairs. -/
theorem metadata_foldl_apply (s : Sheet) (es : List Effect) :
    (es.foldl Sheet.apply s).metadata = s.metadata.overlay (es.filterMap Effect.shared?) := by
  induction es generalizing s with
  | nil => rfl
  | cons e es ih =>
      rw [List.foldl_cons, ih]
      cases e <;> rfl

/-- If the automaton is below a posting, that posting is there. -/
def Sheet.Sound (s : Sheet) : Prop := ∀ k, s.mode = .below k → k < s.postings.length

theorem Sheet.Sound.apply {s : Sheet} (h : s.Sound) (e : Effect) : (s.apply e).Sound := by
  intro k hk
  cases e with
  | blank => exact h k hk
  | comment => cases hk
  | shared p => cases hk
  | own j p =>
      show k < (s.postings.modify j (postingWith p)).length
      rw [List.length_modify]
      exact h k hk
  | opens account amount =>
      cases hk
      show _ < (s.postings ++ [_]).length
      rw [List.length_append]
      exact Nat.lt_succ_self _

theorem LineKind.effect?_ne_own (kind : LineKind) (k : Nat) (p : String × Scalar) :
    kind.effect? ≠ some (.own k p) := by
  cases kind <;> simp [LineKind.effect?]

/-- A pair goes to the posting that the automaton is below. -/
theorem mode_of_own {m : Mode} {l : List Char} {k : Nat} {p : String × Scalar}
    (h : m.effect? l = some (.own k p)) : m = .below k := by
  by_cases hblank : l.drop (indentWidth l) = []
  · cases m <;> simp [Mode.effect?, hblank] at h
  · cases m with
    | plain =>
        rw [Mode.effect?, if_neg hblank, plainEffect?_eq hblank] at h
        exact absurd h ((kindOf l).effect?_ne_own k p)
    | below j =>
        have heffect : (Mode.below j).effect? l = (ownEffect? j l).or (plainEffect? l) :=
          if_neg hblank
        rw [heffect] at h
        rcases ownEffect?_eq hblank j with ⟨-, hown⟩ | ⟨q, -, hown⟩
        · rw [hown, Option.none_or, plainEffect?_eq hblank] at h
          exact absurd h ((kindOf l).effect?_ne_own k p)
        · rw [hown, Option.some_or] at h
          cases h
          rfl

/-- The metadata of posting `k`; a posting that is not there has none. -/
def Sheet.ownMetadata (s : Sheet) (k : Nat) : Metadata :=
  (s.postings[k]?.map (·.metadata)).getD []

/-- A line adds to the metadata of posting `k` what belongs to it. -/
theorem Sheet.Sound.ownMetadata_apply {s : Sheet} (h : s.Sound) {l : List Char} {e : Effect}
    (he : s.mode.effect? l = some e) (k : Nat) :
    (s.apply e).ownMetadata k = (s.ownMetadata k).overlay (e.own? k).toList := by
  cases e with
  | blank => rfl
  | comment => rfl
  | shared p => rfl
  | own j p =>
      have hj := h j (mode_of_own he)
      show (((s.postings.modify j (postingWith p))[k]?).map (·.metadata)).getD [] =
        Pairs.overlay ((s.postings[k]?.map (·.metadata)).getD [])
          (if j = k then some p else none).toList
      rw [List.getElem?_modify]
      by_cases hjk : j = k
      · subst hjk
        rw [List.getElem?_eq_getElem hj, if_pos rfl]
        simp [postingWith, Pairs.overlay]
      · simp [hjk, Pairs.overlay]
  | opens account amount =>
      show (((s.postings ++ [(⟨account, amount, []⟩ : Posting)])[k]?).map (·.metadata)).getD [] =
        (s.postings[k]?.map (·.metadata)).getD []
      rcases Nat.lt_trichotomy k s.postings.length with hk | rfl | hk
      · rw [List.getElem?_append_left hk]
      · simp
      · rw [List.getElem?_eq_none (by simp; omega), List.getElem?_eq_none (by omega)]

/-- The metadata of a posting is made by the pairs that go to it. -/
theorem Sheet.Sound.ownMetadata_run {s : Sheet} (h : s.Sound) (ls : List (List Char)) (k : Nat) :
    (s.run ls).ownMetadata k =
      (s.ownMetadata k).overlay ((s.effects ls).filterMap (Effect.own? k)) := by
  induction ls generalizing s with
  | nil => rfl
  | cons l ls ih =>
      cases he : s.mode.effect? l with
      | none =>
          rw [Sheet.run, Sheet.effects_none he]
          rfl
      | some e =>
          have hrun : s.run (l :: ls) = (s.apply e).run ls := by
            rw [Sheet.run, Sheet.effects_some he]
            rfl
          rw [hrun, ih (h.apply e), h.ownMetadata_apply he, Sheet.effects_some he,
            List.filterMap_cons]
          cases e.own? k <;> rfl

/-- **A body is read as by an automaton that goes over its lines once**,
if no quoted value goes on below its line. The postings are those that
lines open, in the order of the lines. The metadata of a posting and that
of the transaction are the pairs that belong there; a name that is written
again keeps its place and takes the new value. A body hands over the pairs
of the transaction as they are written; the entry has them collected. -/
theorem body_run {cs : List Char} {b : Body} {n : Nat} (hb : body cs = .found b n)
    (hcloses : ∀ l ∈ Sheet.start.seen (lines cs), ClosesValue l) :
    b.postings = (Sheet.start.run (lines cs)).postings ∧
      Pairs.collect b.metadata = (Sheet.start.run (lines cs)).metadata ∧
      b.postings.map (fun p => (p.account, p.amount)) =
        (Sheet.start.effects (lines cs)).filterMap Effect.opened? ∧
      (∀ k p, b.postings[k]? = some p →
        Pairs.Gathers ((Sheet.start.effects (lines cs)).filterMap (Effect.own? k)) p.metadata) ∧
      Pairs.Gathers ((Sheet.start.effects (lines cs)).filterMap Effect.shared?)
        (Pairs.collect b.metadata) := by
  have hr : resume Sheet.start.mode.place cs = some ⟨[], b⟩ := by
    show (body cs).value?.map (Remainder.mk []) = _
    rw [hb]
    rfl
  have hfinish := Sheet.finish_run Sheet.start hcloses hr
  have hpostings : b.postings = (Sheet.start.run (lines cs)).postings := congrArg (·.1) hfinish
  have hmetadata : Pairs.collect b.metadata = (Sheet.start.run (lines cs)).metadata :=
    congrArg (·.2) hfinish
  refine ⟨hpostings, hmetadata, ?_, fun k p hp => ?_, ?_⟩
  · rw [hpostings]
    exact map_head_foldl_apply Sheet.start _
  · have hsound : Sheet.start.Sound := fun _ hm => nomatch hm
    have hown := hsound.ownMetadata_run (lines cs) k
    rw [Sheet.ownMetadata, ← hpostings, hp] at hown
    show Pairs.Gathers _ p.metadata
    have hcollect : p.metadata =
        Pairs.collect ((Sheet.start.effects (lines cs)).filterMap (Effect.own? k)) := hown
    rw [hcollect]
    exact Pairs.gathers_collect _
  · rw [hmetadata, Sheet.run, metadata_foldl_apply]
    exact Pairs.gathers_collect _

/-- A posting with a name that is written twice and a blank line between,
a pair of the transaction, and a posting without an amount. -/
def rentText : List Char :=
  "  Assets:A 1 USD\n    k: 1\n\n    k: 2\n  note: \"x\"\n    l: 3\n  Assets:B\nend".toList

/-- What it holds. -/
def rentPostings : List Posting :=
  [⟨"Assets:A", some ⟨Numeral.toFloat ⟨false, ['1'], none⟩, "USD"⟩, [("k", .int 2)]⟩,
    ⟨"Assets:B", none, []⟩]

/-- The second pair that is indented far belongs to the transaction: the
pair before it closed the metadata of the posting. -/
theorem body_run_rent :
    (∃ n, body rentText = .found ⟨rentPostings, [("note", .text "x"), ("l", .int 3)]⟩ n) ∧
      (∀ l ∈ Sheet.start.seen (lines rentText), ClosesValue l) ∧
      (Sheet.start.run (lines rentText)).postings = rentPostings ∧
      (Sheet.start.run (lines rentText)).metadata = [("note", .text "x"), ("l", .int 3)] := by
  have hb : body rentText =
      .found ⟨rentPostings, [("note", .text "x"), ("l", .int 3)]⟩ 68 := by
    with_unfolding_all rfl
  have hseen : Sheet.start.seen (lines rentText) = lines rentText := by with_unfolding_all rfl
  have hlines : lines rentText = ["  Assets:A 1 USD".toList, "    k: 1".toList, [],
      "    k: 2".toList, "  note: \"x\"".toList, "    l: 3".toList, "  Assets:B".toList,
      "end".toList] := rfl
  have hcloses : ∀ l ∈ Sheet.start.seen (lines rentText), ClosesValue l := by
    intro l hl
    rw [hseen, hlines] at hl
    simp only [List.mem_cons, List.not_mem_nil, or_false] at hl
    rcases hl with rfl | rfl | rfl | rfl | rfl | rfl | rfl | rfl
    all_goals exact fun _ k hk => by cases hk
  obtain ⟨hpostings, hmetadata, -⟩ := body_run hb hcloses
  exact ⟨⟨_, hb⟩, hcloses, hpostings.symm, hmetadata.symm⟩

end Transaction
end Daybook
