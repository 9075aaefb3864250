import Daybook.Balance
import Daybook.Proofs.Coverage

/-!
# Balance — the lines that amounts come from

Every posting stands on an indented line of its own, and has the amount
that the line has behind the account (`Stands`). The balancing pass gives
an amount to postings that have none and leaves the others as they are
(`Filled`). So an amount is inferred for two kinds of lines: for those
that leave it out (`LeavesOut`), and for those that hold a text which is
no amount (`Stray`). What the author of a stray line wrote is replaced.
-/

namespace Daybook

open Daybook.Text Daybook.Reading

/-! ## What a line says behind its account -/

namespace Token

/-- No amount is there when no number comes first, or nothing of a
currency code behind it. -/
theorem amount?_eq_none_iff (cs : List Char) :
    amount? cs = none ↔ Numeral.ahead? cs = none ∨
      ∃ n, Numeral.ahead? cs = some n ∧
        ∀ c ∈ ((cs.drop n.text.length).dropWhile isInlineBlank).head?,
          isCurrencyChar c = false := by
  rw [amount?_eq]
  cases hn : Numeral.ahead? cs with
  | none => simp
  | some n =>
      simp only [Option.bind_some, Option.map_eq_none_iff, amountCode, drop_inlineBlanks,
        reduceCtorEq, false_or, Option.some.injEq, exists_eq_left']
      generalize (cs.drop n.text.length).dropWhile isInlineBlank = behind
      cases behind with
      | nil => simp [amountCurrency, Lexeme.run]
      | cons c behind =>
          cases hc : isCurrencyChar c <;> simp [amountCurrency, Lexeme.run, hc]

end Token

namespace Balance

/-- The line leaves the amount to be inferred: behind the account it says
nothing, or something that is an annotation. -/
def LeavesOut (said : List Char) : Prop := ∀ c ∈ said.head?, c = ';' ∨ c = '{' ∨ c = '@'

/-- The line says something behind the account that is neither an
annotation nor an amount. -/
structure Stray (said : List Char) : Prop where
  written : ¬LeavesOut said
  noAmount : Token.amount? said = none

theorem amount?_of_leavesOut {said : List Char} (h : LeavesOut said) :
    Token.amount? said = none := by
  refine (Token.amount?_eq_none_iff said).2 (.inl ?_)
  cases said with
  | nil => rfl
  | cons c said =>
      have hc : c = ';' ∨ c = '{' ∨ c = '@' := h c rfl
      have hsign : Numeral.splitSign (c :: said) = (false, c :: said) := by
        rcases hc with rfl | rfl | rfl <;> rfl
      have hdigits : (c :: said).takeWhile isDecimalDigit = [] := by
        rcases hc with rfl | rfl | rfl <;> exact List.takeWhile_cons_of_neg (by decide)
      simp [Numeral.ahead?, hsign, hdigits]

/-- Only these two kinds of lines have no amount. -/
theorem amount?_eq_none_cases {said : List Char} :
    Token.amount? said = none ↔ LeavesOut said ∨ Stray said := by
  constructor
  · intro h
    by_cases hs : LeavesOut said
    · exact .inl hs
    · exact .inr ⟨hs, h⟩
  · rintro (h | h)
    · exact amount?_of_leavesOut h
    · exact h.noAmount

/-- What the line at the front says behind an account and the white space
there. -/
def saidBehind (account cs : List Char) : List Char :=
  lineAhead (cs.drop (account.length + inlineBlanks (cs.drop account.length)))

/-- The line that starts at `place`, from its indent on. -/
def lineFrom (text : List Char) (place : Nat) : List Char :=
  text.drop (place + indentWidth (text.drop place))

/-- What the line that starts at `place` says behind the account `name`. -/
def said (text : List Char) (place : Nat) (name : String) : List Char :=
  saidBehind name.toList (lineFrom text place)

/-! ## Postings and their lines -/

/-- The posting stands on the line that starts at `place`: the line is
indented, the account comes first on it, and the amount is what it has
behind the account. -/
structure Stands (text : List Char) (place : Nat) (p : Posting) : Prop where
  starts : Complete (text.take place)
  indented : Transaction.bodyIndent ≤ indentWidth (text.drop place)
  account : Token.account (lineFrom text place) = some p.account.toList
  amount : p.amount = (Token.amount? (said text place p.account)).map (·.1)

/-- The postings stand on lines of their own, one below the other, that
start at `lo` or behind and before `hi`. -/
def StandBetween (text : List Char) (lo hi : Nat) (ps : List Posting) : Prop :=
  ∃ places : List Nat, places.Pairwise (· < ·) ∧ (∀ q ∈ places, lo ≤ q ∧ q < hi) ∧
    List.Forall₂ (Stands text) places ps

theorem Stands.inside {text : List Char} {place : Nat} {p : Posting} (h : Stands text place p) :
    place < text.length := by
  by_contra hover
  have hnil : lineFrom text place = [] := List.drop_eq_nil_of_le (by omega)
  have haccount := h.account
  rw [hnil] at haccount
  cases haccount

/-- A line of what comes behind `m` is a line of the text, but for the one
that is cut there. -/
theorem Stands.behind {text : List Char} {m place : Nat} {p : Posting}
    (h : Stands (text.drop m) place p) (hm : 0 < place ∨ Boundary text m) :
    Stands text (m + place) p := by
  have hline : lineFrom (text.drop m) place = lineFrom text (m + place) := by
    rw [lineFrom, lineFrom, List.drop_drop, List.drop_drop, Nat.add_assoc]
  refine ⟨?_, ?_, hline ▸ h.account, ?_⟩
  · have hinside := h.inside
    rw [List.length_drop] at hinside
    rw [List.take_add]
    by_cases hzero : place = 0
    · have hb : Boundary text m := hm.resolve_left (by omega)
      refine Complete.append (hb.ends.resolve_left fun hnil => ?_) h.starts
      rw [List.drop_eq_nil_iff] at hnil
      omega
    · refine h.starts.append_left (fun hnil => ?_) _
      rcases List.take_eq_nil_iff.1 hnil with h0 | hnil
      · exact hzero h0
      · rw [List.drop_eq_nil_iff] at hnil
        omega
  · rw [← List.drop_drop]
    exact h.indented
  · rw [said, ← hline]
    exact h.amount

theorem standBetween_nil (text : List Char) (lo hi : Nat) : StandBetween text lo hi [] :=
  ⟨[], .nil, by simp, .nil⟩

theorem StandBetween.mono {text : List Char} {lo lo' hi : Nat} {ps : List Posting}
    (h : StandBetween text lo hi ps) (hle : lo' ≤ lo) : StandBetween text lo' hi ps := by
  obtain ⟨places, hpairwise, hrange, hstand⟩ := h
  exact ⟨places, hpairwise, fun q hq => ⟨Nat.le_trans hle (hrange q hq).1, (hrange q hq).2⟩, hstand⟩

theorem StandBetween.behind {text : List Char} {m lo hi : Nat} {ps : List Posting}
    (h : StandBetween (text.drop m) lo hi ps) (hm : 0 < lo ∨ Boundary text m) :
    StandBetween text (m + lo) (m + hi) ps := by
  obtain ⟨places, hpairwise, hrange, hstand⟩ := h
  refine ⟨places.map (m + ·), ?_, ?_, ?_⟩
  · exact List.pairwise_map.2 (hpairwise.imp fun hlt => Nat.add_lt_add_left hlt m)
  · intro q hq
    obtain ⟨r, hr, rfl⟩ := List.mem_map.1 hq
    have := hrange r hr
    omega
  · rw [List.forall₂_map_left_iff]
    clear hpairwise
    induction hstand with
    | nil => exact .nil
    | @cons r p places ps hp _ ih =>
        have hr := hrange r List.mem_cons_self
        refine .cons (hp.behind (hm.imp_left fun hlo => ?_))
          (ih fun q hq => hrange q (List.mem_cons_of_mem r hq))
        omega

theorem StandBetween.append {text : List Char} {lo mid hi : Nat} {ps qs : List Posting}
    (hp : StandBetween text lo mid ps) (hq : StandBetween text mid hi qs) (hlo : lo ≤ mid)
    (hhi : mid ≤ hi) : StandBetween text lo hi (ps ++ qs) := by
  obtain ⟨above, hpa, hra, hsa⟩ := hp
  obtain ⟨below, hpb, hrb, hsb⟩ := hq
  refine ⟨above ++ below, ?_, ?_, List.rel_append hsa hsb⟩
  · refine List.pairwise_append.2 ⟨hpa, hpb, fun a ha b hb => ?_⟩
    have := hra a ha
    have := hrb b hb
    omega
  · intro q hq
    rcases List.mem_append.1 hq with hq | hq
    · have := hra q hq
      omega
    · have := hrb q hq
      omega

/-! ## What the readers take from the lines -/

/-- A posting has its account and its amount from the line it is read
from. -/
theorem posting_line {cs : List Char} {p : Posting} {n : Nat}
    (h : Transaction.posting cs = .found p n) :
    Token.account cs = some p.account.toList ∧
      p.amount = (Token.amount? (saidBehind p.account.toList cs)).map (·.1) := by
  rw [Transaction.posting_eq] at h
  cases ha : Token.account cs with
  | none => simp [ha] at h
  | some account =>
      simp only [ha] at h
      cases hb : Metadata.blockOrEmpty Transaction.postingIndent (cs.drop (lineLength cs)) with
      | absent => simp [hb, Reading.shift] at h
      | broken f => simp [hb, Reading.shift] at h
      | found metadata k =>
          rw [hb] at h
          cases h
          rw [String.toList_ofList, saidBehind, Token.onLine_amount?]
          exact ⟨rfl, rfl⟩

/-- The line of a body that holds a posting. -/
theorem stands_of_bodyLine {cs : List Char} {p : Posting} {n : Nat}
    (hin : ¬indentWidth (cs.drop (blankLines cs)) < Transaction.bodyIndent)
    (h : Transaction.bodyLine (cs.drop (Transaction.bodyFront cs)) = .found (.posting p) n) :
    Stands cs (blankLines cs) p := by
  have hposting : Transaction.posting (cs.drop (Transaction.bodyFront cs)) = .found p n := by
    rw [Transaction.bodyLine_eq] at h
    split at h
    · cases h
    · split at h
      · cases h
      · cases h
      · cases hp : Transaction.posting (cs.drop (Transaction.bodyFront cs)) <;> simp_all
  have hne : cs.drop (blankLines cs) ≠ [] := by
    intro hnil
    rw [hnil] at hin
    exact hin (by decide)
  obtain ⟨haccount, hamount⟩ := posting_line hposting
  exact ⟨(boundary_blankLines cs).ends.resolve_left hne, Nat.le_of_not_lt hin, haccount, hamount⟩

/-- **The postings of a body stand on its lines.** -/
theorem body_stand (cs : List Char) :
    (Transaction.body cs).Finds fun b n => StandBetween cs 0 n b.postings := by
  fun_induction Transaction.body cs with
  | case1 cs hlt => exact standBetween_nil cs 0 0
  | case2 cs front hlt h => exact standBetween_nil cs 0 0
  | case3 cs front hlt f h => trivial
  | case4 cs front hlt l n h ih =>
      have hpos := (Transaction.bodyLine_pos h).1
      have hline : Boundary cs (front + n) := Transaction.bodyLine_front_boundary h hpos
      refine (finds_shift ..).2 ((finds_map ..).2 (ih.mono fun b k hb => ?_))
      have hbelow : StandBetween cs (front + n) (front + n + k) b.postings :=
        hb.behind (.inr hline)
      cases l with
      | comment => exact hbelow.mono (Nat.zero_le _)
      | pair p => exact hbelow.mono (Nat.zero_le _)
      | posting p =>
          have hfirst : StandBetween cs 0 (front + n) [p] := by
            have hstands := stands_of_bodyLine hlt h
            refine ⟨[blankLines cs], List.pairwise_singleton .., fun q hq => ?_,
              .cons hstands .nil⟩
            have : blankLines cs ≤ front := Nat.le_add_right ..
            rw [List.mem_singleton.1 hq]
            omega
          exact hfirst.append hbelow (Nat.zero_le _) (Nat.le_add_right _ _)

end Balance

/-- The postings of the entry, if it is a transaction. -/
def Entry.postings (e : Entry) : List Posting :=
  match e.detail with
  | .transaction t => t.postings
  | _ => []

namespace Balance

theorem bodyAndIdle_stand (h : Transaction.Header) (cs : List Char) :
    (Transaction.bodyAndIdle h cs).Finds fun e n => StandBetween cs 0 n e.postings := by
  apply finds_andThen
  refine (body_stand cs).mono fun b n hb => ?_
  obtain ⟨places, hpairwise, hrange, hstand⟩ := hb
  refine ⟨places, hpairwise, fun q hq => ?_, hstand⟩
  have := hrange q hq
  omega

/-- **The postings of a transaction stand below its first line.** -/
theorem read_stand (cs : List Char) :
    (Transaction.read cs).Finds fun e n => StandBetween cs (lineLength cs) n e.postings := by
  rw [Transaction.read_eq]
  apply finds_andThen
  refine (Transaction.header_le cs).mono fun header n hn => ?_
  rw [Transaction.afterHeader]
  split
  · exact standBetween_nil cs _ _
  · have hline : Boundary cs (n + lineLength (cs.drop n)) := .rest_of_line hn
    refine (finds_shift ..).2 ((bodyAndIdle_stand header _).mono fun e k he => ?_)
    rw [List.drop_drop] at he
    rw [← Nat.add_assoc]
    exact (he.behind (.inr hline)).mono (lineLength_le_rest cs n)

theorem body_stand_directive {r : Registry} (d : Directive) (cs : List Char) :
    (d.body r cs).Finds fun e n => StandBetween cs (lineLength cs) n e.postings := by
  cases d with
  | custom kind read => exact read_stand cs
  | schema kind fields =>
      show (Directive.readSchema r kind fields cs).Finds _
      rw [Directive.readSchema_eq]
      refine finds_andThen (finds_iff.2 fun values n _ => ?_)
      refine (finds_shift ..).2 (finds_andThen (finds_iff.2 fun metadata k _ => ?_))
      rw [Directive.stamped]
      split
      · next e he =>
        have hnone : e.postings = [] := by
          rw [Directive.entryOf] at he
          split at he <;> cases he <;> rfl
        rw [finds_found, hnone]
        exact standBetween_nil cs _ _
      · trivial

section Spans

variable {g : Grammar} {p : Shape → Prop} {text : List Char}

/-- The postings of an entry stand inside of its span. -/
theorem span_stand (h : g.OfShape p) {s : Grammar.Span} (hs : s.Reads g text) :
    StandBetween text s.start s.stop s.entry.postings := by
  have hread := hs.reads
  have hne : text.drop s.start ≠ [] := by
    intro hnil
    rw [List.drop_eq_nil_iff] at hnil
    have := hs.nonempty
    have := hs.stop.le
    omega
  rw [Grammar.entryAt_eq h] at hread
  cases hb : Grammar.firstBody g.registry (text.drop s.start) g.directives with
  | broken f => simp [hb] at hread
  | absent =>
      simp only [Cursor.rest_advance, Cursor.rest_start, hb, Except.ok.injEq, Prod.mk.injEq] at hread
      rw [← hread.1]
      exact standBetween_nil text _ _
  | found e n =>
      simp only [Cursor.rest_advance, Cursor.rest_start, hb, Except.ok.injEq, Prod.mk.injEq] at hread
      obtain ⟨hentry, rfl⟩ := hread
      have hstand : StandBetween (text.drop s.start) _ _ e.postings :=
        (Grammar.firstBody_finds fun d _ => body_stand_directive d _).of_eq hb
      have hbelow := (hstand.behind (.inl (lineLength_pos hne))).mono (Nat.le_add_right _ _)
      rw [Nat.add_sub_cancel' (Nat.le_of_lt hs.nonempty)] at hbelow
      rw [← hentry]
      exact hbelow

/-- **The postings of a text stand on lines further and further down.** -/
theorem covers_stand (h : g.OfShape p) {n : Nat} {spans : List Grammar.Span}
    (hc : g.Covers text n spans) :
    StandBetween text n text.length ((spans.map (·.entry)).flatMap Entry.postings) := by
  induction hc with
  | done _ => exact standBetween_nil text _ _
  | @span n s spans ahead between reads below ih =>
      rw [List.map_cons, List.flatMap_cons]
      have hspan := (span_stand h reads).mono ahead
      have := reads.nonempty
      exact hspan.append ih (by omega) reads.stop.le

end Spans

/-! ## The balancing pass -/

/-- The second posting is the first, which may have been given the amount
that it lacked. -/
inductive Filled : Posting → Posting → Prop
  | same (p : Posting) : Filled p p
  | inferred {p : Posting} (a : Amount) (lacking : p.amount = none) :
      Filled p { p with amount := some a }

theorem filled_fillIn (a : Amount) (ps : List Posting) :
    List.Forall₂ Filled ps (fillIn a ps) := by
  induction ps with
  | nil => exact .nil
  | cons p ps ih =>
      refine .cons ?_ ih
      cases hp : p.amount with
      | none => simpa [hp] using Filled.inferred a hp
      | some b => simpa [hp] using Filled.same p

theorem filled_refl (ps : List Posting) : List.Forall₂ Filled ps ps :=
  List.forall₂_same.2 fun p _ => .same p

theorem balance_filled {t t' : Transaction} (h : t.balance = .ok t') :
    List.Forall₂ Filled t.postings t'.postings := by
  rw [Transaction.balance] at h
  split at h
  · cases h
    exact filled_refl _
  · split at h
    · cases h
    · cases h
      exact filled_fillIn _ _
    · cases h
  · cases h

theorem entry_filled (e : Entry) : List.Forall₂ Filled e.postings (entry e).1.postings := by
  rw [entry]
  split
  · next t hd =>
    have hpostings : e.postings = t.postings := by rw [Entry.postings, hd]
    split
    · next t' hb =>
      rw [hpostings]
      exact balance_filled hb
    · exact filled_refl _
  · exact filled_refl _

/-- **The pass fills in amounts and does nothing else** to postings. -/
theorem entries_filled (es : List Entry) :
    List.Forall₂ Filled (es.flatMap Entry.postings) ((entries es).flatMap Entry.postings) := by
  induction es with
  | nil => exact .nil
  | cons e es ih => exact List.rel_append (entry_filled e) ih

/-! ## From lines to amounts -/

/-- A posting before and after the pass, and the place at which its line
starts. -/
structure Trace where
  place : Nat
  before : Posting
  after : Posting

namespace Trace

/-- What the line says behind the account. -/
def said (t : Trace) (text : List Char) : List Char := Balance.said text t.place t.before.account

/-- The posting stands on its line and is lacking an amount for one of two
reasons; then the pass may have given it one. -/
structure Holds (t : Trace) (text : List Char) : Prop where
  stands : Stands text t.place t.before
  filled : Filled t.before t.after
  lacking : t.before.amount = none ↔ LeavesOut (t.said text) ∨ Stray (t.said text)

/-- Where an amount is lacking, the author left it out. -/
def Rightful (t : Trace) (text : List Char) : Prop :=
  t.before.amount = none → LeavesOut (t.said text)

theorem holds_of_stands {t : Trace} {text : List Char} (hs : Stands text t.place t.before)
    (hf : Filled t.before t.after) : t.Holds text := by
  refine ⟨hs, hf, ?_⟩
  rw [hs.amount, Option.map_eq_none_iff]
  exact amount?_eq_none_cases

theorem Holds.rightful_iff {t : Trace} {text : List Char} (h : t.Holds text) :
    t.Rightful text ↔ ¬Stray (t.said text) := by
  constructor
  · intro hr hstray
    exact hstray.written (hr (h.lacking.2 (.inr hstray)))
  · intro hstray hnone
    exact (h.lacking.1 hnone).resolve_right hstray

end Trace

/-- The traces of the postings of `es`, which after the pass are those of
`es'`: each has a line of its own, one below the other. -/
structure Traces (text : List Char) (es es' : List Entry) (ts : List Trace) : Prop where
  before : ts.map (·.before) = es.flatMap Entry.postings
  after : ts.map (·.after) = es'.flatMap Entry.postings
  down : (ts.map (·.place)).Pairwise (· < ·)
  holds : ∀ t ∈ ts, t.Holds text

theorem exists_trace {text : List Char} {places : List Nat} {ps ps' : List Posting}
    (hs : List.Forall₂ (Stands text) places ps) (hf : List.Forall₂ Filled ps ps') :
    ∃ ts : List Trace, ts.map (·.place) = places ∧ ts.map (·.before) = ps ∧
      ts.map (·.after) = ps' ∧ ∀ t ∈ ts, t.Holds text := by
  induction hs generalizing ps' with
  | nil =>
      cases hf
      exact ⟨[], rfl, rfl, rfl, by simp⟩
  | @cons place p places ps hp _ ih =>
      obtain ⟨p', ps', hp', hps', rfl⟩ := List.forall₂_cons_left_iff.1 hf
      obtain ⟨ts, hplace, hbefore, hafter, hholds⟩ := ih hps'
      refine ⟨⟨place, p, p'⟩ :: ts, by simp [hplace], by simp [hbefore], by simp [hafter], ?_⟩
      exact List.forall_mem_cons.2 ⟨Trace.holds_of_stands hp hp', hholds⟩

/-- **Every posting can be traced to its line.** An amount is inferred
only where there is none, and there is none where the author left it out
or wrote what is no amount; so the author always left it out if, and only
if, no posting's line is stray. -/
theorem parseText_inferred {text source : String} {es : List Entry}
    (h : parseText text Builtin.modules source = .ok es) :
    ∃ ts, Traces text.toList es (entries es) ts ∧
      ((∀ t ∈ ts, t.Rightful text.toList) ↔ ∀ t ∈ ts, ¬Stray (t.said text.toList)) := by
  obtain ⟨spans, rfl, hcovers⟩ := Grammar.parse_covers (Builtin.ofShape_grammar source) h
  obtain ⟨places, hdown, -, hstand⟩ := covers_stand (Builtin.ofShape_grammar source) hcovers
  obtain ⟨ts, rfl, hbefore, hafter, hholds⟩ := exists_trace hstand (entries_filled _)
  refine ⟨ts, ⟨hbefore, hafter, hdown, hholds⟩, ?_⟩
  exact forall₂_congr fun t ht => (hholds t ht).rightful_iff

/-- What was paid, with the other side left to the pass. -/
def dinner : String := "2024-01-01 * \"Dinner\"\n  Assets:Cash -5 USD\n  Expenses:Food ; shared\n"

/-- The entry of that text, before the pass. -/
def dinnerEntry : Entry :=
  ⟨"2024-01-01", [("location", .text "books:1")], .transaction ⟨"*", none, "Dinner",
    [⟨"Assets:Cash", some ⟨Numeral.toFloat ⟨true, ['5'], none⟩, "USD"⟩, []⟩,
      ⟨"Expenses:Food", none, []⟩], [], []⟩⟩

theorem parseText_inferred_dinner :
    ∃ ts, Traces dinner.toList [dinnerEntry] (entries [dinnerEntry]) ts ∧
      ((∀ t ∈ ts, t.Rightful dinner.toList) ↔ ∀ t ∈ ts, ¬Stray (t.said dinner.toList)) :=
  @parseText_inferred dinner "books" _ (by with_unfolding_all rfl)

/-- What was sold. The separator of thousands is not read, so the second
line of the body is stray. -/
def sale : String := "2024-01-01 * \"Sale\"\n  Assets:Cash -5 USD\n  Assets:Stock 1,000.00 USD\n"

/-- What the first line of the body says. -/
def saleCash : Amount := ⟨Numeral.toFloat ⟨true, ['5'], none⟩, "USD"⟩

/-- The postings of that text with their lines. The second is given the
amount that makes up for the first. -/
def saleTraces : List Trace :=
  [⟨20, ⟨"Assets:Cash", some saleCash, []⟩, ⟨"Assets:Cash", some saleCash, []⟩⟩,
    ⟨41, ⟨"Assets:Stock", none, []⟩, ⟨"Assets:Stock", some ⟨-(0 + saleCash.value), "USD"⟩, []⟩⟩]

/-- The entry of that text, before the pass. -/
def saleEntry : Entry :=
  ⟨"2024-01-01", [("location", .text "books:1")],
    .transaction ⟨"*", none, "Sale", saleTraces.map (·.before), [], []⟩⟩

theorem stands_sale : ∀ t ∈ saleTraces, Stands sale.toList t.place t.before := by
  have hupper : sale.toList.take 20 = "2024-01-01 * \"Sale\"".toList ++ ['\n'] := rfl
  have hlower : sale.toList.take 41 =
      "2024-01-01 * \"Sale\"\n  Assets:Cash -5 USD".toList ++ ['\n'] := rfl
  refine List.forall_mem_cons.2 ⟨⟨hupper ▸ complete_concat _, Nat.le_refl 2, rfl, ?_⟩,
    List.forall_mem_singleton.2 ⟨hlower ▸ complete_concat _, Nat.le_refl 2, rfl, ?_⟩⟩
  · with_unfolding_all rfl
  · with_unfolding_all rfl

/-- **An amount that was written is replaced** by one that is inferred. -/
theorem parseText_sale : parseText sale Builtin.modules "books" = .ok [saleEntry] ∧
    Traces sale.toList [saleEntry] (entries [saleEntry]) saleTraces ∧
    ∃ t ∈ saleTraces, t.said sale.toList = "1,000.00 USD".toList ∧ t.after.amount.isSome ∧
      ¬t.Rightful sale.toList := by
  have hfilled : ∀ t ∈ saleTraces, Filled t.before t.after :=
    List.forall_mem_cons.2 ⟨.same _, List.forall_mem_singleton.2 (.inferred _ rfl)⟩
  have hsaid : said sale.toList 41 "Assets:Stock" = "1,000.00 USD".toList := by
    with_unfolding_all rfl
  refine ⟨by with_unfolding_all rfl, ⟨rfl, rfl, by decide, fun t ht => ?_⟩,
    _, List.mem_cons_of_mem _ List.mem_cons_self, hsaid, rfl, fun hr => ?_⟩
  · exact Trace.holds_of_stands (stands_sale t ht) (hfilled t ht)
  · have hleaves : LeavesOut (said sale.toList 41 "Assets:Stock") := hr rfl
    rw [hsaid] at hleaves
    exact absurd (hleaves '1' rfl) (by decide)

end Balance
end Daybook
