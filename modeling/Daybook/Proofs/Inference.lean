import Daybook.Proofs.Balance
import Mathlib.Data.List.Nodup

/-!
# Inference — what the balancing pass infers and reports

The totals of the postings are the sums of their amounts, one for each
currency (`get?_totals`). So the pass can tell whether one posting alone
leaves its amount out while the others are in one currency (`Inferable`);
in every other case in which an amount is lacking the transaction falls
short (`FallsShort`). What becomes of an entry is one of four cases that
exclude each other (`Balanced`). Filled transactions lack nothing and
those that fall short stay as they are, so a second pass changes nothing
and reports the same.
-/

namespace Daybook

namespace Pairs

variable {α : Type}

theorem mem_names_put {ps : Pairs α} {name n : String} {v : α} :
    n ∈ (ps.put name v).names ↔ n = name ∨ n ∈ ps.names := by
  rw [names_put]
  split
  · next h =>
    constructor
    · exact .inr
    · rintro (rfl | hn)
      · exact h
      · exact hn
  · rw [List.mem_append, List.mem_singleton, or_comm]

theorem nodup_names_put {ps : Pairs α} (h : ps.names.Nodup) (name : String) (v : α) :
    (ps.put name v).names.Nodup := by
  rw [names_put]
  split
  · exact h
  · next hname =>
    rw [List.nodup_append]
    refine ⟨h, List.nodup_singleton name, ?_⟩
    intro n hn m hm heq
    rw [List.mem_singleton.1 hm] at heq
    exact hname (heq ▸ hn)

end Pairs

/-! ## Totals -/

/-- The sum of the values, from the left and from zero. -/
def Amount.sum (as : List Amount) : Float := as.foldl (fun total a => total + a.value) 0

/-- The amounts that the postings have. -/
def amounts (ps : List Posting) : List Amount := ps.filterMap (·.amount)

theorem totals_eq (ps : List Posting) : totals ps = (amounts ps).foldl addAmount [] := rfl

theorem get?_addAmount (m : Pairs Float) (a : Amount) (c : String) :
    ((addAmount m a).get? c).getD 0 =
      if a.currency = c then (m.get? c).getD 0 + a.value else (m.get? c).getD 0 := by
  rw [addAmount]
  split
  · next h =>
    subst h
    rw [Pairs.get?_put_self, Option.getD_some]
  · next h => rw [Pairs.get?_put_of_ne h]

theorem get?_foldl_addAmount (as : List Amount) (m : Pairs Float) (c : String) :
    ((as.foldl addAmount m).get? c).getD 0 =
      (as.filter (·.currency = c)).foldl (fun total a => total + a.value) ((m.get? c).getD 0) := by
  induction as generalizing m with
  | nil => rfl
  | cons a as ih =>
      rw [List.foldl_cons, ih, get?_addAmount]
      by_cases h : a.currency = c
      · rw [if_pos h, List.filter_cons_of_pos (by simpa using h), List.foldl_cons]
      · rw [if_neg h, List.filter_cons_of_neg (by simpa using h)]

/-- **The total of a currency is the sum of the amounts in it.** -/
theorem get?_totals (ps : List Posting) (c : String) :
    ((totals ps).get? c).getD 0 = Amount.sum ((amounts ps).filter (·.currency = c)) :=
  get?_foldl_addAmount (amounts ps) [] c

theorem mem_names_foldl_addAmount {as : List Amount} {m : Pairs Float} {c : String} :
    c ∈ (as.foldl addAmount m).names ↔ c ∈ m.names ∨ ∃ a ∈ as, a.currency = c := by
  induction as generalizing m with
  | nil => simp
  | cons a as ih =>
      rw [List.foldl_cons, ih, addAmount, Pairs.mem_names_put]
      simp only [List.mem_cons, exists_eq_or_imp, eq_comm (a := c)]
      tauto

/-- There is a total for each currency that occurs. -/
theorem mem_names_totals {ps : List Posting} {c : String} :
    c ∈ (totals ps).names ↔ ∃ a ∈ amounts ps, a.currency = c := by
  rw [totals_eq, mem_names_foldl_addAmount]
  simp [Pairs.names]

theorem nodup_names_foldl_addAmount {as : List Amount} {m : Pairs Float} (h : m.names.Nodup) :
    (as.foldl addAmount m).names.Nodup := by
  induction as generalizing m with
  | nil => exact h
  | cons a as ih => exact ih (Pairs.nodup_names_put h _ _)

theorem nodup_names_totals (ps : List Posting) : (totals ps).names.Nodup :=
  nodup_names_foldl_addAmount List.nodup_nil

/-- No total, no amount. -/
theorem amounts_of_totals_nil {ps : List Posting} (h : totals ps = []) : amounts ps = [] := by
  rw [List.eq_nil_iff_forall_not_mem]
  intro a ha
  have hc : a.currency ∈ (totals ps).names := mem_names_totals.2 ⟨a, ha, rfl⟩
  rw [h] at hc
  cases hc

/-- One total is that of the only currency, and the sum of all amounts. -/
theorem totals_of_single {ps : List Posting} {c : String}
    (hc : ∀ a ∈ amounts ps, a.currency = c) (hne : amounts ps ≠ []) :
    totals ps = [(c, Amount.sum (amounts ps))] := by
  have hnames : (totals ps).names = [c] := by
    have hmem : ∀ n, n ∈ (totals ps).names ↔ n = c := by
      intro n
      rw [mem_names_totals]
      constructor
      · rintro ⟨a, ha, rfl⟩
        exact hc a ha
      · rintro rfl
        obtain ⟨a, ha⟩ := List.exists_mem_of_ne_nil _ hne
        exact ⟨a, ha, hc a ha⟩
    have hperm : (totals ps).names.Perm [c] :=
      (List.perm_ext_iff_of_nodup (nodup_names_totals ps) (List.nodup_singleton c)).2
        fun n => by rw [hmem, List.mem_singleton]
    exact List.perm_singleton.1 hperm
  obtain ⟨⟨n, x⟩, htotals⟩ : ∃ p, totals ps = [p] := by
    rw [← List.length_eq_one_iff, ← List.length_map (f := Prod.fst)]
    exact congrArg List.length hnames
  have hsum := get?_totals ps c
  have hall : (amounts ps).filter (·.currency = c) = amounts ps :=
    List.filter_eq_self.2 fun a ha => decide_eq_true (hc a ha)
  rw [htotals] at hnames hsum
  obtain rfl : n = c := List.cons.inj hnames |>.1
  rw [hall] at hsum
  have hget : (Pairs.get? [(n, x)] n).getD 0 = x := by simp [Pairs.get?]
  rw [htotals, ← hsum, hget]

/-- Of several totals, two are in different currencies that occur. -/
theorem currencies_of_totals {ps : List Posting} {x y : String × Float}
    {rest : Pairs Float} (h : totals ps = x :: y :: rest) :
    ∃ a ∈ amounts ps, ∃ b ∈ amounts ps, a.currency ≠ b.currency := by
  have hnodup := nodup_names_totals ps
  have hx : x.1 ∈ (totals ps).names := by simp [h, Pairs.names]
  have hy : y.1 ∈ (totals ps).names := by simp [h, Pairs.names]
  obtain ⟨a, ha, hax⟩ := mem_names_totals.1 hx
  obtain ⟨b, hb, hby⟩ := mem_names_totals.1 hy
  refine ⟨a, ha, b, hb, ?_⟩
  rw [h, Pairs.names, List.map_cons, List.map_cons, List.nodup_cons] at hnodup
  rw [hax, hby]
  intro heq
  exact hnodup.1 (heq ▸ List.mem_cons_self)

/-! ## Transactions that lack an amount -/

namespace Transaction

/-- One posting alone leaves its amount out, and the others, of which
there is at least one, are in one currency. -/
structure Inferable (t : Transaction) (before : List Posting) (p : Posting)
    (after : List Posting) (currency : String) : Prop where
  postings : t.postings = before ++ p :: after
  lacking : p.amount = none
  others : ∀ q ∈ before ++ after, ∃ a, q.amount = some a ∧ a.currency = currency
  accompanied : before ++ after ≠ []

/-- Why no amount can be inferred. How many are missing is looked at
first. -/
inductive FallsShort (t : Transaction) : Shortfall → Prop
  | severalMissing (missing : 2 ≤ t.unfilled.length) : FallsShort t .severalMissing
  | severalCurrencies {a b : Amount} (missing : t.unfilled.length = 1)
      (first : a ∈ amounts t.postings) (second : b ∈ amounts t.postings)
      (differ : a.currency ≠ b.currency) : FallsShort t .severalCurrencies
  | noOtherAmount (missing : t.unfilled.length = 1)
      (none : ∀ p ∈ t.postings, p.amount = none) : FallsShort t .noOtherAmount

/-- The transaction with an amount for the posting between the others: it
makes up for their sum. -/
def inferred (t : Transaction) (before : List Posting) (p : Posting) (after : List Posting)
    (currency : String) : Transaction :=
  { t with postings := before ++
      { p with amount := some ⟨-Amount.sum (amounts (before ++ after)), currency⟩ } :: after }

variable {t : Transaction} {before after : List Posting} {p : Posting} {currency : String}

theorem unfilled_eq_nil_iff : t.unfilled = [] ↔ ∀ p ∈ t.postings, p.amount ≠ none := by
  rw [unfilled, List.filter_eq_nil_iff]
  simp

theorem amounts_middle (hp : p.amount = none) :
    amounts (before ++ p :: after) = amounts (before ++ after) := by
  simp [amounts, hp]

/-- What the others of an inferable transaction say. -/
theorem Inferable.mem_amounts (h : t.Inferable before p after currency) {a : Amount}
    (ha : a ∈ amounts (before ++ after)) : a.currency = currency := by
  obtain ⟨q, hq, hqa⟩ := List.mem_filterMap.1 ha
  obtain ⟨b, hqb, hb⟩ := h.others q hq
  rw [hqb, Option.some.injEq] at hqa
  rw [← hqa]
  exact hb

theorem Inferable.amounts_ne_nil (h : t.Inferable before p after currency) :
    amounts (before ++ after) ≠ [] := by
  obtain ⟨q, hq⟩ := List.exists_mem_of_ne_nil _ h.accompanied
  obtain ⟨a, hqa, -⟩ := h.others q hq
  exact List.ne_nil_of_mem (List.mem_filterMap.2 ⟨q, hq, hqa⟩)

theorem Inferable.totals_eq (h : t.Inferable before p after currency) :
    totals t.postings = [(currency, Amount.sum (amounts (before ++ after)))] := by
  have hsame : amounts t.postings = amounts (before ++ after) := by
    rw [h.postings, amounts_middle h.lacking]
  rw [← hsame]
  apply totals_of_single
  · rw [hsame]
    exact fun a ha => h.mem_amounts ha
  · rw [hsame]
    exact h.amounts_ne_nil

/-- The postings that have an amount stay as they are. -/
theorem fillIn_of_some {a : Amount} {ps : List Posting} (h : ∀ q ∈ ps, q.amount ≠ none) :
    fillIn a ps = ps := by
  rw [fillIn]
  conv_rhs => rw [← List.map_id ps]
  apply List.map_congr_left
  intro q hq
  rw [if_neg (by simpa using h q hq)]
  rfl

theorem Inferable.some_of_mem (h : t.Inferable before p after currency) {q : Posting}
    (hq : q ∈ before ++ after) : q.amount ≠ none := by
  obtain ⟨a, hqa, -⟩ := h.others q hq
  rw [hqa]
  exact Option.some_ne_none a

theorem Inferable.unfilled_eq (h : t.Inferable before p after currency) : t.unfilled = [p] := by
  have hbefore : before.filter (·.amount.isNone) = [] :=
    List.filter_eq_nil_iff.2 fun q hq => by simpa using h.some_of_mem (by simp [hq])
  have hafter : after.filter (·.amount.isNone) = [] :=
    List.filter_eq_nil_iff.2 fun q hq => by simpa using h.some_of_mem (by simp [hq])
  rw [unfilled, h.postings, List.filter_append, hbefore, List.nil_append,
    List.filter_cons_of_pos (by rw [h.lacking]; rfl), hafter]

/-- **The one missing amount makes up for the others.** -/
theorem Inferable.balance_eq (h : t.Inferable before p after currency) :
    t.balance = .ok (t.inferred before p after currency) := by
  have hfill : ∀ a, fillIn a t.postings = before ++ { p with amount := some a } :: after := by
    intro a
    have hbefore : fillIn a before = before :=
      fillIn_of_some fun q hq => h.some_of_mem (List.mem_append_left _ hq)
    have hafter : fillIn a after = after :=
      fillIn_of_some fun q hq => h.some_of_mem (List.mem_append_right _ hq)
    rw [h.postings, fillIn, List.map_append, List.map_cons, ← fillIn, ← fillIn, hbefore, hafter,
      if_pos (by rw [h.lacking]; rfl)]
  rw [balance, h.unfilled_eq, h.totals_eq]
  simp only [hfill, inferred]

/-- With the inferred amount, nothing is lacking. -/
theorem Inferable.full (h : t.Inferable before p after currency) :
    ∀ q ∈ (t.inferred before p after currency).postings, q.amount ≠ none := by
  intro q hq
  rcases List.mem_append.1 hq with hq | hq
  · exact h.some_of_mem (List.mem_append_left _ hq)
  · rcases List.mem_cons.1 hq with rfl | hq
    · exact Option.some_ne_none _
    · exact h.some_of_mem (List.mem_append_right _ hq)

/-- The one posting without an amount stands between the others. -/
theorem split_of_unfilled (h : t.unfilled = [p]) :
    ∃ before after, t.postings = before ++ p :: after ∧ p.amount = none ∧
      ∀ q ∈ before ++ after, q.amount ≠ none := by
  obtain ⟨before, after, hsplit, hbefore, hp, hafter⟩ := List.filter_eq_cons_iff.1 h
  refine ⟨before, after, hsplit, by simpa using hp, ?_⟩
  intro q hq
  rcases List.mem_append.1 hq with hq | hq
  · simpa using hbefore q hq
  · simpa using List.filter_eq_nil_iff.1 hafter q hq

theorem FallsShort.balance_eq {s : Shortfall} (h : t.FallsShort s) : t.balance = .error s := by
  cases h with
  | severalMissing missing =>
      obtain ⟨p, q, rest, hu⟩ : ∃ p q rest, t.unfilled = p :: q :: rest := by
        rcases hu : t.unfilled with _ | ⟨p, _ | ⟨q, rest⟩⟩
        · simp [hu] at missing
        · simp [hu] at missing
        · exact ⟨p, q, rest, rfl⟩
      rw [balance, hu]
  | @severalCurrencies a b missing first second differ =>
      obtain ⟨p, hp⟩ := List.length_eq_one_iff.1 missing
      rw [balance, hp]
      cases htotals : totals t.postings with
      | nil =>
          rw [amounts_of_totals_nil htotals] at first
          cases first
      | cons x rest =>
          cases rest with
          | cons y rest => rfl
          | nil =>
              have ha : a.currency ∈ (totals t.postings).names := mem_names_totals.2 ⟨a, first, rfl⟩
              have hb : b.currency ∈ (totals t.postings).names := mem_names_totals.2 ⟨b, second, rfl⟩
              rw [htotals, Pairs.names, List.map_singleton, List.mem_singleton] at ha hb
              exact absurd (ha.trans hb.symm) differ
  | noOtherAmount missing none =>
      obtain ⟨p, hp⟩ := List.length_eq_one_iff.1 missing
      have hamounts : amounts t.postings = [] :=
        List.filterMap_eq_nil_iff.2 none
      rw [balance, hp, totals_eq, hamounts]
      rfl

/-- **What balancing makes of a transaction**: it lacks nothing, its one
missing amount is inferred, or it falls short. -/
theorem balance_cases (t : Transaction) :
    ((∀ p ∈ t.postings, p.amount ≠ none) ∧ t.balance = .ok t) ∨
    (∃ before p after currency, t.Inferable before p after currency) ∨
      ∃ s, t.FallsShort s := by
  rcases hu : t.unfilled with _ | ⟨p, _ | ⟨q, rest⟩⟩
  · refine .inl ⟨unfilled_eq_nil_iff.1 hu, ?_⟩
    rw [balance, hu]
  · have hone : t.unfilled.length = 1 := by rw [hu]; rfl
    obtain ⟨before, after, hsplit, hp, hothers⟩ := split_of_unfilled hu
    -- the amounts of the others are in no currency, in one or in several
    rcases htotals : totals t.postings with _ | ⟨⟨c, total⟩, _ | ⟨y, rest⟩⟩
    · refine .inr (.inr ⟨_, .noOtherAmount hone ?_⟩)
      exact List.filterMap_eq_nil_iff.1 (amounts_of_totals_nil htotals)
    · refine .inr (.inl ⟨before, p, after, c, hsplit, hp, ?_, ?_⟩)
      · intro q hq
        obtain ⟨a, ha⟩ := Option.ne_none_iff_exists'.1 (hothers q hq)
        refine ⟨a, ha, ?_⟩
        have hmem : a ∈ amounts t.postings := by
          rw [hsplit, amounts_middle hp]
          exact List.mem_filterMap.2 ⟨q, hq, ha⟩
        have hname : a.currency ∈ (totals t.postings).names :=
          mem_names_totals.2 ⟨a, hmem, rfl⟩
        rw [htotals, Pairs.names, List.map_singleton, List.mem_singleton] at hname
        exact hname
      · intro hnil
        have hamounts : amounts t.postings = [] := by
          rw [hsplit, amounts_middle hp, hnil]
          rfl
        rw [totals_eq, hamounts] at htotals
        cases htotals
    · obtain ⟨a, ha, b, hb, hab⟩ := currencies_of_totals htotals
      exact .inr (.inr ⟨_, .severalCurrencies hone ha hb hab⟩)
  · refine .inr (.inr ⟨_, .severalMissing ?_⟩)
    rw [hu]
    simp

end Transaction

/-! ## Entries -/

/-- Does a posting of the entry lack its amount? -/
def Entry.isOpen (e : Entry) : Bool := e.postings.any (·.amount.isNone)

namespace Balance

/-- What becomes of an entry, and what is reported of it: entries that are
no transactions and those that lack nothing stay as they are, a missing
amount that can be inferred is filled in, and a transaction that falls
short stays as it is and is reported. -/
inductive Balanced : Entry → Entry → Option Shortfall → Prop
  | other {e : Entry} (h : ∀ t, e.detail ≠ .transaction t) : Balanced e e none
  | full {e : Entry} {t : Transaction} (h : e.detail = .transaction t)
      (full : ∀ p ∈ t.postings, p.amount ≠ none) : Balanced e e none
  | inferred {e : Entry} {t : Transaction} {before after : List Posting} {p : Posting}
      {currency : String} (h : e.detail = .transaction t)
      (inferable : t.Inferable before p after currency) :
      Balanced e { e with detail := .transaction (t.inferred before p after currency) } none
  | short {e : Entry} {t : Transaction} {s : Shortfall} (h : e.detail = .transaction t)
      (short : t.FallsShort s) : Balanced e e (some s)

theorem entry_of_balance {e : Entry} {t : Transaction} (h : e.detail = .transaction t) :
    entry e = match t.balance with
      | .ok t => ({ e with detail := .transaction t }, none)
      | .error s => (e, some s) := by
  obtain ⟨date, metadata, detail⟩ := e
  cases h
  rfl

theorem entry_of_full {e : Entry} {t : Transaction} (h : e.detail = .transaction t)
    (full : ∀ p ∈ t.postings, p.amount ≠ none) : entry e = (e, none) := by
  have hbalance : t.balance = .ok t := by
    rw [Transaction.balance, Transaction.unfilled_eq_nil_iff.2 full]
  obtain ⟨date, metadata, detail⟩ := e
  cases h
  rw [entry_of_balance rfl, hbalance]

theorem entry_of_other {e : Entry} (h : ∀ t, e.detail ≠ .transaction t) : entry e = (e, none) := by
  unfold entry
  split
  · next t hd => exact absurd hd (h t)
  · rfl

/-- **The pass does what is asked of it, entry by entry.** -/
theorem balanced_iff {e e' : Entry} {s : Option Shortfall} :
    Balanced e e' s ↔ entry e = (e', s) := by
  constructor
  · intro h
    cases h with
    | other h => exact entry_of_other h
    | full h full => exact entry_of_full h full
    | inferred h inferable => rw [entry_of_balance h, inferable.balance_eq]
    | short h short => rw [entry_of_balance h, short.balance_eq]
  · intro h
    by_cases ht : ∃ t, e.detail = .transaction t
    · obtain ⟨t, ht⟩ := ht
      rcases t.balance_cases with ⟨full, -⟩ | ⟨before, p, after, currency, inferable⟩ | ⟨s, short⟩
      · rw [entry_of_full ht full] at h
        cases h
        exact .full ht full
      · rw [entry_of_balance ht, inferable.balance_eq] at h
        cases h
        exact .inferred ht inferable
      · rw [entry_of_balance ht, short.balance_eq] at h
        cases h
        exact .short ht short
    · have hother : ∀ t, e.detail ≠ .transaction t := fun t hd => ht ⟨t, hd⟩
      rw [entry_of_other hother] at h
      cases h
      exact .other hother

theorem balanced_entry (e : Entry) : Balanced e (entry e).1 (entry e).2 := balanced_iff.2 rfl

/-- What is done once is done. -/
theorem Balanced.again {e e' : Entry} {s : Option Shortfall} (h : Balanced e e' s) :
    Balanced e' e' s := by
  cases h with
  | other h => exact .other h
  | full h full => exact .full h full
  | short h short => exact .short h short
  | inferred h inferable => exact .full rfl inferable.full

theorem isOpen_of_full {e : Entry} {t : Transaction} (h : e.detail = .transaction t)
    (full : ∀ p ∈ t.postings, p.amount ≠ none) : e.isOpen = false := by
  rw [Entry.isOpen, Entry.postings, h, List.any_eq_false]
  intro p hp
  simpa using full p hp

theorem isOpen_of_short {e : Entry} {t : Transaction} (h : e.detail = .transaction t)
    {s : Shortfall} (short : t.FallsShort s) : e.isOpen = true := by
  have hpos : 0 < t.unfilled.length := by
    cases short <;> omega
  obtain ⟨p, hp⟩ := List.exists_mem_of_length_pos hpos
  obtain ⟨hmem, hlacking⟩ := List.mem_filter.1 hp
  rw [Entry.isOpen, Entry.postings, h, List.any_eq_true]
  exact ⟨p, hmem, hlacking⟩

/-- **What lacks an amount after the pass is reported**, and nothing
else. -/
theorem Balanced.isOpen_eq {e e' : Entry} {s : Option Shortfall} (h : Balanced e e' s) :
    e'.isOpen = s.isSome := by
  cases h with
  | other h =>
      rw [Entry.isOpen, Entry.postings]
      split
      · next t hd => exact absurd hd (h t)
      · rfl
  | full h full => exact isOpen_of_full h full
  | inferred h inferable => exact isOpen_of_full rfl inferable.full
  | short h short => exact isOpen_of_short h short

/-! ## The whole pass -/

/-- A second pass over an entry finds what the first one made of it. -/
theorem entry_entry (e : Entry) : entry (entry e).1 = entry e :=
  balanced_iff.1 (balanced_entry e).again

theorem entries_entries (es : List Entry) : entries (entries es) = entries es := by
  rw [entries, entries, List.map_map]
  apply List.map_congr_left
  intro e he
  rw [Function.comp_apply, entry_entry]

/-- The problem is that of the entry at the place, which the pass has left
as it is: it is a transaction that falls short. -/
structure Problem.Concerns (problem : Problem) (e : Entry) (index : Nat) : Prop where
  entry : problem.entry = e
  index : problem.index = index
  reason : ∃ t, e.detail = .transaction t ∧ t.FallsShort problem.shortfall

/-- A list that is mapped and filtered, beside the same list of which what
is kept is mapped: the rows agree when each element is kept by both or by
none. -/
theorem forall₂_filter_filterMap {α β γ : Type} {l : List α} {f : α → β} {keep : β → Bool}
    {g : α → Option γ} {r : β → γ → Prop}
    (h : ∀ x ∈ l, (keep (f x) = false ∧ g x = none) ∨
      (keep (f x) = true ∧ ∃ y, g x = some y ∧ r (f x) y)) :
    List.Forall₂ r ((l.map f).filter keep) (l.filterMap g) := by
  induction l with
  | nil => exact .nil
  | cons x l ih =>
      have hrest := ih fun z hz => h z (by simp [hz])
      rw [List.map_cons]
      rcases h x (by simp) with ⟨hdrop, hnone⟩ | ⟨hkeep, y, hsome, hr⟩
      · rw [List.filter_cons_of_neg (by simp [hdrop]), List.filterMap_cons_none hnone]
        exact hrest
      · rw [List.filter_cons_of_pos hkeep, List.filterMap_cons_some hsome]
        exact .cons hr hrest

/-- The place goes with the entry through the pass. -/
theorem zipIdx_entries (es : List Entry) :
    (entries es).zipIdx = es.zipIdx.map fun x => ((entry x.1).1, x.2) := by
  rw [entries, List.zipIdx_map]
  rfl

theorem problems_eq (es : List Entry) :
    problems es = es.zipIdx.filterMap fun x => (entry x.1).2.map fun s => ⟨x.1, x.2, s⟩ := rfl

/-- Each problem concerns an entry that is still open after the pass, and
each such entry has its problem. -/
theorem problems_concern (es : List Entry) :
    List.Forall₂ (fun x problem => Problem.Concerns problem x.1 x.2)
      ((entries es).zipIdx.filter (·.1.isOpen)) (problems es) := by
  rw [zipIdx_entries, problems_eq]
  apply forall₂_filter_filterMap
  rintro ⟨e, i⟩ -
  have hbalanced := balanced_entry e
  have hopen := hbalanced.isOpen_eq
  generalize entry e = r at hbalanced hopen
  obtain ⟨e', s⟩ := r
  cases hbalanced with
  | other h => exact .inl ⟨hopen, rfl⟩
  | full h full => exact .inl ⟨hopen, rfl⟩
  | inferred h inferable => exact .inl ⟨hopen, rfl⟩
  | short h short => exact .inr ⟨hopen, _, rfl, rfl, rfl, _, h, short⟩

/-- A problem names an entry of the list by its place. -/
theorem getElem?_of_mem_problems {es : List Entry} {problem : Problem}
    (h : problem ∈ problems es) : es[problem.index]? = some problem.entry := by
  rw [problems_eq] at h
  obtain ⟨⟨e, i⟩, hmem, hsome⟩ := List.mem_filterMap.1 h
  obtain ⟨s, -, rfl⟩ := Option.map_eq_some_iff.1 hsome
  exact List.mem_zipIdx_iff_getElem?.1 hmem

/-- A second pass reports the same: what was reported was left as it
was. -/
theorem problems_entries (es : List Entry) : problems (entries es) = problems es := by
  rw [problems_eq, problems_eq, zipIdx_entries, List.filterMap_map]
  apply List.filterMap_congr
  rintro ⟨e, i⟩ -
  rw [Function.comp_apply, entry_entry]
  have hbalanced := balanced_entry e
  generalize entry e = r at hbalanced
  obtain ⟨e', s⟩ := r
  cases hbalanced with
  | other h => rfl
  | full h full => rfl
  | inferred h inferable => rfl
  | short h short => rfl

/-- **The balancing pass.** Each entry becomes what `Balanced` says, which
is one thing only. The problems are those of the entries that are still
open after the pass, in their order, and each is about the entry as it
was. A second pass changes nothing and finds the same problems. -/
theorem pass (es : List Entry) :
    List.Forall₂ (fun e e' => ∃ s, ∀ e'' s', Balanced e e'' s' ↔ e'' = e' ∧ s' = s)
        es (entries es) ∧
      List.Forall₂ (fun x problem => Problem.Concerns problem x.1 x.2)
        ((entries es).zipIdx.filter (·.1.isOpen)) (problems es) ∧
      (∀ problem ∈ problems es, es[problem.index]? = some problem.entry) ∧
      entries (entries es) = entries es ∧ problems (entries es) = problems es := by
  refine ⟨?_, problems_concern es, fun _ => getElem?_of_mem_problems, entries_entries es,
    problems_entries es⟩
  rw [entries, List.forall₂_map_right_iff, List.forall₂_same]
  intro e he
  refine ⟨(entry e).2, fun e' s => ?_⟩
  rw [balanced_iff, Prod.ext_iff, eq_comm (a := e'), eq_comm (a := s)]

end Balance
end Daybook
