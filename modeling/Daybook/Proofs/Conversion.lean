import Daybook.Conversion
import Mathlib.Data.List.Forall2

/-!
# Conversion — what is taken over

The fields of a converted entry are the keys of its mapping other than
those that every entry has, in their order and with their values. Two keys
may be given another value, and keep their place: the postings of a
transaction, and an amount that has a number (`Becomes`). A list is
converted entry by entry, so it fails with the first mapping that fails
alone.
-/

namespace Daybook

namespace Value

/-! ## Keys of a mapping -/

theorem sameKey_text_iff {k : Value} {name : String} :
    k.sameKey (.text name) = true ↔ k = .text name := by
  cases k with
  | scalar s => cases s <;> simp [sameKey, whole?]
  | _ => simp [sameKey, whole?]

/-- No key is there twice. -/
def Distinct (es : List (Value × Value)) : Prop := es.Pairwise fun a b => a.1.sameKey b.1 = false

variable {es : List (Value × Value)} {name : String} {v w : Value}

theorem mem_of_lookup (h : lookup es name = some v) : (.text name, v) ∈ es := by
  obtain ⟨⟨k, u⟩, hfind, rfl⟩ := Option.map_eq_some_iff.1 h
  have hkey : k.sameKey (.text name) = true := by simpa using List.find?_some hfind
  rw [← sameKey_text_iff.1 hkey]
  exact List.mem_of_find?_eq_some hfind

/-- A key that is there once is looked up where it stands. -/
theorem lookup_of_mem (hd : Distinct es) (h : (.text name, v) ∈ es) : lookup es name = some v := by
  induction es with
  | nil => cases h
  | cons e es ih =>
      obtain ⟨hfirst, hrest⟩ := List.pairwise_cons.1 hd
      rcases List.mem_cons.1 h with rfl | hmem
      · simp [lookup, sameKey]
      · have hne : e.1.sameKey (.text name) = false := hfirst _ hmem
        rw [lookup, List.find?_cons, hne]
        exact ih hrest hmem

/-- The entry, with the value `w` if its key is the text. -/
def withValue (name : String) (w : Value) (e : Value × Value) : Value × Value :=
  if e.1.sameKey (.text name) then (e.1, w) else e

/-- Setting a key that is there changes its value and nothing else. -/
theorem insert_eq_map (hd : Distinct es) (h : (.text name, v) ∈ es) :
    insert es (.text name) w = es.map (withValue name w) := by
  induction es with
  | nil => cases h
  | cons e es ih =>
      obtain ⟨hfirst, hrest⟩ := List.pairwise_cons.1 hd
      by_cases hkey : e.1.sameKey (.text name) = true
      · have habsent : ∀ e' ∈ es, withValue name w e' = e' := by
          intro e' he'
          have hne := hfirst e' he'
          rw [sameKey_text_iff.1 hkey] at hne
          have hother : ¬e'.1.sameKey (.text name) = true := by
            intro hsame
            rw [sameKey_text_iff.1 hsame] at hne
            simp [sameKey] at hne
          rw [withValue, if_neg hother]
        rw [insert, if_pos hkey, List.map_cons, List.map_congr_left habsent, List.map_id',
          withValue, if_pos hkey]
      · have hmem : (.text name, v) ∈ es := by
          rcases List.mem_cons.1 h with rfl | hmem
          · exact absurd (sameKey_text_iff.2 rfl) hkey
          · exact hmem
        rw [insert, if_neg hkey, ih hrest hmem, List.map_cons, withValue, if_neg hkey]

end Value

/-! ## One after another -/

section Lists

variable {α β : Type} {f : α → Except Fault β}

theorem bind_eq_ok_iff {x : Except Fault α} {y : β} :
    x >>= f = .ok y ↔ ∃ a, x = .ok a ∧ f a = .ok y := by
  cases x with
  | ok a => exact ⟨fun h => ⟨a, rfl, h⟩, fun ⟨_, ha, h⟩ => by cases ha; exact h⟩
  | error e => exact ⟨nofun, nofun⟩

theorem mapM_eq_ok_iff {xs : List α} {ys : List β} :
    xs.mapM f = .ok ys ↔ List.Forall₂ (fun x y => f x = .ok y) xs ys := by
  induction xs generalizing ys with
  | nil => cases ys <;> simp [pure, Except.pure]
  | cons x xs ih =>
      simp only [List.mapM_cons, bind_eq_ok_iff]
      constructor
      · rintro ⟨y, hy, zs, hzs, heq⟩
        cases heq
        exact .cons hy (ih.1 hzs)
      · intro h
        cases h with
        | cons hy hys => exact ⟨_, hy, _, ih.2 hys, rfl⟩

/-- The first that fails decides how the whole fails. -/
theorem mapM_eq_error_iff {xs : List α} {e : Fault} :
    xs.mapM f = .error e ↔ ∃ before x after, xs = before ++ x :: after ∧
      (∀ b ∈ before, ∃ y, f b = .ok y) ∧ f x = .error e := by
  induction xs with
  | nil => simp [pure, Except.pure]
  | cons x xs ih =>
      rw [List.mapM_cons]
      cases hx : f x with
      | error e' =>
          constructor
          · intro h
            cases h
            exact ⟨[], x, xs, rfl, nofun, hx⟩
          · rintro ⟨before, z, after, heq, hbefore, hz⟩
            rcases List.cons_eq_append_iff.1 heq with ⟨rfl, hcons⟩ | ⟨before, rfl, -⟩
            · cases hcons
              cases hx.symm.trans hz
              rfl
            · obtain ⟨y, hy⟩ := hbefore x List.mem_cons_self
              simp [hx] at hy
      | ok y =>
          have hrest : (xs.mapM f >>= fun ys => pure (y :: ys)) = .error e ↔
              xs.mapM f = .error e := by
            cases xs.mapM f <;> simp [bind, Except.bind, pure, Except.pure]
          refine hrest.trans (ih.trans ⟨?_, ?_⟩)
          · rintro ⟨before, z, after, rfl, hbefore, hz⟩
            exact ⟨x :: before, z, after, rfl, List.forall_mem_cons.2 ⟨⟨y, hx⟩, hbefore⟩, hz⟩
          · rintro ⟨before, z, after, heq, hbefore, hz⟩
            rcases List.cons_eq_append_iff.1 heq with ⟨rfl, hcons⟩ | ⟨before, rfl, htail⟩
            · cases hcons
              simp [hx] at hz
            · exact ⟨before, z, after, htail, (List.forall_mem_cons.1 hbefore).2, hz⟩

end Lists

namespace Conversion

open Value

/-! ## Amounts -/

/-- The parts hold a number. -/
def Numbered (parts : List (Value × Value)) : Prop :=
  ∃ n, lookup parts "number" = some n ∧ n ≠ .null

/-- The parts denote the amount: its value is the float of their number, and
its currency is their currency as a text. -/
structure Denotes (parts : List (Value × Value)) (a : Amount) : Prop where
  number : ∃ n, lookup parts "number" = some n ∧ n ≠ .null ∧ floatOf n = .ok a.value
  currency : ∃ c, lookup parts "currency" = some c ∧ c.plainText = .ok a.currency

theorem hasNumber_iff {parts : List (Value × Value)} : hasNumber parts = true ↔ Numbered parts := by
  unfold hasNumber Numbered
  split <;> simp_all

theorem amountOf_eq_none {parts : List (Value × Value)} (h : ¬Numbered parts) :
    amountOf parts = .ok none := by
  unfold amountOf
  split
  · rfl
  · rfl
  · next n hnull hn => exact absurd ⟨n, hn, hnull⟩ h

theorem amountOf_eq {parts : List (Value × Value)} {n : Value}
    (hn : lookup parts "number" = some n) (hnull : n ≠ .null) :
    amountOf parts = floatOf n >>= fun x =>
      (lookup parts "currency").elim (.error (.missingKey "currency")) fun c =>
        c.plainText >>= fun s => .ok (some ⟨x, s⟩) := by
  rw [amountOf, hn]
  cases lookup parts "currency" <;> cases n with
  | scalar s => cases s <;> first | exact absurd rfl hnull | rfl
  | _ => rfl

theorem amountOf_eq_ok_iff {parts : List (Value × Value)} {answer : Option Amount}
    (h : Numbered parts) :
    amountOf parts = .ok answer ↔ ∃ a, answer = some a ∧ Denotes parts a := by
  obtain ⟨n, hn, hnull⟩ := h
  rw [amountOf_eq hn hnull, bind_eq_ok_iff]
  constructor
  · rintro ⟨x, hx, h⟩
    cases hc : lookup parts "currency" with
    | none =>
        rw [hc] at h
        cases h
    | some c =>
        rw [hc] at h
        obtain ⟨s, hs, hsome⟩ := bind_eq_ok_iff.1 h
        cases hsome
        exact ⟨_, rfl, ⟨n, hn, hnull, hx⟩, c, hc, hs⟩
  · rintro ⟨a, rfl, ⟨m, hm, -, hvalue⟩, c, hc, hs⟩
    cases hn.symm.trans hm
    rw [hc]
    exact ⟨a.value, hvalue, bind_eq_ok_iff.2 ⟨a.currency, hs, rfl⟩⟩

/-- What becomes of an amount that may be left out. -/
inductive Quantity : Value → Value → Prop
  | vacant {v : Value} (vacant : v.isVacant = true) : Quantity v .null
  | numberless {parts : List (Value × Value)} (numberless : ¬Numbered parts) :
      Quantity (.mapping parts) .null
  | amount {parts : List (Value × Value)} {a : Amount} (numbered : Numbered parts)
      (denotes : Denotes parts a) : Quantity (.mapping parts) (.amount a)

theorem quantity_of_amount {v : Value} {a : Option Amount} (h : amount v = .ok a) :
    Quantity v (amountValue a) := by
  unfold amount at h
  split at h
  · next hvacant =>
    cases h
    exact .vacant hvacant
  · obtain ⟨parts, hparts, ha⟩ := bind_eq_ok_iff.1 h
    cases v with
    | mapping es =>
        cases hparts
        by_cases hn : Numbered parts
        · obtain ⟨b, rfl, hb⟩ := (amountOf_eq_ok_iff hn).1 ha
          exact .amount hn hb
        · rw [amountOf_eq_none hn] at ha
          cases ha
          exact .numberless hn
    | _ => cases hparts

/-! ## Postings -/

/-- What becomes of a posting. -/
inductive Posts : Value → Value → Prop
  | mapping {es metadata : List (Value × Value)} {units cost price : Value}
      (units_of : Quantity (part es "amount") units) (cost_of : Quantity (part es "cost") cost)
      (price_of : Quantity (part es "price") price)
      (metadata_of : (part es "meta").pairsOf = .ok metadata) :
      Posts (.mapping es) (.mapping [(.text "account", part es "account"), (.text "amount", units),
        (.text "cost", cost), (.text "price", price), (.text "flag", part es "flag"),
        (.text "meta", .mapping metadata)])

theorem posts_of_posting {v w : Value} (h : posting v = .ok w) : Posts v w := by
  obtain ⟨es, hes, h⟩ := bind_eq_ok_iff.1 h
  obtain ⟨units, hunits, h⟩ := bind_eq_ok_iff.1 h
  obtain ⟨cost, hcost, h⟩ := bind_eq_ok_iff.1 h
  obtain ⟨price, hprice, h⟩ := bind_eq_ok_iff.1 h
  obtain ⟨metadata, hmetadata, h⟩ := bind_eq_ok_iff.1 h
  cases h
  cases v with
  | mapping es =>
      cases hes
      exact .mapping (quantity_of_amount hunits) (quantity_of_amount hcost)
        (quantity_of_amount hprice) hmetadata
  | _ => cases hes

/-! ## Fields -/

/-- The entries whose keys are taken over. -/
def others (es : List (Value × Value)) : List (Value × Value) :=
  es.filter fun e => !reserved.any fun name => e.1.sameKey (.text name)

/-- The mapping is a transaction. -/
def IsTransaction (es : List (Value × Value)) : Prop :=
  lookup es "type" = some (.text "transaction")

/-- What a key of a mapping becomes among the fields of the entry: it keeps
its value, unless the key is for the postings of a transaction, of which
there are some, or for an amount with a number. -/
inductive Becomes (es : List (Value × Value)) : Value × Value → String × Value → Prop
  | kept {name : String} {v : Value}
      (no_postings : name = "postings" → ¬(IsTransaction es ∧ v.isVacant = false))
      (no_amount : name = "amount" → ∀ parts, v = .mapping parts → ¬Numbered parts) :
      Becomes es (.text name, v) (name, v)
  | postings {v : Value} {ps ws : List Value} (transaction : IsTransaction es)
      (some_postings : v.isVacant = false) (walked : v.items = .ok ps)
      (each : List.Forall₂ Posts ps ws) :
      Becomes es (.text "postings", v) ("postings", .list ws)
  | amount {parts : List (Value × Value)} {a : Amount} (numbered : Numbered parts)
      (denotes : Denotes parts a) :
      Becomes es (.text "amount", .mapping parts) ("amount", .amount a)

variable {es fields : List (Value × Value)}

theorem hasPostings_iff : hasPostings es = true ↔
    IsTransaction es ∧ (part es "postings").isVacant = false := by
  have htype : (part es "type").sameKey (.text "transaction") = true ↔ IsTransaction es := by
    rw [sameKey_text_iff, part, IsTransaction]
    cases lookup es "type" <;> simp
  rw [hasPostings, Bool.and_eq_true, htype, Bool.not_eq_true']

/-- The value that the key for postings is given anew, if it is. -/
inductive NewPostings (es : List (Value × Value)) : Option Value → Prop
  | none (no_postings : ¬(IsTransaction es ∧ (part es "postings").isVacant = false)) :
      NewPostings es none
  | some {ps ws : List Value} (transaction : IsTransaction es)
      (some_postings : (part es "postings").isVacant = false)
      (walked : (part es "postings").items = .ok ps) (each : List.Forall₂ Posts ps ws) :
      NewPostings es (some (.list ws))

/-- The value that the key for an amount is given anew, if it is. -/
inductive NewAmount (es : List (Value × Value)) : Option Value → Prop
  | none (no_amount : ∀ parts, part es "amount" = .mapping parts → ¬Numbered parts) :
      NewAmount es none
  | some {parts : List (Value × Value)} {a : Amount} (held : part es "amount" = .mapping parts)
      (numbered : Numbered parts) (denotes : Denotes parts a) : NewAmount es (some (.amount a))

/-- Sets a key, if there is a value to set. -/
def setIn (fields : List (Value × Value)) (name : String) : Option Value → List (Value × Value)
  | none => fields
  | some w => insert fields (.text name) w

theorem exists_newPostings {fields' : List (Value × Value)}
    (h : withPostings es fields = .ok fields') :
    ∃ o, NewPostings es o ∧ fields' = setIn fields "postings" o := by
  unfold withPostings at h
  split at h
  · next hhas =>
    obtain ⟨htype, hsome⟩ := hasPostings_iff.1 hhas
    obtain ⟨ps, hps, h⟩ := bind_eq_ok_iff.1 h
    obtain ⟨ws, hws, h⟩ := bind_eq_ok_iff.1 h
    cases h
    refine ⟨_, .some htype hsome hps ?_, rfl⟩
    exact (mapM_eq_ok_iff.1 hws).imp fun _ _ => posts_of_posting
  · next hnot =>
    cases h
    exact ⟨none, .none fun h => hnot (hasPostings_iff.2 h), rfl⟩

theorem exists_newAmount {fields' : List (Value × Value)} (h : withAmount es fields = .ok fields') :
    ∃ o, NewAmount es o ∧ fields' = setIn fields "amount" o := by
  unfold withAmount at h
  split at h
  · next parts hparts =>
    split at h
    · next hhas =>
      have hn := hasNumber_iff.1 hhas
      obtain ⟨answer, ha, h⟩ := bind_eq_ok_iff.1 h
      obtain ⟨a, rfl, hdenotes⟩ := (amountOf_eq_ok_iff hn).1 ha
      cases h
      exact ⟨_, .some hparts hn hdenotes, rfl⟩
    · next hnot =>
      cases h
      refine ⟨none, .none fun parts' hparts' hn => hnot ?_, rfl⟩
      cases hparts.symm.trans hparts'
      exact hasNumber_iff.2 hn
  · next hno =>
    cases h
    exact ⟨none, .none fun parts hparts => absurd hparts (hno parts), rfl⟩

/-! ## Setting a key -/

/-- The entry, with its value set if its key is the text and there is a value to set. -/
def setValue (name : String) : Option Value → Value × Value → Value × Value
  | none => id
  | some w => withValue name w

theorem setValue_text {name k : String} {o : Option Value} {v : Value} :
    setValue name o (.text k, v) = (.text k, if k = name then o.getD v else v) := by
  cases o with
  | none => simp [setValue]
  | some w =>
      by_cases hk : k = name
      · simp [setValue, withValue, sameKey, hk]
      · simp [setValue, withValue, sameKey, hk]

@[simp] theorem setValue_fst {name : String} {o : Option Value} {e : Value × Value} :
    (setValue name o e).1 = e.1 := by
  cases o with
  | none => rfl
  | some w =>
      rw [setValue, withValue]
      split <;> rfl

theorem distinct_map_setValue {name : String} {o : Option Value} (hd : Distinct fields) :
    Distinct (fields.map (setValue name o)) := by
  rw [Distinct, List.pairwise_map]
  simp only [setValue_fst]
  exact hd

theorem setIn_eq_map {name : String} {o : Option Value} (hd : Distinct fields)
    (hthere : o ≠ none → ∃ v, (.text name, v) ∈ fields) :
    setIn fields name o = fields.map (setValue name o) := by
  cases o with
  | none => exact (List.map_id _).symm
  | some w =>
      obtain ⟨v, hv⟩ := hthere nofun
      exact insert_eq_map hd hv

theorem mem_of_part {name : String} (h : part es name ≠ .null) :
    (.text name, part es name) ∈ es := by
  cases hl : lookup es name with
  | none => exact absurd (by rw [part, hl]; rfl) h
  | some v =>
      have hpart : part es name = v := by rw [part, hl]; rfl
      exact hpart ▸ mem_of_lookup hl

theorem part_of_mem {name : String} {v : Value} (hd : Distinct es) (h : (.text name, v) ∈ es) :
    part es name = v := by
  rw [part, lookup_of_mem hd h]
  rfl

theorem mem_others {name : String} {v : Value} (hname : name ∉ reserved)
    (h : (.text name, v) ∈ es) : (.text name, v) ∈ others es := by
  refine List.mem_filter.2 ⟨h, ?_⟩
  simpa [reserved, sameKey] using hname

theorem distinct_others (hd : Distinct es) : Distinct (others es) := hd.filter _

theorem NewPostings.mem_others {o : Option Value} (h : NewPostings es o) (hsome : o ≠ Option.none) :
    ∃ v, (.text "postings", v) ∈ others es := by
  cases h with
  | none => exact absurd rfl hsome
  | some _ hvacant _ _ =>
      have hnull : part es "postings" ≠ .null := by
        intro hnull
        rw [hnull] at hvacant
        cases hvacant
      exact ⟨_, Conversion.mem_others (by decide) (mem_of_part hnull)⟩

theorem NewAmount.mem_others {o : Option Value} (h : NewAmount es o) (hsome : o ≠ Option.none) :
    ∃ v, (.text "amount", v) ∈ others es := by
  cases h with
  | none => exact absurd rfl hsome
  | some held _ _ =>
      have hnull : part es "amount" ≠ .null := by rw [held]; nofun
      exact ⟨_, Conversion.mem_others (by decide) (mem_of_part hnull)⟩

/-- Setting both keys is done at each entry apart. -/
theorem setIn_setIn {op oa : Option Value} (hd : Distinct es) (hp : NewPostings es op)
    (ha : NewAmount es oa) : setIn (setIn (others es) "postings" op) "amount" oa =
      (others es).map fun e => setValue "amount" oa (setValue "postings" op e) := by
  have hdistinct := distinct_others hd
  rw [setIn_eq_map hdistinct hp.mem_others,
    setIn_eq_map (distinct_map_setValue hdistinct) ?_, List.map_map]
  · rfl
  · intro hsome
    obtain ⟨v, hv⟩ := ha.mem_others hsome
    refine ⟨v, List.mem_map.2 ⟨_, hv, ?_⟩⟩
    rw [setValue_text, if_neg (by decide)]

theorem fieldOf_eq_ok {e : Value × Value} {x : String × Value} (h : fieldOf e = .ok x) :
    e = (.text x.1, x.2) := by
  obtain ⟨k, v⟩ := e
  cases k with
  | scalar s => cases s <;> cases h; rfl
  | _ => cases h

theorem becomes_of {op oa : Option Value} {e : Value × Value} {x : String × Value}
    (hd : Distinct es) (hmem : e ∈ es) (hp : NewPostings es op) (ha : NewAmount es oa)
    (h : fieldOf (setValue "amount" oa (setValue "postings" op e)) = .ok x) : Becomes es e x := by
  obtain ⟨k, v⟩ := e
  obtain ⟨name, y⟩ := x
  -- The key is the field's name, for setting a key keeps it.
  have hkey : k = .text name := by simpa using congrArg Prod.fst (fieldOf_eq_ok h)
  subst hkey
  have hpart := part_of_mem hd hmem
  rw [setValue_text, setValue_text] at h
  cases h
  by_cases hpostings : name = "postings"
  · subst hpostings
    rw [if_pos rfl, if_neg (by decide)]
    cases hp with
    | none hno => exact .kept (fun _ => hpart ▸ hno) (fun h => absurd h (by decide))
    | some htype hsome hitems heach => exact .postings htype (hpart ▸ hsome) (hpart ▸ hitems) heach
  · rw [if_neg hpostings]
    by_cases hamount : name = "amount"
    · subst hamount
      rw [if_pos rfl]
      cases ha with
      | none hno => exact .kept (fun h => absurd h (by decide)) (fun _ => hpart ▸ hno)
      | some held hnumbered hdenotes =>
          cases hpart.symm.trans held
          exact .amount hnumbered hdenotes
    · rw [if_neg hamount]
      exact .kept (fun h => absurd h hpostings) (fun h => absurd h hamount)

/-! ## Entries -/

/-- The fields of a converted entry, key by key. -/
theorem entry_fields {e : Entry} (hd : Distinct es) (h : entry (.mapping es) = .ok e) :
    List.Forall₂ (Becomes es) (others es) e.fields := by
  obtain ⟨es', hes, h⟩ := bind_eq_ok_iff.1 h
  cases hes
  obtain ⟨fields₁, hpostings, h⟩ := bind_eq_ok_iff.1 h
  obtain ⟨fields₂, hamount, h⟩ := bind_eq_ok_iff.1 h
  obtain ⟨kind, -, h⟩ := bind_eq_ok_iff.1 h
  obtain ⟨date, -, h⟩ := bind_eq_ok_iff.1 h
  obtain ⟨pairs, -, h⟩ := bind_eq_ok_iff.1 h
  obtain ⟨fields, hfields, h⟩ := bind_eq_ok_iff.1 h
  obtain ⟨metadata, -, h⟩ := bind_eq_ok_iff.1 h
  cases h
  obtain ⟨op, hp, rfl⟩ := exists_newPostings hpostings
  obtain ⟨oa, ha, rfl⟩ := exists_newAmount hamount
  rw [← others, setIn_setIn hd hp ha, List.mapM_map] at hfields
  have hall := mapM_eq_ok_iff.1 hfields
  have hmem : ∀ e ∈ others es, e ∈ es := fun e he => List.mem_of_mem_filter he
  exact ((List.forall₂_and_left _ _).2 ⟨hmem, hall⟩).imp fun e x h => becomes_of hd h.1 hp ha h.2

/-- **A list of mappings is converted entry by entry.** Where the conversion
succeeds there is one entry for each mapping, in order, and its fields are
the other keys of the mapping, each of them as `Becomes` says. It fails just
when a mapping fails alone, and as the first such mapping does. -/
theorem entries_each_or_first_failure (ms : List (List (Value × Value)))
    (hms : ∀ es ∈ ms, Distinct es) :
    (∀ result, entries (.list (ms.map .mapping)) = .ok result →
      List.Forall₂ (fun es e => entry (.mapping es) = .ok e ∧
        List.Forall₂ (Becomes es) (others es) e.fields) ms result) ∧
    ∀ f, entries (.list (ms.map .mapping)) = .error f ↔ ∃ before es after,
      ms = before ++ es :: after ∧ (∀ b ∈ before, ∃ e, entry (.mapping b) = .ok e) ∧
        entry (.mapping es) = .error f := by
  have hentries : entries (.list (ms.map .mapping)) = ms.mapM (entry ∘ .mapping) :=
    List.mapM_map ..
  constructor
  · intro result h
    have hall := mapM_eq_ok_iff.1 (hentries ▸ h)
    exact ((List.forall₂_and_left _ _).2 ⟨hms, hall⟩).imp
      fun es e h => ⟨h.2, entry_fields h.1 h.2⟩
  · intro f
    rw [hentries]
    exact mapM_eq_error_iff

/-- A transaction with a posting, and a price whose number is a text. -/
def rentAndPrice : List (List (Value × Value)) :=
  [[(.text "type", .text "transaction"), (.text "postings", .list [.mapping
      [(.text "account", .text "Expenses:Rent"), (.text "flag", .null)]]), (.text "payee", .null)],
    [(.text "amount", .mapping [(.text "number", .text "2.5"), (.text "currency", .text "BRL")]),
      (.text "date", .text "2024-01-01"), (.text "currency", .text "USD")]]

theorem entries_each_or_first_failure_rentAndPrice :
    (∀ es ∈ rentAndPrice, Distinct es) ∧ ∃ rent price,
      entries (.list (rentAndPrice.map .mapping)) = .ok [rent, price] ∧
      rent.fields.map (·.1) = ["postings", "payee"] ∧
      price.fields = [("amount", .amount ⟨2.5, "BRL"⟩), ("currency", .text "USD")] ∧
      List.Forall₂ (fun es e => entry (.mapping es) = .ok e ∧
        List.Forall₂ (Becomes es) (others es) e.fields) rentAndPrice [rent, price] := by
  have hdistinct : ∀ es ∈ rentAndPrice, Distinct es := by
    simp [rentAndPrice, Distinct, sameKey]
  have hresult : entries (.list (rentAndPrice.map .mapping)) = .ok
      [⟨"", [], .plain "transaction" [("postings", .list [.mapping
        [(.text "account", .text "Expenses:Rent"), (.text "amount", .null), (.text "cost", .null),
          (.text "price", .null), (.text "flag", .null), (.text "meta", .mapping [])]]),
        ("payee", .null)]⟩,
      ⟨"2024-01-01", [],
        .plain "" [("amount", .amount ⟨2.5, "BRL"⟩), ("currency", .text "USD")]⟩] :=
    rfl
  exact ⟨hdistinct, _, _, hresult, rfl, rfl,
    (entries_each_or_first_failure rentAndPrice hdistinct).1 _ hresult⟩

end Conversion

end Daybook
