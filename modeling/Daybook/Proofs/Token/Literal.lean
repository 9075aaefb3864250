import Daybook.Proofs.Token.Name
import Daybook.Token.Literal

/-!
# Token — Literal

Quoted strings, and the tokens that may hold them. A string may reach
over line ends, but it ends in its closing quote, so behind it the line
of that quote is still ahead; and what has been closed stays closed
whatever is written below.
-/

namespace Daybook

open Daybook.Text

/-! ## Strings between quotes -/

namespace Text.Quoted

/-- A character that no backslash case of `decode` takes is no
backslash. -/
theorem ne_backslash {c : Char} {rest : List Char} (hlone : c = '\\' → rest = [] → False)
    (hesc : ∀ d ds, c = '\\' → rest = d :: ds → False) : c ≠ '\\' := by
  intro hc
  cases rest with
  | nil => exact hlone hc rfl
  | cons d ds => exact hesc d ds hc rfl

/-- What was read ends in the closing quote. -/
theorem decode_closes {cs s : List Char} {n : Nat} (h : decode cs = some (s, n)) :
    ∃ body, cs.take n = body ++ ['"'] ∧ n = body.length + 1 := by
  fun_induction decode cs generalizing s n with
  | case1 => simp at h
  | case2 => simp at h
  | case3 c rest ih =>
      obtain ⟨⟨t, k⟩, ht, heq⟩ := Option.map_eq_some_iff.1 h
      cases heq
      obtain ⟨body, hb, hk⟩ := ih ht
      exact ⟨'\\' :: c :: body, by simp [hb], by simp [hk]⟩
  | case4 rest _ =>
      cases h
      exact ⟨[], rfl, rfl⟩
  | case5 c rest _ _ _ ih =>
      obtain ⟨⟨t, k⟩, ht, heq⟩ := Option.map_eq_some_iff.1 h
      cases heq
      obtain ⟨body, hb, hk⟩ := ih ht
      exact ⟨c :: body, by simp [hb], by simp [hk]⟩

/-- **A closed string stays closed.** -/
theorem decode_append {cs s : List Char} {n : Nat} (h : decode cs = some (s, n))
    (ds : List Char) : decode (cs ++ ds) = some (s, n) := by
  fun_induction decode cs generalizing s n with
  | case1 => simp at h
  | case2 => simp at h
  | case3 c rest ih =>
      obtain ⟨⟨t, k⟩, ht, heq⟩ := Option.map_eq_some_iff.1 h
      cases heq
      rw [List.cons_append, List.cons_append, decode, ih ht]
      rfl
  | case4 rest hesc =>
      cases h
      simp [decode]
  | case5 c rest hlone hesc hquote ih =>
      obtain ⟨⟨t, k⟩, ht, heq⟩ := Option.map_eq_some_iff.1 h
      cases heq
      have hc := ne_backslash hlone hesc
      rw [List.cons_append, decode, if_neg hquote, ih ht]
      · rfl
      · exact fun he => absurd he hc
      · exact fun _ _ he => absurd he hc

end Text.Quoted

namespace Token

/-- What a quoted string takes, it ends with its closing quote. -/
theorem quoted_found {cs : List Char} {s : String} {n : Nat} (h : quoted cs = .found s n) :
    ∃ body, cs.take n = '"' :: (body ++ ['"']) ∧ n = body.length + 2 := by
  cases cs with
  | nil => simp [quoted] at h
  | cons c cs =>
      by_cases hc : c = '"'
      · subst hc
        rw [quoted] at h
        split at h
        · next t k hd =>
          cases h
          obtain ⟨body, hb, hk⟩ := Quoted.decode_closes hd
          exact ⟨body, by simp [hb], by omega⟩
        · simp at h
      · simp [quoted, hc] at h

theorem quoted_le (cs : List Char) : (quoted cs).Finds fun _ n => n ≤ cs.length := by
  refine Reading.finds_iff.2 fun s n h => ?_
  obtain ⟨body, hb, rfl⟩ := quoted_found h
  have := congrArg List.length hb
  simp only [List.length_take, List.length_cons, List.length_append, List.length_nil] at this
  omega

theorem stays_quoted : Reading.Stays quoted := by
  intro cs hc hne
  refine Reading.finds_iff.2 fun s n h => ?_
  have hle : n ≤ cs.length := (quoted_le cs).of_eq h
  obtain ⟨body, hb, -⟩ := quoted_found h
  refine Nat.lt_of_le_of_ne hle fun he => ?_
  -- the whole text would end in the closing quote
  rw [he, List.take_length] at hb
  have hlast : cs.getLast? = some '"' := by
    rw [hb, ← List.cons_append, List.getLast?_concat]
  have := hc '"' hlast
  simp at this

theorem firm_quoted : Reading.Firm quoted := by
  intro cs ds hc hne _ hs
  cases cs with
  | nil => exact absurd rfl hne
  | cons c cs =>
      by_cases hq : c = '"'
      · subst hq
        rw [List.cons_append, quoted, quoted]
        cases hd : Quoted.decode cs with
        | none => simp [quoted, hd] at hs
        | some r => rw [Quoted.decode_append hd]
      · simp [quoted, hq]

/-! ## A quoted string or else a word -/

theorem quoted_eq_absent {cs : List Char} (h : cs.head? ≠ some '"') : quoted cs = .absent := by
  cases cs with
  | nil => rfl
  | cons c cs =>
      have hc : c ≠ '"' := fun he => h (by simp [he])
      simp [quoted, hc]

theorem quoted_ne_absent {cs : List Char} (h : cs.head? = some '"') : quoted cs ≠ .absent := by
  cases cs with
  | nil => simp at h
  | cons c cs =>
      have hc : c = '"' := by simpa using h
      subst hc
      rw [quoted]
      split <;> simp

theorem string_eq (cs : List Char) :
    string cs = if cs.head? = some '"' then quoted cs else bareWord.read cs := by
  rw [string]
  split
  · next h => rw [if_neg fun hq => quoted_ne_absent hq h]
  · next hno => rw [if_pos (by_contra fun hq => hno (quoted_eq_absent hq))]

theorem item_eq (cs : List Char) :
    item cs = if cs.head? = some '"' then quoted cs else bareItem.read cs := by
  rw [item]
  split
  · next h => rw [if_neg fun hq => quoted_ne_absent hq h]
  · next hno => rw [if_pos (by_contra fun hq => hno (quoted_eq_absent hq))]

section QuotedOr

variable {r : Reader String} {l : Lexeme}
  (heq : ∀ cs, r cs = if cs.head? = some '"' then quoted cs else l.read cs)

include heq

theorem firm_quotedOr (hl : OnLine l) : Reading.Firm r := by
  intro cs ds hc hne hd hs
  have hhead : (cs ++ ds).head? = cs.head? := by
    cases cs with
    | nil => exact absurd rfl hne
    | cons c cs => rfl
  rw [heq] at hs
  rw [heq, heq, hhead]
  split
  · next hq =>
    rw [if_pos hq] at hs
    exact firm_quoted cs ds hc hne hd hs
  · next hq =>
    rw [if_neg hq] at hs
    exact Lexeme.firm_read hl cs ds hc hne hd hs

theorem stays_quotedOr (hl : OnLine l) (hb : l.Begins) : Reading.Stays r := by
  intro cs hc hne
  rw [heq]
  split
  · exact stays_quoted cs hc hne
  · exact Lexeme.stays_read hl hb cs hc hne

theorem quotedOr_le (hb : l.Begins) (cs : List Char) :
    (r cs).Finds fun _ n => n ≤ cs.length := by
  rw [heq]
  split
  · exact quoted_le cs
  · exact hb.finds_le cs

end QuotedOr

/-! ## Lists of items -/

theorem onLine_separator : OnLine separator := by
  intro cs
  have hb := inlineBlanks_le_lineAhead cs
  rw [separator, separator, onLine_inlineBlanks, ← lineAhead_drop hb]
  cases hd : cs.drop (inlineBlanks cs) with
  | nil => rfl
  | cons c rest =>
      by_cases hc : c = '\n'
      · subst hc
        rfl
      · rw [lineAhead_cons hc]
        by_cases hcomma : c = ','
        · subst hcomma
          simp only
          rw [onLine_inlineBlanks]
        · simp [hcomma]

theorem separator_le (cs : List Char) : separator cs ≤ (lineAhead cs).length := by
  have hb := inlineBlanks_le (lineAhead cs)
  rw [← onLine_separator cs, separator]
  split
  · next rest hd =>
    have h1 := congrArg List.length hd
    have h2 := inlineBlanks_le rest
    rw [List.length_drop, List.length_cons] at h1
    omega
  · exact hb

/-- Items, read one after another as long as something separates them. -/
theorem items_eq (cs : List Char) :
    items cs = match item cs with
      | .absent => .found [] 0
      | .broken f => .broken f
      | .found s n =>
        if separator (cs.drop n) = 0 then .found [s] n
        else ((items (cs.drop (n + separator (cs.drop n)))).map (s :: ·)).shift
          (n + separator (cs.drop n)) := by
  rw [items]
  split <;> simp [*]

theorem firm_item : Reading.Firm item := firm_quotedOr item_eq onLine_bareItem

theorem stays_item : Reading.Stays item :=
  stays_quotedOr item_eq onLine_bareItem (Lexeme.begins_headed _ _)

theorem item_le (cs : List Char) : (item cs).Finds fun _ n => n ≤ cs.length :=
  quotedOr_le item_eq (Lexeme.begins_headed _ _) cs

/-- In a text that ends its lines, an item and what separates it from
the next leave something of the text ahead. -/
theorem item_separator_lt {cs : List Char} (hc : Complete cs) (hne : cs ≠ []) {s : String}
    {n : Nat} (h : item cs = .found s n) : n + separator (cs.drop n) < cs.length := by
  have hn : n < cs.length := (stays_item cs hc hne).of_eq h
  have hd := (hc.drop n).drop_ne_nil (by simp; omega) (separator_le (cs.drop n))
  rw [List.drop_drop] at hd
  exact Nat.lt_of_not_le fun hge => hd (List.drop_eq_nil_of_le hge)

theorem firm_items : Reading.Firm items := by
  intro cs ds hc hne hd hs
  fun_induction items cs with
  | case1 cs h =>
      rw [items_eq, firm_item cs ds hc hne hd (by simp [h]), h]
  | case2 cs f h => simp at hs
  | case3 cs s n h gap hgap =>
      have hlt := item_separator_lt hc hne h
      have hsep : separator ((cs ++ ds).drop n) = separator (cs.drop n) := by
        rw [List.drop_append_of_le_length (by omega)]
        exact onLine_separator.append ((hc.drop n).newline_mem (by simp; omega)) ds
      rw [items_eq, firm_item cs ds hc hne hd (by simp [h]), h]
      simp only
      rw [hsep, if_pos hgap]
  | case4 cs s n h gap hgap ih =>
      have hlt := item_separator_lt hc hne h
      have hsep : separator ((cs ++ ds).drop n) = separator (cs.drop n) := by
        rw [List.drop_append_of_le_length (by omega)]
        exact onLine_separator.append ((hc.drop n).newline_mem (by simp; omega)) ds
      have hrest := ih (hc.drop _) (by simp; omega) (by simpa using hs)
      rw [← List.drop_append_of_le_length (by omega)] at hrest
      rw [items_eq, firm_item cs ds hc hne hd (by simp [h]), h]
      simp only
      rw [hsep, if_neg hgap, hrest]

theorem stays_items : Reading.Stays items := by
  intro cs hc hne
  fun_induction items cs with
  | case1 cs h =>
      have : 0 < cs.length := List.length_pos_iff.2 hne
      simpa using this
  | case2 cs f h => trivial
  | case3 cs s n h gap hgap => exact (stays_item cs hc hne).of_eq h
  | case4 cs s n h gap hgap ih =>
      have hlt := item_separator_lt hc hne h
      refine (Reading.finds_shift ..).2 ((Reading.finds_map ..).2 ?_)
      refine (ih (hc.drop _) (by simp; omega)).mono fun _ k hk => ?_
      rw [List.length_drop] at hk
      omega

theorem items_le (cs : List Char) : (items cs).Finds fun _ n => n ≤ cs.length := by
  fun_induction items cs with
  | case1 cs h => simp
  | case2 cs f h => trivial
  | case3 cs s n h gap hgap => exact (item_le cs).of_eq h
  | case4 cs s n h gap hgap ih =>
      have h1 : n ≤ cs.length := (item_le cs).of_eq h
      have h2 := separator_le (cs.drop n)
      have h3 := lineAhead_length_le (cs.drop n)
      refine (Reading.finds_shift ..).2 ((Reading.finds_map ..).2 ?_)
      refine ih.mono fun _ k hk => ?_
      rw [List.length_drop] at hk h3
      omega

theorem array_eq (cs : List Char) :
    array cs = match items cs with
      | .found [] _ => .absent
      | r => r := rfl

theorem firm_array : Reading.Firm array := by
  intro cs ds hc hne hd hs
  have hitems : (items cs).Sound := by
    rw [array_eq] at hs
    split at hs
    · next h => simp [h]
    · exact hs
  rw [array_eq, array_eq, firm_items cs ds hc hne hd hitems]

theorem array_finds {P : List String → Nat → Prop} {cs : List Char} (h : (items cs).Finds P) :
    (array cs).Finds P := by
  rw [array_eq]
  split
  · trivial
  · exact h

/-! ## The comment of a line -/

theorem commentFrom_lineAhead (inside : Bool) (cs : List Char) :
    commentFrom inside (lineAhead cs) = commentFrom inside cs := by
  induction cs generalizing inside with
  | nil => rfl
  | cons c cs ih =>
      by_cases hc : c = '\n'
      · subst hc
        simp [commentFrom]
      · rw [lineAhead_cons hc, commentFrom, commentFrom, ih, ih]

theorem onLine_commentStart : OnLine commentStart := commentFrom_lineAhead false

end Token
end Daybook
