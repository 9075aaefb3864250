import Daybook.Proofs.Written.Heading

/-!
# Written — lists

The items of a list are written as strings between quotes or as bare words
(`ListItem`), and what separates two of them is a comma or white space
(`Separator`). Whether the list goes on is decided by what separates, not
by what comes behind it, so every mix of both is read back item by item.
-/

namespace Daybook

open Daybook.Text Daybook.Reading

namespace Written

/-! ## Items -/

/-- A bare word of a list. Nothing in it ends an item, and it does not
start like a tag, a link or a string. -/
structure BareItem where
  first : Char
  more : List Char
  plain : ∀ c ∈ first :: more, isBlank c = false ∧ c ≠ ',' ∧ c ≠ ';'
  unsigned : first ≠ '#' ∧ first ≠ '^' ∧ first ≠ '"'

/-- An item of a list. A string may be spelled between its quotes in any
way, and hold what would separate items. -/
inductive ListItem where
  | quoted (q : Quotation)
  | bare (b : BareItem)

namespace ListItem

/-- The item as it is written. -/
def text : ListItem → List Char
  | quoted q => q.text
  | bare b => b.first :: b.more

/-- The string that is meant. -/
def string : ListItem → String
  | quoted q => q.string
  | bare b => String.ofList (b.first :: b.more)

end ListItem

/-- What ends an item comes next, or the text is over. -/
def ItemEnds (cs : List Char) : Prop := ∀ c ∈ cs.head?, Token.endsItem c = true

theorem BareItem.endsItem_eq_false (b : BareItem) {c : Char} (hc : c ∈ b.first :: b.more) :
    Token.endsItem c = false := by
  obtain ⟨hblank, hcomma, hsemi⟩ := b.plain c hc
  simp [Token.endsItem, hblank, hcomma, hsemi]

/-- No item starts with what would end one. -/
theorem ListItem.text_eq_cons (i : ListItem) :
    ∃ c cs, i.text = c :: cs ∧ Token.endsItem c = false := by
  cases i with
  | quoted q => exact ⟨'"', _, rfl, by decide⟩
  | bare b => exact ⟨b.first, b.more, rfl, b.endsItem_eq_false List.mem_cons_self⟩

/-- A bare word ends where an item does. -/
theorem BareItem.takes (b : BareItem) :
    Takes ItemEnds Token.item (b.first :: b.more) (String.ofList (b.first :: b.more)) := by
  intro rest hr
  have hmore : (b.more ++ rest).takeWhile (fun c => !Token.endsItem c) = b.more := by
    refine takeWhile_append_of_head (fun c hc => ?_) fun c hc => ?_
    · rw [b.endsItem_eq_false (List.mem_cons_of_mem _ hc)]
      rfl
    · rw [hr c hc]
      rfl
  have hfirst : Token.endsItem b.first = false := b.endsItem_eq_false List.mem_cons_self
  obtain ⟨htag, hlink, hquote⟩ := b.unsigned
  have hword : Token.bareItem (b.first :: (b.more ++ rest)) = some (b.first :: b.more) := by
    rw [Token.bareItem, Lexeme.headed, if_pos (by simp [hfirst, htag, hlink, hquote]), hmore]
  rw [List.cons_append, Token.item_eq, if_neg (by simpa using hquote), Lexeme.read, hword]
  rfl

theorem ListItem.takes (i : ListItem) : Takes ItemEnds Token.item i.text i.string := by
  cases i with
  | quoted q =>
      intro rest hr
      have hopens : ((quoted q).text ++ rest).head? = some '"' := rfl
      rw [Token.item_eq, if_pos hopens]
      exact q.takes ItemEnds rest hr
  | bare b => exact b.takes

/-! ## Separators -/

/-- What separates two items: a comma with white space around it or none,
or white space alone. -/
inductive Separator where
  | comma (before behind : Gap)
  | blank (gap : Gap) (some : gap.text ≠ [])

namespace Separator

/-- The separator as it is written. -/
def text : Separator → List Char
  | comma before behind => before.text ++ ',' :: behind.text
  | blank gap _ => gap.text

theorem text_ne_nil (s : Separator) : s.text ≠ [] := by
  cases s with
  | comma before behind => simp [text]
  | blank gap some => exact some

theorem endsItem_of_isInlineBlank {c : Char} (h : isInlineBlank c = true) :
    Token.endsItem c = true := by
  have hblank : isBlank c = true := (Bool.and_eq_true_iff.1 h).1
  rw [Token.endsItem, hblank]
  rfl

/-- A separator ends the item before it. -/
theorem itemEnds (s : Separator) (rest : List Char) : ItemEnds (s.text ++ rest) := by
  have hgap : ∀ (g : Gap) {ds : List Char}, ItemEnds ds → ItemEnds (g.text ++ ds) := by
    rintro ⟨_ | ⟨b, bs⟩, hblank⟩ ds hds
    · exact hds
    · intro c hc
      obtain rfl : b = c := by simpa using hc
      exact endsItem_of_isInlineBlank (hblank b List.mem_cons_self)
  cases s with
  | comma before behind =>
      rw [text, List.append_assoc]
      refine hgap before fun c hc => ?_
      obtain rfl : ',' = c := by simpa using hc
      decide
  | blank gap some =>
      obtain ⟨_ | ⟨b, bs⟩, hblank⟩ := gap
      · exact absurd rfl some
      · intro c hc
        obtain rfl : b = c := by simpa [text] using hc
        exact endsItem_of_isInlineBlank (hblank b List.mem_cons_self)

/-- **A separator is passed over whole**, up to the item behind it. -/
theorem separator_text (s : Separator) (i : ListItem) (rest : List Char) :
    Token.separator (s.text ++ (i.text ++ rest)) = s.text.length := by
  obtain ⟨c, cs, htext, hc⟩ := i.text_eq_cons
  rw [htext, List.cons_append]
  have hinline : isInlineBlank c = false := by
    by_contra h
    rw [endsItem_of_isInlineBlank (by simpa using h)] at hc
    cases hc
  cases s with
  | comma before behind =>
      have hcomma : isInlineBlank ',' = false := by decide
      rw [text, List.append_assoc, List.cons_append, Token.separator,
        before.drop_inlineBlanks_append hcomma, before.inlineBlanks_append hcomma]
      simp only
      rw [behind.inlineBlanks_append hinline, List.length_append, List.length_cons]
      omega
  | blank gap some =>
      have hne : c ≠ ',' := by
        rintro rfl
        exact absurd hc (by decide)
      rw [text, Token.separator, gap.drop_inlineBlanks_append hinline,
        gap.inlineBlanks_append hinline]
      simp [hne]

end Separator

/-! ## Lists -/

/-- A list as it is written: an item, and further ones with a separator
before each. -/
def listText (first : ListItem) (more : List (Separator × ListItem)) : List Char :=
  first.text ++ more.flatMap fun p => p.1.text ++ p.2.text

theorem LineStops.itemEnds {rest : List Char} (h : LineStops rest) : ItemEnds rest := by
  intro c hc
  rcases h c hc with rfl | rfl
  · decide
  · decide

/-- There nothing separates. -/
theorem LineStops.separator_eq_zero {rest : List Char} (h : LineStops rest) :
    Token.separator rest = 0 := by
  cases rest with
  | nil => rfl
  | cons c rest =>
      rcases h c rfl with rfl | rfl
      · simp [Token.separator, inlineBlanks]
      · have hsemi : isInlineBlank ';' = false := by decide
        simp [Token.separator, inlineBlanks, hsemi]

/-- Items are read one after another, each with what separates it from the
next. -/
theorem items_listText (first : ListItem) (more : List (Separator × ListItem)) {rest : List Char}
    (hr : LineStops rest) : Token.items (listText first more ++ rest) =
      .found (first.string :: more.map fun p => p.2.string) (listText first more).length := by
  induction more generalizing first with
  | nil =>
      have hitem := first.takes rest hr.itemEnds
      rw [listText, List.flatMap_nil, List.append_nil, Token.items_eq, hitem]
      simp only
      rw [List.drop_left, if_pos hr.separator_eq_zero]
      rfl
  | cons p more ih =>
      obtain ⟨sep, next⟩ := p
      have htext : listText first ((sep, next) :: more) =
          first.text ++ (sep.text ++ listText next more) := by
        simp [listText]
      have hitem := first.takes (sep.text ++ (listText next more ++ rest)) (sep.itemEnds _)
      have hsep : Token.separator (sep.text ++ (listText next more ++ rest)) = sep.text.length := by
        rw [listText, List.append_assoc]
        exact sep.separator_text next _
      have hne : sep.text.length ≠ 0 := fun h => sep.text_ne_nil (List.eq_nil_of_length_eq_zero h)
      rw [htext, List.append_assoc, List.append_assoc, Token.items_eq, hitem]
      simp only
      rw [List.drop_left, hsep, if_neg hne, ← List.drop_drop, List.drop_left, List.drop_left,
        ih next, map_found, shift_found]
      simp [Nat.add_assoc]

/-- **A list is read back.** Its items are any strings, spelled between
quotes in any way, and bare words; between two of them stands a comma, with
white space around it or none, or white space alone. Up to the end of the
line, or to a comment, the list is read as exactly these strings, and
reading goes on there. -/
theorem array_listText (c : Cursor) (first : ListItem) (more : List (Separator × ListItem))
    (rest : List Char) (hrest : LineStops rest) (hc : c.rest = listText first more ++ rest) :
    Token.array c.rest =
        .found (first.string :: more.map fun p => p.2.string) (listText first more).length ∧
      (c.advance (listText first more).length).rest = rest := by
  constructor
  · rw [hc, Token.array_eq, items_listText first more hrest]
  · rw [Cursor.rest_advance, hc, List.drop_left]

/-- A string between quotes with nothing escaped but quotes and
backslashes. -/
def Quotation.encoded (s : String) : Quotation :=
  ⟨Quoted.encode s.toList, s.toList, Quoted.spells_encode s.toList⟩

/-- A bare word with a quote in it. -/
def bareQuote : BareItem where
  first := 'c'
  more := ['"', 'd']
  plain := List.forall_mem_cons.2 ⟨by decide, List.forall_mem_cons.2 ⟨by decide,
    List.forall_mem_singleton.2 (by decide)⟩⟩
  unsigned := by decide

/-- The bare word behind a comma, and an empty string behind a space. -/
def mixed : List (Separator × ListItem) := [
  (.comma .space .tab, .bare bareQuote), (.blank .space (by decide), .quoted (.encoded ""))]

/-- A string with a comma and a quote in it, both of these, and a comment. -/
def mixedList : Cursor := .start "books" "\"a, \\\"\" ,\tc\"d \"\"; e".toList

/-- The comma and the quote of the first string separate and close
nothing, and the comment is left. -/
theorem array_listText_mixed :
    LineStops "; e".toList ∧
      mixedList.rest = listText (.quoted (.encoded "a, \"")) mixed ++ "; e".toList ∧
      Token.array mixedList.rest = .found ["a, \"", "c\"d", ""] 16 ∧
      (mixedList.advance 16).rest = "; e".toList := by
  have hends : LineStops "; e".toList := fun c hc => .inr (Option.some.inj hc).symm
  have hwritten : mixedList.rest =
      listText (.quoted (.encoded "a, \"")) mixed ++ "; e".toList := by decide
  exact ⟨hends, hwritten, array_listText _ _ _ _ hends hwritten⟩

end Written
end Daybook
