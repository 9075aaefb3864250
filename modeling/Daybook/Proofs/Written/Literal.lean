import Daybook.Proofs.Written.Word
import Daybook.Proofs.Token.Amount
import Daybook.Proofs.Token.Literal

/-!
# Written — strings, numbers and marks

Each is read back from what is written for it: a string between quotes
with its quotes, backslashes and newlines escaped, an amount as a numeral
and a code, currency codes with commas between, tags and links with a
space before each.
-/

namespace Daybook

open Daybook.Text

namespace Lexeme

theorem word_append (w rest : List Char) : word w (w ++ rest) = some w := by
  rw [word]
  induction w with
  | nil => rfl
  | cons c cs ih => simp [shape, ih]

theorem word_eq {w cs found : List Char} (h : word w cs = some found) : found = w := by
  rw [word] at h
  induction w generalizing cs found with
  | nil => simpa [shape, eq_comm] using h
  | cons c w ih =>
      cases cs with
      | nil => simp [shape] at h
      | cons d cs =>
          rw [List.map_cons, shape] at h
          split at h
          · next hd =>
            obtain ⟨v, hv, rfl⟩ := Option.map_eq_some_iff.1 h
            rw [ih hv, beq_iff_eq.1 hd]
          · cases h

end Lexeme

namespace Written

/-! ## Strings -/

/-- A string for the inside of quotes: a backslash, a double quote and a
newline are escaped. -/
def escape : List Char → List Char
  | [] => []
  | c :: cs =>
    if c = '\n' then '\\' :: 'n' :: escape cs
    else if c = '\\' ∨ c = '"' then '\\' :: c :: escape cs
    else c :: escape cs

/-- A string between quotes. -/
def quote (s : String) : List Char := '"' :: (escape s.toList ++ ['"'])

/-- **What is escaped is read back**, up to the quote. -/
theorem decode_escape (cs rest : List Char) :
    Quoted.decode (escape cs ++ '"' :: rest) = some (cs, (escape cs).length + 1) := by
  induction cs with
  | nil => simp [escape, Quoted.decode]
  | cons c cs ih =>
      rw [escape]
      split
      · next hn =>
        subst hn
        simp [Quoted.decode, ih, Quoted.unescape]
      · split
        · next hn hq =>
          have hsame : Quoted.unescape c = c := by
            rcases hq with rfl | rfl <;> rfl
          simp [Quoted.decode, ih, hsame]
        · next hn hq =>
          have hb : c ≠ '\\' := fun h => hq (.inl h)
          have hd : c ≠ '"' := fun h => hq (.inr h)
          simp [Quoted.decode, ih, hb, hd]

theorem takes_quoted (p : List Char → Prop) (s : String) : Takes p Token.quoted (quote s) s := by
  intro rest _
  have hdecode := decode_escape s.toList rest
  simp [quote, Token.quoted, hdecode]

theorem solid_quote (s : String) : Solid (quote s) := ⟨'"', _, rfl, by decide⟩

theorem takes_string (p : List Char → Prop) (s : String) : Takes p Token.string (quote s) s := by
  intro rest hr
  have hquoted := takes_quoted p s rest hr
  rw [Token.string, hquoted]

/-! ## Keywords -/

/-- At the front of another word, with white space behind, no keyword
stands. -/
theorem keyword_other {word : String} (hword : ∀ c ∈ word.toList, isBlank c = false)
    {w rest : List Char} (hw : ∀ c ∈ w, isBlank c = false) (hne : w ≠ word.toList)
    (hr : Apart rest) : Token.keyword word (w ++ rest) = none := by
  rw [Token.keyword, Option.filter_eq_none_iff]
  intro found hfound
  have hlit := hfound
  rw [Token.literal] at hlit
  split at hlit
  · cases hlit
  · have hself : found = word.toList := Lexeme.word_eq hlit
    have hbegins : found <+: w ++ rest := Token.begins_literal word _ _ hfound
    subst hself
    obtain ⟨b, rest, rfl, hb⟩ := hr
    -- what ends first, the keyword or the word, has white space behind
    rcases List.prefix_or_prefix_of_prefix hbegins (List.prefix_append w _) with ⟨t, ht⟩ | ⟨t, ht⟩
    · cases t with
      | nil => exact absurd (by simpa using ht.symm) hne
      | cons c t =>
          have hc : isBlank c = false := hw c (by simp [← ht])
          rw [← ht, List.append_assoc, List.drop_left]
          simp [hc]
    · cases t with
      | nil => exact absurd (by simpa using ht) hne
      | cons c t =>
          have hc : isBlank c = false := hword c (by simp [← ht])
          rw [← ht, List.prefix_append_right_inj, List.cons_prefix_cons] at hbegins
          rw [hbegins.1, hb] at hc
          cases hc

theorem takes_keyword {word : String} (hne : word ≠ "") :
    Takes Apart (Token.keyword word).read word.toList word := by
  intro rest hr
  obtain ⟨b, rest, rfl, hb⟩ := hr
  have hlit : Token.literal word (word.toList ++ b :: rest) = some word.toList := by
    rw [Token.literal, if_neg (by simpa using hne), Lexeme.word_append]
  have hkey : Token.keyword word (word.toList ++ b :: rest) = some word.toList := by
    rw [Token.keyword, hlit, Option.filter_some, if_pos]
    simp [hb]
  rw [Lexeme.read, hkey]
  simp [Reading.ofOption]

/-! ## Amounts -/

/-- A row of decimal digits. -/
def Digits (cs : List Char) : Prop := ∀ c ∈ cs, isDecimalDigit c = true

/-- The numeral has digits before the point, and behind it if there is
one. -/
structure IsNumeral (n : Numeral) : Prop where
  whole : n.whole ≠ [] ∧ Digits n.whole
  fraction : ∀ ds ∈ n.fraction, ds ≠ [] ∧ Digits ds

/-- The fraction of a numeral with its point. -/
def fractionText : Option (List Char) → List Char
  | none => []
  | some ds => '.' :: ds

theorem text_eq (n : Numeral) :
    n.text = (if n.negative then ['-'] else []) ++ (n.whole ++ fractionText n.fraction) := by
  rw [Numeral.text, List.append_assoc]
  cases n.fraction <;> rfl

/-- The sign is told from digits and points. -/
theorem splitSign_text (n : Numeral) (rest : List Char) (hd : Digits n.whole)
    (h : n.whole ≠ [] ∨ n.fraction ≠ none) :
    Numeral.splitSign (n.text ++ rest) =
      (n.negative, n.whole ++ (fractionText n.fraction ++ rest)) := by
  have hplain : ∀ cs : List Char, cs.head? ≠ some '-' →
      Numeral.splitSign cs = (false, cs) := by
    intro cs hcs
    cases cs with
    | nil => rfl
    | cons c cs =>
        have hc : c ≠ '-' := fun he => hcs (by rw [he]; rfl)
        simp [Numeral.splitSign, hc]
  rw [text_eq]
  cases n.negative with
  | true => simp [Numeral.splitSign]
  | false =>
      rw [if_neg (by decide), List.nil_append, List.append_assoc]
      refine hplain _ ?_
      cases hw : n.whole with
      | nil =>
          cases hf : n.fraction with
          | none => simp [hw, hf] at h
          | some ds => simp [fractionText]
      | cons c cs =>
          have hc := hd c (by simp [hw])
          rw [List.cons_append, List.head?_cons]
          rintro ⟨⟩
          exact absurd hc (by decide)

theorem visible_isDecimalDigit : Visible isDecimalDigit := fun _ h => isBlank_of_isDecimalDigit h

theorem fractionAhead_text {fraction : Option (List Char)} {rest : List Char}
    (hf : ∀ ds ∈ fraction, ds ≠ [] ∧ Digits ds) (hr : Apart rest) :
    Numeral.fractionAhead (fractionText fraction ++ rest) = fraction := by
  cases fraction with
  | none =>
      obtain ⟨b, rest, rfl, hb⟩ := hr
      have hpoint : b ≠ '.' := by
        rintro rfl
        exact absurd hb (by decide)
      simp [fractionText, Numeral.fractionAhead, hpoint]
  | some ds =>
      obtain ⟨hne, hds⟩ := hf ds rfl
      have htake : (ds ++ rest).takeWhile isDecimalDigit = ds :=
        takeWhile_append_of_head hds (hr.head?_eq_false visible_isDecimalDigit)
      simp [fractionText, Numeral.fractionAhead, htake, hne]

/-- No digit comes first in a fraction. -/
theorem head?_fractionText {fraction : Option (List Char)} {rest : List Char} (hr : Apart rest) :
    ∀ c ∈ (fractionText fraction ++ rest).head?, isDecimalDigit c = false := by
  cases fraction with
  | none => exact hr.head?_eq_false visible_isDecimalDigit
  | some ds =>
      intro c hc
      obtain rfl : '.' = c := by simpa [fractionText] using hc
      decide

theorem ahead?_text {n : Numeral} (hn : IsNumeral n) {rest : List Char} (hr : Apart rest) :
    Numeral.ahead? (n.text ++ rest) = some n := by
  obtain ⟨hne, hdigits⟩ := hn.whole
  have htake : (n.whole ++ (fractionText n.fraction ++ rest)).takeWhile isDecimalDigit = n.whole :=
    takeWhile_append_of_head hdigits (head?_fractionText hr)
  rw [Numeral.ahead?, splitSign_text n rest hdigits (.inl hne)]
  simp only [htake]
  rw [if_neg (by simpa using hne), List.drop_left, fractionAhead_text hn.fraction hr]

/-- An amount: a numeral, and a currency code behind a space. -/
structure Quantity where
  numeral : Numeral
  isNumeral : IsNumeral numeral
  code : Word Token.amountCurrency

namespace Quantity

/-- The amount as it is written. -/
def text (q : Quantity) : List Char := q.numeral.text ++ ' ' :: q.code.text

/-- The amount. -/
def amount (q : Quantity) : Amount := ⟨q.numeral.toFloat, q.code.string⟩

/-- An amount starts with a minus or a digit. -/
theorem head_text (q : Quantity) :
    ∃ c cs, q.text = c :: cs ∧ (c = '-' ∨ isDecimalDigit c = true) := by
  obtain ⟨hne, hdigits⟩ := q.isNumeral.whole
  rw [text, text_eq, List.append_assoc]
  cases q.numeral.negative with
  | true => exact ⟨'-', _, rfl, .inl rfl⟩
  | false =>
      cases hw : q.numeral.whole with
      | nil => exact absurd hw hne
      | cons c cs => exact ⟨c, _, rfl, .inr (hdigits c (by simp [hw]))⟩

theorem solid (q : Quantity) : Solid q.text := by
  obtain ⟨c, cs, htext, hc⟩ := q.head_text
  refine ⟨c, cs, htext, ?_⟩
  rcases hc with rfl | hc
  · decide
  · exact isBlank_of_isDecimalDigit hc

theorem amount?_text (q : Quantity) {rest : List Char} (hr : Apart rest) :
    Token.amount? (q.text ++ rest) = some (q.amount, q.text.length) := by
  have hspace : Apart (' ' :: (q.code.text ++ rest)) := apart_space _
  have hsolid := (q.code.solid Token.separate_amountCurrency).append rest
  have hcode : Token.amountCode (' ' :: (q.code.text ++ rest)) =
      some (q.code.text, 1 + q.code.text.length) := by
    rw [Token.amountCode, inlineBlanks_space hsolid, List.drop_succ_cons, List.drop_zero,
      Token.separate_amountCurrency.ends _ q.code.whole rest hr]
    rfl
  rw [text, List.append_assoc, List.cons_append, Token.amount?_eq,
    ahead?_text q.isNumeral hspace, Option.bind_some, List.drop_left, hcode]
  simp [amount, Word.string]
  omega

/-- **An amount is read back.** -/
theorem takes (q : Quantity) :
    Takes Apart (fun cs => Reading.ofOption (Token.amount? cs)) q.text q.amount := by
  intro rest hr
  show Reading.ofOption (Token.amount? (q.text ++ rest)) = _
  rw [q.amount?_text hr]
  rfl

end Quantity

/-! ## Currency codes -/

theorem separate_currency : Lexeme.Separate Token.currency :=
  Lexeme.separate_headed (fun _ h => isBlank_of_isUpper h) Token.visible_isCurrencyChar

/-- Currency codes, each behind a comma. -/
def codesText (codes : List (Word Token.currency)) : List Char :=
  codes.flatMap fun code => ',' :: code.text

theorem head?_codesText (codes : List (Word Token.currency)) {rest : List Char}
    (hr : Apart rest) :
    ∀ c ∈ (codesText codes ++ rest).head?, Token.isCurrencyChar c = false := by
  cases codes with
  | nil => exact hr.head?_eq_false Token.visible_isCurrencyChar
  | cons code codes =>
      intro c hc
      obtain rfl : ',' = c := by simpa [codesText] using hc
      decide

/-- A code is read up to what comes behind it. -/
theorem currency_codesText (code : Word Token.currency) (codes : List (Word Token.currency))
    {rest : List Char} (hr : Apart rest) :
    Token.currency (code.text ++ (codesText codes ++ rest)) = some code.text :=
  Lexeme.headed_append code.whole (head?_codesText codes hr)

theorem moreCurrencies_codesText (codes : List (Word Token.currency)) {rest : List Char}
    (hr : Apart rest) : Token.moreCurrencies (codesText codes ++ rest) =
      (codes.map Word.string, (codesText codes).length) := by
  induction codes with
  | nil =>
      obtain ⟨b, rest, rfl, hb⟩ := hr
      have hcomma : b ≠ ',' := by
        rintro rfl
        exact absurd hb (by decide)
      simp [codesText, Token.moreCurrencies, hcomma]
  | cons code codes ih =>
      have hsolid := (code.solid separate_currency).append (codesText codes ++ rest)
      have htext : codesText (code :: codes) ++ rest =
          ',' :: (code.text ++ (codesText codes ++ rest)) := by simp [codesText]
      rw [htext, Token.moreCurrencies, inlineBlanks_solid hsolid, List.drop_zero,
        currency_codesText code codes hr]
      simp only [Nat.zero_add, List.drop_left, ih, List.map_cons]
      refine Prod.ext rfl ?_
      simp [codesText]
      omega

theorem takes_currencies (first : Word Token.currency) (more : List (Word Token.currency)) :
    Takes Apart (fun cs => Reading.ofOption (Token.currencies? cs)) (first.text ++ codesText more)
      ((first :: more).map Word.string) := by
  intro rest hr
  have hmore := moreCurrencies_codesText more hr
  have hcodes : Token.currencies? (first.text ++ codesText more ++ rest) =
      some ((first :: more).map Word.string, (first.text ++ codesText more).length) := by
    rw [List.append_assoc, Token.currencies?, currency_codesText first more hr]
    simp [hmore, Word.string]
  show Reading.ofOption (Token.currencies? _) = _
  rw [hcodes]
  rfl

/-! ## Tags and links -/

/-- A name of a tag or link. -/
abbrev MarkName : Type := Word (.run Token.isMarkChar)

/-- Tags and links of an entry. -/
structure Labels where
  tags : List MarkName
  links : List MarkName

/-- Names, each behind a space and the sign. -/
def signed (sign : Char) (names : List MarkName) : List Char :=
  names.flatMap fun name => ' ' :: sign :: name.text

namespace Labels

/-- The tags and the links behind them, as they are written. -/
def text (l : Labels) : List Char := signed '#' l.tags ++ signed '^' l.links

/-- The marks that are read. -/
def marks (l : Labels) : List Mark :=
  l.tags.map (fun name => .tag name.string) ++ l.links.map fun name => .link name.string

theorem tags_marks (l : Labels) : Mark.tags l.marks = l.tags.map Word.string := by
  rw [marks, Mark.tags, List.filterMap_append, List.filterMap_map, List.filterMap_map]
  show (l.tags.filterMap fun name => some name.string) ++ l.links.filterMap (fun _ => none) = _
  simp

theorem links_marks (l : Labels) : Mark.links l.marks = l.links.map Word.string := by
  rw [marks, Mark.links, List.filterMap_append, List.filterMap_map, List.filterMap_map]
  show (l.tags.filterMap fun _ => none) ++ l.links.filterMap (fun name => some name.string) = _
  simp

end Labels

theorem mark?_signed {sign : Char} {mark : String → Mark}
    (hsign : sign = '#' ∧ mark = .tag ∨ sign = '^' ∧ mark = .link) (name : MarkName)
    {rest : List Char} (hr : ∀ c ∈ rest.head?, Token.isMarkChar c = false) :
    Token.mark? (sign :: (name.text ++ rest)) =
      some (mark name.string, name.text.length + 1) := by
  obtain ⟨hne, hall⟩ := Lexeme.run_whole name.whole
  have htake : (name.text ++ rest).takeWhile Token.isMarkChar = name.text :=
    takeWhile_append_of_head hall hr
  rcases hsign with ⟨rfl, rfl⟩ | ⟨rfl, rfl⟩
  · simp [Token.mark?, htake, hne, Word.string]
  · simp [Token.mark?, htake, hne, Word.string]

theorem apart_signed (sign : Char) (names : List MarkName) {rest : List Char} (hr : Apart rest) :
    Apart (signed sign names ++ rest) := by
  cases names with
  | nil => exact hr
  | cons name names => exact apart_space _

/-- Signed names are read one by one. -/
theorem marks_signed {sign : Char} {mark : String → Mark}
    (hsign : sign = '#' ∧ mark = .tag ∨ sign = '^' ∧ mark = .link) (names : List MarkName)
    {rest : List Char} (hr : Apart rest) : Token.marks (signed sign names ++ rest) =
      (names.map (fun name => mark name.string) ++ (Token.marks rest).1,
        (signed sign names).length + (Token.marks rest).2) := by
  induction names with
  | nil => simp [signed]
  | cons name names ih =>
      have htext : signed sign (name :: names) ++ rest =
          ' ' :: sign :: (name.text ++ (signed sign names ++ rest)) := by simp [signed]
      have hsolid : Solid (sign :: (name.text ++ (signed sign names ++ rest))) := by
        refine ⟨sign, _, rfl, ?_⟩
        rcases hsign with ⟨rfl, -⟩ | ⟨rfl, -⟩ <;> decide
      have hdrop : (' ' :: sign :: (name.text ++ (signed sign names ++ rest))).drop
          (1 + (name.text.length + 1)) = signed sign names ++ rest := by
        rw [Nat.add_comm, List.drop_succ_cons, List.drop_succ_cons, List.drop_left]
      rw [htext, Token.marks_eq, inlineBlanks_space hsolid, List.drop_succ_cons, List.drop_zero,
        mark?_signed hsign name
          ((apart_signed sign names hr).head?_eq_false Token.visible_isMarkChar)]
      simp only [hdrop, ih]
      refine Prod.ext (by simp) ?_
      simp [signed]
      omega

theorem marks_lineEnd {rest : List Char} (hr : LineEnd rest) : Token.marks rest = ([], 0) := by
  obtain ⟨below, rfl⟩ := hr
  have hblank := inlineBlanks_newline below
  rw [Token.marks_eq, hblank]
  simp [Token.mark?]

namespace Labels

theorem apart (l : Labels) {rest : List Char} (hr : Apart rest) : Apart (l.text ++ rest) := by
  rw [text, List.append_assoc]
  exact apart_signed '#' l.tags (apart_signed '^' l.links hr)

/-- **Tags and links are read back** at the end of a line. -/
theorem marks_text (l : Labels) {rest : List Char} (hr : LineEnd rest) :
    Token.marks (l.text ++ rest) = (l.marks, l.text.length) := by
  rw [text, List.append_assoc, marks_signed (.inl ⟨rfl, rfl⟩) l.tags (apart_signed _ _ hr.apart),
    marks_signed (.inr ⟨rfl, rfl⟩) l.links hr.apart, marks_lineEnd hr]
  simp [marks]

theorem mem_text (l : Labels) {c : Char} (h : c ∈ l.text) :
    c = ' ' ∨ c = '#' ∨ c = '^' ∨ Token.isMarkChar c = true := by
  have hsigned : ∀ (sign : Char) (names : List MarkName), c ∈ signed sign names →
      c = ' ' ∨ c = sign ∨ Token.isMarkChar c = true := by
    intro sign names hc
    obtain ⟨name, -, hname⟩ := List.mem_flatMap.1 hc
    rcases List.mem_cons.1 hname with rfl | hname
    · exact .inl rfl
    · rcases List.mem_cons.1 hname with rfl | hname
      · exact .inr (.inl rfl)
      · exact .inr (.inr ((Lexeme.run_whole name.whole).2 c hname))
  rcases List.mem_append.1 h with h | h
  · rcases hsigned '#' l.tags h with h | h | h
    · exact .inl h
    · exact .inr (.inl h)
    · exact .inr (.inr (.inr h))
  · rcases hsigned '^' l.links h with h | h | h
    · exact .inl h
    · exact .inr (.inr (.inl h))
    · exact .inr (.inr (.inr h))

/-- No label holds what would end its line, or be a comment there. -/
theorem notMem_text (l : Labels) {c : Char} (hc : c = '\n' ∨ c = ';') : c ∉ l.text := by
  intro h
  rcases l.mem_text h with h | h | h | h
  · rcases hc with rfl | rfl <;> cases h
  · rcases hc with rfl | rfl <;> cases h
  · rcases hc with rfl | rfl <;> cases h
  · rcases hc with rfl | rfl
    · exact absurd h (by decide)
    · exact absurd h (by decide)

end Labels

/-- A line without a semicolon holds no comment. -/
theorem commentStart_eq_none {l : List Char} (hn : '\n' ∉ l) (hs : ';' ∉ l) (below : List Char) :
    Token.commentStart (l ++ '\n' :: below) = none := by
  have hfrom : ∀ inside, Token.commentFrom inside (l ++ '\n' :: below) = none := by
    induction l with
    | nil =>
        intro inside
        simp [Token.commentFrom]
    | cons c l ih =>
        intro inside
        have hc : c ≠ '\n' := fun h => hn (by simp [h])
        have hsemi : c ≠ ';' := fun h => hs (by simp [h])
        have hrest := ih (fun h => hn (by simp [h])) (fun h => hs (by simp [h]))
        simp [Token.commentFrom, hc, hsemi, hrest]
  exact hfrom false

end Written
end Daybook
