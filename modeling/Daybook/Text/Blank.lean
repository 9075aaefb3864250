/-!
White space. Every place that skips, trims or splits uses the one set of this module: the
ASCII controls that separate, the space, and the spaces and line separators of Unicode.
-/
namespace Daybook.Text

/-- White space: 25 characters of Unicode's class and the four ASCII information separators. -/
def isBlank (c : Char) : Bool :=
  let n := c.toNat
  (0x09 ≤ n && n ≤ 0x0D) || (0x1C ≤ n && n ≤ 0x20) || n == 0x85 || n == 0xA0 || n == 0x1680 ||
    (0x2000 ≤ n && n ≤ 0x200A) || n == 0x2028 || n == 0x2029 || n == 0x202F || n == 0x205F ||
    n == 0x3000

/-- White space that stays on its line. A carriage return is such a character. -/
def isInlineBlank (c : Char) : Bool := isBlank c && c != '\n'

/-- The characters that indent a line. -/
def isIndent (c : Char) : Bool := c == ' ' || c == '\t'

/-- How many characters of inline white space come first. -/
def inlineBlanks (cs : List Char) : Nat := (cs.takeWhile isInlineBlank).length

/-- Drops what `p` accepts at the end. -/
def dropTrailing (p : Char → Bool) (cs : List Char) : List Char :=
  (cs.reverse.dropWhile p).reverse

/-- Drops white space on both sides. -/
def trim (cs : List Char) : List Char := dropTrailing isBlank (cs.dropWhile isBlank)

/-- The words that white space separates: `word` is the one being gathered, last letter first. -/
def wordsFrom (word : List Char) : List Char → List (List Char)
  | [] => if word.isEmpty then [] else [word.reverse]
  | c :: cs =>
    if isBlank c then
      if word.isEmpty then wordsFrom [] cs else word.reverse :: wordsFrom [] cs
    else wordsFrom (c :: word) cs

/-- The maximal runs of characters other than white space. -/
def words (cs : List Char) : List (List Char) := wordsFrom [] cs

@[simp] theorem isBlank_newline : isBlank '\n' = true := by decide

@[simp] theorem isInlineBlank_newline : isInlineBlank '\n' = false := by decide

theorem isBlank_of_isIndent {c : Char} (h : isIndent c = true) : isBlank c = true := by
  simp only [isIndent, Bool.or_eq_true, beq_iff_eq] at h
  rcases h with rfl | rfl <;> decide

theorem isInlineBlank_of_isIndent {c : Char} (h : isIndent c = true) :
    isInlineBlank c = true := by
  simp only [isIndent, Bool.or_eq_true, beq_iff_eq] at h
  rcases h with rfl | rfl <;> decide

end Daybook.Text
