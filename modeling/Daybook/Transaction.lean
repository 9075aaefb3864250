import Daybook.Entry
import Daybook.Metadata
import Daybook.Token.Mark
import Daybook.Token.Amount

/-!
The transaction directive. A header line holds date, flag, payee, narration, tags and links; below
it, indented lines hold metadata, comments and postings, each posting with metadata of its own that
is indented further. Once the narration is read the line is a transaction: a line that fits nowhere
ends the body and no more.
-/
namespace Daybook.Transaction
open Daybook.Text

/-- The least indent of a line of the body. -/
def bodyIndent : Nat := 2

/-- The least indent of a posting's metadata. -/
def postingIndent : Nat := 4

/-- The header line. -/
structure Header where
  date : String
  flag : String
  payee : Option String
  narration : String
  marks : List Mark

/-- Reads on behind white space. -/
def behindBlanks {α : Type} (r : Reader α) : Reader α := fun cs =>
  (r (cs.drop (inlineBlanks cs))).shift (inlineBlanks cs)

/-- Payee and narration: one quoted string is the narration, of two the first is the payee. -/
def titles : Reader (Option String × String) := fun cs =>
  (Token.quoted cs).andThen cs fun first rest =>
    match behindBlanks Token.quoted rest with
    | .absent => .found (none, first) 0
    | r => r.map fun second => (some first, second)

/-- The tags and links at the front, if any, behind white space. -/
def trailingMarks : Reader (List Mark) := fun cs =>
  let (ms, n) := Token.marks cs
  .found ms n

/-- Date, flag, titles, tags and links; white space may stand between them. -/
def header : Reader Header := fun cs =>
  (Token.date.read cs).andThen cs fun date rest =>
    (behindBlanks Token.flag.read rest).andThen rest fun flag rest =>
      (behindBlanks titles rest).andThen rest fun (payee, narration) rest =>
        (trailingMarks rest).map fun marks => ⟨date, flag, payee, narration, marks⟩

/-- Does the header end in a comment with no body below? Such a comment is empty or starts with
another semicolon, and holds no tag or link; the next line is not indented. The text is what comes
behind the header. -/
def endsWithComment (cs : List Char) : Bool :=
  match Token.commentStart cs with
  | none => false
  | some n =>
    let comment := trim ((lineAhead cs).drop (n + 1))
    comment.head?.all (· == ';') && !Token.holdsMark comment &&
      (nextIndent cs).all fun width => decide (width < bodyIndent)

/-- What the lines below a header hold. -/
structure Body where
  postings : List Posting
  metadata : List (String × Scalar)

/-- The posting at the front: an account and perhaps an amount, the rest of the line, and metadata
below. -/
def posting : Reader Posting := fun cs =>
  match Token.account cs with
  | none => .absent
  | some account =>
    let behind := account.length + inlineBlanks (cs.drop account.length)
    let amount := Token.amount? (cs.drop behind)
    let reach := behind + (amount.map (·.2)).getD 0
    let line := reach + lineLength (cs.drop reach)
    ((Metadata.blockOrEmpty postingIndent (cs.drop line)).map fun metadata =>
      ⟨String.ofList account, amount.map (·.1), metadata⟩).shift line

/-- A line of the body. -/
inductive BodyLine where
  | comment
  | pair (p : String × Scalar)
  | posting (p : Posting)

/-- The line of a body at the front, behind its indent, with what belongs to it. -/
def bodyLine : Reader BodyLine := fun cs =>
  if cs.head? = some ';' then .found .comment (lineLength cs)
  else
    match Metadata.pair cs with
    | .found p n => .found (.pair p) (n + Metadata.newline (cs.drop n))
    | .broken f => .broken f
    | .absent => (posting cs).map .posting

theorem posting_pos {cs : List Char} {p : Posting} {n : Nat} (h : posting cs = .found p n) :
    0 < n ∧ 0 < cs.length := by
  simp only [posting] at h
  split at h
  · simp at h
  · next account ha =>
    simp only [Token.account, Option.filter_eq_some_iff, decide_eq_true_eq] at ha
    have hp := (Lexeme.headed_isPrefix ha.1).length_le
    revert h
    cases Metadata.blockOrEmpty postingIndent _ <;> simp [Reading.shift]
    omega

theorem bodyLine_pos {cs : List Char} {l : BodyLine} {n : Nat} (h : bodyLine cs = .found l n) :
    0 < n ∧ 0 < cs.length := by
  simp only [bodyLine] at h
  split at h
  · next hc =>
    have hne : cs ≠ [] := by rintro rfl; simp at hc
    have := lineLength_pos hne
    simp only [Reading.found.injEq] at h
    exact ⟨by omega, List.length_pos_iff.2 hne⟩
  · split at h
    · next p k hp =>
      have := Metadata.pair_pos hp
      simp only [Reading.found.injEq] at h
      omega
    · simp at h
    · cases hp : posting cs with
      | found p k =>
        have := posting_pos hp
        simp only [hp, Reading.map_found, Reading.found.injEq] at h
        omega
      | absent => simp [hp] at h
      | broken f => simp [hp] at h

/-- Puts a line in front of a body. -/
def Body.add (b : Body) : BodyLine → Body
  | .comment => b
  | .pair p => { b with metadata := p :: b.metadata }
  | .posting p => { b with postings := p :: b.postings }

/-- The lines of a body. Blank lines between them are passed over; the first line that is not
indented or holds nothing of a body ends it, with the blank lines before. -/
def body (cs : List Char) : Reading Body :=
  let front := blankLines cs + indentWidth (cs.drop (blankLines cs))
  if indentWidth (cs.drop (blankLines cs)) < bodyIndent then .found ⟨[], []⟩ 0
  else
    match _h : bodyLine (cs.drop front) with
    | .absent => .found ⟨[], []⟩ 0
    | .broken f => .broken (f.shift front)
    | .found l n => ((body (cs.drop (front + n))).map fun b => b.add l).shift (front + n)
termination_by cs.length
decreasing_by
  have := bodyLine_pos _h
  simp only [List.length_drop] at this ⊢
  omega

/-- How far the blank and comment lines at the front reach. -/
def idleLines (cs : List Char) : Nat :=
  match _h : cs.drop (indentWidth cs) with
  | [] => 0
  | c :: _ =>
    if c = '\n' ∨ c = ';' then lineLength cs + idleLines (cs.drop (lineLength cs)) else 0
termination_by cs.length
decreasing_by
  have hne : cs ≠ [] := by rintro rfl; simp at _h
  have := lineLength_pos hne
  have := List.length_pos_iff.2 hne
  simp only [List.length_drop]
  omega

/-- The entry of a header and what stands below it. -/
def Header.entry (h : Header) (b : Body) : Entry :=
  ⟨h.date, Pairs.collect b.metadata,
    .transaction ⟨h.flag, h.payee, h.narration, b.postings, Mark.tags h.marks, Mark.links h.marks⟩⟩

/-- A transaction, up to the next line that may start an entry. -/
def read : Reader Entry := fun cs =>
  (header cs).andThen cs fun h rest =>
    if endsWithComment rest then .found (h.entry ⟨[], []⟩) (lineLength rest)
    else
      ((body (rest.drop (lineLength rest))).andThen (rest.drop (lineLength rest)) fun b rest =>
        .found (h.entry b) (idleLines rest)).shift (lineLength rest)

/-- Does a transaction stand at the front whose header's comment leaves it without a body? -/
def closedByComment (cs : List Char) : Bool :=
  match header cs with
  | .found _ n => endsWithComment (cs.drop n)
  | _ => false

end Daybook.Transaction
