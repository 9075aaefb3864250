import Daybook.Cursor
import Daybook.Entry
import Daybook.Token.Name

/-!
Recovery: a line that no directive accepts becomes an entry that keeps its text, with the indented
lines below it, so that nothing of a ledger is lost.
-/
namespace Daybook.Recovery
open Daybook.Text

/-- The least indent of a line that continues the one above. -/
def continuationIndent : Nat := 2

/-- Does the line at the front continue the one above? -/
def continues (cs : List Char) : Bool :=
  continuationIndent ≤ indentWidth cs &&
    (cs.drop (indentWidth cs)).head?.any (· != '\n')

/-- How far the line at the front and those that continue it reach, the last newline left out. -/
def extent (cs : List Char) : Nat :=
  match _h : cs.dropWhile (· != '\n') with
  | [] => (lineAhead cs).length
  | _ :: rest => (lineAhead cs).length + if continues rest then 1 + extent rest else 0
termination_by cs.length
decreasing_by
  have h1 := congrArg List.length _h
  have := length_dropWhile_le (· != '\n') cs
  simp only [List.length_cons] at h1
  omega

/-- The text of the lines, each without its indent. -/
def bodyOf (covered : List Char) : List Char :=
  trim (unlines ((lines covered).map fun l => l.dropWhile isIndent))

/-- The texts between quotes, without regard to escapes. -/
def quotedTexts (cs : List Char) : List (List Char) :=
  match _h : cs.dropWhile (· != '"') with
  | [] => []
  | _ :: opened =>
    match _h2 : opened.dropWhile (· != '"') with
    | [] => []
    | _ :: rest => opened.takeWhile (· != '"') :: quotedTexts rest
termination_by cs.length
decreasing_by
  have h1 := congrArg List.length _h
  have h2 := congrArg List.length _h2
  have := length_dropWhile_le (· != '"') cs
  have := length_dropWhile_le (· != '"') opened
  simp only [List.length_cons] at h1 h2
  omega

/-- The date that the first word is, if it is one, and the word that seems to name the kind. -/
def headOf (body : List Char) : List Char × List Char :=
  match words body with
  | [] => ([], [])
  | w :: ws => if Token.date w = some w then (w, ws.headD []) else ([], w)

/-- The warning of a line that no directive accepts. -/
def warningAt (c : Cursor) : String :=
  "Unknown directive at line " ++ toString c.line ++ ", column " ++ toString c.column

/-- The entry of the line at the cursor. -/
def entryAt (c : Cursor) : Entry :=
  let body := bodyOf (c.rest.take (extent c.rest))
  let (date, type) := headOf body
  { date := String.ofList date
    metadata := [("warning", .text (warningAt c)), ("location", .text c.location),
      ("type", .text (String.ofList type)), ("body", .text (String.ofList body))]
    detail := .unrecognised
      { type := String.ofList type
        value := (quotedTexts body)[1]?.map String.ofList
        body := String.ofList body } }

/-- How far the entry reaches: its lines and the newline behind them. -/
def length (cs : List Char) : Nat :=
  extent cs + if cs.drop (extent cs) = [] then 0 else 1

end Daybook.Recovery
