/-!
Quoted text. A string stands between double quotes; a backslash makes the next character literal,
but for `n` and `t`, which stand for a newline and a tab. The closing quote is the first that no
backslash escapes, so a string may reach over line ends.
-/
namespace Daybook.Text.Quoted

/-- The character that a backslash and `c` stand for. -/
def unescape (c : Char) : Char :=
  if c = 'n' then '\n' else if c = 't' then '\t' else c

/-- Reads on behind an opening quote: the string and how many characters it takes, the closing
quote counted. There is no answer when the closing quote is missing. -/
def decode : List Char → Option (List Char × Nat)
  | [] => none
  | ['\\'] => none
  | '\\' :: c :: rest => (decode rest).map fun (s, n) => (unescape c :: s, n + 2)
  | c :: rest =>
    if c = '"' then some ([], 1)
    else (decode rest).map fun (s, n) => (c :: s, n + 1)

/-- Writes a string for `decode`, without the quotes around it: a backslash and a double quote are
escaped, all else stands for itself. -/
def encode : List Char → List Char
  | [] => []
  | c :: rest => if c = '\\' ∨ c = '"' then '\\' :: c :: encode rest else c :: encode rest

end Daybook.Text.Quoted
