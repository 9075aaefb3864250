import Daybook.Builtin
import Daybook.Recovery

/-!
Grammars: a configuration made ready to read ledgers. The document is walked line by line: blank
lines and comments are passed over, the first directive that matches gives the entry, and a line
that none matches is kept as it is. Only a flaw ends the walk early.
-/
namespace Daybook

/-- What a grammar is made of. Readers and checks go over the builtin ones of the same name. -/
structure Configuration where
  modules : List Module
  readers : Pairs FieldReader := []
  checks : Pairs Check := []

/-- Directives in the order in which they are tried, with the readers and checks that their fields
name, and the name of the source. -/
structure Grammar where
  source : String
  directives : List Directive
  registry : Registry

/-- An entry with the place where it starts and the one behind it. -/
structure Item where
  start : Cursor
  entry : Entry
  stop : Cursor

namespace Grammar

/-- Assembles a grammar, if every dependency of a module is met. -/
def assemble (config : Configuration) (source : String) : Except Fault Grammar :=
  match Module.missing config.modules with
  | [] => .ok
    { source
      directives := Module.allDirectives config.modules
      registry := ⟨FieldReader.builtin.overlay config.readers, Pairs.collect config.checks⟩ }
  | missing => .error (.missingDependencies missing)

/-- The kinds of the directives, in the order in which they are tried. -/
def kinds (g : Grammar) : List String := g.directives.map (·.kind)

/-- Tries directives in turn; the first that does not answer with absence decides. -/
def firstOf (r : Registry) (c : Cursor) : List Directive → Reading Entry
  | [] => .absent
  | d :: ds =>
    match d.read r c with
    | .absent => firstOf r c ds
    | answer => answer

/-- The entry at the cursor and how far it reaches. -/
def entryAt (g : Grammar) (c : Cursor) : Except Fault (Entry × Nat) :=
  match firstOf g.registry c g.directives with
  | .found e n => .ok (e, n)
  | .broken f => .error (.ofFlaw c f)
  | .absent => .ok (Recovery.entryAt c, Recovery.length c.rest)

/-- Does a comment or a section rule stand at the front? -/
def startsComment (cs : List Char) : Bool := cs.head? == some ';' || "****".toList.isPrefixOf cs

/-- The length of what is passed over between entries when `cs` lies ahead: white space of a line, a
newline, or a comment. Zero means that an entry or the end of the text comes next. -/
def gap (cs : List Char) : Nat :=
  if 0 < Text.inlineBlanks cs then Text.inlineBlanks cs
  else if cs.head? = some '\n' then 1
  else if startsComment cs then (Text.lineAhead cs).length
  else 0

theorem gap_le (cs : List Char) : gap cs ≤ cs.length := by
  simp only [gap]
  split
  · exact (List.takeWhile_prefix _).length_le
  · split
    · cases cs <;> simp_all
    · split
      · exact (List.takeWhile_prefix _).length_le
      · omega

/-- The entries from the cursor on, in order, and the fault that ended the walk, if one did. -/
def items (g : Grammar) (c : Cursor) : List Item × Option Fault :=
  if _hg : 0 < gap c.rest then items g (c.advance (gap c.rest))
  else if _hr : c.rest = [] then ([], none)
  else
    match g.entryAt c with
    | .error f => ([], some f)
    | .ok (e, n) =>
      if _hn : 0 < n then
        let (rest, fault) := items g (c.advance n)
        (⟨c, e, c.advance n⟩ :: rest, fault)
      else ([], some .stalled)
termination_by c.rest.length
decreasing_by
  · have := gap_le c.rest
    simp only [Cursor.rest_advance, List.length_drop]
    omega
  · have := List.length_pos_iff.2 _hr
    simp only [Cursor.rest_advance, List.length_drop]
    omega

/-- Walks a whole text. -/
def walk (g : Grammar) (text : String) : List Item × Option Fault :=
  g.items (.start g.source text.toList)

/-- Reads a text into entries, in the order of the text. -/
def parse (g : Grammar) (text : String) : Except Fault (List Entry) :=
  match g.walk text with
  | (items, none) => .ok (items.map (·.entry))
  | (_, some f) => .error f

end Grammar

/-- Reads a text with the given modules. -/
def parseText (text : String) (modules : List Module) (source : String) :
    Except Fault (List Entry) := do
  (← Grammar.assemble { modules } source).parse text

end Daybook
