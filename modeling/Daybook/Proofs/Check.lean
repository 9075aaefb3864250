import Daybook.Proofs.Extension
import Daybook.Proofs.Inference
import Daybook.Proofs.Order
import Daybook.CommandLine.Report

/-!
# Check — what the check of files reports

The check reads its files in order, up to the first that fails. Whether it
finds fault with a file is a question about the file's entries after the
balancing pass (`Clean`), and what it says of them is a line for each line
that no directive accepts and one for each transaction that stays open
(`Complains`). The exit status follows from the entries, and the lines on
the error stream are those of the files and their number.
-/

namespace Daybook

open Daybook.Text

/-! ## What entries say of themselves -/

/-- The entry names its place, and if it is a line that no directive
accepts it has a warning. -/
structure Entry.Placed (e : Entry) : Prop where
  location : ∃ source line, e.location = some (.text (Entry.place source line))
  warning : e.isUnrecognised = true → ∃ text, e.warning = some (.text text)

theorem Entry.placed_of_entryAt {g : Grammar} {p : Shape → Prop} (h : g.OfShape p) {c : Cursor}
    {e : Entry} {n : Nat} (he : g.entryAt c = .ok (e, n)) : e.Placed := by
  refine ⟨⟨_, _, Grammar.location_of_entryAt h he⟩, fun hunknown => ?_⟩
  rw [Grammar.entryAt_of_recovers ((Grammar.recovers_iff h he).2 hunknown)] at he
  cases he
  exact ⟨_, Entry.warning_entryAt c⟩

theorem Entry.placed_of_parse {g : Grammar} {p : Shape → Prop} (h : g.OfShape p) {text : String}
    {es : List Entry} (hok : g.parse text = .ok es) : ∀ e ∈ es, e.Placed := by
  obtain ⟨-, rfl⟩ := Grammar.parse_eq_ok_iff.1 hok
  intro e he
  obtain ⟨item, hitem, rfl⟩ := List.mem_map.1 he
  obtain ⟨n, hread⟩ := Grammar.entryAt_of_mem_items hitem
  exact Entry.placed_of_entryAt h hread

namespace Balance

/-- The pass leaves lines that no directive accepts as they are. -/
theorem filter_isUnrecognised_entries (es : List Entry) :
    (entries es).filter (·.isUnrecognised) = es.filter (·.isUnrecognised) := by
  induction es with
  | nil => rfl
  | cons e es ih =>
      have hbalanced := balanced_entry e
      rw [entries, List.map_cons, List.filter_cons, List.filter_cons]
      rw [entries] at ih
      rw [ih]
      generalize entry e = r at hbalanced
      obtain ⟨e', s⟩ := r
      cases hbalanced with
      | other h => rfl
      | full h full => rfl
      | short h short => rfl
      | inferred h inferable =>
          have hknown : e.isUnrecognised = false := by rw [Entry.isUnrecognised, h]
          rw [hknown]
          rfl

/-- Each problem concerns an entry that is still open after the pass. -/
theorem problems_forall₂ (es : List Entry) :
    List.Forall₂ (fun e problem => problem.entry = e ∧
        ∃ t, e.detail = .transaction t ∧ t.FallsShort problem.shortfall)
      ((entries es).filter (·.isOpen)) (problems es) := by
  have hplaces : ((entries es).zipIdx.filter (·.1.isOpen)).map (·.1) =
      (entries es).filter (·.isOpen) := by
    have hfst : (entries es).zipIdx.map (·.1) = entries es := List.zipIdx_map_fst 0 _
    calc ((entries es).zipIdx.filter (·.1.isOpen)).map (·.1)
        = ((entries es).zipIdx.map (·.1)).filter (·.isOpen) := by rw [List.filter_map]; rfl
      _ = (entries es).filter (·.isOpen) := by rw [hfst]
  rw [← hplaces, List.forall₂_map_left_iff]
  exact (problems_concern es).imp fun _ _ h => ⟨h.entry, h.reason⟩

/-- The text of a problem, where its entry names its place. -/
theorem Problem.text_eq {problem : Problem} {place : String} (hne : place ≠ "")
    (h : problem.entry.location = some (.text place)) :
    problem.text = place ++ ": " ++ problem.shortfall.message := by
  have hvacant : (Value.scalar (.text place)).isVacant = false := by
    simpa [Value.isVacant] using hne
  have hplace : problem.place = place := by
    rw [Problem.place, h]
    simp only [hvacant]
    rfl
  rw [Problem.text, hplace]

end Balance

namespace CommandLine

/-! ## Complaints -/

/-- The line about a line that no directive accepts. -/
def SaysUnknown (e : Entry) (line : String) : Prop :=
  ∃ place warning, e.location = some (.text place) ∧ e.warning = some (.text warning) ∧
    line = place ++ ": " ++ warning

/-- The line about a transaction that stays open. -/
def SaysOpen (e : Entry) (line : String) : Prop :=
  ∃ place t reason, e.location = some (.text place) ∧ e.detail = .transaction t ∧
    t.FallsShort reason ∧ line = place ++ ": " ++ reason.message

/-- What is said of a file: a line for each entry that no directive
accepts, and then one for each transaction that still lacks an amount
after the balancing pass, both in the order of the entries. -/
def Complains (es : List Entry) (block : List String) : Prop :=
  ∃ unknown unbalanced, block = unknown ++ unbalanced ∧
    List.Forall₂ SaysUnknown (es.filter (·.isUnrecognised)) unknown ∧
    List.Forall₂ SaysOpen ((Balance.entries es).filter (·.isOpen)) unbalanced

/-- Nothing is wrong with the entries of a file: a directive accepts each,
and after the balancing pass no posting lacks its amount. -/
structure Clean (es : List Entry) : Prop where
  known : ∀ e ∈ es, e.isUnrecognised = false
  balanced : ∀ e ∈ Balance.entries es, ∀ p ∈ e.postings, p.amount ≠ none

theorem isOpen_eq_false_iff {e : Entry} :
    e.isOpen = false ↔ ∀ p ∈ e.postings, p.amount ≠ none := by
  rw [Entry.isOpen, List.any_eq_false]
  simp

/-- Nothing is said of a file exactly when nothing is wrong with it. -/
theorem Complains.eq_nil_iff {es : List Entry} {block : List String} (h : Complains es block) :
    block = [] ↔ Clean es := by
  obtain ⟨unknown, unbalanced, rfl, hunknown, hopen⟩ := h
  have hunknown : unknown = [] ↔ ∀ e ∈ es, e.isUnrecognised = false := by
    rw [← List.length_eq_zero_iff, ← hunknown.length_eq, List.length_eq_zero_iff,
      List.filter_eq_nil_iff]
    simp
  have hopen : unbalanced = [] ↔
      ∀ e ∈ Balance.entries es, ∀ p ∈ e.postings, p.amount ≠ none := by
    rw [← List.length_eq_zero_iff, ← hopen.length_eq, List.length_eq_zero_iff,
      List.filter_eq_nil_iff]
    simp only [Bool.not_eq_true, isOpen_eq_false_iff]
  rw [List.append_eq_nil_iff, hunknown, hopen]
  exact ⟨fun h => ⟨h.1, h.2⟩, fun h => ⟨h.known, h.balanced⟩⟩

theorem place_ne_empty (source : String) (line : Nat) : Entry.place source line ≠ "" := by
  intro h
  have hchars := congrArg String.toList h
  simp [Entry.place] at hchars

/-- **What the check says of a file whose entries name their places.** -/
theorem complains_complaints {es : List Entry} (h : ∀ e ∈ es, e.Placed) (path : Path) :
    Complains es (complaints (reportOf true path es)) := by
  refine ⟨_, _, rfl, ?_, ?_⟩
  · show List.Forall₂ _ _ (((Balance.entries es).filter (·.isUnrecognised)).map _)
    rw [Balance.filter_isUnrecognised_entries, List.forall₂_map_right_iff, List.forall₂_same]
    intro e he
    obtain ⟨hmem, hunknown⟩ := List.mem_filter.1 he
    obtain ⟨source, line, hlocation⟩ := (h e hmem).location
    obtain ⟨warning, hwarning⟩ := (h e hmem).warning hunknown
    refine ⟨_, _, hlocation, hwarning, ?_⟩
    rw [hlocation, hwarning]
    rfl
  · show List.Forall₂ _ _ ((Balance.problems es).map Balance.Problem.text)
    rw [List.forall₂_map_right_iff, List.forall₂_iff_zip]
    have hproblems := List.forall₂_iff_zip.1 (Balance.problems_forall₂ es)
    refine ⟨hproblems.1, fun {e problem} hzip => ?_⟩
    obtain ⟨rfl, t, ht, hshort⟩ := hproblems.2 hzip
    have hmem : problem.entry ∈ es :=
      List.mem_of_getElem? (Balance.getElem?_of_mem_problems (List.of_mem_zip hzip).2)
    obtain ⟨source, line, hlocation⟩ := (h _ hmem).location
    exact ⟨_, t, _, hlocation, ht, hshort,
      Balance.Problem.text_eq (place_ne_empty source line) hlocation⟩

/-! ## Lines -/

/-- A note that is printed on demand alone. -/
def Line.Quiet : Line → Prop
  | .note level _ _ => level ≠ .warning
  | _ => False

/-- The text of a line of errors. -/
def Line.error? : Line → Option String
  | .err s => some s
  | _ => none

/-- The result puts these lines on the error stream, and nothing else is
printed there unless notes are asked for. -/
structure Result.Shows (r : Result) (ls : List String) : Prop where
  lines : r.lines.filterMap Line.error? = ls
  stream : r.errors false = String.join ((ls.map Result.printed).map (· ++ "\n"))

/-- A line that is printed to its stream in any case. -/
def Line.Plain : Line → Prop
  | .note _ _ _ => False
  | _ => True

/-- Behind notes that are not asked for, the lines of errors are what is
shown. -/
theorem Result.shows {notes rest : List Line} (hnotes : ∀ l ∈ notes, l.Quiet)
    (hrest : ∀ l ∈ rest, l.Plain) (status : Nat) (fault : Option Fault) :
    (Result.mk (notes ++ rest) status fault).Shows (rest.filterMap Line.error?) := by
  refine ⟨?_, ?_⟩
  · have hnone : notes.filterMap Line.error? = [] := by
      refine List.filterMap_eq_nil_iff.2 fun l hl => ?_
      cases l with
      | out s => rfl
      | err s => exact absurd (hnotes _ hl) id
      | note level part message => rfl
    rw [List.filterMap_append, hnone, List.nil_append]
  · have hprinted : (rest.filterMap Line.error?).map printed =
        rest.filterMap fun l => l.error?.map printed := List.map_filterMap
    rw [Result.errors, Result.textOf, List.filterMap_append, List.filterMap_eq_nil_iff.2,
      List.nil_append, hprinted]
    · refine congrArg (fun ls : List String => String.join (ls.map (· ++ "\n"))) ?_
      refine List.filterMap_congr fun l hl => ?_
      cases l with
      | out s => rfl
      | err s => rfl
      | note level part message => exact absurd (hrest _ hl) id
    · intro l hl
      cases l with
      | out s => rfl
      | err s => exact absurd (hnotes _ hl) id
      | note level part message =>
          have hlevel : level ≠ .warning := hnotes _ hl
          simp [hlevel]

/-! ## Notes -/

theorem noteOf_quiet (item : Item) : ∀ l ∈ noteOf item, l.Quiet := by
  intro l hl
  rw [noteOf] at hl
  split at hl
  · rw [List.mem_singleton.1 hl]
    exact nofun
  · split at hl
    · rw [List.mem_singleton.1 hl]
      exact nofun
    · cases hl
  · cases hl

theorem readWith_quiet (g : Grammar) (balance : Bool) (s : Source) :
    ∀ l ∈ (readWith g balance s).1, l.Quiet := by
  intro l hl
  rw [readWith] at hl
  split at hl
  · cases hl
  · next text _ =>
    have hnotes : ∀ l ∈ (g.walk text).1.flatMap noteOf, l.Quiet := by
      intro l hl
      obtain ⟨item, -, hl⟩ := List.mem_flatMap.1 hl
      exact noteOf_quiet item l hl
    generalize g.walk text = walk at hl hnotes
    obtain ⟨items, fault⟩ := walk
    cases fault with
    | some f => exact hnotes l hl
    | none =>
        rcases List.mem_append.1 hl with hl | hl
        · exact hnotes l hl
        · rw [List.mem_singleton.1 hl]
          exact nofun

theorem readNameless_quiet (unwritable : Fault) (g : Grammar) (balance : Bool) (s : Source) :
    ∀ l ∈ (readNameless unwritable g balance s).1, l.Quiet := by
  intro l hl
  rw [readNameless] at hl
  split at hl
  · cases hl
  · split at hl
    · exact readWith_quiet g balance s l hl
    · cases hl

/-! ## Files -/

variable {m : Manifest} {config : Configuration} {s : Source}

/-- The name of the file as it is written with its entries, if it can
be. -/
def sourceName (m : Manifest) (s : Source) : Except Fault String :=
  (m.sourceNameFor (some s.path)).plainText

/-- The grammar that the file is read with. -/
def grammarFor (m : Manifest) (config : Configuration) (s : Source) : Except Fault Grammar :=
  Grammar.assemble config ((sourceName m s).toOption.getD "")

/-- The file is read into these entries: its bytes hold a text, the
grammar reads the text, and the name of the file can be written where an
entry needs it. -/
structure Parses (m : Manifest) (config : Configuration) (s : Source) (es : List Entry) :
    Prop where
  read : ∃ g text, grammarFor m config s = .ok g ∧ ofBytes? s.bytes = some text ∧
    g.parse text = .ok es
  named : es = [] ∨ ∃ name, sourceName m s = .ok name

/-- Reading the file meets this fault: no grammar can be made, or the
grammar meets it in the text. -/
inductive Raises (m : Manifest) (config : Configuration) (s : Source) (f : Fault) : Prop
  | assembling (h : grammarFor m config s = .error f)
  | reading {g : Grammar} {name text : String} (assembled : grammarFor m config s = .ok g)
      (named : sourceName m s = .ok name) (decoded : ofBytes? s.bytes = some text)
      (fault : g.parse text = .error f)

theorem readSource_eq (balance : Bool) :
    readSource m config balance s = match grammarFor m config s, sourceName m s with
      | .error f, _ => ([], .error f)
      | .ok g, .error f => readNameless f g balance s
      | .ok g, .ok _ =>
        (grammarNote g config :: (readWith g balance s).1, (readWith g balance s).2) := rfl

theorem readSource_quiet (m : Manifest) (config : Configuration) (balance : Bool) (s : Source) :
    ∀ l ∈ (readSource m config balance s).1, l.Quiet := by
  intro l hl
  rw [readSource_eq] at hl
  cases hg : grammarFor m config s with
  | error f => simp [hg] at hl
  | ok g =>
      cases hname : sourceName m s with
      | error f =>
          simp only [hg, hname] at hl
          exact readNameless_quiet f g balance s l hl
      | ok name =>
          simp only [hg, hname] at hl
          rcases List.mem_cons.1 hl with rfl | hl
          · exact nofun
          · exact readWith_quiet g balance s l hl

theorem readWith_of_parse {g : Grammar} {text : String} {es : List Entry}
    (htext : ofBytes? s.bytes = some text) (hparse : g.parse text = .ok es) (balance : Bool) :
    (readWith g balance s).2 = .ok (reportOf balance s.path es) := by
  obtain ⟨hnone, rfl⟩ := Grammar.parse_eq_ok_iff.1 hparse
  rw [readWith, htext]
  simp only [Grammar.walk, hnone]

theorem readWith_of_fault {g : Grammar} {text : String} {f : Fault}
    (htext : ofBytes? s.bytes = some text) (hparse : g.parse text = .error f) (balance : Bool) :
    (readWith g balance s).2 = .error f := by
  have hfault := Grammar.parse_eq_error_iff.1 hparse
  rw [readWith, htext]
  simp only [Grammar.walk, hfault]

theorem Parses.readSource_eq {es : List Entry} (h : Parses m config s es) (balance : Bool) :
    (readSource m config balance s).2 = .ok (reportOf balance s.path es) := by
  obtain ⟨g, text, hg, htext, hparse⟩ := h.read
  have hwith := readWith_of_parse htext hparse balance
  rw [CommandLine.readSource_eq, hg]
  cases hname : sourceName m s with
  | ok name => exact hwith
  | error f =>
      obtain rfl : es = [] := h.named.resolve_right fun ⟨name, hok⟩ => by
        rw [hname] at hok
        cases hok
      obtain ⟨hnone, hmap⟩ := Grammar.parse_eq_ok_iff.1 hparse
      have hwalk : g.walk text = ([], none) :=
        Prod.ext (List.map_eq_nil_iff.1 hmap) hnone
      simp only [readNameless, htext, hwalk]
      exact hwith

/-- A file that is read has entries, and its report is made of them. -/
theorem parses_of_readSource {balance : Bool} {report : Report}
    (h : (readSource m config balance s).2 = .ok report) : ∃ es, Parses m config s es := by
  rw [CommandLine.readSource_eq] at h
  cases hg : grammarFor m config s with
  | error f => simp [hg] at h
  | ok g =>
      cases htext : ofBytes? s.bytes with
      | none => cases hname : sourceName m s <;> simp [hg, hname, readNameless, readWith, htext] at h
      | some text =>
          cases hname : sourceName m s with
          | ok name =>
              cases hparse : g.parse text with
              | ok es => exact ⟨es, ⟨g, text, hg, htext, hparse⟩, .inr ⟨name, hname⟩⟩
              | error f =>
                  simp only [hg, hname] at h
                  rw [readWith_of_fault htext hparse] at h
                  cases h
          | error f =>
              simp only [hg, hname, readNameless, htext] at h
              split at h
              · next hwalk =>
                have hparse : g.parse text = .ok [] := by rw [Grammar.parse, hwalk]; rfl
                exact ⟨[], ⟨g, text, hg, htext, hparse⟩, .inl rfl⟩
              · cases h

theorem Raises.readSource_eq {f : Fault} (h : Raises m config s f) (balance : Bool) :
    (readSource m config balance s).2 = .error f := by
  rw [CommandLine.readSource_eq]
  cases h with
  | assembling h => rw [h]
  | reading assembled named decoded fault =>
      rw [assembled, named]
      exact readWith_of_fault decoded fault balance

/-! ## Lists of files -/

theorem readAll_cons (balance : Bool) (rest : List Source) :
    readAll m config balance (s :: rest) = match readSource m config balance s with
      | (notes, .error f) => (notes, .error f)
      | (notes, .ok report) =>
        (notes ++ (readAll m config balance rest).1,
          (readAll m config balance rest).2.map (report :: ·)) := rfl

/-- What comes of all files, apart from the notes. -/
theorem readAll_cons_result (balance : Bool) (rest : List Source) :
    (readAll m config balance (s :: rest)).2 =
      (readSource m config balance s).2.bind fun report =>
        (readAll m config balance rest).2.map (report :: ·) := by
  rw [readAll_cons]
  rcases readSource m config balance s with ⟨notes, f | report⟩ <;> rfl

theorem readAll_quiet (m : Manifest) (config : Configuration) (balance : Bool)
    (sources : List Source) : ∀ l ∈ (readAll m config balance sources).1, l.Quiet := by
  induction sources with
  | nil => exact nofun
  | cons s rest ih =>
      intro l hl
      have hnotes := readSource_quiet m config balance s
      rw [readAll_cons] at hl
      generalize readSource m config balance s = answer at hl hnotes
      obtain ⟨notes, report⟩ := answer
      cases report with
      | error f => exact hnotes l hl
      | ok report => exact (List.mem_append.1 hl).elim (hnotes l) (ih l)

theorem readAll_of_parses {sources : List Source} {ess : List (List Entry)}
    (h : List.Forall₂ (Parses m config) sources ess) (balance : Bool) :
    (readAll m config balance sources).2 =
      .ok (List.zipWith (fun s es => reportOf balance s.path es) sources ess) := by
  induction h with
  | nil => rfl
  | cons hs _ ih =>
      rw [readAll_cons_result, hs.readSource_eq balance, ih]
      rfl

theorem parses_of_readAll {balance : Bool} {sources : List Source} {reports : List Report}
    (h : (readAll m config balance sources).2 = .ok reports) :
    ∃ ess, List.Forall₂ (Parses m config) sources ess := by
  induction sources generalizing reports with
  | nil => exact ⟨[], .nil⟩
  | cons s rest ih =>
      rw [readAll_cons_result] at h
      cases hs : (readSource m config balance s).2 with
      | error f =>
          rw [hs] at h
          cases h
      | ok report =>
          obtain ⟨es, hes⟩ := parses_of_readSource hs
          cases hrest : (readAll m config balance rest).2 with
          | error f =>
              rw [hs, hrest] at h
              cases h
          | ok reports =>
              obtain ⟨ess, hess⟩ := ih hrest
              exact ⟨es :: ess, .cons hes hess⟩

/-- The first file that fails decides. -/
theorem readAll_of_raises {before : List Source} {ess : List (List Entry)}
    (h : List.Forall₂ (Parses m config) before ess) {f : Fault} (hs : Raises m config s f)
    (after : List Source) (balance : Bool) :
    (readAll m config balance (before ++ s :: after)).2 = .error f := by
  induction h with
  | nil =>
      rw [List.nil_append, readAll_cons_result, hs.readSource_eq balance]
      rfl
  | cons hs' _ ih =>
      rw [List.cons_append, readAll_cons_result, hs'.readSource_eq balance, ih]
      rfl

/-! ## The check -/

/-- The settings of a project allow the builtin directives alone. -/
theorem ofShape_of_configuration (hconfig : m.configuration = .ok config) {source : String}
    {g : Grammar} (hg : Grammar.assemble config source = .ok g) :
    g.OfShape Shape.SingleLine := by
  obtain ⟨ms, hms, rfl⟩ : ∃ ms, Builtin.named m.modules = .ok ms ∧ config = { modules := ms } := by
    rw [Manifest.configuration] at hconfig
    cases hnamed : Builtin.named m.modules with
    | error f => simp [hnamed, bind, Except.bind] at hconfig
    | ok ms =>
        rw [hnamed] at hconfig
        exact ⟨ms, rfl, (Except.ok.inj hconfig).symm⟩
  rw [Grammar.assemble] at hg
  split at hg
  · cases hg
    intro d hd
    exact Builtin.ofShape_grammar source d
      (Builtin.mem_directives (Builtin.mem_modules_of_named hms) source hd)
  · cases hg

theorem Parses.placed (hconfig : m.configuration = .ok config) {es : List Entry}
    (h : Parses m config s es) : ∀ e ∈ es, e.Placed := by
  obtain ⟨g, text, hg, -, hparse⟩ := h.read
  exact Entry.placed_of_parse (ofShape_of_configuration hconfig hg) hparse

/-- The files are said of what their entries ask for. -/
theorem forall₂_complains (hconfig : m.configuration = .ok config) {sources : List Source}
    {ess : List (List Entry)} (h : List.Forall₂ (Parses m config) sources ess) :
    List.Forall₂ Complains ess
      ((List.zipWith (fun s es => reportOf true s.path es) sources ess).map complaints) := by
  induction h with
  | nil => exact .nil
  | @cons s es rest ess hs hrest ih =>
      exact .cons (complains_complaints (hs.placed hconfig) s.path) ih

theorem flatten_eq_nil_iff {ess : List (List Entry)} {blocks : List (List String)}
    (h : List.Forall₂ Complains ess blocks) : blocks.flatten = [] ↔ ∀ es ∈ ess, Clean es := by
  induction h with
  | nil => simp
  | cons hblock hrest ih =>
      rw [List.flatten_cons, List.append_eq_nil_iff, hblock.eq_nil_iff, ih, List.forall_mem_cons]

theorem checkFiles_of_error (hconfig : m.configuration = .ok config) {sources : List Source}
    {notes : List Line} {f : Fault} (h : readAll m config true sources = (notes, .error f)) :
    checkFiles m sources = .failed notes f := by
  rw [checkFiles, readSources, hconfig]
  simp only [h]

/-- The line behind the others. -/
def countLine (found : List String) : String := toString found.length ++ " problem(s) found"

theorem checkFiles_of_ok (hconfig : m.configuration = .ok config) {sources : List Source}
    {notes : List Line} {reports : List Report}
    (h : readAll m config true sources = (notes, .ok reports)) :
    checkFiles m sources =
      if (reports.map complaints).flatten = [] then
        ⟨notes ++ [.out ("OK: " ++ toString sources.length ++ " file(s) parsed cleanly.")], 0, none⟩
      else
        ⟨notes ++ ((reports.map complaints).flatten ++
          [countLine (reports.map complaints).flatten]).map Line.err, 1, none⟩ := by
  rw [checkFiles, readSources, hconfig]
  simp only [h, List.flatMap_def, List.isEmpty_iff, List.map_append, List.append_assoc]
  rfl

/-- Behind notes, lines of errors are shown as they are. -/
theorem Result.shows_errors {notes : List Line} (hnotes : ∀ l ∈ notes, l.Quiet)
    (ls : List String) (status : Nat) (fault : Option Fault) :
    (Result.mk (notes ++ ls.map Line.err) status fault).Shows ls := by
  have hplain : ∀ l ∈ ls.map Line.err, l.Plain := by
    intro l hl
    obtain ⟨s, -, rfl⟩ := List.mem_map.1 hl
    trivial
  have hls : (ls.map Line.err).filterMap Line.error? = ls := by
    rw [List.filterMap_map]
    exact List.filterMap_some
  have hshows := Result.shows hnotes hplain status fault
  rwa [hls] at hshows

/-- What the check of files that are read comes to. -/
theorem checkFiles_of_parses (hconfig : m.configuration = .ok config) {sources : List Source}
    {ess : List (List Entry)} (h : List.Forall₂ (Parses m config) sources ess) :
    ∃ blocks, List.Forall₂ Complains ess blocks ∧ (checkFiles m sources).fault = none ∧
      (blocks.flatten = [] → (checkFiles m sources).status = 0 ∧ (checkFiles m sources).Shows []) ∧
      (blocks.flatten ≠ [] → (checkFiles m sources).status = 1 ∧
        (checkFiles m sources).Shows (blocks.flatten ++ [countLine blocks.flatten])) := by
  have hquiet := readAll_quiet m config true sources
  have hcheck := checkFiles_of_ok hconfig (Prod.ext rfl (readAll_of_parses h true))
  have hcomplains := forall₂_complains hconfig h
  generalize (List.zipWith (fun s es => reportOf true s.path es) sources ess).map complaints =
    blocks at hcheck hcomplains
  refine ⟨blocks, hcomplains, ?_⟩
  rw [hcheck]
  by_cases hfound : blocks.flatten = []
  · have hout : ∀ l ∈ [Line.out ("OK: " ++ toString sources.length ++
        " file(s) parsed cleanly.")], l.Plain := by
      intro l hl
      rw [List.mem_singleton.1 hl]
      trivial
    rw [if_pos hfound]
    exact ⟨rfl, fun _ => ⟨rfl, Result.shows hquiet hout 0 none⟩, absurd hfound⟩
  · rw [if_neg hfound]
    exact ⟨rfl, fun h => absurd h hfound, fun _ => ⟨rfl, Result.shows_errors hquiet _ 1 none⟩⟩

/-- What the check comes to when a file fails by a fault that a user can
mend. -/
theorem checkFiles_of_raises (hconfig : m.configuration = .ok config)
    {before after : List Source} {ess : List (List Entry)}
    (h : List.Forall₂ (Parses m config) before ess) {f : Fault} (hs : Raises m config s f)
    {d : Diagnostic} (hd : f.diagnostic? = some d) :
    (checkFiles m (before ++ s :: after)).status = 1 ∧
      (checkFiles m (before ++ s :: after)).fault = none ∧
      (checkFiles m (before ++ s :: after)).Shows ["Error: " ++ d.render] := by
  have hquiet := readAll_quiet m config true (before ++ s :: after)
  have hcheck := checkFiles_of_error hconfig
    (Prod.ext rfl (readAll_of_raises h hs after true))
  rw [hcheck, Result.failed, hd]
  exact ⟨rfl, rfl, Result.shows_errors hquiet ["Error: " ++ d.render] 1 none⟩

/-- **A check that passes vouches for the files**: each is read, and
nothing is wrong with the entries of any. -/
theorem checkFiles_status_eq_zero_iff (hconfig : m.configuration = .ok config)
    (sources : List Source) : (checkFiles m sources).status = 0 ↔
      ∃ ess, List.Forall₂ (Parses m config) sources ess ∧ ∀ es ∈ ess, Clean es := by
  constructor
  · intro hstatus
    cases hread : readAll m config true sources with
    | mk notes result =>
        cases result with
        | error f =>
            rw [checkFiles_of_error hconfig hread, Result.failed] at hstatus
            split at hstatus <;> cases hstatus
        | ok reports =>
            obtain ⟨ess, hess⟩ := parses_of_readAll (congrArg (·.2) hread)
            obtain ⟨blocks, hblocks, -, -, hfound⟩ := checkFiles_of_parses hconfig hess
            refine ⟨ess, hess, (flatten_eq_nil_iff hblocks).1 ?_⟩
            by_contra hne
            rw [(hfound hne).1] at hstatus
            cases hstatus
  · rintro ⟨ess, hess, hclean⟩
    obtain ⟨blocks, hblocks, -, hnone, -⟩ := checkFiles_of_parses hconfig hess
    exact (hnone ((flatten_eq_nil_iff hblocks).2 hclean)).1

/-- **The check is sound and complete**, under any settings that can be
used. Files that can all be read pass exactly when nothing is wrong with
the entries of any; if something is, the status is one and the lines about
each file are shown, in the order of the files, and behind them their
number. If a file cannot be read for a reason that a user can mend, the
status is one and nothing is shown but that reason. -/
theorem checkFiles_outcome (hconfig : m.configuration = .ok config) :
    (∀ sources ess, List.Forall₂ (Parses m config) sources ess →
      (checkFiles m sources).fault = none ∧
        ((checkFiles m sources).status = 0 ↔ ∀ es ∈ ess, Clean es) ∧
        ((checkFiles m sources).status = 0 → (checkFiles m sources).Shows []) ∧
        ((checkFiles m sources).status ≠ 0 → (checkFiles m sources).status = 1 ∧
          ∃ blocks, List.Forall₂ Complains ess blocks ∧ (checkFiles m sources).Shows
            (blocks.flatten ++ [toString blocks.flatten.length ++ " problem(s) found"]))) ∧
    ∀ before s after ess f d, List.Forall₂ (Parses m config) before ess →
      Raises m config s f → f.diagnostic? = some d →
      (checkFiles m (before ++ s :: after)).status = 1 ∧
        (checkFiles m (before ++ s :: after)).fault = none ∧
        (checkFiles m (before ++ s :: after)).Shows ["Error: " ++ d.render] := by
  refine ⟨fun sources ess h => ?_, fun before s after ess f d h hs hd =>
    checkFiles_of_raises hconfig h hs hd⟩
  obtain ⟨blocks, hblocks, hfault, hclean, hfound⟩ := checkFiles_of_parses hconfig h
  rw [← flatten_eq_nil_iff hblocks]
  by_cases hnil : blocks.flatten = []
  · obtain ⟨hstatus, hshows⟩ := hclean hnil
    exact ⟨hfault, iff_of_true hstatus hnil, fun _ => hshows, absurd hstatus⟩
  · obtain ⟨hstatus, hshows⟩ := hfound hnil
    have hne : (checkFiles m sources).status ≠ 0 := by rw [hstatus]; exact Nat.one_ne_zero
    exact ⟨hfault, iff_of_false hne hnil, fun h => absurd h hne,
      fun _ => ⟨hstatus, blocks, hblocks, hshows⟩⟩

/-- A file with a line that no directive accepts. -/
def oddFile : Source := ⟨{ names := ["odd"] }, "2024-01-01 frobnicate Ab\n".toUTF8⟩

/-- A file with a string that nothing closes. -/
def brokenFile : Source := ⟨{ names := ["broken"] }, "2024-01-01 * \"Lunch\n".toUTF8⟩

/-- The entry of the first file. -/
def oddEntry : Entry :=
  Recovery.entryAt (.start "odd" "2024-01-01 frobnicate Ab\n".toList)

theorem checkFiles_outcome_odd :
    ({} : Manifest).configuration = .ok { modules := Builtin.modules } ∧
      List.Forall₂ (Parses {} { modules := Builtin.modules }) [oddFile] [[oddEntry]] ∧
      (checkFiles {} [oddFile]).status = 1 ∧
      (∃ blocks, List.Forall₂ Complains [[oddEntry]] blocks ∧ (checkFiles {} [oddFile]).Shows
        (blocks.flatten ++ [toString blocks.flatten.length ++ " problem(s) found"])) ∧
      ∃ f d, Raises {} { modules := Builtin.modules } brokenFile f ∧ f.diagnostic? = some d ∧
        (checkFiles {} [oddFile, brokenFile]).status = 1 ∧
        (checkFiles {} [oddFile, brokenFile]).Shows ["Error: " ++ d.render] := by
  have hconfig : ({} : Manifest).configuration = .ok { modules := Builtin.modules } := by
    with_unfolding_all rfl
  have hodd : List.Forall₂ (Parses {} { modules := Builtin.modules }) [oddFile] [[oddEntry]] :=
    .cons ⟨⟨_, _, rfl, ofBytes?_toUTF8 "2024-01-01 frobnicate Ab\n", by with_unfolding_all rfl⟩,
      .inr ⟨"odd", by with_unfolding_all rfl⟩⟩ .nil
  have hname : sourceName {} brokenFile = .ok "broken" := by with_unfolding_all rfl
  have hbroken : Raises {} { modules := Builtin.modules } brokenFile
      (.unclosedString ((Cursor.start "broken" "2024-01-01 * \"Lunch\n".toList).advance 13)) :=
    .reading rfl hname (ofBytes?_toUTF8 "2024-01-01 * \"Lunch\n") (by with_unfolding_all rfl)
  obtain ⟨hread, hfail⟩ := checkFiles_outcome hconfig
  obtain ⟨-, hiff, -, hshows⟩ := hread _ _ hodd
  have hne : (checkFiles {} [oddFile]).status ≠ 0 := by
    intro h
    have hclean := hiff.1 h [oddEntry] List.mem_cons_self
    have hknown := hclean.known oddEntry List.mem_cons_self
    rw [oddEntry, Entry.isUnrecognised_entryAt] at hknown
    cases hknown
  obtain ⟨hstatus, -, hfails⟩ := hfail _ _ [] _ _ _ hodd hbroken rfl
  exact ⟨hconfig, hodd, (hshows hne).1, (hshows hne).2, _, _, hbroken, rfl, hstatus, hfails⟩

end CommandLine
end Daybook
