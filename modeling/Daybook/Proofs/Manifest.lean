import Daybook.Manifest
import Mathlib

/-!
# Manifest — settings and their types

A value in the document of a manifest may be of any type. Each setting is
checked by itself: what is left out has a default, and of what is written
exactly the values of one type are accepted (`Setting`, `Decides`). The
first check that fails decides what comes of the document (`Comes`). The
name of the sources is not checked, and for a section that is no table
there is no error of a configuration.
-/

namespace Daybook.Manifest

/-! ## One setting -/

section Settings

variable {α : Type} {t : Toml.Table} {name : String} {ofType : α → Toml} {default : α}

/-- What a table says under a name: the default if nothing is written, and
otherwise a value of the type. -/
inductive Setting (t : Toml.Table) (name : String) (ofType : α → Toml) (default : α) : α → Prop
  | absent (missing : t.get? name = none) : Setting t name ofType default default
  | written {a : α} (found : t.get? name = some (ofType a)) : Setting t name ofType default a

/-- The check accepts exactly the values that are `P`, and it has one fault
for all others. -/
structure Decides (P : α → Prop) (fault : Fault) (check : Except Fault α) : Prop where
  ok_iff : ∀ a, check = .ok a ↔ P a
  fault_eq : ∀ f, check = .error f → f = fault

variable {P : α → Prop} {fault : Fault} {check : Except Fault α}

theorem Decides.eq_ok (h : Decides P fault check) {a : α} (ha : P a) : check = .ok a :=
  (h.ok_iff a).2 ha

theorem Decides.eq_error (h : Decides P fault check) (hnone : ∀ a, ¬P a) :
    check = .error fault := by
  cases hc : check with
  | ok a => exact absurd ((h.ok_iff a).1 hc) (hnone a)
  | error f => rw [h.fault_eq f hc]

theorem Decides.unique (h : Decides P fault check) {a b : α} (ha : P a) (hb : P b) : a = b :=
  Except.ok.inj ((h.eq_ok ha).symm.trans (h.eq_ok hb))

theorem Decides.some_or_none (h : Decides P fault check) : (∃ a, P a) ∨ ∀ a, ¬P a := by
  cases hc : check with
  | ok a => exact .inl ⟨a, (h.ok_iff a).1 hc⟩
  | error f =>
      refine .inr fun a ha => ?_
      rw [h.eq_ok ha] at hc
      cases hc

theorem decides_absent (hnone : t.get? name = none) :
    Decides (Setting t name ofType default) fault (.ok default) := by
  refine ⟨fun a => ⟨fun h => ?_, fun h => ?_⟩, nofun⟩
  · cases h
    exact .absent hnone
  · cases h with
    | absent => rfl
    | written found => simp [hnone] at found

theorem decides_written {v : Toml} (hsome : t.get? name = some v)
    (hok : ∀ a, check = .ok a ↔ v = ofType a) (hfault : ∀ f, check = .error f → f = fault) :
    Decides (Setting t name ofType default) fault check := by
  refine ⟨fun a => ⟨fun h => ?_, fun h => ?_⟩, hfault⟩
  · rw [(hok a).1 h] at hsome
    exact .written hsome
  · cases h with
    | absent missing => simp [hsome] at missing
    | written found => exact (hok a).2 (Option.some.inj (hsome.symm.trans found))

end Settings

/-! ## The settings of a manifest -/

/-- A text. -/
def ofText (s : String) : Toml := .scalar (.text s)

/-- A truth value. -/
def ofBool (b : Bool) : Toml := .scalar (.bool b)

/-- A list of texts. -/
def ofTexts (names : List String) : Toml := .array (names.map ofText)

/-- A section of the document: a table, empty if it is left out. -/
abbrev Section (doc : Toml.Table) (name : String) : Toml.Table → Prop :=
  Setting doc name Toml.table []

/-- The names of the modules: all builtin ones if nothing is said. -/
abbrev Modules (parser : Toml.Table) : List String → Prop :=
  Setting parser "modules" ofTexts (Builtin.modules.map (·.name))

/-- Whether missing amounts are inferred: they are if nothing is said. -/
abbrev Enabled (balancing : Toml.Table) : Bool → Prop :=
  Setting balancing "enabled" ofBool true

theorem decides_sectionOf (doc : Toml.Table) (name : String) :
    Decides (Section doc name) .notAMapping (sectionOf doc name) := by
  unfold sectionOf
  cases hv : doc.get? name with
  | none => exact decides_absent hv
  | some v =>
      refine decides_written hv (fun t => ?_) fun f => ?_
      · cases v <;> simp
      · cases v <;> simp [eq_comm]

theorem text?_eq_some_iff {v : Toml} {s : String} : text? v = some s ↔ v = ofText s := by
  unfold text?
  split
  · simp [ofText]
  · next hno => exact ⟨nofun, fun h => absurd h (hno s)⟩

theorem mapM_text?_eq_some_iff {items : List Toml} {names : List String} :
    items.mapM text? = some names ↔ items = names.map ofText := by
  induction items generalizing names with
  | nil => cases names <;> simp
  | cons v items ih =>
      cases names with
      | nil =>
          cases hv : text? v <;> cases hvs : items.mapM text? <;> simp [List.mapM_cons, hv, hvs]
      | cons n names =>
          rw [List.map_cons, List.cons.injEq, ← ih, ← text?_eq_some_iff, List.mapM_cons]
          cases text? v <;> cases items.mapM text? <;> simp

theorem decides_modulesOf (file : String) (parser : Toml.Table) :
    Decides (Modules parser) (.modulesNotNames file) (modulesOf file parser) := by
  unfold modulesOf
  cases hv : parser.get? "modules" with
  | none => exact decides_absent hv
  | some v =>
      cases v with
      | array items =>
          have hitems : ∀ names, Toml.array items = ofTexts names ↔
              items.mapM text? = some names := fun names => by
            rw [mapM_text?_eq_some_iff, ofTexts, Toml.array.injEq]
          refine decides_written hv (fun names => ?_) fun f => ?_
          · rw [hitems]
            cases hnames : items.mapM text? <;> simp [hnames]
          · cases hnames : items.mapM text? <;> simp [hnames, eq_comm]
      | _ => exact decides_written hv (by simp [ofTexts]) (by simp [eq_comm])

theorem decides_balancingOf (file : String) (balancing : Toml.Table) :
    Decides (Enabled balancing) (.enabledNotBool file) (balancingOf file balancing) := by
  unfold balancingOf
  cases hv : balancing.get? "enabled" with
  | none => exact decides_absent hv
  | some v =>
      refine decides_written hv (fun b => ?_) fun f => ?_
      · cases v with
        | scalar s => cases s <;> simp [ofBool]
        | _ => simp [ofBool]
      · cases v with
        | scalar s => cases s <;> simp [eq_comm]
        | _ => simp [eq_comm]

/-! ## What comes of a document -/

/-- What comes of a document: the fault of the first check that fails, or
the settings. -/
inductive Comes (file : String) (doc : Toml.Table) : Except Fault Manifest → Prop
  | parserNoTable (parser : ∀ t, ¬Section doc "parser" t) : Comes file doc (.error .notAMapping)
  | modulesNotNames {t : Toml.Table} (parser : Section doc "parser" t)
      (modules : ∀ names, ¬Modules t names) : Comes file doc (.error (.modulesNotNames file))
  | balancingNoTable {t : Toml.Table} {names : List String} (parser : Section doc "parser" t)
      (modules : Modules t names) (balancing : ∀ u, ¬Section doc "balancing" u) :
      Comes file doc (.error .notAMapping)
  | enabledNotBool {t u : Toml.Table} {names : List String} (parser : Section doc "parser" t)
      (modules : Modules t names) (balancing : Section doc "balancing" u)
      (enabled : ∀ b, ¬Enabled u b) : Comes file doc (.error (.enabledNotBool file))
  | settings {t u : Toml.Table} {names : List String} {b : Bool} (parser : Section doc "parser" t)
      (modules : Modules t names) (balancing : Section doc "balancing" u)
      (enabled : Enabled u b) : Comes file doc (.ok ⟨t.get? "source_name", names, b⟩)

variable {file : String} {doc : Toml.Table} {answer : Except Fault Manifest}

theorem Comes.ofDocument_eq (h : Comes file doc answer) : ofDocument file doc = answer := by
  unfold ofDocument
  cases h with
  | parserNoTable parser =>
      rw [(decides_sectionOf ..).eq_error parser]
      rfl
  | modulesNotNames parser modules =>
      rw [(decides_sectionOf ..).eq_ok parser]
      show (modulesOf file _ >>= _) = _
      rw [(decides_modulesOf ..).eq_error modules]
      rfl
  | balancingNoTable parser modules balancing =>
      rw [(decides_sectionOf ..).eq_ok parser]
      show (modulesOf file _ >>= _) = _
      rw [(decides_modulesOf ..).eq_ok modules, (decides_sectionOf ..).eq_error balancing]
      rfl
  | enabledNotBool parser modules balancing enabled =>
      rw [(decides_sectionOf ..).eq_ok parser]
      show (modulesOf file _ >>= _) = _
      rw [(decides_modulesOf ..).eq_ok modules, (decides_sectionOf ..).eq_ok balancing]
      show (balancingOf file _ >>= _) = _
      rw [(decides_balancingOf ..).eq_error enabled]
      rfl
  | settings parser modules balancing enabled =>
      rw [(decides_sectionOf ..).eq_ok parser]
      show (modulesOf file _ >>= _) = _
      rw [(decides_modulesOf ..).eq_ok modules, (decides_sectionOf ..).eq_ok balancing]
      show (balancingOf file _ >>= _) = _
      rw [(decides_balancingOf ..).eq_ok enabled]
      rfl

/-- Something comes of every document. -/
theorem exists_comes (file : String) (doc : Toml.Table) : ∃ answer, Comes file doc answer := by
  rcases (decides_sectionOf doc "parser").some_or_none with ⟨t, parser⟩ | parser
  · rcases (decides_modulesOf file t).some_or_none with ⟨names, modules⟩ | modules
    · rcases (decides_sectionOf doc "balancing").some_or_none with ⟨u, balancing⟩ | balancing
      · rcases (decides_balancingOf file u).some_or_none with ⟨b, enabled⟩ | enabled
        · exact ⟨_, .settings parser modules balancing enabled⟩
        · exact ⟨_, .enabledNotBool parser modules balancing enabled⟩
      · exact ⟨_, .balancingNoTable parser modules balancing⟩
    · exact ⟨_, .modulesNotNames parser modules⟩
  · exact ⟨_, .parserNoTable parser⟩

theorem ofDocument_eq_iff : ofDocument file doc = answer ↔ Comes file doc answer := by
  refine ⟨?_, Comes.ofDocument_eq⟩
  rintro rfl
  obtain ⟨answer, h⟩ := exists_comes file doc
  rwa [h.ofDocument_eq]

/-! ## Proper answers -/

/-- The answer has no setting of a wrong type, or it is the error of a
configuration. -/
inductive Proper : Except Fault Manifest → Prop
  | settings {m : Manifest} (named : ∀ v ∈ m.sourceName, ∃ s, v = ofText s) : Proper (.ok m)
  | refused {f : Fault} {d : Diagnostic} (told : f.diagnostic? = some d)
      (kind : d.kind = .configuration) : Proper (.error f)

/-- No wrong type in the document goes unnoticed: every section that is
looked into is a table, and unless a setting is refused the name of the
sources is a text or left out. -/
def Handled (doc : Toml.Table) : Prop :=
  ∃ t, Section doc "parser" t ∧ ((∀ names, ¬Modules t names) ∨
    ∃ u, Section doc "balancing" u ∧ ((∀ b, ¬Enabled u b) ∨
      ∀ v ∈ t.get? "source_name", ∃ s, v = ofText s))

theorem not_proper_notAMapping : ¬Proper (.error .notAMapping) := by
  intro h
  cases h with
  | refused told kind => cases told

theorem Comes.proper_iff (h : Comes file doc answer) : Proper answer ↔ Handled doc := by
  cases h with
  | parserNoTable parser =>
      refine ⟨fun h => absurd h not_proper_notAMapping, ?_⟩
      rintro ⟨t, ht, -⟩
      exact absurd ht (parser t)
  | modulesNotNames parser modules =>
      exact ⟨fun _ => ⟨_, parser, .inl modules⟩, fun _ => .refused rfl rfl⟩
  | balancingNoTable parser modules balancing =>
      refine ⟨fun h => absurd h not_proper_notAMapping, ?_⟩
      rintro ⟨t, ht, hmodules | ⟨u, hu, -⟩⟩
      · cases (decides_sectionOf ..).unique ht parser
        exact absurd modules (hmodules _)
      · exact absurd hu (balancing u)
  | enabledNotBool parser modules balancing enabled =>
      exact ⟨fun _ => ⟨_, parser, .inr ⟨_, balancing, .inl enabled⟩⟩, fun _ => .refused rfl rfl⟩
  | settings parser modules balancing enabled =>
      constructor
      · intro h
        cases h with
        | settings named => exact ⟨_, parser, .inr ⟨_, balancing, .inr named⟩⟩
      · rintro ⟨t, ht, hhandled⟩
        cases (decides_sectionOf ..).unique ht parser
        rcases hhandled with hmodules | ⟨u, hu, henabled | hname⟩
        · exact absurd modules (hmodules _)
        · cases (decides_sectionOf ..).unique hu balancing
          exact absurd enabled (henabled _)
        · exact .settings hname

theorem read_eq_ofDocument {bytes : ByteArray} {text : String}
    (htext : Text.ofBytes? bytes = some text) (hdoc : Toml.document text = .ok doc) :
    read file bytes = ofDocument file doc := by
  rw [read, htext]
  simp only [hdoc]

/-- **What a manifest comes to.** A file that holds a document comes to its
settings, each of which is left out or written in its type, or to the fault
of the first check that fails. The answer is proper, without a setting of a
wrong type and without another fault than the error of a configuration, if
and only if the document has no section that is looked into and is no table,
and no name of the sources that is no text where all checks succeed. -/
theorem read_proper_iff {file : String} {bytes : ByteArray} {text : String} {doc : Toml.Table}
    (htext : Text.ofBytes? bytes = some text) (hdoc : Toml.document text = .ok doc) :
    (∀ answer, read file bytes = answer ↔ Comes file doc answer) ∧
      (Proper (read file bytes) ↔ Handled doc) := by
  rw [read_eq_ofDocument htext hdoc]
  exact ⟨fun _ => ofDocument_eq_iff, (ofDocument_eq_iff.1 rfl).proper_iff⟩

/-- A manifest with all settings. -/
def fullText : String :=
  "[parser]\nmodules = ['transactions']\nsource_name = 'books'\n[balancing]\nenabled = false\n"

/-- Its first section. -/
def fullParser : Toml.Table :=
  [("modules", ofTexts ["transactions"]), ("source_name", ofText "books")]

/-- Its document. -/
def fullDocument : Toml.Table :=
  [("parser", .table fullParser), ("balancing", .table [("enabled", ofBool false)])]

theorem read_proper_iff_full :
    Text.ofBytes? fullText.toUTF8 = some fullText ∧ Toml.document fullText = .ok fullDocument ∧
      read fileName fullText.toUTF8 = .ok ⟨some (ofText "books"), ["transactions"], false⟩ ∧
      Proper (read fileName fullText.toUTF8) := by
  have htext : Text.ofBytes? fullText.toUTF8 = some fullText :=
    (Text.ofBytes?_toUTF8 fullText).trans (by cbv)
  have hdoc : Toml.document fullText = .ok fullDocument := by cbv
  obtain ⟨hcomes, hproper⟩ := @read_proper_iff fileName _ _ _ htext hdoc
  have hparser : Section fullDocument "parser" fullParser := .written rfl
  have hmodules : Modules fullParser ["transactions"] := .written rfl
  have hbalancing : Section fullDocument "balancing" [("enabled", ofBool false)] := .written rfl
  have henabled : Enabled [("enabled", ofBool false)] false := .written rfl
  have hhandled : Handled fullDocument := by
    refine ⟨_, hparser, .inr ⟨_, hbalancing, .inr fun v hv => ⟨"books", ?_⟩⟩⟩
    exact (Option.some.inj hv).symm
  exact ⟨htext, hdoc, (hcomes _).2 (.settings hparser hmodules hbalancing henabled),
    hproper.2 hhandled⟩

/-- A manifest whose sources have a number for a name. -/
def numberText : String := "[parser]\nsource_name = 5\n"

/-- A manifest with a number in the place of a section. -/
def looseText : String := "parser = 1\n"

/-- The number is taken for a name, and for what is no section there is no
error of a configuration. -/
theorem read_wrongTypes :
    read fileName numberText.toUTF8 = .ok { sourceName := some (.scalar (.int 5)) } ∧
      ¬Proper (read fileName numberText.toUTF8) ∧
      read fileName looseText.toUTF8 = .error .notAMapping ∧
      ¬Proper (read fileName looseText.toUTF8) := by
  have htext : Text.ofBytes? numberText.toUTF8 = some numberText :=
    (Text.ofBytes?_toUTF8 numberText).trans (by cbv)
  have hdoc : Toml.document numberText =
      .ok [("parser", .table [("source_name", .scalar (.int 5))])] := by cbv
  have hname : read fileName numberText.toUTF8 =
      .ok { sourceName := some (.scalar (.int 5)) } := by
    rw [read_eq_ofDocument htext hdoc]
    rfl
  have hloose : Text.ofBytes? looseText.toUTF8 = some looseText :=
    (Text.ofBytes?_toUTF8 looseText).trans (by cbv)
  have hlooseDoc : Toml.document looseText = .ok [("parser", .scalar (.int 1))] := by cbv
  have hsection : read fileName looseText.toUTF8 = .error .notAMapping := by
    rw [read_eq_ofDocument hloose hlooseDoc]
    rfl
  refine ⟨hname, ?_, hsection, ?_⟩
  · rw [hname]
    intro h
    cases h with
    | settings named =>
        obtain ⟨s, hs⟩ := named _ rfl
        cases hs
  · rw [hsection]
    exact not_proper_notAMapping

end Daybook.Manifest
