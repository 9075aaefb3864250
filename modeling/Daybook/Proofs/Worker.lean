import Daybook.Proofs.Outcome
import Daybook.Worker

/-!
# Worker — what a request is answered with

A single file is answered once, by its entries or by an error. A batch
tells its progress after each file and ends in a success with a result
for each (`Completes`). A file that cannot be read fails alone, as long
as its fault is one that a user can mend (`Answerable`); at the first
file with any other fault the answers break off (`BreaksOff`).
-/

namespace Daybook

/-- The files that a request asks for. -/
def Request.files : Request → List SourceFile
  | single _ file => [file]
  | batch _ files => files

namespace Worker

variable {w : Worker}

/-! ## One file -/

/-- Something can be said of the file: if it cannot be read, a user can
mend the fault. -/
def Answerable (w : Worker) (file : SourceFile) : Prop :=
  ∀ f, w.read file = .error f → f.diagnostic? ≠ none

/-- Reading the file ends in a fault that nobody can mend. -/
structure Fails (w : Worker) (file : SourceFile) (f : Fault) : Prop where
  read : w.read file = .error f
  unmended : f.diagnostic? = none

/-- The result is that of the file by itself: its entries, or what is
said of its fault. -/
inductive Reports (w : Worker) (file : SourceFile) : FileResult → Prop
  | entries {es : List Entry} (read : w.read file = .ok es) : Reports w file (.ok es)
  | error {f : Fault} {d : Diagnostic} (read : w.read file = .error f)
      (mended : f.diagnostic? = some d) :
      Reports w file (.error ("Error in file " ++ file.name ++ ": " ++ d.render))

theorem Fails.not_answerable {file : SourceFile} {f : Fault} (h : w.Fails file f) :
    ¬w.Answerable file := fun ha => ha f h.read h.unmended

theorem answerable_of_ok {file : SourceFile} {es : List Entry} (h : w.read file = .ok es) :
    w.Answerable file := by
  intro f hf
  rw [h] at hf
  cases hf

theorem answerable_of_error {file : SourceFile} {f : Fault} {d : Diagnostic}
    (h : w.read file = .error f) (hd : f.diagnostic? = some d) : w.Answerable file := by
  intro f' hf'
  rw [h] at hf'
  cases hf'
  simp [hd]

/-- A file of a batch gets its result, or its fault breaks the batch
off. -/
theorem result_cases (w : Worker) (file : SourceFile) :
    (∃ r, w.result file = .ok r ∧ w.Reports file r ∧ w.Answerable file) ∨
      ∃ f, w.result file = .error f ∧ w.Fails file f := by
  cases hr : w.read file with
  | ok es =>
      refine .inl ⟨.ok es, ?_, .entries hr, answerable_of_ok hr⟩
      rw [result, hr]
  | error f =>
      cases hd : f.diagnostic? with
      | some d =>
          refine .inl ⟨_, ?_, .error hr hd, answerable_of_error hr hd⟩
          simp only [result, hr, hd]
      | none =>
          refine .inr ⟨f, ?_, hr, hd⟩
          simp only [result, hr, hd]

/-! ## The answers to a request -/

/-- Progress from the `start`-th file on, for `n` files of `total`. -/
def progressFrom (id : Int) (total start n : Nat) : List Response :=
  (List.range' start n).map fun current => .progress id current total

/-- All that a request is answered with, when nothing breaks it off. -/
inductive Completes (w : Worker) : Request → List Response → Prop
  | entries {id : Int} {file : SourceFile} {es : List Entry} (read : w.read file = .ok es) :
      Completes w (.single id file) [.success id (.entries es)]
  | error {id : Int} {file : SourceFile} {f : Fault} {d : Diagnostic}
      (read : w.read file = .error f) (mended : f.diagnostic? = some d) :
      Completes w (.single id file) [.error id d.render]
  | batch {id : Int} {files : List SourceFile} {rs : List FileResult}
      (results : List.Forall₂ w.Reports files rs) :
      Completes w (.batch id files)
        (progressFrom id files.length 1 files.length ++ [.success id (.results rs)])

/-- The answers keep to the protocol: they are complete, nothing breaks
them off, and each carries the number of the request. -/
structure Protocol (w : Worker) (request : Request) (a : Answers) : Prop where
  complete : w.Completes request a.responses
  unbroken : a.fault = none
  ids : ∀ r ∈ a.responses, r.id = request.id

/-- What has been answered when the files `before` are done. -/
def answeredBefore (before : List SourceFile) : Request → List Response
  | .single _ _ => []
  | .batch id files => progressFrom id files.length 1 before.length

/-- The answers break off, at the first file whose fault nobody can
mend. -/
structure BreaksOff (w : Worker) (request : Request) (a : Answers) : Prop where
  first : ∃ before file after f, request.files = before ++ file :: after ∧
    (∀ x ∈ before, w.Answerable x) ∧ w.Fails file f ∧
    a = ⟨answeredBefore before request, some f⟩
  ids : ∀ r ∈ a.responses, r.id = request.id

theorem id_of_mem_progressFrom {id : Int} {total start n : Nat} {r : Response}
    (h : r ∈ progressFrom id total start n) : r.id = id := by
  obtain ⟨current, -, rfl⟩ := List.mem_map.1 h
  rfl

theorem Completes.id_eq {request : Request} {rs : List Response} (h : w.Completes request rs) :
    ∀ r ∈ rs, r.id = request.id := by
  intro r hr
  cases h with
  | entries read =>
      rw [List.mem_singleton.1 hr]
      rfl
  | error read mended =>
      rw [List.mem_singleton.1 hr]
      rfl
  | batch results =>
      rcases List.mem_append.1 hr with hr | hr
      · exact id_of_mem_progressFrom hr
      · rw [List.mem_singleton.1 hr]
        rfl

/-- A file by itself gets one answer, or its fault leaves it without. -/
theorem single_cases (w : Worker) (id : Int) (file : SourceFile) :
    (∃ r, w.handle (.single id file) = ⟨[r], none⟩ ∧ w.Completes (.single id file) [r] ∧
      w.Answerable file) ∨
    ∃ f, w.handle (.single id file) = ⟨[], some f⟩ ∧ w.Fails file f := by
  cases hr : w.read file with
  | ok es =>
      refine .inl ⟨.success id (.entries es), ?_, .entries hr, answerable_of_ok hr⟩
      rw [handle, hr]
  | error f =>
      cases hd : f.diagnostic? with
      | some d =>
          refine .inl ⟨_, ?_, .error hr hd, answerable_of_error hr hd⟩
          simp only [handle, hr, hd]
      | none =>
          refine .inr ⟨f, ?_, hr, hd⟩
          simp only [handle, hr, hd]

/-- **The rest of a batch**: progress for each file that is left and the
results of all, or progress up to the first file that breaks it off. -/
theorem batch_cases (w : Worker) (id : Int) (total : Nat) (done : List FileResult)
    (files : List SourceFile) :
    (∃ rs, List.Forall₂ w.Reports files rs ∧ (∀ file ∈ files, w.Answerable file) ∧
      w.batch id total done files =
        ⟨progressFrom id total (done.length + 1) files.length ++
          [.success id (.results (done ++ rs))], none⟩) ∨
    ∃ before file after f, files = before ++ file :: after ∧
      (∀ x ∈ before, w.Answerable x) ∧ w.Fails file f ∧
      w.batch id total done files =
        ⟨progressFrom id total (done.length + 1) before.length, some f⟩ := by
  induction files generalizing done with
  | nil =>
      refine .inl ⟨[], .nil, nofun, ?_⟩
      rw [List.append_nil]
      rfl
  | cons file rest ih =>
      unfold batch
      rcases result_cases w file with ⟨r, hr, hreports, hfile⟩ | ⟨f, hf, hfails⟩
      · rw [hr]
        have hlength : (done ++ [r]).length + 1 = done.length + 1 + 1 := by simp
        -- the file is done, and its progress stands before that of the rest
        rcases ih (done ++ [r]) with ⟨rs, hrs, hrest, heq⟩ |
          ⟨before, file', after, f, hsplit, hbefore, hfails, heq⟩
        · refine .inl ⟨r :: rs, .cons hreports hrs, List.forall_mem_cons.2 ⟨hfile, hrest⟩, ?_⟩
          simp only
          rw [heq, hlength, List.append_assoc]
          rfl
        · refine .inr ⟨file :: before, file', after, f, ?_,
            List.forall_mem_cons.2 ⟨hfile, hbefore⟩, hfails, ?_⟩
          · rw [hsplit, List.cons_append]
          · simp only
            rw [heq, hlength]
            rfl
      · rw [hf]
        exact .inr ⟨[], file, rest, f, rfl, nofun, hfails, rfl⟩

/-! ## Workers with the builtin modules -/

/-- Reading with the builtin modules ends in a fault that nobody can mend
exactly when it comes to an integer with too many digits. -/
theorem answerable_builtin (file : SourceFile) :
    ({} : Worker).Answerable file ↔ ¬Builtin.MeetsLongInteger file.name file.text := by
  have hread : ({} : Worker).read file = parseText file.text Builtin.modules file.name := rfl
  rw [← Builtin.parseText_eq_integerTooLong, ← hread]
  constructor
  · intro h hlong
    exact h _ hlong rfl
  · intro h f hf
    rcases Builtin.parseText_error (hread ▸ hf) with ⟨p, -, rfl⟩ | rfl
    · exact Option.some_ne_none _
    · exact absurd hf h

/-! ## The protocol -/

/-- **A request is answered by the protocol unless a file of it has a
fault that nobody can mend**; then the answers break off at the first
such file. -/
theorem handle_outcome (w : Worker) (request : Request) :
    w.Protocol request (w.handle request) ∧ (∀ file ∈ request.files, w.Answerable file) ∨
      w.BreaksOff request (w.handle request) := by
  cases request with
  | single id file =>
      rcases single_cases w id file with ⟨r, heq, hcompletes, hfile⟩ | ⟨f, heq, hfails⟩
      · rw [heq]
        refine .inl ⟨⟨hcompletes, rfl, hcompletes.id_eq⟩, ?_⟩
        intro x hx
        rw [List.mem_singleton.1 hx]
        exact hfile
      · rw [heq]
        exact .inr ⟨⟨[], file, [], f, rfl, nofun, hfails, rfl⟩, List.forall_mem_nil _⟩
  | batch id files =>
      rw [handle]
      rcases batch_cases w id files.length [] files with ⟨rs, hrs, hfiles, heq⟩ |
        ⟨before, file, after, f, hsplit, hbefore, hfails, heq⟩
      · have hcompletes : w.Completes (.batch id files) _ := .batch hrs
        rw [heq]
        exact .inl ⟨⟨hcompletes, rfl, hcompletes.id_eq⟩, hfiles⟩
      · rw [heq]
        exact .inr ⟨⟨before, file, after, f, hsplit, hbefore, hfails, rfl⟩,
          fun r hr => id_of_mem_progressFrom hr⟩

/-- What nothing breaks off was asked for answerable files. -/
theorem answerable_of_unbroken {request : Request} (h : (w.handle request).fault = none) :
    ∀ file ∈ request.files, w.Answerable file := by
  cases request with
  | single id file =>
      rcases single_cases w id file with ⟨r, -, -, hfile⟩ | ⟨f, heq, -⟩
      · intro x hx
        rw [List.mem_singleton.1 hx]
        exact hfile
      · rw [heq] at h
        cases h
  | batch id files =>
      rcases batch_cases w id files.length [] files with ⟨rs, -, hfiles, -⟩ |
        ⟨before, file, after, f, -, -, -, heq⟩
      · exact hfiles
      · rw [handle, heq] at h
        cases h

/-- A batch whose second file holds an integer of 4301 digits is not
answered by the protocol. -/
theorem handle_longClose_breaksOff :
    ¬({} : Worker).Protocol (.batch 7 [⟨"", "empty"⟩, ⟨Builtin.longClose, "books"⟩])
      (({} : Worker).handle (.batch 7 [⟨"", "empty"⟩, ⟨Builtin.longClose, "books"⟩])) := by
  intro h
  have hfile : ({} : Worker).Answerable ⟨Builtin.longClose, "books"⟩ :=
    answerable_of_unbroken h.unbroken _ (by simp [Request.files])
  exact (answerable_builtin _).1 hfile (Builtin.meetsLongInteger_longClose "books")

end Worker
end Daybook
