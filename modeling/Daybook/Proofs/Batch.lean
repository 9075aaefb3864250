import Daybook.Proofs.Worker

/-!
# Batch — a batch and its files one by one

A batch and a single file are answered on two paths of their own. A
batch that is answered to its end holds for each file what the file is
answered with when it is asked for by itself (`Matches`), whatever the
other files are. It is answered to its end exactly when each of its
files would be (`isFinal_batch`).
-/

namespace Daybook

/-- What a response settles its request with; progress settles
nothing. -/
def Response.outcome? : Response → Option (Except Fault Outcome)
  | success _ outcome => some (.ok outcome)
  | error id message => some (.error (.requestFailed id message))
  | progress _ _ _ => none

/-- The request is settled by the response. -/
def Response.IsFinal (r : Response) : Prop := r.outcome? ≠ none

namespace Worker

variable {w : Worker}

/-! ## Final responses -/

theorem not_isFinal_of_mem_progressFrom {id : Int} {total start n : Nat} {r : Response}
    (h : r ∈ progressFrom id total start n) : ¬r.IsFinal := by
  obtain ⟨current, -, rfl⟩ := List.mem_map.1 h
  exact fun hr => hr rfl

/-- The progress of a request: after each file of a batch. -/
def progressOf : Request → List Response
  | .single _ _ => []
  | .batch id files => progressFrom id files.length 1 files.length

theorem not_isFinal_of_mem_progressOf {request : Request} {r : Response}
    (h : r ∈ progressOf request) : ¬r.IsFinal := by
  cases request with
  | single id file => exact absurd h List.not_mem_nil
  | batch id files => exact not_isFinal_of_mem_progressFrom h

/-- Complete answers are the progress and one final response. -/
theorem Completes.split {request : Request} {rs : List Response} (h : w.Completes request rs) :
    ∃ r, rs = progressOf request ++ [r] ∧ r.IsFinal := by
  cases h with
  | entries read => exact ⟨_, rfl, Option.some_ne_none _⟩
  | error read mended => exact ⟨_, rfl, Option.some_ne_none _⟩
  | batch results => exact ⟨_, rfl, Option.some_ne_none _⟩

/-- Answers that break off have no final response. -/
theorem BreaksOff.not_isFinal {request : Request} {a : Answers} (h : w.BreaksOff request a)
    {r : Response} (hr : r ∈ a.responses) : ¬r.IsFinal := by
  obtain ⟨before, file, after, f, -, -, -, rfl⟩ := h.first
  cases request with
  | single id file => exact absurd hr List.not_mem_nil
  | batch id files => exact not_isFinal_of_mem_progressFrom hr

/-- What has a final response is answered by the protocol. -/
theorem protocol_of_isFinal {request : Request} {r : Response}
    (hr : r ∈ (w.handle request).responses) (hfinal : r.IsFinal) :
    w.Protocol request (w.handle request) := by
  rcases w.handle_outcome request with ⟨hprotocol, -⟩ | hbreaks
  · exact hprotocol
  · exact absurd hfinal (hbreaks.not_isFinal hr)

/-- A request has a final response exactly when something can be said
of each of its files. -/
theorem isFinal_iff (w : Worker) (request : Request) :
    (∃ r ∈ (w.handle request).responses, r.IsFinal) ↔
      ∀ file ∈ request.files, w.Answerable file := by
  constructor
  · rintro ⟨r, hr, hfinal⟩
    exact answerable_of_unbroken (protocol_of_isFinal hr hfinal).unbroken
  · intro hfiles
    rcases w.handle_outcome request with ⟨hprotocol, -⟩ | hbreaks
    · obtain ⟨r, hsplit, hr⟩ := hprotocol.complete.split
      exact ⟨r, hsplit ▸ List.mem_append_right _ List.mem_cons_self, hr⟩
    · obtain ⟨before, file, after, f, hsplit, -, hfails, -⟩ := hbreaks.first
      have hmem : file ∈ request.files := by rw [hsplit]; simp
      exact absurd (hfiles file hmem) hfails.not_answerable

/-- A batch has a final response exactly when each of its files has one
by itself. -/
theorem isFinal_batch (w : Worker) (id : Int) (files : List SourceFile) :
    (∃ r ∈ (w.handle (.batch id files)).responses, r.IsFinal) ↔
      ∀ file ∈ files, ∃ r ∈ (w.handle (.single id file)).responses, r.IsFinal := by
  simp only [isFinal_iff, Request.files, List.mem_singleton, forall_eq]

/-! ## The result of a file -/

/-- A file has the result in a batch that goes with the answer to the
file by itself: the entries of a success, or the message of an error
behind the name of the file. -/
inductive Matches (w : Worker) (file : SourceFile) : FileResult → Prop
  | entries {es : List Entry}
      (alone : ∀ id, w.handle (.single id file) = ⟨[.success id (.entries es)], none⟩) :
      Matches w file (.ok es)
  | error {message : String}
      (alone : ∀ id, w.handle (.single id file) = ⟨[.error id message], none⟩) :
      Matches w file (.error ("Error in file " ++ file.name ++ ": " ++ message))

theorem Reports.matches {file : SourceFile} {r : FileResult} (h : w.Reports file r) :
    w.Matches file r := by
  cases h with
  | entries read => exact .entries fun id => by rw [handle, read]
  | error read mended => exact .error fun id => by simp only [handle, read, mended]

/-- The answer to the file by itself leaves no choice. -/
theorem Matches.unique {file : SourceFile} {r r' : FileResult} (h : w.Matches file r)
    (h' : w.Matches file r') : r = r' := by
  cases h with
  | entries alone =>
      cases h' with
      | entries alone' => cases (alone 0).symm.trans (alone' 0); rfl
      | error alone' => cases (alone 0).symm.trans (alone' 0)
  | error alone =>
      cases h' with
      | entries alone' => cases (alone 0).symm.trans (alone' 0)
      | error alone' => cases (alone 0).symm.trans (alone' 0); rfl

/-- The final response of a batch holds the results of its files. -/
theorem results_of_isFinal {id : Int} {files : List SourceFile} {r : Response}
    (hr : r ∈ (w.handle (.batch id files)).responses) (hfinal : r.IsFinal) :
    ∃ rs, r = .success id (.results rs) ∧ List.Forall₂ w.Matches files rs := by
  generalize heq : (w.handle (.batch id files)).responses = answers at hr
  have hcomplete := heq ▸ (protocol_of_isFinal (heq.symm ▸ hr) hfinal).complete
  cases hcomplete with
  | batch results =>
      rcases List.mem_append.1 hr with hr | hr
      · exact absurd hfinal (not_isFinal_of_mem_progressFrom hr)
      · exact ⟨_, List.mem_singleton.1 hr, results.imp fun _ _ => Reports.matches⟩

theorem exists_matches_of_getElem? {files : List SourceFile} {rs : List FileResult}
    (h : List.Forall₂ w.Matches files rs) {i : Nat} {file : SourceFile}
    (hfile : files[i]? = some file) : ∃ r, rs[i]? = some r ∧ w.Matches file r := by
  induction h generalizing i with
  | nil => cases hfile
  | cons hmatch _ ih =>
      cases i with
      | zero =>
          cases hfile
          exact ⟨_, rfl, hmatch⟩
      | succ i => exact ih hfile

/-- **A batch answers for each file as if the file were alone.** Its
final response holds the results that go with the answers to the files
by themselves, and a file has the same result at any place of any other
batch that is answered to its end. -/
theorem handle_batch {id : Int} {files : List SourceFile} {r : Response}
    (hr : r ∈ (w.handle (.batch id files)).responses) (hfinal : r.IsFinal) :
    ∃ rs, r = .success id (.results rs) ∧ List.Forall₂ w.Matches files rs ∧
      ∀ id' files' r', r' ∈ (w.handle (.batch id' files')).responses → r'.IsFinal →
        ∃ rs', r' = .success id' (.results rs') ∧
          ∀ (i j : Nat) file, files[i]? = some file → files'[j]? = some file →
            ∃ result, rs[i]? = some result ∧ rs'[j]? = some result := by
  obtain ⟨rs, rfl, hmatches⟩ := results_of_isFinal hr hfinal
  refine ⟨rs, rfl, hmatches, fun id' files' r' hr' hfinal' => ?_⟩
  obtain ⟨rs', rfl, hmatches'⟩ := results_of_isFinal hr' hfinal'
  refine ⟨rs', rfl, fun i j file hi hj => ?_⟩
  obtain ⟨result, hresult, hmatch⟩ := exists_matches_of_getElem? hmatches hi
  obtain ⟨result', hresult', hmatch'⟩ := exists_matches_of_getElem? hmatches' hj
  obtain rfl := hmatch.unique hmatch'
  exact ⟨result, hresult, hresult'⟩

/-- An empty file and a note whose comment nothing closes. -/
def emptyAndOpen : List SourceFile := [⟨"", "empty"⟩, ⟨"2024-01-01 note Ab \"x", "books"⟩]

/-- The note fails in a batch with an empty file as it does alone. -/
theorem handle_batch_emptyAndOpen :
    ∃ message, .success 7 (.results [.ok [], .error message]) ∈
        (({} : Worker).handle (.batch 7 emptyAndOpen)).responses ∧
      List.Forall₂ ({} : Worker).Matches emptyAndOpen [.ok [], .error message] := by
  obtain ⟨message, hanswers⟩ : ∃ message,
      (({} : Worker).handle (.batch 7 emptyAndOpen)).responses =
        [.progress 7 1 2, .progress 7 2 2, .success 7 (.results [.ok [], .error message])] :=
    ⟨_, by with_unfolding_all rfl⟩
  have hr : .success 7 (.results [.ok [], .error message]) ∈
      (({} : Worker).handle (.batch 7 emptyAndOpen)).responses := by
    rw [hanswers]
    simp
  obtain ⟨rs, heq, hmatches, -⟩ := handle_batch hr (Option.some_ne_none _)
  cases heq
  exact ⟨message, hr, hmatches⟩

end Worker
end Daybook
