import Daybook.Grammar
import Daybook.Request

/-!
Workers answer requests. A single file is answered by its entries or by an error; a batch is answered
by the progress after each file and at last by a result for each. A fault that a user can mend is
part of the answer, any other breaks it off.
-/
namespace Daybook

/-- The result for a file of a batch: its entries, or what is said of its fault. -/
abbrev FileResult := Except String (List Entry)

/-- What a request comes to. -/
inductive Outcome where
  | entries (es : List Entry)
  | results (rs : List FileResult)

/-- An answer to a request. Progress may come before; a success or an error is the last. -/
inductive Response where
  | success (id : Int) (outcome : Outcome)
  | error (id : Int) (message : String)
  | progress (id : Int) (current total : Nat)

/-- The number of the request that is answered. -/
def Response.id : Response → Int
  | success id _ => id
  | error id _ => id
  | progress id _ _ => id

/-- Answers in order, and the fault that broke them off, if one did. -/
structure Answers where
  responses : List Response
  fault : Option Fault := none

/-- Reads files with the same modules, readers and checks. -/
structure Worker where
  modules : Except Fault (List Module) := .ok Builtin.modules
  readers : Pairs FieldReader := []
  checks : Pairs Check := []

namespace Worker

/-- Reads a file. -/
def read (w : Worker) (file : SourceFile) : Except Fault (List Entry) := do
  let g ← Grammar.assemble ⟨← w.modules, w.readers, w.checks⟩ file.name
  g.parse file.text

/-- The result for a file of a batch, unless its fault is one that nobody can mend. -/
def result (w : Worker) (file : SourceFile) : Except Fault FileResult :=
  match w.read file with
  | .ok es => .ok (.ok es)
  | .error f =>
    match f.diagnostic? with
    | some d => .ok (.error ("Error in file " ++ file.name ++ ": " ++ d.render))
    | none => .error f

/-- Works through the files that are left of a batch; `done` holds the results so far. -/
def batch (w : Worker) (id : Int) (total : Nat) (done : List FileResult) :
    List SourceFile → Answers
  | [] => ⟨[.success id (.results done)], none⟩
  | file :: rest =>
    match w.result file with
    | .error f => ⟨[], some f⟩
    | .ok r =>
      let later := batch w id total (done ++ [r]) rest
      ⟨.progress id (done.length + 1) total :: later.responses, later.fault⟩

/-- Answers a request. -/
def handle (w : Worker) : Request → Answers
  | .single id file =>
    match w.read file with
    | .ok es => ⟨[.success id (.entries es)], none⟩
    | .error f =>
      match f.diagnostic? with
      | some d => ⟨[.error id d.render], none⟩
      | none => ⟨[], some f⟩
  | .batch id files => w.batch id files.length [] files

/-- Answers a message; one that is no request gets an error. -/
def handleMessage (w : Worker) (message : Value) : Answers :=
  match message.entries with
  | .error f => ⟨[], some f⟩
  | .ok es =>
    match Request.ofMessage es with
    | .ok request => w.handle request
    | .error rejection =>
      match rejection.message with
      | .ok text => ⟨[.error (Request.rejectedId es) text], none⟩
      | .error f => ⟨[], some f⟩

end Worker

/-- Progress as it is told: how many files are done, and of how many. -/
abbrev Progress := List (Nat × Nat)

/-- Hands out ids to requests and waits for what they come to. -/
structure Background where
  answer : Request → Answers
  nextId : Nat := 1

namespace Background

/-- A background that a worker answers. -/
def ofWorker (w : Worker) : Background := { answer := w.handle }

/-- Takes the next id. -/
def takeId (b : Background) : Nat × Background := (b.nextId, { b with nextId := b.nextId + 1 })

/-- What a request comes to, with the progress told before: the first answer that is no progress
decides. A request without such an answer fails. -/
def resolve (id : Int) (fault : Option Fault) : List Response → Progress × Except Fault Outcome
  | [] =>
    ([], .error (fault.getD
      (.requestFailed id ("No terminal response for request " ++ toString id))))
  | .progress _ current total :: rest =>
    let (told, outcome) := resolve id fault rest
    ((current, total) :: told, outcome)
  | .error id message :: _ => ([], .error (.requestFailed id message))
  | .success _ outcome :: _ => ([], .ok outcome)

/-- Runs a request to its end. -/
def run (b : Background) (request : Request) : Progress × Except Fault Outcome :=
  let answers := b.answer request
  resolve request.id answers.fault answers.responses

/-- Reads a file under the next id. -/
def single (b : Background) (file : SourceFile) : Except Fault Outcome × Background :=
  let (id, b) := b.takeId
  ((b.run (.single id file)).2, b)

/-- Reads files under the next id, with the progress that is told. -/
def batch (b : Background) (files : List SourceFile) :
    (Progress × Except Fault Outcome) × Background :=
  let (id, b) := b.takeId
  (b.run (.batch id files), b)

end Background
end Daybook
