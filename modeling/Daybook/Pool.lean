import Daybook.Worker

/-!
Calls of a background that overlap. A call takes the next id, and its job waits in a queue. A fixed
number of workers takes jobs from the front of the queue. Each goes through the answers to its job
one by one, and others may go on in between.
-/
namespace Daybook

/-- A call of a background: one file, or several and whether someone listens to their progress. -/
inductive Call where
  | single (file : SourceFile)
  | batch (files : List SourceFile) (listens : Bool)

/-- A request to be answered, for the future of the call that made it. The futures are counted from
zero in the order of their calls. -/
structure Job where
  future : Nat
  request : Request
  listens : Bool

namespace Call

/-- The request that a call makes under an id. -/
def request (id : Nat) : Call → Request
  | single file => .single id file
  | batch files _ => .batch id files

/-- Someone is told the progress of the call. -/
def listens : Call → Bool
  | single _ => false
  | batch _ listens => listens

/-- The job of a call under an id. -/
def job (future id : Nat) (call : Call) : Job := ⟨future, call.request id, call.listens⟩

end Call

/-- A job under way, with the answers that are still to come. -/
structure Service where
  job : Job
  answers : Answers

/-- Begins to answer a job. -/
def Job.start (answer : Request → Answers) (job : Job) : Service := ⟨job, answer job.request⟩

/-- What is seen of a step: an id that a call takes, progress that the listener of a future is told,
or what a future is settled with. Any other step is silent. -/
inductive Event where
  | drew (id : Nat)
  | told (future : Nat) (progress : Response)
  | settled (future : Nat) (outcome : Except Fault Outcome)
  | silent

/-- Goes on to the next answer. Progress goes to the listener, if there is one, and the service goes
on. Any other answer settles the future, and so does the lack of one. -/
def Service.turn (s : Service) : Event × Option Service :=
  match s.answers.responses with
  | .progress id current total :: rest =>
    (if s.job.listens then .told s.job.future (.progress id current total) else .silent,
      some { s with answers := { s.answers with responses := rest } })
  | responses =>
    (.settled s.job.future
      (Background.resolve s.job.request.id s.answers.fault responses).2, none)

/-- A background and its workers. Of the calls the first `made` have been made; a job that is held
has its id but no place in the queue yet. A worker without a service is free. -/
structure Pool where
  background : Background
  calls : List Call
  made : Nat := 0
  held : List Job := []
  queue : List Job := []
  workers : List (Option Service)

namespace Pool

/-- A pool of `n` free workers, before the first call. -/
def start (w : Worker) (n : Nat) (calls : List Call) : Pool :=
  { background := .ofWorker w, calls, workers := List.replicate n none }

/-- One step of a caller or a worker. -/
inductive Step : Pool → Event → Pool → Prop
  /-- The next call takes its id. -/
  | draw {p : Pool} {call : Call} {id : Nat} {background : Background}
      (next : p.calls[p.made]? = some call) (taken : p.background.takeId = (id, background)) :
      Step p (.drew id)
        { p with background, made := p.made + 1, held := p.held ++ [call.job p.made id] }
  /-- A job comes to the end of the queue. Calls may overtake each other on the way there. -/
  | submit {p : Pool} {before after : List Job} {job : Job}
      (held : p.held = before ++ job :: after) :
      Step p .silent { p with held := before ++ after, queue := p.queue ++ [job] }
  /-- A free worker takes the first job of the queue. -/
  | take {p : Pool} {job : Job} {rest : List Job} {before after : List (Option Service)}
      (queue : p.queue = job :: rest) (workers : p.workers = before ++ none :: after) :
      Step p .silent
        { p with queue := rest, workers := before ++ some (job.start p.background.answer) :: after }
  /-- A worker goes on to the next answer. It is free when the future is settled. -/
  | turn {p : Pool} {s : Service} {e : Event} {left : Option Service}
      {before after : List (Option Service)}
      (workers : p.workers = before ++ some s :: after) (turned : s.turn = (e, left)) :
      Step p e { p with workers := before ++ left :: after }

/-- Steps one after another, in any order of the callers and the workers, and what is seen of
them. -/
inductive Run (start : Pool) : List Event → Pool → Prop
  | refl : Run start [] start
  | snoc {history : List Event} {e : Event} {p p' : Pool} (run : Run start history p)
      (step : Step p e p') : Run start (history ++ [e]) p'

end Pool
end Daybook
