import Daybook.Pool
import Daybook.Proofs.Batch
import Mathlib.Data.List.ReduceOption

/-!
# Pool — overlapping calls do not meet

A step of a caller or of a worker makes the call of a future, or is the
turn of its service, or means nothing to it (`Step.bears`). So what a
future has seen of a run is a beginning of what it would see of its call
alone, however the steps of others come between (`Run.seen_isPrefix`).
Alone it would see the progress, if someone listens, and then what the
request comes to by itself (`first_gives`). Runs end, and at the end all
of this has been seen (`wellFounded_step`, `Run.seen_of_rest`).
-/

namespace Daybook

/-! ## What a request comes to by itself -/

/-- Handling the request by itself gives the outcome: the answers are its
progress and a last one, which carries the number of the request. -/
def Worker.Gives (w : Worker) (request : Request) (o : Except Fault Outcome) : Prop :=
  ∃ r, (w.handle request).responses = progressOf request ++ [r] ∧
    r.id = request.id ∧ r.outcome? = some o

theorem Response.not_isFinal_iff {r : Response} : ¬r.IsFinal ↔ r.outcome? = none := not_not

/-- The first final answer decides. -/
theorem Background.resolve_append {id : Int} {fault : Option Fault} {progress rest : List Response}
    {r : Response} {o : Except Fault Outcome} (hp : ∀ x ∈ progress, ¬x.IsFinal)
    (hr : r.outcome? = some o) : (resolve id fault (progress ++ r :: rest)).2 = o := by
  induction progress with
  | nil =>
      cases r with
      | success id outcome => exact Option.some.inj hr
      | error id message => exact Option.some.inj hr
      | progress id current total => cases hr
  | cons x progress ih =>
      have hx := Response.not_isFinal_iff.1 (hp x List.mem_cons_self)
      cases x with
      | success id outcome => cases hx
      | error id message => cases hx
      | progress id current total => exact ih fun y hy => hp y (List.mem_cons_of_mem _ hy)

/-- The progress that the listener of a call is told, if there is one:
`1` to `n` of the `n` files of a batch. -/
def Call.progress (id : Nat) (call : Call) : List Response :=
  if call.listens then Worker.progressOf (call.request id) else []

/-! ## Calls one after another -/

namespace Background

/-- What a call comes to when it is waited for. -/
def wait (b : Background) : Call → Except Fault Outcome × Background
  | .single file => b.single file
  | .batch files _ => ((b.batch files).1.2, (b.batch files).2)

/-- What calls come to when each waits for the one before. -/
def waitAll (b : Background) : List Call → List (Except Fault Outcome)
  | [] => []
  | call :: later => (b.wait call).1 :: waitAll (b.wait call).2 later

theorem wait_eq (b : Background) (call : Call) :
    b.wait call = ((b.run (call.request b.nextId)).2, { b with nextId := b.nextId + 1 }) := by
  cases call with
  | single file => rfl
  | batch files listens => rfl

theorem getElem?_waitAll (answer : Request → Answers) (id k : Nat) (calls : List Call) :
    (waitAll ⟨answer, id⟩ calls)[k]? =
      calls[k]?.map fun call => (run ⟨answer, id⟩ (call.request (id + k))).2 := by
  induction calls generalizing id k with
  | nil => rfl
  | cons call later ih =>
      rw [waitAll, wait_eq]
      cases k with
      | zero => rfl
      | succ k =>
          have hlater := ih (id + 1) k
          rw [Nat.add_right_comm] at hlater
          exact hlater

end Background

/-! ## What is seen of a run -/

namespace Event

/-- The id that was taken. -/
def id? : Event → Option Nat
  | drew id => some id
  | _ => none

/-- The future that sees the event. -/
def future? : Event → Option Nat
  | told future _ => some future
  | settled future _ => some future
  | _ => none

/-- The progress that is told. -/
def progress? : Event → Option Response
  | told _ progress => some progress
  | _ => none

/-- What a future is settled with. -/
def outcome? : Event → Option (Except Fault Outcome)
  | settled _ outcome => some outcome
  | _ => none

end Event

/-- The ids that were taken, in order. -/
def drawn (history : List Event) : List Nat := history.filterMap Event.id?

/-- What the future `k` has seen. -/
def seen (k : Nat) (history : List Event) : List Event := history.filter (·.future? = some k)

/-- The progress that the listener of the future `k` was told. -/
def told (k : Nat) (history : List Event) : List Response :=
  (seen k history).filterMap Event.progress?

/-- What the future `k` was settled with. -/
def outcomes (k : Nat) (history : List Event) : List (Except Fault Outcome) :=
  (seen k history).filterMap Event.outcome?

variable {k : Nat} {history later : List Event}

theorem drawn_append : drawn (history ++ later) = drawn history ++ drawn later :=
  List.filterMap_append

theorem seen_append : seen k (history ++ later) = seen k history ++ seen k later :=
  List.filter_append ..

/-! ## One service -/

namespace Service

variable {s s' : Service}

/-- What a service does with an answer: progress goes to the listener,
anything else is the end. -/
theorem turn_cases (s : Service) :
    (∃ r rest, s.answers.responses = r :: rest ∧ ¬r.IsFinal ∧
      s.turn = (if s.job.listens then .told s.job.future r else .silent,
        some { s with answers := { s.answers with responses := rest } }) ∧
      ∀ id fault, (Background.resolve id fault (r :: rest)).2 =
        (Background.resolve id fault rest).2) ∨
    (∀ r ∈ s.answers.responses.head?, r.IsFinal) ∧
      s.turn = (.settled s.job.future
        (Background.resolve s.job.request.id s.answers.fault s.answers.responses).2, none) := by
  obtain ⟨job, responses, fault⟩ := s
  cases responses with
  | nil => exact .inr ⟨nofun, rfl⟩
  | cons r rest =>
      cases r with
      | success id outcome => exact .inr ⟨by simp [Response.IsFinal, Response.outcome?], rfl⟩
      | error id message => exact .inr ⟨by simp [Response.IsFinal, Response.outcome?], rfl⟩
      | progress id current total =>
          exact .inl ⟨_, rest, rfl, fun h => h rfl, rfl, fun _ _ => rfl⟩

theorem job_turn (h : s' ∈ s.turn.2) : s'.job = s.job := by
  rcases turn_cases s with ⟨r, rest, -, -, hturn, -⟩ | ⟨-, hturn⟩
  · rw [hturn] at h
    cases h
    rfl
  · rw [hturn] at h
    cases h

/-- The progress that the listener of a service is still to be told, if
there is one: what comes before a final answer. -/
def heard (s : Service) : List Response :=
  if s.job.listens then s.answers.responses.takeWhile (·.outcome?.isNone) else []

/-- What a service comes to. -/
def outcome (s : Service) : Except Fault Outcome :=
  (Background.resolve s.job.request.id s.answers.fault s.answers.responses).2

/-- All that the future of a service is still to see. -/
def script (s : Service) : List Event :=
  s.heard.map (.told s.job.future) ++ [.settled s.job.future s.outcome]

/-- A turn shows the future the next part of the script. -/
theorem seen_turn (s : Service) :
    seen s.job.future [s.turn.1] ++ s.turn.2.toList.flatMap script = s.script := by
  rcases turn_cases s with ⟨r, rest, hresponses, hr, hturn, hresolve⟩ | ⟨hfinal, hturn⟩
  · have hnone := Response.not_isFinal_iff.1 hr
    rw [hturn]
    cases hlistens : s.job.listens with
    | true =>
        simp [seen, Event.future?, script, heard, outcome, hlistens, hresponses, hresolve, hnone]
    | false => simp [seen, Event.future?, script, heard, outcome, hlistens, hresponses, hresolve]
  · have hnone : s.answers.responses.takeWhile (·.outcome?.isNone) = [] := by
      cases hresponses : s.answers.responses with
      | nil => rfl
      | cons r rest =>
          have hr : r.outcome? ≠ none := hfinal r (by rw [hresponses]; rfl)
          simp [hr]
    rw [hturn]
    simp [seen, Event.future?, script, heard, outcome, hnone]

/-- A turn shows the other futures nothing. -/
theorem seen_turn_of_ne (h : s.job.future ≠ k) : seen k [s.turn.1] = [] := by
  rcases turn_cases s with ⟨r, rest, -, -, hturn, -⟩ | ⟨-, hturn⟩
  · rw [hturn]
    cases hlistens : s.job.listens with
    | true => simp [seen, Event.future?, h]
    | false => simp [seen, Event.future?]
  · rw [hturn]
    simp [seen, Event.future?, h]

/-- A turn takes no id. -/
theorem drawn_turn (s : Service) : drawn [s.turn.1] = [] := by
  rcases turn_cases s with ⟨r, rest, -, -, hturn, -⟩ | ⟨-, hturn⟩
  · rw [hturn]
    cases s.job.listens with
    | true => rfl
    | false => rfl
  · rw [hturn]
    rfl

end Service

namespace Pool

variable {p p' : Pool} {e : Event} {w : Worker} {n : Nat} {calls : List Call} {call : Call}

/-! ## The services of a future -/

/-- The services of the pool, those of jobs that wait included. -/
def services (p : Pool) : List Service :=
  (p.held ++ p.queue).map (Job.start p.background.answer) ++ p.workers.reduceOption

/-- The services of the future `k`. -/
def view (k : Nat) (p : Pool) : List Service := p.services.filter (·.job.future = k)

theorem filter_own {s : Service} {others : List Service} (h : s.job.future = k) :
    (s :: others).filter (·.job.future = k) = s :: others.filter (·.job.future = k) :=
  List.filter_cons_of_pos (decide_eq_true h)

theorem filter_other {s : Service} {others : List Service} (h : s.job.future ≠ k) :
    (s :: others).filter (·.job.future = k) = others.filter (·.job.future = k) :=
  List.filter_cons_of_neg (by simpa using h)

/-- What a step is to the future `k`: nothing, the call that makes it,
or a turn of its service. -/
inductive Bears (k : Nat) (p : Pool) (e : Event) (p' : Pool) : Prop
  | elsewhere (made : k < p'.made ↔ k < p.made) (view : (p'.view k).Perm (p.view k))
      (nothing : seen k [e] = [])
  | begins {call : Call} (made : p.made = k) (made' : p'.made = k + 1)
      (next : p.calls[k]? = some call)
      (view : (p'.view k).Perm
        ((call.job k p.background.nextId).start p.background.answer :: p.view k))
      (nothing : seen k [e] = [])
  | turns {s : Service} {others : List Service} (own : s.job.future = k) (made : p'.made = p.made)
      (view : (p.view k).Perm (s :: others))
      (view' : (p'.view k).Perm (s.turn.2.toList ++ others)) (event : e = s.turn.1)

/-- A call adds the service of its job. -/
theorem perm_services_held (p : Pool) (job : Job) :
    ({ p with held := p.held ++ [job] } : Pool).services.Perm
      (job.start p.background.answer :: p.services) := by
  simp [services]

/-- A job waits in the queue as it did before. -/
theorem perm_services_submit {before after : List Job} {job : Job}
    (held : p.held = before ++ job :: after) :
    ({ p with held := before ++ after, queue := p.queue ++ [job] } : Pool).services.Perm
      p.services := by
  refine List.Perm.append_right _ (List.Perm.map _ ?_)
  have hlast := List.perm_append_singleton job (before ++ (after ++ p.queue))
  rw [held]
  simpa using hlast.trans List.perm_middle.symm

/-- A worker with a service adds it to those of the others. -/
theorem perm_services_some (p : Pool) (s : Service) (before after : List (Option Service)) :
    ({ p with workers := before ++ some s :: after } : Pool).services.Perm
      (s :: ({ p with workers := before ++ after } : Pool).services) := by
  have hmiddle := @List.perm_middle _ s
    ((p.held ++ p.queue).map (Job.start p.background.answer) ++ before.reduceOption)
    after.reduceOption
  simpa [services, List.reduceOption_append] using hmiddle

/-- A service under way has the answers that its job had before. -/
theorem perm_services_take {job : Job} {rest : List Job} {before after : List (Option Service)}
    (queue : p.queue = job :: rest) (workers : p.workers = before ++ none :: after) :
    ({ p with
        queue := rest
        workers := before ++ some (job.start p.background.answer) :: after } :
      Pool).services.Perm p.services := by
  refine (perm_services_some { p with queue := rest } _ before after).trans ?_
  have hmiddle := @List.perm_middle _ (job.start p.background.answer)
    (p.held.map (Job.start p.background.answer))
    (rest.map (Job.start p.background.answer) ++ (before ++ after).reduceOption)
  simpa [services, queue, workers, List.reduceOption_append] using hmiddle.symm

/-- A turn is that of one service among others. -/
theorem perm_services_turn {s : Service} (left : Option Service)
    {before after : List (Option Service)} (workers : p.workers = before ++ some s :: after) :
    ∃ others, p.services.Perm (s :: others) ∧
      ({ p with workers := before ++ left :: after } : Pool).services.Perm
        (left.toList ++ others) := by
  have hfree := perm_services_some p s before after
  rw [← workers] at hfree
  refine ⟨_, hfree, ?_⟩
  cases left with
  | none => simp [services, List.reduceOption_append]
  | some s' => exact perm_services_some p s' before after

/-- **A step bears on one future at most**: on that of the call that it
makes, or on that of the service whose turn it is. -/
theorem Step.bears (h : Step p e p') (k : Nat) : Bears k p e p' := by
  cases h with
  | @draw call id background next taken =>
      obtain ⟨rfl, rfl⟩ := Prod.mk.inj taken
      have hview := (perm_services_held p (call.job p.made p.background.nextId)).filter
        (·.job.future = k)
      by_cases hk : p.made = k
      · rw [filter_own hk] at hview
        subst hk
        exact .begins rfl rfl next hview rfl
      · rw [filter_other hk] at hview
        refine .elsewhere ?_ hview rfl
        simp only
        omega
  | submit held => exact .elsewhere .rfl ((perm_services_submit held).filter _) rfl
  | take queue workers => exact .elsewhere .rfl ((perm_services_take queue workers).filter _) rfl
  | @turn s e left before after workers turned =>
      obtain ⟨others, hbefore, hafter⟩ := perm_services_turn left workers
      replace hbefore := hbefore.filter (·.job.future = k)
      replace hafter := hafter.filter (·.job.future = k)
      rw [List.filter_append] at hafter
      obtain rfl : s.turn.1 = e := by rw [turned]
      obtain rfl : s.turn.2 = left := by rw [turned]
      have hleft : ∀ s' ∈ s.turn.2.toList, s'.job = s.job :=
        fun s' hs' => Service.job_turn (by simpa using hs')
      by_cases hk : s.job.future = k
      · have hkept : s.turn.2.toList.filter (·.job.future = k) = s.turn.2.toList :=
          List.filter_eq_self.2 fun s' hs' => by simp [hleft s' hs', hk]
        rw [hkept] at hafter
        rw [filter_own hk] at hbefore
        exact .turns hk rfl hbefore hafter rfl
      · have hgone : s.turn.2.toList.filter (·.job.future = k) = [] :=
          List.filter_eq_nil_iff.2 fun s' hs' => by simp [hleft s' hs', hk]
        rw [hgone, List.nil_append] at hafter
        rw [filter_other hk] at hbefore
        exact .elsewhere .rfl (hafter.trans hbefore.symm) (Service.seen_turn_of_ne hk)

/-! ## Where a future stands -/

/-- The service of the `k`-th call as it begins. -/
def first (w : Worker) (k : Nat) (call : Call) : Service := (call.job k (k + 1)).start w.handle

/-- Where a future stands, by its services and by what it has seen: its
call is still to be made; its only service shows what is missing of the
script; or the script is at its end. -/
inductive Stands (w : Worker) (calls : List Call) (made k : Nat) :
    List Service → List Event → Prop
  | ahead (unmade : made ≤ k) : Stands w calls made k [] []
  | underWay {call : Call} {s : Service} {before : List Event} (done : k < made)
      (next : calls[k]? = some call) (whole : before ++ s.script = (first w k call).script) :
      Stands w calls made k [s] before
  | past {call : Call} {before : List Event} (done : k < made)
      (next : calls[k]? = some call) (whole : before = (first w k call).script) :
      Stands w calls made k [] before

theorem Stands.perm {made : Nat} {l l' : List Service} {before : List Event}
    (h : Stands w calls made k l before) (hl : l'.Perm l) : Stands w calls made k l' before := by
  cases h with
  | ahead unmade => rw [List.perm_nil.1 hl]; exact .ahead unmade
  | underWay done next whole => rw [List.perm_singleton.1 hl]; exact .underWay done next whole
  | past done next whole => rw [List.perm_nil.1 hl]; exact .past done next whole

theorem Stands.isPrefix {made : Nat} {l : List Service} {before : List Event}
    (h : Stands w calls made k l before) (hcall : calls[k]? = some call) :
    before <+: (first w k call).script := by
  cases h with
  | ahead unmade => exact List.nil_prefix
  | underWay done next whole =>
      obtain rfl := Option.some.inj (next.symm.trans hcall)
      exact ⟨_, whole⟩
  | past done next whole =>
      obtain rfl := Option.some.inj (next.symm.trans hcall)
      exact whole ▸ List.prefix_rfl

/-- What holds of a pool after a run: the ids go with the calls, and each
future stands where its own service does. -/
structure Inv (w : Worker) (calls : List Call) (history : List Event) (p : Pool) : Prop where
  answer : p.background.answer = w.handle
  own : p.calls = calls
  nextId : p.background.nextId = p.made + 1
  ids : drawn history = List.range' 1 p.made
  stands : ∀ k, Stands w calls p.made k (p.view k) (seen k history)

theorem Inv.start (w : Worker) (n : Nat) (calls : List Call) :
    Inv w calls [] (.start w n calls) := by
  refine ⟨rfl, rfl, rfl, rfl, fun k => ?_⟩
  have hnone : view k (.start w n calls) = [] := by
    simp [view, services, Pool.start, List.reduceOption_replicate_none]
  rw [hnone]
  exact .ahead k.zero_le

/-- A step of the pool is a step of the future or leaves it where it
stands. -/
theorem Inv.stands_step (h : Inv w calls history p) (hb : Bears k p e p') :
    Stands w calls p'.made k (p'.view k) (seen k (history ++ [e])) := by
  have hstands := h.stands k
  rw [seen_append]
  cases hb with
  | elsewhere made view nothing =>
      rw [nothing, List.append_nil]
      refine Stands.perm ?_ view
      generalize p.view k = l, seen k history = before at hstands
      cases hstands with
      | ahead unmade => exact .ahead (by omega)
      | underWay done next whole => exact .underWay (made.2 done) next whole
      | past done next whole => exact .past (made.2 done) next whole
  | begins made made' next view nothing =>
      rw [nothing, List.append_nil]
      refine Stands.perm ?_ view
      rw [h.answer, h.nextId, made]
      generalize p.view k = l, seen k history = before at hstands
      cases hstands with
      | ahead unmade => exact .underWay (by omega) (h.own ▸ next) rfl
      | underWay done next whole => omega
      | past done next whole => omega
  | @turns s others own made view view' event =>
      subst event
      rw [made]
      refine Stands.perm ?_ view'
      -- the future has no service but the one whose turn it is
      replace hstands := hstands.perm view.symm
      generalize seen k history = before at hstands
      cases hstands with
      | underWay done next whole =>
          rw [List.append_nil]
          have hturn := s.seen_turn
          rw [own] at hturn
          rw [← hturn, ← List.append_assoc] at whole
          cases hleft : s.turn.2 with
          | none =>
              rw [hleft] at whole
              exact .past done next (by simpa using whole)
          | some s' =>
              rw [hleft] at whole
              exact .underWay done next (by simpa using whole)

theorem Inv.step (h : Inv w calls history p) (hs : Step p e p') :
    Inv w calls (history ++ [e]) p' := by
  have hstands := fun k => h.stands_step (hs.bears k)
  obtain ⟨hanswer, hown, hnextId, hids, -⟩ := h
  have hnone (he : drawn [e] = []) : drawn (history ++ [e]) = List.range' 1 p.made := by
    rw [drawn_append, he, List.append_nil, hids]
  cases hs with
  | draw next taken =>
      obtain ⟨rfl, rfl⟩ := Prod.mk.inj taken
      refine ⟨hanswer, hown, congrArg (· + 1) hnextId, ?_, hstands⟩
      rw [drawn_append, hids, List.range'_concat, hnextId, Nat.one_mul, Nat.add_comm 1]
      rfl
  | submit held => exact ⟨hanswer, hown, hnextId, hnone rfl, hstands⟩
  | take queue workers => exact ⟨hanswer, hown, hnextId, hnone rfl, hstands⟩
  | @turn s e left before after workers turned =>
      obtain rfl : s.turn.1 = e := by rw [turned]
      exact ⟨hanswer, hown, hnextId, hnone s.drawn_turn, hstands⟩

theorem Run.inv (h : Run (.start w n calls) history p) : Inv w calls history p := by
  induction h with
  | refl => exact Inv.start w n calls
  | snoc run step ih => exact ih.step step

/-- **What a future sees of a run is a beginning of what it sees of its
call alone.** -/
theorem Run.seen_isPrefix (h : Run (.start w n calls) history p) (hcall : calls[k]? = some call) :
    seen k history <+: (first w k call).script :=
  (h.inv.stands k).isPrefix hcall

/-! ## What a call is served -/

/-- **What a call sees alone**: its progress, if someone listens, and
then what its request comes to. -/
theorem first_gives
    (hfinal : ∃ r ∈ (w.handle (call.request (k + 1))).responses, r.IsFinal) :
    w.Gives (call.request (k + 1)) (first w k call).outcome ∧
      (first w k call).heard = call.progress (k + 1) := by
  obtain ⟨r, hr, hr'⟩ := hfinal
  have hprotocol := Worker.protocol_of_isFinal hr hr'
  obtain ⟨last, hsplit, hlast⟩ := hprotocol.complete.split
  obtain ⟨o, ho⟩ := Option.ne_none_iff_exists'.1 hlast
  have hprogress : ∀ x ∈ Worker.progressOf (call.request (k + 1)), ¬x.IsFinal :=
    fun x => Worker.not_isFinal_of_mem_progressOf
  constructor
  · have hid : last.id = (call.request (k + 1)).id := hprotocol.ids last (by rw [hsplit]; simp)
    have houtcome : (first w k call).outcome = o := by
      simp only [first, Job.start, Call.job, Service.outcome, hsplit]
      exact Background.resolve_append hprogress ho
    exact ⟨last, hsplit, hid, houtcome ▸ ho⟩
  · have htake : (Worker.progressOf (call.request (k + 1)) ++ [last]).takeWhile
        (·.outcome?.isNone) = Worker.progressOf (call.request (k + 1)) := by
      rw [List.takeWhile_append_of_pos]
      · simp [ho]
      · intro x hx
        rw [Response.not_isFinal_iff.1 (hprogress x hx)]
        rfl
    simp only [first, Job.start, Call.job, Service.heard, hsplit, htake, Call.progress]

/-- An element that is not in a list can only come behind all of it. -/
theorem eq_of_append_cons_isPrefix {α : Type} {l before after : List α} {x y : α}
    (h : before ++ x :: after <+: l ++ [y]) (hx : x ∉ l) : before = l ∧ after = [] := by
  rcases List.prefix_concat_iff.1 h with heq | hwithin
  · rcases List.eq_nil_or_concat after with rfl | ⟨between, z, rfl⟩
    · exact ⟨(List.append_inj' heq rfl).1, rfl⟩
    · have hlast : (before ++ x :: between) ++ [z] = l ++ [y] := by simpa using heq
      have hl : before ++ x :: between = l := (List.append_inj' hlast rfl).1
      exact absurd (by simp [← hl]) hx
  · exact absurd (hwithin.subset (by simp)) hx

section

variable {o : Except Fault Outcome} {progress : List Response}

theorem filterMap_told (k : Nat) (progress : List Response) :
    (progress.map (.told k)).filterMap Event.progress? = progress := by
  rw [List.filterMap_map]
  exact List.filterMap_some

theorem outcomes_isPrefix (h : seen k history <+: progress.map (.told k) ++ [.settled k o]) :
    outcomes k history <+: [o] := by
  have hnone : (progress.map (.told k)).filterMap Event.outcome? = [] :=
    List.filterMap_eq_nil_iff.2 (List.forall_mem_map.2 fun _ _ => rfl)
  simpa [outcomes, hnone, Event.outcome?] using h.filterMap Event.outcome?

theorem told_isPrefix (h : seen k history <+: progress.map (.told k) ++ [.settled k o]) :
    told k history <+: progress := by
  have hnone : [Event.settled k o].filterMap Event.progress? = [] := rfl
  have htold := h.filterMap Event.progress?
  rwa [List.filterMap_append, filterMap_told, hnone, List.append_nil] at htold

/-- All the progress is told before the future is settled. -/
theorem told_of_settled (h : seen k history <+: progress.map (.told k) ++ [.settled k o])
    {before after : List Event} {o' : Except Fault Outcome}
    (hsplit : history = before ++ .settled k o' :: after) :
    told k before = progress ∧ told k after = [] := by
  have hseen : seen k history = seen k before ++ .settled k o' :: seen k after := by
    rw [hsplit]
    simp [seen, Event.future?]
  have hnot : Event.settled k o' ∉ progress.map (.told k) := by simp
  obtain ⟨hbefore, hafter⟩ := eq_of_append_cons_isPrefix (hseen ▸ h) hnot
  constructor
  · rw [told, hbefore, filterMap_told]
  · rw [told, hafter, List.filterMap_nil]

end

/-- The future of the `k`-th call is served as if its request were the
only one: it is settled once at most, with what the request comes to by
itself; and the listener is told the progress of this request, all of it
before the future is settled and nothing after. -/
structure Served (w : Worker) (k : Nat) (call : Call) (history : List Event) : Prop where
  once : (outcomes k history).length ≤ 1
  outcome : ∀ o ∈ outcomes k history, w.Gives (call.request (k + 1)) o
  progress : told k history <+: call.progress (k + 1)
  complete : ∀ before o after, history = before ++ .settled k o :: after →
    told k before = call.progress (k + 1) ∧ told k after = []

/-- **Overlapping calls do not meet.** Of a run of a pool with any number
of workers, in any order of their steps, the ids are `1`, `2` and so on,
and each call that is answered to its end by itself is served as if it
were the only one. -/
theorem Run.served (h : Run (.start w n calls) history p) :
    drawn history = List.range' 1 p.made ∧ (drawn history).Nodup ∧
      ∀ k call, calls[k]? = some call →
        (∃ r ∈ (w.handle (call.request (k + 1))).responses, r.IsFinal) →
        Served w k call history := by
  have hids := h.inv.ids
  refine ⟨hids, hids ▸ List.nodup_range', fun k call hcall hfinal => ?_⟩
  obtain ⟨hgives, hheard⟩ := first_gives hfinal
  have hseen := h.seen_isPrefix hcall
  have houtcomes := outcomes_isPrefix hseen
  refine ⟨houtcomes.length_le, ?_, ?_, ?_⟩
  · intro o ho
    rwa [List.mem_singleton.1 (houtcomes.subset ho)]
  · exact hheard ▸ told_isPrefix hseen
  · exact hheard ▸ fun before o after hsplit => told_of_settled hseen hsplit

/-- A batch of two empty files with a listener, and an empty file. -/
def twoCalls : List Call := [.batch [⟨"", "empty"⟩, ⟨"", "blank"⟩] true, .single ⟨"", "books"⟩]

/-- The second call overtakes the first on the way to the queue, and is
settled between two answers to the batch. -/
def overlapping : List Event :=
  [.drew 1, .drew 2, .silent, .silent, .silent, .silent, .told 0 (.progress 1 1 2),
    .settled 1 (.ok (.entries [])), .told 0 (.progress 1 2 2),
    .settled 0 (.ok (.results [.ok [], .ok []]))]

theorem run_overlapping : ∃ p, Run (.start {} 2 twoCalls) overlapping p := by
  have hcalled := ((@Run.refl (.start {} 2 twoCalls)).snoc (.draw rfl rfl)).snoc (.draw rfl rfl)
  have hqueued := (hcalled.snoc (@Step.submit _ [_] [] _ rfl)).snoc (@Step.submit _ [] [] _ rfl)
  have htaken := (hqueued.snoc (@Step.take _ _ _ [] [none] rfl rfl)).snoc
    (@Step.take _ _ _ [some _] [] rfl rfl)
  have htold := htaken.snoc (@Step.turn _ _ _ _ [some _] [] rfl (by with_unfolding_all rfl))
  have hsettled := htold.snoc (@Step.turn _ _ _ _ [] [some _] rfl (by with_unfolding_all rfl))
  have hagain := hsettled.snoc (@Step.turn _ _ _ _ [none] [] rfl (by with_unfolding_all rfl))
  have hlast := hagain.snoc (@Step.turn _ _ _ _ [none] [] rfl (by with_unfolding_all rfl))
  exact ⟨_, hlast⟩

/-- Both calls are served while they overlap. -/
theorem served_overlapping : ∃ p, Run (.start {} 2 twoCalls) overlapping p ∧
    drawn overlapping = List.range' 1 p.made ∧
    ∀ k call, twoCalls[k]? = some call → Served {} k call overlapping := by
  obtain ⟨p, hrun⟩ := run_overlapping
  obtain ⟨hids, -, hserved⟩ := Run.served hrun
  have hbatch : .success 1 (.results [.ok [], .ok []]) ∈
      (({} : Worker).handle (.batch 1 [⟨"", "empty"⟩, ⟨"", "blank"⟩])).responses :=
    List.mem_of_getLast? (by with_unfolding_all rfl)
  have hsingle : .success 2 (.entries []) ∈
      (({} : Worker).handle (.single 2 ⟨"", "books"⟩)).responses :=
    List.mem_of_getLast? (by with_unfolding_all rfl)
  refine ⟨p, hrun, hids, fun k call hcall => hserved k call hcall ?_⟩
  rcases k with _ | _ | k
  · cases hcall
    exact ⟨_, hbatch, Option.some_ne_none _⟩
  · cases hcall
    exact ⟨_, hsingle, Option.some_ne_none _⟩
  · cases hcall

/-- **A future is settled with what its call comes to when each call
waits for the one before.** -/
theorem Run.outcome_eq_waitAll (h : Run (.start w n calls) history p)
    (hcall : calls[k]? = some call) {o : Except Fault Outcome} (ho : o ∈ outcomes k history) :
    ((Background.ofWorker w).waitAll calls)[k]? = some o := by
  have houtcome := List.mem_singleton.1
    ((outcomes_isPrefix (h.seen_isPrefix hcall)).subset ho)
  rw [Background.ofWorker, Background.getElem?_waitAll, hcall, houtcome, Nat.add_comm 1]
  rfl

/-! ## Rest -/

theorem Step.length_workers (h : Step p e p') : p'.workers.length = p.workers.length := by
  cases h with
  | draw next taken => rfl
  | submit held => rfl
  | take queue workers => simp [workers]
  | turn workers turned => simp [workers]

theorem Run.length_workers (h : Run (.start w n calls) history p) : p.workers.length = n := by
  induction h with
  | refl => exact List.length_replicate
  | snoc run step ih => exact step.length_workers.trans ih

/-- The most steps that the services under way can take: one for each
answer, and a last one. -/
def turnsLeft (workers : List (Option Service)) : Nat :=
  (workers.reduceOption.flatMap (·.answers.responses)).length + workers.reduceOption.length

/-- A turn uses up an answer, or ends the service. -/
theorem turnsLeft_turn {s : Service} (before after : List (Option Service)) :
    turnsLeft (before ++ s.turn.2 :: after) < turnsLeft (before ++ some s :: after) := by
  rcases s.turn_cases with ⟨r, rest, hresponses, -, hturn, -⟩ | ⟨-, hturn⟩
  · simp [turnsLeft, hturn, hresponses, List.reduceOption_append]
  · simp [turnsLeft, hturn, List.reduceOption_append]
    omega

/-- The calls to be made, the jobs that are held, the queue, and the
turns of the services under way: a step lowers one of them and keeps
those named before it. -/
def rank (p : Pool) : Nat × Nat × Nat × Nat :=
  (p.calls.length - p.made, p.held.length, p.queue.length, turnsLeft p.workers)

/-- **No run goes on forever.** -/
theorem wellFounded_step : WellFounded fun p' p => ∃ e, Step p e p' := by
  refine Subrelation.wf ?_ (InvImage.wf rank WellFoundedRelation.wf)
  rintro p' p ⟨e, hs⟩
  cases hs with
  | draw next taken =>
      have hmade := (List.getElem?_eq_some_iff.1 next).1
      have hcalls : p.calls.length - (p.made + 1) < p.calls.length - p.made := by omega
      exact Prod.Lex.left _ _ hcalls
  | @submit before after job held =>
      have hheld : (before ++ after).length < p.held.length := by simp [held]
      exact Prod.Lex.right _ (Prod.Lex.left _ _ hheld)
  | @take job rest before after queue workers =>
      have hqueue : rest.length < p.queue.length := by simp [queue]
      exact Prod.Lex.right _ (Prod.Lex.right _ (Prod.Lex.left _ _ hqueue))
  | @turn s e left before after workers turned =>
      obtain rfl : s.turn.2 = left := by rw [turned]
      have hturns : turnsLeft (before ++ s.turn.2 :: after) < turnsLeft p.workers :=
        workers ▸ turnsLeft_turn before after
      exact Prod.Lex.right _ (Prod.Lex.right _ (Prod.Lex.right _ hturns))

/-- A pool with a worker that can take no step has all its services
behind it. -/
theorem services_eq_nil_of_rest (hworkers : 0 < p.workers.length)
    (hrest : ∀ e p', ¬Step p e p') : p.services = [] := by
  have hheld : p.held = [] := by
    cases hheld : p.held with
    | nil => rfl
    | cons job later => exact absurd (@Step.submit p [] later job hheld) (hrest _ _)
  have hfree : ∀ s, s ∉ p.workers.reduceOption := by
    intro s hs
    obtain ⟨before, after, hworkers⟩ := List.append_of_mem (List.reduceOption_mem_iff.1 hs)
    exact hrest _ _ (.turn hworkers rfl)
  have hqueue : p.queue = [] := by
    cases hqueue : p.queue with
    | nil => rfl
    | cons job later =>
        cases hfirst : p.workers with
        | nil => simp [hfirst] at hworkers
        | cons worker others =>
            cases worker with
            | none => exact absurd (@Step.take p job later [] others hqueue hfirst) (hrest _ _)
            | some s => exact absurd (by simp [hfirst]) (hfree s)
  simp [services, hheld, hqueue, List.eq_nil_iff_forall_not_mem.2 hfree]

/-- **Where nothing is left to do, each call has seen all that it sees
alone**; so its future is settled. -/
theorem Run.seen_of_rest (h : Run (.start w n calls) history p) (hn : 0 < n)
    (hrest : ∀ e p', ¬Step p e p') (hcall : calls[k]? = some call) :
    seen k history = (first w k call).script := by
  have hworkers : 0 < p.workers.length := h.length_workers ▸ hn
  have hnone : p.view k = [] := by
    rw [view, services_eq_nil_of_rest hworkers hrest, List.filter_nil]
  have hstands := h.inv.stands k
  rw [hnone] at hstands
  generalize seen k history = before at hstands
  cases hstands with
  | ahead unmade =>
      have hlt := (List.getElem?_eq_some_iff.1 hcall).1
      obtain ⟨later, hnext⟩ : ∃ later, p.calls[p.made]? = some later := by
        rw [h.inv.own]
        exact ⟨_, List.getElem?_eq_getElem (unmade.trans_lt hlt)⟩
      exact absurd (Step.draw hnext rfl) (hrest _ _)
  | past done next whole =>
      obtain rfl := Option.some.inj (next.symm.trans hcall)
      exact whole

end Pool
end Daybook
