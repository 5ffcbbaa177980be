import Mathlib.Data.List.Nodup
import Henson.Scheduler.Allocation

/-!
# The scheduler as a message-passing system

The controller, one FIFO channel from it to each rank, the `listen` loop on every
rank, and the `job_finished` answers in flight, which arrive in any order. The
fields `scheduled`, `dispatched` and `popped` are histories: no step reads them.
-/

namespace Henson

open TransitionSystem

inductive Message where
  | job (m : JobMessage)
  | stop
  deriving DecidableEq

/-- Where a rank stands in `listen`: probing, creating the job's communicator
(which waits for all ranks of the job), in the runner, or past the loop. -/
inductive Worker where
  | probing
  | creating (m : JobMessage)
  | running (m : JobMessage)
  | stopped
  deriving DecidableEq

/-- The runner's result for a job on one of its ranks; every job is run there once. -/
abbrev Runner := JobMessage → Nat → MemoryBuffer

structure System where
  controller : Controller
  channels : Nat → List Message
  workers : Nat → Worker
  answers : List Answer
  scheduled : List Job
  dispatched : List JobMessage
  popped : List MemoryBuffer

def JobMessage.ranks (m : JobMessage) : Set Nat := Set.Icc m.first m.last

instance (m : JobMessage) (rank : Nat) : Decidable (rank ∈ m.ranks) :=
  inferInstanceAs (Decidable (_ ∧ _))

inductive SystemAction where
  | schedule (name function : StdString) (arg : MemoryBuffer) (groups : ProcMap.Vector)
      (size : Int32)
  | pop
  | control
  | deliver (now : Time) (index : Nat)
  | noAnswer
  | runJob (now : Time)
  | controlReturn
  | finish
  | check
  | signalStop
  | probe (rank : Nat)
  | createComm (m : JobMessage)
  | runnerReturn (rank : Nat)

namespace System

def new (w : World) : System where
  controller := Controller.new w
  channels _ := []
  workers _ := .probing
  answers := []
  scheduled := []
  dispatched := []
  popped := []

def send (s : System) (ranks : Nat → Prop) [DecidablePred ranks] (message : Message) :
    Nat → List Message :=
  fun rank => if ranks rank then s.channels rank ++ [message] else s.channels rank

/-- What a rank sends back, if its runner returned anything, as the controller decodes it. -/
def answerOf (runner : Runner) (m : JobMessage) (rank : Nat) : List Answer :=
  if (runner m rank).empty then []
  else [⟨rank, m.job.id, m.job.name, (runner m rank).nested⟩]

def step (w : World) (runner : Runner) (s : System) : SystemAction → Option System
  | .schedule name function arg groups size => do
    let c ← s.controller.step (.schedule name function arg groups size)
    let job := s.controller.scheduler.newJob name function arg groups size
    return { s with controller := c, scheduled := s.scheduled ++ [job] }
  | .pop => do
    let (mb, _) ← s.controller.scheduler.pop
    let c ← s.controller.step .pop
    return { s with controller := c, popped := s.popped ++ [mb] }
  | .deliver now index => do
    let a ← s.answers[index]?
    let c ← s.controller.step (.answer now a)
    return { s with controller := c, answers := s.answers.eraseIdx index }
  | .runJob now => do
    let (_, m) ← s.controller.scheduler.runJob now
    let c ← s.controller.step (.runJob now)
    return { s with
      controller := c
      channels := s.send (· ∈ m.ranks) (.job m)
      dispatched := s.dispatched ++ [m] }
  | .signalStop => do
    let c ← s.controller.step .signalStop
    return { s with controller := c, channels := s.send (fun rank => 1 ≤ rank ∧ rank < w.size) .stop }
  | .control => do return { s with controller := ← s.controller.step .control }
  | .noAnswer => do return { s with controller := ← s.controller.step .noAnswer }
  | .controlReturn => do return { s with controller := ← s.controller.step .controlReturn }
  | .finish => do return { s with controller := ← s.controller.step .finish }
  | .check => do return { s with controller := ← s.controller.step .check }
  | .probe rank =>
    match s.workers rank, s.channels rank with
    | .probing, .job m :: rest =>
      some { s with
        workers := Function.update s.workers rank (.creating m)
        channels := Function.update s.channels rank rest }
    | .probing, .stop :: rest =>
      some { s with
        workers := Function.update s.workers rank .stopped
        channels := Function.update s.channels rank rest }
    | _, _ => none
  | .createComm m =>
    if m.first ≤ m.last ∧ ∀ rank < m.last + 1, rank ∈ m.ranks → s.workers rank = .creating m then
      some { s with workers := fun rank => if rank ∈ m.ranks then .running m else s.workers rank }
    else none
  | .runnerReturn rank =>
    match s.workers rank with
    | .running m =>
      some { s with
        workers := Function.update s.workers rank .probing
        answers := s.answers ++ answerOf runner m rank }
    | _ => none

end System

def schedulerMachine (w : World) (runner : Runner) : Machine System SystemAction where
  initial := System.new w
  step := System.step w runner

namespace System

theorem controller_step {w : World} {runner : Runner} {s s' : System} {a : SystemAction}
    (h : s.step w runner a = some s') :
    s'.controller = s.controller ∨ ∃ b, s.controller.step b = some s'.controller := by
  cases a with
  | schedule | control | noAnswer | controlReturn | finish | check | signalStop =>
    obtain ⟨c, hc, hs⟩ := Option.bind_eq_some_iff.mp h
    obtain rfl := Option.some.inj hs
    exact .inr ⟨_, hc⟩
  | pop | deliver | runJob =>
    obtain ⟨_, -, hNext⟩ := Option.bind_eq_some_iff.mp h
    obtain ⟨c, hc, hs⟩ := Option.bind_eq_some_iff.mp hNext
    obtain rfl := Option.some.inj hs
    exact .inr ⟨_, hc⟩
  | probe rank =>
    simp only [step] at h
    split at h <;> cases h <;> exact .inl rfl
  | createComm m =>
    simp only [step, Option.ite_none_right_eq_some, Option.some.injEq] at h
    exact .inl (h.2 ▸ rfl)
  | runnerReturn rank =>
    simp only [step] at h
    split at h <;> cases h
    exact .inl rfl

/-- The rest of the system is one of the environments that the controller was verified in. -/
theorem simulates_controller (w : World) (runner : Runner) :
    (schedulerMachine w runner).Simulates (controllerMachine w) System.controller where
  initial := rfl
  step _ _ _ hStep := controller_step hStep

theorem allocated_of_reachable {w : World} {runner : Runner} {s : System}
    (h : (schedulerMachine w runner).Reachable s) : Allocated w s.controller.scheduler :=
  Henson.allocated_of_reachable ((simulates_controller w runner).reachable h)

end System

theorem Scheduler.jobs_of_runJob {s s' : Scheduler} {now : Time} {m : JobMessage}
    (h : s.runJob now = some (s', m)) :
    s.jobs = m.job :: s'.jobs ∧ s'.jobId = s.jobId := by
  simp only [runJob] at h
  split at h
  · cases h
  · rename_i hJobs
    obtain ⟨rfl, rfl⟩ := Prod.mk.inj (Option.some.inj h)
    exact ⟨hJobs, rfl⟩

namespace System

/-- The jobs a rank still has to finish, in the order it will take them. -/
def pipeline (s : System) (rank : Nat) : List JobMessage :=
  (match s.workers rank with
    | .creating m | .running m => [m]
    | .probing | .stopped => []) ++
  (s.channels rank).filterMap fun
    | .job m => some m
    | .stop => none

structure Books where
  scheduler : Scheduler
  pipeline : Nat → List JobMessage
  answers : List Answer
  scheduled : List Job
  dispatched : List JobMessage
  popped : List MemoryBuffer

def books (s : System) : Books :=
  ⟨s.controller.scheduler, s.pipeline, s.answers, s.scheduled, s.dispatched, s.popped⟩

/-- An action seen from the books: most steps only move along a call or a pipeline. -/
inductive Effect (runner : Runner) (b : Books) : SystemAction → Books → Prop
  | quiet (a) : Effect runner b a b
  | schedule (name function arg groups size) :
      Effect runner b (.schedule name function arg groups size) { b with
        scheduler := b.scheduler.schedule name function arg groups size
        scheduled := b.scheduled ++ [b.scheduler.newJob name function arg groups size] }
  | pop (mb results) : b.scheduler.results = mb :: results →
      Effect runner b .pop { b with
        scheduler := { b.scheduler with results := results }
        popped := b.popped ++ [mb] }
  | deliver (now index a rest) : b.answers.Perm (a :: rest) →
      Effect runner b (.deliver now index) { b with
        scheduler := b.scheduler.handleAnswer now a
        answers := rest }
  | dispatch (now m scheduler) : b.scheduler.canRun = true →
      b.scheduler.runJob now = some (scheduler, m) →
      Effect runner b (.runJob now) { b with
        scheduler := scheduler
        pipeline := fun rank => b.pipeline rank ++ if rank ∈ m.ranks then [m] else []
        dispatched := b.dispatched ++ [m] }
  | runnerReturn (rank m rest) : b.pipeline rank = m :: rest →
      Effect runner b (.runnerReturn rank) { b with
        pipeline := Function.update b.pipeline rank rest
        answers := b.answers ++ answerOf runner m rank }

theorem pipeline_send_stop (s : System) (c : Controller) (ranks : Nat → Prop)
    [DecidablePred ranks] :
    pipeline { s with controller := c, channels := s.send ranks .stop } = s.pipeline := by
  funext rank
  by_cases h : ranks rank <;> simp [pipeline, send, h]

theorem pipeline_send_job (s : System) (c : Controller) (m : JobMessage)
    (dispatched : List JobMessage) :
    pipeline { s with
      controller := c, channels := s.send (· ∈ m.ranks) (.job m), dispatched := dispatched } =
      fun rank => s.pipeline rank ++ if rank ∈ m.ranks then [m] else [] := by
  funext rank
  by_cases h : rank ∈ m.ranks <;> simp [pipeline, send, h]

theorem pipeline_probe_job {s : System} {rank : Nat} {m : JobMessage} {rest : List Message}
    (hWorker : s.workers rank = .probing) (hChannel : s.channels rank = .job m :: rest) :
    pipeline { s with
      workers := Function.update s.workers rank (.creating m)
      channels := Function.update s.channels rank rest } = s.pipeline := by
  funext r
  by_cases h : r = rank
  · subst h
    simp [pipeline, hWorker, hChannel]
  · simp [pipeline, h]

theorem pipeline_probe_stop {s : System} {rank : Nat} {rest : List Message}
    (hWorker : s.workers rank = .probing) (hChannel : s.channels rank = .stop :: rest) :
    pipeline { s with
      workers := Function.update s.workers rank .stopped
      channels := Function.update s.channels rank rest } = s.pipeline := by
  funext r
  by_cases h : r = rank
  · subst h
    simp [pipeline, hWorker, hChannel]
  · simp [pipeline, h]

theorem pipeline_createComm {s : System} {m : JobMessage}
    (hCreating : ∀ rank ∈ m.ranks, s.workers rank = .creating m) :
    pipeline { s with
      workers := fun rank => if rank ∈ m.ranks then .running m else s.workers rank } =
      s.pipeline := by
  funext rank
  by_cases h : rank ∈ m.ranks
  · simp [pipeline, h, hCreating rank h]
  · simp [pipeline, h]

theorem pipeline_runnerReturn {s : System} {rank : Nat} {m : JobMessage} (answers : List Answer)
    (hWorker : s.workers rank = .running m) :
    ∃ rest, s.pipeline rank = m :: rest ∧
      pipeline { s with
        workers := Function.update s.workers rank .probing
        answers := answers } = Function.update s.pipeline rank rest := by
  refine ⟨(s.channels rank).filterMap _, by simp only [pipeline, hWorker]; rfl, ?_⟩
  funext r
  by_cases h : r = rank
  · subst h
    simp [pipeline]
  · simp [pipeline, h]

theorem perm_eraseIdx {α : Type} {l : List α} {i : Nat} {a : α} (h : l[i]? = some a) :
    l.Perm (a :: l.eraseIdx i) := by
  obtain ⟨hLt, rfl⟩ := List.getElem?_eq_some_iff.mp h
  have hSplit : l = l.take i ++ l[i] :: l.drop (i + 1) := by
    rw [← List.drop_eq_getElem_cons hLt, List.take_append_drop]
  rw [List.eraseIdx_eq_take_drop_succ]
  conv_lhs => rw [hSplit]
  exact List.perm_middle

theorem books_of_controller {s : System} {a : ControllerAction}
    (hQuiet : ∀ c, s.controller.step a = some c → c.scheduler = s.controller.scheduler)
    {s' : System}
    (h : (do return { s with controller := ← s.controller.step a } : Option System) = some s') :
    s'.books = s.books := by
  obtain ⟨c, hc, hs⟩ := Option.bind_eq_some_iff.mp h
  obtain rfl := Option.some.inj hs
  simp only [books, hQuiet c hc]
  rfl

theorem effect_of_step {w : World} {runner : Runner} {s s' : System} {a : SystemAction}
    (h : s.step w runner a = some s') : Effect runner s.books a s'.books := by
  cases a with
  | schedule name function arg groups size =>
    obtain ⟨c, hc, hs⟩ := Option.bind_eq_some_iff.mp h
    obtain rfl := Option.some.inj hs
    simp only [Controller.step, Option.ite_none_right_eq_some, Option.some.injEq] at hc
    obtain ⟨-, rfl⟩ := hc
    exact .schedule name function arg groups size
  | pop =>
    obtain ⟨⟨mb, rest⟩, hPop, hNext⟩ := Option.bind_eq_some_iff.mp h
    obtain ⟨c, hc, hs⟩ := Option.bind_eq_some_iff.mp hNext
    obtain rfl := Option.some.inj hs
    simp only [Controller.step, hPop, Option.map_some, Option.ite_none_right_eq_some,
      Option.some.injEq] at hc
    obtain ⟨-, rfl⟩ := hc
    simp only [Scheduler.pop] at hPop
    split at hPop
    · cases hPop
    · rename_i results hResults
      cases hPop
      exact .pop mb results hResults
  | deliver now index =>
    obtain ⟨a, ha, hNext⟩ := Option.bind_eq_some_iff.mp h
    obtain ⟨c, hc, hs⟩ := Option.bind_eq_some_iff.mp hNext
    obtain rfl := Option.some.inj hs
    simp only [Controller.step, Option.ite_none_right_eq_some, Option.some.injEq] at hc
    obtain ⟨-, rfl⟩ := hc
    exact .deliver now index a _ (perm_eraseIdx ha)
  | runJob now =>
    obtain ⟨⟨s₁, m⟩, hRun, hNext⟩ := Option.bind_eq_some_iff.mp h
    obtain ⟨c, hc, hs⟩ := Option.bind_eq_some_iff.mp hNext
    obtain rfl := Option.some.inj hs
    simp only [Controller.step, hRun, Option.map_some, Option.ite_none_right_eq_some,
      Option.some.injEq] at hc
    obtain ⟨⟨-, hCanRun⟩, rfl⟩ := hc
    simp only [books, pipeline_send_job]
    exact .dispatch now m s₁ hCanRun hRun
  | signalStop =>
    obtain ⟨c, hc, hs⟩ := Option.bind_eq_some_iff.mp h
    obtain rfl := Option.some.inj hs
    simp only [Controller.step, Option.ite_none_right_eq_some, Option.some.injEq] at hc
    obtain ⟨-, rfl⟩ := hc
    simp only [books, pipeline_send_stop]
    exact .quiet _
  | noAnswer | control | controlReturn | finish | check =>
    suffices hBooks : s'.books = s.books from hBooks ▸ .quiet _
    refine books_of_controller ?_ h
    intro c hc
    simp only [Controller.step] at hc
    split at hc <;> cases hc <;> rfl
  | probe rank =>
    simp only [step] at h
    split at h
    · rename_i m rest hWorker hChannel
      obtain rfl := Option.some.inj h
      simp only [books, pipeline_probe_job hWorker hChannel]
      exact .quiet _
    · rename_i rest hWorker hChannel
      obtain rfl := Option.some.inj h
      simp only [books, pipeline_probe_stop hWorker hChannel]
      exact .quiet _
    · cases h
  | createComm m =>
    simp only [step, Option.ite_none_right_eq_some, Option.some.injEq] at h
    obtain ⟨⟨-, hCreating⟩, rfl⟩ := h
    have hAll : ∀ rank ∈ m.ranks, s.workers rank = .creating m :=
      fun rank hRank => hCreating rank (Nat.lt_succ_of_le hRank.2) hRank
    simp only [books, pipeline_createComm hAll]
    exact .quiet _
  | runnerReturn rank =>
    simp only [step] at h
    split at h
    · rename_i m hWorker
      obtain rfl := Option.some.inj h
      obtain ⟨rest, hHead, hPipeline⟩ :=
        pipeline_runnerReturn (s.answers ++ answerOf runner m rank) hWorker
      simp only [books, hPipeline]
      exact .runnerReturn rank m rest hHead
    · cases h

/-- Jobs get consecutive ids and leave the queue in the order they entered it. -/
structure Numbered (b : Books) : Prop where
  order : b.dispatched.map JobMessage.job ++ b.scheduler.jobs = b.scheduled
  ids : b.scheduled.map Job.id = List.range b.scheduler.jobId

namespace Numbered

variable {b : Books}

theorem nodup (h : Numbered b) :
    (b.dispatched.map (·.job.id) ++ b.scheduler.jobs.map Job.id).Nodup := by
  have hRange := List.nodup_range (n := b.scheduler.jobId)
  rwa [← h.ids, ← h.order, List.map_append, List.map_map] at hRange

theorem eq_of_id (h : Numbered b) {m m' : JobMessage} (hm : m ∈ b.dispatched)
    (hm' : m' ∈ b.dispatched) (hId : m.job.id = m'.job.id) : m = m' :=
  List.inj_on_of_nodup_map (List.nodup_append.mp h.nodup).1 hm hm' hId

theorem schedule (h : Numbered b) (name function arg groups) (size : Int32) :
    Numbered { b with
      scheduler := b.scheduler.schedule name function arg groups size
      scheduled := b.scheduled ++ [b.scheduler.newJob name function arg groups size] } where
  order := by simp only [Scheduler.schedule, ← List.append_assoc, h.order]
  ids := by
    simp only [Scheduler.schedule, List.map_append, h.ids, List.range_succ]
    rfl

theorem dispatch (h : Numbered b) {scheduler : Scheduler} {m : JobMessage}
    (pipeline : Nat → List JobMessage) (hJobs : b.scheduler.jobs = m.job :: scheduler.jobs)
    (hId : scheduler.jobId = b.scheduler.jobId) :
    Numbered { b with
      scheduler := scheduler, pipeline := pipeline, dispatched := b.dispatched ++ [m] } where
  order := by
    simp only [List.map_append, List.map_cons, List.map_nil, List.append_assoc, List.cons_append,
      List.nil_append, ← hJobs, h.order]
  ids := by rw [h.ids, hId]

theorem notMem_dispatched (h : Numbered b) {m : JobMessage} {jobs : List Job}
    (hJobs : b.scheduler.jobs = m.job :: jobs) : m ∉ b.dispatched := by
  intro hOld
  have hHead : m.job.id ∈ b.scheduler.jobs.map Job.id := by simp [hJobs]
  exact (List.nodup_append.mp h.nodup).2.2 _ (List.mem_map_of_mem hOld) _ hHead rfl

theorem step {w : World} {runner : Runner} {s s' : System} {a : SystemAction}
    (h : Numbered s.books) (hStep : s.step w runner a = some s') : Numbered s'.books := by
  have hEffect := effect_of_step hStep
  generalize s'.books = b' at hEffect
  cases hEffect with
  | quiet => exact h
  | schedule name function arg groups size => exact h.schedule name function arg groups size
  | pop | deliver | runnerReturn => exact ⟨h.order, h.ids⟩
  | dispatch now m scheduler hCanRun hRun =>
    obtain ⟨hJobs, hId⟩ := Scheduler.jobs_of_runJob hRun
    exact h.dispatch _ hJobs hId

end Numbered

theorem numbered_of_reachable {w : World} {runner : Runner} {s : System}
    (h : (schedulerMachine w runner).Reachable s) : Numbered s.books :=
  h.invariant (I := fun s => Numbered s.books) ⟨rfl, rfl⟩ fun _ _ _ hInv hStep => hInv.step hStep

end System

end Henson
