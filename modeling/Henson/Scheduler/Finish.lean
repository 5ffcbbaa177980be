import Henson.Scheduler.ExactlyOnce
import Henson.Scheduler.WorkOrder

/-!
# What `finish` waits for

`control` counts a job as unfinished while it is queued or active, the waiting loop of
`finish` only while it is active. A job in the queue when `finish` is called stays there:
nothing in `finish` runs it, and the stop messages are sent without it.
-/

namespace Henson

open TransitionSystem

namespace System

/-- The record of a job in `job_times_` and, at the same place, the result of one of its ranks
in `results_` or popped from there. -/
def Books.Recorded (runner : Runner) (b : Books) (m : JobMessage) : Prop :=
  ∃ t mb, (t, mb) ∈ b.scheduler.jobTimes.zip (b.popped ++ b.scheduler.results) ∧
    t.id = m.job.id ∧ t.name = m.job.name ∧ ∃ rank, m.Returned runner rank mb

/-- A job went to as many ranks as it asked for, and its answer is recorded. -/
def Completed (runner : Runner) (s : System) (job : Job) : Prop :=
  ∃ m ∈ s.dispatched, m.job = job ∧ m.last + 1 = m.first + job.size ∧ s.books.Recorded runner m

/-- Whatever the runners return: an answer is of a job that was dispatched, and a dispatched job
is active until its first answer is recorded. -/
structure Traced (runner : Runner) (b : Books) : Prop extends Sourced runner b where
  block : ∀ m ∈ b.dispatched, m.last + 1 = m.first + m.job.size
  length : b.scheduler.jobTimes.length = (b.popped ++ b.scheduler.results).length
  recorded : ∀ m ∈ b.dispatched, (∃ aj, b.scheduler.Active m.job.id aj) ∨ b.Recorded runner m

namespace Traced

variable {runner : Runner} {b : Books}

theorem new (w : World) : Traced runner (System.new w).books where
  pipeline := by simp [System.new, System.books, System.pipeline]
  answers := by simp [System.new, System.books]
  block := by simp [System.new, System.books]
  length := rfl
  recorded := by simp [System.new, System.books]

theorem pop (h : Traced runner b) {mb : MemoryBuffer} {results : List MemoryBuffer}
    (hResults : b.scheduler.results = mb :: results) :
    Traced runner { b with
      scheduler := { b.scheduler with results := results }
      popped := b.popped ++ [mb] } := by
  have hSame : b.popped ++ [mb] ++ results = b.popped ++ b.scheduler.results := by
    rw [hResults, List.append_assoc, List.singleton_append]
  refine ⟨⟨h.pipeline, h.answers⟩, h.block, hSame ▸ h.length, fun m hm => ?_⟩
  rcases h.recorded m hm with hActive | ⟨t, mb', hMem, hOwn⟩
  · exact .inl hActive
  · exact .inr ⟨t, mb', hSame ▸ hMem, hOwn⟩

theorem zip_handleAnswer (h : Traced runner b) (now : Time) (a : Answer) :
    ∃ duration, (b.scheduler.handleAnswer now a).jobTimes.zip
        (b.popped ++ (b.scheduler.handleAnswer now a).results) =
      b.scheduler.jobTimes.zip (b.popped ++ b.scheduler.results) ++
        [(⟨a.id, a.name, duration⟩, a.result)] := by
  simp only [Scheduler.handleAnswer, ← List.append_assoc]
  rw [List.zip_append h.length]
  exact ⟨_, rfl⟩

theorem deliver (h : Traced runner b) (hNumbered : Numbered b) (now : Time) {a : Answer}
    {rest : List Answer} (hAnswers : b.answers.Perm (a :: rest)) :
    Traced runner { b with
      scheduler := b.scheduler.handleAnswer now a
      answers := rest } := by
  obtain ⟨m, hm, hId, hName, hReturned⟩ := h.answers a (hAnswers.mem_iff.mpr List.mem_cons_self)
  obtain ⟨duration, hZip⟩ := h.zip_handleAnswer now a
  refine ⟨h.toSourced.deliver _ hAnswers, h.block, ?_, fun m' hm' => ?_⟩
  · simp only [Scheduler.handleAnswer, ← List.append_assoc]
    rw [List.length_append, List.length_append, h.length]
    rfl
  · rcases h.recorded m' hm' with ⟨aj, hActive⟩ | ⟨t, mb, hMem, hOwn⟩
    · by_cases hSame : m'.job.id = a.id
      · -- ids are unique, so the answer is one of this very job
        obtain rfl := hNumbered.eq_of_id hm hm' (hId.symm.trans hSame.symm)
        refine .inr ⟨⟨a.id, a.name, duration⟩, a.result, ?_, hId, hName, a.source, hReturned⟩
        exact hZip ▸ List.mem_append_right _ (List.mem_singleton_self _)
      · exact .inl ⟨aj, Scheduler.active_handleAnswer.mpr ⟨hSame, hActive⟩⟩
    · exact .inr ⟨t, mb, hZip ▸ List.mem_append_left _ hMem, hOwn⟩

theorem dispatch (h : Traced runner b) (now : Time) {job : Job} {jobs : List Job}
    {first : Nat} (hPlaced : b.scheduler.Placed job jobs first) {m : JobMessage}
    (hm : m = ⟨first, first + job.size - 1, job⟩)
    (hIdle : ∀ aj, ¬ b.scheduler.Active job.id aj) :
    Traced runner { b with
      scheduler := b.scheduler.run job jobs first now
      pipeline := fun rank => b.pipeline rank ++ if rank ∈ m.ranks then [m] else []
      dispatched := b.dispatched ++ [m] } := by
  have hPos := hPlaced.first_pos
  refine ⟨h.toSourced.dispatch _ m, fun m' hm' => ?_, h.length, fun m' hm' => ?_⟩
  · rcases List.mem_append.mp hm' with hOld | hNew
    · exact h.block m' hOld
    · rw [List.mem_singleton.mp hNew, hm]
      dsimp only
      omega
  · rcases List.mem_append.mp hm' with hOld | hNew
    · rcases h.recorded m' hOld with ⟨aj, hActive⟩ | hRecorded
      · exact .inl ⟨aj, (Scheduler.active_run hIdle).mpr (.inr hActive)⟩
      · exact .inr hRecorded
    · rw [List.mem_singleton.mp hNew, hm]
      exact .inl ⟨_, (Scheduler.active_run hIdle).mpr (.inl ⟨rfl, rfl⟩)⟩

theorem step {w : World} {s s' : System} {a : SystemAction} (h : Traced runner s.books)
    (hAllocated : Allocated w s.controller.scheduler) (hNumbered : Numbered s.books)
    (hStep : s.step w runner a = some s') : Traced runner s'.books := by
  have hEffect := System.effect_of_step hStep
  generalize s'.books = b' at hEffect
  cases hEffect with
  | quiet => exact h
  | schedule name function arg groups size =>
    exact ⟨⟨h.pipeline, h.answers⟩, h.block, h.length, h.recorded⟩
  | pop mb results hResults => exact h.pop hResults
  | deliver now index a rest hAnswers => exact h.deliver hNumbered now hAnswers
  | dispatch now m scheduler hCanRun hRun =>
    have hLength := w.size_lt
    obtain ⟨job, jobs, first, hPlaced, hEq⟩ :=
      Scheduler.runJob_eq (hAllocated.length ▸ hLength) hCanRun
    obtain ⟨rfl, hm⟩ := Prod.mk.inj (Option.some.inj ((hEq now).symm.trans hRun))
    have hHead : job ∈ s.controller.scheduler.jobs := hPlaced.jobs_eq ▸ List.mem_cons_self
    exact h.dispatch now hPlaced hm.symm (hAllocated.queued job hHead).2
  | runnerReturn rank m rest hHead =>
    exact ⟨h.toSourced.runnerReturn hHead, h.block, h.length, h.recorded⟩

end Traced

theorem traced_of_reachable {w : World} {runner : Runner} {s : System}
    (h : (schedulerMachine w runner).Reachable s) : Traced runner s.books := by
  refine h.invariant_of_reachable (I := fun s => Traced runner s.books) (.new w) ?_
  intro s a s' hReach hInv hStep
  exact hInv.step (allocated_of_reachable hReach) (numbered_of_reachable hReach) hStep

end System

def Phase.Final (phase : Phase) : Prop :=
  phase = .finishing ∨ phase = .draining ∨ phase = .stopped

theorem Controller.jobs_of_final {c c' : Controller} {a : ControllerAction}
    (hFinal : c.phase.Final) (h : c.step a = some c') :
    c'.phase.Final ∧ c'.scheduler.jobs = c.scheduler.jobs := by
  cases a with
  | answer now x =>
    simp only [step, Option.ite_none_right_eq_some, Option.some.injEq] at h
    obtain ⟨-, rfl⟩ := h
    exact ⟨hFinal, rfl⟩
  | noAnswer =>
    rcases hFinal with hPhase | hPhase | hPhase <;> simp only [step, hPhase] at h <;> cases h
    exact ⟨.inl rfl, rfl⟩
  | check =>
    simp only [step, Option.ite_none_right_eq_some, Option.some.injEq] at h
    exact ⟨h.2 ▸ .inr (.inl rfl), h.2 ▸ rfl⟩
  | signalStop =>
    simp only [step, Option.ite_none_right_eq_some, Option.some.injEq] at h
    exact ⟨h.2 ▸ .inr (.inr rfl), h.2 ▸ rfl⟩
  | schedule | pop | control | runJob | controlReturn | finish =>
    rcases hFinal with hPhase | hPhase | hPhase <;> simp [step, hPhase] at h

theorem Controller.idle_of_stopped {w : World} {c : Controller}
    (h : (controllerMachine w).Reachable c) (hStopped : c.phase = .stopped) :
    ∀ id aj, ¬ c.scheduler.Active id aj := by
  refine h.invariant (I := fun c => c.phase = .stopped → ∀ id aj, ¬ c.scheduler.Active id aj)
    (by simp [controllerMachine, new]) ?_ hStopped
  intro c a c' _ hStep hNow
  have hRunning := phase_of_step hStep
  cases a with
  | signalStop =>
    simp only [controllerMachine, step, Option.ite_none_right_eq_some, Option.some.injEq] at hStep
    obtain ⟨⟨-, hIdle⟩, rfl⟩ := hStep
    exact Scheduler.unfinishedJobs_eq_false.mp (by simpa using hIdle)
  | noAnswer =>
    simp only [controllerMachine, step] at hStep
    split at hStep <;> cases hStep <;> cases hNow
  | pop | runJob =>
    simp only [controllerMachine, step, Option.ite_none_right_eq_some, Option.map_eq_some_iff]
      at hStep
    obtain ⟨-, p, -, rfl⟩ := hStep
    exact absurd hNow hRunning
  | schedule | control | answer | controlReturn | finish | check =>
    simp only [controllerMachine, step, Option.ite_none_right_eq_some, Option.some.injEq] at hStep
    obtain ⟨-, rfl⟩ := hStep
    first | exact absurd hNow hRunning | cases hNow

namespace System

section Runs

variable {w : World} {runner : Runner} {s s' : System}

theorem jobs_of_run {as : List SystemAction} (hFinal : s.controller.phase.Final)
    (hRun : (schedulerMachine w runner).run as s = some s') :
    s'.controller.scheduler.jobs = s.controller.scheduler.jobs := by
  induction as generalizing s with
  | nil => exact Option.some.inj hRun ▸ rfl
  | cons a as ih =>
    obtain ⟨t, hStep, hRest⟩ := Option.bind_eq_some_iff.mp hRun
    rcases controller_step hStep with hSame | ⟨b, hb⟩
    · rw [ih (hSame ▸ hFinal) hRest, hSame]
    · obtain ⟨hNext, hJobs⟩ := Controller.jobs_of_final hFinal hb
      rw [ih hNext hRest, hJobs]

/-- With no job active, exactly the jobs that have left the queue are completed. -/
theorem completed_iff_of_idle (hReach : (schedulerMachine w runner).Reachable s)
    (hIdle : ∀ id aj, ¬ s.controller.scheduler.Active id aj) :
    (∀ job ∈ s.scheduled, s.Completed runner job) ↔ s.controller.scheduler.jobs = [] := by
  have hTraced := traced_of_reachable hReach
  have hNumbered := numbered_of_reachable hReach
  have hOrder : s.dispatched.map JobMessage.job ++ s.controller.scheduler.jobs = s.scheduled :=
    hNumbered.order
  constructor
  · intro hAll
    rw [List.eq_nil_iff_forall_not_mem]
    intro job hJob
    obtain ⟨m, hm, rfl, -⟩ := hAll job (hOrder ▸ List.mem_append_right _ hJob)
    -- the ids of the dispatched jobs and of the queued ones are different
    exact (List.nodup_append.mp hNumbered.nodup).2.2 _ (List.mem_map_of_mem hm) _
      (List.mem_map_of_mem hJob) rfl
  · intro hEmpty job hJob
    rw [← hOrder, hEmpty, List.append_nil] at hJob
    obtain ⟨m, hm, rfl⟩ := List.mem_map.mp hJob
    rcases hTraced.recorded m hm with ⟨aj, hActive⟩ | hRecorded
    · exact absurd hActive (hIdle m.job.id aj)
    · exact ⟨m, hm, rfl, hTraced.block m hm, hRecorded⟩

/-- However jobs were scheduled, run and answered before: when the stop messages of `finish` are
sent, every job that was ever scheduled is completed exactly if the queue was empty when `finish`
was called. -/
theorem finish_drops_no_job_iff {as : List SystemAction}
    (hReach : (schedulerMachine w runner).Reachable s)
    (hRun : (schedulerMachine w runner).run (.finish :: as) s = some s')
    (hStopped : s'.controller.phase = .stopped) :
    (∀ job ∈ s'.scheduled, s'.Completed runner job) ↔ s.controller.scheduler.jobs = [] := by
  have hReach' := Machine.reachable_of_run _ hReach hRun
  obtain ⟨t, hFinish, hRest⟩ := Option.bind_eq_some_iff.mp hRun
  obtain ⟨c, hc, ht⟩ := Option.bind_eq_some_iff.mp hFinish
  obtain rfl := Option.some.inj ht
  simp only [Controller.step, Option.ite_none_right_eq_some, Option.some.injEq] at hc
  obtain ⟨-, rfl⟩ := hc
  have hJobs := jobs_of_run (.inl rfl) hRest
  have hIdle := Controller.idle_of_stopped ((simulates_controller w runner).reachable hReach')
    hStopped
  rw [completed_iff_of_idle hReach' hIdle, hJobs]

end Runs

namespace TwoJobs

def runner : Runner := fun _ _ => ⟨1, [7]⟩

def m : JobMessage := ⟨1, 1, 0, ⟨[]⟩, ⟨[]⟩, ⟨0, []⟩, [], 1⟩

/-- Two jobs for one worker; `control` runs the first one. -/
def before : List SystemAction :=
  [.schedule ⟨[]⟩ ⟨[]⟩ ⟨0, []⟩ [] 1, .schedule ⟨[]⟩ ⟨[]⟩ ⟨0, []⟩ [] 1, .control, .noAnswer,
    .runJob 1, .controlReturn]

def finishing : List SystemAction :=
  [.probe 1, .createComm m, .runnerReturn 1, .check, .deliver 5 0, .noAnswer, .signalStop]

def between : List SystemAction :=
  [.probe 1, .createComm m, .runnerReturn 1, .control, .deliver 5 0, .noAnswer, .runJob 6,
    .controlReturn]

def second : JobMessage := { m with job := { m.job with id := 1 } }

def finishingSecond : List SystemAction :=
  [.probe 1, .createComm second, .runnerReturn 1, .check, .deliver 9 0, .noAnswer, .signalStop]

end TwoJobs

theorem finish_drops_no_job_iff_run :
    ∃ s : System, s.scheduled.map Job.id = [0, 1] ∧
      ∀ job ∈ s.scheduled, s.Completed TwoJobs.runner job := by
  let w : World := ⟨2, 1, by decide, by decide, by decide⟩
  have hRun : ((schedulerMachine w TwoJobs.runner).run
      (TwoJobs.before ++ TwoJobs.between) (new w)).bind (fun s =>
        ((schedulerMachine w TwoJobs.runner).run (.finish :: TwoJobs.finishingSecond) s).map
          fun s' => (s.controller.scheduler.jobs, s'.controller.phase, s'.scheduled.map Job.id)) =
      some ([], .stopped, [0, 1]) := by decide
  obtain ⟨s, hs, hNext⟩ := Option.bind_eq_some_iff.mp hRun
  obtain ⟨s', hs', hState⟩ := Option.map_eq_some_iff.mp hNext
  simp only [Prod.mk.injEq] at hState
  obtain ⟨hEmpty, hStopped, hScheduled⟩ := hState
  have hReach := Machine.reachable_of_run _ .initial hs
  exact ⟨s', hScheduled, (finish_drops_no_job_iff hReach hs' hStopped).mpr hEmpty⟩

/-- Nothing runs the second job any more. -/
theorem queued_job_dropped :
    let w : World := ⟨2, 1, by decide, by decide, by decide⟩
    ∃ s s' : System, (schedulerMachine w TwoJobs.runner).Reachable s ∧
      (schedulerMachine w TwoJobs.runner).run (.finish :: TwoJobs.finishing) s = some s' ∧
      s'.controller.phase = .stopped ∧ s'.scheduled.map Job.id = [0, 1] ∧
      s'.dispatched.map (·.job.id) = [0] ∧
      ¬ ∀ job ∈ s'.scheduled, s'.Completed TwoJobs.runner job := by
  intro w
  have hRun : ((schedulerMachine w TwoJobs.runner).run TwoJobs.before
      (new w)).bind (fun s =>
        ((schedulerMachine w TwoJobs.runner).run (.finish :: TwoJobs.finishing) s).map
          fun s' => (s'.controller.phase, s'.scheduled.map Job.id, s'.dispatched.map (·.job.id))) =
      some (.stopped, [0, 1], [0]) := by decide
  obtain ⟨s, hs, hNext⟩ := Option.bind_eq_some_iff.mp hRun
  obtain ⟨s', hs', hState⟩ := Option.map_eq_some_iff.mp hNext
  simp only [Prod.mk.injEq] at hState
  obtain ⟨hStopped, hScheduled, hDispatched⟩ := hState
  refine ⟨s, s', Machine.reachable_of_run _ .initial hs, hs', hStopped, hScheduled, hDispatched, ?_⟩
  intro hAll
  have hSecond : 1 ∈ s'.scheduled.map Job.id := by
    rw [hScheduled]
    decide
  obtain ⟨job, hJob, hId⟩ := List.mem_map.mp hSecond
  obtain ⟨m, hm, rfl, -⟩ := hAll job hJob
  have hIn : m.job.id ∈ s'.dispatched.map (·.job.id) := List.mem_map_of_mem hm
  rw [hDispatched, hId] at hIn
  exact absurd hIn (by decide)

end System

end Henson
