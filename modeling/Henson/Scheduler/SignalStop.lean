import Henson.Scheduler.Finish

/-!
# The one stop message

`signal_stop` sends one message to every rank but 0, behind all the job messages
on the same channel, and the controller does nothing after it.
-/

namespace Henson

open TransitionSystem

theorem Controller.eq_signalStop {c c' : Controller} {a : ControllerAction}
    (h : c.step a = some c') (hStopped : c'.phase = .stopped) : a = .signalStop := by
  have hRunning := phase_of_step h
  cases a with
  | signalStop => rfl
  | noAnswer =>
    simp only [step] at h
    split at h <;> cases h <;> cases hStopped
  | pop | runJob =>
    simp only [step, Option.ite_none_right_eq_some, Option.map_eq_some_iff] at h
    obtain ⟨-, p, -, rfl⟩ := h
    exact absurd hStopped hRunning
  | schedule | control | answer | controlReturn | finish | check =>
    simp only [step, Option.ite_none_right_eq_some, Option.some.injEq] at h
    obtain ⟨-, rfl⟩ := h
    first | exact absurd hStopped hRunning | cases hStopped

namespace System

variable {w : World} {runner : Runner} {s s' : System} {a : SystemAction}

theorem stopped_iff_of_step (h : s.step w runner a = some s') (hOther : a ≠ .signalStop) :
    s'.controller.phase = .stopped ↔ s.controller.phase = .stopped := by
  cases a with
  | schedule | control | noAnswer | controlReturn | finish | check =>
    obtain ⟨c, hc, hs⟩ := Option.bind_eq_some_iff.mp h
    obtain rfl := Option.some.inj hs
    refine iff_of_false (fun hStopped => ?_) (Controller.phase_of_step hc)
    cases Controller.eq_signalStop hc hStopped
  | pop | deliver | runJob =>
    obtain ⟨_, -, hNext⟩ := Option.bind_eq_some_iff.mp h
    obtain ⟨c, hc, hs⟩ := Option.bind_eq_some_iff.mp hNext
    obtain rfl := Option.some.inj hs
    refine iff_of_false (fun hStopped => ?_) (Controller.phase_of_step hc)
    cases Controller.eq_signalStop hc hStopped
  | signalStop => exact absurd rfl hOther
  | probe rank =>
    simp only [step] at h
    split at h <;> cases h <;> exact Iff.rfl
  | createComm m =>
    simp only [step, Option.ite_none_right_eq_some, Option.some.injEq] at h
    exact h.2 ▸ Iff.rfl
  | runnerReturn rank =>
    simp only [step] at h
    split at h <;> cases h
    exact Iff.rfl

/-- The stop messages of a rank: one that waits, or the one it has taken. -/
def stopsAt (s : System) (rank : Nat) : Nat :=
  (s.channels rank).count .stop + if s.workers rank = .stopped then 1 else 0

theorem stopsAt_signalStop (h : s.step w runner .signalStop = some s') (rank : Nat) :
    s'.controller.phase = .stopped ∧
      s'.stopsAt rank = s.stopsAt rank + if 1 ≤ rank ∧ rank < w.size then 1 else 0 := by
  obtain ⟨c, hc, hs⟩ := Option.bind_eq_some_iff.mp h
  obtain rfl := Option.some.inj hs
  simp only [Controller.step, Option.ite_none_right_eq_some, Option.some.injEq] at hc
  obtain ⟨-, rfl⟩ := hc
  refine ⟨rfl, ?_⟩
  by_cases hRank : 1 ≤ rank ∧ rank < w.size
  · simp only [stopsAt, send, if_pos hRank, List.count_append, List.count_singleton_self]
    omega
  · simp only [stopsAt, send, if_neg hRank, Nat.add_zero]

theorem stopsAt_of_moved (h : s.Moved a s') (hOther : a ≠ .signalStop) (rank : Nat) :
    s'.stopsAt rank = s.stopsAt rank := by
  cases h with
  | controller a s' _ _ hChannels hWorkers _ => simp only [stopsAt, hChannels, hWorkers]
  | dispatch now m c scheduler _ _ => by_cases hRank : rank ∈ m.ranks <;> simp [stopsAt, send, hRank]
  | stop c ranks _ _ => exact absurd rfl hOther
  | probeJob r m rest hWorker hChannel =>
    by_cases hRank : rank = r
    · subst hRank
      simp [stopsAt, hWorker, hChannel]
    · simp [stopsAt, hRank]
  | probeStop r rest hWorker hChannel =>
    by_cases hRank : rank = r
    · subst hRank
      simp [stopsAt, hWorker, hChannel]
    · simp [stopsAt, hRank]
  | createComm m hCreating =>
    by_cases hRank : rank ∈ m.ranks
    · simp [stopsAt, hRank, hCreating rank hRank]
    · simp [stopsAt, hRank]
  | runnerReturn r m answers hWorker =>
    by_cases hRank : rank = r
    · subst hRank
      simp [stopsAt, hWorker]
    · simp [stopsAt, hRank]

/-- No rank gets two stop messages, and none that is not there gets one. -/
theorem stopsAt_of_reachable (h : (schedulerMachine w runner).Reachable s) (rank : Nat) :
    s.stopsAt rank =
      if s.controller.phase = .stopped ∧ 1 ≤ rank ∧ rank < w.size then 1 else 0 := by
  refine h.invariant (I := fun s => s.stopsAt rank =
    if s.controller.phase = .stopped ∧ 1 ≤ rank ∧ rank < w.size then 1 else 0) rfl ?_
  intro s a s' hInv hStep
  by_cases hStop : a = .signalStop
  · subst hStop
    replace hStep : s.step w runner .signalStop = some s' := hStep
    obtain ⟨hPhase, hStops⟩ := stopsAt_signalStop hStep rank
    obtain ⟨c, hc, -⟩ := Option.bind_eq_some_iff.mp hStep
    have hBefore := Controller.phase_of_step hc
    simp [hStops, hInv, hPhase, hBefore]
  · rw [stopsAt_of_moved (moved_of_step hStep) hStop, hInv]
    simp only [stopped_iff_of_step hStep hStop]

theorem active_of_dispatch (hAllocated : Allocated w s.controller.scheduler) {now : Time}
    {scheduler : Scheduler} {m : JobMessage} (hCanRun : s.controller.scheduler.canRun = true)
    (hRun : s.controller.scheduler.runJob now = some (scheduler, m)) :
    m.ranks ⊆ Set.Ico w.controllerRanks w.size := by
  have hLength : s.controller.scheduler.availableProcs.length < 2 ^ 31 :=
    hAllocated.length ▸ w.size_lt
  obtain ⟨job, jobs, first, hPlaced, hEq⟩ := Scheduler.runJob_eq hLength hCanRun
  obtain ⟨rfl, rfl⟩ := Prod.mk.inj (Option.some.inj ((hEq now).symm.trans hRun))
  intro rank hRank
  have hFits := hPlaced.first_pos
  have hWithin : first ≤ rank ∧ rank ≤ first + job.size - 1 := hRank
  have hFree := hPlaced.available rank hWithin.1 (by omega)
  exact ((hAllocated.available rank (by omega)).mp hFree).1

theorem ranks_of_dispatched (h : (schedulerMachine w runner).Reachable s) :
    ∀ m ∈ s.dispatched, m.ranks ⊆ Set.Ico w.controllerRanks w.size := by
  refine h.invariant_of_reachable
    (I := fun s => ∀ m ∈ s.books.dispatched, m.ranks ⊆ Set.Ico w.controllerRanks w.size)
    (by simp [schedulerMachine, new, books]) ?_
  intro s a s' hReach hInv hStep
  have hEffect := effect_of_step hStep
  generalize s'.books = b' at hEffect
  cases hEffect with
  | dispatch now m scheduler hCanRun hRun =>
    intro m' hm'
    rcases List.mem_append.mp hm' with hOld | hNew
    · exact hInv m' hOld
    · rw [List.mem_singleton.mp hNew]
      exact active_of_dispatch (allocated_of_reachable hReach) hCanRun hRun
  | quiet | schedule | pop | deliver | runnerReturn => exact hInv

end System

/-- An answer comes from a rank that has finished its job, and a job is active until such an
answer arrives. -/
structure Answered (b : System.Books) (finished : Finished) : Prop where
  answers : ∀ a ∈ b.answers, ∃ m ∈ b.dispatched, a.id = m.job.id ∧ ∃ rank, m ∈ finished rank
  inactive : ∀ m ∈ b.dispatched, (∃ aj, b.scheduler.Active m.job.id aj) ∨
    ∃ rank, m ∈ finished rank

theorem mem_recordFinished {s : System} {finished : Finished} {rank : Nat} {m : JobMessage}
    (h : m ∈ finished rank) (a : SystemAction) : m ∈ recordFinished s a finished rank := by
  cases a with
  | runnerReturn r =>
    cases hWorker : s.workers r with
    | running m' =>
      by_cases hRank : rank = r
      · subst hRank
        simp [recordFinished, hWorker, h]
      · simpa [recordFinished, hWorker, hRank] using h
    | probing | creating | stopped => simpa [recordFinished, hWorker] using h
  | _ => exact h

theorem System.running_of_returned {w : World} {runner : Runner} {s s' : System} {rank : Nat}
    {m : JobMessage} {rest : List JobMessage} (h : s.step w runner (.runnerReturn rank) = some s')
    (hHead : s.pipeline rank = m :: rest) : s.workers rank = .running m := by
  simp only [step] at h
  split at h
  · rename_i m' hWorker
    rw [pipeline_eq, hWorker] at hHead
    rw [hWorker, (List.cons.inj hHead).1]
  · cases h

namespace Answered

variable {b : System.Books} {finished finished' : Finished}

theorem mono (h : Answered b finished) (hMono : ∀ rank, ∀ m ∈ finished rank, m ∈ finished' rank) :
    Answered b finished' where
  answers a ha := by
    obtain ⟨m, hm, hId, rank, hFinished⟩ := h.answers a ha
    exact ⟨m, hm, hId, rank, hMono rank m hFinished⟩
  inactive m hm := by
    refine (h.inactive m hm).imp_right ?_
    rintro ⟨rank, hFinished⟩
    exact ⟨rank, hMono rank m hFinished⟩

theorem deliver (h : Answered b finished) (hNumbered : System.Numbered b) (now : Time) {a : Answer}
    {rest : List Answer} (hAnswers : b.answers.Perm (a :: rest)) :
    Answered { b with
      scheduler := b.scheduler.handleAnswer now a
      answers := rest } finished where
  answers a' ha' := h.answers a' (hAnswers.mem_iff.mpr (List.mem_cons_of_mem _ ha'))
  inactive m hm := by
    obtain ⟨m', hm', hId, hFinished⟩ := h.answers a (hAnswers.mem_iff.mpr List.mem_cons_self)
    by_cases hSame : m.job.id = a.id
    · obtain rfl := hNumbered.eq_of_id hm hm' (hSame.trans hId)
      exact .inr hFinished
    · refine (h.inactive m hm).imp_left ?_
      rintro ⟨aj, hActive⟩
      exact ⟨aj, Scheduler.active_handleAnswer.mpr ⟨hSame, hActive⟩⟩

theorem dispatch (h : Answered b finished) (now : Time) {job : Job} {jobs : List Job}
    {first last : Nat} (hIdle : ∀ aj, ¬ b.scheduler.Active job.id aj)
    (pipeline : Nat → List JobMessage) :
    Answered { b with
      scheduler := b.scheduler.run job jobs first now
      pipeline := pipeline
      dispatched := b.dispatched ++ [⟨first, last, job⟩] } finished where
  answers a ha := by
    obtain ⟨m, hm, hOwn⟩ := h.answers a ha
    exact ⟨m, List.mem_append_left _ hm, hOwn⟩
  inactive m hm := by
    rcases List.mem_append.mp hm with hOld | hNew
    · refine (h.inactive m hOld).imp_left ?_
      rintro ⟨aj, hActive⟩
      exact ⟨aj, (Scheduler.active_run hIdle).mpr (.inr hActive)⟩
    · rw [List.mem_singleton.mp hNew]
      exact .inl ⟨_, (Scheduler.active_run hIdle).mpr (.inl ⟨rfl, rfl⟩)⟩

theorem runnerReturn (h : Answered b finished) {runner : Runner} {rank : Nat} {m : JobMessage}
    (hm : m ∈ b.dispatched) (hFinished : m ∈ finished rank) (pipeline : Nat → List JobMessage) :
    Answered { b with
      pipeline := pipeline
      answers := b.answers ++ System.answerOf runner m rank } finished where
  answers a ha := by
    rcases List.mem_append.mp ha with hOld | hNew
    · exact h.answers a hOld
    · rw [System.answerOf, List.mem_ite_nil_left, List.mem_singleton] at hNew
      obtain ⟨-, rfl⟩ := hNew
      exact ⟨m, hm, rfl, rank, hFinished⟩
  inactive := h.inactive

theorem step {w : World} {runner : Runner} {s s' : System} {a : SystemAction}
    (h : Answered s.books finished) (hReach : (schedulerMachine w runner).Reachable s)
    (hStep : s.step w runner a = some s') :
    Answered s'.books (recordFinished s a finished) := by
  have hNumbered := System.numbered_of_reachable hReach
  have hAllocated := System.allocated_of_reachable hReach
  have hSourced := (tokens_of_reachable hReach).toSourced
  replace h := h.mono fun rank m hm => mem_recordFinished (s := s) hm a
  have hEffect := System.effect_of_step hStep
  generalize s'.books = b' at hEffect
  cases hEffect with
  | quiet => exact h
  | schedule | pop => exact ⟨h.answers, h.inactive⟩
  | deliver now index a rest hAnswers => exact h.deliver hNumbered now hAnswers
  | dispatch now m scheduler hCanRun hRun =>
    obtain ⟨job, jobs, first, hPlaced, hEq⟩ :=
      Scheduler.runJob_eq (hAllocated.length ▸ w.size_lt) hCanRun
    obtain ⟨rfl, rfl⟩ := Prod.mk.inj (Option.some.inj ((hEq now).symm.trans hRun))
    have hHead : job ∈ s.controller.scheduler.jobs := hPlaced.jobs_eq ▸ List.mem_cons_self
    exact h.dispatch now (hAllocated.queued job hHead).2 _
  | runnerReturn rank m rest hHead =>
    obtain ⟨hm, -⟩ := hSourced.pipeline rank m (hHead ▸ List.mem_cons_self)
    refine h.runnerReturn hm ?_ _
    simp [recordFinished, System.running_of_returned hStep hHead]

end Answered

theorem answered_of_reachable {w : World} {runner : Runner} {p : System × Finished}
    (h : (workMachine w runner).Reachable p) : Answered p.1.books p.2 := by
  refine h.invariant_of_reachable (I := fun p => Answered p.1.books p.2)
    ⟨by simp [schedulerMachine, Machine.withHistory, System.new, System.books],
      by simp [schedulerMachine, Machine.withHistory, System.new, System.books]⟩ ?_
  intro p a p' hReach hInv hStep
  obtain ⟨hStep, hRecord⟩ := Machine.withHistory_step_eq_some.mp hStep
  exact hRecord ▸ hInv.step hReach.of_withHistory hStep

namespace System

variable {w : World} {runner : Runner} {s : System} {finished : Finished}

/-- With no job active, every job that is left runs on the ranks that have not finished it. -/
theorem running_of_idle (h : (workMachine w runner).Reachable (s, finished))
    (hIdle : ∀ id aj, ¬ s.controller.scheduler.Active id aj) {rank : Nat} {m : JobMessage}
    (hm : m ∈ s.pipeline rank) : s.workers rank = .running m := by
  have hOrder := workOrder_of_reachable h
  have hDispatched := (hOrder.ordered.mem_waiting_iff.mp hm).1
  have hInactive : ¬ ∃ aj, s.controller.scheduler.Active m.job.id aj := by
    rintro ⟨aj, hActive⟩
    exact hIdle _ aj hActive
  obtain ⟨r, hFinished⟩ :=
    ((answered_of_reachable h).inactive m hDispatched).resolve_left hInactive
  have hRank : r ∈ m.ranks := hOrder.ordered.addressed_of_handled hFinished
  refine (hOrder.together m hDispatched).resolve_left (fun hWaits => ?_) rank hm
  exact (hOrder.ordered.mem_waiting_iff.mp (hWaits r hRank).1).2.2 hFinished

theorem size_of_pipeline (h : (workMachine w runner).Reachable (s, finished)) {rank : Nat}
    {m : JobMessage} (hm : m ∈ s.pipeline rank) : rank ∈ Set.Ico w.controllerRanks w.size := by
  obtain ⟨hDispatched, hRank, -⟩ := (workOrder_of_reachable h).ordered.mem_waiting_iff.mp hm
  exact ranks_of_dispatched h.of_withHistory m hDispatched hRank

theorem mem_pipeline_of_creating {rank : Nat} {m : JobMessage} (h : s.workers rank = .creating m) :
    m ∈ s.pipeline rank := by
  rw [pipeline_eq, h]
  exact List.mem_append_left _ (List.mem_singleton_self m)

theorem size_of_channel (h : (workMachine w runner).Reachable (s, finished)) {rank : Nat}
    {message : Message} {rest : List Message} (hChannel : s.channels rank = message :: rest) :
    rank < w.size := by
  cases message with
  | job m =>
    have hm : m ∈ s.pipeline rank := by simp [pipeline_eq, hChannel, jobsOf]
    exact (size_of_pipeline h hm).2
  | stop =>
    have hStops := stopsAt_of_reachable h.of_withHistory rank
    by_contra hRank
    rw [if_neg fun hAll => hRank hAll.2.2] at hStops
    simp [stopsAt, hChannel] at hStops

theorem channel_eq_nil {channel : List Message} (hJobs : jobsOf channel = [])
    (hStops : channel.count .stop = 0) : channel = [] := by
  cases channel with
  | nil => rfl
  | cons message rest =>
    cases message with
    | job m => simp [jobsOf] at hJobs
    | stop => simp at hStops

end System

end Henson
