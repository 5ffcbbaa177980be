import Henson.Scheduler.System

/-!
# When the scheduler makes progress

`schedule` takes any size. With no job active, every worker is available, and what
`control` does depends only on the size at the head of the queue. A size that no block
of workers meets stays at the head for good, and the jobs behind it with it.
-/

namespace Henson

open MachineInt TransitionSystem

namespace Scheduler

theorem findAvailableProcsFrom_free {numProcs total i procs k : Nat} (hProcs : procs < numProcs)
    (hBefore : procs < i) (hSize : i + k < 2 ^ 64) :
    findAvailableProcsFrom numProcs total i procs (List.replicate k true) =
      if numProcs ≤ procs + k then i - procs else total := by
  induction k generalizing i procs with
  | zero =>
    rw [if_neg (by omega)]
    rfl
  | succ k ih =>
    rw [List.replicate_succ, findAvailableProcsFrom]
    simp only [if_true]
    by_cases hEnough : procs + 1 = numProcs
    · have hInner : subSizeT (procs + 1) 1 = procs := subSizeT_of_le (by omega) (by omega)
      rw [if_pos hEnough, if_pos (by omega), hInner, subSizeT_of_le (by omega) (by omega)]
    · rw [if_neg hEnough, ih (by omega) (by omega) (by omega)]
      have hShift : procs + 1 + k = procs + (k + 1) := by omega
      have hFirst : i + 1 - (procs + 1) = i - procs := by omega
      rw [hShift, hFirst]

/-- The counter is past 0 at once, so no block of zero ranks is found among free workers. -/
theorem findAvailableProcsFrom_zero_free (total i procs k : Nat) :
    findAvailableProcsFrom 0 total i procs (List.replicate k true) = total := by
  induction k generalizing i procs with
  | zero => rfl
  | succ k ih =>
    rw [List.replicate_succ, findAvailableProcsFrom]
    simp only [if_true]
    rw [if_neg (Nat.succ_ne_zero procs)]
    exact ih (i + 1) (procs + 1)

theorem findAvailableProcsFrom_busy {numProcs : Nat} (hPos : 0 < numProcs) (total i k : Nat)
    (rest : List Bool) :
    findAvailableProcsFrom numProcs total i 0 (List.replicate k false ++ rest) =
      findAvailableProcsFrom numProcs total (i + k) 0 rest := by
  induction k generalizing i with
  | zero => rfl
  | succ k ih =>
    rw [List.replicate_succ, List.cons_append, findAvailableProcsFrom]
    simp only [Bool.false_eq_true, if_false]
    rw [if_neg hPos.ne, ih]
    congr 1
    omega

end Scheduler

/-- The sizes for which a block is found when all workers are available. A block of zero
ranks is found at the second controller. -/
def World.Fits (w : World) (size : Nat) : Prop :=
  1 ≤ size ∧ size ≤ w.workers ∨ size = 0 ∧ 2 ≤ w.controllerRanks ∧ 3 ≤ w.size

instance (w : World) (size : Nat) : Decidable (w.Fits size) :=
  inferInstanceAs (Decidable (_ ∨ _))

theorem Allocated.available_of_idle {w : World} {s : Scheduler} (h : Allocated w s)
    (hIdle : ∀ id aj, ¬ s.Active id aj) :
    s.availableProcs.tail =
      List.replicate (w.controllerRanks - 1) false ++ List.replicate w.workers true := by
  have hPos := w.controllerRanks_pos
  have hLe := w.controllerRanks_le
  have hWorkers : w.workers = w.size - w.controllerRanks := rfl
  apply List.ext_getElem?
  intro i
  rw [List.getElem?_tail, List.getElem?_append, List.length_replicate]
  have hFree := h.available (i + 1) (by omega)
  simp only [Set.mem_Ico, hIdle, false_implies, implies_true, and_true] at hFree
  by_cases hRank : i + 1 < w.size
  · have hLength : i + 1 < s.availableProcs.length := h.length ▸ hRank
    rw [List.getElem?_eq_getElem hLength, Option.some.injEq] at hFree
    rw [List.getElem?_eq_getElem hLength]
    by_cases hController : i < w.controllerRanks - 1
    · rw [if_pos hController, List.getElem?_replicate_of_lt hController, Option.some.injEq,
        ← Bool.not_eq_true, hFree]
      omega
    · rw [if_neg hController, List.getElem?_replicate_of_lt (by omega),
        Option.some.injEq, hFree]
      omega
  · rw [List.getElem?_eq_none (by rw [h.length]; omega), if_neg (by omega),
      List.getElem?_eq_none (by rw [List.length_replicate]; omega)]

/-- With no job active, `control` can run the job at the head exactly if its size fits. -/
theorem Scheduler.canRun_iff {w : World} {s : Scheduler} (h : Allocated w s)
    (hIdle : ∀ id aj, ¬ s.Active id aj) {job : Job} {jobs : List Job}
    (hJobs : s.jobs = job :: jobs) : s.canRun = true ↔ w.Fits job.size := by
  have hPos := w.controllerRanks_pos
  have hLe := w.controllerRanks_le
  have hSize := w.size_lt
  have hWorkers : w.workers = w.size - w.controllerRanks := rfl
  simp only [canRun, hJobs, decide_eq_true_eq, findAvailableProcs, h.available_of_idle hIdle,
    h.length, World.Fits]
  rcases Nat.eq_zero_or_pos job.size with hZero | hPositive
  · rw [hZero]
    by_cases hOne : w.controllerRanks = 1
    · rw [hOne, List.replicate_zero, List.nil_append, findAvailableProcsFrom_zero_free]
      omega
    · obtain ⟨k, hk⟩ : ∃ k, w.controllerRanks - 1 = k + 1 := ⟨w.controllerRanks - 2, by omega⟩
      rw [hk, List.replicate_succ, List.cons_append, findAvailableProcsFrom]
      have hSecond : subSizeT 1 (subSizeT 0 1) = 2 := by decide
      simp only [Bool.false_eq_true, if_false, if_true, hSecond, true_and]
      omega
  · rw [findAvailableProcsFrom_busy hPositive, findAvailableProcsFrom_free hPositive (by omega)
      (by omega)]
    by_cases hEnough : job.size ≤ w.workers
    · rw [if_pos (by omega)]
      omega
    · rw [if_neg (by omega)]
      omega

namespace Controller

/-- A call of `control` from its start to its return, with the steps in between. -/
def Call (w : World) (as : List ControllerAction) (c c' : Controller) : Prop :=
  .controlReturn ∉ as ∧
    (controllerMachine w).run (.control :: (as ++ [.controlReturn])) c = some c'

/-- `control` returns, and it has run a job whenever it does. -/
def StartsJob (w : World) (c : Controller) : Prop :=
  (∃ as c', c.Call w as c') ∧ ∀ as c', c.Call w as c' → ∃ now, .runJob now ∈ as

variable {w : World} {c c' : Controller}

theorem step_of_calling {a : ControllerAction} (h : c.phase = .checking ∨ c.phase = .dispatching)
    (hStep : c.step a = some c') :
    (a = .controlReturn ∧ c.scheduler.canRun = false) ∨ (∃ now, a = .runJob now) ∨
      (c'.phase = .checking ∨ c'.phase = .dispatching) ∧
        (c'.scheduler = c.scheduler ∨ ∃ now x, c'.scheduler = c.scheduler.handleAnswer now x) := by
  cases a with
  | controlReturn =>
    simp only [step, Option.ite_none_right_eq_some] at hStep
    exact .inl ⟨rfl, by simpa using hStep.1.2⟩
  | runJob now => exact .inr (.inl ⟨now, rfl⟩)
  | answer now x =>
    simp only [step, Option.ite_none_right_eq_some, Option.some.injEq] at hStep
    obtain ⟨-, rfl⟩ := hStep
    exact .inr (.inr ⟨h, .inr ⟨now, x, rfl⟩⟩)
  | noAnswer =>
    rcases h with hPhase | hPhase
    · simp only [step, hPhase, Option.some.injEq] at hStep
      exact .inr (.inr ⟨.inr (hStep ▸ rfl), .inl (hStep ▸ rfl)⟩)
    · simp [step, hPhase] at hStep
  | schedule | pop | control | finish | check | signalStop =>
    rcases h with hPhase | hPhase <;> simp [step, hPhase] at hStep

theorem runJob_mem_of_run {job : Job} {jobs : List Job} (hFits : w.Fits job.size)
    (as : List ControllerAction) (hPhase : c.phase = .checking ∨ c.phase = .dispatching)
    (hAllocated : Allocated w c.scheduler) (hIdle : ∀ id aj, ¬ c.scheduler.Active id aj)
    (hJobs : c.scheduler.jobs = job :: jobs)
    (hRun : (controllerMachine w).run (as ++ [.controlReturn]) c = some c') :
    ∃ now, .runJob now ∈ as := by
  have hCanRun := (Scheduler.canRun_iff hAllocated hIdle hJobs).mpr hFits
  induction as generalizing c with
  | nil =>
    obtain ⟨d, hStep, -⟩ := Option.bind_eq_some_iff.mp hRun
    simp only [controllerMachine, step, Option.ite_none_right_eq_some] at hStep
    rw [hCanRun] at hStep
    simp at hStep
  | cons a as ih =>
    obtain ⟨d, hStep, hRest⟩ := Option.bind_eq_some_iff.mp hRun
    have hStep : c.step a = some d := hStep
    rcases step_of_calling hPhase hStep with ⟨-, hBusy⟩ | ⟨now, rfl⟩ | ⟨hCalling, hScheduler⟩
    · rw [hCanRun] at hBusy
      cases hBusy
    · exact ⟨now, List.mem_cons_self⟩
    · have hKept : Allocated w d.scheduler ∧ (∀ id aj, ¬ d.scheduler.Active id aj) ∧
          d.scheduler.jobs = job :: jobs := by
        rcases hScheduler with hSame | ⟨now, x, hAnswer⟩
        · rw [hSame]
          exact ⟨hAllocated, hIdle, hJobs⟩
        · rw [hAnswer]
          refine ⟨hAllocated.answer now x, fun id aj hActive => ?_, hJobs⟩
          exact hIdle id aj (Scheduler.active_handleAnswer.mp hActive).2
      obtain ⟨hAllocated', hIdle', hJobs'⟩ := hKept
      obtain ⟨now, hMem⟩ := ih hCalling hAllocated' hIdle' hJobs' hRest
        ((Scheduler.canRun_iff hAllocated' hIdle' hJobs').mpr hFits)
      exact ⟨now, List.mem_cons_of_mem _ hMem⟩

theorem exists_return (w : World) (c : Controller) (hPhase : c.phase = .dispatching) :
    ∃ as c', .controlReturn ∉ as ∧
      (controllerMachine w).run (as ++ [.controlReturn]) c = some c' := by
  generalize hJobs : c.scheduler.jobs = jobs
  induction jobs generalizing c with
  | nil =>
    refine ⟨[], { c with phase := .ready }, by simp, ?_⟩
    simp [Machine.run, controllerMachine, step, hPhase, Scheduler.canRun, hJobs]
  | cons job jobs ih =>
    cases hCanRun : c.scheduler.canRun with
    | false =>
      refine ⟨[], { c with phase := .ready }, by simp, ?_⟩
      simp [Machine.run, controllerMachine, step, hPhase, hCanRun]
    | true =>
      obtain ⟨p, hp⟩ : ∃ p, c.scheduler.runJob 0 = some p := by
        simp only [Scheduler.runJob, hJobs]
        exact ⟨_, rfl⟩
      obtain ⟨s, m⟩ := p
      have hTail := (Scheduler.jobs_of_runJob hp).1
      rw [hJobs] at hTail
      obtain ⟨as, c', hNot, hRun⟩ := ih { c with scheduler := s } hPhase (List.cons.inj hTail).2.symm
      refine ⟨.runJob 0 :: as, c', by simp [hNot], ?_⟩
      have hStep : (controllerMachine w).step c (.runJob 0) = some { c with scheduler := s } := by
        simp [controllerMachine, step, hPhase, hCanRun, hp]
      rw [List.cons_append, Machine.run_cons_of_step hStep]
      exact hRun

/-- With no job active, a call of `control` starts a job exactly if the head fits. -/
theorem startsJob_iff (hReach : (controllerMachine w).Reachable c) (hReady : c.phase = .ready)
    (hIdle : ∀ id aj, ¬ c.scheduler.Active id aj) {job : Job} {jobs : List Job}
    (hJobs : c.scheduler.jobs = job :: jobs) : c.StartsJob w ↔ w.Fits job.size := by
  have hAllocated := allocated_of_reachable hReach
  have hChecking : (controllerMachine w).step c .control = some { c with phase := .checking } := by
    simp [controllerMachine, step, hReady]
  constructor
  · rintro ⟨-, hStarts⟩
    by_contra hNot
    have hBusy : c.scheduler.canRun = false := by
      rw [← Bool.not_eq_true, Scheduler.canRun_iff hAllocated hIdle hJobs]
      exact hNot
    have hCall : c.Call w [.noAnswer] c := by
      refine ⟨by simp, ?_⟩
      rw [Machine.run_cons_of_step hChecking]
      simp [Machine.run, controllerMachine, step, hBusy, ← hReady]
    obtain ⟨now, hMem⟩ := hStarts _ _ hCall
    simp at hMem
  · intro hFits
    constructor
    · obtain ⟨as, c', hNot, hRun⟩ := exists_return w { c with phase := .dispatching } rfl
      refine ⟨.noAnswer :: as, c', by simp [hNot], ?_⟩
      rw [Machine.run_cons_of_step hChecking, List.cons_append, Machine.run_cons_of_step rfl]
      exact hRun
    · rintro as c' ⟨-, hRun⟩
      rw [Machine.run_cons_of_step hChecking] at hRun
      exact runJob_mem_of_run (c := { c with phase := .checking }) hFits as (.inl rfl) hAllocated
        hIdle hJobs hRun

end Controller

/-- What is left to do: a job in the queue has to be run and answered, an active one answered. -/
def Scheduler.remaining (s : Scheduler) : Nat := 2 * s.jobs.length + s.activeJobs.size

theorem Scheduler.remaining_handleAnswer (s : Scheduler) (now : Time) (a : Answer) :
    (s.handleAnswer now a).remaining ≤ s.remaining ∧
      ((∃ aj, s.Active a.id aj) → (s.handleAnswer now a).remaining < s.remaining) := by
  have hErase := Std.ExtTreeMap.size_erase (t := s.activeJobs) (k := a.id)
  simp only [remaining, handleAnswer]
  constructor
  · have hLe := Std.ExtTreeMap.size_erase_le (t := s.activeJobs) (k := a.id)
    omega
  · rintro ⟨aj, hActive⟩
    have hMem : a.id ∈ s.activeJobs := by
      rw [Std.ExtTreeMap.mem_iff_isSome_getElem?]
      exact Option.isSome_iff_exists.mpr ⟨aj, hActive⟩
    have hPos : s.activeJobs.size ≠ 0 := by
      rw [ne_eq, ← Std.ExtTreeMap.eq_empty_iff_size_eq_zero]
      rintro hEmpty
      simp [hEmpty] at hMem
    rw [if_pos (Std.ExtTreeMap.contains_iff_mem.mpr hMem)] at hErase
    omega

theorem Scheduler.remaining_runJob {s s' : Scheduler} {now : Time} {m : JobMessage}
    (h : s.runJob now = some (s', m)) : s'.remaining < s.remaining := by
  simp only [runJob] at h
  split at h
  · cases h
  · rename_i job jobs hJobs
    obtain ⟨rfl, -⟩ := Prod.mk.inj (Option.some.inj h)
    have hLe := Std.ExtTreeMap.size_insert_le (t := s.activeJobs) (k := job.id)
      (v := ⟨findAvailableProcs s.availableProcs job.size,
        subSizeT (addSizeT (findAvailableProcs s.availableProcs job.size) job.size) 1, now⟩)
    simp only [remaining, hJobs, List.length_cons]
    omega

def ControllerAction.Schedules : ControllerAction → Prop
  | .schedule .. => True
  | _ => False

theorem Controller.step_of_loop {c c' : Controller} {a : ControllerAction} (ha : ¬ a.Schedules)
    (h : c.step a = some c') :
    (c'.scheduler.jobs = c.scheduler.jobs ∧ c'.scheduler.activeJobs = c.scheduler.activeJobs) ∨
      (∃ now x, c'.scheduler = c.scheduler.handleAnswer now x) ∨
      ∃ now m, c.scheduler.runJob now = some (c'.scheduler, m) := by
  cases a with
  | schedule => exact absurd trivial ha
  | pop =>
    simp only [step, Option.ite_none_right_eq_some, Option.map_eq_some_iff] at h
    obtain ⟨-, p, hPop, rfl⟩ := h
    simp only [Scheduler.pop] at hPop
    split at hPop <;> cases hPop
    exact .inl ⟨rfl, rfl⟩
  | answer now x =>
    simp only [step, Option.ite_none_right_eq_some, Option.some.injEq] at h
    exact .inr (.inl ⟨now, x, h.2 ▸ rfl⟩)
  | runJob now =>
    simp only [step, Option.ite_none_right_eq_some, Option.map_eq_some_iff] at h
    obtain ⟨-, ⟨s, m⟩, hRun, rfl⟩ := h
    exact .inr (.inr ⟨now, m, hRun⟩)
  | noAnswer =>
    simp only [step] at h
    split at h <;> cases h <;> exact .inl ⟨rfl, rfl⟩
  | control | controlReturn | finish | check | signalStop =>
    simp only [step, Option.ite_none_right_eq_some, Option.some.injEq] at h
    exact .inl (h.2 ▸ ⟨rfl, rfl⟩)

/-- `while (control())` that goes on forever: nothing more is scheduled, `control` returns
again and again, and every job that was started is answered. -/
structure ControlLoop (w : World) (b : (controllerMachine w).Behavior) : Prop where
  start : (controllerMachine w).Reachable (b.state 0)
  noSchedule : ∀ n, ¬ (b.action n).Schedules
  returns : ∀ n, ∃ m, n ≤ m ∧ b.action m = .controlReturn
  answered : ∀ n id aj, (b.state n).scheduler.Active id aj →
    ∃ m, n ≤ m ∧ ∀ aj, ¬ (b.state m).scheduler.Active id aj

namespace ControlLoop

variable {w : World} {b : (controllerMachine w).Behavior}

theorem remaining_le (h : ControlLoop w b) (n : Nat) :
    (b.state (n + 1)).scheduler.remaining ≤ (b.state n).scheduler.remaining := by
  rcases Controller.step_of_loop (h.noSchedule n) (b.step n) with
    ⟨hJobs, hActive⟩ | ⟨now, x, hAnswer⟩ | ⟨now, m, hRun⟩
  · rw [Scheduler.remaining, hJobs, hActive, Scheduler.remaining]
  · rw [hAnswer]
    exact (Scheduler.remaining_handleAnswer _ now x).1
  · exact (Scheduler.remaining_runJob hRun).le

theorem active_of_settled (h : ControlLoop w b) {n : Nat}
    (hSettled : (b.state (n + 1)).scheduler.remaining = (b.state n).scheduler.remaining) {id : Nat}
    {aj : ActiveJob} (hActive : (b.state n).scheduler.Active id aj) :
    (b.state (n + 1)).scheduler.Active id aj := by
  rcases Controller.step_of_loop (h.noSchedule n) (b.step n) with
    ⟨-, hSame⟩ | ⟨now, x, hAnswer⟩ | ⟨now, m, hRun⟩
  · rw [Scheduler.Active, hSame]
    exact hActive
  · rw [hAnswer] at hSettled ⊢
    refine Scheduler.active_handleAnswer.mpr ⟨?_, hActive⟩
    rintro rfl
    exact absurd hSettled ((Scheduler.remaining_handleAnswer _ now x).2 ⟨aj, hActive⟩).ne
  · exact absurd hSettled (Scheduler.remaining_runJob hRun).ne

theorem fits_of_start (h : ControlLoop w b)
    (hFits : ∀ job ∈ (b.state 0).scheduler.jobs, w.Fits job.size) (n : Nat) :
    ∀ job ∈ (b.state n).scheduler.jobs, w.Fits job.size := by
  refine b.always (I := fun c => ∀ job ∈ c.scheduler.jobs, w.Fits job.size) ?_ hFits (Nat.zero_le n)
  intro m _ hOld job hJob
  apply hOld job
  rcases Controller.step_of_loop (h.noSchedule m) (b.step m) with
    ⟨hJobs, -⟩ | ⟨now, x, hAnswer⟩ | ⟨now, _, hRun⟩
  · exact hJobs ▸ hJob
  · rw [hAnswer] at hJob
    exact hJob
  · rw [(Scheduler.jobs_of_runJob hRun).1]
    exact List.mem_cons_of_mem _ hJob

theorem ends (h : ControlLoop w b)
    (hFits : ∀ job ∈ (b.state 0).scheduler.jobs, w.Fits job.size) :
    ∃ n, b.action n = .controlReturn ∧ (b.state (n + 1)).scheduler.controlResult = false := by
  obtain ⟨n, hSettled⟩ := b.settles (fun c => c.scheduler.remaining) h.remaining_le
  obtain ⟨k, hLe, hReturn⟩ := h.returns n
  -- an active job would stay active for good
  have hIdle : ∀ id aj, ¬ (b.state k).scheduler.Active id aj := by
    intro id aj hActive
    obtain ⟨m, hm, hAnswered⟩ := h.answered k id aj hActive
    refine hAnswered aj (b.always (I := fun c => c.scheduler.Active id aj) ?_ hActive hm)
    intro i hi hOld
    refine h.active_of_settled ?_ hOld
    rw [hSettled i (by omega), hSettled (i + 1) (by omega)]
  have hStep := b.step k
  rw [hReturn] at hStep
  simp only [controllerMachine, Controller.step, Option.ite_none_right_eq_some,
    Option.some.injEq] at hStep
  obtain ⟨⟨-, hBusy⟩, hNext⟩ := hStep
  refine ⟨k, hReturn, ?_⟩
  rw [← hNext]
  cases hJobs : (b.state k).scheduler.jobs with
  | nil => exact Scheduler.controlResult_eq_false.mpr ⟨hJobs, hIdle⟩
  | cons job jobs =>
    have hAllocated := allocated_of_reachable (b.reachable h.start k)
    have hCanRun := (Scheduler.canRun_iff hAllocated hIdle hJobs).mpr
      (h.fits_of_start hFits k job (hJobs ▸ List.mem_cons_self))
    rw [hCanRun] at hBusy
    cases hBusy

end ControlLoop

/-- In every reachable state with no job active, a call of `control` starts a job exactly if
the size at the head of the queue fits; and if all sizes in the queue do, a loop of calls
ends once every started job answers. -/
theorem control_starts_job_iff_fits (w : World) :
    (∀ c job jobs, (controllerMachine w).Reachable c → c.phase = .ready →
      (∀ id aj, ¬ c.scheduler.Active id aj) → c.scheduler.jobs = job :: jobs →
      (c.StartsJob w ↔ w.Fits job.size)) ∧
    ∀ b : (controllerMachine w).Behavior, ControlLoop w b →
      (∀ job ∈ (b.state 0).scheduler.jobs, w.Fits job.size) →
      ∃ n, b.action n = .controlReturn ∧ (b.state (n + 1)).scheduler.controlResult = false :=
  ⟨fun _ _ _ hReach hReady hIdle hJobs => Controller.startsJob_iff hReach hReady hIdle hJobs,
    fun _ hLoop hFits => hLoop.ends hFits⟩

theorem control_starts_job_iff_fits_run :
    ∃ c : Controller, c.scheduler.jobs.map Job.size = [2] ∧
      c.StartsJob ⟨4, 2, by decide, by decide, by decide⟩ := by
  let w : World := ⟨4, 2, by decide, by decide, by decide⟩
  let c : Controller := ⟨(Scheduler.new w).schedule ⟨[]⟩ ⟨[]⟩ ⟨0, []⟩ [] 2, .ready⟩
  have hReach : (controllerMachine w).Reachable c :=
    .step (.schedule ⟨[]⟩ ⟨[]⟩ ⟨0, []⟩ [] 2) .initial rfl
  refine ⟨c, rfl, ?_⟩
  exact ((control_starts_job_iff_fits w).1 c _ [] hReach rfl (by
    simp [c, Scheduler.schedule, Scheduler.new, Scheduler.Active]) rfl).mpr (by decide)

namespace Oversize

def w : World := ⟨2, 1, by decide, by decide, by decide⟩

/-- Two ranks are asked for and there is one worker. -/
def scheduled : Scheduler := (Scheduler.new w).schedule ⟨[]⟩ ⟨[]⟩ ⟨0, []⟩ [] 2

/-- Each round of the loop checks for answers, finds no block and returns. -/
def spin : (controllerMachine w).Behavior where
  state n := ⟨scheduled, match n % 3 with | 0 => .ready | 1 => .checking | _ => .dispatching⟩
  action n := match n % 3 with | 0 => .control | 1 => .noAnswer | _ => .controlReturn
  step n := by
    have hRound : n % 3 = 0 ∨ n % 3 = 1 ∨ n % 3 = 2 := by omega
    rcases hRound with h | h | h
    · have hNext : (n + 1) % 3 = 1 := by omega
      rw [h, hNext]
      rfl
    · have hNext : (n + 1) % 3 = 2 := by omega
      rw [h, hNext]
      rfl
    · have hNext : (n + 1) % 3 = 0 := by omega
      rw [h, hNext]
      rfl

end Oversize

/-- An oversize job is never run, and the loop over `control` spins on it. -/
theorem oversize_job_spins :
    ¬ (∀ w c, (controllerMachine w).Reachable c → c.phase = .ready →
      (∀ id aj, ¬ c.scheduler.Active id aj) → c.scheduler.jobs ≠ [] → c.StartsJob w) ∧
    ∃ b : (controllerMachine Oversize.w).Behavior, ControlLoop Oversize.w b ∧
      ∀ n, (b.state n).scheduler.controlResult = true := by
  have hReach : (controllerMachine Oversize.w).Reachable ⟨Oversize.scheduled, .ready⟩ :=
    .step (.schedule ⟨[]⟩ ⟨[]⟩ ⟨0, []⟩ [] 2) .initial rfl
  have hIdle : ∀ id aj, ¬ Oversize.scheduled.Active id aj := by
    simp [Oversize.scheduled, Scheduler.schedule, Scheduler.new, Scheduler.Active]
  constructor
  · intro hAlways
    have hStarts := (hAlways Oversize.w ⟨Oversize.scheduled, .ready⟩ hReach rfl hIdle (by decide)).2
    have hCall : Controller.Call Oversize.w [.noAnswer] ⟨Oversize.scheduled, .ready⟩
        ⟨Oversize.scheduled, .ready⟩ := ⟨by simp, rfl⟩
    obtain ⟨now, hMem⟩ := hStarts _ _ hCall
    simp at hMem
  · have hResult : Oversize.scheduled.controlResult = true := by decide
    refine ⟨Oversize.spin, ⟨hReach, ?_, ?_, ?_⟩, fun _ => hResult⟩
    · intro n
      simp only [Oversize.spin]
      split <;> exact id
    · intro n
      refine ⟨3 * n + 2, by omega, ?_⟩
      have hRound : (3 * n + 2) % 3 = 2 := by omega
      simp only [Oversize.spin, hRound]
    · exact fun _ id aj hActive => absurd hActive (hIdle id aj)

end Henson
