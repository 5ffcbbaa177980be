import Mathlib.Order.CompletePartialOrder
import Henson.Scheduler.Controller

/-!
# Exclusive allocation of ranks

What the search for available ranks and the marking loops do, and the invariant
they maintain: a rank of a worker is available exactly when no active job has it.
The environment may answer any job, known or not, any number of times.
-/

namespace Henson

open MachineInt TransitionSystem

theorem getElem?_foldl_set (ranks : List Nat) (procs : List Bool) (value : Bool) (i : Nat) :
    (ranks.foldl (fun procs rk => procs.set rk value) procs)[i]? =
      if i ∈ ranks then procs[i]?.map (fun _ => value) else procs[i]? := by
  induction ranks generalizing procs with
  | nil => simp
  | cons rk ranks ih =>
    rw [List.foldl_cons, ih, List.getElem?_set']
    by_cases hRanks : i ∈ ranks
    · by_cases hHead : rk = i <;> simp [hRanks, hHead, Function.comp_def]
    · by_cases hHead : rk = i
      · simp [hHead, Function.const_def]
      · simp [hRanks, hHead, Ne.symm hHead]

theorem getElem?_setProcs (procs : List Bool) (first last : Nat) (value : Bool) (i : Nat) :
    (setProcs procs first last value)[i]? =
      if first ≤ i ∧ i ≤ last then procs[i]?.map (fun _ => value) else procs[i]? := by
  have hMem : i ∈ List.range' first (last + 1 - first) ↔ first ≤ i ∧ i ≤ last := by
    rw [List.mem_range'_1]
    omega
  rw [setProcs, getElem?_foldl_set]
  simp only [hMem]

theorem length_foldl_set (ranks : List Nat) (procs : List Bool) (value : Bool) :
    (ranks.foldl (fun procs rk => procs.set rk value) procs).length = procs.length := by
  induction ranks generalizing procs with
  | nil => rfl
  | cons rk ranks ih => rw [List.foldl_cons, ih, List.length_set]

@[simp] theorem length_setProcs (procs : List Bool) (first last : Nat) (value : Bool) :
    (setProcs procs first last value).length = procs.length :=
  length_foldl_set _ _ _

namespace Scheduler

/-- The counter always stands for a run of available ranks that ends right before `i`. -/
theorem findAvailableProcsFrom_spec (numProcs : Nat) (available rest : List Bool) (i procs : Nat)
    (hSize : available.length < 2 ^ 31) (hRest : available.drop i = rest)
    (hProcs : procs < i) (hRun : ∀ j, i - procs ≤ j → j < i → available[j]? = some true)
    (hFound : findAvailableProcsFrom numProcs available.length i procs rest < available.length) :
    let first := findAvailableProcsFrom numProcs available.length i procs rest
    1 ≤ first ∧ first + numProcs ≤ available.length ∧
      ∀ j, first ≤ j → j < first + numProcs → available[j]? = some true := by
  induction rest generalizing i procs with
  | nil => exact absurd hFound (Nat.lt_irrefl _)
  | cons a rest ih =>
    have hHead : available[i]? = some a := by
      rw [← List.head?_drop, hRest, List.head?_cons]
    have hLength : i < available.length := by
      rw [List.getElem?_eq_some_iff] at hHead
      exact hHead.1
    have hTail : available.drop (i + 1) = rest := by
      rw [← List.tail_drop, hRest, List.tail_cons]
    rw [findAvailableProcsFrom] at hFound ⊢
    cases a with
    | true =>
      have hRun' : ∀ j, i + 1 - (procs + 1) ≤ j → j < i + 1 → available[j]? = some true := by
        intro j hLow hHigh
        rcases Nat.lt_succ_iff_lt_or_eq.mp hHigh with hj | rfl
        · exact hRun j (by omega) hj
        · exact hHead
      by_cases hEnough : procs + 1 = numProcs
      · have hInner : subSizeT (procs + 1) 1 = procs := subSizeT_of_le (by omega) (by omega)
        have hFirst : subSizeT i (subSizeT (procs + 1) 1) = i - procs := by
          rw [hInner, subSizeT_of_le (by omega) (by omega)]
        simp only [if_true, hEnough]
        rw [← hEnough, hFirst]
        exact ⟨by omega, by omega, fun j hLow hHigh => hRun' j (by omega) (by omega)⟩
      · simp only [if_true, if_neg hEnough] at hFound ⊢
        exact ih (i + 1) (procs + 1) hTail (by omega) hRun' hFound
    | false =>
      by_cases hEnough : 0 = numProcs
      · have hFirst : subSizeT i (subSizeT 0 1) = i + 1 := by
          simp only [subSizeT]
          omega
        simp only [Bool.false_eq_true, if_false, hEnough, if_true] at hFound ⊢
        rw [← hEnough, hFirst] at hFound ⊢
        exact ⟨by omega, by omega, fun j hLow hHigh => by omega⟩
      · simp only [Bool.false_eq_true, if_false, if_neg hEnough] at hFound ⊢
        exact ih (i + 1) 0 hTail (by omega) (fun j hLow hHigh => by omega) hFound

theorem findAvailableProcs_spec {available : List Bool} {numProcs : Nat}
    (hSize : available.length < 2 ^ 31)
    (hFound : findAvailableProcs available numProcs < available.length) :
    1 ≤ findAvailableProcs available numProcs ∧
      findAvailableProcs available numProcs + numProcs ≤ available.length ∧
      ∀ j, findAvailableProcs available numProcs ≤ j →
        j < findAvailableProcs available numProcs + numProcs → available[j]? = some true :=
  findAvailableProcsFrom_spec numProcs available available.tail 1 0 hSize List.drop_one
    (by omega) (fun j hLow hHigh => by omega) hFound

/-- The job at the head of the queue and the block of ranks that `run_job` gives it. -/
structure Placed (s : Scheduler) (job : Job) (jobs : List Job) (first : Nat) : Prop where
  jobs_eq : s.jobs = job :: jobs
  first_pos : 1 ≤ first
  fits : first + job.size ≤ s.availableProcs.length
  available : ∀ rank, first ≤ rank → rank < first + job.size → s.availableProcs[rank]? = some true

def run (s : Scheduler) (job : Job) (jobs : List Job) (first : Nat) (now : Time) : Scheduler :=
  { s with
    jobs := jobs
    availableProcs := setProcs s.availableProcs first (first + job.size - 1) false
    activeJobs := s.activeJobs.insert job.id ⟨first, first + job.size - 1, now⟩ }

theorem runJob_eq {s : Scheduler} (hSize : s.availableProcs.length < 2 ^ 31)
    (hCanRun : s.canRun = true) :
    ∃ job jobs first, s.Placed job jobs first ∧
      ∀ now, s.runJob now =
        some (s.run job jobs first now, ⟨first, first + job.size - 1, job⟩) := by
  obtain ⟨_ | ⟨job, jobs⟩, activeJobs, results, jobTimes, jobId, available⟩ := s
  · simp [canRun] at hCanRun
  · simp only [canRun, decide_eq_true_eq] at hCanRun
    obtain ⟨hPos, hFits, hAvailable⟩ := findAvailableProcs_spec hSize hCanRun
    refine ⟨job, jobs, _, ⟨rfl, hPos, hFits, hAvailable⟩, fun now => ?_⟩
    simp only at hSize hPos hFits
    simp only [runJob, run]
    rw [addSizeT_of_lt (by omega), subSizeT_of_le (by omega) (by omega)]

end Scheduler

inductive SchedulerStep (s : Scheduler) : Scheduler → Prop
  | schedule (name function arg groups size) :
      SchedulerStep s (s.schedule name function arg groups size)
  | pop (mb results) : s.results = mb :: results → SchedulerStep s { s with results := results }
  | answer (now a) : SchedulerStep s (s.handleAnswer now a)
  | run (now s' m) : s.canRun = true → s.runJob now = some (s', m) → SchedulerStep s s'

theorem Controller.step_cases {c c' : Controller} {a : ControllerAction}
    (h : c.step a = some c') :
    c'.scheduler = c.scheduler ∨ SchedulerStep c.scheduler c'.scheduler := by
  cases a with
  | schedule name function arg groups size =>
    simp only [step, Option.ite_none_right_eq_some, Option.some.injEq] at h
    exact .inr (h.2 ▸ .schedule name function arg groups size)
  | pop =>
    simp only [step, Option.ite_none_right_eq_some, Option.map_eq_some_iff] at h
    obtain ⟨_, ⟨mb, s⟩, hPop, rfl⟩ := h
    simp only [Scheduler.pop] at hPop
    split at hPop
    · cases hPop
    · rename_i results hResults
      cases hPop
      exact .inr (.pop mb results hResults)
  | answer now a =>
    simp only [step, Option.ite_none_right_eq_some, Option.some.injEq] at h
    exact .inr (h.2 ▸ .answer now a)
  | runJob now =>
    simp only [step, Option.ite_none_right_eq_some, Option.map_eq_some_iff] at h
    obtain ⟨⟨_, hCanRun⟩, ⟨s, m⟩, hRun, rfl⟩ := h
    exact .inr (.run now s m hCanRun hRun)
  | noAnswer =>
    simp only [step] at h
    split at h <;> cases h <;> exact .inl rfl
  | control | controlReturn | finish | check | signalStop =>
    simp only [step, Option.ite_none_right_eq_some, Option.some.injEq] at h
    exact .inl (h.2 ▸ rfl)

structure Allocated (w : World) (s : Scheduler) : Prop where
  length : s.availableProcs.length = w.size
  queued : ∀ job ∈ s.jobs, job.id < s.jobId ∧ ∀ aj, ¬ s.Active job.id aj
  nodup : (s.jobs.map Job.id).Nodup
  active_lt : ∀ id aj, s.Active id aj → id < s.jobId
  within : ∀ id aj, s.Active id aj → aj.ranks ⊆ Set.Ico w.controllerRanks w.size
  disjoint : ∀ id id' aj aj', s.Active id aj → s.Active id' aj' → id ≠ id' →
    Disjoint aj.ranks aj'.ranks
  available : ∀ rank, 1 ≤ rank → (s.availableProcs[rank]? = some true ↔
    rank ∈ Set.Ico w.controllerRanks w.size ∧ ∀ id aj, s.Active id aj → rank ∉ aj.ranks)

theorem Scheduler.active_handleAnswer {s : Scheduler} {now : Time} {a : Answer} {id : Nat}
    {aj : ActiveJob} : (s.handleAnswer now a).Active id aj ↔ id ≠ a.id ∧ s.Active id aj := by
  simp only [Active, handleAnswer, Std.ExtTreeMap.getElem?_erase,
    Std.LawfulEqCmp.compare_eq_iff_eq, Option.ite_none_left_eq_some, ne_eq, @eq_comm _ a.id]

theorem Scheduler.active_run {s : Scheduler} {job : Job} {jobs : List Job} {first : Nat}
    {now : Time} {id : Nat} {aj : ActiveJob} (hJob : ∀ aj, ¬ s.Active job.id aj) :
    (s.run job jobs first now).Active id aj ↔
      id = job.id ∧ aj = ⟨first, first + job.size - 1, now⟩ ∨ s.Active id aj := by
  simp only [Active, run, Std.ExtTreeMap.getElem?_insert, Std.LawfulEqCmp.compare_eq_iff_eq]
  by_cases hId : job.id = id
  · subst hId
    have hNone : ¬ s.activeJobs[job.id]? = some aj := hJob aj
    simp [hNone, eq_comm]
  · simp [hId, Ne.symm hId]

theorem Scheduler.Active.unique {s : Scheduler} {id : Nat} {aj aj' : ActiveJob}
    (h : s.Active id aj) (h' : s.Active id aj') : aj = aj' :=
  Option.some.inj (h.symm.trans h')

theorem Scheduler.activeJobs_eq_empty_iff {s : Scheduler} :
    s.activeJobs = ∅ ↔ ∀ id aj, ¬ s.Active id aj := by
  constructor
  · intro hEmpty id aj hActive
    rw [Active, hEmpty] at hActive
    cases hActive
  · intro hIdle
    rw [Std.ExtTreeMap.eq_empty_iff_forall_not_mem]
    intro id hMem
    rw [Std.ExtTreeMap.mem_iff_isSome_getElem?] at hMem
    obtain ⟨aj, hActive⟩ := Option.isSome_iff_exists.mp hMem
    exact hIdle id aj hActive

theorem Scheduler.unfinishedJobs_eq_false {s : Scheduler} :
    s.unfinishedJobs = false ↔ ∀ id aj, ¬ s.Active id aj := by
  rw [unfinishedJobs, Bool.not_eq_false', Std.ExtTreeMap.isEmpty_iff, activeJobs_eq_empty_iff]

theorem Scheduler.controlResult_eq_false {s : Scheduler} :
    s.controlResult = false ↔ s.jobs = [] ∧ ∀ id aj, ¬ s.Active id aj := by
  rw [controlResult, Bool.or_eq_false_iff, unfinishedJobs_eq_false, Bool.not_eq_false',
    List.isEmpty_iff, and_comm]

namespace Allocated

variable {w : World} {s : Scheduler}

theorem new (w : World) : Allocated w (Scheduler.new w) where
  length := by simp [Scheduler.new, length_foldl_set]
  queued := by simp [Scheduler.new]
  nodup := by simp [Scheduler.new]
  active_lt := by simp [Scheduler.new, Scheduler.Active]
  within := by simp [Scheduler.new, Scheduler.Active]
  disjoint := by simp [Scheduler.new, Scheduler.Active]
  available rank hRank := by
    simp only [Scheduler.new, Scheduler.Active, getElem?_foldl_set, List.mem_range,
      List.getElem?_replicate]
    by_cases hController : rank < w.controllerRanks <;> by_cases hSize : rank < w.size
    all_goals simp [hController, hSize]
    all_goals omega

theorem schedule (h : Allocated w s) (name function arg groups size) :
    Allocated w (s.schedule name function arg groups size) where
  length := h.length
  queued job hJob := by
    rcases List.mem_append.mp hJob with hJob | hJob
    · obtain ⟨hId, hNone⟩ := h.queued job hJob
      exact ⟨Nat.lt_succ_of_lt hId, hNone⟩
    · rw [List.mem_singleton.mp hJob]
      exact ⟨Nat.lt_succ_self _, fun aj hActive => Nat.lt_irrefl _ (h.active_lt _ _ hActive)⟩
  nodup := by
    simp only [Scheduler.schedule, List.map_append, List.nodup_append]
    refine ⟨h.nodup, by simp, ?_⟩
    intro id hId id' hId' hEq
    obtain ⟨job, hJob, rfl⟩ := List.mem_map.mp hId
    have hLt := (h.queued job hJob).1
    simp only [Scheduler.newJob, List.map_cons, List.map_nil, List.mem_singleton] at hId'
    omega
  active_lt id aj hActive := Nat.lt_succ_of_lt (h.active_lt id aj hActive)
  within := h.within
  disjoint := h.disjoint
  available := h.available

theorem pop (h : Allocated w s) (results : List MemoryBuffer) :
    Allocated w { s with results := results } :=
  ⟨h.length, h.queued, h.nodup, h.active_lt, h.within, h.disjoint, h.available⟩

theorem answer (h : Allocated w s) (now : Time) (a : Answer) :
    Allocated w (s.handleAnswer now a) where
  length := by simp [Scheduler.handleAnswer, h.length]
  queued job hJob := by
    obtain ⟨hId, hNone⟩ := h.queued job hJob
    exact ⟨hId, fun aj hActive => hNone aj (Scheduler.active_handleAnswer.mp hActive).2⟩
  nodup := h.nodup
  active_lt id aj hActive := h.active_lt id aj (Scheduler.active_handleAnswer.mp hActive).2
  within id aj hActive := h.within id aj (Scheduler.active_handleAnswer.mp hActive).2
  disjoint id id' aj aj' hActive hActive' :=
    h.disjoint id id' aj aj' (Scheduler.active_handleAnswer.mp hActive).2
      (Scheduler.active_handleAnswer.mp hActive').2
  available rank hRank := by
    have hOld := h.available rank hRank
    simp only [Scheduler.active_handleAnswer, and_imp]
    simp only [Scheduler.handleAnswer, getElem?_setProcs]
    cases hAnswered : s.activeJobs[a.id]? with
    | none =>
      -- the zero entry of an unknown id frees rank 0 only
      have hZero : ¬ ((0 : Nat) ≤ rank ∧ rank ≤ 0) := by omega
      simp only [Option.getD_none, if_neg hZero]
      rw [hOld]
      refine and_congr_right fun _ => forall_congr' fun id => forall_congr' fun aj => ?_
      constructor
      · exact fun hFree _ => hFree
      · intro hFree hActive
        refine hFree (fun hId => ?_) hActive
        rw [Scheduler.Active, hId, hAnswered] at hActive
        cases hActive
    | some aj =>
      have hActive : s.Active a.id aj := hAnswered
      simp only [Option.getD_some]
      by_cases hRanks : aj.first ≤ rank ∧ rank ≤ aj.last
      · have hWithin := h.within _ _ hActive hRanks
        have hLength : rank < s.availableProcs.length := h.length ▸ hWithin.2
        simp only [if_pos hRanks, List.getElem?_eq_getElem hLength, Option.map_some, true_iff]
        exact ⟨hWithin, fun id aj' hId hActive' hRanks' =>
          Set.disjoint_left.mp (h.disjoint _ _ _ _ hActive hActive' (Ne.symm hId)) hRanks hRanks'⟩
      · rw [if_neg hRanks, hOld]
        refine and_congr_right fun _ => forall_congr' fun id => forall_congr' fun aj' => ?_
        constructor
        · exact fun hFree _ => hFree
        · intro hFree hActive'
          by_cases hId : id = a.id
          · subst hId
            exact hActive.unique hActive' ▸ hRanks
          · exact hFree hId hActive'

theorem run (h : Allocated w s) {job : Job} {jobs : List Job} {first : Nat}
    (hPlaced : s.Placed job jobs first) (now : Time) :
    Allocated w (s.run job jobs first now) := by
  have hQueued := h.queued job (hPlaced.jobs_eq ▸ List.mem_cons_self)
  have hActive : ∀ id aj, (s.run job jobs first now).Active id aj ↔
      id = job.id ∧ aj = ⟨first, first + job.size - 1, now⟩ ∨ s.Active id aj :=
    fun id aj => Scheduler.active_run hQueued.2
  have hNodup := h.nodup
  rw [hPlaced.jobs_eq, List.map_cons, List.nodup_cons] at hNodup
  -- every rank of the block was free, so the block meets no active job
  have hFree : ∀ rank, first ≤ rank → rank ≤ first + job.size - 1 →
      rank ∈ Set.Ico w.controllerRanks w.size ∧ ∀ id aj, s.Active id aj → rank ∉ aj.ranks := by
    intro rank hLow hHigh
    have hPos := hPlaced.first_pos
    exact (h.available rank (by omega)).mp (hPlaced.available rank hLow (by omega))
  refine ⟨by simp [Scheduler.run, h.length], ?_, hNodup.2, ?_, ?_, ?_, ?_⟩
  · intro job' hJob'
    obtain ⟨hId, hNone⟩ := h.queued job' (hPlaced.jobs_eq ▸ List.mem_cons_of_mem _ hJob')
    refine ⟨hId, fun aj hNew => ?_⟩
    rcases (hActive _ _).mp hNew with ⟨hSame, -⟩ | hOld
    · exact hNodup.1 (hSame ▸ List.mem_map_of_mem hJob')
    · exact hNone aj hOld
  · intro id aj hNew
    rcases (hActive _ _).mp hNew with ⟨rfl, -⟩ | hOld
    · exact hQueued.1
    · exact h.active_lt _ _ hOld
  · intro id aj hNew
    rcases (hActive _ _).mp hNew with ⟨rfl, rfl⟩ | hOld
    · exact fun rank hRank => (hFree rank hRank.1 hRank.2).1
    · exact h.within _ _ hOld
  · intro id id' aj aj' hNew hNew' hId
    rcases (hActive _ _).mp hNew with ⟨rfl, rfl⟩ | hOld
    · rcases (hActive _ _).mp hNew' with ⟨rfl, -⟩ | hOld'
      · exact absurd rfl hId
      · exact Set.disjoint_left.mpr fun rank hRank => (hFree rank hRank.1 hRank.2).2 _ _ hOld'
    · rcases (hActive _ _).mp hNew' with ⟨rfl, rfl⟩ | hOld'
      · exact Set.disjoint_right.mpr fun rank hRank => (hFree rank hRank.1 hRank.2).2 _ _ hOld
      · exact h.disjoint _ _ _ _ hOld hOld' hId
  · intro rank hRank
    simp only [hActive]
    rw [Scheduler.run, getElem?_setProcs]
    by_cases hBlock : first ≤ rank ∧ rank ≤ first + job.size - 1
    · have hNot : ¬ ∀ id aj, (id = job.id ∧ aj = ⟨first, first + job.size - 1, now⟩ ∨
          s.Active id aj) → rank ∉ aj.ranks :=
        fun hAll => hAll _ _ (.inl ⟨rfl, rfl⟩) hBlock
      simp [hBlock, hNot]
    · rw [if_neg hBlock, h.available rank hRank]
      refine and_congr_right fun _ => ?_
      constructor
      · rintro hAll id aj (⟨-, rfl⟩ | hOld)
        · exact hBlock
        · exact hAll id aj hOld
      · exact fun hAll id aj hOld => hAll id aj (.inr hOld)

theorem step (h : Allocated w s) {s' : Scheduler} (hStep : SchedulerStep s s') :
    Allocated w s' := by
  cases hStep with
  | schedule name function arg groups size => exact h.schedule name function arg groups size
  | pop mb results hResults => exact h.pop results
  | answer now a => exact h.answer now a
  | run now _ m hCanRun hRun =>
    have hSize := w.size_lt
    obtain ⟨job, jobs, first, hPlaced, hEq⟩ := Scheduler.runJob_eq (h.length ▸ hSize) hCanRun
    obtain ⟨rfl, -⟩ := Prod.mk.inj (Option.some.inj ((hEq now).symm.trans hRun))
    exact h.run hPlaced now

end Allocated

theorem allocated_of_reachable {w : World} {c : Controller}
    (h : (controllerMachine w).Reachable c) : Allocated w c.scheduler := by
  refine h.invariant (I := fun c => Allocated w c.scheduler) (Allocated.new w) ?_
  intro c a c' hInv hStep
  rcases Controller.step_cases hStep with hSame | hStep
  · exact hSame ▸ hInv
  · exact hInv.step hStep

/-- In every state that the controller can reach, whatever is scheduled and answered,
active jobs share no rank, have only worker ranks, and leave the others available. -/
theorem rank_allocation_exclusive (w : World) {c : Controller}
    (h : (controllerMachine w).Reachable c) :
    (∀ id id' aj aj', c.scheduler.Active id aj → c.scheduler.Active id' aj' → id ≠ id' →
      Disjoint aj.ranks aj'.ranks) ∧
    (∀ id aj, c.scheduler.Active id aj → aj.ranks ⊆ Set.Ico w.controllerRanks w.size) ∧
    ∀ rank, 1 ≤ rank → rank < w.size → (c.scheduler.availableProcs[rank]? = some true ↔
      w.controllerRanks ≤ rank ∧ ∀ id aj, c.scheduler.Active id aj → rank ∉ aj.ranks) := by
  have hInv := allocated_of_reachable h
  refine ⟨hInv.disjoint, hInv.within, fun rank hPos hRank => ?_⟩
  rw [hInv.available rank hPos]
  simp [hRank]

theorem rank_allocation_exclusive_run :
    ∃ c : Controller, c.scheduler.availableProcs = [true, true, true, false, false] ∧
      ∀ id aj, c.scheduler.Active id aj → aj.ranks ⊆ Set.Ico 1 5 := by
  let w : World := ⟨5, 1, by decide, by decide, by decide⟩
  let answer : Answer := ⟨2, 0, ⟨[]⟩, ⟨0, [7]⟩⟩
  let actions : List ControllerAction :=
    [.schedule ⟨[]⟩ ⟨[]⟩ ⟨0, []⟩ [] 2, .schedule ⟨[]⟩ ⟨[]⟩ ⟨0, []⟩ [] 2,
      .schedule ⟨[]⟩ ⟨[]⟩ ⟨0, []⟩ [] (-1), .control, .noAnswer, .runJob 1, .runJob 2,
      .controlReturn, .control, .answer 5 answer, .answer 6 answer, .noAnswer, .controlReturn]
  have hRun : ((controllerMachine w).run actions (Controller.new w)).map
      (·.scheduler.availableProcs) = some [true, true, true, false, false] := by decide
  obtain ⟨c, hc, hProcs⟩ := Option.map_eq_some_iff.mp hRun
  exact ⟨c, hProcs,
    (rank_allocation_exclusive w (Machine.reachable_of_run actions .initial hc)).2.1⟩

end Henson
