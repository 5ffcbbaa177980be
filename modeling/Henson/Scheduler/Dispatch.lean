import Mathlib.Order.Bounds.Basic
import Henson.Scheduler.Progress
import Henson.Scheduler.UnknownAnswers

/-!
# One call of `control`

The call takes every answer that is pending and then runs jobs from the head of the
queue. The counter of the search for ranks never passes over a block that is long
enough, so a job gets the lowest one, and the head of the queue is left waiting only
when there is none.
-/

namespace Henson

open MachineInt TransitionSystem

structure FreeBlock (available : List Bool) (n first : Nat) : Prop where
  first_pos : 1 ≤ first
  fits : first + n ≤ available.length
  free : ∀ rank, first ≤ rank → rank < first + n → available[rank]? = some true

namespace Scheduler

/-- `check_for_complete_jobs`, with the answers that it finds and the times it takes them. -/
def checkForCompleteJobs (s : Scheduler) (pending : List (Time × Answer)) : Scheduler :=
  pending.foldl (fun s p => s.handleAnswer p.1 p.2) s

/-- The second loop of `control` over a queue of `n` jobs, with the messages it sends. -/
def runJobs : Nat → (Nat → Time) → Scheduler → Scheduler × List JobMessage
  | 0, _, s => (s, [])
  | n + 1, clock, s =>
    if s.canRun then
      match s.runJob (clock 0) with
      | none => (s, [])
      | some (s', m) =>
        let (t, sent) := runJobs n (fun i => clock (i + 1)) s'
        (t, m :: sent)
    else (s, [])

def control (s : Scheduler) (pending : List (Time × Answer)) (clock : Nat → Time) :
    Bool × Scheduler × List JobMessage :=
  let s := s.checkForCompleteJobs pending
  let (t, sent) := runJobs s.jobs.length clock s
  (t.controlResult, t, sent)

/-- While a block is not yet passed, the counter reaches back to its start or has not come to it. -/
theorem findAvailableProcsFrom_le {numProcs first i procs : Nat} {available rest : List Bool}
    (hBlock : FreeBlock available numProcs first) (hPos : 1 ≤ numProcs)
    (hSize : available.length < 2 ^ 31) (hRest : available.drop i = rest)
    (hProcs : procs < i) (hFew : procs < numProcs) (hAhead : i < first + numProcs)
    (hBack : first < i → i - procs ≤ first) :
    findAvailableProcsFrom numProcs available.length i procs rest ≤ first := by
  have hFits := hBlock.fits
  induction rest generalizing i procs with
  | nil =>
    rw [List.drop_eq_nil_iff] at hRest
    omega
  | cons a rest ih =>
    have hHead : available[i]? = some a := by
      rw [← List.head?_drop, hRest, List.head?_cons]
    have hTail : available.drop (i + 1) = rest := by
      rw [← List.tail_drop, hRest, List.tail_cons]
    rw [findAvailableProcsFrom]
    cases a with
    | true =>
      by_cases hEnough : procs + 1 = numProcs
      · have hInner : subSizeT (procs + 1) 1 = procs := subSizeT_of_le (by omega) (by omega)
        have hFound : subSizeT i procs = i - procs := subSizeT_of_le (by omega) (by omega)
        simp only [if_true, if_pos hEnough, hInner, hFound]
        omega
      · simp only [if_true, if_neg hEnough]
        exact ih hTail (by omega) (by omega) (by omega) (by omega)
    | false =>
      -- a rank that is not available stands before the block
      have hBefore : i < first := by
        by_contra hNot
        have hFree := hBlock.free i (by omega) hAhead
        rw [hHead] at hFree
        cases hFree
      simp only [Bool.false_eq_true, if_false, if_neg (show ¬ 0 = numProcs by omega)]
      exact ih hTail (by omega) (by omega) (by omega) (by omega)

theorem findAvailableProcs_le {available : List Bool} {numProcs first : Nat}
    (hBlock : FreeBlock available numProcs first) (hPos : 1 ≤ numProcs)
    (hSize : available.length < 2 ^ 31) : findAvailableProcs available numProcs ≤ first := by
  have hFirst := hBlock.first_pos
  exact findAvailableProcsFrom_le hBlock hPos hSize List.drop_one (by omega) (by omega) (by omega)
    (by omega)

theorem isLeast_findAvailableProcs {available : List Bool} {numProcs : Nat} (hPos : 1 ≤ numProcs)
    (hSize : available.length < 2 ^ 31)
    (hFound : findAvailableProcs available numProcs < available.length) :
    IsLeast {first | FreeBlock available numProcs first}
      (findAvailableProcs available numProcs) := by
  obtain ⟨hFirst, hFits, hFree⟩ := findAvailableProcs_spec hSize hFound
  exact ⟨⟨hFirst, hFits, hFree⟩, fun first hBlock => findAvailableProcs_le hBlock hPos hSize⟩

theorem findAvailableProcs_lt_iff {available : List Bool} {numProcs : Nat} (hPos : 1 ≤ numProcs)
    (hSize : available.length < 2 ^ 31) :
    findAvailableProcs available numProcs < available.length ↔
      ∃ first, FreeBlock available numProcs first := by
  constructor
  · intro hFound
    exact ⟨_, (isLeast_findAvailableProcs hPos hSize hFound).1⟩
  · rintro ⟨first, hBlock⟩
    have hFits := hBlock.fits
    have hLe := findAvailableProcs_le hBlock hPos hSize
    omega

/-- Jobs are run from the head of the queue on, each on the lowest block that is free by then. -/
inductive RunsInOrder : Scheduler → List JobMessage → Scheduler → Prop
  | done (s) : RunsInOrder s [] s
  | run {s t : Scheduler} {job : Job} {jobs : List Job} {first : Nat} {sent : List JobMessage}
      (now : Time) : s.jobs = job :: jobs →
      IsLeast {r | FreeBlock s.availableProcs job.size r} first →
      RunsInOrder (s.run job jobs first now) sent t →
      RunsInOrder s (⟨first, first + job.size - 1, job⟩ :: sent) t

def Stuck (s : Scheduler) : Prop :=
  ∀ job ∈ s.jobs.head?, ∀ first, ¬ FreeBlock s.availableProcs job.size first

theorem RunsInOrder.jobs_eq {s t : Scheduler} {sent : List JobMessage}
    (h : RunsInOrder s sent t) : s.jobs = sent.map JobMessage.job ++ t.jobs := by
  induction h with
  | done s => rfl
  | run now hJobs _ _ ih =>
    rw [hJobs, List.map_cons, List.cons_append]
    exact congrArg _ ih

theorem length_run (s : Scheduler) (job : Job) (jobs : List Job) (first : Nat) (now : Time) :
    (s.run job jobs first now).availableProcs.length = s.availableProcs.length :=
  length_setProcs _ _ _ _

theorem exists_run_of_canRun {s : Scheduler} (hSize : s.availableProcs.length < 2 ^ 31)
    (hSizes : ∀ job ∈ s.jobs, 1 ≤ job.size) (hCanRun : s.canRun = true) :
    ∃ job jobs first, s.jobs = job :: jobs ∧
      IsLeast {r | FreeBlock s.availableProcs job.size r} first ∧
      ∀ now, s.runJob now =
        some (s.run job jobs first now, ⟨first, first + job.size - 1, job⟩) := by
  obtain ⟨job, jobs, first, hPlaced, hRun⟩ := runJob_eq hSize hCanRun
  have hJobs := hPlaced.jobs_eq
  have hFirst : findAvailableProcs s.availableProcs job.size = first := by
    have hMessage := hRun 0
    simp only [runJob, hJobs, Option.some.injEq, Prod.mk.injEq, JobMessage.mk.injEq] at hMessage
    exact hMessage.2.1
  have hFound : findAvailableProcs s.availableProcs job.size < s.availableProcs.length := by
    simpa only [canRun, hJobs, decide_eq_true_eq] using hCanRun
  refine ⟨job, jobs, first, hJobs, ?_, hRun⟩
  rw [← hFirst]
  exact isLeast_findAvailableProcs (hSizes job (hJobs ▸ List.mem_cons_self)) hSize hFound

theorem stuck_of_not_canRun {s : Scheduler} (hSize : s.availableProcs.length < 2 ^ 31)
    (hSizes : ∀ job ∈ s.jobs, 1 ≤ job.size) (hCanRun : s.canRun = false) : s.Stuck := by
  intro job hHead first hBlock
  obtain ⟨jobs, hJobs⟩ := List.head?_eq_some_iff.mp hHead
  have hFound := (findAvailableProcs_lt_iff (hSizes job (hJobs ▸ List.mem_cons_self)) hSize).mpr
    ⟨first, hBlock⟩
  simp only [canRun, hJobs, decide_eq_false_iff_not] at hCanRun
  exact hCanRun hFound

theorem runJobs_spec (n : Nat) (clock : Nat → Time) {s : Scheduler} (hJobs : s.jobs.length = n)
    (hSize : s.availableProcs.length < 2 ^ 31) (hSizes : ∀ job ∈ s.jobs, 1 ≤ job.size) :
    RunsInOrder s (runJobs n clock s).2 (runJobs n clock s).1 ∧ (runJobs n clock s).1.Stuck := by
  induction n generalizing s clock with
  | zero =>
    refine ⟨.done s, fun job hHead => ?_⟩
    rw [runJobs, List.length_eq_zero_iff.mp hJobs] at hHead
    cases hHead
  | succ n ih =>
    cases hCanRun : s.canRun with
    | false =>
      rw [runJobs, hCanRun]
      exact ⟨.done s, stuck_of_not_canRun hSize hSizes hCanRun⟩
    | true =>
      obtain ⟨job, jobs, first, hHead, hLeast, hRun⟩ :=
        exists_run_of_canRun hSize hSizes hCanRun
      have hNext := ih (fun i => clock (i + 1)) (s := s.run job jobs first (clock 0))
        (by rw [hHead, List.length_cons] at hJobs; exact Nat.succ.inj hJobs)
        (by rwa [length_run])
        (fun job' hJob' => hSizes job' (hHead ▸ List.mem_cons_of_mem job hJob'))
      rw [runJobs, hCanRun, if_pos rfl, hRun]
      exact ⟨.run (clock 0) hHead hLeast hNext.1, hNext.2⟩

/-- What taking the pending answers does: each is queued and recorded, its job is no longer
active, and the ranks of that job are available. -/
structure Processed (s : Scheduler) (pending : List (Time × Answer)) (t : Scheduler) : Prop where
  jobs : t.jobs = s.jobs
  results : t.results = s.results ++ pending.map fun p => p.2.result
  jobTimes : t.jobTimes.map (fun x => (x.id, x.name)) =
    s.jobTimes.map (fun x => (x.id, x.name)) ++ pending.map fun p => (p.2.id, p.2.name)
  active : ∀ id aj, t.Active id aj ↔ (∀ p ∈ pending, id ≠ p.2.id) ∧ s.Active id aj
  length : t.availableProcs.length = s.availableProcs.length
  available : ∀ rank, 1 ≤ rank → (t.availableProcs[rank]? = some true ↔
    s.availableProcs[rank]? = some true ∨ rank < s.availableProcs.length ∧
      ∃ p ∈ pending, ∃ aj, s.Active p.2.id aj ∧ rank ∈ aj.ranks)

theorem Processed.nil (s : Scheduler) : Processed s [] s where
  jobs := rfl
  results := (List.append_nil _).symm
  jobTimes := (List.append_nil _).symm
  active := by simp
  length := rfl
  available := by simp

theorem available_handleAnswer {s : Scheduler} {now : Time} {a : Answer} {rank : Nat}
    (hRank : 1 ≤ rank) : (s.handleAnswer now a).availableProcs[rank]? = some true ↔
      s.availableProcs[rank]? = some true ∨ rank < s.availableProcs.length ∧
        ∃ aj, s.Active a.id aj ∧ rank ∈ aj.ranks := by
  rw [handleAnswer, getElem?_setProcs]
  cases hJob : s.activeJobs[a.id]? with
  | none =>
    have hZero : ¬ ((0 : Nat) ≤ rank ∧ rank ≤ 0) := by omega
    simp only [Option.getD_none, if_neg hZero, Active, hJob, reduceCtorEq, false_and, exists_false,
      and_false, or_false]
  | some aj =>
    simp only [Option.getD_some, Active, hJob, Option.some.injEq, exists_eq_left']
    by_cases hRanks : aj.first ≤ rank ∧ rank ≤ aj.last
    · have hMem : rank ∈ aj.ranks := hRanks
      rw [if_pos hRanks]
      by_cases hLength : rank < s.availableProcs.length
      · simp [hMem, hLength]
      · simp [hLength]
    · have hMem : rank ∉ aj.ranks := hRanks
      simp [if_neg hRanks, hMem]

theorem Processed.cons {s t : Scheduler} {now : Time} {a : Answer}
    {pending : List (Time × Answer)} (h : Processed (s.handleAnswer now a) pending t) :
    Processed s ((now, a) :: pending) t where
  jobs := h.jobs
  results := by
    rw [h.results, List.map_cons, ← List.singleton_append, ← List.append_assoc]
    rfl
  jobTimes := by
    rw [h.jobTimes, List.map_cons, ← List.singleton_append, ← List.append_assoc]
    congr 1
    exact List.map_append
  active id aj := by
    rw [h.active, active_handleAnswer, List.forall_mem_cons, ← and_assoc, and_comm (a := id ≠ _)]
  length := h.length.trans (length_setProcs _ _ _ _)
  available rank hRank := by
    have hLength : (s.handleAnswer now a).availableProcs.length = s.availableProcs.length :=
      length_setProcs _ _ _ _
    rw [h.available rank hRank, available_handleAnswer hRank, hLength, or_assoc, ← and_or_left]
    refine or_congr_right (and_congr_right fun _ => ?_)
    simp only [List.exists_mem_cons_iff, active_handleAnswer]
    constructor
    · rintro (hFirst | ⟨p, hp, aj, ⟨-, hActive⟩, hMem⟩)
      · exact .inl hFirst
      · exact .inr ⟨p, hp, aj, hActive, hMem⟩
    · rintro (hFirst | ⟨p, hp, aj, hActive, hMem⟩)
      · exact .inl hFirst
      · by_cases hSame : p.2.id = a.id
        · exact .inl ⟨aj, hSame ▸ hActive, hMem⟩
        · exact .inr ⟨p, hp, aj, ⟨hSame, hActive⟩, hMem⟩

theorem processed_checkForCompleteJobs (s : Scheduler) (pending : List (Time × Answer)) :
    Processed s pending (s.checkForCompleteJobs pending) := by
  induction pending generalizing s with
  | nil => exact .nil s
  | cons p pending ih => exact (ih (s.handleAnswer p.1 p.2)).cons

/-- From every state whose queued jobs have a size, whatever answers are pending: `control` takes
all of them, runs the jobs of a front part of the queue in order, each on the lowest block of
available ranks, stops when the queue is empty or no block is free for its head, and returns
false exactly if the queue is empty and no job is active. -/
theorem control_dispatches_in_order (w : World) {s : Scheduler}
    (hLength : s.availableProcs.length = w.size) (hSizes : ∀ job ∈ s.jobs, 1 ≤ job.size)
    (pending : List (Time × Answer)) (clock : Nat → Time) :
    ∃ taken t sent result, s.control pending clock = (result, t, sent) ∧
      Processed s pending taken ∧ RunsInOrder taken sent t ∧
      s.jobs = sent.map JobMessage.job ++ t.jobs ∧ t.Stuck ∧
      (result = false ↔ t.jobs = [] ∧ ∀ id aj, ¬ t.Active id aj) := by
  have hTaken := processed_checkForCompleteJobs s pending
  have hSize := w.size_lt
  obtain ⟨hRuns, hStuck⟩ := runJobs_spec _ clock rfl (by rwa [hTaken.length, hLength])
    (by rwa [hTaken.jobs])
  exact ⟨_, _, _, _, rfl, hTaken, hRuns, hTaken.jobs ▸ hRuns.jobs_eq, hStuck,
    controlResult_eq_false⟩

/-- An answer frees rank 1; then a job of two ranks gets them, and the next one waits. -/
theorem control_dispatches_in_order_run :
    let job : Nat → Nat → Job := fun id size => ⟨id, ⟨[]⟩, ⟨[]⟩, ⟨0, []⟩, [], size⟩
    ∃ s taken t : Scheduler, s.availableProcs = [false, false, true, false] ∧
      s.jobs = [job 2 2, job 3 1] ∧ RunsInOrder taken [⟨1, 2, job 2 2⟩] t ∧ t.Stuck := by
  intro job
  let w : World := ⟨4, 1, by decide, by decide, by decide⟩
  let s : Scheduler := { Scheduler.new w with
    jobs := [job 2 2, job 3 1]
    activeJobs := (Scheduler.new w).activeJobs.insert 0 ⟨1, 1, 5⟩
    availableProcs := [false, false, true, false] }
  let pending : List (Time × Answer) := [(7, ⟨1, 0, ⟨[]⟩, ⟨0, [4]⟩⟩)]
  obtain ⟨taken, t, sent, result, hControl, -, hRuns, -, hStuck, -⟩ :=
    control_dispatches_in_order w (s := s) rfl (by decide) pending fun _ => 8
  have hSent : (s.control pending fun _ => 8).2.2 = [⟨1, 2, job 2 2⟩] := by decide
  rw [hControl] at hSent
  exact ⟨s, taken, t, rfl, rfl, hSent ▸ hRuns, hStuck⟩

end Scheduler

namespace Controller

variable {w : World} {s : Scheduler} {c c' : Controller}

theorem runJobs_of_not_canRun (h : s.canRun = false) (n : Nat) (clock : Nat → Time) :
    (Scheduler.runJobs n clock s).1 = s := by
  cases n with
  | zero => rfl
  | succ n =>
    rw [Scheduler.runJobs, h]
    rfl

theorem runJobs_of_runJob {n : Nat} {clock : Nat → Time} {now : Time} {s' : Scheduler}
    {m : JobMessage} (hCanRun : s.canRun = true) (hJob : s.runJob now = some (s', m))
    (hNow : clock 0 = now) :
    (Scheduler.runJobs (n + 1) clock s).1 =
      (Scheduler.runJobs n (fun i => clock (i + 1)) s').1 := by
  rw [Scheduler.runJobs, if_pos hCanRun, hNow, hJob]

theorem runJobs_of_dispatching {as : List ControllerAction} (hNot : .controlReturn ∉ as)
    (hRun : (controllerMachine w).run (as ++ [.controlReturn]) ⟨s, .dispatching⟩ = some c') :
    as.flatMap ControllerAction.answers = [] ∧
      ∃ clock, c' = ⟨(Scheduler.runJobs s.jobs.length clock s).1, .ready⟩ := by
  induction as generalizing s with
  | nil =>
    obtain ⟨d, hStep, hEnd⟩ := Option.bind_eq_some_iff.mp hRun
    simp only [controllerMachine, step, Option.ite_none_right_eq_some, Option.some.injEq] at hStep
    obtain ⟨⟨-, hBusy⟩, rfl⟩ := hStep
    obtain rfl := Option.some.inj hEnd
    have hCanRun : s.canRun = false := by simpa using hBusy
    exact ⟨rfl, fun _ => 0, by rw [runJobs_of_not_canRun hCanRun]⟩
  | cons a as ih =>
    have hRestNot : .controlReturn ∉ as := fun h => hNot (List.mem_cons_of_mem a h)
    obtain ⟨d, hStep, hRest⟩ := Option.bind_eq_some_iff.mp hRun
    cases a with
    | runJob now =>
      simp only [controllerMachine, step, Option.ite_none_right_eq_some, Option.map_eq_some_iff,
        true_and] at hStep
      obtain ⟨hCanRun, ⟨s', m⟩, hJob, rfl⟩ := hStep
      obtain ⟨hAnswers, clock, rfl⟩ := ih hRestNot hRest
      refine ⟨hAnswers, fun i => i.casesOn now clock, ?_⟩
      rw [(Scheduler.jobs_of_runJob hJob).1, List.length_cons, runJobs_of_runJob hCanRun hJob]
      rfl
    | controlReturn => exact absurd List.mem_cons_self hNot
    | schedule | pop | control | answer | noAnswer | finish | check | signalStop =>
      simp [controllerMachine, step] at hStep

theorem control_of_checking {as : List ControllerAction} (hNot : .controlReturn ∉ as)
    (hRun : (controllerMachine w).run (as ++ [.controlReturn]) ⟨s, .checking⟩ = some c') :
    ∃ pending clock, pending.map Prod.snd = as.flatMap ControllerAction.answers ∧
      c' = ⟨(s.control pending clock).2.1, .ready⟩ := by
  induction as generalizing s with
  | nil =>
    obtain ⟨d, hStep, -⟩ := Option.bind_eq_some_iff.mp hRun
    simp [controllerMachine, step] at hStep
  | cons a as ih =>
    have hRestNot : .controlReturn ∉ as := fun h => hNot (List.mem_cons_of_mem a h)
    obtain ⟨d, hStep, hRest⟩ := Option.bind_eq_some_iff.mp hRun
    cases a with
    | answer now x =>
      obtain rfl : ⟨s.handleAnswer now x, .checking⟩ = d := Option.some.inj hStep
      obtain ⟨pending, clock, hAnswers, hControl⟩ := ih hRestNot hRest
      exact ⟨(now, x) :: pending, clock, by simp [hAnswers, ControllerAction.answers], hControl⟩
    | noAnswer =>
      obtain rfl : ⟨s, .dispatching⟩ = d := Option.some.inj hStep
      obtain ⟨hAnswers, clock, hRuns⟩ := runJobs_of_dispatching hRestNot hRest
      exact ⟨[], clock, hAnswers.symm, hRuns⟩
    | schedule | pop | control | runJob | controlReturn | finish | check | signalStop =>
      simp [controllerMachine, step] at hStep

/-- A call of the machine, in which answers may come in at any time before the last check, is one
call of `control` on the answers that came. -/
theorem control_of_call {as : List ControllerAction} (hReady : c.phase = .ready)
    (hCall : c.Call w as c') :
    ∃ pending clock, pending.map Prod.snd = as.flatMap ControllerAction.answers ∧
      c' = ⟨(c.scheduler.control pending clock).2.1, .ready⟩ := by
  obtain ⟨hNot, hRun⟩ := hCall
  have hStep : (controllerMachine w).step c .control = some ⟨c.scheduler, .checking⟩ :=
    if_pos hReady
  rw [Machine.run_cons_of_step hStep] at hRun
  exact control_of_checking hNot hRun

end Controller

end Henson
