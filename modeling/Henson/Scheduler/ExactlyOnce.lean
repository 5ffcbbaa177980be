import Mathlib.Data.List.Nodup
import Mathlib.Data.List.Forall2
import Henson.Scheduler.System

/-!
# No job is lost or completed twice

A job that one rank answers owns one token: while it is active, the token is either
its message on the way to that rank, or the answer on its way back. The invariant says
so for all jobs at once, whatever the interleaving.
-/

namespace Henson

open MachineInt TransitionSystem

def Runner.AnswersOnce (runner : Runner) (m : JobMessage) : Prop :=
  (List.range' m.first (m.last + 1 - m.first)).countP (fun rank => !(runner m rank).empty) = 1

/-- Scheduled jobs need at least one rank and at most all workers, and the jobs that are
dispatched answer once. -/
def Admissible (w : World) (runner : Runner) (s : System) : SystemAction → Prop
  | .schedule _ _ _ _ size => 1 ≤ size.toInt ∧ size.toInt ≤ w.workers
  | .runJob now => ∀ p ∈ s.controller.scheduler.runJob now, runner.AnswersOnce p.2
  | _ => True

instance (runner : Runner) (m : JobMessage) : Decidable (runner.AnswersOnce m) :=
  inferInstanceAs (Decidable (_ = _))

instance (w : World) (runner : Runner) (s : System) (a : SystemAction) :
    Decidable (Admissible w runner s a) :=
  match a with
  | .schedule .. => inferInstanceAs (Decidable (_ ∧ _))
  | .runJob now =>
    inferInstanceAs (Decidable (∀ p ∈ s.controller.scheduler.runJob now, runner.AnswersOnce p.2))
  | .pop | .control | .deliver .. | .noAnswer | .controlReturn | .finish | .check | .signalStop
  | .probe _ | .createComm _ | .runnerReturn _ => inferInstanceAs (Decidable True)

/-- No two ranks of the job return something. -/
def Runner.AnswersAtMostOnce (runner : Runner) (m : JobMessage) : Prop :=
  ∀ rank ∈ m.ranks, ∀ rank' ∈ m.ranks, (runner m rank).empty = false →
    (runner m rank').empty = false → rank = rank'

theorem Runner.AnswersOnce.atMostOnce {runner : Runner} {m : JobMessage}
    (h : runner.AnswersOnce m) : runner.AnswersAtMostOnce m := by
  rw [AnswersOnce, List.countP_eq_length_filter, List.length_eq_one_iff] at h
  obtain ⟨holder, hHolder⟩ := h
  have hOnly : ∀ r ∈ m.ranks, (runner m r).empty = false → r = holder := by
    intro r hr hLoud
    obtain ⟨hLow, hHigh⟩ := hr
    rw [← List.mem_singleton, ← hHolder, List.mem_filter, List.mem_range'_1]
    exact ⟨by omega, by rw [hLoud, Bool.not_false]⟩
  intro rank hRank rank' hRank' hEmpty hEmpty'
  rw [hOnly rank hRank hEmpty, hOnly rank' hRank' hEmpty']

/-- The rank's runner returned a buffer for the job `m`, and `mb` is that buffer decoded. -/
def JobMessage.Returned (m : JobMessage) (runner : Runner) (rank : Nat) (mb : MemoryBuffer) :
    Prop :=
  rank ∈ m.ranks ∧ (runner m rank).empty = false ∧ mb = (runner m rank).nested

def OwnResult (runner : Runner) (dispatched : List JobMessage) (t : TimeRecord)
    (mb : MemoryBuffer) : Prop :=
  ∃ m ∈ dispatched, t.id = m.job.id ∧ t.name = m.job.name ∧ ∃ rank, m.Returned runner rank mb

def countId {α : Type} (idOf : α → Nat) (l : List α) (id : Nat) : Nat := l.countP (idOf · = id)

section CountId

variable {α : Type} {idOf : α → Nat}

@[simp] theorem countId_nil (id : Nat) : countId idOf [] id = 0 := rfl

theorem countId_cons (x : α) (l : List α) (id : Nat) :
    countId idOf (x :: l) id = countId idOf l id + if idOf x = id then 1 else 0 := by
  simp [countId, List.countP_cons]

@[simp] theorem countId_append (l l' : List α) (id : Nat) :
    countId idOf (l ++ l') id = countId idOf l id + countId idOf l' id :=
  List.countP_append

theorem countId_eq_zero {l : List α} {id : Nat} (h : ∀ x ∈ l, idOf x ≠ id) :
    countId idOf l id = 0 := by
  simpa [countId] using h

theorem countId_perm {l l' : List α} (h : l.Perm l') (id : Nat) :
    countId idOf l id = countId idOf l' id :=
  h.countP_eq _

end CountId

namespace Scheduler

def queuedCount (s : Scheduler) (id : Nat) : Nat := countId Job.id s.jobs id

def activeCount (s : Scheduler) (id : Nat) : Nat := if s.activeJobs.contains id then 1 else 0

def recordedCount (s : Scheduler) (id : Nat) : Nat := countId TimeRecord.id s.jobTimes id

theorem activeCount_le (s : Scheduler) (id : Nat) : s.activeCount id ≤ 1 := by
  rw [activeCount]
  split <;> omega

theorem activeCount_of_not {s : Scheduler} {id : Nat} (h : ∀ aj, ¬ s.Active id aj) :
    s.activeCount id = 0 := by
  refine if_neg fun hContains => ?_
  rw [Std.ExtTreeMap.contains_eq_isSome_getElem?] at hContains
  obtain ⟨aj, hActive⟩ := Option.isSome_iff_exists.mp hContains
  exact h aj hActive

theorem activeCount_handleAnswer (s : Scheduler) (now : Time) (a : Answer) (id : Nat) :
    (s.handleAnswer now a).activeCount id = if a.id = id then 0 else s.activeCount id := by
  simp only [activeCount, handleAnswer, Std.ExtTreeMap.contains_erase]
  by_cases h : a.id = id <;> simp [h]

theorem activeCount_run (s : Scheduler) (job : Job) (jobs : List Job) (first : Nat) (now : Time)
    (id : Nat) :
    (s.run job jobs first now).activeCount id = if job.id = id then 1 else s.activeCount id := by
  simp only [activeCount, run, Std.ExtTreeMap.contains_insert]
  by_cases h : job.id = id <;> simp [h]

theorem queuedCount_of_placed {s : Scheduler} {job : Job} {jobs : List Job} {first : Nat}
    (h : s.Placed job jobs first) (now : Time) (id : Nat) :
    s.queuedCount id =
      (s.run job jobs first now).queuedCount id + if job.id = id then 1 else 0 := by
  rw [queuedCount, h.jobs_eq, countId_cons]
  rfl

end Scheduler

/-- Every message in a pipeline and every answer in flight is of a job that was dispatched. -/
structure Sourced (runner : Runner) (b : System.Books) : Prop where
  pipeline : ∀ rank, ∀ m ∈ b.pipeline rank, m ∈ b.dispatched ∧ rank ∈ m.ranks
  answers : ∀ a ∈ b.answers, ∃ m ∈ b.dispatched, a.id = m.job.id ∧ a.name = m.job.name ∧
    m.Returned runner a.source a.result

namespace Sourced

variable {runner : Runner} {b : System.Books}

theorem deliver (h : Sourced runner b) (scheduler : Scheduler) {a : Answer} {rest : List Answer}
    (hAnswers : b.answers.Perm (a :: rest)) :
    Sourced runner { b with scheduler := scheduler, answers := rest } where
  pipeline := h.pipeline
  answers a' ha' := h.answers a' (hAnswers.mem_iff.mpr (List.mem_cons_of_mem _ ha'))

theorem dispatch (h : Sourced runner b) (scheduler : Scheduler) (m : JobMessage) :
    Sourced runner { b with
      scheduler := scheduler
      pipeline := fun rank => b.pipeline rank ++ if rank ∈ m.ranks then [m] else []
      dispatched := b.dispatched ++ [m] } where
  pipeline rank m' hm' := by
    rcases List.mem_append.mp hm' with hm' | hm'
    · obtain ⟨hOld, hRank⟩ := h.pipeline rank m' hm'
      exact ⟨List.mem_append_left _ hOld, hRank⟩
    · rw [List.mem_ite_nil_right, List.mem_singleton] at hm'
      obtain ⟨hRank, rfl⟩ := hm'
      exact ⟨List.mem_append_right _ (List.mem_singleton_self _), hRank⟩
  answers a ha := by
    obtain ⟨m', hm', hOwn⟩ := h.answers a ha
    exact ⟨m', List.mem_append_left _ hm', hOwn⟩

theorem runnerReturn (h : Sourced runner b) {rank : Nat} {m : JobMessage} {rest : List JobMessage}
    (hHead : b.pipeline rank = m :: rest) :
    Sourced runner { b with
      pipeline := Function.update b.pipeline rank rest
      answers := b.answers ++ System.answerOf runner m rank } where
  pipeline rank' m' hm' := by
    dsimp only at hm'
    by_cases hSame : rank' = rank
    · subst hSame
      rw [Function.update_self] at hm'
      exact h.pipeline rank' m' (hHead ▸ List.mem_cons_of_mem _ hm')
    · rw [Function.update_of_ne hSame] at hm'
      exact h.pipeline rank' m' hm'
  answers a ha := by
    rcases List.mem_append.mp ha with ha | ha
    · exact h.answers a ha
    · rw [System.answerOf, List.mem_ite_nil_left, List.mem_singleton] at ha
      obtain ⟨hEmpty, rfl⟩ := ha
      obtain ⟨hm, hRank⟩ := h.pipeline rank m (hHead ▸ List.mem_cons_self)
      exact ⟨m, hm, rfl, rfl, hRank, Bool.not_eq_true _ ▸ hEmpty, rfl⟩

end Sourced

/-- A job that at most one rank answers owns one token while it is active: one entry of that
rank's pipeline or one answer in flight. It has none when it is not. -/
structure Tokens (runner : Runner) (b : System.Books) : Prop
    extends System.Numbered b, Sourced runner b where
  token : ∀ m ∈ b.dispatched, runner.AnswersAtMostOnce m → ∀ rank ∈ m.ranks,
    (runner m rank).empty = false →
      countId Answer.id b.answers m.job.id + (b.pipeline rank).count m =
        b.scheduler.activeCount m.job.id

namespace Tokens

variable {runner : Runner} {b : System.Books}

theorem new (w : World) : Tokens runner (System.new w).books where
  order := rfl
  ids := rfl
  pipeline := by simp [System.new, System.books, System.pipeline]
  answers := by simp [System.new, System.books]
  token := by simp [System.new, System.books]

theorem schedule (h : Tokens runner b) (name function arg groups) (size : Int32) :
    Tokens runner { b with
      scheduler := b.scheduler.schedule name function arg groups size
      scheduled := b.scheduled ++ [b.scheduler.newJob name function arg groups size] } where
  toNumbered := h.toNumbered.schedule name function arg groups size
  pipeline := h.pipeline
  answers := h.answers
  token := h.token

theorem pop (h : Tokens runner b) (mb : MemoryBuffer) (results : List MemoryBuffer) :
    Tokens runner { b with
      scheduler := { b.scheduler with results := results }
      popped := b.popped ++ [mb] } where
  toNumbered := ⟨h.order, h.ids⟩
  pipeline := h.pipeline
  answers := h.answers
  token := h.token

theorem token_of_answer (h : Tokens runner b) {a : Answer} {rest : List Answer}
    (hAnswers : b.answers.Perm (a :: rest)) {m : JobMessage} (hm : m ∈ b.dispatched)
    (hOnce : runner.AnswersAtMostOnce m) (hId : a.id = m.job.id) {rank : Nat}
    (hRank : rank ∈ m.ranks) (hResult : (runner m rank).empty = false) :
    b.scheduler.activeCount m.job.id = 1 ∧ countId Answer.id rest m.job.id = 0 ∧
      (b.pipeline rank).count m = 0 := by
  have hToken := h.token m hm hOnce rank hRank hResult
  have hLe := b.scheduler.activeCount_le m.job.id
  rw [countId_perm hAnswers, countId_cons, if_pos hId] at hToken
  omega

theorem deliver (h : Tokens runner b) (now : Time) {a : Answer} {rest : List Answer}
    (hAnswers : b.answers.Perm (a :: rest)) :
    Tokens runner { b with
      scheduler := b.scheduler.handleAnswer now a
      answers := rest } where
  toNumbered := ⟨h.order, h.ids⟩
  toSourced := h.toSourced.deliver (b.scheduler.handleAnswer now a) hAnswers
  token m hm hOnce rank hRank hEmpty := by
    rw [Scheduler.activeCount_handleAnswer]
    by_cases hSame : a.id = m.job.id
    · obtain ⟨-, hRest, hPipeline⟩ := h.token_of_answer hAnswers hm hOnce hSame hRank hEmpty
      rw [if_pos hSame]
      exact Nat.add_eq_zero_iff.mpr ⟨hRest, hPipeline⟩
    · have hOld := h.token m hm hOnce rank hRank hEmpty
      rw [countId_perm hAnswers, countId_cons, if_neg hSame] at hOld
      rw [if_neg hSame]
      exact hOld

theorem id_ne_of_queued (h : Tokens runner b) {m : JobMessage} {job : Job}
    (hm : m ∈ b.dispatched) (hJob : job ∈ b.scheduler.jobs) : job.id ≠ m.job.id :=
  ((List.nodup_append.mp h.nodup).2.2 _ (List.mem_map_of_mem hm) _
    (List.mem_map_of_mem hJob)).symm

theorem no_token (h : Tokens runner b) {m : JobMessage}
    (hFresh : ∀ m' ∈ b.dispatched, m.job.id ≠ m'.job.id) (rank : Nat) :
    countId Answer.id b.answers m.job.id = 0 ∧ (b.pipeline rank).count m = 0 := by
  constructor
  · refine countId_eq_zero fun a ha hSame => ?_
    obtain ⟨m', hm', hId, -⟩ := h.answers a ha
    exact hFresh m' hm' (hSame.symm.trans hId)
  · exact List.count_eq_zero.mpr fun hIn => hFresh m (h.pipeline rank m hIn).1 rfl

theorem dispatch (h : Tokens runner b) (now : Time) {job : Job} {jobs : List Job}
    {first : Nat} (hPlaced : b.scheduler.Placed job jobs first) {m : JobMessage}
    (hm : m = ⟨first, first + job.size - 1, job⟩) :
    Tokens runner { b with
      scheduler := b.scheduler.run job jobs first now
      pipeline := fun rank => b.pipeline rank ++ if rank ∈ m.ranks then [m] else []
      dispatched := b.dispatched ++ [m] } := by
  have hJob : m.job = job := by rw [hm]
  have hHead : job ∈ b.scheduler.jobs := hPlaced.jobs_eq ▸ List.mem_cons_self
  have hFresh : ∀ m' ∈ b.dispatched, job.id ≠ m'.job.id :=
    fun m' hm' => h.id_ne_of_queued hm' hHead
  have hNew : m ∉ b.dispatched := fun hOld => hFresh m hOld (hJob ▸ rfl)
  have hJobs : b.scheduler.jobs = m.job :: (b.scheduler.run job jobs first now).jobs :=
    hJob ▸ hPlaced.jobs_eq
  refine ⟨⟨(h.toNumbered.dispatch b.pipeline hJobs rfl).order, h.ids⟩,
    h.toSourced.dispatch (b.scheduler.run job jobs first now) m, ?_⟩
  intro m' hm' hOnce rank hRank hEmpty
  rw [Scheduler.activeCount_run, List.count_append]
  rcases List.mem_append.mp hm' with hOld | hm'
  · have hCount : List.count m' (if rank ∈ m.ranks then [m] else []) = 0 := by
      rw [List.count_eq_zero, List.mem_ite_nil_right, List.mem_singleton]
      exact fun hSame => hNew (hSame.2 ▸ hOld)
    rw [if_neg (hFresh m' hOld), hCount]
    exact h.token m' hOld hOnce rank hRank hEmpty
  · obtain rfl := List.mem_singleton.mp hm'
    obtain ⟨hNone, hZero⟩ := h.no_token (hJob ▸ hFresh) rank
    dsimp only
    rw [hNone, hZero, if_pos hRank, if_pos (by rw [hJob]), List.count_singleton_self]

theorem runnerReturn (h : Tokens runner b) {rank : Nat} {m : JobMessage}
    {rest : List JobMessage} (hHead : b.pipeline rank = m :: rest) :
    Tokens runner { b with
      pipeline := Function.update b.pipeline rank rest
      answers := b.answers ++ System.answerOf runner m rank } := by
  obtain ⟨hm, hRank⟩ := h.pipeline rank m (hHead ▸ List.mem_cons_self)
  refine ⟨⟨h.order, h.ids⟩, h.toSourced.runnerReturn hHead, ?_⟩
  intro m' hm' hOnce rank' hRank' hEmpty'
  have hOld := h.token m' hm' hOnce rank' hRank' hEmpty'
  have hSplit : countId Answer.id (System.answerOf runner m rank) m'.job.id +
      (Function.update b.pipeline rank rest rank').count m' =
      (b.pipeline rank').count m' := by
    by_cases hJob : m = m'
    · subst hJob
      by_cases hSame : rank' = rank
      · subst hSame
        rw [System.answerOf, hEmpty', Function.update_self, hHead]
        simp [countId_cons, Nat.add_comm]
      · have hSilent : (runner m rank).empty = true := by
          by_contra hLoud
          rw [Bool.not_eq_true] at hLoud
          exact hSame (hOnce rank' hRank' rank hRank hEmpty' hLoud)
        rw [System.answerOf, hSilent, Function.update_of_ne hSame]
        simp
    · have hOther : countId Answer.id (System.answerOf runner m rank) m'.job.id = 0 := by
        refine countId_eq_zero fun a ha hId => hJob (h.eq_of_id hm hm' ?_)
        rw [System.answerOf, List.mem_ite_nil_left, List.mem_singleton] at ha
        rw [← hId, ha.2]
      rw [hOther, Nat.zero_add]
      by_cases hSame : rank' = rank
      · subst hSame
        rw [Function.update_self, hHead, List.count_cons_of_ne hJob]
      · rw [Function.update_of_ne hSame]
  rw [countId_append, Nat.add_assoc, hSplit]
  exact hOld

theorem step {w : World} {s s' : System} {a : SystemAction} (h : Tokens runner s.books)
    (hAllocated : Allocated w s.controller.scheduler) (hStep : s.step w runner a = some s') :
    Tokens runner s'.books := by
  have hEffect := System.effect_of_step hStep
  generalize s'.books = b' at hEffect
  cases hEffect with
  | quiet => exact h
  | schedule name function arg groups size => exact h.schedule name function arg groups size
  | pop mb results _ => exact h.pop mb results
  | deliver now index a rest hAnswers => exact h.deliver now hAnswers
  | dispatch now m scheduler hCanRun hRun =>
    obtain ⟨job, jobs, first, hPlaced, hEq⟩ :=
      Scheduler.runJob_eq (hAllocated.length ▸ w.size_lt) hCanRun
    obtain ⟨rfl, hm⟩ := Prod.mk.inj (Option.some.inj ((hEq now).symm.trans hRun))
    exact h.dispatch now hPlaced hm.symm
  | runnerReturn rank m rest hHead => exact h.runnerReturn hHead

end Tokens

theorem tokens_of_reachable {w : World} {runner : Runner} {s : System}
    (h : (schedulerMachine w runner).Reachable s) : Tokens runner s.books := by
  refine h.invariant_of_reachable (I := fun s => Tokens runner s.books) (.new w) ?_
  intro s a s' hReach hInv hStep
  exact hInv.step (System.allocated_of_reachable hReach) hStep

/-- The books of a run in which every job that is dispatched answers once. -/
structure ExactlyOnce (runner : Runner) (b : System.Books) : Prop extends Tokens runner b where
  once : ∀ m ∈ b.dispatched, runner.AnswersOnce m
  place : ∀ id < b.scheduler.jobId,
    b.scheduler.queuedCount id + b.scheduler.activeCount id + b.scheduler.recordedCount id = 1
  results : List.Forall₂ (OwnResult runner b.dispatched) b.scheduler.jobTimes
    (b.popped ++ b.scheduler.results)

namespace ExactlyOnce

variable {runner : Runner} {b : System.Books}

theorem new (w : World) : ExactlyOnce runner (System.new w).books where
  toTokens := .new w
  once := by simp [System.new, System.books]
  place := by simp [System.new, System.books, Controller.new, Scheduler.new]
  results := List.Forall₂.nil

theorem scheduled_of_dispatched (h : ExactlyOnce runner b) {m : JobMessage}
    (hm : m ∈ b.dispatched) : m.job ∈ b.scheduled := by
  rw [← h.order]
  exact List.mem_append_left _ (List.mem_map_of_mem hm)

theorem id_lt (h : ExactlyOnce runner b) {job : Job} (hJob : job ∈ b.scheduled) :
    job.id < b.scheduler.jobId := by
  have hId := List.mem_map_of_mem (f := Job.id) hJob
  rwa [h.ids, List.mem_range] at hId

theorem recorded_lt (h : ExactlyOnce runner b) {t : TimeRecord}
    (ht : t ∈ b.scheduler.jobTimes) : t.id < b.scheduler.jobId := by
  obtain ⟨i, hi, rfl⟩ := List.getElem_of_mem ht
  obtain ⟨m, hm, hId, -⟩ := (List.forall₂_iff_get.mp h.results).2 i hi
    ((List.forall₂_iff_get.mp h.results).1 ▸ hi)
  rw [List.get_eq_getElem] at hId
  exact hId ▸ h.id_lt (h.scheduled_of_dispatched hm)

theorem schedule {w : World} (h : ExactlyOnce runner b) (hAllocated : Allocated w b.scheduler)
    (name function arg groups) (size : Int32) :
    ExactlyOnce runner { b with
      scheduler := b.scheduler.schedule name function arg groups size
      scheduled := b.scheduled ++ [b.scheduler.newJob name function arg groups size] } where
  toTokens := h.toTokens.schedule name function arg groups size
  once := h.once
  place id hId := by
    have hQueued : (b.scheduler.schedule name function arg groups size).queuedCount id =
        b.scheduler.queuedCount id + if b.scheduler.jobId = id then 1 else 0 := by
      simp [Scheduler.queuedCount, Scheduler.schedule, Scheduler.newJob, countId_cons]
    have hSame : (b.scheduler.schedule name function arg groups size).activeCount id +
        (b.scheduler.schedule name function arg groups size).recordedCount id =
        b.scheduler.activeCount id + b.scheduler.recordedCount id := rfl
    dsimp only
    rcases Nat.lt_succ_iff_lt_or_eq.mp hId with hOld | rfl
    · have hPlace := h.place id hOld
      rw [if_neg (by omega)] at hQueued
      omega
    · have hNew : b.scheduler.queuedCount b.scheduler.jobId = 0 :=
        countId_eq_zero fun job hJob => (hAllocated.queued job hJob).1.ne
      have hIdle : b.scheduler.activeCount b.scheduler.jobId = 0 :=
        Scheduler.activeCount_of_not fun aj hActive =>
          (hAllocated.active_lt _ _ hActive).false
      have hUnrecorded : b.scheduler.recordedCount b.scheduler.jobId = 0 :=
        countId_eq_zero fun t ht => (h.recorded_lt ht).ne
      rw [if_pos rfl] at hQueued
      omega
  results := h.results

theorem pop (h : ExactlyOnce runner b) {mb : MemoryBuffer} {results : List MemoryBuffer}
    (hResults : b.scheduler.results = mb :: results) :
    ExactlyOnce runner { b with
      scheduler := { b.scheduler with results := results }
      popped := b.popped ++ [mb] } where
  toTokens := h.toTokens.pop mb results
  once := h.once
  place := h.place
  results := by
    have hOld := h.results
    rw [hResults] at hOld
    simpa using hOld

theorem deliver (h : ExactlyOnce runner b) (now : Time) {a : Answer} {rest : List Answer}
    (hAnswers : b.answers.Perm (a :: rest)) :
    ExactlyOnce runner { b with
      scheduler := b.scheduler.handleAnswer now a
      answers := rest } := by
  obtain ⟨m, hm, hId, hName, hRank, hEmpty, hResult⟩ :=
    h.answers a (hAnswers.mem_iff.mpr List.mem_cons_self)
  have hActive :=
    (h.toTokens.token_of_answer hAnswers hm (h.once m hm).atMostOnce hId hRank hEmpty).1
  refine ⟨h.toTokens.deliver now hAnswers, h.once, ?_, ?_⟩
  · intro id hLt
    have hPlace := h.place id hLt
    have hQueued : (b.scheduler.handleAnswer now a).queuedCount id =
        b.scheduler.queuedCount id := rfl
    have hRecorded : (b.scheduler.handleAnswer now a).recordedCount id =
        b.scheduler.recordedCount id + if a.id = id then 1 else 0 := by
      simp [Scheduler.recordedCount, Scheduler.handleAnswer, countId_cons]
    have hActive' := b.scheduler.activeCount_handleAnswer now a id
    dsimp only
    by_cases hSame : a.id = id
    · rw [if_pos hSame] at hRecorded hActive'
      rw [← hId, hSame] at hActive
      omega
    · rw [if_neg hSame] at hRecorded hActive'
      omega
  · simp only [Scheduler.handleAnswer, ← List.append_assoc]
    refine List.rel_append h.results (.cons ?_ .nil)
    exact ⟨m, hm, hId, hName, a.source, hRank, hEmpty, hResult⟩

theorem dispatch (h : ExactlyOnce runner b) (now : Time) {job : Job} {jobs : List Job}
    {first : Nat} (hPlaced : b.scheduler.Placed job jobs first) {m : JobMessage}
    (hm : m = ⟨first, first + job.size - 1, job⟩) (hOnce : runner.AnswersOnce m) :
    ExactlyOnce runner { b with
      scheduler := b.scheduler.run job jobs first now
      pipeline := fun rank => b.pipeline rank ++ if rank ∈ m.ranks then [m] else []
      dispatched := b.dispatched ++ [m] } := by
  refine ⟨h.toTokens.dispatch now hPlaced hm, ?_, ?_, ?_⟩
  · intro m' hm'
    rcases List.mem_append.mp hm' with hm' | hm'
    · exact h.once m' hm'
    · exact List.mem_singleton.mp hm' ▸ hOnce
  · intro id hLt
    have hPlace := h.place id hLt
    have hQueued := Scheduler.queuedCount_of_placed hPlaced now id
    have hRecorded : (b.scheduler.run job jobs first now).recordedCount id =
        b.scheduler.recordedCount id := rfl
    have hActive := b.scheduler.activeCount_run job jobs first now id
    dsimp only
    by_cases hSame : job.id = id
    · rw [if_pos hSame] at hQueued hActive
      omega
    · rw [if_neg hSame] at hQueued hActive
      omega
  · apply h.results.imp
    rintro t mb ⟨m', hm', hOwn⟩
    exact ⟨m', List.mem_append_left _ hm', hOwn⟩

theorem step {w : World} {s s' : System} {a : SystemAction} (h : ExactlyOnce runner s.books)
    (hAllocated : Allocated w s.controller.scheduler) (hAdmissible : Admissible w runner s a)
    (hStep : s.step w runner a = some s') :
    ExactlyOnce runner s'.books := by
  have hEffect := System.effect_of_step hStep
  generalize s'.books = b' at hEffect
  cases hEffect with
  | quiet => exact h
  | schedule name function arg groups size =>
    exact h.schedule hAllocated name function arg groups size
  | pop mb results hResults => exact h.pop hResults
  | deliver now index a rest hAnswers => exact h.deliver now hAnswers
  | dispatch now m scheduler hCanRun hRun =>
    have hLength := w.size_lt
    have hOnce : runner.AnswersOnce m := hAdmissible _ hRun
    obtain ⟨job, jobs, first, hPlaced, hEq⟩ :=
      Scheduler.runJob_eq (hAllocated.length ▸ hLength) hCanRun
    obtain ⟨rfl, hm⟩ := Prod.mk.inj (Option.some.inj ((hEq now).symm.trans hRun))
    exact h.dispatch now hPlaced hm.symm hOnce
  | runnerReturn rank m rest hHead =>
    exact ⟨h.toTokens.runnerReturn hHead, h.once, h.place, h.results⟩

end ExactlyOnce

abbrev admissibleMachine (w : World) (runner : Runner) : Machine System SystemAction :=
  (schedulerMachine w runner).restrict (Admissible w runner)

theorem exactlyOnce_of_reachable {w : World} {runner : Runner} {s : System}
    (h : (admissibleMachine w runner).Reachable s) : ExactlyOnce runner s.books := by
  refine h.invariant_of_reachable (I := fun s => ExactlyOnce runner s.books) (.new w) ?_
  intro s a s' hReach hInv hStep
  obtain ⟨hAdmissible, hStep⟩ := Machine.restrict_step_eq_some.mp hStep
  exact hInv.step (System.allocated_of_reachable hReach.of_restrict) hAdmissible hStep

theorem ExactlyOnce.recorded_of_idle {runner : Runner} {b : System.Books}
    (h : ExactlyOnce runner b) (hIdle : b.scheduler.controlResult = false) {job : Job}
    (hJob : job ∈ b.scheduled) : b.scheduler.recordedCount job.id = 1 := by
  have hPlace := h.place job.id (h.id_lt hJob)
  obtain ⟨hEmpty, hNone⟩ := Scheduler.controlResult_eq_false.mp hIdle
  have hQueued : b.scheduler.queuedCount job.id = 0 := by
    rw [Scheduler.queuedCount, hEmpty, countId_nil]
  have hActive : b.scheduler.activeCount job.id = 0 :=
    Scheduler.activeCount_of_not (hNone job.id)
  omega

/-- Every scheduled job is in exactly one place; the time records and the pushed results
correspond one to one, each result being its own job's; and when `control` returns false,
every scheduled job is recorded. -/
theorem no_job_lost_or_completed_twice (w : World) (runner : Runner) {s : System}
    (h : (admissibleMachine w runner).Reachable s) :
    (∀ job ∈ s.scheduled, s.controller.scheduler.queuedCount job.id +
      s.controller.scheduler.activeCount job.id +
      s.controller.scheduler.recordedCount job.id = 1) ∧
    (s.scheduled.map Job.id).Nodup ∧
    (∀ m ∈ s.dispatched, m.job ∈ s.scheduled) ∧
    List.Forall₂ (OwnResult runner s.dispatched) s.controller.scheduler.jobTimes
      (s.popped ++ s.controller.scheduler.results) ∧
    ∀ s', s.step w runner .controlReturn = some s' →
      s'.controller.scheduler.controlResult = false →
      ∀ job ∈ s'.scheduled, s'.controller.scheduler.recordedCount job.id = 1 := by
  have hInv := exactlyOnce_of_reachable h
  refine ⟨fun job hJob => hInv.place _ (hInv.id_lt hJob), ?_,
    fun m hm => hInv.scheduled_of_dispatched hm, hInv.results, ?_⟩
  · exact hInv.ids ▸ List.nodup_range
  · intro s' hStep hIdle job hJob
    have hAllocated := System.allocated_of_reachable h.of_restrict
    exact (hInv.step (a := .controlReturn) hAllocated trivial hStep).recorded_of_idle hIdle hJob

theorem no_job_lost_or_completed_twice_run :
    ∃ s : System, s.controller.scheduler.jobTimes = [⟨0, ⟨[]⟩, 4⟩] ∧
      ∀ job ∈ s.scheduled, s.controller.scheduler.queuedCount job.id +
        s.controller.scheduler.activeCount job.id +
        s.controller.scheduler.recordedCount job.id = 1 := by
  let w : World := ⟨3, 1, by decide, by decide, by decide⟩
  let runner : Runner := fun _ rank => if rank = 2 then ⟨1, [7]⟩ else {}
  let m : JobMessage := ⟨1, 2, 0, ⟨[]⟩, ⟨[]⟩, ⟨0, []⟩, [], 2⟩
  let actions : List SystemAction :=
    [.schedule ⟨[]⟩ ⟨[]⟩ ⟨0, []⟩ [] 2, .control, .noAnswer, .runJob 1, .controlReturn, .probe 2,
      .probe 1, .createComm m, .runnerReturn 1, .runnerReturn 2, .control, .deliver 5 0]
  have hRun : ((admissibleMachine w runner).run actions (System.new w)).map
      (·.controller.scheduler.jobTimes) = some [⟨0, ⟨[]⟩, 4⟩] := by decide
  obtain ⟨s, hs, hTimes⟩ := Option.map_eq_some_iff.mp hRun
  exact ⟨s, hTimes,
    (no_job_lost_or_completed_twice w runner (Machine.reachable_of_run actions .initial hs)).1⟩

end Henson
