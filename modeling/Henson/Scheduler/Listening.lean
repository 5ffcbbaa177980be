import Mathlib.Algebra.Order.BigOperators.Group.Finset
import Henson.Scheduler.SignalStop

/-!
# The ranks leave `listen`

`listen` sends an answer with `MPI_Send` and probes for the next message when the send has
returned: at once if MPI buffers the answer, else when the controller receives it. With the
controller gone, only ranks make steps, and each of them brings a message, a job or a send
nearer to its end.
-/

namespace Henson

open TransitionSystem

/-- The system with the sends of the answers: `sending` holds the answer of a rank whose
`MPI_Send` waits until it is received. -/
structure Listening where
  system : System
  finished : Finished
  sending : Nat → Option Answer

/-- `buffered` says what MPI does with an answer that the action sends. -/
inductive ListenAction where
  | act (a : SystemAction) (buffered : Bool)
  | sendReturn (rank : Nat)

/-- The steps that are left for the message or job at hand; a runner's return may begin a send. -/
def Worker.stepsLeft : Worker → Nat
  | .creating _ => 3
  | .running _ => 2
  | .probing | .stopped => 0

namespace Listening

def new (w : World) : Listening := ⟨System.new w, fun _ => [], fun _ => none⟩

/-- A rank takes no message while it is in the send of an answer. -/
def mayAct (p : Listening) : SystemAction → Bool
  | .probe rank => (p.sending rank).isNone
  | _ => true

def answer (p : Listening) (runner : Runner) (rank : Nat) : Option Answer :=
  match p.system.workers rank with
  | .running m => (System.answerOf runner m rank).head?
  | _ => none

def send (p : Listening) (runner : Runner) : SystemAction → Bool → Nat → Option Answer
  | .runnerReturn rank, false => Function.update p.sending rank (p.answer runner rank)
  | _, _ => p.sending

def step (w : World) (runner : Runner) (p : Listening) : ListenAction → Option Listening
  | .act a buffered =>
    if p.mayAct a then
      ((workMachine w runner).step (p.system, p.finished) a).map fun q =>
        ⟨q.1, q.2, p.send runner a buffered⟩
    else none
  | .sendReturn rank =>
    match p.sending rank with
    | some a =>
      if a ∈ p.system.answers then none
      else some { p with sending := Function.update p.sending rank none }
    | none => none

end Listening

def listenMachine (w : World) (runner : Runner) : Machine Listening ListenAction where
  initial := Listening.new w
  step := Listening.step w runner

/-- A step of a rank that calls `listen`; the ranks of the controller do not. -/
inductive ListenAction.OfListener (w : World) : ListenAction → Prop
  | probe (rank buffered) : w.controllerRanks ≤ rank → OfListener w (.act (.probe rank) buffered)
  | createComm (m buffered) : OfListener w (.act (.createComm m) buffered)
  | runnerReturn (rank buffered) : OfListener w (.act (.runnerReturn rank) buffered)
  | sendReturn (rank) : OfListener w (.sendReturn rank)

namespace Listening

variable {w : World} {runner : Runner} {p p' : Listening}

theorem step_act_eq_some {a : SystemAction} {buffered : Bool} :
    p.step w runner (.act a buffered) = some p' ↔
      p.mayAct a = true ∧ p.system.step w runner a = some p'.system ∧
        recordFinished p.system a p.finished = p'.finished ∧
        p.send runner a buffered = p'.sending := by
  obtain ⟨system, finished, sending⟩ := p'
  simp only [step, Option.ite_none_right_eq_some, Option.map_eq_some_iff, Prod.exists, mk.injEq]
  refine and_congr_right fun _ => ⟨?_, ?_⟩
  · rintro ⟨s, f, hStep, rfl, rfl, hSend⟩
    obtain ⟨hStep, hRecord⟩ := Machine.withHistory_step_eq_some.mp hStep
    exact ⟨hStep, hRecord, hSend⟩
  · rintro ⟨hStep, hRecord, hSend⟩
    exact ⟨system, finished, Machine.withHistory_step_eq_some.mpr ⟨hStep, hRecord⟩, rfl, rfl, hSend⟩

theorem step_sendReturn_eq_some {rank : Nat} :
    p.step w runner (.sendReturn rank) = some p' ↔
      ∃ a, p.sending rank = some a ∧ a ∉ p.system.answers ∧
        p' = { p with sending := Function.update p.sending rank none } := by
  cases hSending : p.sending rank with
  | none => simp [step, hSending]
  | some a => simp [step, hSending, eq_comm]

theorem simulates_work (w : World) (runner : Runner) :
    (listenMachine w runner).Simulates (workMachine w runner) fun p => (p.system, p.finished) where
  initial := rfl
  step p a p' hStep := by
    change p.step w runner a = some p' at hStep
    cases a with
    | act a buffered =>
      obtain ⟨-, hStep, hRecord, -⟩ := step_act_eq_some.mp hStep
      exact .inr ⟨a, Machine.withHistory_step_eq_some.mpr ⟨hStep, hRecord⟩⟩
    | sendReturn rank =>
      obtain ⟨a, -, -, rfl⟩ := step_sendReturn_eq_some.mp hStep
      exact .inl rfl

theorem work_of_reachable (h : (listenMachine w runner).Reachable p) :
    (workMachine w runner).Reachable (p.system, p.finished) :=
  (simulates_work w runner).reachable h

theorem send_of_ne {a : SystemAction} {rank : Nat} (h : a ≠ .runnerReturn rank)
    (buffered : Bool) : p.send runner a buffered rank = p.sending rank := by
  cases a with
  | runnerReturn r =>
    have hRank : rank ≠ r := fun hEq => h (hEq ▸ rfl)
    cases buffered with
    | true => rfl
    | false => exact Function.update_of_ne hRank _ _
  | _ => rfl

theorem probing_of_moved {s s' : System} {a : SystemAction} (hMoved : s.Moved a s') {rank : Nat}
    (hProbing : s.workers rank = .probing) (hOther : a ≠ .probe rank) :
    s'.workers rank = .probing := by
  cases hMoved with
  | controller a s' _ _ _ hWorkers _ => rw [hWorkers, hProbing]
  | dispatch | stop => exact hProbing
  | probeJob r | probeStop r =>
    have hRank : rank ≠ r := fun hEq => hOther (hEq ▸ rfl)
    simpa [hRank] using hProbing
  | createComm m hCreating =>
    have hRank : rank ∉ m.ranks := fun hMem => by simp [hCreating rank hMem] at hProbing
    simpa [hRank] using hProbing
  | runnerReturn r =>
    by_cases hRank : rank = r
    · simp [hRank]
    · simpa [hRank] using hProbing

/-- The send of an answer is behind the runner, and no message is taken before it returns. -/
theorem probing_of_sending (h : (listenMachine w runner).Reachable p) {rank : Nat} {x : Answer}
    (hSending : p.sending rank = some x) : p.system.workers rank = .probing ∧ rank < w.size := by
  refine h.invariant_of_reachable (I := fun p => ∀ rank x, p.sending rank = some x →
    p.system.workers rank = .probing ∧ rank < w.size) (by simp [listenMachine, new]) ?_ rank x
    hSending
  intro p a p' hReach hInv hStep rank x hSending
  change p.step w runner a = some p' at hStep
  cases a with
  | sendReturn r =>
    obtain ⟨y, -, -, rfl⟩ := step_sendReturn_eq_some.mp hStep
    by_cases hRank : rank = r
    · subst hRank
      simp at hSending
    · exact hInv rank x (by simpa [hRank] using hSending)
  | act a buffered =>
    obtain ⟨hMay, hStep, -, hSend⟩ := step_act_eq_some.mp hStep
    have hMoved := System.moved_of_step hStep
    rw [← hSend] at hSending
    by_cases hReturn : a = .runnerReturn rank
    · subst hReturn
      generalize p'.system = s' at hMoved
      cases hMoved with
      | controller _ _ _ hSilent => exact absurd rfl (hSilent rank)
      | runnerReturn _ m answers hWorker =>
        have hRank := System.size_of_pipeline (work_of_reachable hReach)
          (System.mem_pipeline_of_running hWorker)
        exact ⟨Function.update_self _ _ _, hRank.2⟩
    · rw [send_of_ne hReturn] at hSending
      obtain ⟨hProbing, hRank⟩ := hInv rank x hSending
      refine ⟨probing_of_moved hMoved hProbing fun hProbe => ?_, hRank⟩
      rw [hProbe, mayAct, hSending] at hMay
      cases hMay

/-- A message in a channel takes at most four steps of its rank. -/
def stepsLeftAt (p : Listening) (rank : Nat) : Nat :=
  4 * (p.system.channels rank).length + (p.system.workers rank).stepsLeft +
    (p.sending rank).toList.length

def stepsLeft (w : World) (p : Listening) : Nat := ∑ rank ∈ Finset.range w.size, p.stepsLeftAt rank

theorem stepsLeft_lt {rank : Nat} (hRank : rank < w.size)
    (hLe : ∀ r, p'.stepsLeftAt r ≤ p.stepsLeftAt r)
    (hLt : p'.stepsLeftAt rank < p.stepsLeftAt rank) : p'.stepsLeft w < p.stepsLeft w :=
  Finset.sum_lt_sum (fun r _ => hLe r) ⟨rank, Finset.mem_range.mpr hRank, hLt⟩

theorem length_send_le (p : Listening) (runner : Runner) (rank : Nat) (buffered : Bool) :
    (p.send runner (.runnerReturn rank) buffered rank).toList.length ≤
      (p.sending rank).toList.length + 1 := by
  cases buffered with
  | true => exact Nat.le_succ _
  | false =>
    rw [send, Function.update_self]
    cases p.answer runner rank <;> simp

theorem stepsLeft_lt_of_one {rank : Nat} (hRank : rank < w.size)
    (hSame : ∀ r, r ≠ rank → p'.stepsLeftAt r = p.stepsLeftAt r)
    (hLt : p'.stepsLeftAt rank < p.stepsLeftAt rank) : p'.stepsLeft w < p.stepsLeft w := by
  refine stepsLeft_lt hRank (fun r => ?_) hLt
  by_cases hr : r = rank
  · exact hr ▸ hLt.le
  · exact (hSame r hr).le

theorem stepsLeft_of_act (h : (listenMachine w runner).Reachable p)
    (hStopped : p.system.controller.phase = .stopped) {a : SystemAction} {buffered : Bool}
    (hStep : p.step w runner (.act a buffered) = some p') : p'.stepsLeft w < p.stepsLeft w := by
  have hWork := work_of_reachable h
  obtain ⟨s', finished', sending'⟩ := p'
  obtain ⟨-, hStep, -, rfl⟩ := step_act_eq_some.mp hStep
  dsimp only at hStep
  have hMoved := System.moved_of_step hStep
  cases hMoved with
  | controller _ _ hPhase | dispatch _ _ _ _ hPhase | stop _ _ hPhase => exact absurd hStopped hPhase
  | probeJob rank m rest hWorker hChannel =>
    refine stepsLeft_lt_of_one (System.size_of_channel hWork hChannel) (fun r hr => ?_) ?_
    · simp [stepsLeftAt, send, hr]
    · simp [stepsLeftAt, send, hWorker, hChannel, Worker.stepsLeft]
      omega
  | probeStop rank rest hWorker hChannel =>
    refine stepsLeft_lt_of_one (System.size_of_channel hWork hChannel) (fun r hr => ?_) ?_
    · simp [stepsLeftAt, send, hr]
    · simp [stepsLeftAt, send, hWorker, hChannel, Worker.stepsLeft]
  | createComm m hCreating =>
    simp only [System.step, Option.ite_none_right_eq_some] at hStep
    have hFirst : m.first ∈ m.ranks := ⟨Nat.le_refl _, hStep.1.1⟩
    have hRank := System.size_of_pipeline hWork
      (System.mem_pipeline_of_creating (hCreating m.first hFirst))
    refine stepsLeft_lt hRank.2 (fun r => ?_) ?_
    · by_cases hr : r ∈ m.ranks
      · simp [stepsLeftAt, send, hr, hCreating r hr, Worker.stepsLeft]
      · simp [stepsLeftAt, send, hr]
    · simp [stepsLeftAt, send, hFirst, hCreating m.first hFirst, Worker.stepsLeft]
  | runnerReturn rank m answers hWorker =>
    have hRank := System.size_of_pipeline hWork (System.mem_pipeline_of_running hWorker)
    refine stepsLeft_lt_of_one hRank.2 (fun r hr => ?_) ?_
    · have hOther : SystemAction.runnerReturn rank ≠ .runnerReturn r := by simp [Ne.symm hr]
      simp [stepsLeftAt, send_of_ne hOther, hr]
    · have hSend := length_send_le p runner rank buffered
      simp only [stepsLeftAt, hWorker, Worker.stepsLeft, Function.update_self]
      omega

theorem stepsLeft_of_sendReturn (h : (listenMachine w runner).Reachable p) {rank : Nat}
    (hStep : p.step w runner (.sendReturn rank) = some p') : p'.stepsLeft w < p.stepsLeft w := by
  obtain ⟨x, hSending, -, rfl⟩ := step_sendReturn_eq_some.mp hStep
  refine stepsLeft_lt_of_one (probing_of_sending h hSending).2 (fun r hr => ?_) ?_
  · simp [stepsLeftAt, hr]
  · simp [stepsLeftAt, hSending]

/-- The rank has left `listen`, and its runner has returned from all the jobs that were dispatched
to it, in the order of dispatch. -/
def Left (p : Listening) (rank : Nat) : Prop :=
  p.system.workers rank = .stopped ∧ p.system.channels rank = [] ∧ p.sending rank = none ∧
    p.finished rank = p.system.dispatched.filter (rank ∈ ·.ranks)

theorem idle_of_stopped (h : (listenMachine w runner).Reachable p)
    (hStopped : p.system.controller.phase = .stopped) (id : Nat) (aj : ActiveJob) :
    ¬ p.system.controller.scheduler.Active id aj :=
  Controller.idle_of_stopped
    ((System.simulates_controller w runner).reachable (work_of_reachable h).of_withHistory)
    hStopped id aj

/-- The answer of a job that one rank answers was the one that made the job inactive. -/
theorem notMem_answers (h : (listenMachine w runner).Reachable p)
    (hStopped : p.system.controller.phase = .stopped)
    (hOnce : ∀ m ∈ p.system.dispatched, runner.AnswersAtMostOnce m) (x : Answer) :
    x ∉ p.system.answers := by
  intro hx
  have hTokens := tokens_of_reachable (work_of_reachable h).of_withHistory
  obtain ⟨m, hm, hId, -, hRank, hEmpty, -⟩ := hTokens.answers x hx
  have hToken := hTokens.token m hm (hOnce m hm) x.source hRank hEmpty
  have hIdle : p.system.controller.scheduler.activeCount m.job.id = 0 :=
    Scheduler.activeCount_of_not (idle_of_stopped h hStopped m.job.id)
  have hCount : 0 < countId Answer.id p.system.answers m.job.id :=
    List.countP_pos_iff.mpr ⟨x, hx, by simpa using hId⟩
  dsimp only [System.books] at hToken
  omega

/-- A job that is still ahead of a rank is in its runner, which can return. -/
theorem pipeline_eq_nil_of_stuck (h : (listenMachine w runner).Reachable p)
    (hStopped : p.system.controller.phase = .stopped)
    (hStuck : ∀ a, ListenAction.OfListener w a → p.step w runner a = none) (rank : Nat) :
    p.system.pipeline rank = [] := by
  apply List.eq_nil_iff_forall_not_mem.mpr
  intro m hm
  have hWorker := System.running_of_idle (work_of_reachable h) (idle_of_stopped h hStopped) hm
  have hReturn := hStuck _ (.runnerReturn rank true)
  simp [step, mayAct, Machine.withHistory, schedulerMachine, System.step, hWorker] at hReturn

theorem sending_eq_none (h : (listenMachine w runner).Reachable p) {rank : Nat}
    (hWorker : p.system.workers rank ≠ .probing) : p.sending rank = none := by
  apply Option.eq_none_iff_forall_ne_some.mpr
  intro x hSending
  exact hWorker (probing_of_sending h hSending).1

/-- A message that is left in the channel waits for the send to return. -/
theorem sending_of_channel {rank : Nat} (hWorker : p.system.workers rank = .probing)
    (hChannel : p.system.channels rank ≠ []) (hListens : w.controllerRanks ≤ rank)
    (hStuck : ∀ a, ListenAction.OfListener w a → p.step w runner a = none) :
    ∃ x ∈ p.system.answers, p.sending rank = some x := by
  obtain ⟨message, rest, hChannel⟩ := List.exists_cons_of_ne_nil hChannel
  obtain ⟨s', hProbe⟩ : ∃ s', p.system.step w runner (.probe rank) = some s' :=
    WorkOrder.probe_enabled hWorker hChannel
  cases hSending : p.sending rank with
  | none =>
    have hStep := hStuck _ (.probe rank true hListens)
    simp [step, mayAct, Machine.withHistory, schedulerMachine, hSending, hProbe] at hStep
  | some x =>
    have hStep := hStuck _ (.sendReturn rank)
    simp only [step, hSending] at hStep
    exact ⟨x, by simpa using hStep, rfl⟩

theorem left_or_sending (h : (listenMachine w runner).Reachable p)
    (hStopped : p.system.controller.phase = .stopped)
    (hStuck : ∀ a, ListenAction.OfListener w a → p.step w runner a = none) {rank : Nat}
    (hRank : rank ∈ Set.Ico w.controllerRanks w.size) :
    p.Left rank ∨ ∃ x ∈ p.system.answers, p.sending rank = some x := by
  have hWork := work_of_reachable h
  have hNil := pipeline_eq_nil_of_stuck h hStopped hStuck rank
  have hStops : p.system.stopsAt rank = _ := System.stopsAt_of_reachable hWork.of_withHistory rank
  rw [if_pos ⟨hStopped, Nat.le_trans w.controllerRanks_pos hRank.1, hRank.2⟩,
    System.stopsAt] at hStops
  cases hWorker : p.system.workers rank with
  | creating m =>
    have hMem := System.mem_pipeline_of_creating hWorker
    rw [hNil] at hMem
    cases hMem
  | running m =>
    have hMem := System.mem_pipeline_of_running hWorker
    rw [hNil] at hMem
    cases hMem
  | stopped =>
    left
    have hSplit := (workOrder_of_reachable hWork).ordered.split rank
    rw [hNil, List.append_nil] at hSplit
    rw [hWorker, if_pos rfl] at hStops
    rw [System.pipeline_eq, List.append_eq_nil_iff] at hNil
    have hSending : p.sending rank = none := sending_eq_none h (by simp [hWorker])
    exact ⟨hWorker, System.channel_eq_nil hNil.2 (by omega), hSending, hSplit⟩
  | probing =>
    right
    rw [hWorker, if_neg (by simp)] at hStops
    refine sending_of_channel hWorker ?_ hRank.1 hStuck
    intro hEmpty
    simp [hEmpty] at hStops

theorem stepsLeft_of_step (h : (listenMachine w runner).Reachable p)
    (hStopped : p.system.controller.phase = .stopped) {a : ListenAction}
    (hStep : p.step w runner a = some p') : p'.stepsLeft w < p.stepsLeft w := by
  cases a with
  | act a buffered => exact stepsLeft_of_act h hStopped hStep
  | sendReturn rank => exact stepsLeft_of_sendReturn h hStep

theorem controller_of_step (hStopped : p.system.controller.phase = .stopped) {a : ListenAction}
    (hStep : p.step w runner a = some p') :
    p'.system.controller = p.system.controller ∧ p'.system.dispatched = p.system.dispatched := by
  cases a with
  | sendReturn rank =>
    obtain ⟨x, -, -, rfl⟩ := step_sendReturn_eq_some.mp hStep
    exact ⟨rfl, rfl⟩
  | act a buffered =>
    have hMoved := System.moved_of_step (step_act_eq_some.mp hStep).2.1
    generalize p'.system = s' at hMoved
    cases hMoved with
    | controller _ _ hRunning | dispatch _ _ _ _ hRunning | stop _ _ hRunning =>
      exact absurd hStopped hRunning
    | probeJob | probeStop | createComm | runnerReturn => exact ⟨rfl, rfl⟩

theorem stopped_of_run {as : List ListenAction} (hStopped : p.system.controller.phase = .stopped)
    (hRun : (listenMachine w runner).run as p = some p') :
    p'.system.controller.phase = .stopped ∧ p'.system.dispatched = p.system.dispatched := by
  refine Machine.invariant_of_run (I := fun q => q.system.controller.phase = .stopped ∧
    q.system.dispatched = p.system.dispatched) ?_ ⟨hStopped, rfl⟩ hRun
  rintro q a q' ⟨hPhase, hDispatched⟩ hStep
  obtain ⟨hController, hSame⟩ := controller_of_step hPhase hStep
  exact ⟨hController ▸ hPhase, hSame.trans hDispatched⟩

/-- After the stop messages of `finish` the ranks take only finitely many steps, whatever their
order. When the ranks that listen cannot go on, each of them has left `listen`, with nothing in
its channel, after its runner has returned from all the jobs that were dispatched to it in the
order of dispatch, or it waits in the send of an answer that was not received; and none waits
where no job was answered by two of its ranks. -/
theorem every_listener_returns {as : List ListenAction}
    (h : (listenMachine w runner).Reachable p)
    (hStopped : p.system.controller.phase = .stopped)
    (hRun : (listenMachine w runner).run as p = some p') :
    as.length + p'.stepsLeft w ≤ p.stepsLeft w ∧
      ((∀ a, ListenAction.OfListener w a → p'.step w runner a = none) →
        (∀ rank ∈ Set.Ico w.controllerRanks w.size,
          p'.Left rank ∨ ∃ x ∈ p'.system.answers, p'.sending rank = some x) ∧
        ((∀ m ∈ p.system.dispatched, runner.AnswersAtMostOnce m) →
          ∀ rank ∈ Set.Ico w.controllerRanks w.size, p'.Left rank)) := by
  have hReach := Machine.reachable_of_run as h hRun
  have hKept := stopped_of_run hStopped hRun
  refine ⟨?_, fun hStuck => ⟨fun rank hRank => left_or_sending hReach hKept.1 hStuck hRank, ?_⟩⟩
  · refine Machine.length_add_measure_le (I := fun q => (listenMachine w runner).Reachable q ∧
      q.system.controller.phase = .stopped) (stepsLeft w) ?_ ?_ ⟨h, hStopped⟩ hRun
    · rintro q a q' ⟨hq, hPhase⟩ hStep
      exact ⟨.step a hq hStep, (controller_of_step hPhase hStep).1 ▸ hPhase⟩
    · rintro q a q' ⟨hq, hPhase⟩ hStep
      exact stepsLeft_of_step hq hPhase hStep
  · intro hOnce rank hRank
    refine (left_or_sending hReach hKept.1 hStuck hRank).resolve_right ?_
    rintro ⟨x, hx, -⟩
    exact notMem_answers hReach hKept.1 (hKept.2 ▸ hOnce) x hx

namespace TwoJobs

def world : World := ⟨4, 1, Nat.one_pos, by decide, by decide⟩

def firstAnswers : Runner := fun m rank => if rank = m.first then ⟨1, [7]⟩ else {}

theorem firstAnswers_atMostOnce (m : JobMessage) : firstAnswers.AnswersAtMostOnce m := by
  have hFirst : ∀ rank, (firstAnswers m rank).empty = false → rank = m.first := by
    intro rank hAnswers
    by_contra hOther
    rw [firstAnswers, if_neg hOther] at hAnswers
    cases hAnswers
  intro rank _ rank' _ hAnswers hAnswers'
  rw [hFirst rank hAnswers, hFirst rank' hAnswers']

def pair : JobMessage := ⟨1, 2, 0, ⟨[]⟩, ⟨[]⟩, ⟨0, []⟩, [], 2⟩

def triple : JobMessage := ⟨1, 3, 1, ⟨[]⟩, ⟨[]⟩, ⟨0, []⟩, [], 3⟩

def acts (as : List SystemAction) : List ListenAction := as.map (.act · false)

/-- The stop messages are sent while ranks 2 and 3 are still in the runner of the second job. -/
def untilStop : List ListenAction :=
  acts [.schedule ⟨[]⟩ ⟨[]⟩ ⟨0, []⟩ [] 2, .schedule ⟨[]⟩ ⟨[]⟩ ⟨0, []⟩ [] 3, .control, .noAnswer,
    .runJob 1, .controlReturn, .probe 2, .probe 1, .createComm pair, .runnerReturn 1, .control,
    .deliver 5 0, .noAnswer, .runJob 6, .controlReturn, .finish, .check, .probe 3] ++
  .sendReturn 1 :: acts [.probe 1, .runnerReturn 2, .probe 2, .createComm triple,
    .runnerReturn 1, .deliver 9 0, .noAnswer, .signalStop]

def afterStop : List ListenAction :=
  acts [.runnerReturn 3, .probe 3] ++ .sendReturn 1 :: acts [.probe 1, .runnerReturn 2, .probe 2]

end TwoJobs

theorem every_listener_returns_run :
    ∃ p p' : Listening, p.system.dispatched = [TwoJobs.pair, TwoJobs.triple] ∧
      p.system.controller.phase = .stopped ∧
      (listenMachine TwoJobs.world TwoJobs.firstAnswers).run TwoJobs.afterStop p = some p' ∧
        ∀ rank ∈ Set.Ico 1 4, p'.Left rank := by
  have hRun : ((listenMachine TwoJobs.world TwoJobs.firstAnswers).run TwoJobs.untilStop
      (new TwoJobs.world)).bind (fun p =>
        ((listenMachine TwoJobs.world TwoJobs.firstAnswers).run TwoJobs.afterStop p).map
          fun p' => (p.system.dispatched, p.system.controller.phase, p'.stepsLeft TwoJobs.world)) =
      some ([TwoJobs.pair, TwoJobs.triple], .stopped, 0) := by decide
  obtain ⟨p, hp, hNext⟩ := Option.bind_eq_some_iff.mp hRun
  obtain ⟨p', hp', hState⟩ := Option.map_eq_some_iff.mp hNext
  simp only [Prod.mk.injEq] at hState
  obtain ⟨hDispatched, hStopped, hNone⟩ := hState
  have hReach := Machine.reachable_of_run _ .initial hp
  refine ⟨p, p', hDispatched, hStopped, hp', ?_⟩
  have hStuck : ∀ a, p'.step TwoJobs.world TwoJobs.firstAnswers a = none := by
    refine fun a => Option.eq_none_iff_forall_ne_some.mpr fun q hStep => ?_
    have hLt := stepsLeft_of_step (Machine.reachable_of_run _ hReach hp')
      (stopped_of_run hStopped hp').1 hStep
    omega
  exact ((every_listener_returns hReach hStopped hp').2 fun a _ => hStuck a).2
    fun m _ => TwoJobs.firstAnswers_atMostOnce m

end Listening

end Henson
