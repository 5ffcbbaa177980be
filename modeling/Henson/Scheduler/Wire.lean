import Henson.Scheduler.JobMessage
import Henson.Scheduler.Results
import Henson.Scheduler.WorkOrder

/-!
# The scheduler on bytes

What travels are tagged byte strings. `run_job` sends one and the same string to every
rank of a job; `listen` and `check_for_complete_jobs` load from what they received. As
long as the messages fit into an MPI count, the ranks and the controller do what they do
with the messages themselves, and nothing that travels is malformed.
-/

namespace Henson

open TransitionSystem MemoryBuffer

/-- What the controller sends, by its tag. -/
inductive Packet where
  | job (message : List Byte)
  | stop
  deriving DecidableEq

/-- The system with bytes in its channels, and beside every answer its source. -/
structure Wire where
  controller : Controller
  channels : Nat → List Packet
  workers : Nat → Worker
  answers : List (Nat × List Byte)
  scheduled : List Job
  dispatched : List JobMessage
  popped : List MemoryBuffer

namespace Wire

def new (w : World) : Wire where
  controller := Controller.new w
  channels _ := []
  workers _ := .probing
  answers := []
  scheduled := []
  dispatched := []
  popped := []

def sendJob (s : Wire) (m : JobMessage) (message : List Byte) (rank : Nat) : List Packet :=
  s.channels rank ++ ((m.sends message).filter (fun p => p.1 = rank)).map fun p => .job p.2

def sendStop (w : World) (s : Wire) (rank : Nat) : List Packet :=
  if 1 ≤ rank ∧ rank < w.size then s.channels rank ++ [.stop] else s.channels rank

/-- What `listen` sends behind the runner's return: nothing for an empty result. -/
def sendAnswer (m : JobMessage) (rank : Nat) (result : MemoryBuffer) :
    Option (List (Nat × List Byte)) :=
  if result.empty then some []
  else do
    let bb ← saveAnswer m.job.id m.job.name result {}
    let message ← bb.send
    return [(rank, message)]

def step (w : World) (runner : Runner) (s : Wire) : SystemAction → Option Wire
  | .schedule name function arg groups size => do
    let c ← s.controller.step (.schedule name function arg groups size)
    let job := s.controller.scheduler.newJob name function arg groups size
    return { s with controller := c, scheduled := s.scheduled ++ [job] }
  | .pop => do
    let (mb, _) ← s.controller.scheduler.pop
    let c ← s.controller.step .pop
    return { s with controller := c, popped := s.popped ++ [mb] }
  | .deliver now index => do
    let (source, message) ← s.answers[index]?
    let (a, _) ← loadAnswer source (recv message)
    let c ← s.controller.step (.answer now a)
    return { s with controller := c, answers := s.answers.eraseIdx index }
  | .runJob now => do
    let (_, m) ← s.controller.scheduler.runJob now
    let bb ← saveJobMessage m {}
    let message ← bb.send
    let c ← s.controller.step (.runJob now)
    return { s with
      controller := c
      channels := s.sendJob m message
      dispatched := s.dispatched ++ [m] }
  | .signalStop => do
    let c ← s.controller.step .signalStop
    return { s with controller := c, channels := s.sendStop w }
  | .control => do return { s with controller := ← s.controller.step .control }
  | .noAnswer => do return { s with controller := ← s.controller.step .noAnswer }
  | .controlReturn => do return { s with controller := ← s.controller.step .controlReturn }
  | .finish => do return { s with controller := ← s.controller.step .finish }
  | .check => do return { s with controller := ← s.controller.step .check }
  | .probe rank =>
    match s.workers rank, s.channels rank with
    | .probing, .job message :: rest => do
      let (m, _) ← loadJobMessage (recv message)
      return { s with
        workers := Function.update s.workers rank (.creating m)
        channels := Function.update s.channels rank rest }
    | .probing, .stop :: rest =>
      some { s with
        workers := Function.update s.workers rank .stopped
        channels := Function.update s.channels rank rest }
    | _, _ => none
  | .createComm m =>
    if m.first ≤ m.last ∧ ∀ rank < m.last + 1, rank ∈ m.ranks → s.workers rank = .creating m then
      some { s with workers := fun rank => if rank ∈ m.ranks then .running m else s.workers rank }
    else none
  | .runnerReturn rank =>
    match s.workers rank with
    | .running m => do
      let answer ← sendAnswer m rank (runner m rank)
      return { s with
        workers := Function.update s.workers rank .probing
        answers := s.answers ++ answer }
    | _ => none

end Wire

def wireMachine (w : World) (runner : Runner) : Machine Wire SystemAction where
  initial := Wire.new w
  step := Wire.step w runner

theorem groupsType_valid_iff (g : ProcMap.Vector) :
    groupsType.Valid g ↔ g.length < 256 ^ 8 ∧ ∀ x ∈ g, x.1.bytes.length < 256 ^ 8 := by
  simp [groupsType, SerialType.Valid]

instance (j : Job) : Decidable j.Valid :=
  decidable_of_iff (j.id < 256 ^ 8 ∧ j.name.bytes.length < 256 ^ 8 ∧
      j.function.bytes.length < 256 ^ 8 ∧ j.arg.size < 256 ^ 8 ∧
      (j.groups.length < 256 ^ 8 ∧ ∀ x ∈ j.groups, x.1.bytes.length < 256 ^ 8) ∧
      j.size < 256 ^ 8)
    ⟨fun ⟨h₁, h₂, h₃, h₄, h₅, h₆⟩ => ⟨h₁, h₂, h₃, h₄, (groupsType_valid_iff _).mpr h₅, h₆⟩,
      fun h => ⟨h.id, h.name, h.function, h.arg, (groupsType_valid_iff _).mp h.groups, h.size⟩⟩

/-- The argument was saved into a buffer of its own, and the message is counted by an `int`. -/
def JobMessage.fits (m : JobMessage) : Bool :=
  m.job.Valid && m.job.arg.position == m.job.arg.buffer.length &&
    (saveJobMessage m {}).all fun bb => bb.size < 2 ^ 31

def JobMessage.answerFits (m : JobMessage) (result : MemoryBuffer) : Bool :=
  result.position ≤ result.buffer.length &&
    (saveAnswer m.job.id m.job.name result {}).all fun bb => bb.size < 2 ^ 31

/-- Whether what the action sends fits. -/
def SystemAction.fits (runner : Runner) (s : Scheduler) (workers : Nat → Worker) :
    SystemAction → Bool
  | .runJob now => (s.runJob now).all fun p => p.2.fits
  | .runnerReturn rank =>
    match workers rank with
    | .running m => (runner m rank).empty || m.answerFits (runner m rank)
    | _ => true
  | _ => true

/-- The runs on bytes in which every message fits. -/
def fittingWires (w : World) (runner : Runner) : Machine Wire SystemAction :=
  (wireMachine w runner).restrict fun s a => a.fits runner s.controller.scheduler s.workers = true

def fittingSystems (w : World) (runner : Runner) : Machine System SystemAction :=
  (schedulerMachine w runner).restrict fun s a =>
    a.fits runner s.controller.scheduler s.workers = true

theorem JobMessage.load_of_fits {m : JobMessage} (hFits : m.fits = true) (hFirst : m.first < 256 ^ 8)
    (hLast : m.last < 256 ^ 8) :
    ∃ bb message, saveJobMessage m {} = some bb ∧ bb.send = some message ∧
      loadJobMessage (recv message) = some (m, ⟨message.length, message⟩) := by
  simp only [fits, Bool.and_eq_true, decide_eq_true_eq, beq_iff_eq] at hFits
  obtain ⟨⟨hValid, hEnd⟩, hSize⟩ := hFits
  obtain ⟨bytes, _, hSave, hLoad, rfl⟩ := framed_jobMessage hFirst hLast hValid hEnd
  have hSaved : saveJobMessage m {} = some (written bytes) := hSave []
  rw [hSaved, Option.all_some, decide_eq_true_eq] at hSize
  have hLoaded := hLoad [] []
  rw [List.nil_append, List.append_nil] at hLoaded
  exact ⟨_, bytes, hSaved, send_of_lt hSize, hLoaded⟩

theorem JobMessage.load_of_dispatch {w : World} {s s' : Scheduler} {now : Time} {m : JobMessage}
    (hAllocated : Allocated w s) (hCanRun : s.canRun = true) (hRun : s.runJob now = some (s', m))
    (hFits : m.fits = true) :
    ∃ bb message, saveJobMessage m {} = some bb ∧ bb.send = some message ∧
      loadJobMessage (recv message) = some (m, ⟨message.length, message⟩) := by
  have hLength : s.availableProcs.length < 2 ^ 31 := hAllocated.length ▸ w.size_lt
  obtain ⟨job, jobs, first, hPlaced, hRunJob⟩ := Scheduler.runJob_eq hLength hCanRun
  obtain ⟨-, rfl⟩ := Prod.mk.inj (Option.some.inj ((hRunJob now).symm.trans hRun))
  have hBlock := hPlaced.fits
  refine load_of_fits hFits ?_ ?_
  · dsimp only
    omega
  · dsimp only
    omega

theorem JobMessage.load_of_answerFits {m : JobMessage} {result : MemoryBuffer} (rank : Nat)
    (hJob : m.fits = true) (hFits : m.answerFits result = true) :
    ∃ bb message, saveAnswer m.job.id m.job.name result {} = some bb ∧ bb.send = some message ∧
      loadAnswer rank (recv message) =
        some (⟨rank, m.job.id, m.job.name, result.nested⟩, ⟨message.length, message⟩) := by
  simp only [fits, Bool.and_eq_true, decide_eq_true_eq] at hJob
  simp only [answerFits, Bool.and_eq_true, decide_eq_true_eq] at hFits
  obtain ⟨hPosition, hSize⟩ := hFits
  have hSaved : saveAnswer m.job.id m.job.name result {} =
      some (written (answerBytes m.job.id m.job.name result)) :=
    Appends.answer m.job.id m.job.name hPosition []
  rw [hSaved, Option.all_some, decide_eq_true_eq] at hSize
  have hCursor : result.position < 256 ^ 8 := by
    have hBytes : (written (answerBytes m.job.id m.job.name result)).size =
        24 + m.job.name.bytes.length + result.position := by
      simp [written, size, answerBytes, nested, hPosition]
      omega
    omega
  have hLoad := Reads.answer rank hPosition hJob.1.1.id hJob.1.1.name hCursor [] []
  rw [List.nil_append, List.append_nil] at hLoad
  exact ⟨_, _, hSaved, send_of_lt hSize, hLoad⟩

/-- The bytes are of a job that fits, and `listen` reads the job from them up to their end. -/
def Packet.Carries : Packet → Message → Prop
  | .job message, .job m =>
    m.fits = true ∧ loadJobMessage (recv message) = some (m, ⟨message.length, message⟩)
  | .stop, .stop => True
  | _, _ => False

def CarriesAnswer (p : Nat × List Byte) (a : Answer) : Prop :=
  loadAnswer p.1 (recv p.2) = some (a, ⟨p.2.length, p.2⟩)

/-- The two systems differ in what travels only. -/
structure Wire.Carries (w : World) (runner : Runner) (s : Wire) (t : System) : Prop where
  reachable : (schedulerMachine w runner).Reachable t
  controller : s.controller = t.controller
  channels : ∀ rank, List.Forall₂ Packet.Carries (s.channels rank) (t.channels rank)
  workers : s.workers = t.workers
  atHand : ∀ rank, ∀ m ∈ System.current (t.workers rank), m.fits = true
  answers : List.Forall₂ CarriesAnswer s.answers t.answers
  scheduled : s.scheduled = t.scheduled
  dispatched : s.dispatched = t.dispatched
  popped : s.popped = t.popped

theorem rel_bind {α β γ : Type} {R : β → γ → Prop} {x : Option α} {f : α → Option β}
    {g : α → Option γ} (h : ∀ a, x = some a → Option.Rel R (f a) (g a)) :
    Option.Rel R (x >>= f) (x >>= g) := by
  cases x with
  | none => exact .none
  | some a => exact h a rfl

theorem forall₂_eraseIdx {α β : Type} {R : α → β → Prop} {l : List α} {l' : List β}
    (h : List.Forall₂ R l l') (i : Nat) : List.Forall₂ R (l.eraseIdx i) (l'.eraseIdx i) := by
  induction h generalizing i with
  | nil => exact .nil
  | cons hHead hTail ih =>
    cases i with
    | zero => exact hTail
    | succ i => exact .cons hHead (ih i)

theorem forall₂_getElem? {α β : Type} {R : α → β → Prop} {l : List α} {l' : List β}
    (h : List.Forall₂ R l l') (i : Nat) : Option.Rel R l[i]? l'[i]? := by
  induction h generalizing i with
  | nil => exact .none
  | cons hHead hTail ih =>
    cases i with
    | zero => exact .some hHead
    | succ i => exact ih i

namespace Wire.Carries

variable {w : World} {runner : Runner} {s : Wire} {t : System}

theorem new (w : World) (runner : Runner) : Carries w runner (Wire.new w) (System.new w) where
  reachable := .initial
  controller := rfl
  channels _ := .nil
  workers := rfl
  atHand _ _ hm := nomatch hm
  answers := .nil
  scheduled := rfl
  dispatched := rfl
  popped := rfl

theorem carries_answer (runner : Runner) {m : JobMessage} (rank : Nat) (hJob : m.fits = true)
    (hFits : (runner m rank).empty = true ∨ m.answerFits (runner m rank) = true) :
    ∃ answer, sendAnswer m rank (runner m rank) = some answer ∧
      List.Forall₂ CarriesAnswer answer (System.answerOf runner m rank) := by
  cases hEmpty : (runner m rank).empty with
  | true => exact ⟨[], by simp [sendAnswer, hEmpty], by simp [System.answerOf, hEmpty]⟩
  | false =>
    rw [hEmpty] at hFits
    obtain ⟨bb, message, hSave, hSend, hLoad⟩ :=
      JobMessage.load_of_answerFits rank hJob (hFits.resolve_left Bool.false_ne_true)
    refine ⟨[(rank, message)], by simp [sendAnswer, hEmpty, hSave, hSend], ?_⟩
    simpa [System.answerOf, hEmpty, CarriesAnswer] using hLoad

theorem step (h : Carries w runner s t) (a : SystemAction)
    (hFits : a.fits runner t.controller.scheduler t.workers = true) :
    Option.Rel (Carries w runner) (s.step w runner a) (t.step w runner a) := by
  obtain ⟨c, channels, workers, answers, scheduled, dispatched, popped⟩ := s
  obtain ⟨c, channels', workers, answers', scheduled, dispatched, popped⟩ := t
  obtain ⟨hReach, rfl, hChannels, rfl, hAtHand, hAnswers, rfl, rfl, rfl⟩ := h
  dsimp only at hChannels hAtHand hAnswers hFits
  have hNext : ∀ u, System.step w runner _ a = some u → (schedulerMachine w runner).Reachable u :=
    fun u hu => .step a hReach hu
  cases a with
  | schedule | control | noAnswer | controlReturn | finish | check =>
    refine rel_bind fun c' hc => .some ⟨hNext _ ?_, rfl, hChannels, rfl, hAtHand, hAnswers, rfl,
      rfl, rfl⟩
    simp [System.step, hc]
  | pop =>
    refine rel_bind fun p hp => rel_bind fun c' hc => .some ⟨hNext _ ?_, rfl, hChannels, rfl,
      hAtHand, hAnswers, rfl, rfl, rfl⟩
    simp [System.step, hp, hc]
  | signalStop =>
    refine rel_bind fun c' hc => .some ⟨hNext _ ?_, rfl, fun rank => ?_, rfl, hAtHand, hAnswers, rfl,
      rfl, rfl⟩
    · simp [System.step, hc]
    · dsimp only [sendStop, System.send]
      split
      · exact List.rel_append (hChannels rank) (.cons trivial .nil)
      · exact hChannels rank
  | runJob now =>
    refine rel_bind fun p hRun => ?_
    obtain ⟨scheduler, m⟩ := p
    have hJob : m.fits = true := by simpa [SystemAction.fits, hRun] using hFits
    cases hc : c.step (.runJob now) with
    | none => simp
    | some c' =>
      have hCanRun : c.scheduler.canRun = true := by
        simp only [Controller.step, Option.ite_none_right_eq_some] at hc
        exact hc.1.2
      obtain ⟨bb, message, hSave, hSend, hLoad⟩ :=
        JobMessage.load_of_dispatch (System.allocated_of_reachable hReach) hCanRun hRun hJob
      simp only [hSave, hSend, bind, Option.bind_some]
      refine .some ⟨hNext _ ?_, rfl, fun rank => ?_, rfl, hAtHand, hAnswers, rfl, rfl, rfl⟩
      · simp [System.step, hRun, hc]
      · dsimp only [sendJob, System.send]
        rw [sends_filter]
        split
        · exact List.rel_append (hChannels rank) (.cons ⟨hJob, hLoad⟩ .nil)
        · simpa using hChannels rank
  | deliver now index =>
    have hAt := forall₂_getElem? hAnswers index
    simp only [Wire.step, System.step] at hNext ⊢
    cases ha : answers'[index]? with
    | none =>
      rw [ha] at hAt
      cases hp : answers[index]? with
      | none => exact .none
      | some p => rw [hp] at hAt; cases hAt
    | some x =>
      rw [ha] at hAt
      cases hp : answers[index]? with
      | none => rw [hp] at hAt; cases hAt
      | some p =>
        rw [hp] at hAt
        cases hAt with
        | some hCarries =>
          have hLoad : loadAnswer p.1 (recv p.2) = _ := hCarries
          simp only [bind, Option.bind_some, hLoad]
          refine rel_bind fun c' hc => .some ⟨hNext _ ?_, rfl, hChannels, rfl, hAtHand, ?_, rfl,
            rfl, rfl⟩
          · simp [hc, ha]
          · exact forall₂_eraseIdx hAnswers index
  | probe rank =>
    simp only [Wire.step, System.step] at hNext ⊢
    cases hWorker : workers rank with
    | creating m | running m | stopped => exact .none
    | probing =>
      have hRank := hChannels rank
      cases hChannel : channels' rank with
      | nil =>
        rw [hChannel, List.forall₂_nil_right_iff] at hRank
        rw [hRank]
        exact .none
      | cons message rest =>
        rw [hChannel] at hRank
        obtain ⟨packet, packets, hCarries, hRest, hPackets⟩ := List.forall₂_cons_right_iff.mp hRank
        have hUpdate : ∀ r, List.Forall₂ Packet.Carries (Function.update channels rank packets r)
            (Function.update channels' rank rest r) := by
          intro r
          by_cases hr : r = rank
          · subst hr
            simpa using hRest
          · simpa [hr] using hChannels r
        simp only [hWorker, hChannel] at hNext
        cases message with
        | stop =>
          cases packet with
          | job message => exact hCarries.elim
          | stop =>
            simp only [hPackets]
            refine .some ⟨hNext _ rfl, rfl, hUpdate, rfl, fun r => ?_, hAnswers, rfl, rfl, rfl⟩
            by_cases hr : r = rank
            · subst hr
              simp [System.current]
            · simpa [hr] using hAtHand r
        | job m =>
          cases packet with
          | stop => exact hCarries.elim
          | job message =>
            obtain ⟨hJob, hLoad⟩ := hCarries
            simp only [hPackets, hLoad, bind, Option.bind_some]
            refine .some ⟨hNext _ rfl, rfl, hUpdate, rfl, fun r => ?_, hAnswers, rfl, rfl, rfl⟩
            by_cases hr : r = rank
            · subst hr
              simpa [System.current] using hJob
            · simpa [hr] using hAtHand r
  | createComm m =>
    simp only [Wire.step, System.step] at hNext ⊢
    split
    · rename_i hCreating
      rw [if_pos hCreating] at hNext
      refine .some ⟨hNext _ rfl, rfl, hChannels, rfl, fun r => ?_, hAnswers, rfl, rfl, rfl⟩
      dsimp only
      split
      · rename_i hr
        have hOne := hAtHand r
        rwa [hCreating.2 r (Nat.lt_succ_of_le hr.2) hr] at hOne
      · exact hAtHand r
    · exact .none
  | runnerReturn rank =>
    simp only [Wire.step, System.step] at hNext ⊢
    cases hWorker : workers rank with
    | probing | creating m | stopped => exact .none
    | running m =>
      have hJob : m.fits = true := hAtHand rank m (by simp [hWorker, System.current])
      simp only [hWorker] at hNext
      obtain ⟨answer, hAnswer, hCarries⟩ := carries_answer runner rank hJob
        (by simpa [SystemAction.fits, hWorker] using hFits)
      simp only [hAnswer, bind, Option.bind_some]
      refine .some ⟨hNext _ rfl, rfl, hChannels, rfl, fun r => ?_,
        List.rel_append hAnswers hCarries, rfl, rfl, rfl⟩
      by_cases hr : r = rank
      · subst hr
        simp [System.current]
      · simpa [hr] using hAtHand r

end Wire.Carries

theorem wires_correspond (w : World) (runner : Runner) :
    (fittingWires w runner).Corresponds (fittingSystems w runner) (Wire.Carries w runner) := by
  refine .restrict (.new w runner) (fun s t a h => ?_) fun s t a h hFits => h.step a hFits
  rw [h.controller, h.workers]

/-- As long as what is sent fits, the runs on bytes are the runs on messages: the same actions can
be taken, the controller and the ranks get into the same states, and every byte string on its way
is read, up to its last byte, as the message on its way. -/
theorem runs_on_bytes (w : World) (runner : Runner) (actions : List SystemAction) :
    Option.Rel (Wire.Carries w runner) ((fittingWires w runner).run actions (Wire.new w))
      ((fittingSystems w runner).run actions (System.new w)) :=
  (wires_correspond w runner).run (.new w runner) actions

example :
    let w : World := ⟨3, 1, by decide, by decide, by decide⟩
    let job : Job := ⟨0, ⟨[97]⟩, ⟨[98]⟩, ⟨2, [1, 2]⟩, [(⟨[99]⟩, 2)], 2⟩
    ((fittingWires w fun _ rank => ⟨1, [UInt8.ofNat rank]⟩).run
      [.schedule job.name job.function job.arg job.groups 2, .control, .noAnswer, .runJob 1,
        .controlReturn, .probe 1, .probe 2, .createComm ⟨1, 2, job⟩, .runnerReturn 2, .control,
        .deliver 5 0] (Wire.new w)).map (fun s => s.controller.scheduler.results) =
      some [⟨1, [2]⟩] := by decide +kernel

end Henson
