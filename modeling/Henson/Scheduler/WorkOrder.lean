import Henson.Library.OrderedMulticast
import Henson.Scheduler.System

/-!
# Early release does not deadlock the jobs

A job's ranks are free again on its first answer, so messages of several jobs with
overlapping ranks may wait at one worker. Every rank gets them in the order of
dispatch: that order is one for all ranks, and it has a first unfinished job.
-/

namespace Henson

open TransitionSystem OrderedMulticast

/-- The jobs that each rank's runner has returned from. -/
abbrev Finished := Nat → List JobMessage

def recordFinished (s : System) (a : SystemAction) (finished : Finished) : Finished :=
  match a with
  | .runnerReturn rank =>
    match s.workers rank with
    | .running m => Function.update finished rank (finished rank ++ [m])
    | _ => finished
  | _ => finished

abbrev workMachine (w : World) (runner : Runner) : Machine (System × Finished) SystemAction :=
  (schedulerMachine w runner).withHistory (fun _ => []) recordFinished

inductive SystemAction.OfWorker : SystemAction → Prop
  | probe (rank) : OfWorker (.probe rank)
  | createComm (m) : OfWorker (.createComm m)
  | runnerReturn (rank) : OfWorker (.runnerReturn rank)

/-- A step of a rank on the way to the job's end: a message is taken on one of the job's ranks, or
the job goes on. -/
inductive SystemAction.OfJob (m : JobMessage) : SystemAction → Prop
  | probe (rank) : rank ∈ m.ranks → OfJob m (.probe rank)
  | createComm : OfJob m (.createComm m)
  | runnerReturn (rank) : rank ∈ m.ranks → OfJob m (.runnerReturn rank)

theorem SystemAction.OfJob.ofWorker {m : JobMessage} {a : SystemAction}
    (h : SystemAction.OfJob m a) : SystemAction.OfWorker a := by
  cases h with
  | probe rank => exact .probe rank
  | createComm => exact .createComm m
  | runnerReturn rank => exact .runnerReturn rank

theorem Controller.phase_of_step {c c' : Controller} {a : ControllerAction}
    (h : c.step a = some c') : c.phase ≠ .stopped := by
  intro hPhase
  cases a <;> simp [Controller.step, hPhase] at h

namespace System

/-- A step seen from the channels and the ranks. Only a controller that was not stopped
changes the channels, apart from a rank that takes its next message. -/
inductive Moved (s : System) : SystemAction → System → Prop
  | controller (a s') : s.controller.phase ≠ .stopped → (∀ rank, a ≠ .runnerReturn rank) →
      s'.channels = s.channels → s'.workers = s.workers → s'.dispatched = s.dispatched →
      Moved s a s'
  | dispatch (now m c scheduler) : s.controller.phase ≠ .stopped →
      s.controller.scheduler.runJob now = some (scheduler, m) →
      Moved s (.runJob now) { s with
        controller := c
        channels := s.send (· ∈ m.ranks) (.job m)
        dispatched := s.dispatched ++ [m] }
  | stop (c ranks) [DecidablePred ranks] : s.controller.phase ≠ .stopped → c.phase = .stopped →
      Moved s .signalStop { s with controller := c, channels := s.send ranks .stop }
  | probeJob (rank m rest) : s.workers rank = .probing → s.channels rank = .job m :: rest →
      Moved s (.probe rank) { s with
        workers := Function.update s.workers rank (.creating m)
        channels := Function.update s.channels rank rest }
  | probeStop (rank rest) : s.workers rank = .probing → s.channels rank = .stop :: rest →
      Moved s (.probe rank) { s with
        workers := Function.update s.workers rank .stopped
        channels := Function.update s.channels rank rest }
  | createComm (m) : (∀ rank ∈ m.ranks, s.workers rank = .creating m) →
      Moved s (.createComm m) { s with
        workers := fun rank => if rank ∈ m.ranks then .running m else s.workers rank }
  | runnerReturn (rank m answers) : s.workers rank = .running m →
      Moved s (.runnerReturn rank) { s with
        workers := Function.update s.workers rank .probing
        answers := answers }

theorem moved_of_step {w : World} {runner : Runner} {s s' : System} {a : SystemAction}
    (h : s.step w runner a = some s') : s.Moved a s' := by
  cases a with
  | schedule | control | noAnswer | controlReturn | finish | check =>
    obtain ⟨c, hc, hs⟩ := Option.bind_eq_some_iff.mp h
    obtain rfl := Option.some.inj hs
    exact .controller _ _ (Controller.phase_of_step hc) (by simp) rfl rfl rfl
  | pop | deliver =>
    obtain ⟨_, -, hNext⟩ := Option.bind_eq_some_iff.mp h
    obtain ⟨c, hc, hs⟩ := Option.bind_eq_some_iff.mp hNext
    obtain rfl := Option.some.inj hs
    exact .controller _ _ (Controller.phase_of_step hc) (by simp) rfl rfl rfl
  | runJob now =>
    obtain ⟨⟨scheduler, m⟩, hRun, hNext⟩ := Option.bind_eq_some_iff.mp h
    obtain ⟨c, hc, hs⟩ := Option.bind_eq_some_iff.mp hNext
    obtain rfl := Option.some.inj hs
    exact .dispatch now m c scheduler (Controller.phase_of_step hc) hRun
  | signalStop =>
    obtain ⟨c, hc, hs⟩ := Option.bind_eq_some_iff.mp h
    obtain rfl := Option.some.inj hs
    have hPhase := Controller.phase_of_step hc
    simp only [Controller.step, Option.ite_none_right_eq_some, Option.some.injEq] at hc
    obtain ⟨-, rfl⟩ := hc
    exact .stop _ _ hPhase rfl
  | probe rank =>
    simp only [step] at h
    split at h
    · rename_i m rest hWorker hChannel
      obtain rfl := Option.some.inj h
      exact .probeJob rank m rest hWorker hChannel
    · rename_i rest hWorker hChannel
      obtain rfl := Option.some.inj h
      exact .probeStop rank rest hWorker hChannel
    · cases h
  | createComm m =>
    simp only [step, Option.ite_none_right_eq_some, Option.some.injEq] at h
    obtain ⟨⟨-, hCreating⟩, rfl⟩ := h
    exact .createComm m fun rank hRank => hCreating rank (Nat.lt_succ_of_le hRank.2) hRank
  | runnerReturn rank =>
    simp only [step] at h
    split at h
    · rename_i m hWorker
      obtain rfl := Option.some.inj h
      exact .runnerReturn rank m _ hWorker
    · cases h

def jobsOf (channel : List Message) : List JobMessage :=
  channel.filterMap fun
    | .job m => some m
    | .stop => none

/-- The job at hand on a rank: it waits for the job's other ranks or is in the runner. -/
def current : Worker → List JobMessage
  | .creating m | .running m => [m]
  | .probing | .stopped => []

theorem pipeline_eq (s : System) (rank : Nat) :
    s.pipeline rank = current (s.workers rank) ++ jobsOf (s.channels rank) := by
  rw [pipeline, jobsOf]
  cases s.workers rank <;> rfl

theorem pipeline_congr {s s' : System} (hChannels : s'.channels = s.channels)
    (hWorkers : s'.workers = s.workers) : s'.pipeline = s.pipeline := by
  funext rank
  rw [pipeline_eq, pipeline_eq, hChannels, hWorkers]

theorem mem_pipeline_of_running {s : System} {rank : Nat} {m : JobMessage}
    (h : s.workers rank = .running m) : m ∈ s.pipeline rank := by
  rw [pipeline_eq, h]
  exact List.mem_append_left _ (List.mem_singleton_self m)

end System

/-- No job is behind a stop message or is left for a rank that left `listen`, and there are
stop messages only when the controller is done. -/
structure Orderly (phase : Phase) (channel : List Message) (worker : Worker) : Prop where
  jobsFirst : channel.Pairwise fun x y => x = .stop → y = .stop
  none_left : worker = .stopped → System.jobsOf channel = []
  done : .stop ∈ channel ∨ worker = .stopped → phase = .stopped

namespace Orderly

variable {phase phase' : Phase} {channel : List Message} {worker worker' : Worker}

theorem changePhase (h : Orderly phase channel worker) (hPhase : phase ≠ .stopped) :
    Orderly phase' channel worker :=
  ⟨h.jobsFirst, h.none_left, fun hStop => absurd (h.done hStop) hPhase⟩

theorem sendJob (h : Orderly phase channel worker) (hPhase : phase ≠ .stopped) (m : JobMessage) :
    Orderly phase' (channel ++ [.job m]) worker where
  jobsFirst := by
    refine List.pairwise_append.mpr ⟨h.jobsFirst, List.pairwise_singleton _ _, ?_⟩
    rintro x hx _ - rfl
    exact absurd (h.done (.inl hx)) hPhase
  none_left hStopped := absurd (h.done (.inr hStopped)) hPhase
  done := by
    rintro (hStop | hStopped)
    · rw [List.mem_append, List.mem_singleton] at hStop
      exact absurd (h.done (.inl (hStop.resolve_right (by simp)))) hPhase
    · exact absurd (h.done (.inr hStopped)) hPhase

theorem sendStop (h : Orderly phase channel worker) (hPhase : phase ≠ .stopped) :
    Orderly .stopped (channel ++ [.stop]) worker where
  jobsFirst := by
    refine List.pairwise_append.mpr ⟨h.jobsFirst, List.pairwise_singleton _ _, ?_⟩
    intro _ _ y hy _
    exact List.mem_singleton.mp hy
  none_left hStopped := absurd (h.done (.inr hStopped)) hPhase
  done _ := rfl

theorem receiveJob {m : JobMessage} {rest : List Message}
    (h : Orderly phase (.job m :: rest) .probing) : Orderly phase rest (.creating m) where
  jobsFirst := h.jobsFirst.tail
  none_left := by simp
  done := by
    rintro (hStop | hStopped)
    · exact h.done (.inl (List.mem_cons_of_mem _ hStop))
    · cases hStopped

theorem receiveStop {rest : List Message} (h : Orderly phase (.stop :: rest) .probing) :
    Orderly phase rest .stopped where
  jobsFirst := h.jobsFirst.tail
  none_left _ := by
    rw [System.jobsOf, List.filterMap_eq_nil_iff]
    intro x hx
    rw [(List.pairwise_cons.mp h.jobsFirst).1 x hx rfl]
  done _ := h.done (.inl List.mem_cons_self)

theorem changeWorker (h : Orderly phase channel worker) (hWorker : worker' ≠ .stopped) :
    Orderly phase channel worker' where
  jobsFirst := h.jobsFirst
  none_left hStopped := absurd hStopped hWorker
  done hStop := h.done (hStop.imp_right fun hStopped => absurd hStopped hWorker)

end Orderly

theorem System.orderly_of_moved {s s' : System} {a : SystemAction}
    (h : ∀ rank, Orderly s.controller.phase (s.channels rank) (s.workers rank))
    (hMoved : s.Moved a s') (rank : Nat) :
    Orderly s'.controller.phase (s'.channels rank) (s'.workers rank) := by
  cases hMoved with
  | controller a s' hPhase _ hChannels hWorkers _ =>
    rw [hChannels, hWorkers]
    exact (h rank).changePhase hPhase
  | dispatch now m c scheduler hPhase _ =>
    dsimp only [send]
    split
    · exact (h rank).sendJob hPhase m
    · exact (h rank).changePhase hPhase
  | stop c ranks hPhase hStopped =>
    dsimp only [send]
    rw [hStopped]
    split
    · exact (h rank).sendStop hPhase
    · exact (h rank).changePhase hPhase
  | probeJob r m rest hWorker hChannel =>
    by_cases hRank : rank = r
    · subst hRank
      have hOld := h rank
      rw [hWorker, hChannel] at hOld
      simpa using hOld.receiveJob
    · simpa [hRank] using h rank
  | probeStop r rest hWorker hChannel =>
    by_cases hRank : rank = r
    · subst hRank
      have hOld := h rank
      rw [hWorker, hChannel] at hOld
      simpa using hOld.receiveStop
    · simpa [hRank] using h rank
  | createComm m hCreating =>
    dsimp only
    split
    · exact (h rank).changeWorker (by simp)
    · exact h rank
  | runnerReturn r m answers hWorker =>
    by_cases hRank : rank = r
    · subst hRank
      have hProbing : Worker.probing ≠ .stopped := nofun
      simpa using (h rank).changeWorker hProbing
    · simpa [hRank] using h rank

namespace System

/-- A job starts on all its ranks at once: it has not started on any of them, or it runs
on each of them that has not finished it. -/
def StartsTogether (s : System) (m : JobMessage) : Prop :=
  (∀ rank ∈ m.ranks, m ∈ s.pipeline rank ∧ s.workers rank ≠ .running m) ∨
    ∀ rank, m ∈ s.pipeline rank → s.workers rank = .running m

theorem StartsTogether.congr {s s' : System} {m : JobMessage} (h : s.StartsTogether m)
    (hPipeline : ∀ rank, m ∈ s'.pipeline rank ↔ m ∈ s.pipeline rank)
    (hRunning : ∀ rank, s'.workers rank = .running m ↔ s.workers rank = .running m) :
    s'.StartsTogether m := by
  simpa only [StartsTogether, ne_eq, hPipeline, hRunning] using h

theorem running_update_probing {s : System} {rank : Nat} {m : JobMessage} {worker : Worker}
    (hProbing : s.workers rank = .probing) (hWorker : worker ≠ .running m) (r : Nat) :
    Function.update s.workers rank worker r = .running m ↔ s.workers r = .running m := by
  by_cases hRank : r = rank
  · subst hRank
    simp [hProbing, hWorker]
  · rw [Function.update_of_ne hRank]

variable {s : System} {finished : Finished}

theorem startsTogether_createComm {m m' : JobMessage}
    (hOrdered : Ordered (fun m rank => rank ∈ m.ranks) s.dispatched finished s.pipeline)
    (h : s.StartsTogether m') (hCreating : ∀ rank ∈ m.ranks, s.workers rank = .creating m) :
    StartsTogether { s with
      workers := fun rank => if rank ∈ m.ranks then .running m else s.workers rank } m' := by
  have hPipeline := pipeline_createComm hCreating
  by_cases hSame : m' = m
  · subst hSame
    right
    intro rank hWaiting
    rw [hPipeline] at hWaiting
    exact if_pos (hOrdered.mem_waiting_iff.mp hWaiting).2.1
  · refine h.congr (fun rank => by rw [hPipeline]) fun rank => ?_
    dsimp only
    split
    · rename_i hRank
      simp [hCreating rank hRank, Ne.symm hSame]
    · rfl

theorem startsTogether_runnerReturn {r : Nat} {m m' : JobMessage} {answers : List Answer}
    (hOrdered : Ordered (fun m rank => rank ∈ m.ranks) s.dispatched finished s.pipeline)
    (h : s.StartsTogether m') (hRunning : s.workers r = .running m) :
    StartsTogether { s with
      workers := Function.update s.workers r .probing
      answers := answers } m' := by
  obtain ⟨rest, hHead, hPipeline⟩ := pipeline_runnerReturn answers hRunning
  have hNodup := hOrdered.nodup_waiting r
  rw [hHead, List.nodup_cons] at hNodup
  by_cases hSame : m' = m
  · subst hSame
    -- it runs somewhere, so it has started
    have hStarted : ∀ rank, m' ∈ s.pipeline rank → s.workers rank = .running m' := by
      refine h.resolve_left fun hNot => ?_
      have hHere : m' ∈ s.pipeline r := mem_pipeline_of_running hRunning
      exact (hNot r (hOrdered.mem_waiting_iff.mp hHere).2.1).2 hRunning
    right
    intro rank hWaiting
    rw [hPipeline] at hWaiting
    by_cases hRank : rank = r
    · subst hRank
      rw [Function.update_self] at hWaiting
      exact absurd hWaiting hNodup.1
    · rw [Function.update_of_ne hRank] at hWaiting
      simpa [hRank] using hStarted rank hWaiting
  · have hMem : ∀ rank, m' ∈ Function.update s.pipeline r rest rank ↔ m' ∈ s.pipeline rank := by
      intro rank
      by_cases hRank : rank = r
      · subst hRank
        simp [hHead, hSame]
      · rw [Function.update_of_ne hRank]
    refine h.congr (fun rank => by rw [hPipeline, hMem]) fun rank => ?_
    by_cases hRank : rank = r
    · subst hRank
      simp [hRunning, Ne.symm hSame]
    · simp [hRank]

theorem startsTogether_dispatch {m m' : JobMessage} {c : Controller}
    (hOrdered : Ordered (fun m rank => rank ∈ m.ranks) s.dispatched finished s.pipeline)
    (h : ∀ m ∈ s.dispatched, s.StartsTogether m) (hFresh : m ∉ s.dispatched)
    (hm' : m' ∈ s.dispatched ++ [m]) :
    StartsTogether { s with
      controller := c
      channels := s.send (· ∈ m.ranks) (.job m)
      dispatched := s.dispatched ++ [m] } m' := by
  have hPipeline := pipeline_send_job s c m (s.dispatched ++ [m])
  rcases List.mem_append.mp hm' with hOld | hNew
  · have hNe : m' ≠ m := fun hEq => hFresh (hEq ▸ hOld)
    refine (h m' hOld).congr (fun rank => ?_) fun _ => Iff.rfl
    rw [hPipeline, List.mem_append, List.mem_ite_nil_right, List.mem_singleton]
    simp [hNe]
  · obtain rfl := List.mem_singleton.mp hNew
    left
    intro rank hRank
    refine ⟨by simp [hPipeline, hRank], fun hRunning => ?_⟩
    exact hFresh (hOrdered.mem_waiting_iff.mp (mem_pipeline_of_running hRunning)).1

theorem startsTogether_of_moved {s' : System} {a : SystemAction}
    (hOrdered : Ordered (fun m rank => rank ∈ m.ranks) s.dispatched finished s.pipeline)
    (hFresh : ∀ now p, s.controller.scheduler.runJob now = some p → p.2 ∉ s.dispatched)
    (h : ∀ m ∈ s.dispatched, s.StartsTogether m) (hMoved : s.Moved a s') :
    ∀ m ∈ s'.dispatched, s'.StartsTogether m := by
  intro m' hm'
  cases hMoved with
  | controller a s' _ _ hChannels hWorkers hDispatched =>
    refine (h m' (hDispatched ▸ hm')).congr (fun rank => ?_) fun rank => by rw [hWorkers]
    rw [pipeline_congr hChannels hWorkers]
  | dispatch now m c scheduler _ hRun =>
    exact startsTogether_dispatch hOrdered h (hFresh now _ hRun) hm'
  | stop c ranks _ _ =>
    exact (h m' hm').congr (fun rank => by rw [pipeline_send_stop]) fun _ => Iff.rfl
  | probeJob rank m rest hWorker hChannel =>
    exact (h m' hm').congr (fun r => by rw [pipeline_probe_job hWorker hChannel])
      (running_update_probing hWorker (by simp))
  | probeStop rank rest hWorker hChannel =>
    exact (h m' hm').congr (fun r => by rw [pipeline_probe_stop hWorker hChannel])
      (running_update_probing hWorker (by simp))
  | createComm m hCreating => exact startsTogether_createComm hOrdered (h m' hm') hCreating
  | runnerReturn rank m answers hWorker =>
    exact startsTogether_runnerReturn hOrdered (h m' hm') hWorker

end System

structure WorkOrder (s : System) (finished : Finished) : Prop where
  ordered : Ordered (fun m rank => rank ∈ m.ranks) s.dispatched finished s.pipeline
  orderly : ∀ rank, Orderly s.controller.phase (s.channels rank) (s.workers rank)
  together : ∀ m ∈ s.dispatched, s.StartsTogether m

namespace WorkOrder

variable {s : System} {finished : Finished}

theorem new (w : World) : WorkOrder (System.new w) fun _ => [] where
  ordered := ⟨List.nodup_nil, fun _ => rfl⟩
  orderly _ := by constructor <;> simp [System.new]
  together _ hm := by cases hm

theorem ordered_of_moved (h : WorkOrder s finished) {s' : System} {a : SystemAction}
    (hFresh : ∀ now p, s.controller.scheduler.runJob now = some p → p.2 ∉ s.dispatched)
    (hMoved : s.Moved a s') :
    Ordered (fun m rank => rank ∈ m.ranks) s'.dispatched (recordFinished s a finished)
      s'.pipeline := by
  cases hMoved with
  | controller a s' _ hSilent hChannels hWorkers hDispatched =>
    have hRecord : recordFinished s a finished = finished := by
      cases a with
      | runnerReturn rank => exact absurd rfl (hSilent rank)
      | _ => rfl
    rw [hRecord, hDispatched, System.pipeline_congr hChannels hWorkers]
    exact h.ordered
  | dispatch now m c scheduler _ hRun =>
    rw [System.pipeline_send_job]
    exact h.ordered.issue (hFresh now _ hRun)
  | stop c ranks _ _ =>
    rw [System.pipeline_send_stop]
    exact h.ordered
  | probeJob rank m rest hWorker hChannel =>
    rw [System.pipeline_probe_job hWorker hChannel]
    exact h.ordered
  | probeStop rank rest hWorker hChannel =>
    rw [System.pipeline_probe_stop hWorker hChannel]
    exact h.ordered
  | createComm m hCreating =>
    rw [System.pipeline_createComm hCreating]
    exact h.ordered
  | runnerReturn rank m answers hWorker =>
    obtain ⟨rest, hHead, hPipeline⟩ := System.pipeline_runnerReturn answers hWorker
    rw [hPipeline, recordFinished, hWorker]
    exact h.ordered.handle hHead

theorem step (h : WorkOrder s finished) (hNumbered : System.Numbered s.books) {w : World}
    {runner : Runner} {s' : System} {a : SystemAction} (hStep : s.step w runner a = some s') :
    WorkOrder s' (recordFinished s a finished) := by
  have hMoved := System.moved_of_step hStep
  have hFresh : ∀ now p, s.controller.scheduler.runJob now = some p → p.2 ∉ s.dispatched :=
    fun now p hRun => hNumbered.notMem_dispatched (Scheduler.jobs_of_runJob hRun).1
  exact ⟨h.ordered_of_moved hFresh hMoved, System.orderly_of_moved h.orderly hMoved,
    System.startsTogether_of_moved h.ordered hFresh h.together hMoved⟩

theorem head_current (h : WorkOrder s finished) {rank : Nat} {m : JobMessage}
    (hHead : (s.pipeline rank).head? = some m) :
    s.workers rank = .running m ∨ s.workers rank = .creating m ∨
      s.workers rank = .probing ∧ ∃ message rest, s.channels rank = message :: rest := by
  rw [System.pipeline_eq] at hHead
  cases hWorker : s.workers rank with
  | running m' =>
    rw [hWorker, System.current, List.singleton_append, List.head?_cons, Option.some.injEq] at hHead
    exact .inl (hHead ▸ rfl)
  | creating m' =>
    rw [hWorker, System.current, List.singleton_append, List.head?_cons, Option.some.injEq] at hHead
    exact .inr (.inl (hHead ▸ rfl))
  | probing =>
    refine .inr (.inr ⟨rfl, ?_⟩)
    cases hChannel : s.channels rank with
    | nil => simp [hWorker, hChannel, System.current, System.jobsOf] at hHead
    | cons message rest => exact ⟨message, rest, rfl⟩
  | stopped =>
    rw [hWorker, System.current, (h.orderly rank).none_left hWorker] at hHead
    cases hHead

theorem probe_enabled {w : World} {runner : Runner} {rank : Nat} {message : Message}
    {rest : List Message} (hWorker : s.workers rank = .probing)
    (hChannel : s.channels rank = message :: rest) :
    ∃ s', s.step w runner (.probe rank) = some s' := by
  simp only [System.step, hWorker, hChannel]
  cases message <;> exact ⟨_, rfl⟩

/-- The first dispatched job that some rank has not finished can go on. -/
theorem job_step_enabled (h : WorkOrder s finished) (w : World) (runner : Runner) {rank : Nat}
    (hWaiting : s.pipeline rank ≠ []) :
    ∃ m ∈ s.dispatched, ∃ a, SystemAction.OfJob m a ∧ ∃ s', s.step w runner a = some s' := by
  obtain ⟨pre, m, post, hSplit, hPre, r, hr⟩ := h.ordered.exists_earliest hWaiting
  have hm : m ∈ s.dispatched := by simp [hSplit]
  have hNext : ∀ q, m ∈ s.pipeline q → (s.pipeline q).head? = some m :=
    fun q hq => h.ordered.head_of_earliest hSplit hPre hq
  have hRank : r ∈ m.ranks := (h.ordered.mem_waiting_iff.mp hr).2.1
  refine ⟨m, hm, ?_⟩
  rcases h.together m hm with hWaits | hRuns
  · -- not started: either every rank of the job is at it, or one of them can take a message
    by_cases hAll : ∀ q ∈ m.ranks, s.workers q = .creating m
    · refine ⟨.createComm m, .createComm, _, if_pos ⟨Nat.le_trans hRank.1 hRank.2, ?_⟩⟩
      exact fun q _ hq => hAll q hq
    · obtain ⟨q, hNot⟩ := not_forall.mp hAll
      obtain ⟨hq, hCreating⟩ := Classical.not_imp.mp hNot
      obtain ⟨hMem, hNotRunning⟩ := hWaits q hq
      obtain ⟨hWorker, message, rest, hChannel⟩ :=
        ((h.head_current (hNext q hMem)).resolve_left hNotRunning).resolve_left hCreating
      exact ⟨.probe q, .probe q hq, probe_enabled hWorker hChannel⟩
  · exact ⟨.runnerReturn r, .runnerReturn r hRank, _, by simp only [System.step, hRuns r hr]; rfl⟩

theorem worker_step_enabled (h : WorkOrder s finished) (w : World) (runner : Runner) {rank : Nat}
    (hWaiting : s.pipeline rank ≠ []) :
    ∃ a, SystemAction.OfWorker a ∧ ∃ s', s.step w runner a = some s' := by
  obtain ⟨m, -, a, ha, hEnabled⟩ := h.job_step_enabled w runner hWaiting
  exact ⟨a, ha.ofWorker, hEnabled⟩

end WorkOrder

theorem workOrder_of_reachable {w : World} {runner : Runner} {p : System × Finished}
    (h : (workMachine w runner).Reachable p) : WorkOrder p.1 p.2 := by
  refine h.invariant_of_reachable (I := fun p => WorkOrder p.1 p.2) (.new w) ?_
  intro p a p' hReach hInv hStep
  obtain ⟨hStep, hRecord⟩ := Machine.withHistory_step_eq_some.mp hStep
  rw [← hRecord]
  exact hInv.step (System.numbered_of_reachable hReach.of_withHistory) hStep

/-- The jobs that a rank has begun and shares with another rank, in its own order. -/
def System.begunWith (s : System) (finished : Finished) (rank rank' : Nat) : List JobMessage :=
  (finished rank ++ System.current (s.workers rank)).filter (rank' ∈ ·.ranks)

def System.shared (s : System) (rank rank' : Nat) : List JobMessage :=
  s.dispatched.filter fun m => rank ∈ m.ranks ∧ rank' ∈ m.ranks

theorem System.shared_comm (s : System) (rank rank' : Nat) :
    s.shared rank rank' = s.shared rank' rank := by
  simp only [shared, and_comm]

theorem WorkOrder.begunWith_prefix {s : System} {finished : Finished}
    (h : WorkOrder s finished) (rank rank' : Nat) :
    s.begunWith finished rank rank' <+: s.shared rank rank' := by
  have hBegun : finished rank ++ System.current (s.workers rank) <+:
      finished rank ++ s.pipeline rank := by
    rw [System.pipeline_eq, ← List.append_assoc]
    exact List.prefix_append _ _
  have hShared := h.ordered.shared_prefix rank rank' hBegun
  simpa only [System.begunWith, System.shared, inbox, List.filter_filter, Bool.decide_and]
    using hShared

/-- In every state of every interleaving, what two ranks have begun of the jobs they share
are first parts of one list, the shared jobs in the order of dispatch; the earliest
unfinished job is next or at hand on all of its ranks that have not finished it; and while
a rank has an unfinished job, some rank can go on. -/
theorem early_release_cannot_deadlock (w : World) (runner : Runner) {s : System}
    {finished : Finished} (h : (workMachine w runner).Reachable (s, finished)) :
    (∀ rank rank', s.begunWith finished rank rank' <+: s.shared rank rank' ∧
      s.begunWith finished rank' rank <+: s.shared rank rank') ∧
    (∀ pre m post, s.dispatched = pre ++ m :: post →
      (∀ m' ∈ pre, ∀ rank ∈ m'.ranks, m' ∈ finished rank) →
      ∀ rank ∈ m.ranks, m ∉ finished rank → (s.pipeline rank).head? = some m) ∧
    ∀ m ∈ s.dispatched, ∀ rank ∈ m.ranks, m ∉ finished rank →
      ∃ a, SystemAction.OfWorker a ∧ ∃ s', s.step w runner a = some s' := by
  have hInv := workOrder_of_reachable h
  refine ⟨?_, ?_, ?_⟩
  · intro rank rank'
    exact ⟨hInv.begunWith_prefix rank rank',
      System.shared_comm s rank rank' ▸ hInv.begunWith_prefix rank' rank⟩
  · intro pre m post hSplit hPre rank hRank hNot
    refine hInv.ordered.head_of_earliest hSplit ?_
      (hInv.ordered.mem_waiting_iff.mpr ⟨by simp [hSplit], hRank, hNot⟩)
    intro m' hm' r hWaiting
    obtain ⟨-, hr, hUnfinished⟩ := hInv.ordered.mem_waiting_iff.mp hWaiting
    exact hUnfinished (hPre m' hm' r hr)
  · intro m hm rank hRank hNot
    have hWaiting : s.pipeline rank ≠ [] :=
      List.ne_nil_of_mem (hInv.ordered.mem_waiting_iff.mpr ⟨hm, hRank, hNot⟩)
    exact hInv.worker_step_enabled w runner hWaiting

/-- The second job waits behind the first on rank 2, after rank 1 has released both. -/
theorem early_release_cannot_deadlock_run :
    ∃ s : System, s.dispatched.map (fun m => (m.first, m.last)) = [(1, 2), (1, 3)] ∧
      s.pipeline 2 = s.dispatched ∧
      ∃ a, SystemAction.OfWorker a ∧
        ∃ s', s.step ⟨4, 1, by decide, by decide, by decide⟩
          (fun _ rank => if rank = 1 then ⟨1, [7]⟩ else {}) a = some s' := by
  let w : World := ⟨4, 1, by decide, by decide, by decide⟩
  let runner : Runner := fun _ rank => if rank = 1 then ⟨1, [7]⟩ else {}
  let m : JobMessage := ⟨1, 2, 0, ⟨[]⟩, ⟨[]⟩, ⟨0, []⟩, [], 2⟩
  let m' : JobMessage := ⟨1, 3, 1, ⟨[]⟩, ⟨[]⟩, ⟨0, []⟩, [], 3⟩
  let actions : List SystemAction :=
    [.schedule ⟨[]⟩ ⟨[]⟩ ⟨0, []⟩ [] 2, .schedule ⟨[]⟩ ⟨[]⟩ ⟨0, []⟩ [] 3, .control, .noAnswer,
      .runJob 1, .controlReturn, .probe 2, .probe 1, .createComm m, .runnerReturn 1, .control,
      .deliver 5 0, .noAnswer, .runJob 6]
  have hRun : ((workMachine w runner).run actions (System.new w, fun _ => [])).map
      (fun p => (p.1.dispatched, p.1.pipeline 2, p.2 2)) = some ([m, m'], [m, m'], []) := by decide
  obtain ⟨⟨s, finished⟩, hp, hState⟩ := Option.map_eq_some_iff.mp hRun
  obtain ⟨hDispatched, hRest⟩ := Prod.mk.inj hState
  obtain ⟨hPipeline, hFinished⟩ := Prod.mk.inj hRest
  dsimp only at hDispatched hPipeline hFinished
  refine ⟨s, by rw [hDispatched]; rfl, hPipeline.trans hDispatched.symm, ?_⟩
  exact (early_release_cannot_deadlock w runner
    (Machine.reachable_of_run actions .initial hp)).2.2 m (by simp [hDispatched]) 2
    (by decide) (by simp [hFinished])

end Henson
