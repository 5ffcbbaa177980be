import Henson.Scheduler.Allocation

/-!
# Answers of unknown jobs

The documentation of the scheduler lets a job have one answer: the other ones are
logged as errors. The handler logs them, and goes on as for the first one.
-/

namespace Henson

open TransitionSystem

namespace Scheduler

/-- What the answer of a job may not change once the job has been answered. -/
structure Unaffected (s s' : Scheduler) : Prop where
  results : s'.results = s.results
  jobTimes : s'.jobTimes = s.jobTimes
  activeJobs : s'.activeJobs = s.activeJobs
  availableProcs : s'.availableProcs = s.availableProcs

/-- The zero entry of `operator[]` is gone again, but its one rank counts as released. -/
theorem handleAnswer_unknown {s : Scheduler} {a : Answer} (h : s.activeJobs[a.id]? = none)
    (endTime : Time) :
    s.handleAnswer endTime a =
      { s with
        results := s.results ++ [a.result]
        availableProcs := s.availableProcs.set 0 true
        jobTimes := s.jobTimes ++ [⟨a.id, a.name, endTime⟩] } := by
  have hErase : s.activeJobs.erase a.id = s.activeJobs := by
    refine Std.ExtTreeMap.ext_getElem? fun id => ?_
    rw [Std.ExtTreeMap.getElem?_erase]
    split
    · rename_i hSame
      rw [← Std.LawfulEqCmp.compare_eq_iff_eq.mp hSame, h]
    · rfl
  simp only [handleAnswer, h, hErase, Option.getD_none, Int.sub_zero]
  rfl

/-- No unknown answer leaves the scheduler alone: its result is queued and its time recorded. -/
theorem unknown_answer_accepted {s : Scheduler} {a : Answer} (h : s.activeJobs[a.id]? = none)
    (endTime : Time) : ¬ s.Unaffected (s.handleAnswer endTime a) := by
  intro hUnaffected
  have hResults := hUnaffected.results
  rw [handleAnswer_unknown h] at hResults
  exact List.cons_ne_nil _ _ (List.append_right_eq_self.mp hResults)

theorem unknown_answer_accepted_run :
    let w : World := ⟨3, 1, by decide, by decide, by decide⟩
    let a : Answer := ⟨2, 7, ⟨[]⟩, ⟨0, [5]⟩⟩
    ¬ (Scheduler.new w).Unaffected ((Scheduler.new w).handleAnswer 4 a) := by
  intro w a
  exact unknown_answer_accepted (s := Scheduler.new w) (a := a) (by decide) 4

end Scheduler

/-- Two ranks answer a job of two ranks: the second answer comes when the job is complete, and
both results are there to be popped. -/
theorem second_answer_accepted :
    let w : World := ⟨3, 1, by decide, by decide, by decide⟩
    let a : Answer := ⟨2, 0, ⟨[]⟩, ⟨0, [5]⟩⟩
    ∃ c, (controllerMachine w).Reachable c ∧ c.phase = .checking ∧
      c.scheduler.activeJobs[a.id]? = none ∧ c.scheduler.jobTimes.map TimeRecord.id = [0] ∧
      (c.scheduler.handleAnswer 6 a).results = [⟨0, [4]⟩, ⟨0, [5]⟩] ∧
      ¬ c.scheduler.Unaffected (c.scheduler.handleAnswer 6 a) := by
  intro w a
  let first : Answer := ⟨1, 0, ⟨[]⟩, ⟨0, [4]⟩⟩
  let actions : List ControllerAction :=
    [.schedule ⟨[]⟩ ⟨[]⟩ ⟨0, []⟩ [] 2, .control, .noAnswer, .runJob 1, .controlReturn, .control,
      .answer 5 first]
  have hRun : ((controllerMachine w).run actions (Controller.new w)).map
      (fun c => (c.phase, c.scheduler.activeJobs.isEmpty, c.scheduler.jobTimes.map TimeRecord.id,
        c.scheduler.results)) = some (.checking, true, [0], [⟨0, [4]⟩]) := by decide
  obtain ⟨c, hc, hState⟩ := Option.map_eq_some_iff.mp hRun
  simp only [Prod.mk.injEq] at hState
  obtain ⟨hPhase, hEmpty, hTimes, hResults⟩ := hState
  have hUnknown : c.scheduler.activeJobs[a.id]? = none := by
    rw [Std.ExtTreeMap.isEmpty_iff.mp hEmpty]
    rfl
  have hBoth : (c.scheduler.handleAnswer 6 a).results = [⟨0, [4]⟩, ⟨0, [5]⟩] := by
    rw [Scheduler.handleAnswer_unknown hUnknown, hResults]
    rfl
  refine ⟨c, Machine.reachable_of_run actions .initial hc, hPhase, hUnknown, hTimes, hBoth, ?_⟩
  intro hUnaffected
  rw [hUnaffected.results, hResults] at hBoth
  exact absurd hBoth (by decide)

def ControllerAction.answers : ControllerAction → List Answer
  | .answer _ a => [a]
  | _ => []

def answeredMachine (w : World) : Machine (Controller × List Answer) ControllerAction :=
  (controllerMachine w).withHistory [] fun _ action answers => answers ++ action.answers

theorem Controller.jobTimes_step {c c' : Controller} {action : ControllerAction}
    (h : c.step action = some c') :
    c'.scheduler.jobTimes.map (fun t => (t.id, t.name)) =
      c.scheduler.jobTimes.map (fun t => (t.id, t.name)) ++
        action.answers.map fun a => (a.id, a.name) := by
  cases action with
  | answer now a =>
    simp only [step, Option.ite_none_right_eq_some, Option.some.injEq] at h
    rw [← h.2]
    exact List.map_append
  | pop =>
    simp only [step, Option.ite_none_right_eq_some, Option.map_eq_some_iff] at h
    obtain ⟨_, ⟨mb, s⟩, hPop, rfl⟩ := h
    simp only [Scheduler.pop] at hPop
    split at hPop <;> cases hPop
    exact (List.append_nil _).symm
  | runJob now =>
    simp only [step, Option.ite_none_right_eq_some, Option.map_eq_some_iff] at h
    obtain ⟨-, ⟨s, m⟩, hRun, rfl⟩ := h
    simp only [Scheduler.runJob] at hRun
    split at hRun <;> cases hRun
    exact (List.append_nil _).symm
  | noAnswer =>
    simp only [step] at h
    split at h <;> cases h <;> exact (List.append_nil _).symm
  | schedule | control | controlReturn | finish | check | signalStop =>
    simp only [step, Option.ite_none_right_eq_some, Option.some.injEq] at h
    rw [← h.2]
    exact (List.append_nil _).symm

/-- In every run the times have one record for each answer that arrived, whether its job was
active or not. -/
theorem jobTimes_eq_answers (w : World) {p : Controller × List Answer}
    (h : (answeredMachine w).Reachable p) :
    p.1.scheduler.jobTimes.map (fun t => (t.id, t.name)) = p.2.map fun a => (a.id, a.name) := by
  refine h.invariant (I := fun p : Controller × List Answer =>
    p.1.scheduler.jobTimes.map (fun t => (t.id, t.name)) = p.2.map fun a => (a.id, a.name))
    rfl ?_
  intro p action p' hInv hStep
  obtain ⟨hController, hAnswers⟩ := Machine.withHistory_step_eq_some.mp hStep
  rw [Controller.jobTimes_step hController, hInv, ← hAnswers, List.map_append]

end Henson
