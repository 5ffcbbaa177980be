import Mathlib.Data.List.Induction
import Mathlib.Tactic.Tauto
import Henson.Hwl.StopFlag

/-!
# What a puppet's fields say of its history

A puppet's fields outlive its runs: `result` is the last result of its `main`,
whichever resumption it comes from, and only `running` tells a suspended run from
one that has ended. Executor and revisit loop look at one of them each, or at none.
-/

namespace Henson.Hwl

open TransitionSystem

def lastOutcome (log : List Resumption) (name : Text) : Option Outcome :=
  ((log.filter fun r => r.name = name).getLast?).map Resumption.outcome

/-- The `main` of `name` has yielded, and was not resumed since then. -/
def Suspended (log : List Resumption) (name : Text) : Prop :=
  lastOutcome log name = some .yields

def Resumption.returned (r : Resumption) : Option Int32 :=
  match r.outcome with
  | .yields => none
  | .returns result => some result

def lastReturn (log : List Resumption) (name : Text) : Option Int32 :=
  ((log.filter fun r => r.name = name).filterMap Resumption.returned).getLast?

section Histories

variable {log : List Resumption} {r : Resumption} {name : Text}

theorem lastOutcome_concat :
    lastOutcome (log ++ [r]) name =
      if r.name = name then some r.outcome else lastOutcome log name := by
  by_cases hName : r.name = name <;> simp [lastOutcome, hName]

theorem suspended_concat_self (hName : r.name = name) :
    Suspended (log ++ [r]) name ↔ r.outcome = .yields := by
  rw [Suspended, lastOutcome_concat, if_pos hName, Option.some.injEq]

theorem suspended_concat_other (hName : r.name ≠ name) :
    Suspended (log ++ [r]) name ↔ Suspended log name := by
  rw [Suspended, lastOutcome_concat, if_neg hName, Suspended]

theorem not_suspended_nil : ¬ Suspended [] name := by
  intro h
  cases h

theorem lastReturn_concat :
    lastReturn (log ++ [r]) name =
      if r.name = name then r.returned.or (lastReturn log name) else lastReturn log name := by
  by_cases hName : r.name = name
  · cases hReturned : r.returned <;> simp [lastReturn, hName, hReturned, List.filterMap_append]
  · simp [lastReturn, hName]

end Histories

structure Recorded (e : Executor) : Prop where
  running : ∀ name, (e.puppets name).running = true ↔ Suspended e.log name
  result : ∀ name, (e.puppets name).result = (lastReturn e.log name).getD (-1)

namespace Recorded

variable {b : Behaviours} {control : ControlFlow} {e : Executor}

theorem new : Recorded {} where
  running _ := iff_of_false Bool.false_ne_true not_suspended_nil
  result _ := rfl

theorem listRevisit (h : Recorded e) (call : Text) : Recorded (e.listRevisit call).2 := by
  rw [Executor.listRevisit_snd]
  exact ⟨h.running, h.result⟩

theorem proceed (h : Recorded e) (site : Site) (name : Text) :
    Recorded (e.proceed b site name) := by
  constructor
  · intro n
    by_cases hName : n = name
    · subst hName
      rw [Executor.proceed, suspended_concat_self rfl]
      cases hOutcome : b n (e.puppets n).resumptions <;>
        simp [Executor.setPuppet, Puppet.proceed]
    · rw [Executor.proceed, suspended_concat_other (Ne.symm hName), ← h.running]
      simp [Executor.setPuppet, hName]
  · intro n
    rw [Executor.proceed, lastReturn_concat]
    by_cases hName : n = name
    · subst hName
      cases hOutcome : b n (e.puppets n).resumptions <;>
        simp [Executor.setPuppet, Puppet.proceed, Resumption.returned, h.result]
    · simp [Executor.setPuppet, hName, Ne.symm hName, h.result]

theorem signal (h : Recorded e) (name : Text) : Recorded (e.signal name) := by
  unfold Executor.signal
  split
  · constructor
    · intro n
      refine Iff.trans ?_ (h.running n)
      by_cases hName : n = name <;> simp [Executor.setPuppet, Puppet.signalStop, hName]
    · intro n
      refine Eq.trans ?_ (h.result n)
      by_cases hName : n = name <;> simp [Executor.setPuppet, Puppet.signalStop, hName]
  · exact h

theorem exec (h : Recorded e) (name : Text) : Recorded (e.exec b control name) := by
  have hProceed : Recorded ((e.signal name).proceed b .statement name) :=
    (h.signal name).proceed .statement name
  rw [Executor.exec_eq]
  split
  · exact ⟨hProceed.running, hProceed.result⟩
  · exact hProceed

theorem step {c c' : Config} (h : Recorded c.executor)
    (hStep : c.step b control = some c') : Recorded c'.executor :=
  Config.step_executor (fun _ call h => h.listRevisit call) (fun _ name h => h.exec name)
    (fun _ name h => h.proceed .revisit name) (fun _ h => ⟨h.running, h.result⟩) h hStep

end Recorded

theorem recorded_of_reachable {b : Behaviours} {control : ControlFlow} {c : Config}
    (h : (configMachine b control).Reachable c) : Recorded c.executor := by
  refine h.invariant (I := fun c => Recorded c.executor) .new ?_
  exact fun _ _ _ hInv hStep => hInv.step hStep

theorem bodyToRun_eq_iff {e : Executor} {name : Text} {body rest : List Statement}
    (hBody : body ≠ []) :
    Config.bodyToRun e name body ++ rest = body ++ rest ↔ (e.puppets name).result = 0 := by
  have hEmpty : ¬ body.isEmpty = true := fun h => hBody (List.isEmpty_iff.mp h)
  rw [List.append_left_inj, Config.bodyToRun, if_neg hEmpty]
  split
  · rename_i hResult
    exact iff_of_true rfl hResult
  · rename_i hResult
    exact iff_of_false (Ne.symm hBody) hResult

/-- A resumption that returns decides on its own whether the body runs; one that yields leaves
the decision to the last result of the puppet. -/
theorem body_runs_iff (b : Behaviours) (control : ControlFlow) {c c' : Config}
    (h : (configMachine b control).Reachable c) {call : Text} {body rest : List Statement}
    (hNext : c.remaining = .statements (.mk call body :: rest)) (hBody : body ≠ [])
    (hStep : c.step b control = some c') {r : Resumption}
    (hLog : c'.executor.log = c.executor.log ++ [r]) :
    (c'.remaining = .statements (body ++ rest) ↔ r.outcome = .returns 0) ↔
      ¬ (r.outcome = .yields ∧ lastReturn c.executor.log r.name = some 0) := by
  have hRecorded := (recorded_of_reachable h).step hStep
  simp only [Config.step, hNext, Option.ite_none_left_eq_some, Option.some.injEq] at hStep
  obtain ⟨-, rfl⟩ := hStep
  have hName : r.name = (c.executor.listRevisit call).1 := by
    rw [Executor.log_exec, Executor.log_listRevisit] at hLog
    rw [← List.singleton_inj.mp (List.append_cancel_left hLog)]
  dsimp only at hRecorded hLog ⊢
  rw [← hName] at hRecorded hLog ⊢
  have hResult := hRecorded.result r.name
  rw [hLog, lastReturn_concat, if_pos rfl] at hResult
  rw [Remaining.statements.injEq, bodyToRun_eq_iff hBody, hResult]
  cases hOutcome : r.outcome with
  | yields =>
    have hReturned : r.returned = none := by rw [Resumption.returned, hOutcome]
    have hZero : (lastReturn c.executor.log r.name).getD (-1) = 0 ↔
        lastReturn c.executor.log r.name = some 0 := by
      cases lastReturn c.executor.log r.name <;> simp
    simp [hReturned, hZero]
  | returns result =>
    have hReturned : r.returned = some result := by rw [Resumption.returned, hOutcome]
    simp [hReturned]

theorem body_runs_iff_run :
    ∃ c : Config, c.remaining = .statements [.mk ['y'] []] ∧
      ∃ r ∈ c.executor.log, r.outcome = .returns 0 := by
  let control : ControlFlow := ⟨['w'], [.mk ['x'] [.mk ['y'] []]], ['x']⟩
  let b : Behaviours := fun _ _ => .returns 0
  let start : Config := { remaining := .statements control.commands }
  obtain ⟨c, hc⟩ : ∃ c, start.step b control = some c := ⟨_, rfl⟩
  obtain rfl := Option.some.inj hc
  have hRuns := body_runs_iff b control .initial rfl (List.cons_ne_nil _ _) hc
    (r := ⟨['x'], .statement, .returns 0⟩) rfl
  refine ⟨_, (hRuns.mpr fun hBoth => ?_).mpr rfl, _, List.mem_singleton_self _, rfl⟩
  cases hBoth.1

/-- The puppet of an `if` returns 0 in the first iteration and yields in the second one: the body
runs both times. -/
theorem yield_runs_body :
    let control : ControlFlow := ⟨['w'], [.mk ['x'] [.mk ['y'] []]], ['c']⟩
    let b : Behaviours := fun _ n => if n = 0 then .returns 0 else .yields
    ∃ c c' : Config, (configMachine b control).Reachable c ∧ c.step b control = some c' ∧
      c.remaining = .statements [.mk ['x'] [.mk ['y'] []]] ∧
      c'.executor.log = c.executor.log ++ [⟨['x'], .statement, .yields⟩] ∧
      c'.remaining = .statements [.mk ['y'] []] := by
  intro control b
  obtain ⟨c, hc⟩ : ∃ c, (configMachine b control).run [(), (), (), ()]
      { remaining := .statements control.commands } = some c := ⟨_, rfl⟩
  have hReach := Machine.reachable_of_run [(), (), (), ()] .initial hc
  obtain rfl := Option.some.inj hc
  exact ⟨_, _, hReach, rfl, rfl, rfl, rfl⟩

/-- The machine with the length that the log had when the iteration began. -/
def iterationMachine (b : Behaviours) (control : ControlFlow) : Machine (Config × Nat) Unit :=
  (configMachine b control).withHistory 0 fun c _ start =>
    match c.remaining with
    | .revisiting [] => c.executor.log.length
    | _ => start

/-- The run of `main` that `name` is in was suspended by a statement of the iteration, and has
only yielded since then. -/
def Continues (log : List Resumption) (start : Nat) (name : Text) : Prop :=
  ∃ pre r post, log = pre ++ r :: post ∧ start ≤ pre.length ∧ r.name = name ∧
    r.site = .statement ∧ r.outcome = .yields ∧ ∀ x ∈ post, x.name = name → x.outcome = .yields

/-- The revisits that the iteration has made of `name` found it suspended. -/
def FoundSuspended (log : List Resumption) (start : Nat) (name : Text) : Prop :=
  ∀ pre r post, log = pre ++ r :: post → start ≤ pre.length → r.name = name →
    r.site = .revisit → Suspended pre name

/-- The names that are still to be revisited. -/
def Config.starred (c : Config) : List Text :=
  match c.remaining with
  | .statements _ => c.executor.revisit
  | .revisiting names => names

/-- The log of an iteration: what its statements resumed, and what it has revisited. -/
structure InIteration (c : Config) (front calls visits : List Resumption) : Prop where
  log : c.executor.log = front ++ (calls ++ visits)
  at_statement : ∀ r ∈ calls, r.site = .statement
  at_revisit : ∀ r ∈ visits, r.site = .revisit
  called : ∀ name ∈ c.starred, name ∈ calls.map Resumption.name
  order : ∀ todo, c.remaining = .statements todo → visits = []

section Iterations

variable {b : Behaviours} {control : ControlFlow} {c c' : Config}
  {front calls visits : List Resumption} {name : Text}

theorem mem_listRevisit {e : Executor} {call name : Text}
    (h : name ∈ (e.listRevisit call).2.revisit) :
    name ∈ e.revisit ∨ name = (e.listRevisit call).1 := by
  unfold Executor.listRevisit at h ⊢
  split at h
  · exact (List.mem_append.mp h).imp_right List.mem_singleton.mp
  · exact .inl h

theorem InIteration.step (h : InIteration c front calls visits)
    (hStep : c.step b control = some c') :
    ∃ front' calls' visits', InIteration c' front' calls' visits' ∧
      front'.length = (match c.remaining with
        | .revisiting [] => c.executor.log.length
        | _ => front.length) := by
  obtain ⟨-, ⟨call, body, rest, hNext, rfl⟩ | ⟨hNext, rfl⟩ | ⟨name, names, hNext, rfl⟩ |
    ⟨hNext, rfl⟩⟩ := Config.step_cases hStep
  · obtain rfl := h.order _ hNext
    have hExec := Executor.log_exec b control (c.executor.listRevisit call).2
      (c.executor.listRevisit call).1
    generalize b _ _ = outcome at hExec
    refine ⟨front, calls ++ [⟨(c.executor.listRevisit call).1, .statement, outcome⟩], [],
      ⟨?_, ?_, ?_, ?_, fun _ _ => rfl⟩, by rw [hNext]⟩
    · rw [hExec, Executor.log_listRevisit, h.log, List.append_nil, List.append_nil,
        List.append_assoc]
    · intro r hr
      rcases List.mem_append.mp hr with hr | hr
      · exact h.at_statement r hr
      · rw [List.mem_singleton.mp hr]
    · exact List.forall_mem_nil _
    · intro name hName
      simp only [Config.starred, Executor.revisit_exec] at hName
      rw [List.map_append, List.mem_append]
      apply (mem_listRevisit hName).imp
      · intro hOld
        apply h.called
        rw [Config.starred, hNext]
        exact hOld
      · exact List.mem_singleton.mpr
  · refine ⟨front, calls, visits, ⟨h.log, h.at_statement, h.at_revisit, ?_, ?_⟩, by rw [hNext]⟩
    · intro name hName
      apply h.called
      rw [Config.starred, hNext]
      exact hName
    · intro todo hTodo
      cases hTodo
  · let outcome := b name (c.executor.puppets name).resumptions
    refine ⟨front, calls, visits ++ [⟨name, .revisit, outcome⟩],
      ⟨?_, h.at_statement, ?_, ?_, ?_⟩, by rw [hNext]⟩
    · rw [Executor.proceed, h.log, List.append_assoc, List.append_assoc]
    · intro r hr
      rcases List.mem_append.mp hr with hr | hr
      · exact h.at_revisit r hr
      · rw [List.mem_singleton.mp hr]
    · intro n hn
      apply h.called
      rw [Config.starred, hNext]
      exact List.mem_cons_of_mem name hn
    · intro todo hTodo
      cases hTodo
  · refine ⟨c.executor.log, [], [], ⟨?_, ?_, ?_, ?_, fun _ _ => rfl⟩, by rw [hNext]⟩
    · exact (List.append_nil _).symm
    · exact List.forall_mem_nil _
    · exact List.forall_mem_nil _
    · exact List.forall_mem_nil _

theorem inIteration_of_reachable {p : Config × Nat}
    (h : (iterationMachine b control).Reachable p) :
    ∃ front calls visits, InIteration p.1 front calls visits ∧ front.length = p.2 := by
  refine h.invariant (I := fun p : Config × Nat =>
    ∃ front calls visits, InIteration p.1 front calls visits ∧ front.length = p.2) ?_ ?_
  · refine ⟨[], [], [], ⟨rfl, ?_, ?_, ?_, fun _ _ => rfl⟩, rfl⟩
    · exact List.forall_mem_nil _
    · exact List.forall_mem_nil _
    · exact List.forall_mem_nil _
  · rintro p a p' ⟨front, calls, visits, hIn, hLength⟩ hStep
    obtain ⟨hConfig, hStart⟩ := Machine.withHistory_step_eq_some.mp hStep
    obtain ⟨front', calls', visits', hIn', hLength'⟩ := hIn.step hConfig
    exact ⟨front', calls', visits', hIn', by rw [hLength', hLength, ← hStart]⟩

/-- Induction on the visits: the first of them finds what the statements left. -/
theorem suspended_visits_iff (base : List Resumption) :
    (Suspended (base ++ visits) name ∧ ∀ pre r post, visits = pre ++ r :: post →
      r.name = name → Suspended (base ++ pre) name) ↔
    Suspended base name ∧ ∀ x ∈ visits, x.name = name → x.outcome = .yields := by
  induction visits using List.reverseRecOn with
  | nil => simp
  | append_singleton visits x ih =>
    have hSplits : (∀ pre r post, visits ++ [x] = pre ++ r :: post → r.name = name →
          Suspended (base ++ pre) name) ↔
        (x.name = name → Suspended (base ++ visits) name) ∧
          ∀ pre r post, visits = pre ++ r :: post → r.name = name →
            Suspended (base ++ pre) name := by
      constructor
      · intro hAll
        constructor
        · exact hAll visits x [] rfl
        · rintro pre r post rfl
          exact hAll pre r (post ++ [x]) (by simp)
      · rintro ⟨hLast, hAll⟩ pre r post hEq hName
        rcases ListSplit.concat_eq_append_cons.mp hEq with ⟨rfl, rfl, -⟩ | ⟨post', -, hEq⟩
        · exact hLast hName
        · exact hAll pre r post' hEq hName
    rw [hSplits, ← List.append_assoc, List.forall_mem_append, List.forall_mem_singleton,
      ← and_assoc (a := Suspended base name), ← ih]
    by_cases hName : x.name = name
    · rw [suspended_concat_self hName]
      tauto
    · rw [suspended_concat_other hName]
      tauto

theorem suspended_calls_iff (front : List Resumption) (h : name ∈ calls.map Resumption.name) :
    Suspended (front ++ calls) name ↔ ∃ pre r post, calls = pre ++ r :: post ∧ r.name = name ∧
      r.outcome = .yields ∧ ∀ x ∈ post, x.name = name → x.outcome = .yields := by
  induction calls using List.reverseRecOn with
  | nil => cases h
  | append_singleton calls x ih =>
    rw [← List.append_assoc]
    by_cases hName : x.name = name
    · rw [suspended_concat_self hName]
      constructor
      · exact fun hYields => ⟨calls, x, [], rfl, hName, hYields, List.forall_mem_nil _⟩
      · rintro ⟨pre, r, post, hEq, hr, hYields, hPost⟩
        rcases ListSplit.concat_eq_append_cons.mp hEq with ⟨-, rfl, -⟩ | ⟨post', rfl, -⟩
        · exact hYields
        · exact hPost x (List.mem_append_right _ (List.mem_singleton_self x)) hName
    · rw [suspended_concat_other hName]
      have hCalls : name ∈ calls.map Resumption.name := by
        simpa [Ne.symm hName] using h
      rw [ih hCalls]
      constructor
      · rintro ⟨pre, r, post, rfl, hr, hYields, hPost⟩
        refine ⟨pre, r, post ++ [x], by simp, hr, hYields, ?_⟩
        exact List.forall_mem_append.mpr ⟨hPost, List.forall_mem_singleton.mpr fun hx =>
          absurd hx hName⟩
      · rintro ⟨pre, r, post, hEq, hr, hYields, hPost⟩
        rcases ListSplit.concat_eq_append_cons.mp hEq with ⟨-, rfl, -⟩ | ⟨post', rfl, rfl⟩
        · exact absurd hr hName
        · exact ⟨pre, r, post', rfl, hr, hYields, (List.forall_mem_append.mp hPost).1⟩

theorem InIteration.split (h : InIteration c front calls visits) {pre post : List Resumption}
    {r : Resumption} (hEq : c.executor.log = pre ++ r :: post) (hStart : front.length ≤ pre.length) :
    (∃ pre' post', pre = front ++ pre' ∧ calls = pre' ++ r :: post' ∧ post = post' ++ visits) ∨
      ∃ pre', pre = front ++ (calls ++ pre') ∧ visits = pre' ++ r :: post := by
  rw [h.log] at hEq
  rcases ListSplit.append_eq_append_cons.mp hEq with ⟨back, hFront, -⟩ | ⟨pre', rfl, hRest⟩
  · rw [hFront, List.length_append, List.length_cons] at hStart
    omega
  · apply (ListSplit.append_eq_append_cons.mp hRest).imp
    · rintro ⟨post', hCalls, hPost⟩
      exact ⟨pre', post', rfl, hCalls, hPost⟩
    · rintro ⟨pre'', rfl, hVisits⟩
      exact ⟨pre'', rfl, hVisits⟩

theorem InIteration.foundSuspended_iff (h : InIteration c front calls visits) :
    FoundSuspended c.executor.log front.length name ↔
      ∀ pre r post, visits = pre ++ r :: post → r.name = name →
        Suspended (front ++ calls ++ pre) name := by
  constructor
  · rintro hFound pre r post rfl hName
    apply hFound (front ++ calls ++ pre) r post
    · rw [h.log]
      simp only [List.append_assoc]
    · simp only [List.append_assoc, List.length_append]
      exact Nat.le_add_right _ _
    · exact hName
    · exact h.at_revisit r (List.mem_append_right _ List.mem_cons_self)
  · intro hVisits pre r post hEq hStart hName hSite
    rcases h.split hEq hStart with ⟨pre', post', rfl, rfl, -⟩ | ⟨pre', rfl, hSplit⟩
    · have hCall := h.at_statement r (List.mem_append_right _ List.mem_cons_self)
      rw [hSite] at hCall
      cases hCall
    · rw [← List.append_assoc]
      exact hVisits pre' r post hSplit hName

theorem InIteration.continues_iff (h : InIteration c front calls visits) :
    Continues c.executor.log front.length name ↔
      (∃ pre r post, calls = pre ++ r :: post ∧ r.name = name ∧
        r.outcome = .yields ∧ ∀ x ∈ post, x.name = name → x.outcome = .yields) ∧
      ∀ x ∈ visits, x.name = name → x.outcome = .yields := by
  constructor
  · rintro ⟨pre, r, post, hEq, hStart, hName, hSite, hYields, hPost⟩
    rcases h.split hEq hStart with ⟨pre', post', rfl, rfl, rfl⟩ | ⟨pre', rfl, rfl⟩
    · obtain ⟨hPost', hVisits⟩ := List.forall_mem_append.mp hPost
      exact ⟨⟨pre', r, post', rfl, hName, hYields, hPost'⟩, hVisits⟩
    · have hVisit := h.at_revisit r (List.mem_append_right _ List.mem_cons_self)
      rw [hSite] at hVisit
      cases hVisit
  · rintro ⟨⟨pre, r, post, rfl, hName, hYields, hPost⟩, hVisits⟩
    refine ⟨front ++ pre, r, post ++ visits, ?_, ?_, hName, ?_, hYields, ?_⟩
    · rw [h.log]
      simp only [List.append_assoc, List.cons_append]
    · rw [List.length_append]
      exact Nat.le_add_right _ _
    · exact h.at_statement r (List.mem_append_right _ List.mem_cons_self)
    · exact List.forall_mem_append.mpr ⟨hPost, hVisits⟩

end Iterations

/-- A revisit continues a run that its iteration suspended exactly if it finds the puppet running,
as the earlier revisits of the puppet in the iteration did; it starts `main` again otherwise. -/
theorem revisit_continues_iff (b : Behaviours) (control : ControlFlow) {p : Config × Nat}
    (h : (iterationMachine b control).Reachable p) {name : Text} {names : List Text}
    (hNext : p.1.remaining = .revisiting (name :: names)) :
    Continues p.1.executor.log p.2 name ↔ (p.1.executor.puppets name).running = true ∧
      FoundSuspended p.1.executor.log p.2 name := by
  obtain ⟨front, calls, visits, hIn, hStart⟩ := inIteration_of_reachable h
  have hRecorded := recorded_of_reachable h.of_withHistory
  have hCalled : name ∈ calls.map Resumption.name := by
    apply hIn.called
    rw [Config.starred, hNext]
    exact List.mem_cons_self
  rw [← hStart, hIn.foundSuspended_iff, hIn.continues_iff, hRecorded.running, hIn.log,
    ← List.append_assoc, suspended_visits_iff, suspended_calls_iff front hCalled]

theorem revisit_continues_iff_run :
    Continues [⟨['s'], .statement, .yields⟩] 0 ['s'] := by
  let control : ControlFlow := ⟨['w'], [.mk ['*', 's'] []], ['c']⟩
  let b : Behaviours := fun _ _ => .yields
  obtain ⟨p, hp⟩ : ∃ p, (iterationMachine b control).run [(), ()]
      (iterationMachine b control).initial = some p := ⟨_, rfl⟩
  have hReach := Machine.reachable_of_run [(), ()] .initial hp
  obtain rfl := Option.some.inj hp
  apply (revisit_continues_iff b control hReach rfl).mpr
  refine ⟨rfl, fun pre r post hEq _ _ hSite => ?_⟩
  rcases ListSplit.concat_eq_append_cons (l := []).mp hEq with ⟨-, rfl, -⟩ | ⟨post', -, hNil⟩
  · cases hSite
  · exact absurd hNil.symm (List.append_ne_nil_of_right_ne_nil _ (List.cons_ne_nil _ _))

/-- The starred puppet returns to its statement: the revisit starts it again. -/
theorem revisit_restarts :
    let control : ControlFlow := ⟨['w'], [.mk ['*', 's'] []], ['c']⟩
    let b : Behaviours := fun _ _ => .returns 0
    ∃ p, (iterationMachine b control).Reachable p ∧ p.1.remaining = .revisiting [['s']] ∧
      p.1.executor.log = [⟨['s'], .statement, .returns 0⟩] ∧
      ¬ Suspended p.1.executor.log ['s'] ∧ ¬ Continues p.1.executor.log p.2 ['s'] := by
  intro control b
  obtain ⟨p, hp⟩ : ∃ p, (iterationMachine b control).run [(), ()]
      (iterationMachine b control).initial = some p := ⟨_, rfl⟩
  have hReach := Machine.reachable_of_run [(), ()] .initial hp
  obtain rfl := Option.some.inj hp
  refine ⟨_, hReach, rfl, rfl, ?_, ?_⟩
  · intro hSuspended
    cases hSuspended
  · rintro ⟨pre, r, post, hEq, -, -, -, hYields, -⟩
    rcases ListSplit.concat_eq_append_cons (l := []).mp hEq with ⟨-, rfl, -⟩ | ⟨post', -, hNil⟩
    · cases hYields
    · exact absurd hNil.symm (List.append_ne_nil_of_right_ne_nil _ (List.cons_ne_nil _ _))

end Henson.Hwl
