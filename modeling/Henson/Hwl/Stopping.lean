import Henson.Hwl.Loading

/-!
# Whether the loop can stop

The loop ends only after its control puppet has returned to a statement. From
every state some behaviour of the puppets leads there exactly if the group calls
its control puppet and has every puppet that it calls.
-/

namespace Henson.Hwl

open TransitionSystem

/-- The loop can still end: `b` is what the puppets have done up to `c`, and some way to go on
raises the flag and leaves the loop. -/
def CanStop (b : Behaviours) (control : ControlFlow) (puppets : Puppets) (c : Config) : Prop :=
  ∃ (b' : Behaviours) (c' : Config),
    (∀ name n, n < (c.executor.puppets name).resumptions → b' name n = b name n) ∧
    (puppetMachine b' control puppets).Reaches c c' ∧
    c'.executor.stop = true ∧ c'.exited = true

def Behaviours.thenReturn (b : Behaviours) (e : Executor) : Behaviours := fun name n =>
  if n < (e.puppets name).resumptions then b name n else .returns 0

/-- The flag stays up, and the number of a puppet's resumptions does not go down. -/
structure Executor.Onward (e e' : Executor) : Prop where
  stop : e.stop = true → e'.stop = true
  resumptions : ∀ name, (e.puppets name).resumptions ≤ (e'.puppets name).resumptions

def Executor.Returning (b : Behaviours) (e : Executor) : Prop :=
  ∀ name n, (e.puppets name).resumptions ≤ n → b name n = .returns 0

namespace Executor

variable {b : Behaviours} {control : ControlFlow} {site : Site} {e e' e'' : Executor}

theorem Onward.refl (e : Executor) : Onward e e := ⟨id, fun _ => Nat.le_refl _⟩

theorem Onward.trans (h : Onward e e') (h' : Onward e' e'') : Onward e e'' :=
  ⟨fun hStop => h'.stop (h.stop hStop), fun name =>
    Nat.le_trans (h.resumptions name) (h'.resumptions name)⟩

theorem Onward.listRevisit (e : Executor) (call : Text) : Onward e (e.listRevisit call).2 := by
  rw [listRevisit_snd]
  exact ⟨id, fun _ => Nat.le_refl _⟩

theorem Onward.signal (e : Executor) (name : Text) : Onward e (e.signal name) := by
  unfold Executor.signal
  split
  · refine ⟨id, fun n => ?_⟩
    simp only [setPuppet]
    split
    · rename_i hSame
      rw [hSame]
      exact Nat.le_refl _
    · exact Nat.le_refl _
  · exact Onward.refl e

theorem Onward.proceed (e : Executor) (name : Text) : Onward e (e.proceed b site name) := by
  refine ⟨id, fun n => ?_⟩
  simp only [Executor.proceed, setPuppet]
  split
  · rename_i hSame
    rw [hSame]
    cases b name (e.puppets name).resumptions <;> exact Nat.le_succ _
  · exact Nat.le_refl _

theorem Onward.exec (e : Executor) (name : Text) : Onward e (e.exec b control name) := by
  have hProceed : Onward e ((e.signal name).proceed b .statement name) :=
    (Onward.signal e name).trans (Onward.proceed _ name)
  constructor
  · intro hStop
    rw [stop_exec, hStop, Bool.true_or]
  · rw [puppets_exec]
    exact hProceed.resumptions

theorem Onward.statement (e : Executor) (s : Statement) : Onward e (e.statement b control s) :=
  across_statement Onward.refl (fun _ _ _ => Onward.trans) Onward.listRevisit Onward.exec e s

theorem Onward.statements (e : Executor) (l : List Statement) :
    Onward e (e.statements b control l) :=
  across_statements Onward.refl (fun _ _ _ => Onward.trans) Onward.listRevisit Onward.exec e l

theorem Returning.onward (h : Returning b e) (hOnward : Onward e e') : Returning b e' :=
  fun name n hn => h name n (Nat.le_trans (hOnward.resumptions name) hn)

theorem returning_thenReturn (b : Behaviours) (e : Executor) : Returning (b.thenReturn e) e := by
  intro name n hn
  rw [Behaviours.thenReturn, if_neg (Nat.not_lt.mpr hn)]

mutual
/-- While all puppets return 0, every call of a statement is reached, the control puppet's too. -/
theorem stop_statement {e : Executor} (hReturning : Returning b e) {s : Statement}
    (hCalled : control.control ∈ s.names) : (e.statement b control s).stop = true := by
  cases s with
  | mk call body =>
    have hListed := Onward.listRevisit e call
    have hName := listRevisit_fst e call
    rw [Executor.statement]
    generalize e.listRevisit call = p at hListed hName
    obtain ⟨name, e₁⟩ := p
    dsimp only at hListed hName
    subst hName
    have hExec : Onward e₁ (e₁.exec b control (calledName call)) := Onward.exec e₁ _
    have hHere := (hReturning.onward hListed) (calledName call) _ (Nat.le_refl _)
    have hBody := (hReturning.onward hListed).onward hExec
    dsimp only
    rcases List.mem_cons.mp hCalled with hSame | hInside
    · have hStop : (e₁.exec b control (calledName call)).stop = true := by
        rw [stop_exec, hHere]
        simp [ControlFlow.Ended, hSame]
      split_ifs
      · exact hStop
      · exact (Onward.statements _ body).stop hStop
      · exact hStop
    · have hNonempty : ¬ body.isEmpty = true := by
        intro hEmpty
        rw [List.isEmpty_iff.mp hEmpty] at hInside
        cases hInside
      rw [if_neg hNonempty, if_pos (result_exec control hHere)]
      exact stop_statements hBody hInside

theorem stop_statements {e : Executor} (hReturning : Returning b e) {l : List Statement}
    (hCalled : control.control ∈ Statement.bodyNames l) :
    (e.statements b control l).stop = true := by
  cases l with
  | nil => cases hCalled
  | cons s l =>
    rw [Executor.statements]
    rcases List.mem_append.mp hCalled with hHead | hTail
    · exact (Onward.statements _ l).stop (stop_statement hReturning hHead)
    · have hFirst : Onward e (e.statement b control s) := Onward.statement e s
      exact stop_statements (hReturning.onward hFirst) hTail
end

theorem Onward.foldl_revisit (names : List Text) (e : Executor) :
    Onward e (names.foldl (Executor.proceed b .revisit) e) := by
  induction names generalizing e with
  | nil => exact Onward.refl e
  | cons name names ih => exact (Onward.proceed e name).trans (ih _)

end Executor

section Ending

open Executor

variable {b : Behaviours} {control : ControlFlow} {puppets : Puppets}

theorem reaches_end_of_revisits (e : Executor) (i : Nat) (names : List Text) :
    ∃ e', (configMachine b control).Reaches ⟨e, .revisiting names, i, false⟩
        ⟨e', .statements control.commands, i + 1, e'.stop⟩ ∧ Onward e e' := by
  have hRevisited := @reaches_revisited b control e i names
  have hOnward := @Onward.foldl_revisit b names e
  generalize names.foldl (Executor.proceed b .revisit) e = e₁ at hRevisited hOnward
  refine ⟨{ e₁ with revisit := [] }, hRevisited.trans (Machine.Reaches.of_step (a := ()) rfl), ?_⟩
  exact ⟨hOnward.stop, hOnward.resumptions⟩

theorem reaches_end_of_statements (e : Executor) (i : Nat) (todo : List Statement) :
    ∃ e', (configMachine b control).Reaches ⟨e, .statements todo, i, false⟩
        ⟨e', .statements control.commands, i + 1, e'.stop⟩ ∧
      Onward (e.statements b control todo) e' := by
  have hStatements := @reaches_statements b control e i todo []
  rw [List.append_nil] at hStatements
  generalize e.statements b control todo = e₁ at hStatements
  have hTurn : (configMachine b control).step ⟨e₁, .statements [], i, false⟩ () =
      some ⟨e₁, .revisiting e₁.revisit, i, false⟩ := rfl
  obtain ⟨e', hEnd, hOnward⟩ := @reaches_end_of_revisits b control e₁ i e₁.revisit
  exact ⟨e', (hStatements.trans (Machine.Reaches.of_step hTurn)).trans hEnd, hOnward⟩

theorem reaches_end (c : Config) (hRunning : c.exited = false) :
    ∃ e' i, (configMachine b control).Reaches c ⟨e', .statements control.commands, i, e'.stop⟩ ∧
      Onward c.executor e' := by
  obtain ⟨e, remaining, i, exited⟩ := c
  obtain rfl : exited = false := hRunning
  cases remaining with
  | statements todo =>
    obtain ⟨e', hEnd, hOnward⟩ := @reaches_end_of_statements b control e i todo
    exact ⟨e', i + 1, hEnd, (Onward.statements e todo).trans hOnward⟩
  | revisiting names =>
    obtain ⟨e', hEnd, hOnward⟩ := @reaches_end_of_revisits b control e i names
    exact ⟨e', i + 1, hEnd, hOnward⟩

theorem reaches_exit {c : Config} (hReturning : Returning b c.executor)
    (hCalled : control.control ∈ control.names) (hRunning : c.exited = false) :
    ∃ c', (configMachine b control).Reaches c c' ∧ c'.executor.stop = true ∧
      c'.exited = true := by
  obtain ⟨e, i, hEnd, hOnward⟩ := @reaches_end b control c hRunning
  cases hStop : e.stop with
  | true => exact ⟨_, hEnd, hStop, hStop⟩
  | false =>
    rw [hStop] at hEnd
    obtain ⟨e', hNext, hLast⟩ := @reaches_end_of_statements b control e i control.commands
    have hRaised := hLast.stop (stop_statements (hReturning.onward hOnward) hCalled)
    exact ⟨_, hEnd.trans hNext, hRaised, hRaised⟩

theorem stop_of_exited {c : Config} (hReach : (configMachine b control).Reachable c)
    (hExited : c.exited = true) :
    c.executor.stop = true ∧ c.remaining = .statements control.commands := by
  cases hReach with
  | initial => cases hExited
  | step _ _ hStep =>
    obtain ⟨hRunning, ⟨call, body, rest, -, rfl⟩ | ⟨-, rfl⟩ | ⟨name, names, -, rfl⟩ | ⟨-, rfl⟩⟩ :=
      Config.step_cases hStep
    · exact absurd hExited (Bool.eq_false_iff.mp hRunning)
    · exact absurd hExited (Bool.eq_false_iff.mp hRunning)
    · exact absurd hExited (Bool.eq_false_iff.mp hRunning)
    · exact ⟨hExited, rfl⟩

/-- Nothing raises the flag if the control puppet is not called. -/
theorem not_stop_of_not_called (hCalled : control.control ∉ control.names) {c : Config}
    (hReach : (configMachine b control).Reachable c) : c.executor.stop = false := by
  refine hReach.invariant_of_reachable (I := fun c => c.executor.stop = false) rfl ?_
  intro c _ c' hReach hStop hStep
  obtain ⟨-, ⟨call, body, rest, hTodo, rfl⟩ | ⟨-, rfl⟩ | ⟨name, names, -, rfl⟩ | ⟨-, rfl⟩⟩ :=
    Config.step_cases hStep
  · have hName := (Called.of_reachable hReach).statements _ hTodo (calledName call) (by
      simp [Statement.bodyNames, Statement.names])
    have hOther : calledName call ≠ control.control := fun hSame => hCalled (hSame ▸ hName)
    rw [stop_exec, stop_listRevisit, hStop, listRevisit_fst]
    simp [ControlFlow.Ended, hOther]
  · exact hStop
  · exact hStop
  · exact hStop

theorem loaded_of_canStop {c : Config} (hRunning : c.exited = false)
    (h : CanStop b control puppets c) : ∀ sight ∈ c.sight, sight.name ∈ puppets := by
  obtain ⟨b', c', -, ⟨as, has⟩, -, hExited⟩ := h
  cases as with
  | nil =>
    obtain rfl := Option.some.inj has
    rw [hRunning] at hExited
    cases hExited
  | cons a as =>
    obtain ⟨t, ht, -⟩ := Option.bind_eq_some_iff.mp has
    exact (Machine.restrict_step_eq_some.mp ht).1

theorem name_sight_congr {c c' : Config} (h : c.remaining = c'.remaining) :
    c.sight.map Sight.name = c'.sight.map Sight.name := by
  simp only [Config.sight, h]
  split
  · simp only [Option.map_some, listRevisit_fst]
  · rfl
  · rfl

/-- If the loop can always stop, it never needs a puppet that was not loaded. -/
theorem loaded_of_canStop_always
    (hStops : ∀ c, (puppetMachine b control puppets).Reachable c → CanStop b control puppets c)
    {c : Config} (hReach : (puppetMachine b control puppets).Reachable c) {sight : Sight}
    (hSight : c.sight = some sight) : sight.name ∈ puppets := by
  cases hExited : c.exited with
  | false => exact loaded_of_canStop hExited (hStops c hReach) sight hSight
  | true =>
    have hStart : c.sight.map Sight.name =
        (puppetMachine b control puppets).initial.sight.map Sight.name :=
      name_sight_congr (stop_of_exited hReach.of_restrict hExited).2
    rw [hSight, Option.map_some] at hStart
    obtain ⟨sight', hSight', hName⟩ := Option.map_eq_some_iff.mp hStart.symm
    rw [← hName]
    exact loaded_of_canStop rfl (hStops _ .initial) sight' hSight'

end Ending

/-- The loop of a group can be ended from every state, whatever the puppets have done so far,
exactly if the group calls its control puppet and all puppets that it calls were loaded. -/
theorem canStop_iff (control : ControlFlow) (puppets : Puppets) :
    (∀ b c, (puppetMachine b control puppets).Reachable c → CanStop b control puppets c) ↔
      control.control ∈ control.names ∧ ∀ name ∈ control.names, name ∈ puppets := by
  constructor
  · intro hStops
    constructor
    · by_contra hNot
      obtain ⟨b', c', -, hReaches, hStop, -⟩ := hStops allReturn _ .initial
      have hReach := (Machine.Reachable.initial.of_reaches hReaches).of_restrict
      rw [not_stop_of_not_called hNot hReach] at hStop
      cases hStop
    · have hStart : (puppetMachine allReturn control puppets).Reachable
          ⟨{}, .statements (control.commands ++ []), 0, false⟩ := by
        rw [List.append_nil]
        exact .initial
      exact (visits_statements (fun _ _ hReach => loaded_of_canStop_always (hStops _) hReach)
        control.commands {} 0 [] hStart).1
  · rintro ⟨hCalled, hLoaded⟩ b c hReach
    have hNames := Called.of_reachable hReach.of_restrict
    cases hExited : c.exited with
    | true =>
      have hStop := (stop_of_exited hReach.of_restrict hExited).1
      exact ⟨b, c, fun _ _ _ => rfl, .refl c, hStop, hExited⟩
    | false =>
      obtain ⟨c', hReaches, hStop, hEnd⟩ :=
        reaches_exit (Executor.returning_thenReturn b c.executor) hCalled hExited
      refine ⟨b.thenReturn c.executor, c', fun name n hn => if_pos hn, ?_, hStop, hEnd⟩
      refine hReaches.restrict (I := Called control) (fun _ _ _ hInv hStep => hInv.step hStep) ?_
        hNames
      exact fun c _ hInv sight hSight => hLoaded _ (hInv.name_sight hSight)

end Henson.Hwl
