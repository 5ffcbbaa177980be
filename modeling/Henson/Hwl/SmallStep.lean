import Henson.Hwl.Executor

/-!
# The main loop, one resumption a step

What a statement does next depends on what its puppet has just done. Here a step
of the machine resumes one puppet, or passes from the statements to the revisit
loop, or ends an iteration. Statements that are still to run are kept in a list,
with the body of an `if` in front. Whole iterations are those of the main loop.
-/

namespace Henson.Hwl

open TransitionSystem

/-- What is left of an iteration. -/
inductive Remaining where
  | statements (todo : List Statement)
  | revisiting (names : List Text)

structure Config where
  executor : Executor := {}
  remaining : Remaining
  iteration : Nat := 0
  exited : Bool := false

namespace Config

/-- The statements of the body, if the puppet's result lets it run. -/
def bodyToRun (e : Executor) (name : Text) (body : List Statement) : List Statement :=
  if body.isEmpty then [] else if (e.puppets name).result = 0 then body else []

def step (b : Behaviours) (control : ControlFlow) (c : Config) : Option Config :=
  if c.exited then none
  else
    match c.remaining with
    | .statements (.mk call body :: rest) =>
      let (name, e) := c.executor.listRevisit call
      let e := e.exec b control name
      some { c with executor := e, remaining := .statements (bodyToRun e name body ++ rest) }
    | .statements [] => some { c with remaining := .revisiting c.executor.revisit }
    | .revisiting (name :: names) =>
      some { c with
        executor := c.executor.proceed b .revisit name
        remaining := .revisiting names }
    | .revisiting [] =>
      some {
        executor := { c.executor with revisit := [] }
        remaining := .statements control.commands
        iteration := c.iteration + 1
        exited := c.executor.stop }

end Config

def configMachine (b : Behaviours) (control : ControlFlow) : Machine Config Unit where
  initial := { remaining := .statements control.commands }
  step c _ := c.step b control

variable {b : Behaviours} {control : ControlFlow}

theorem Config.step_cases {c c' : Config} (h : c.step b control = some c') : c.exited = false ∧
    ((∃ call body rest, c.remaining = .statements (.mk call body :: rest) ∧
      c' = { c with
        executor := (c.executor.listRevisit call).2.exec b control (c.executor.listRevisit call).1
        remaining := .statements (bodyToRun
          ((c.executor.listRevisit call).2.exec b control (c.executor.listRevisit call).1)
          (c.executor.listRevisit call).1 body ++ rest) }) ∨
    (c.remaining = .statements [] ∧ c' = { c with remaining := .revisiting c.executor.revisit }) ∨
    (∃ name names, c.remaining = .revisiting (name :: names) ∧
      c' = { c with
        executor := c.executor.proceed b .revisit name
        remaining := .revisiting names }) ∨
    (c.remaining = .revisiting [] ∧
      c' = ⟨{ c.executor with revisit := [] }, .statements control.commands, c.iteration + 1,
        c.executor.stop⟩)) := by
  simp only [step, Option.ite_none_left_eq_some, Bool.not_eq_true] at h
  obtain ⟨hRunning, h⟩ := h
  refine ⟨hRunning, ?_⟩
  split at h <;> obtain rfl := Option.some.inj h
  · rename_i call body rest hNext
    exact .inl ⟨call, body, rest, hNext, rfl⟩
  · rename_i hNext
    exact .inr (.inl ⟨hNext, rfl⟩)
  · rename_i name names hNext
    exact .inr (.inr (.inl ⟨name, names, hNext, rfl⟩))
  · rename_i hNext
    exact .inr (.inr (.inr ⟨hNext, rfl⟩))

theorem Config.step_executor {P : Executor → Prop}
    (hList : ∀ e call, P e → P (e.listRevisit call).2)
    (hExec : ∀ e name, P e → P (e.exec b control name))
    (hRevisit : ∀ e name, P e → P (e.proceed b .revisit name))
    (hClear : ∀ e, P e → P { e with revisit := [] }) {c c' : Config} (h : P c.executor)
    (hStep : c.step b control = some c') : P c'.executor := by
  obtain ⟨-, ⟨call, body, rest, -, rfl⟩ | ⟨-, rfl⟩ | ⟨name, names, -, rfl⟩ | ⟨-, rfl⟩⟩ :=
    step_cases hStep
  · exact hExec _ _ (hList _ call h)
  · exact h
  · exact hRevisit _ name h
  · exact hClear _ h

theorem step_statement (e : Executor) (i : Nat) (call : Text) (body rest : List Statement) :
    (configMachine b control).step ⟨e, .statements (.mk call body :: rest), i, false⟩ () =
      some ⟨(e.listRevisit call).2.exec b control (e.listRevisit call).1,
        .statements (Config.bodyToRun
          ((e.listRevisit call).2.exec b control (e.listRevisit call).1)
          (e.listRevisit call).1 body ++ rest), i, false⟩ := rfl

mutual
theorem reaches_statement (e : Executor) (i : Nat) (s : Statement) (rest : List Statement) :
    (configMachine b control).Reaches ⟨e, .statements (s :: rest), i, false⟩
      ⟨e.statement b control s, .statements rest, i, false⟩ := by
  cases s with
  | mk call body =>
    apply (Machine.Reaches.of_step (step_statement e i call body rest)).trans
    rw [Executor.statement, Config.bodyToRun]
    dsimp only
    split
    · exact .refl _
    · split
      · exact reaches_statements _ i body rest
      · exact .refl _

theorem reaches_statements (e : Executor) (i : Nat) (l rest : List Statement) :
    (configMachine b control).Reaches ⟨e, .statements (l ++ rest), i, false⟩
      ⟨e.statements b control l, .statements rest, i, false⟩ := by
  cases l with
  | nil =>
    rw [Executor.statements]
    exact .refl _
  | cons s l =>
    rw [Executor.statements]
    exact (reaches_statement e i s (l ++ rest)).trans (reaches_statements _ i l rest)
end

theorem reaches_revisited (e : Executor) (i : Nat) (names : List Text) :
    (configMachine b control).Reaches ⟨e, .revisiting names, i, false⟩
      ⟨names.foldl (Executor.proceed b .revisit) e, .revisiting [], i, false⟩ := by
  induction names generalizing e with
  | nil => exact .refl _
  | cons name names ih =>
    have hStep : (configMachine b control).step ⟨e, .revisiting (name :: names), i, false⟩ () =
        some ⟨e.proceed b .revisit name, .revisiting names, i, false⟩ := rfl
    exact (Machine.Reaches.of_step hStep).trans (ih _)

def Loop.toConfig (control : ControlFlow) (l : Loop) : Config :=
  ⟨l.executor, .statements control.commands, l.iteration, l.exited⟩

theorem reaches_of_loopStep {l l' : Loop} (h : l.step b control = some l') :
    (configMachine b control).Reaches (l.toConfig control) (l'.toConfig control) := by
  simp only [Loop.step, Option.ite_none_left_eq_some, Option.some.injEq] at h
  obtain ⟨hRunning, rfl⟩ := h
  obtain ⟨e, i, exited⟩ := l
  obtain rfl : exited = false := Bool.not_eq_true _ ▸ hRunning
  have hStatements := @reaches_statements b control e i control.commands []
  rw [List.append_nil] at hStatements
  apply hStatements.trans
  generalize e.statements b control control.commands = e
  have hTurn : (configMachine b control).step ⟨e, .statements [], i, false⟩ () =
      some ⟨e, .revisiting e.revisit, i, false⟩ := rfl
  apply ((Machine.Reaches.of_step hTurn).trans (reaches_revisited e i e.revisit)).trans
  exact Machine.Reaches.of_step (a := ()) rfl

/-- The states of the main loop are states of this machine. -/
theorem reachable_toConfig {l : Loop} (h : (loopMachine b control).Reachable l) :
    (configMachine b control).Reachable (l.toConfig control) := by
  induction h with
  | initial => exact .initial
  | step _ _ hStep ih => exact ih.of_reaches (reaches_of_loopStep hStep)

/-- The start of `exec`. -/
def Executor.signal (e : Executor) (name : Text) : Executor :=
  if e.stop then e.setPuppet name (e.puppets name).signalStop else e

theorem Executor.exec_eq (b : Behaviours) (control : ControlFlow) (e : Executor) (name : Text) :
    e.exec b control name =
      if !(((e.signal name).proceed b .statement name).puppets name).running &&
          control.control == name then
        { (e.signal name).proceed b .statement name with stop := true }
      else (e.signal name).proceed b .statement name := rfl

theorem Executor.puppets_exec (b : Behaviours) (control : ControlFlow) (e : Executor)
    (name : Text) :
    (e.exec b control name).puppets = ((e.signal name).proceed b .statement name).puppets := by
  rw [exec_eq, apply_ite puppets, ite_self]

/-- A puppet about to be resumed, and its `stop_`. -/
structure Sight where
  name : Text
  site : Site
  flag : Bool
  deriving DecidableEq

/-- The puppet that the next step resumes. -/
def Config.sight (c : Config) : Option Sight :=
  match c.remaining with
  | .statements (.mk call _ :: _) =>
    let (name, e) := c.executor.listRevisit call
    some ⟨name, .statement, ((e.signal name).puppets name).stop⟩
  | .revisiting (name :: _) => some ⟨name, .revisit, (c.executor.puppets name).stop⟩
  | _ => none

end Henson.Hwl
