import Mathlib.Tactic.SplitIfs
import Henson.Hwl.Syntax
import Henson.Library.TransitionSystem

/-!
# The main loop of `henson-hwl`

A puppet's behaviour is what each of its resumptions does: yield, or return a
result from `main`, after which the next resumption starts `main` again. The log
is a history of all resumptions. The loop ends with the control puppet exactly
when that puppet first returns to a statement and not to the revisit loop.
-/

namespace Henson.Hwl

open TransitionSystem

inductive Outcome where
  | yields
  | returns (result : Int32)
  deriving DecidableEq

/-- What the resumptions of every puppet do, in order. -/
abbrev Behaviours := Text → Nat → Outcome

structure Puppet where
  running : Bool := false
  stop : Bool := false
  result : Int32 := -1
  resumptions : Nat := 0

def Puppet.signalStop (p : Puppet) : Puppet := { p with stop := true }

/-- `proceed`, until the puppet yields or its `main` returns. -/
def Puppet.proceed (p : Puppet) : Outcome → Puppet
  | .yields => { p with running := true, resumptions := p.resumptions + 1 }
  | .returns result =>
    { p with running := false, result := result, resumptions := p.resumptions + 1 }

inductive Site where
  | statement | revisit
  deriving DecidableEq

structure Resumption where
  name : Text
  site : Site
  outcome : Outcome
  deriving DecidableEq

structure Executor where
  stop : Bool := false
  revisit : List Text := []
  puppets : Text → Puppet := fun _ => {}
  log : List Resumption := []

namespace Executor

def setPuppet (e : Executor) (name : Text) (p : Puppet) : Executor :=
  { e with puppets := fun n => if n = name then p else e.puppets n }

/-- `puppets[name]->proceed()` -/
def proceed (b : Behaviours) (site : Site) (e : Executor) (name : Text) : Executor :=
  let outcome := b name (e.puppets name).resumptions
  { e.setPuppet name ((e.puppets name).proceed outcome) with
    log := e.log ++ [⟨name, site, outcome⟩] }

def exec (b : Behaviours) (control : ControlFlow) (e : Executor) (name : Text) : Executor :=
  let e := if e.stop then e.setPuppet name (e.puppets name).signalStop else e
  let e := e.proceed b .statement name
  if !(e.puppets name).running && control.control == name then { e with stop := true } else e

/-- The start of `statement`: the called puppet's name, which is listed for the revisit loop if
the call is starred. -/
def listRevisit (e : Executor) (call : Text) : Text × Executor :=
  match call with
  | '*' :: name => (name, { e with revisit := e.revisit ++ [name] })
  | name => (name, e)

mutual
def statement (b : Behaviours) (control : ControlFlow) (e : Executor) : Statement → Executor
  | .mk call body =>
    let (name, e) := e.listRevisit call
    let e := e.exec b control name
    if body.isEmpty then e
    else if (e.puppets name).result = 0 then statements b control e body
    else e

def statements (b : Behaviours) (control : ControlFlow) (e : Executor) :
    List Statement → Executor
  | [] => e
  | s :: rest => statements b control (statement b control e s) rest
end

/-- `for (auto& name : revisit) puppets[name]->proceed();`, then `revisit.clear()` -/
def revisitAll (b : Behaviours) (e : Executor) : Executor :=
  { e.revisit.foldl (proceed b .revisit) e with revisit := [] }

end Executor

/-- The variables of the do/while loop; `exited` once its condition has failed. -/
structure Loop where
  executor : Executor := {}
  iteration : Nat := 0
  exited : Bool := false

def Loop.step (b : Behaviours) (control : ControlFlow) (l : Loop) : Option Loop :=
  if l.exited then none
  else
    let e := (l.executor.statements b control control.commands).revisitAll b
    some { executor := e, iteration := l.iteration + 1, exited := e.stop }

def loopMachine (b : Behaviours) (control : ControlFlow) : Machine Loop Unit where
  initial := {}
  step l _ := l.step b control

def ControlFlow.Ended (control : ControlFlow) (r : Resumption) : Bool :=
  decide (r.name = control.control ∧ r.outcome ≠ .yields)

/-- The control puppet has returned to a statement. -/
def ControlFlow.Stopped (control : ControlFlow) (r : Resumption) : Bool :=
  decide (r.site = .statement) && control.Ended r

/-- From `e` to `e'` puppets were resumed at `site` only, and `stop` was set exactly if the
control puppet returned to a statement. -/
structure Executor.Advances (control : ControlFlow) (site : Site) (e e' : Executor) : Prop where
  log : ∃ rs, e'.log = e.log ++ rs ∧ ∀ r ∈ rs, r.site = site
  stop : e.stop = e.log.any control.Stopped → e'.stop = e'.log.any control.Stopped

namespace Executor

variable {b : Behaviours} {control : ControlFlow} {site : Site} {e e' e'' : Executor}

theorem Advances.refl (e : Executor) : Advances control site e e :=
  ⟨⟨[], (List.append_nil _).symm, fun _ h => by cases h⟩, id⟩

theorem Advances.trans (h : Advances control site e e') (h' : Advances control site e' e'') :
    Advances control site e e'' := by
  obtain ⟨rs, hLog, hSite⟩ := h.log
  obtain ⟨rs', hLog', hSite'⟩ := h'.log
  refine ⟨⟨rs ++ rs', by rw [hLog', hLog, List.append_assoc], fun r hr => ?_⟩, h'.stop ∘ h.stop⟩
  rcases List.mem_append.mp hr with hr | hr
  · exact hSite r hr
  · exact hSite' r hr

theorem log_exec (b : Behaviours) (control : ControlFlow) (e : Executor) (name : Text) :
    (e.exec b control name).log =
      e.log ++ [⟨name, .statement, b name (e.puppets name).resumptions⟩] := by
  cases hStop : e.stop <;> simp [exec, proceed, setPuppet, Puppet.signalStop, hStop, apply_ite log]

theorem stop_exec (b : Behaviours) (control : ControlFlow) (e : Executor) (name : Text) :
    (e.exec b control name).stop =
      (e.stop || control.Ended ⟨name, .statement, b name (e.puppets name).resumptions⟩) := by
  have hRunning : ∀ (p : Puppet) o, (p.proceed o).running = (o == .yields) := by
    intro p o
    cases o <;> rfl
  have hName : (control.control == name) = decide (name = control.control) := by
    rw [Bool.eq_iff_iff, beq_iff_eq, decide_eq_true_eq, eq_comm]
  cases hStop : e.stop <;>
    simp [exec, proceed, setPuppet, Puppet.signalStop, hStop, hRunning, hName, ControlFlow.Ended,
      apply_ite Executor.stop, Bool.and_comm]

theorem revisit_exec (b : Behaviours) (control : ControlFlow) (e : Executor) (name : Text) :
    (e.exec b control name).revisit = e.revisit := by
  simp only [exec]
  split <;> split <;> rfl

theorem listRevisit_snd (e : Executor) (call : Text) :
    (e.listRevisit call).2 = { e with revisit := (e.listRevisit call).2.revisit } := by
  unfold listRevisit
  split <;> rfl

@[simp] theorem log_listRevisit (e : Executor) (call : Text) :
    (e.listRevisit call).2.log = e.log := by rw [listRevisit_snd]

@[simp] theorem stop_listRevisit (e : Executor) (call : Text) :
    (e.listRevisit call).2.stop = e.stop := by rw [listRevisit_snd]

theorem Advances.exec (e : Executor) (name : Text) :
    Advances control .statement e (e.exec b control name) where
  log := ⟨_, log_exec b control e name, fun r hr => by rw [List.mem_singleton.mp hr]⟩
  stop hStop := by
    rw [stop_exec, log_exec, List.any_append, ← hStop]
    simp [ControlFlow.Stopped]

theorem Advances.revisit (e : Executor) (name : Text) :
    Advances control .revisit e (e.proceed b .revisit name) where
  log := ⟨_, rfl, fun r hr => by rw [List.mem_singleton.mp hr]⟩
  stop hStop := by
    have hLog : (e.proceed b .revisit name).log.any control.Stopped =
        e.log.any control.Stopped := by simp [proceed, ControlFlow.Stopped]
    rw [hLog, ← hStop]
    rfl

theorem Advances.listRevisit (e : Executor) (call : Text) :
    Advances control .statement e (e.listRevisit call).2 := by
  rw [listRevisit_snd]
  exact ⟨⟨[], (List.append_nil _).symm, fun _ h => by cases h⟩, id⟩

section Composed

variable {R : Executor → Executor → Prop}

mutual
/-- A relation that composes holds across a statement if it holds across each part of one. -/
theorem across_statement (hRefl : ∀ e, R e e) (hTrans : ∀ e e' e'', R e e' → R e' e'' → R e e'')
    (hList : ∀ e call, R e (e.listRevisit call).2) (hExec : ∀ e name, R e (e.exec b control name))
    (e : Executor) (s : Statement) : R e (e.statement b control s) := by
  cases s with
  | mk call body =>
    rw [Executor.statement]
    have hCall := hTrans _ _ _ (hList e call)
      (hExec (e.listRevisit call).2 (e.listRevisit call).1)
    dsimp only
    split_ifs
    · exact hCall
    · exact hTrans _ _ _ hCall (across_statements hRefl hTrans hList hExec _ body)
    · exact hCall

theorem across_statements (hRefl : ∀ e, R e e) (hTrans : ∀ e e' e'', R e e' → R e' e'' → R e e'')
    (hList : ∀ e call, R e (e.listRevisit call).2) (hExec : ∀ e name, R e (e.exec b control name))
    (e : Executor) (l : List Statement) : R e (e.statements b control l) := by
  cases l with
  | nil => exact hRefl e
  | cons s rest =>
    rw [Executor.statements]
    exact hTrans _ _ _ (across_statement hRefl hTrans hList hExec e s)
      (across_statements hRefl hTrans hList hExec _ rest)
end

end Composed

theorem Advances.statements (e : Executor) (l : List Statement) :
    Advances control .statement e (e.statements b control l) :=
  across_statements Advances.refl (fun _ _ _ => Advances.trans) Advances.listRevisit Advances.exec
    e l

theorem Advances.foldl_revisit (names : List Text) (e : Executor) :
    Advances control .revisit e (names.foldl (Executor.proceed b .revisit) e) := by
  induction names generalizing e with
  | nil => exact Advances.refl e
  | cons name names ih => exact (Advances.revisit e name).trans (ih _)

theorem Advances.revisitAll (e : Executor) :
    Advances control .revisit e (e.revisitAll b) := by
  have h : Advances control .revisit e (e.revisit.foldl (Executor.proceed b .revisit) e) :=
    Advances.foldl_revisit e.revisit e
  exact ⟨h.log, h.stop⟩

end Executor

theorem Loop.step_eq_some {b : Behaviours} {control : ControlFlow} {l l' : Loop}
    (h : l.step b control = some l') :
    l'.exited = l'.executor.stop ∧ ∃ e, Executor.Advances control .statement l.executor e ∧
      Executor.Advances control .revisit e l'.executor := by
  simp only [Loop.step, Option.ite_none_left_eq_some, Option.some.injEq] at h
  obtain ⟨-, rfl⟩ := h
  exact ⟨rfl, _, Executor.Advances.statements l.executor control.commands,
    Executor.Advances.revisitAll _⟩

theorem stop_of_reachable {b : Behaviours} {control : ControlFlow} {l : Loop}
    (h : (loopMachine b control).Reachable l) :
    l.executor.stop = l.executor.log.any control.Stopped := by
  refine h.invariant (I := fun l => l.executor.stop = l.executor.log.any control.Stopped) rfl ?_
  intro l _ l' hStop hStep
  obtain ⟨-, e, hStatements, hRevisit⟩ := Loop.step_eq_some hStep
  exact hRevisit.stop (hStatements.stop hStop)

/-- If the control puppet's `main` first returns in an iteration, then the loop exits at the end
of that iteration if and only if it returned to a statement. -/
theorem exited_iff_returned_to_statement (b : Behaviours) (control : ControlFlow) {l l' : Loop}
    (h : (loopMachine b control).Reachable l) (hStep : l.step b control = some l')
    (hNone : l.executor.log.find? control.Ended = none) {r : Resumption}
    (hFirst : l'.executor.log.find? control.Ended = some r) :
    l'.exited = true ↔ r.site ≠ .revisit := by
  have hStop := stop_of_reachable (h.step () hStep)
  obtain ⟨hExited, e, hStatements, hRevisit⟩ := Loop.step_eq_some hStep
  obtain ⟨rs, hLog, hSite⟩ := hStatements.log
  obtain ⟨rs', hLog', hSite'⟩ := hRevisit.log
  rw [hLog', hLog, List.append_assoc, List.find?_append, hNone, Option.none_or,
    List.find?_append] at hFirst
  rw [hExited, hStop]
  cases hHere : rs.find? control.Ended with
  | some r₁ =>
    -- the first return is to a statement of this iteration
    rw [hHere, Option.some_or] at hFirst
    obtain rfl := Option.some.inj hFirst
    have hMem := List.mem_of_find?_eq_some hHere
    have hStatement := hSite _ hMem
    refine iff_of_true ?_ (by rw [hStatement]; decide)
    rw [hLog', hLog, List.any_eq_true]
    refine ⟨r₁, by simp [hMem], ?_⟩
    rw [ControlFlow.Stopped, hStatement, List.find?_some hHere]
    rfl
  | none =>
    rw [hHere, Option.none_or] at hFirst
    have hLate := hSite' _ (List.mem_of_find?_eq_some hFirst)
    refine iff_of_false ?_ (by simp [hLate])
    rw [List.find?_eq_none] at hNone hHere
    rw [hLog', hLog, List.any_eq_true]
    rintro ⟨r', hMem, hStopped⟩
    simp only [ControlFlow.Stopped, Bool.and_eq_true, decide_eq_true_eq] at hStopped
    obtain ⟨hStatement, hEnded⟩ := hStopped
    rcases List.mem_append.mp hMem with hMem | hMem
    · rcases List.mem_append.mp hMem with hMem | hMem
      · exact hNone r' hMem hEnded
      · exact hHere r' hMem hEnded
    · rw [hSite' r' hMem] at hStatement
      cases hStatement

theorem exited_iff_returned_to_statement_run :
    ∃ l : Loop, l.iteration = 1 ∧ (l.exited = true ↔ Site.statement ≠ .revisit) := by
  let control : ControlFlow := ⟨['w'], [.mk ['t'] [.mk ['*', 's'] []]], ['s']⟩
  let b : Behaviours := fun _ _ => .returns 0
  have hRun : (Loop.step b control {}).map (fun l =>
      (l.iteration, l.executor.log.find? control.Ended)) =
      some (1, some ⟨['s'], .statement, .returns 0⟩) := by decide
  obtain ⟨l, hl, hFacts⟩ := Option.map_eq_some_iff.mp hRun
  obtain ⟨hIteration, hFirst⟩ := Prod.mk.inj hFacts
  exact ⟨l, hIteration, exited_iff_returned_to_statement b control .initial hl rfl hFirst⟩

/-- The starred control puppet yields to its statement and returns to the revisit loop: the loop
goes on and starts it again. -/
theorem revisited_control_goes_on :
    let control : ControlFlow := ⟨['w'], [.mk ['*', 's'] []], ['s']⟩
    let b : Behaviours := fun _ n => if n = 1 then .returns 0 else .yields
    ∃ l, (loopMachine b control).Reachable l ∧ l.iteration = 1 ∧ l.exited = false ∧
      l.executor.log.find? control.Ended = some ⟨['s'], .revisit, .returns 0⟩ := by
  intro control b
  have hRun : ((loopMachine b control).run [()] {}).map (fun l =>
      (l.iteration, l.exited, l.executor.log.find? control.Ended)) =
      some (1, false, some ⟨['s'], .revisit, .returns 0⟩) := by decide
  obtain ⟨l, hl, hFacts⟩ := Option.map_eq_some_iff.mp hRun
  simp only [Prod.mk.injEq] at hFacts
  exact ⟨l, Machine.reachable_of_run [()] .initial hl, hFacts⟩

end Henson.Hwl
