import Mathlib.Logic.Function.Basic
import Henson.Library.TransitionSystem

/-!
# Threads that hand over control

Each thread has a state of its own, one runs, and the others wait, each under a context.
Nothing else is shared than the shared state. The steps of a thread are its own; control
moves only where the running thread hands it over.
-/

namespace Threads

open TransitionSystem

variable {Thread Context Own Shared : Type}

inductive Status (Context : Type) where
  | unborn
  | running
  | held (x : Context)
  deriving DecidableEq

structure State (Thread Context Own Shared : Type) where
  running : Thread
  status : Thread → Status Context
  own : Thread → Own
  shared : Shared

inductive Action (Thread Context Own Shared : Type) where
  | compute (own : Own) (shared : Shared)
  /-- The running thread waits under `x` and goes on from `own`; `t` runs. -/
  | switch (t : Thread) (x : Context) (own : Own)
  /-- `t` waits under `x`, to go on from `born`. -/
  | spawn (t : Thread) (x : Context) (own born : Own)

variable [DecidableEq Thread]

def step (s : State Thread Context Own Shared) :
    Action Thread Context Own Shared → Option (State Thread Context Own Shared)
  | .compute own shared => some { s with own := Function.update s.own s.running own, shared }
  | .switch t x own =>
    match s.status t with
    | .held _ => some { s with
        running := t
        status := Function.update (Function.update s.status s.running (.held x)) t .running
        own := Function.update s.own s.running own }
    | _ => none
  | .spawn t x own born =>
    match s.status t with
    | .unborn => some { s with
        status := Function.update s.status t (.held x)
        own := Function.update (Function.update s.own s.running own) t born }
    | _ => none

def machine (initial : State Thread Context Own Shared) :
    Machine (State Thread Context Own Shared) (Action Thread Context Own Shared) where
  initial
  step := step

/-- The step hands control to `t`. -/
def Action.Wakes (t : Thread) : Action Thread Context Own Shared → Prop
  | .switch u _ _ => u = t
  | _ => False

section Asleep

variable {s s' : State Thread Context Own Shared} {a : Action Thread Context Own Shared}
  {t : Thread} {x : Context}

/-- A waiting thread is not the running one. -/
def Waits (s : State Thread Context Own Shared) (t : Thread) (x : Context) : Prop :=
  s.status t = .held x ∧ s.running ≠ t

theorem Waits.step (h : Waits s t x) (hStep : Threads.step s a = some s') (hWakes : ¬ a.Wakes t) :
    Waits s' t x ∧ s'.own t = s.own t := by
  obtain ⟨hHeld, hNe⟩ := h
  cases a with
  | compute own shared =>
    obtain rfl := Option.some.inj hStep
    exact ⟨⟨hHeld, hNe⟩, Function.update_of_ne hNe.symm own s.own⟩
  | switch u y own =>
    have hNeU : t ≠ u := fun hEq => hWakes hEq.symm
    simp only [Threads.step] at hStep
    split at hStep
    · obtain rfl := Option.some.inj hStep
      refine ⟨⟨?_, hNeU.symm⟩, Function.update_of_ne hNe.symm own s.own⟩
      exact (Function.update_of_ne hNeU _ _).trans
        ((Function.update_of_ne hNe.symm _ _).trans hHeld)
    · cases hStep
  | spawn u y own born =>
    simp only [Threads.step] at hStep
    split at hStep
    case h_1 hUnborn =>
      have hNeU : t ≠ u := by
        rintro rfl
        rw [hHeld] at hUnborn
        cases hUnborn
      obtain rfl := Option.some.inj hStep
      refine ⟨⟨(Function.update_of_ne hNeU _ _).trans hHeld, hNe⟩, ?_⟩
      exact (Function.update_of_ne hNeU _ _).trans (Function.update_of_ne hNe.symm _ _)
    case h_2 => cases hStep

theorem Waits.run {initial : State Thread Context Own Shared}
    {as : List (Action Thread Context Own Shared)} (h : Waits s t x)
    (hRun : (machine initial).run as s = some s') (hWakes : ∀ a ∈ as, ¬ a.Wakes t) :
    Waits s' t x ∧ s'.own t = s.own t := by
  induction as generalizing s with
  | nil =>
    obtain rfl := Option.some.inj hRun
    exact ⟨h, rfl⟩
  | cons a as ih =>
    obtain ⟨m, hm, hRest⟩ := Option.bind_eq_some_iff.mp hRun
    obtain ⟨hWaits, hOwn⟩ := h.step hm (hWakes a List.mem_cons_self)
    obtain ⟨hWaits', hOwn'⟩ := ih hWaits hRest fun a' ha' => hWakes a' (List.mem_cons_of_mem a ha')
    exact ⟨hWaits', hOwn'.trans hOwn⟩

end Asleep

end Threads
