import Mathlib.Logic.Basic
import Mathlib.Order.WellFounded

/-!
# Transition systems with executable steps

A machine has one initial state and a partial step function. All nondeterminism
sits in the action: whoever chooses the actions chooses the interleaving. A
property of every run is proved once as an invariant. A promise of the
environment is a guard on the steps of the machine.
-/

namespace TransitionSystem

universe u v

structure Machine (State : Type u) (Action : Type v) where
  initial : State
  step : State → Action → Option State

namespace Machine

variable {State : Type u} {Action : Type v} {State' : Type u} {Action' : Type v}

inductive Reachable (M : Machine State Action) : State → Prop
  | initial : Reachable M M.initial
  | step {s s' : State} (a : Action) :
      Reachable M s → M.step s a = some s' → Reachable M s'

/-- The runs of `M` in which every step meets the guard. -/
def restrict (M : Machine State Action) (guard : State → Action → Prop)
    [∀ s a, Decidable (guard s a)] : Machine State Action where
  initial := M.initial
  step s a := if guard s a then M.step s a else none

theorem restrict_step_eq_some {M : Machine State Action} {guard : State → Action → Prop}
    [∀ s a, Decidable (guard s a)] {s s' : State} {a : Action} :
    (M.restrict guard).step s a = some s' ↔ guard s a ∧ M.step s a = some s' := by
  simp [restrict]

theorem Reachable.invariant {M : Machine State Action} {I : State → Prop}
    (hInitial : I M.initial)
    (hStep : ∀ s a s', I s → M.step s a = some s' → I s') {s : State}
    (hReach : M.Reachable s) : I s := by
  induction hReach with
  | initial => exact hInitial
  | step a _ hs ih => exact hStep _ a _ ih hs

theorem Reachable.invariant_of_reachable {M : Machine State Action} {I : State → Prop}
    (hInitial : I M.initial)
    (hStep : ∀ s a s', M.Reachable s → I s → M.step s a = some s' → I s') {s : State}
    (hReach : M.Reachable s) : I s := by
  induction hReach with
  | initial => exact hInitial
  | step a hr hs ih => exact hStep _ a _ hr ih hs

theorem Reachable.of_restrict {M : Machine State Action} {guard : State → Action → Prop}
    [∀ s a, Decidable (guard s a)] {s : State} (h : (M.restrict guard).Reachable s) :
    M.Reachable s := by
  induction h with
  | initial => exact .initial
  | step a _ hs ih => exact .step a ih (restrict_step_eq_some.mp hs).2

/-- `M` with a history beside its state, which no step reads. -/
def withHistory {History : Type u} (M : Machine State Action) (start : History)
    (record : State → Action → History → History) : Machine (State × History) Action where
  initial := (M.initial, start)
  step p a := (M.step p.1 a).map fun s => (s, record p.1 a p.2)

section History

variable {History : Type u} {M : Machine State Action} {start : History}
  {record : State → Action → History → History}

theorem withHistory_step_eq_some {p p' : State × History} {a : Action} :
    (M.withHistory start record).step p a = some p' ↔
      M.step p.1 a = some p'.1 ∧ record p.1 a p.2 = p'.2 := by
  obtain ⟨s', h'⟩ := p'
  simp only [withHistory, Option.map_eq_some_iff, Prod.mk.injEq]
  constructor
  · rintro ⟨s, hStep, rfl, hRecord⟩
    exact ⟨hStep, hRecord⟩
  · rintro ⟨hStep, hRecord⟩
    exact ⟨s', hStep, rfl, hRecord⟩

theorem Reachable.of_withHistory {p : State × History}
    (h : (M.withHistory start record).Reachable p) : M.Reachable p.1 := by
  induction h with
  | initial => exact .initial
  | step a _ hs ih => exact .step a ih (withHistory_step_eq_some.mp hs).1

end History

/-- A step of `M` is a step of `N` or leaves the state of `N` alone. -/
structure Simulates (M : Machine State Action) (N : Machine State' Action')
    (view : State → State') : Prop where
  initial : view M.initial = N.initial
  step : ∀ s a s', M.step s a = some s' →
    view s' = view s ∨ ∃ b, N.step (view s) b = some (view s')

theorem Simulates.reachable {M : Machine State Action} {N : Machine State' Action'}
    {view : State → State'} (h : Simulates M N view) {s : State} (hReach : M.Reachable s) :
    N.Reachable (view s) := by
  induction hReach with
  | initial => exact h.initial ▸ .initial
  | step a _ hs ih =>
    rcases h.step _ a _ hs with hSame | ⟨b, hb⟩
    · exact hSame ▸ ih
    · exact .step b ih hb

def run (M : Machine State Action) : List Action → State → Option State
  | [], s => some s
  | a :: as, s => (M.step s a).bind (M.run as)

theorem reachable_of_run {M : Machine State Action} (as : List Action) {s s' : State}
    (hReach : M.Reachable s) (h : M.run as s = some s') : M.Reachable s' := by
  induction as generalizing s with
  | nil => exact Option.some.inj h ▸ hReach
  | cons a as ih =>
    obtain ⟨t, ht, hRest⟩ := Option.bind_eq_some_iff.mp h
    exact ih (.step a hReach ht) hRest

theorem run_cons_of_step {M : Machine State Action} {a : Action} {s s' : State}
    (h : M.step s a = some s') (as : List Action) : M.run (a :: as) s = M.run as s' := by
  rw [run, h, Option.bind_some]

theorem run_append (M : Machine State Action) (as bs : List Action) (s : State) :
    M.run (as ++ bs) s = (M.run as s).bind (M.run bs) := by
  induction as generalizing s with
  | nil => rfl
  | cons a as ih =>
    rw [List.cons_append, run, run]
    cases M.step s a with
    | none => rfl
    | some t => exact ih t

theorem invariant_of_run {M : Machine State Action} {I : State → Prop}
    (hStep : ∀ s a s', I s → M.step s a = some s' → I s') {as : List Action} {s s' : State}
    (hInv : I s) (h : M.run as s = some s') : I s' := by
  induction as generalizing s with
  | nil => exact Option.some.inj h ▸ hInv
  | cons a as ih =>
    obtain ⟨t, ht, hRest⟩ := Option.bind_eq_some_iff.mp h
    exact ih (hStep s a t hInv ht) hRest

/-- Where every step lowers a measure, the measure bounds the length of every run. -/
theorem length_add_measure_le {M : Machine State Action} {I : State → Prop} (measure : State → Nat)
    (hStep : ∀ s a s', I s → M.step s a = some s' → I s')
    (hLower : ∀ s a s', I s → M.step s a = some s' → measure s' < measure s)
    {as : List Action} {s s' : State} (hInv : I s) (h : M.run as s = some s') :
    as.length + measure s' ≤ measure s := by
  induction as generalizing s with
  | nil =>
    obtain rfl := Option.some.inj h
    exact Nat.le_of_eq (Nat.zero_add _)
  | cons a as ih =>
    obtain ⟨t, ht, hRest⟩ := Option.bind_eq_some_iff.mp h
    have hTail := ih (hStep s a t hInv ht) hRest
    have hHead := hLower s a t hInv ht
    rw [List.length_cons]
    omega

/-- From a reachable state, a step of `M` is the step of `N` that `label` names. -/
structure Refines (M : Machine State Action) (N : Machine State' Action')
    (view : State → State') (label : State → Action → Action') : Prop where
  initial : view M.initial = N.initial
  step : ∀ s a s', M.Reachable s → M.step s a = some s' →
    N.step (view s) (label s a) = some (view s')

/-- A run of `M` is one of `N`, whose labels keep what the actions have. -/
theorem Refines.run {M : Machine State Action} {N : Machine State' Action'}
    {view : State → State'} {label : State → Action → Action'} (h : Refines M N view label)
    {P : Action → Prop} {Q : Action' → Prop} (hLabel : ∀ s a, P a → Q (label s a))
    {as : List Action} {s s' : State} (hReach : M.Reachable s) (hRun : M.run as s = some s')
    (hActions : ∀ a ∈ as, P a) :
    ∃ bs, N.run bs (view s) = some (view s') ∧ ∀ b ∈ bs, Q b := by
  induction as generalizing s with
  | nil =>
    obtain rfl := Option.some.inj hRun
    exact ⟨[], rfl, nofun⟩
  | cons a as ih =>
    obtain ⟨m, hm, hRest⟩ := Option.bind_eq_some_iff.mp hRun
    obtain ⟨bs, hbs, hQ⟩ := ih (.step a hReach hm) hRest
      fun a' ha' => hActions a' (List.mem_cons_of_mem a ha')
    refine ⟨label s a :: bs, ?_, ?_⟩
    · rw [run_cons_of_step (h.step s a m hReach hm), hbs]
    · rintro b (_ | ⟨_, hb⟩)
      · exact hLabel s a (hActions a List.mem_cons_self)
      · exact hQ b hb

/-- From the reachable states of `M` the two machines take the same actions. -/
structure Mirrors (M : Machine State Action) (N : Machine State' Action) (view : State → State') :
    Prop where
  initial : view M.initial = N.initial
  step : ∀ s a, M.Reachable s → (M.step s a).map view = N.step (view s) a

theorem Mirrors.run {M : Machine State Action} {N : Machine State' Action} {view : State → State'}
    (h : Mirrors M N view) {s : State} (hReach : M.Reachable s) (as : List Action) :
    (M.run as s).map view = N.run as (view s) := by
  induction as generalizing s with
  | nil => rfl
  | cons a as ih =>
    rw [Machine.run, Machine.run, ← h.step s a hReach]
    cases hStep : M.step s a with
    | none => rfl
    | some t => exact ih (.step a hReach hStep)

/-- From states in relation the two machines take the same actions, to states in relation. -/
structure Corresponds (M : Machine State Action) (N : Machine State' Action)
    (R : State → State' → Prop) : Prop where
  initial : R M.initial N.initial
  step : ∀ s t a, R s t → Option.Rel R (M.step s a) (N.step t a)

theorem Corresponds.run {M : Machine State Action} {N : Machine State' Action}
    {R : State → State' → Prop} (h : Corresponds M N R) {s : State} {t : State'} (hR : R s t)
    (as : List Action) : Option.Rel R (M.run as s) (N.run as t) := by
  induction as generalizing s t with
  | nil => exact .some hR
  | cons a as ih =>
    have hStep := h.step s t a hR
    rw [Machine.run, Machine.run]
    cases hs : M.step s a with
    | none =>
      rw [hs] at hStep
      cases ht : N.step t a with
      | none => exact .none
      | some t' => rw [ht] at hStep; cases hStep
    | some s' =>
      rw [hs] at hStep
      cases ht : N.step t a with
      | none => rw [ht] at hStep; cases hStep
      | some t' =>
        rw [ht] at hStep
        cases hStep with
        | some hNext => exact ih hNext

/-- Where the machines correspond only on some steps, and agree which these are. -/
theorem Corresponds.restrict {M : Machine State Action} {N : Machine State' Action}
    {R : State → State' → Prop} {guard : State → Action → Prop} {guard' : State' → Action → Prop}
    [∀ s a, Decidable (guard s a)] [∀ t a, Decidable (guard' t a)]
    (hInitial : R M.initial N.initial) (hGuard : ∀ s t a, R s t → (guard s a ↔ guard' t a))
    (hStep : ∀ s t a, R s t → guard' t a → Option.Rel R (M.step s a) (N.step t a)) :
    Corresponds (M.restrict guard) (N.restrict guard') R where
  initial := hInitial
  step s t a hR := by
    simp only [Machine.restrict, hGuard s t a hR]
    split
    · exact hStep s t a hR ‹_›
    · exact .none

def Reaches (M : Machine State Action) (s s' : State) : Prop := ∃ as, M.run as s = some s'

theorem Reaches.refl {M : Machine State Action} (s : State) : M.Reaches s s := ⟨[], rfl⟩

theorem Reaches.trans {M : Machine State Action} {s s' s'' : State} (h : M.Reaches s s')
    (h' : M.Reaches s' s'') : M.Reaches s s'' := by
  obtain ⟨as, has⟩ := h
  obtain ⟨bs, hbs⟩ := h'
  exact ⟨as ++ bs, by rw [run_append, has, Option.bind_some, hbs]⟩

theorem Reaches.of_step {M : Machine State Action} {s s' : State} {a : Action}
    (h : M.step s a = some s') : M.Reaches s s' :=
  ⟨[a], run_cons_of_step h []⟩

theorem Reachable.of_reaches {M : Machine State Action} {s s' : State} (hReach : M.Reachable s)
    (h : M.Reaches s s') : M.Reachable s' := by
  obtain ⟨as, has⟩ := h
  exact reachable_of_run as hReach has

/-- Where an invariant implies the guard, the guard does not cut a run. -/
theorem Reaches.restrict {M : Machine State Action} {guard : State → Action → Prop}
    [∀ s a, Decidable (guard s a)] {I : State → Prop}
    (hStep : ∀ s a s', I s → M.step s a = some s' → I s') (hGuard : ∀ s a, I s → guard s a)
    {s s' : State} (hInv : I s) (h : M.Reaches s s') : (M.restrict guard).Reaches s s' := by
  obtain ⟨as, has⟩ := h
  induction as generalizing s with
  | nil => exact ⟨[], has⟩
  | cons a as ih =>
    obtain ⟨t, ht, hRest⟩ := Option.bind_eq_some_iff.mp has
    have hFirst := restrict_step_eq_some.mpr ⟨hGuard s a hInv, ht⟩
    exact (Reaches.of_step hFirst).trans (ih (hStep s a t hInv ht) hRest)

structure Behavior (M : Machine State Action) where
  state : Nat → State
  action : Nat → Action
  step : ∀ n, M.step (state n) (action n) = some (state (n + 1))

namespace Behavior

variable {M : Machine State Action} (b : M.Behavior)

theorem always {I : State → Prop} {n : Nat}
    (hStep : ∀ m, n ≤ m → I (b.state m) → I (b.state (m + 1))) (hStart : I (b.state n)) {m : Nat}
    (hLe : n ≤ m) : I (b.state m) := by
  induction hLe with
  | refl => exact hStart
  | step hm ih => exact hStep _ hm ih

theorem reachable (hStart : M.Reachable (b.state 0)) (n : Nat) : M.Reachable (b.state n) :=
  b.always (fun m _ h => .step (b.action m) h (b.step m)) hStart (Nat.zero_le n)

theorem settles (measure : State → Nat)
    (hStep : ∀ n, measure (b.state (n + 1)) ≤ measure (b.state n)) :
    ∃ n, ∀ m, n ≤ m → measure (b.state m) = measure (b.state n) := by
  have hLe : ∀ n m, n ≤ m → measure (b.state m) ≤ measure (b.state n) := fun n m hnm =>
    b.always (I := fun s => measure s ≤ measure (b.state n))
      (fun m _ h => Nat.le_trans (hStep m) h) (Nat.le_refl _) hnm
  let n := Function.argmin fun n => measure (b.state n)
  refine ⟨n, fun m hm => Nat.le_antisymm (hLe n m hm) ?_⟩
  exact Function.argmin_le (fun n => measure (b.state n)) m

end Behavior

end Machine

end TransitionSystem
