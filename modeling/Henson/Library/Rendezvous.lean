import Henson.Library.TransitionSystem

/-!
# Parties that meet

A meeting changes its members, and whether it can take place depends on them alone. If a
party never has a choice between two meetings, the order in which the meetings take place
does not matter: where one order comes to an end, every order comes to the same end.
-/

namespace TransitionSystem

universe u v

namespace Machine

variable {State : Type u} {Action : Type v} {M : Machine State Action}

/-- Two steps can be taken one after the other, in either order and to the same state. -/
def Commutes (M : Machine State Action) : Prop :=
  ∀ s a b t u, a ≠ b → M.step s a = some t → M.step s b = some u →
    ∃ v, M.step t b = some v ∧ M.step u a = some v

def Final (M : Machine State Action) (s : State) : Prop := ∀ a, M.step s a = none

/-- A step ahead of its time is one of the steps of the run. -/
theorem Commutes.advance (hM : M.Commutes) {as : List Action} {s t u : State} {b : Action}
    (hRun : M.run as s = some t) (hFinal : M.Final t) (hStep : M.step s b = some u) :
    ∃ cs, M.run cs u = some t ∧ cs.length + 1 = as.length := by
  induction as generalizing s u with
  | nil =>
    obtain rfl := Option.some.inj hRun
    rw [hFinal b] at hStep
    cases hStep
  | cons a as ih =>
    obtain ⟨m, hm, hRest⟩ := Option.bind_eq_some_iff.mp hRun
    by_cases hSame : a = b
    · subst hSame
      obtain rfl := Option.some.inj (hm.symm.trans hStep)
      exact ⟨as, hRest, rfl⟩
    · obtain ⟨v, hv, hv'⟩ := hM s a b m u hSame hm hStep
      obtain ⟨cs, hcs, hLength⟩ := ih hRest hv
      refine ⟨a :: cs, ?_, ?_⟩
      · rw [run_cons_of_step hv', hcs]
      · rw [List.length_cons, List.length_cons, hLength]

/-- Where one run has come to an end, every run can be continued to this end, in as many steps. -/
theorem Commutes.completes (hM : M.Commutes) {as bs : List Action} {s t u : State}
    (hRun : M.run as s = some t) (hFinal : M.Final t) (hOther : M.run bs s = some u) :
    ∃ cs, M.run cs u = some t ∧ bs.length + cs.length = as.length := by
  induction bs generalizing as s with
  | nil =>
    obtain rfl := Option.some.inj hOther
    exact ⟨as, hRun, Nat.zero_add _⟩
  | cons b bs ih =>
    obtain ⟨m, hm, hRest⟩ := Option.bind_eq_some_iff.mp hOther
    obtain ⟨as', has', hLength⟩ := hM.advance hRun hFinal hm
    obtain ⟨cs, hcs, hSum⟩ := ih has' hRest
    refine ⟨cs, hcs, ?_⟩
    rw [List.length_cons]
    omega

end Machine

/-- Meetings of parties that have nothing but a state of their own. -/
structure Rendezvous (Party : Type u) (Local : Type u) (Meeting : Type v) where
  initial : Party → Local
  member : Meeting → Party → Prop
  ready : Meeting → (Party → Local) → Prop
  effect : Meeting → Party → Local → Local
  decMember : ∀ m p, Decidable (member m p)
  decReady : ∀ m s, Decidable (ready m s)
  ready_congr : ∀ m s s', (∀ p, member m p → s p = s' p) → ready m s → ready m s'
  exclusive : ∀ m m' s p, ready m s → ready m' s → member m p → member m' p → m = m'

namespace Rendezvous

variable {Party Local : Type u} {Meeting : Type v} (R : Rendezvous Party Local Meeting)

instance (m : Meeting) (p : Party) : Decidable (R.member m p) := R.decMember m p

instance (m : Meeting) (s : Party → Local) : Decidable (R.ready m s) := R.decReady m s

def meet (m : Meeting) (s : Party → Local) (p : Party) : Local :=
  if R.member m p then R.effect m p (s p) else s p

def machine : Machine (Party → Local) Meeting where
  initial := R.initial
  step s m := if R.ready m s then some (R.meet m s) else none

variable {R} {m m' : Meeting} {s s' : Party → Local} {p : Party}

theorem step_eq_some : R.machine.step s m = some s' ↔ R.ready m s ∧ R.meet m s = s' := by
  rw [machine, Option.ite_none_right_eq_some, Option.some.injEq]

theorem meet_of_member (h : R.member m p) : R.meet m s p = R.effect m p (s p) := if_pos h

theorem meet_of_not_member (h : ¬ R.member m p) : R.meet m s p = s p := if_neg h

theorem commutes : R.machine.Commutes := by
  intro s m m' t u hNe hStep hStep'
  obtain ⟨hReady, rfl⟩ := step_eq_some.mp hStep
  obtain ⟨hReady', rfl⟩ := step_eq_some.mp hStep'
  have hApart : ∀ p, R.member m p → ¬ R.member m' p := fun p hp hp' =>
    hNe (R.exclusive m m' s p hReady hReady' hp hp')
  have hStill' : R.ready m' (R.meet m s) := by
    refine R.ready_congr m' s _ (fun p hp' => ?_) hReady'
    exact (meet_of_not_member fun hp => hApart p hp hp').symm
  have hStill : R.ready m (R.meet m' s) := by
    refine R.ready_congr m s _ (fun p hp => ?_) hReady
    exact (meet_of_not_member (hApart p hp)).symm
  refine ⟨R.meet m' (R.meet m s), step_eq_some.mpr ⟨hStill', rfl⟩,
    step_eq_some.mpr ⟨hStill, funext fun p => ?_⟩⟩
  by_cases hp : R.member m p
  · rw [meet_of_member hp, meet_of_not_member (hApart p hp), meet_of_not_member (hApart p hp),
      meet_of_member hp]
  · by_cases hp' : R.member m' p
    · rw [meet_of_not_member hp, meet_of_member hp', meet_of_member hp', meet_of_not_member hp]
    · simp only [meet_of_not_member hp, meet_of_not_member hp']

end Rendezvous

end TransitionSystem
