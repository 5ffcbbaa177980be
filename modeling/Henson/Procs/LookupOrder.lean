import Mathlib.Algebra.Order.BigOperators.Group.List
import Mathlib.Algebra.Order.Group.Nat
import Henson.Procs.Lookups

/-!
# When all lookups return

The groups make their new lookups in orders of their own. Where these fit into one order of
meetings, every run can be continued until all lookups have returned, and all of them end in
one state. Where they do not, no run gets there.
-/

namespace Henson.ProcMap

open TransitionSystem MachineInt

def partner (a : Nat) (m : Nat × Nat) : Option Nat :=
  if m.1 = a then some m.2 else if m.2 = a then some m.1 else none

namespace Ranks

/-- An order of meetings in which every group makes its new lookups. -/
structure Ordered (w : Ranks) (s : Nat → Caller) (order : List (Nat × Nat)) : Prop where
  leaders : ∀ m ∈ order, m.1 < m.2 ∧ w.IsLeader m.1 ∧ w.IsLeader m.2
  follows : ∀ a, w.IsLeader a →
    (s a).names.map w.leaderOf = (order.filterMap (partner a)).map fun b => some (toInt32 b)

variable {w : Ranks} {s s' t : Nat → Caller} {calls : Nat → List StdString}
  {order : List (Nat × Nat)} {a b : Nat}

theorem ordered_lookup_iff {r : Nat}
    (hStep : (w.lookups calls).machine.step s (.lookup r) = some s') :
    w.Ordered s' order ↔ w.Ordered s order := by
  have hNames := names_lookup hStep
  constructor
  · exact fun h => ⟨h.leaders, fun a ha => hNames a ▸ h.follows a ha⟩
  · exact fun h => ⟨h.leaders, fun a ha => (hNames a).symm ▸ h.follows a ha⟩

theorem Meets.names (h : w.Meets s a b) (hs : w.Collective s)
    (hStep : (w.lookups calls).machine.step s (.create a b) = some s') {c : Nat}
    (hc : w.IsLeader c) :
    (s c).names.map w.leaderOf =
      ((partner c (a, b)).map fun d => some (toInt32 d)).toList ++ (s' c).names.map w.leaderOf := by
  obtain ⟨-, hOther⟩ := of_step_create hStep
  have hSide : ∀ here there, (here = a ∧ there = b ∨ here = b ∧ there = a) →
      (s here).names.map w.leaderOf =
        some (toInt32 there) :: (s' here).names.map w.leaderOf := by
    intro here there hSides
    obtain ⟨hHere, -, -⟩ := h.leaders hSides
    obtain ⟨name, hSeen⟩ := h.seen hs hStep hSides
    obtain ⟨comms, hSeen⟩ := hSeen here hHere.mem
    rw [hSeen.creates.names (w.comm there), ← hSeen.after, List.map_cons, hSeen.creates.remote,
      hSeen.remote]
  by_cases hA : a = c
  · subst hA
    rw [hSide a b (.inl ⟨rfl, rfl⟩), partner, if_pos rfl]
    rfl
  · by_cases hB : b = c
    · subst hB
      rw [hSide b a (.inr ⟨rfl, rfl⟩), partner, if_neg hA, if_pos rfl]
      rfl
    · have hSame : s' c = s c := hOther c (fun hMem => hA (h.2.1.unique hc hMem hc.mem))
        fun hMem => hB (h.2.2.1.unique hc hMem hc.mem)
      rw [hSame, partner, if_neg hA, if_neg hB]
      rfl

theorem filterMap_cons_partner (c : Nat) (m : Nat × Nat) (order : List (Nat × Nat)) :
    ((m :: order).filterMap (partner c)).map (fun b => some (toInt32 b)) =
      ((partner c m).map fun d => some (toInt32 d)).toList ++
        (order.filterMap (partner c)).map fun b => some (toInt32 b) := by
  rw [List.filterMap_cons]
  cases partner c m <;> rfl

theorem Meets.ordered_iff (h : w.Meets s a b) (hs : w.Collective s)
    (hStep : (w.lookups calls).machine.step s (.create a b) = some s') :
    w.Ordered s' order ↔ w.Ordered s ((a, b) :: order) := by
  constructor
  · intro hOrd
    refine ⟨List.forall_mem_cons.mpr ⟨⟨h.1, h.2.1, h.2.2.1⟩, hOrd.leaders⟩, fun c hc => ?_⟩
    rw [h.names hs hStep hc, hOrd.follows c hc, filterMap_cons_partner]
  · intro hOrd
    refine ⟨(List.forall_mem_cons.mp hOrd.leaders).2, fun c hc => ?_⟩
    have hFollows := hOrd.follows c hc
    rw [h.names hs hStep hc, filterMap_cons_partner] at hFollows
    exact List.append_cancel_left hFollows

def remaining (w : Ranks) (s : Nat → Caller) : Nat :=
  ((List.range w.size).map fun p => (s p).calls.length).sum

theorem Collective.remaining_lt (hs : w.Collective s) {m : Meeting}
    (hStep : (w.lookups calls).machine.step s m = some s') {r : Nat} (hr : r < w.size)
    (hChanged : s' r ≠ s r) : w.remaining s' < w.remaining s := by
  have hRank : ∀ p, (s' p).calls.length ≤ (s p).calls.length ∧
      (s' p ≠ s p → (s' p).calls.length < (s p).calls.length) := by
    intro p
    obtain hSame | ⟨hNext, hHit⟩ | ⟨a, b, here, there, name, comms, -, -, hSeen⟩ :=
      hs.rank_cases hStep p
    · rw [hSame]
      exact ⟨Nat.le_refl _, fun h => absurd rfl h⟩
    · have hLength := (Caller.names_next hHit).2
      rw [hNext]
      exact ⟨by omega, fun _ => by omega⟩
    · have hLength := hSeen.creates.calls (w.comm there)
      rw [hSeen.after]
      exact ⟨by omega, fun _ => by omega⟩
  exact List.sum_lt_sum _ _ (fun p _ => (hRank p).1)
    ⟨r, List.mem_range.mpr hr, (hRank r).2 hChanged⟩

theorem names_eq_nil_iff {c : Caller} (h : c.hit = false) : c.names = [] ↔ c.calls = [] := by
  constructor
  · intro hNames
    by_contra hCalls
    obtain hHit | ⟨name, hName, -⟩ := Caller.hit_or_names hCalls
    · rw [h] at hHit
      cases hHit
    · rw [hNames] at hName
      cases hName
  · intro hCalls
    rw [Caller.names, hCalls, needed]

theorem Collective.meets_of_ordered (hs : w.Collective s) (hOrd : w.Ordered s ((a, b) :: order))
    (hMiss : ∀ r < w.size, (s r).hit = false) : w.Meets s a b := by
  obtain ⟨hLt, ha, hb⟩ := (List.forall_mem_cons.mp hOrd.leaders).1
  have hNe : a ≠ b := Nat.ne_of_lt hLt
  have hSide : ∀ here there, w.IsLeader here → partner here (a, b) = some there →
      ∀ p ∈ w.comm here, (s p).pending.map Intercomm.remoteLeader = some (toInt32 there) := by
    intro here there hHere hPartner p hp
    have hFollows := hOrd.follows here hHere
    rw [filterMap_cons_partner, hPartner, ← hs.sync here p hp] at hFollows
    obtain ⟨name, names, hNames, hName, -⟩ := List.map_eq_cons_iff.mp hFollows
    have hpSize := (lt_of_mem_comm hp).2
    have hCalls : (s p).calls ≠ [] := by
      intro hNil
      rw [(names_eq_nil_iff (hMiss p hpSize)).mpr hNil] at hNames
      cases hNames
    obtain hHit | ⟨name', hName', hNext, hNone⟩ := Caller.hit_or_names hCalls
    · rw [hMiss p hpSize] at hHit
      cases hHit
    · rw [hNames, List.head?_cons] at hName'
      obtain rfl := Option.some.inj hName'
      obtain ⟨comms, hRemote, hCreates⟩ :=
        (hs.at_ p hpSize).creates hHere hp hNext hNone hName
      rw [hCreates.pending, Option.map_some, hRemote]
  have hA := hSide a b ha (if_pos rfl)
  have hB := hSide b a hb (by rw [partner, if_neg hNe, if_pos rfl])
  refine ⟨hLt, ha, hb, fun p hp => ?_, hA a ha.mem, hB b hb.mem⟩
  rcases List.mem_append.mp hp with hp | hp
  · exact Option.isSome_map.symm.trans (Option.isSome_of_eq_some (hA p hp))
  · exact Option.isSome_map.symm.trans (Option.isSome_of_eq_some (hB p hp))

variable (calls) in
theorem Collective.complete_of_ordered {n : Nat} (hs : w.Collective s) (hOrd : w.Ordered s order)
    (hn : w.remaining s = n) :
    ∃ ms t, (w.lookups calls).machine.run ms s = some t ∧ ∀ p < w.size, (t p).calls = [] := by
  induction n using Nat.strongRecOn generalizing s order with
  | _ n ih =>
    subst hn
    have hContinue : ∀ {m s' order'} (hStep : (w.lookups calls).machine.step s m = some s')
        {r : Nat}, r < w.size → s' r ≠ s r → w.Ordered s' order' →
        ∃ ms t, (w.lookups calls).machine.run ms s = some t ∧ ∀ p < w.size, (t p).calls = [] := by
      intro m s' order' hStep r hr hChanged hOrd'
      obtain ⟨ms, t, hRun, hDone⟩ :=
        ih _ (hs.remaining_lt hStep hr hChanged) (hs.step hStep) hOrd' rfl
      exact ⟨m :: ms, t, by rw [Machine.run_cons_of_step hStep, hRun], hDone⟩
    have hShorter : ∀ {c c' : Caller}, c.calls.length = c'.calls.length + 1 → c' ≠ c := by
      rintro c c' hLength rfl
      omega
    by_cases hHit : ∃ r < w.size, (s r).hit = true
    · obtain ⟨r, hr, hHit⟩ := hHit
      have hStep : (w.lookups calls).machine.step s (.lookup r) =
          some ((w.lookups calls).meet (.lookup r) s) := if_pos hHit
      refine hContinue hStep hr ?_ ((ordered_lookup_iff hStep).mpr hOrd)
      rw [(of_step_lookup hStep).2.1]
      exact hShorter (Caller.names_next hHit).2
    · have hMiss : ∀ r < w.size, (s r).hit = false := fun r hr =>
        Bool.eq_false_iff.mpr fun h => hHit ⟨r, hr, h⟩
      cases order with
      | nil =>
        refine ⟨[], s, rfl, fun p hp => (names_eq_nil_iff (hMiss p hp)).mp ?_⟩
        obtain ⟨c, hc, hMem⟩ := exists_leader hp
        rw [hs.sync c p hMem]
        exact List.map_eq_nil_iff.mp (hOrd.follows c hc)
      | cons m order =>
        obtain ⟨a, b⟩ := m
        have hMeets := hs.meets_of_ordered hOrd hMiss
        have hStep : (w.lookups calls).machine.step s (.create a b) =
            some ((w.lookups calls).meet (.create a b) s) := if_pos hMeets
        refine hContinue hStep hMeets.2.1.lt ?_ ((hMeets.ordered_iff hs hStep).mpr hOrd)
        obtain ⟨name, hSeen⟩ := hMeets.seen hs hStep (.inl ⟨rfl, rfl⟩)
        obtain ⟨comms, hSeen⟩ := hSeen a hMeets.2.1.mem
        rw [hSeen.after]
        exact hShorter (hSeen.creates.calls _)

theorem Collective.ordered_of_complete {ms : List Meeting} (hs : w.Collective s)
    (hRun : (w.lookups calls).machine.run ms s = some t) (hDone : ∀ p < w.size, (t p).calls = []) :
    ∃ order, w.Ordered s order := by
  induction ms generalizing s with
  | nil =>
    obtain rfl := Option.some.inj hRun
    refine ⟨[], nofun, fun a ha => ?_⟩
    rw [Caller.names, hDone a ha.lt, needed]
    rfl
  | cons m ms ih =>
    obtain ⟨s', hStep, hRest⟩ := Option.bind_eq_some_iff.mp hRun
    obtain ⟨order, hOrd⟩ := ih (hs.step hStep) hRest
    cases m with
    | lookup r => exact ⟨order, (ordered_lookup_iff hStep).mp hOrd⟩
    | create a b =>
      exact ⟨(a, b) :: order, ((of_step_create hStep).1.ordered_iff hs hStep).mp hOrd⟩

theorem calls_outside (hReach : (w.lookups calls).machine.Reachable s) {p : Nat}
    (hp : ¬ p < w.size) : (s p).calls = [] := by
  refine hReach.invariant (I := fun s => (s p).calls = []) (if_neg hp) fun s m s' hNil hStep => ?_
  have hHit : (s p).hit = false := by rw [Caller.hit, hNil]
  cases m with
  | lookup r =>
    obtain ⟨hHere, -, hOther⟩ := of_step_lookup hStep
    rw [hOther p, hNil]
    rintro rfl
    rw [hHit] at hHere
    cases hHere
  | create a b =>
    obtain ⟨-, hOther⟩ := of_step_create hStep
    rw [hOther p (fun h => hp (lt_of_mem_comm h).2) fun h => hp (lt_of_mem_comm h).2, hNil]

theorem final_of_done (hDone : ∀ p, (s p).calls = []) : (w.lookups calls).machine.Final s := by
  intro m
  refine if_neg fun hReady => ?_
  cases m with
  | lookup r =>
    have hHit : (s r).hit = true := hReady
    rw [Caller.hit, hDone] at hHit
    cases hHit
  | create a b =>
    have hMeets : w.Meets s a b := hReady
    have hPending := hMeets.pending (.inl hMeets.2.1.mem)
    rw [Caller.pending, hDone] at hPending
    cases hPending

/-- Exactly if the new lookups of all groups fit into one order of meetings, every run can be
continued until all lookups have returned, always to the same state and in the same number of
steps. If they do not, every run leaves a rank with a lookup that has not returned. -/
theorem lookups_return_iff (hNeeds : w.SameNeeds calls) :
    ((∃ order, w.Ordered (w.lookups calls).initial order) ↔
      ∃ t n, (∀ p, (t p).calls = []) ∧
        ∀ ms s, (w.lookups calls).machine.run ms (w.lookups calls).initial = some s →
          ∃ ms', (w.lookups calls).machine.run ms' s = some t ∧ ms.length + ms'.length = n) ∧
    ((¬ ∃ order, w.Ordered (w.lookups calls).initial order) →
      ∀ ms s, (w.lookups calls).machine.run ms (w.lookups calls).initial = some s →
        ∃ p < w.size, (s p).calls ≠ []) := by
  have hs := (consistent_initial hNeeds).collective
  have hOrder : ∀ ms s, (w.lookups calls).machine.run ms (w.lookups calls).initial = some s →
      (∀ p < w.size, (s p).calls = []) → ∃ order, w.Ordered (w.lookups calls).initial order :=
    fun ms s hRun hDone => hs.ordered_of_complete hRun hDone
  refine ⟨⟨?_, ?_⟩, ?_⟩
  · rintro ⟨order, hOrd⟩
    obtain ⟨ms, t, hRun, hDone⟩ := hs.complete_of_ordered calls hOrd rfl
    have hReach := Machine.reachable_of_run ms .initial hRun
    have hAll : ∀ p, (t p).calls = [] := by
      intro p
      by_cases hp : p < w.size
      · exact hDone p hp
      · exact calls_outside hReach hp
    exact ⟨t, ms.length, hAll, fun ms' s hOther =>
      Rendezvous.commutes.completes hRun (final_of_done hAll) hOther⟩
  · rintro ⟨t, n, hDone, hEvery⟩
    obtain ⟨ms, hRun, -⟩ := hEvery [] _ rfl
    exact hOrder ms t hRun fun p _ => hDone p
  · intro hNone ms s hRun
    by_contra hNot
    apply hNone
    apply hOrder ms s hRun
    intro p hp
    by_contra hLeft
    exact hNot ⟨p, hp, hLeft⟩

theorem lookups_return_iff_two : ∃ t n, (∀ p, (t p).calls = []) ∧
    ∀ ms s, (twoGroups.lookups sampleCalls).machine.run ms
        (twoGroups.lookups sampleCalls).initial = some s →
      ∃ ms', (twoGroups.lookups sampleCalls).machine.run ms' s = some t ∧
        ms.length + ms'.length = n := by
  have hFollows : ∀ a < 3, twoGroups.IsLeader a →
      ((twoGroups.lookups sampleCalls).initial a).names.map twoGroups.leaderOf =
        ([(0, 1)].filterMap (partner a)).map fun b => some (toInt32 b) := by
    decide
  exact (lookups_return_iff sample_needs).1.mp
    ⟨[(0, 1)], by decide, fun a ha => hFollows a ha.lt ha⟩

end Ranks

end Henson.ProcMap
