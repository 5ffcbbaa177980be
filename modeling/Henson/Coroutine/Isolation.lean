import Henson.Coroutine.System

/-!
# Coroutines are threads

On one processor and one memory, the coroutines behave as threads with registers and
stacks of their own.
-/

namespace Henson.Coroutine

open TransitionSystem Threads

variable {Register Puppet : Type} [CallingConvention Register] {b : Backend Register} {im : Image}
  (L : Layout b im Puppet)

/-- What holds between the steps: the contexts in use lead into the stacks of their threads, and a
puppet that has been resumed has somebody to yield to. -/
structure Consistent (s : System Register Puppet) : Prop where
  base_le : L.base s.running ≤ s.cpu.sp
  le_top : s.cpu.sp ≤ L.top s.running
  running : ∀ t, s.status t = .running ↔ t = s.running
  frame : ∀ t x, s.status t = .held x → L.base t ≤ s.cpu.mem (L.context x) ∧
    s.cpu.mem (L.context x) + b.numSaved + 1 ≤ L.top t
  unique : ∀ t u x, s.status t = .held x → s.status u = .held x → t = u
  to_ : ∀ t i, s.status t = .held (.to_ i) → t = .puppet i
  from_ : ∀ t i, s.status t = .held (.from_ i) →
    s.status (.puppet i) ≠ .unborn ∧ s.status (.puppet i) ≠ .held (.to_ i)
  resumer : ∀ i, s.status (.puppet i) ≠ .unborn → s.status (.puppet i) ≠ .held (.to_ i) →
    ∃ t, s.status t = .held (.from_ i)

section Views

variable {L} {mem mem' : Nat → Nat} {t : Thread Puppet}

theorem Layout.live_congr {sp : Nat} (h : ∀ a, sp ≤ a → a < L.top t → mem' a = mem a) :
    L.live t sp mem' = L.live t sp mem := by
  funext a
  unfold Layout.live
  split_ifs with hLive
  · exact h a hLive.1 hLive.2
  · rfl

theorem Layout.ownOfContext_congr [DecidableEq Register] {x : Context Puppet}
    (hContext : mem' (L.context x) = mem (L.context x))
    (hStack : ∀ a, L.base t ≤ a → a < L.top t → mem' a = mem a)
    (hBase : L.base t ≤ mem (L.context x))
    (hTop : mem (L.context x) + b.numSaved + 1 ≤ L.top t) :
    L.ownOfContext t x mem' = L.ownOfContext t x mem := by
  have hFrame : b.frame mem' (mem (L.context x)) = b.frame mem (mem (L.context x)) :=
    b.frame_congr fun a hLow hHigh => hStack a (by omega) (by omega)
  have hLive : L.live t (mem (L.context x) + b.numSaved + 1) mem' =
      L.live t (mem (L.context x) + b.numSaved + 1) mem :=
    Layout.live_congr fun a hLow hHigh => hStack a (by omega) hHigh
  rw [Layout.ownOfContext, Layout.ownOfContext, hContext, hFrame, hLive]

theorem Layout.shared_congr [DecidableEq Puppet] (h : ∀ a, L.owner a = .shared → mem' a = mem a) :
    L.shared mem' = L.shared mem := by
  funext a
  unfold Layout.shared
  split_ifs with hShared
  · exact h a hShared
  · rfl

end Views

namespace Consistent

variable {L} {s : System Register Puppet} (h : Consistent L s)
include h

theorem own_running [DecidableEq Register] : L.own s s.running = L.ownOfCpu s.running s.cpu := by
  rw [Layout.own, (h.running s.running).mpr rfl]

theorem ne_running_of_held {t : Thread Puppet} {x : Context Puppet} (hHeld : s.status t = .held x) :
    t ≠ s.running := by
  intro hEq
  rw [(h.running t).mpr hEq] at hHeld
  cases hHeld

theorem own_congr [DecidableEq Register] {mem' : Nat → Nat} {t : Thread Puppet} (hNe : t ≠ s.running)
    (hContext : ∀ x, s.status t = .held x → mem' (L.context x) = s.cpu.mem (L.context x))
    (hStack : ∀ a, L.base t ≤ a → a < L.top t → mem' a = s.cpu.mem a)
    {s' : System Register Puppet} (hMem : s'.cpu.mem = mem')
    (hStatus : s'.status t = s.status t) : L.own s' t = L.own s t := by
  rw [Layout.own, Layout.own, hStatus, hMem]
  cases hHeld : s.status t with
  | unborn => rfl
  | running => exact absurd ((h.running t).mp hHeld) hNe
  | held x =>
    obtain ⟨hBase, hTop⟩ := h.frame t x hHeld
    exact Layout.ownOfContext_congr (hContext x hHeld) hStack hBase hTop

end Consistent

variable [DecidableEq Register] [DecidableEq Puppet]

/-- The step that saves the running thread under `x`, which is free, and resumes `t`, which waits
under `y`. -/
structure HandsOver (s : System Register Puppet) (x y : Context Puppet) (t : Thread Puppet)
    (ret : Nat) (s' : System Register Puppet) : Prop where
  free : ∀ u, s.status u ≠ .held x
  held : s.status t = .held y
  room : L.base s.running + (b.numSaved + 1) ≤ s.cpu.sp
  result : s' = s.switch x t (b.call (L.context x) (L.context y) ret s.cpu)

namespace HandsOver

variable {L} {s s' : System Register Puppet} {x y : Context Puppet} {t : Thread Puppet} {ret : Nat}
  (h : HandsOver L s x y t ret s')
include h

theorem status_resumed : s'.status t = .running := by
  rw [h.result]
  exact Function.update_self _ _ _

theorem status_other {u : Thread Puppet} (hRunning : u ≠ s.running) (hResumed : u ≠ t) :
    s'.status u = s.status u := by
  rw [h.result]
  exact (Function.update_of_ne hResumed _ _).trans (Function.update_of_ne hRunning _ _)

theorem resumed_ne_free : y ≠ x := fun hEq => h.free t (hEq ▸ h.held)

variable (hs : Consistent L s)
include hs

theorem switched : b.Switched (L.context x) (L.context y) ret s.cpu s'.cpu := by
  have hRoom := h.room
  have hTop := hs.le_top
  have hOutside := L.context_outside x s.running
  rw [h.result]
  exact b.call_switched (by omega) (by omega)

theorem untouched {a : Nat} (hNe : a ≠ L.context x)
    (hOutside : a < L.base s.running ∨ s.cpu.sp ≤ a) : s'.cpu.mem a = s.cpu.mem a := by
  have hRoom := h.room
  exact (h.switched hs).untouched a hNe (by omega)

theorem context_untouched {z : Context Puppet} (hNe : z ≠ x) :
    s'.cpu.mem (L.context z) = s.cpu.mem (L.context z) := by
  have hOutside := L.context_outside z s.running
  have hTop := hs.le_top
  exact h.untouched hs (fun hEq => hNe (L.context_injective hEq)) (by omega)

theorem stack_untouched {u : Thread Puppet} (hNe : u ≠ s.running) {a : Nat}
    (hBase : L.base u ≤ a) (hTop : a < L.top u) : s'.cpu.mem a = s.cpu.mem a := by
  have hOutside := L.stack_outside hNe hBase hTop
  have hContext := L.context_outside x u
  have hSp := hs.le_top
  exact h.untouched hs (by omega) (by omega)

theorem status_running : s'.status s.running = .held x := by
  rw [h.result]
  exact (Function.update_of_ne (hs.ne_running_of_held h.held).symm _ _).trans
    (Function.update_self _ _ _)

theorem sp_eq : s'.cpu.sp = s.cpu.mem (L.context y) + b.numSaved + 1 := by
  rw [(h.switched hs).sp, h.context_untouched hs h.resumed_ne_free]

theorem own_left : L.own s' s.running = { L.own s s.running with ip := ret } := by
  have hSwitched := h.switched hs
  have hRoom := h.room
  have hSp : s.cpu.sp - 1 - b.numSaved + b.numSaved + 1 = s.cpu.sp := by omega
  have hLive : L.live s.running s.cpu.sp s'.cpu.mem = L.live s.running s.cpu.sp s.cpu.mem := by
    refine Layout.live_congr fun a hLow hHigh => h.untouched hs ?_ (.inr hLow)
    have hOutside := L.context_outside x s.running
    omega
  rw [Layout.own, h.status_running hs, hs.own_running]
  simp only [Layout.ownOfContext, hSwitched.left, hSwitched.frame, hSp, hLive, Layout.ownOfCpu,
    Backend.kept_map]

theorem own_resumed : L.own s' t = L.own s t := by
  have hNe := hs.ne_running_of_held h.held
  have hContext := h.context_untouched hs h.resumed_ne_free
  obtain ⟨hBase, hTop⟩ := hs.frame t y h.held
  have hOwn : L.ownOfContext t y s'.cpu.mem = L.ownOfContext t y s.cpu.mem :=
    Layout.ownOfContext_congr hContext (fun a hLow hHigh => h.stack_untouched hs hNe hLow hHigh)
      hBase hTop
  have hTaken := (h.switched hs).taken
  rw [Layout.own, Layout.own, h.status_resumed, h.held]
  change L.ownOfCpu t s'.cpu = L.ownOfContext t y s.cpu.mem
  rw [← hOwn, Layout.ownOfContext, Layout.ownOfCpu, hTaken, ← (h.switched hs).sp,
    Backend.kept_map]

theorem own_other {u : Thread Puppet} (hRunning : u ≠ s.running) (hResumed : u ≠ t) :
    L.own s' u = L.own s u := by
  refine hs.own_congr hRunning (fun z hz => h.context_untouched hs ?_)
    (fun a hLow hHigh => h.stack_untouched hs hRunning hLow hHigh) rfl
    (h.status_other hRunning hResumed)
  rintro rfl
  exact h.free u hz

theorem shared_untouched : L.shared s'.cpu.mem = L.shared s.cpu.mem := by
  refine Layout.shared_congr fun a hShared => h.untouched hs ?_ ?_
  · rintro rfl
    rw [(L.context_iff _ x).mpr rfl] at hShared
    cases hShared
  · by_contra hInside
    have hTop := hs.le_top
    have hStack := (L.stack_iff a s.running).mpr (by omega)
    rw [hStack] at hShared
    cases hShared

theorem view_step : Threads.step (L.view s)
    (.switch t x { L.own s s.running with ip := ret }) = some (L.view s') := by
  have hStatus : (L.view s).status t = .held y := h.held
  simp only [Threads.step, hStatus, Option.some.injEq]
  have hOwn : Function.update (L.own s) s.running { L.own s s.running with ip := ret } =
      L.own s' := by
    funext u
    by_cases hRunning : u = s.running
    · rw [hRunning, Function.update_self, h.own_left hs]
    · rw [Function.update_of_ne hRunning]
      by_cases hResumed : u = t
      · rw [hResumed, h.own_resumed hs]
      · exact (h.own_other hs hRunning hResumed).symm
  have hShared := h.shared_untouched hs
  simp only [Layout.view, hOwn, hShared]
  rw [h.result]
  rfl

theorem status_cases (u : Thread Puppet) :
    (u = s.running ∧ s'.status u = .held x) ∨ (u = t ∧ s'.status u = .running) ∨
      (u ≠ s.running ∧ u ≠ t ∧ s'.status u = s.status u) := by
  by_cases hRunning : u = s.running
  · exact .inl ⟨hRunning, hRunning ▸ h.status_running hs⟩
  by_cases hResumed : u = t
  · exact .inr (.inl ⟨hResumed, hResumed ▸ h.status_resumed⟩)
  · exact .inr (.inr ⟨hRunning, hResumed, h.status_other hRunning hResumed⟩)

theorem held_cases {u : Thread Puppet} {z : Context Puppet} (hHeld : s'.status u = .held z) :
    (u = s.running ∧ z = x) ∨ (u ≠ s.running ∧ u ≠ t ∧ s.status u = .held z) := by
  rcases h.status_cases hs u with ⟨hEq, hStatus⟩ | ⟨-, hStatus⟩ | ⟨hRunning, hResumed, hStatus⟩
  · rw [hStatus] at hHeld
    exact .inl ⟨hEq, (Status.held.inj hHeld).symm⟩
  · rw [hStatus] at hHeld
    cases hHeld
  · exact .inr ⟨hRunning, hResumed, hStatus ▸ hHeld⟩

theorem running_iff (u : Thread Puppet) : s'.status u = .running ↔ u = s'.running := by
  have hTarget : s'.running = t := by
    rw [h.result]
    rfl
  rw [hTarget]
  rcases h.status_cases hs u with ⟨rfl, hStatus⟩ | ⟨rfl, hStatus⟩ | ⟨hRunning, hResumed, hStatus⟩
  · rw [hStatus]
    exact iff_of_false nofun (hs.ne_running_of_held h.held).symm
  · exact iff_of_true hStatus rfl
  · rw [hStatus, hs.running]
    exact iff_of_false hRunning hResumed

theorem frame {u : Thread Puppet} {z : Context Puppet} (hHeld : s'.status u = .held z) :
    L.base u ≤ s'.cpu.mem (L.context z) ∧
      s'.cpu.mem (L.context z) + b.numSaved + 1 ≤ L.top u := by
  rcases h.held_cases hs hHeld with ⟨rfl, rfl⟩ | ⟨-, -, hOld⟩
  · rw [(h.switched hs).left]
    have hRoom := h.room
    have hTop := hs.le_top
    omega
  · rw [h.context_untouched hs fun hEq => h.free u (hEq ▸ hOld)]
    exact hs.frame u z hOld

theorem unique {u v : Thread Puppet} {z : Context Puppet} (hu : s'.status u = .held z)
    (hv : s'.status v = .held z) : u = v := by
  rcases h.held_cases hs hu with ⟨rfl, rfl⟩ | ⟨-, -, hu⟩ <;>
    rcases h.held_cases hs hv with ⟨rfl, hEq⟩ | ⟨-, -, hv⟩
  · rfl
  · exact absurd hv (h.free v)
  · exact absurd (hEq ▸ hu) (h.free u)
  · exact hs.unique u v z hu hv

theorem sp_bounds : L.base s'.running ≤ s'.cpu.sp ∧ s'.cpu.sp ≤ L.top s'.running := by
  have hTarget : s'.running = t := by
    rw [h.result]
    rfl
  obtain ⟨hBase, hTop⟩ := hs.frame t y h.held
  rw [hTarget, h.sp_eq hs]
  omega

end HandsOver

section Steps

variable {L} {s s' : System Register Puppet} (hs : Consistent L s)
include hs

theorem HandsOver.of_proceed {i : Puppet} {ret : Nat}
    (hStep : step L s (.proceed i ret) = some s') :
    HandsOver L s (.from_ i) (.to_ i) (.puppet i) ret s' := by
  simp only [step, Option.ite_none_right_eq_some, Option.some.injEq] at hStep
  obtain ⟨⟨hHeld, hRoom⟩, rfl⟩ := hStep
  refine ⟨fun u hu => ?_, hHeld, hRoom, rfl⟩
  exact (hs.from_ u i hu).2 hHeld

theorem HandsOver.of_yield {i : Puppet} {t : Thread Puppet} {ret : Nat}
    (hStep : step L s (.yield i t ret) = some s') :
    s.running = .puppet i ∧ HandsOver L s (.to_ i) (.from_ i) t ret s' := by
  simp only [step, Option.ite_none_right_eq_some, Option.some.injEq] at hStep
  obtain ⟨⟨hRunning, hHeld, hRoom⟩, rfl⟩ := hStep
  refine ⟨hRunning, fun u hu => ?_, hHeld, hRoom, rfl⟩
  have hEq := hs.to_ u i hu
  exact hs.ne_running_of_held hu (hEq.trans hRunning.symm)

theorem Consistent.proceed {i : Puppet} {ret : Nat}
    (hStep : step L s (.proceed i ret) = some s') : Consistent L s' := by
  have h := HandsOver.of_proceed hs hStep
  obtain ⟨hBase, hTop⟩ := h.sp_bounds hs
  have hActive := h.status_resumed
  refine ⟨hBase, hTop, h.running_iff hs, fun _ _ => h.frame hs, fun _ _ _ => h.unique hs,
    ?_, ?_, ?_⟩
  · intro u j hu
    rcases h.held_cases hs hu with ⟨-, hEq⟩ | ⟨-, -, hOld⟩
    · cases hEq
    · exact hs.to_ u j hOld
  · intro u j hu
    rcases h.held_cases hs hu with ⟨-, hEq⟩ | ⟨-, -, hOld⟩
    · obtain rfl := Context.from_.inj hEq
      rw [hActive]
      exact ⟨nofun, nofun⟩
    · obtain ⟨hBorn, hNotTo⟩ := hs.from_ u j hOld
      rcases h.status_cases hs (.puppet j) with ⟨-, hStatus⟩ | ⟨-, hStatus⟩ | ⟨-, -, hStatus⟩ <;>
        rw [hStatus]
      · exact ⟨nofun, nofun⟩
      · exact ⟨nofun, nofun⟩
      · exact ⟨hBorn, hNotTo⟩
  · intro j hBorn hNotTo
    by_cases hEq : j = i
    · exact ⟨s.running, hEq ▸ h.status_running hs⟩
    have hOld : s.status (.puppet j) ≠ .unborn ∧ s.status (.puppet j) ≠ .held (.to_ j) := by
      rcases h.status_cases hs (.puppet j) with ⟨hRunning, -⟩ | ⟨hPuppet, -⟩ | ⟨-, -, hStatus⟩
      · rw [(hs.running _).mpr hRunning]
        exact ⟨nofun, nofun⟩
      · exact absurd (Thread.puppet.inj hPuppet) hEq
      · exact hStatus ▸ ⟨hBorn, hNotTo⟩
    obtain ⟨u, hu⟩ := hs.resumer j hOld.1 hOld.2
    have hNeRunning := hs.ne_running_of_held hu
    have hNeResumed : u ≠ .puppet i := by
      rintro rfl
      rw [h.held] at hu
      cases hu
    exact ⟨u, (h.status_other hNeRunning hNeResumed).trans hu⟩

theorem Consistent.yield {i : Puppet} {t : Thread Puppet} {ret : Nat}
    (hStep : step L s (.yield i t ret) = some s') : Consistent L s' := by
  obtain ⟨hPuppet, h⟩ := HandsOver.of_yield hs hStep
  obtain ⟨hBase, hTop⟩ := h.sp_bounds hs
  refine ⟨hBase, hTop, h.running_iff hs, fun _ _ => h.frame hs, fun _ _ _ => h.unique hs,
    ?_, ?_, ?_⟩
  · intro u j hu
    rcases h.held_cases hs hu with ⟨rfl, hEq⟩ | ⟨-, -, hOld⟩
    · rw [Context.to_.inj hEq, hPuppet]
    · exact hs.to_ u j hOld
  · intro u j hu
    rcases h.held_cases hs hu with ⟨-, hEq⟩ | ⟨-, hResumed, hOld⟩
    · cases hEq
    have hNe : j ≠ i := by
      rintro rfl
      exact hResumed (hs.unique u t _ hOld h.held)
    obtain ⟨hBorn, hNotTo⟩ := hs.from_ u j hOld
    rcases h.status_cases hs (.puppet j) with ⟨hRunning, -⟩ | ⟨-, hStatus⟩ | ⟨-, -, hStatus⟩
    · exact absurd (Thread.puppet.inj (hRunning.trans hPuppet)) hNe
    · rw [hStatus]
      exact ⟨nofun, nofun⟩
    · exact hStatus ▸ ⟨hBorn, hNotTo⟩
  · intro j hBorn hNotTo
    have hNe : j ≠ i := by
      rintro rfl
      exact hNotTo (hPuppet ▸ h.status_running hs)
    have hOld : s.status (.puppet j) ≠ .unborn ∧ s.status (.puppet j) ≠ .held (.to_ j) := by
      rcases h.status_cases hs (.puppet j) with ⟨hRunning, -⟩ | ⟨hEq, -⟩ | ⟨-, -, hStatus⟩
      · exact absurd (Thread.puppet.inj (hRunning.trans hPuppet)) hNe
      · rw [hEq, h.held]
        exact ⟨nofun, nofun⟩
      · exact hStatus ▸ ⟨hBorn, hNotTo⟩
    obtain ⟨u, hu⟩ := hs.resumer j hOld.1 hOld.2
    have hNeResumed : u ≠ t := by
      rintro rfl
      rw [h.held] at hu
      exact hNe (Context.from_.inj (Status.held.inj hu)).symm
    exact ⟨u, (h.status_other (hs.ne_running_of_held hu) hNeResumed).trans hu⟩

omit hs [DecidableEq Register] [DecidableEq Puppet] in
theorem writeAll_of_forall_ne {writes : List (Nat × Nat)} {mem : Nat → Nat} {a : Nat}
    (h : ∀ w ∈ writes, w.1 ≠ a) : writeAll mem writes a = mem a := by
  induction writes generalizing mem with
  | nil => rfl
  | cons w writes ih =>
    refine (ih fun w' hw' => h w' (List.mem_cons_of_mem w hw')).trans ?_
    exact Function.update_of_ne (h w List.mem_cons_self).symm w.2 mem

omit hs in
theorem compute_untouched {sp ip : Nat} {reg : Register → Nat} {writes : List (Nat × Nat)}
    (hStep : step L s (.compute sp ip reg writes) = some s') {a : Nat}
    (hMay : L.mayWrite s.running a = false) : s'.cpu.mem a = s.cpu.mem a := by
  simp only [step, Option.ite_none_right_eq_some, Option.some.injEq] at hStep
  obtain ⟨⟨-, -, hWrites⟩, rfl⟩ := hStep
  refine writeAll_of_forall_ne fun w hw => ?_
  rintro rfl
  rw [hWrites w hw] at hMay
  cases hMay

omit hs [DecidableEq Register] in
theorem Layout.mayWrite_context (t : Thread Puppet) (x : Context Puppet) :
    L.mayWrite t (L.context x) = false := by
  rw [Layout.mayWrite, (L.context_iff _ x).mpr rfl]

omit hs [DecidableEq Register] in
theorem Layout.mayWrite_stack {t u : Thread Puppet} (h : u ≠ t) {a : Nat} (hBase : L.base u ≤ a)
    (hTop : a < L.top u) : L.mayWrite t a = false := by
  rw [Layout.mayWrite, (L.stack_iff a u).mpr ⟨hBase, hTop⟩]
  exact decide_eq_false h

theorem Consistent.compute {sp ip : Nat} {reg : Register → Nat} {writes : List (Nat × Nat)}
    (hStep : step L s (.compute sp ip reg writes) = some s') : Consistent L s' := by
  have hContext := fun x => compute_untouched hStep (Layout.mayWrite_context (L := L) s.running x)
  simp only [step, Option.ite_none_right_eq_some, Option.some.injEq] at hStep
  obtain ⟨⟨hBase, hTop, -⟩, rfl⟩ := hStep
  refine ⟨hBase, hTop, hs.running, fun t x hHeld => ?_, hs.unique, hs.to_, hs.from_, hs.resumer⟩
  rw [hContext x]
  exact hs.frame t x hHeld

theorem Consistent.view_compute {sp ip : Nat} {reg : Register → Nat} {writes : List (Nat × Nat)}
    (hStep : step L s (.compute sp ip reg writes) = some s') :
    Threads.step (L.view s) (L.label s (.compute sp ip reg writes)) = some (L.view s') := by
  have hContext := fun x => compute_untouched hStep (Layout.mayWrite_context (L := L) s.running x)
  have hStack := fun (u : Thread Puppet) (hNe : u ≠ s.running) a hBase hTop =>
    compute_untouched hStep (Layout.mayWrite_stack (L := L) hNe (a := a) hBase hTop)
  have hNew := hs.compute hStep
  simp only [step, Option.ite_none_right_eq_some, Option.some.injEq] at hStep
  obtain ⟨-, rfl⟩ := hStep
  simp only [Threads.step, Layout.label, Layout.view, Option.some.injEq]
  congr 1
  funext u
  by_cases hRunning : u = s.running
  · rw [hRunning, Function.update_self]
    exact hNew.own_running.symm
  · rw [Function.update_of_ne hRunning]
    exact (hs.own_congr hRunning (fun x _ => hContext x)
      (fun a hBase hTop => hStack u hRunning a hBase hTop) rfl rfl).symm

structure Constructs (s : System Register Puppet) (i : Puppet) (func arg ret : Nat)
    (s' : System Register Puppet) : Prop where
  unborn : s.status (.puppet i) = .unborn
  room : L.base s.running + (b.numSaved + 3) ≤ s.cpu.sp
  created : Created b im (L.context (.to_ i)) func arg (L.top (.puppet i)) ret s.cpu s'.cpu
  running : s'.running = s.running
  status : s'.status = Function.update s.status (.puppet i) (.held (.to_ i))

theorem Constructs.of_step {i : Puppet} {func arg ret : Nat}
    (hStep : step L s (.construct i func arg ret) = some s') :
    Constructs (L := L) s i func arg ret s' := by
  simp only [step, Option.ite_none_right_eq_some, Option.map_eq_some_iff] at hStep
  obtain ⟨⟨hUnborn, hFunc, hRoom⟩, cpu, hCpu, rfl⟩ := hStep
  have hNe : .puppet i ≠ s.running := by
    intro hEq
    rw [(hs.running _).mpr hEq] at hUnborn
    cases hUnborn
  have hTop := hs.le_top
  have hNewRoom := L.room (.puppet i)
  have hContext := L.context_outside (.to_ i) s.running
  have hContext' := L.context_outside (.to_ i) (.puppet i)
  have hDisjoint := L.stack_disjoint hNe
  have hSeparate : Separate b im (L.context (.to_ i)) s.cpu.sp (L.top (.puppet i)) := by
    refine ⟨by omega, by omega, L.context_not_static _, ⟨by omega, by omega⟩, ?_, by omega⟩
    intro x hx
    have hStatic := L.static_outside hx s.running
    have hStatic' := L.static_outside hx (.puppet i)
    exact ⟨by omega, by omega⟩
  obtain ⟨c', hc', hCreated⟩ := b.create_spec arg ret hFunc hSeparate
  rw [hCpu] at hc'
  obtain rfl := Option.some.inj hc'
  exact ⟨hUnborn, hRoom, hCreated, rfl, rfl⟩

namespace Constructs

omit [DecidableEq Register]

variable {i : Puppet} {func arg ret : Nat} (h : Constructs (L := L) s i func arg ret s')
include h

theorem ne_running : .puppet i ≠ s.running := by
  intro hEq
  have hUnborn := h.unborn
  rw [(hs.running _).mpr hEq] at hUnborn
  cases hUnborn

omit hs in
theorem untouched {a : Nat} (hNe : a ≠ L.context (.to_ i)) (hStatic : a ∉ im.statics)
    (hOutside : a < L.base s.running ∨ s.cpu.sp ≤ a)
    (hNew : a < L.base (.puppet i) ∨ L.top (.puppet i) ≤ a) : s'.cpu.mem a = s.cpu.mem a := by
  have hRoom := h.room
  have hNewRoom := L.room (.puppet i)
  refine h.created.untouched a ?_ (by omega) (by omega)
  rintro (_ | ⟨_, hMem⟩)
  · exact hNe rfl
  · exact hStatic hMem

theorem context_untouched {x : Context Puppet} (hNe : x ≠ .to_ i) :
    s'.cpu.mem (L.context x) = s.cpu.mem (L.context x) := by
  have hTop := hs.le_top
  have hOutside := L.context_outside x s.running
  exact h.untouched (fun hEq => hNe (L.context_injective hEq)) (L.context_not_static x)
    (by omega) (L.context_outside x _)

theorem stack_untouched {u : Thread Puppet} (hPuppet : u ≠ .puppet i) {a : Nat}
    (hBase : L.base u ≤ a) (hTop : a < L.top u) (hUse : u = s.running → s.cpu.sp ≤ a) :
    s'.cpu.mem a = s.cpu.mem a := by
  have hContext := L.context_outside (.to_ i) u
  have hSp := hs.le_top
  refine h.untouched (by omega) (fun hStatic => ?_) ?_ (L.stack_outside hPuppet hBase hTop)
  · have hOutside := L.static_outside hStatic u
    omega
  · by_cases hRunning : u = s.running
    · exact .inr (hUse hRunning)
    · have hOutside := L.stack_outside hRunning hBase hTop
      omega

omit hs in
theorem status_cases (u : Thread Puppet) :
    (u = .puppet i ∧ s'.status u = .held (.to_ i)) ∨
      (u ≠ .puppet i ∧ s'.status u = s.status u) := by
  rw [h.status]
  by_cases hEq : u = .puppet i
  · exact .inl ⟨hEq, hEq ▸ Function.update_self _ _ _⟩
  · exact .inr ⟨hEq, Function.update_of_ne hEq _ _⟩

omit hs in
theorem own_born [DecidableEq Register] : L.own s' (.puppet i) = L.born i func arg := by
  have hStatus : s'.status (.puppet i) = .held (.to_ i) := by
    rw [h.status]
    exact Function.update_self _ _ _
  have hCreated := h.created
  have hNewRoom := L.room (.puppet i)
  have hSp : L.top (.puppet i) - 4 - b.numSaved + b.numSaved + 1 = L.top (.puppet i) - 3 := by
    omega
  have hStack : L.live (.puppet i) (L.top (.puppet i) - 3) s'.cpu.mem =
      (L.born i func arg).stack := by
    funext a
    simp only [Layout.live, Layout.born]
    split_ifs with hLive hArg hFunc hAbort hArg hFunc hAbort
    · rw [hArg, hCreated.arg]
    · rw [hFunc, hCreated.func]
    · rw [hAbort, hCreated.abort]
    all_goals omega
  rw [Layout.own, hStatus]
  simp only [Layout.ownOfContext, hCreated.context, hCreated.frame, hSp, hStack]
  rfl

theorem own_running [DecidableEq Register] : L.own s' s.running = { L.own s s.running with ip := ret } := by
  have hCreated := h.created
  have hStatus : s'.status s.running = .running := by
    rw [h.status]
    exact (Function.update_of_ne (h.ne_running hs).symm _ _).trans ((hs.running _).mpr rfl)
  have hLive : L.live s.running s.cpu.sp s'.cpu.mem = L.live s.running s.cpu.sp s.cpu.mem := by
    have hBase := hs.base_le
    exact Layout.live_congr fun a hLow hHigh =>
      h.stack_untouched hs (h.ne_running hs).symm (by omega) hHigh fun _ => hLow
  rw [hs.own_running, Layout.own, hStatus]
  have hKept : CallingConvention.calleeSaved.map s'.cpu.reg =
      CallingConvention.calleeSaved.map s.cpu.reg := by
    rw [← b.kept_map, hCreated.reg, b.kept_map]
  simp only [Layout.ownOfCpu, hCreated.sp, hCreated.ip, hKept, hLive]

theorem own_other [DecidableEq Register] {u : Thread Puppet} (hRunning : u ≠ s.running) (hPuppet : u ≠ .puppet i) :
    L.own s' u = L.own s u := by
  refine hs.own_congr hRunning (fun x hx => h.context_untouched hs ?_)
    (fun a hBase hTop => h.stack_untouched hs hPuppet hBase hTop fun hEq => absurd hEq hRunning)
    rfl ?_
  · rintro rfl
    exact hPuppet (hs.to_ u i hx)
  · rw [h.status]
    exact Function.update_of_ne hPuppet _ _

theorem shared_untouched : L.shared s'.cpu.mem = L.shared s.cpu.mem := by
  have hTop := hs.le_top
  refine Layout.shared_congr fun a hShared => ?_
  have hStack (u : Thread Puppet) : a < L.base u ∨ L.top u ≤ a := by
    by_contra hInside
    rw [(L.stack_iff a u).mpr (by omega)] at hShared
    cases hShared
  have hRunning := hStack s.running
  refine h.untouched ?_ (fun hStatic => ?_) (by omega) (hStack _)
  · rintro rfl
    rw [(L.context_iff _ _).mpr rfl] at hShared
    cases hShared
  · rw [(L.static_iff a).mpr hStatic] at hShared
    cases hShared

theorem view_step [DecidableEq Register] : Threads.step (L.view s) (.spawn (.puppet i) (.to_ i)
    { L.own s s.running with ip := ret } (L.born i func arg)) = some (L.view s') := by
  have hUnborn : (L.view s).status (.puppet i) = .unborn := h.unborn
  simp only [Threads.step, hUnborn, Option.some.injEq]
  have hOwn : Function.update (Function.update (L.own s) s.running
      { L.own s s.running with ip := ret }) (.puppet i) (L.born i func arg) = L.own s' := by
    funext u
    by_cases hPuppet : u = .puppet i
    · rw [hPuppet, Function.update_self, h.own_born]
    rw [Function.update_of_ne hPuppet]
    by_cases hRunning : u = s.running
    · rw [hRunning, Function.update_self, h.own_running hs]
    · rw [Function.update_of_ne hRunning, h.own_other hs hRunning hPuppet]
  simp only [Layout.view, hOwn, h.shared_untouched hs, h.running, h.status]

theorem consistent : Consistent L s' := by
  have hNe := h.ne_running hs
  have hUnborn := h.unborn
  have hCases := h.status_cases
  refine ⟨?_, ?_, fun u => ?_, fun u x hu => ?_, fun u v x hu hv => ?_, fun u j hu => ?_,
    fun u j hu => ?_, fun j hBorn hNotTo => ?_⟩
  · rw [h.running, h.created.sp]
    exact hs.base_le
  · rw [h.running, h.created.sp]
    exact hs.le_top
  · rw [h.running]
    rcases hCases u with ⟨rfl, hStatus⟩ | ⟨-, hStatus⟩ <;> rw [hStatus]
    · exact iff_of_false nofun hNe
    · exact hs.running u
  · rcases hCases u with ⟨rfl, hStatus⟩ | ⟨hPuppet, hStatus⟩ <;> rw [hStatus] at hu
    · obtain rfl := Status.held.inj hu
      rw [h.created.context]
      have hRoom := L.room (.puppet i)
      omega
    · rw [h.context_untouched hs]
      · exact hs.frame u x hu
      · rintro rfl
        exact hPuppet (hs.to_ u i hu)
  · rcases hCases u with ⟨rfl, hu'⟩ | ⟨hPuppet, hu'⟩ <;> rw [hu'] at hu <;>
      rcases hCases v with ⟨rfl, hv'⟩ | ⟨hPuppet', hv'⟩ <;> rw [hv'] at hv
    · exact absurd (hs.to_ v i ((Status.held.inj hu) ▸ hv)) hPuppet'
    · exact absurd (hs.to_ u i ((Status.held.inj hv) ▸ hu)) hPuppet
    · exact hs.unique u v x hu hv
  · rcases hCases u with ⟨rfl, hStatus⟩ | ⟨-, hStatus⟩ <;> rw [hStatus] at hu
    · rw [Context.to_.inj (Status.held.inj hu)]
    · exact hs.to_ u j hu
  · rcases hCases u with ⟨rfl, hStatus⟩ | ⟨-, hStatus⟩ <;> rw [hStatus] at hu
    · cases hu
    · obtain ⟨hBorn, hNotTo⟩ := hs.from_ u j hu
      rcases hCases (.puppet j) with ⟨hEq, -⟩ | ⟨-, hStatus⟩
      · rw [hEq] at hBorn
        exact absurd hUnborn hBorn
      · exact hStatus ▸ ⟨hBorn, hNotTo⟩
  · rcases hCases (.puppet j) with ⟨hEq, hStatus⟩ | ⟨-, hStatus⟩
    · rw [Thread.puppet.inj hEq] at hNotTo
      exact absurd (Thread.puppet.inj hEq ▸ hStatus) hNotTo
    · rw [hStatus] at hBorn hNotTo
      obtain ⟨u, hu⟩ := hs.resumer j hBorn hNotTo
      rcases hCases u with ⟨rfl, -⟩ | ⟨-, hStatus'⟩
      · rw [hUnborn] at hu
        cases hu
      · exact ⟨u, hStatus'.trans hu⟩

end Constructs

end Steps

omit [DecidableEq Register] in
theorem consistent_initial (start : Start L) : Consistent L (initial L start) where
  base_le := start.base_le
  le_top := start.le_top
  running t := by
    by_cases h : t = .main <;> simp [initial, h]
  frame t x hu := by
    by_cases h : t = .main <;> simp [initial, h] at hu
  unique t u x ht := by
    by_cases h : t = .main <;> simp [initial, h] at ht
  to_ t i ht := by
    by_cases h : t = .main <;> simp [initial, h] at ht
  from_ t i ht := by
    by_cases h : t = .main <;> simp [initial, h] at ht
  resumer i hBorn := absurd (by simp [initial]) hBorn

variable {L}

theorem Consistent.step {s s' : System Register Puppet} {a : Action Register Puppet}
    (hs : Consistent L s) (hStep : step L s a = some s') : Consistent L s' := by
  cases a with
  | compute => exact hs.compute hStep
  | construct => exact (Constructs.of_step hs hStep).consistent hs
  | proceed => exact hs.proceed hStep
  | yield => exact hs.yield hStep

theorem consistent_of_reachable {start : Start L} {s : System Register Puppet}
    (hReach : (coroutines L start).Reachable s) : Consistent L s :=
  hReach.invariant (consistent_initial L start) fun _ _ _ hs hStep => hs.step hStep

/-- On every run, each step is the step of threads that share nothing but the shared memory. -/
theorem coroutines_refine_threads (start : Start L) :
    (coroutines L start).Refines (Threads.machine (L.view (initial L start))) L.view L.label where
  initial := rfl
  step s a s' hReach hStep := by
    have hs := consistent_of_reachable hReach
    cases a with
    | compute => exact hs.view_compute hStep
    | construct => exact (Constructs.of_step hs hStep).view_step hs
    | proceed => exact (HandsOver.of_proceed hs hStep).view_step hs
    | yield => exact (HandsOver.of_yield hs hStep).2.view_step hs

end Henson.Coroutine
