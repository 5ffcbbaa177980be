import Henson.Coroutine.Isolation

/-!
# A transfer is a call that returns

To the thread that makes it, a transfer of control returns with nothing changed, however
long the others have run in between. A puppet starts in the function that it was
constructed with, and yields to the thread that has proceeded to it.
-/

namespace Henson.Coroutine

open TransitionSystem Threads

variable {Register Puppet : Type} [CallingConvention Register] [DecidableEq Puppet]
  {b : Backend Register} {im : Image} {L : Layout b im Puppet}

/-- Where the thread that hands over control goes on. -/
def Action.returnsTo : Action Register Puppet → Option Nat
  | .proceed _ ret => some ret
  | .yield _ _ ret => some ret
  | .compute .. => none
  | .construct .. => none

def Action.Wakes (t : Thread Puppet) : Action Register Puppet → Prop
  | .proceed i _ => .puppet i = t
  | .yield _ u _ => u = t
  | .compute .. => False
  | .construct .. => False

instance (t : Thread Puppet) (a : Action Register Puppet) : Decidable (a.Wakes t) :=
  match a with
  | .proceed i _ => inferInstanceAs (Decidable (.puppet i = t))
  | .yield _ u _ => inferInstanceAs (Decidable (u = t))
  | .compute .. => inferInstanceAs (Decidable False)
  | .construct .. => inferInstanceAs (Decidable False)

theorem wakes_label [DecidableEq Register] {s : System Register Puppet} {t : Thread Puppet}
    {a : Action Register Puppet} (h : ¬ a.Wakes t) : ¬ (L.label s a).Wakes t := by
  cases a <;> exact h

variable [DecidableEq Register] {start : Start L}

theorem Action.handsOver_of_returnsTo {s s' : System Register Puppet} {a : Action Register Puppet}
    {ret : Nat} (hs : Consistent L s) (hStep : step L s a = some s')
    (hReturns : a.returnsTo = some ret) : ∃ x y t, HandsOver L s x y t ret s' := by
  cases a with
  | compute => cases hReturns
  | construct => cases hReturns
  | proceed i ret' =>
    obtain rfl := Option.some.inj hReturns
    exact ⟨_, _, _, .of_proceed hs hStep⟩
  | yield i t ret' =>
    obtain rfl := Option.some.inj hReturns
    exact ⟨_, _, _, (HandsOver.of_yield hs hStep).2⟩

theorem Action.handsOver_of_wakes {s s' : System Register Puppet} {a : Action Register Puppet}
    {t : Thread Puppet} (hs : Consistent L s) (hStep : step L s a = some s')
    (hWakes : a.Wakes t) : ∃ x y ret, HandsOver L s x y t ret s' := by
  cases a with
  | compute => cases hWakes
  | construct => cases hWakes
  | proceed i ret =>
    obtain rfl := hWakes
    exact ⟨_, _, _, .of_proceed hs hStep⟩
  | yield i u ret =>
    obtain rfl := hWakes
    exact ⟨_, _, _, (HandsOver.of_yield hs hStep).2⟩

/-- While nobody wakes it, a thread waits where it is, with all that it has. -/
theorem asleep {s s' : System Register Puppet} {t : Thread Puppet} {x : Context Puppet}
    {as : List (Action Register Puppet)} (hReach : (coroutines L start).Reachable s)
    (hHeld : s.status t = .held x) (hRun : (coroutines L start).run as s = some s')
    (hAsleep : ∀ a ∈ as, ¬ a.Wakes t) : s'.status t = .held x ∧ L.own s' t = L.own s t := by
  obtain ⟨bs, hbs, hNone⟩ := (coroutines_refine_threads start).run
    (P := fun a => ¬ a.Wakes t) (Q := fun a => ¬ a.Wakes t)
    (fun _ _ => wakes_label) hReach hRun hAsleep
  have hNe := ((consistent_of_reachable hReach).ne_running_of_held hHeld).symm
  have hWaits : Waits (L.view s) t x := ⟨hHeld, hNe⟩
  obtain ⟨⟨hHeld', -⟩, hOwn⟩ := hWaits.run hbs hNone
  exact ⟨hHeld', hOwn⟩

def sampleImage : Image where
  initFunc := 64
  initArg := 65
  newCoro := 66
  createCoro := 67
  nodup := by decide
  abort := 1000
  coroInit := 1001
  started := 1002
  created := 1003

def sampleLayout : Layout amd64 sampleImage Bool where
  owner a :=
    if a < 20 then .stack .main
    else if a < 40 then .stack (.puppet false)
    else if a < 60 then .stack (.puppet true)
    else if a = 60 then .context (.from_ false)
    else if a = 61 then .context (.to_ false)
    else if a = 62 then .context (.from_ true)
    else if a = 63 then .context (.to_ true)
    else if a < 68 then .static
    else .shared
  base
    | .main => 0
    | .puppet false => 20
    | .puppet true => 40
  top
    | .main => 20
    | .puppet false => 40
    | .puppet true => 60
  context
    | .from_ false => 60
    | .to_ false => 61
    | .from_ true => 62
    | .to_ true => 63
  stack_iff a t := by
    rcases t with _ | _ | _ <;> grind
  context_iff a x := by
    rcases x with (_ | _) | (_ | _) <;> grind
  static_iff a := by
    have hStatics : a ∈ sampleImage.statics ↔ 64 ≤ a ∧ a < 68 := by
      simp only [Image.statics, sampleImage, List.mem_cons, List.not_mem_nil, or_false]
      omega
    grind
  room t := by
    rcases t with _ | _ | _ <;> decide

def sampleStart : Start sampleLayout where
  cpu := { sp := 15, ip := 0, reg := fun _ => 5, mem := id }
  base_le := Nat.zero_le _
  le_top := Nat.le_add_right 15 5

/-- A puppet is constructed and resumed, computes, constructs another, and yields; then the other
is resumed. -/
def sampleActions : List (Action Amd64 Bool) :=
  [.construct false 7 8 100, .proceed false 101, .compute 36 0 (fun _ => 9) [(36, 3)],
    .construct true 17 18 102, .yield false .main 103, .proceed true 104]

def sampleAfter (n : Nat) : System Amd64 Bool :=
  ((coroutines sampleLayout sampleStart).run (sampleActions.take n)
    (initial sampleLayout sampleStart)).getD (initial sampleLayout sampleStart)

theorem sampleAfter_reachable (n : Nat) :
    (coroutines sampleLayout sampleStart).Reachable (sampleAfter n) := by
  rw [sampleAfter]
  cases hRun : (coroutines sampleLayout sampleStart).run (sampleActions.take n)
    (initial sampleLayout sampleStart) with
  | none => exact .initial
  | some s => exact Machine.reachable_of_run _ .initial hRun

/-- A thread that hands over control and is woken after any run of the others goes on after its
call with its registers and its stack. -/
theorem resumes_as_left {s s₁ s₂ s₃ : System Register Puppet}
    {leave resume : Action Register Puppet} {ret : Nat} {as : List (Action Register Puppet)}
    (hReach : (coroutines L start).Reachable s) (hLeave : step L s leave = some s₁)
    (hReturns : leave.returnsTo = some ret)
    (hRun : (coroutines L start).run as s₁ = some s₂) (hAsleep : ∀ a ∈ as, ¬ a.Wakes s.running)
    (hResume : step L s₂ resume = some s₃) (hWakes : resume.Wakes s.running) :
    s₃.running = s.running ∧ s₃.cpu.sp = s.cpu.sp ∧ s₃.cpu.ip = ret ∧
      (∀ r ∈ CallingConvention.calleeSaved, s₃.cpu.reg r = s.cpu.reg r) ∧
      ∀ a, s.cpu.sp ≤ a → a < L.top s.running → s₃.cpu.mem a = s.cpu.mem a := by
  have hs := consistent_of_reachable hReach
  have hReach₁ := hReach.step leave hLeave
  have hReach₂ := Machine.reachable_of_run as hReach₁ hRun
  obtain ⟨x, y, t, hLeaves⟩ := Action.handsOver_of_returnsTo hs hLeave hReturns
  obtain ⟨-, hOwn⟩ := asleep hReach₁ (hLeaves.status_running hs) hRun hAsleep
  have hs₂ := consistent_of_reachable hReach₂
  obtain ⟨x', y', ret', hWoken⟩ := Action.handsOver_of_wakes hs₂ hResume hWakes
  have hRunning : s₃.running = s.running :=
    ((hWoken.running_iff hs₂ s.running).mp hWoken.status_resumed).symm
  have hOwn₃ : L.ownOfCpu s.running s₃.cpu = { L.ownOfCpu s.running s.cpu with ip := ret } := by
    rw [← hs.own_running, ← hLeaves.own_left hs, ← hOwn, ← hWoken.own_resumed hs₂, Layout.own,
      hWoken.status_resumed]
  have hSp : s₃.cpu.sp = s.cpu.sp := congrArg Own.sp hOwn₃
  refine ⟨hRunning, hSp, congrArg Own.ip hOwn₃, fun r hr => ?_, fun a hLow hHigh => ?_⟩
  · have hSaved : CallingConvention.calleeSaved.map s₃.cpu.reg =
        CallingConvention.calleeSaved.map s.cpu.reg := congrArg Own.saved hOwn₃
    exact List.map_inj_left.mp hSaved r hr
  · have hStack : L.live s.running s₃.cpu.sp s₃.cpu.mem a = L.live s.running s.cpu.sp s.cpu.mem a :=
      congrFun (congrArg Own.stack hOwn₃) a
    rw [hSp] at hStack
    simpa only [Layout.live, hLow, hHigh, and_self, if_true] using hStack

theorem resumes_as_left_main : (sampleAfter 5).cpu.sp = 15 ∧ (sampleAfter 5).cpu.ip = 101 ∧
    (sampleAfter 5).cpu.reg .r12 = 5 ∧ (sampleAfter 5).cpu.mem 17 = 17 := by
  have hLeave : step sampleLayout (sampleAfter 1) (.proceed false 101) =
      some (sampleAfter 2) := rfl
  have hRun : (coroutines sampleLayout sampleStart).run ((sampleActions.drop 2).take 2)
      (sampleAfter 2) = some (sampleAfter 4) := rfl
  have hResume : step sampleLayout (sampleAfter 4) (.yield false .main 103) =
      some (sampleAfter 5) := rfl
  obtain ⟨-, hSp, hIp, hReg, hMem⟩ :=
    resumes_as_left (sampleAfter_reachable 1) hLeave rfl hRun (by decide) hResume rfl
  exact ⟨hSp, hIp, hReg .r12 (by decide), hMem 17 (by decide) (by decide)⟩

/-- The first time that a puppet runs, `coro_init` calls the function that the puppet was
constructed with, whatever has been constructed since. -/
theorem starts_in_its_function {s s₁ s₂ s₃ : System Register Puppet} {i : Puppet}
    {func arg ret ret' : Nat} {as : List (Action Register Puppet)}
    (hReach : (coroutines L start).Reachable s)
    (hConstruct : step L s (.construct i func arg ret) = some s₁)
    (hRun : (coroutines L start).run as s₁ = some s₂) (hAsleep : ∀ a ∈ as, ¬ a.Wakes (.puppet i))
    (hProceed : step L s₂ (.proceed i ret') = some s₃) :
    s₃.cpu.ip = im.started ∧ Backend.calls s₃.cpu = (func, arg) := by
  have hs := consistent_of_reachable hReach
  have hReach₁ : (coroutines L start).Reachable s₁ :=
    hReach.step (Action.construct i func arg ret) hConstruct
  have hReach₂ := Machine.reachable_of_run as hReach₁ hRun
  have hConstructs := Constructs.of_step hs hConstruct
  have hHeld : s₁.status (.puppet i) = .held (.to_ i) := by
    rw [hConstructs.status]
    exact Function.update_self _ _ _
  obtain ⟨-, hOwn⟩ := asleep hReach₁ hHeld hRun hAsleep
  have hs₂ := consistent_of_reachable hReach₂
  have hWoken := HandsOver.of_proceed hs₂ hProceed
  have hOwn₃ : L.ownOfCpu (.puppet i) s₃.cpu = L.born i func arg := by
    rw [← hConstructs.own_born, ← hOwn, ← hWoken.own_resumed hs₂, Layout.own,
      hWoken.status_resumed]
  have hSp : s₃.cpu.sp = L.top (.puppet i) - 3 := congrArg Own.sp hOwn₃
  have hRoom := L.room (.puppet i)
  have hStack (a : Nat) : L.live (.puppet i) s₃.cpu.sp s₃.cpu.mem a = (L.born i func arg).stack a :=
    congrFun (congrArg Own.stack hOwn₃) a
  have hArg := hStack (L.top (.puppet i) - 3)
  have hFunc := hStack (L.top (.puppet i) - 2)
  rw [Layout.live, if_pos (by omega)] at hArg hFunc
  refine ⟨congrArg Own.ip hOwn₃, Prod.ext ?_ ?_⟩
  · have hPlace : s₃.cpu.sp + 1 = L.top (.puppet i) - 2 := by omega
    change s₃.cpu.mem (s₃.cpu.sp + 1) = func
    rw [hPlace, hFunc, Layout.born]
    exact (if_neg (by omega)).trans (if_pos rfl)
  · change s₃.cpu.mem s₃.cpu.sp = arg
    rw [hSp, hArg, Layout.born]
    exact if_pos rfl

theorem starts_in_its_function_other : (sampleAfter 6).cpu.ip = 1002 ∧
    Backend.calls (sampleAfter 6).cpu = (17, 18) := by
  have hConstruct : step sampleLayout (sampleAfter 3) (.construct true 17 18 102) =
      some (sampleAfter 4) := rfl
  have hRun : (coroutines sampleLayout sampleStart).run ((sampleActions.drop 4).take 1)
      (sampleAfter 4) = some (sampleAfter 5) := rfl
  have hProceed : step sampleLayout (sampleAfter 5) (.proceed true 104) =
      some (sampleAfter 6) := rfl
  exact starts_in_its_function (sampleAfter_reachable 3) hConstruct hRun (by decide) hProceed

/-- A puppet yields to the thread that has proceeded to it, and to no other. -/
theorem yields_to_resumer {s s₁ s₂ : System Register Puppet} {i : Puppet} {ret : Nat}
    {as : List (Action Register Puppet)} (hReach : (coroutines L start).Reachable s)
    (hProceed : step L s (.proceed i ret) = some s₁)
    (hRun : (coroutines L start).run as s₁ = some s₂) (hAsleep : ∀ a ∈ as, ¬ a.Wakes s.running)
    (hPuppet : s₂.running = .puppet i)
    (hRoom : L.base (.puppet i) + (b.numSaved + 1) ≤ s₂.cpu.sp) (t : Thread Puppet) (ret' : Nat) :
    (step L s₂ (.yield i t ret')).isSome ↔ t = s.running := by
  have hs := consistent_of_reachable hReach
  have hReach₁ : (coroutines L start).Reachable s₁ := hReach.step (Action.proceed i ret) hProceed
  have hReach₂ := Machine.reachable_of_run as hReach₁ hRun
  have hHands := HandsOver.of_proceed hs hProceed
  obtain ⟨hHeld, -⟩ := asleep hReach₁ (hHands.status_running hs) hRun hAsleep
  have hs₂ := consistent_of_reachable hReach₂
  have hGuard : (step L s₂ (.yield i t ret')).isSome ↔
      s₂.status t = .held (.from_ i) := by
    simp only [Coroutine.step, hPuppet, hRoom, and_true, true_and]
    split_ifs with hStatus
    · exact iff_of_true rfl hStatus
    · exact iff_of_false Bool.false_ne_true hStatus
  rw [hGuard]
  constructor
  · exact fun hStatus => hs₂.unique _ _ _ hStatus hHeld
  · rintro rfl
    exact hHeld

theorem yields_to_resumer_main :
    (step sampleLayout (sampleAfter 4) (.yield false .main 103)).isSome = true := by
  have hProceed : step sampleLayout (sampleAfter 1) (.proceed false 101) =
      some (sampleAfter 2) := rfl
  have hRun : (coroutines sampleLayout sampleStart).run ((sampleActions.drop 2).take 2)
      (sampleAfter 2) = some (sampleAfter 4) := rfl
  have hMain := yields_to_resumer (sampleAfter_reachable 1) hProceed hRun (by decide) rfl
    (by decide) .main 103
  exact hMain.mpr rfl

end Henson.Coroutine
