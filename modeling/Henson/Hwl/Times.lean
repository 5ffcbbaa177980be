import Mathlib.Algebra.BigOperators.Group.Finset.Basic
import Mathlib.Algebra.GroupWithZero.Nat
import Henson.Hwl.History

/-!
# The time of a puppet

`proceed` reads the clock before and after it transfers control, and `exec` once more
when it starts `main`, so that a puppet's time is that of its own code. The report
takes these times and that of the initialization from the time since the start, in
unsigned arithmetic. Nothing is counted twice, so what is left over is a time, too.
-/

namespace Henson.Hwl

open TransitionSystem

/-- What the clock shows: at the start, behind the initialization, and in every resumption before
the transfer, where `exec` starts `main`, and after the transfer. -/
structure Clock where
  start : UInt64
  loaded : UInt64
  enter : Nat → UInt64
  mainStart : Nat → UInt64
  leave : Nat → UInt64

structure PuppetTime where
  startTime : UInt64 := 0
  totalTime : UInt64 := 0

/-- `proceed`, of a puppet whose `main` is started, or goes on. -/
def PuppetTime.proceed (clock : Clock) (k : Nat) (starts : Bool) (t : PuppetTime) : PuppetTime :=
  let t := { t with startTime := clock.enter k }
  let t := if starts then { t with startTime := clock.mainStart k } else t
  { t with totalTime := t.totalTime + (clock.leave k - t.startTime) }

def recordTimes (clock : Clock) (c : Config) (_ : Unit) (times : Text → PuppetTime) :
    Text → PuppetTime :=
  match c.sight with
  | some sight =>
    Function.update times sight.name
      ((times sight.name).proceed clock c.executor.log.length
        (!(c.executor.puppets sight.name).running))
  | none => times

/-- The main loop with the times of the puppets. -/
abbrev timedMachine (clock : Clock) (b : Behaviours) (control : ControlFlow) :
    Machine (Config × (Text → PuppetTime)) Unit :=
  (configMachine b control).withHistory (fun _ => {}) (recordTimes clock)

structure Report where
  initialization : UInt64
  puppet : UInt64
  other : UInt64
  total : UInt64
  deriving DecidableEq

/-- The times that `report_times` computes on a rank, for the puppets that are loaded there. -/
def reportTimes (clock : Clock) (puppets : List Text) (times : Text → PuppetTime) (now : UInt64) :
    Report :=
  let initializationTime := clock.loaded - clock.start
  let totalExecutionTime := now - clock.start
  let puppetTime := puppets.foldl (fun t name => t + (times name).totalTime) 0
  { initialization := initializationTime
    puppet := puppetTime
    other := totalExecutionTime - puppetTime - initializationTime
    total := totalExecutionTime }

def Clock.before (clock : Clock) : Nat → UInt64
  | 0 => clock.loaded
  | k + 1 => clock.leave k

/-- The clock does not go back from the start to the end of the `n`-th resumption. -/
structure Clock.Forward (clock : Clock) (n : Nat) : Prop where
  loaded : clock.start ≤ clock.loaded
  resumption : ∀ k < n, clock.before k ≤ clock.enter k ∧ clock.enter k ≤ clock.mainStart k ∧
    clock.mainStart k ≤ clock.leave k

/-- When the puppet's own code went on in a resumption. -/
def Clock.started (clock : Clock) (log : List Resumption) (k : Nat) (name : Text) : UInt64 :=
  if lastOutcome (log.take k) name = some .yields then clock.enter k else clock.mainStart k

def Clock.spent (clock : Clock) (log : List Resumption) (name : Text) : Nat :=
  ∑ k ∈ Finset.range log.length, if (log[k]?).map Resumption.name = some name then
    (clock.leave k).toNat - (clock.started log k name).toNat else 0

theorem Clock.Forward.mono {clock : Clock} {m n : Nat} (h : clock.Forward n) (hLe : m ≤ n) :
    clock.Forward m :=
  ⟨h.loaded, fun k hk => h.resumption k (Nat.lt_of_lt_of_le hk hLe)⟩

theorem Clock.spent_concat (clock : Clock) (log : List Resumption) (r : Resumption) (name : Text) :
    clock.spent (log ++ [r]) name = clock.spent log name + if r.name = name then
      (clock.leave log.length).toNat - (clock.started log log.length name).toNat else 0 := by
  rw [spent, List.length_append, List.length_singleton, Finset.sum_range_succ]
  congr 1
  · refine Finset.sum_congr rfl fun k hk => ?_
    have hLt := Finset.mem_range.mp hk
    rw [List.getElem?_append_left hLt, started, started, List.take_append_of_le_length hLt.le]
  · rw [List.getElem?_concat_length, started, started, List.take_left, List.take_length]
    simp

theorem Config.log_step {b : Behaviours} {control : ControlFlow} {c c' : Config}
    (h : c.step b control = some c') :
    (c.sight = none ∧ c'.executor.log = c.executor.log) ∨
      ∃ sight r, c.sight = some sight ∧ r.name = sight.name ∧
        c'.executor.log = c.executor.log ++ [r] := by
  obtain ⟨-, ⟨call, body, rest, hNext, rfl⟩ | ⟨hNext, rfl⟩ | ⟨name, names, hNext, rfl⟩ |
    ⟨hNext, rfl⟩⟩ := Config.step_cases h
  · have hLog := Executor.log_exec b control (c.executor.listRevisit call).2
      (c.executor.listRevisit call).1
    rw [Executor.log_listRevisit] at hLog
    refine .inr ⟨_, _, by rw [sight, hNext], ?_, hLog⟩
    rfl
  · exact .inl ⟨by rw [sight, hNext], rfl⟩
  · exact .inr ⟨_, _, by rw [sight, hNext], rfl, rfl⟩
  · exact .inl ⟨by rw [sight, hNext], rfl⟩

/-- The times are what the log says, and they all lie between the readings. -/
structure Timed (clock : Clock) (log : List Resumption) (times : Text → PuppetTime) : Prop where
  total : ∀ name, (times name).totalTime.toNat = clock.spent log name
  within : ∀ names : List Text, names.Nodup → (names.map (clock.spent log)).sum +
    clock.loaded.toNat ≤ (clock.before log.length).toNat

theorem Timed.nil (clock : Clock) : Timed clock [] fun _ => {} where
  total _ := rfl
  within names _ := by
    have hNone : clock.spent [] = fun _ => 0 := rfl
    simp [hNone, Clock.before]

theorem sum_update_le {names : List Text} (hNodup : names.Nodup) (f : Text → Nat) (name : Text)
    (x : Nat) :
    (names.map fun n => f n + if name = n then x else 0).sum ≤ (names.map f).sum + x := by
  induction names with
  | nil => exact Nat.zero_le _
  | cons n names ih =>
    obtain ⟨hHead, hTail⟩ := List.nodup_cons.mp hNodup
    rw [List.map_cons, List.sum_cons, List.map_cons, List.sum_cons]
    by_cases hName : name = n
    · have hRest : (names.map fun m => f m + if name = m then x else 0) = names.map f := by
        refine List.map_congr_left fun m hm => ?_
        rw [if_neg, Nat.add_zero]
        rintro rfl
        exact hHead (hName ▸ hm)
      rw [hRest, if_pos hName]
      omega
    · have hRest := ih hTail
      rw [if_neg hName]
      omega

theorem toNat_totalTime_proceed {clock : Clock} {log : List Resumption} {name : Text}
    {t : PuppetTime} {starts : Bool} (hStarts : starts = true ↔ ¬ Suspended log name)
    (hStarted : clock.started log log.length name ≤ clock.leave log.length)
    (hTotal : t.totalTime.toNat ≤ (clock.started log log.length name).toNat) :
    (t.proceed clock log.length starts).totalTime.toNat = t.totalTime.toNat +
      ((clock.leave log.length).toNat - (clock.started log log.length name).toNat) := by
  have hStartTime : (t.proceed clock log.length starts).totalTime =
      t.totalTime + (clock.leave log.length - clock.started log log.length name) := by
    rw [Suspended] at hStarts
    rw [Clock.started, List.take_length]
    cases starts with
    | true => rw [if_neg (hStarts.mp rfl)]; rfl
    | false =>
      have hSuspended : lastOutcome log name = some .yields := by simpa using hStarts
      rw [if_pos hSuspended]
      rfl
  have hBound := (clock.leave log.length).toNat_lt
  have hLe := UInt64.le_iff_toNat_le.mp hStarted
  rw [hStartTime, UInt64.toNat_add, UInt64.toNat_sub_of_le _ _ hStarted, Nat.mod_eq_of_lt (by omega)]

theorem Clock.Forward.started {clock : Clock} {n : Nat} (h : clock.Forward n) {k : Nat}
    (hk : k < n) (log : List Resumption) (name : Text) :
    clock.before k ≤ clock.started log k name ∧ clock.started log k name ≤ clock.leave k := by
  obtain ⟨hEnter, hMain, hLeave⟩ := h.resumption k hk
  rw [Clock.started]
  split
  · exact ⟨hEnter, UInt64.le_trans hMain hLeave⟩
  · exact ⟨UInt64.le_trans hEnter hMain, hLeave⟩

theorem Timed.proceed {clock : Clock} {log : List Resumption} {times : Text → PuppetTime}
    (h : Timed clock log times) (hForward : clock.Forward (log.length + 1)) (r : Resumption)
    {starts : Bool} (hStarts : starts = true ↔ ¬ Suspended log r.name) :
    Timed clock (log ++ [r])
      (Function.update times r.name ((times r.name).proceed clock log.length starts)) := by
  obtain ⟨hBefore, hLeave⟩ := hForward.started (Nat.lt_succ_self _) log r.name
  have hBeforeNat := UInt64.le_iff_toNat_le.mp hBefore
  have hLeaveNat := UInt64.le_iff_toNat_le.mp hLeave
  constructor
  · intro name
    rw [Clock.spent_concat]
    by_cases hName : r.name = name
    · subst hName
      have hOne := h.within [r.name] (List.nodup_singleton _)
      rw [List.map_singleton, List.sum_singleton, ← h.total] at hOne
      rw [Function.update_self, if_pos rfl, ← h.total]
      exact toNat_totalTime_proceed hStarts hLeave (by omega)
    · rw [Function.update_of_ne (Ne.symm hName), if_neg hName, Nat.add_zero, h.total]
  · intro names hNodup
    have hOld := h.within names hNodup
    have hAdded : clock.spent (log ++ [r]) = fun name => clock.spent log name +
        if r.name = name then (clock.leave log.length).toNat -
          (clock.started log log.length r.name).toNat else 0 := by
      funext name
      rw [Clock.spent_concat]
      split
      · rename_i hName
        rw [hName]
      · rfl
    have hSum := sum_update_le hNodup (clock.spent log) r.name
      ((clock.leave log.length).toNat - (clock.started log log.length r.name).toNat)
    rw [hAdded, List.length_append, List.length_singleton, Clock.before]
    omega

theorem timed_of_reachable {clock : Clock} {b : Behaviours} {control : ControlFlow}
    {p : Config × (Text → PuppetTime)} (h : (timedMachine clock b control).Reachable p)
    (hForward : clock.Forward p.1.executor.log.length) : Timed clock p.1.executor.log p.2 := by
  refine h.invariant_of_reachable
    (I := fun p => clock.Forward p.1.executor.log.length → Timed clock p.1.executor.log p.2)
    (fun _ => .nil clock) ?_ hForward
  intro p _ p' hReach hInv hStep hForward
  obtain ⟨hStep, hRecord⟩ := Machine.withHistory_step_eq_some.mp hStep
  rw [← hRecord, recordTimes]
  rcases Config.log_step hStep with ⟨hSight, hLog⟩ | ⟨sight, r, hSight, hName, hLog⟩
  · rw [hSight]
    rw [hLog] at hForward ⊢
    exact hInv hForward
  · rw [hLog, List.length_append, List.length_singleton] at hForward
    have hRunning := (recorded_of_reachable hReach.of_withHistory).running sight.name
    simp only [hSight, hLog, ← hName]
    refine (hInv (hForward.mono (Nat.le_succ _))).proceed hForward r ?_
    rw [hName, ← hRunning]
    simp

theorem toNat_foldl_totalTime (times : Text → PuppetTime) (names : List Text) (t : UInt64)
    (hSum : t.toNat + (names.map fun name => (times name).totalTime.toNat).sum < 2 ^ 64) :
    (names.foldl (fun t name => t + (times name).totalTime) t).toNat =
      t.toNat + (names.map fun name => (times name).totalTime.toNat).sum := by
  induction names generalizing t with
  | nil => rfl
  | cons name names ih =>
    rw [List.map_cons, List.sum_cons] at hSum ⊢
    have hHead : (t + (times name).totalTime).toNat = t.toNat + (times name).totalTime.toNat := by
      rw [UInt64.toNat_add, Nat.mod_eq_of_lt (by omega)]
    rw [List.foldl_cons, ih _ (by omega), hHead]
    omega

theorem toNat_sub_sub {x y z : UInt64} (h : z.toNat + y.toNat ≤ x.toNat) :
    z.toNat + y.toNat + (x - y - z).toNat = x.toNat := by
  have hFirst : (x - y).toNat = x.toNat - y.toNat :=
    UInt64.toNat_sub_of_le _ _ (UInt64.le_iff_toNat_le.mpr (by omega))
  have hSecond : (x - y - z).toNat = (x - y).toNat - z.toNat :=
    UInt64.toNat_sub_of_le _ _ (UInt64.le_iff_toNat_le.mpr (by omega))
  omega

/-- However the puppets yield, return and are resumed, as long as the clock does not go back: the
puppet time of a report is the time that the puppets' own code took, and together with the time of
the initialization and the rest it makes up the time since the start, so the rest never wraps
around. -/
theorem report_accounts {clock : Clock} {b : Behaviours} {control : ControlFlow} {c : Config}
    {times : Text → PuppetTime} {now : UInt64}
    (h : (timedMachine clock b control).Reachable (c, times))
    (hForward : clock.Forward c.executor.log.length)
    (hNow : clock.before c.executor.log.length ≤ now) {puppets : List Text}
    (hNodup : puppets.Nodup) :
    let report := reportTimes clock puppets times now
    report.puppet.toNat = (puppets.map (clock.spent c.executor.log)).sum ∧
      report.initialization.toNat + report.puppet.toNat + report.other.toNat =
        report.total.toNat := by
  have hTimed : Timed clock c.executor.log times := timed_of_reachable h hForward
  have hWithin := hTimed.within puppets hNodup
  have hNowNat := UInt64.le_iff_toNat_le.mp hNow
  have hLoaded := UInt64.le_iff_toNat_le.mp hForward.loaded
  have hBound := now.toNat_lt
  have hPuppet : (reportTimes clock puppets times now).puppet.toNat =
      (puppets.map (clock.spent c.executor.log)).sum := by
    rw [← funext hTimed.total] at hWithin ⊢
    have hSum := toNat_foldl_totalTime times puppets 0 (by rw [UInt64.toNat_zero]; omega)
    rwa [UInt64.toNat_zero, Nat.zero_add] at hSum
  refine ⟨hPuppet, ?_⟩
  have hTotal : (now - clock.start).toNat = now.toNat - clock.start.toNat :=
    UInt64.toNat_sub_of_le _ _ (UInt64.le_iff_toNat_le.mpr (by omega))
  have hInitialization : (clock.loaded - clock.start).toNat =
      clock.loaded.toNat - clock.start.toNat := UInt64.toNat_sub_of_le _ _ hForward.loaded
  have hOther := toNat_sub_sub (x := (reportTimes clock puppets times now).total)
    (y := (reportTimes clock puppets times now).puppet)
    (z := (reportTimes clock puppets times now).initialization) (by
      rw [hPuppet]
      dsimp only [reportTimes]
      omega)
  exact hOther

/-- A puppet is suspended, another one returns, and the first one goes on. -/
theorem report_accounts_run :
    let clock : Clock :=
      ⟨0, 10, fun k => .ofNat (20 + 10 * k), fun k => .ofNat (21 + 10 * k),
        fun k => .ofNat (25 + 10 * k)⟩
    let control : ControlFlow := ⟨['w'], [.mk ['p'] [], .mk ['q'] [], .mk ['p'] []], ['p']⟩
    let b : Behaviours := fun name _ => if name = ['p'] then .yields else .returns 0
    ∃ c times, (timedMachine clock b control).Reachable (c, times) ∧
      reportTimes clock [['p'], ['q']] times 50 = ⟨10, 13, 27, 50⟩ ∧
        ([['p'], ['q']].map (clock.spent c.executor.log)).sum = 13 := by
  intro clock control b
  have hRun : ((timedMachine clock b control).run [(), (), ()]
      ({ remaining := .statements control.commands }, fun _ => {})).map (fun p =>
        (p.1.executor.log.length, reportTimes clock [['p'], ['q']] p.2 50)) =
      some (3, ⟨10, 13, 27, 50⟩) := by decide
  obtain ⟨⟨c, times⟩, hc, hState⟩ := Option.map_eq_some_iff.mp hRun
  obtain ⟨hLength, hReport⟩ := Prod.mk.inj hState
  have hReach := Machine.reachable_of_run [(), (), ()] .initial hc
  have hForward : clock.Forward 3 := ⟨by decide, by decide⟩
  have hNow : clock.before 3 ≤ 50 := by decide
  rw [← hLength] at hForward hNow
  have hNodup : [['p'], ['q']].Nodup := by decide
  have hAccounts := report_accounts hReach hForward hNow hNodup
  dsimp only at hReport hAccounts
  rw [hReport] at hAccounts
  exact ⟨c, times, hReach, hReport, hAccounts.1.symm⟩

end Henson.Hwl
