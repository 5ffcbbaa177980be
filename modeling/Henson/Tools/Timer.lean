import Henson.Data.Guards

/-!
# The timer tool

A timer is two values in the name map: the time of its last start and the time it has
counted. Both names are made from the name of the timer, with prefixes of which one is a
prefix of the other. So the timers are stopwatches that do not know of each other, and of
nothing else in the map, as long as none is called like another one with `start_` before it.
-/

namespace Henson.Tools

open TransitionSystem

def prefixed (front : String) (name : StdString) : StdString :=
  ⟨front.toList.map (fun c => UInt8.ofNat c.toNat) ++ name.bytes⟩

def timer (name : StdString) : StdString := prefixed "timer_" name

def timerStart (name : StdString) : StdString := prefixed "timer_start_" name

abbrev ClockTime := UInt64

def saveTime (nm : NameMap) (name : StdString) (t : ClockTime) : NameMap := nm.add name (.sizeT t)

/-- Undefined for an unknown name and for an empty queue; a value of another type throws. -/
def loadTime (nm : NameMap) (name : StdString) : Option (ClockTime × NameMap) := do
  let (t, nm) ← nm.hensonLoadSizeT name
  return (← t, nm)

def getHensonTimer (nm : NameMap) (name : StdString) : Option (ClockTime × NameMap) :=
  if !nm.existsName (timer name) then some (0, nm) else loadTime nm (timer name)

inductive TimerComparison where
  | lt | le | gt | ge

def TimerComparison.holds (cmp : TimerComparison) (t₁ t₂ : ClockTime) : Bool :=
  match cmp with
  | lt => t₁ < t₂
  | le => t₁ ≤ t₂
  | gt => t₁ > t₂
  | ge => t₁ ≥ t₂

/-- A command of the tool, with the clock it reads. With `--root`, a rank other than 0 receives the
result of a comparison. -/
inductive TimerCall where
  | start (name : StdString) (now : ClockTime)
  | stop (name : StdString) (now : ClockTime) (increment : Bool)
  | reset (name : StdString)
  | compare (cmp : TimerComparison) (name₁ name₂ : StdString) (received : Option Int32)
  | report (name : StdString) (now : ClockTime)

/-- What `main` returns, and the time that is printed. -/
structure TimerOutput where
  result : Int32 := 0
  elapsed : Option ClockTime := none
  deriving DecidableEq

def comparisonOutput (cmp : TimerComparison) (received : Option Int32) (t₁ t₂ : ClockTime) :
    TimerOutput :=
  { result := received.getD (if cmp.holds t₁ t₂ then 0 else 1) }

def timerMain (nm : NameMap) : TimerCall → Option (TimerOutput × NameMap)
  | .start name now => some ({}, saveTime nm (timerStart name) now)
  | .stop name now increment => do
    let (start, nm) ← loadTime nm (timerStart name)
    let elapsed := now - start
    if !increment then return ({}, saveTime nm (timer name) elapsed)
    else
      let (cur, nm) ← getHensonTimer nm name
      return ({}, saveTime nm (timer name) (cur + elapsed))
  | .reset name => some ({}, saveTime nm (timer name) 0)
  | .compare cmp name₁ name₂ received => do
    let (t₁, nm) ← getHensonTimer nm name₁
    let (t₂, nm) ← getHensonTimer nm name₂
    return (comparisonOutput cmp received t₁ t₂, nm)
  | .report name now => do
    let (start, nm) ← loadTime nm (timerStart name)
    return ({ elapsed := some (now - start) }, nm)

/-- The puppets of a rank, one after another: a run of the tool, or an operation of another one. -/
inductive TimerAction where
  | call (c : TimerCall)
  | other (op : NameMapOp)

structure TimerState where
  nameMap : NameMap := {}
  outputs : List TimerOutput := []

def TimerState.step (s : TimerState) : TimerAction → Option TimerState
  | .call c => (timerMain s.nameMap c).map fun (o, nm) => ⟨nm, s.outputs ++ [o]⟩
  | .other op =>
    (Session.step { nameMap := s.nameMap } op).map fun t => { s with nameMap := t.nameMap }

def timerMachine : Machine TimerState TimerAction where
  initial := {}
  step := TimerState.step

structure Stopwatch where
  started : Option ClockTime := none
  time : ClockTime := 0

/-- What the tool is for: one stopwatch for each name. -/
structure Stopwatches where
  watch : StdString → Stopwatch := fun _ => {}
  outputs : List TimerOutput := []

namespace Stopwatches

def set (s : Stopwatches) (name : StdString) (w : Stopwatch) : Stopwatches :=
  { s with watch := Function.update s.watch name w }

def call (s : Stopwatches) : TimerCall → Option (TimerOutput × Stopwatches)
  | .start name now => some ({}, s.set name { s.watch name with started := some now })
  | .stop name now increment => (s.watch name).started.map fun start =>
    ({}, s.set name { s.watch name with
      time := (if increment then (s.watch name).time else 0) + (now - start) })
  | .reset name => some ({}, s.set name { s.watch name with time := 0 })
  | .compare cmp name₁ name₂ received =>
    some (comparisonOutput cmp received (s.watch name₁).time (s.watch name₂).time, s)
  | .report name now => (s.watch name).started.map fun start =>
    ({ elapsed := some (now - start) }, s)

def step (s : Stopwatches) : TimerAction → Option Stopwatches
  | .call c => (s.call c).map fun (o, t) => { t with outputs := s.outputs ++ [o] }
  | .other _ => some s

end Stopwatches

def stopwatchMachine : Machine Stopwatches TimerAction where
  initial := {}
  step := Stopwatches.step

def TimerCall.names : TimerCall → List StdString
  | start name _ | stop name _ _ | reset name | report name _ => [name]
  | compare _ name₁ name₂ _ => [name₁, name₂]

/-- The tool is called for these timers only, and nobody else touches what they hold. -/
def TimerAction.Within (names : StdString → Prop) : TimerAction → Prop
  | call c => ∀ name ∈ c.names, names name
  | other op => ∀ name, names name → op.name ≠ timer name ∧ op.name ≠ timerStart name

theorem prefixed_injective {front : String} {name name' : StdString}
    (h : prefixed front name = prefixed front name') : name = name' := by
  obtain ⟨bytes⟩ := name
  obtain ⟨bytes'⟩ := name'
  exact congrArg StdString.mk (List.append_cancel_left (congrArg StdString.bytes h))

theorem timer_injective {name name' : StdString} (h : timer name = timer name') : name = name' :=
  prefixed_injective h

theorem timerStart_injective {name name' : StdString} (h : timerStart name = timerStart name') :
    name = name' :=
  prefixed_injective h

theorem prefixed_ne (name : StdString) : prefixed "start_" name ≠ name := by
  intro hEq
  have hLength : 6 + name.bytes.length = name.bytes.length := by
    conv_rhs => rw [← hEq]
    simp [prefixed]
    omega
  omega

theorem timerStart_eq (name : StdString) : timerStart name = timer (prefixed "start_" name) := by
  rw [timerStart, timer, prefixed, prefixed, prefixed, ← List.append_assoc, ← List.map_append]
  rfl

theorem timerStart_eq_timer_iff {name name' : StdString} :
    timerStart name = timer name' ↔ name' = prefixed "start_" name := by
  rw [timerStart_eq]
  constructor
  · exact fun h => (prefixed_injective h).symm
  · exact fun h => h ▸ rfl

/-- No timer is called like another one with `start_` before it. -/
def Apart (names : StdString → Prop) : Prop :=
  ∀ name, names name → ¬ names (prefixed "start_" name)

theorem Apart.ne {names : StdString → Prop} (h : Apart names) {name name' : StdString}
    (hName : names name) (hName' : names name') : timerStart name ≠ timer name' := by
  intro hEq
  rw [timerStart_eq_timer_iff] at hEq
  exact h name hName (hEq ▸ hName')

/-- The map holds the stopwatches of these names, under plain names. -/
structure Shows (names : StdString → Prop) (nm : NameMap) (watch : StdString → Stopwatch) :
    Prop where
  started : ∀ name, names name →
    nm.cell (timerStart name) = ⟨(watch name).started.map .sizeT, none⟩
  time : ∀ name, names name → nm.cell (timer name) = ⟨some (.sizeT (watch name).time), none⟩ ∨
    nm.cell (timer name) = ⟨none, none⟩ ∧ (watch name).time = 0

theorem loadTime_of_cell {nm : NameMap} {name : StdString} {t : Option ClockTime}
    (h : nm.cell name = ⟨t.map .sizeT, none⟩) : loadTime nm name = t.map fun t => (t, nm) := by
  obtain ⟨hValue, hQueue⟩ := Cell.mk.inj h
  rw [loadTime, NameMap.hensonLoadSizeT, Loader.load_of_plain _ hQueue, hValue]
  cases t <;> rfl

theorem getHensonTimer_of_value {nm : NameMap} {name : StdString} {t : ClockTime}
    (h : nm.cell (timer name) = ⟨some (.sizeT t), none⟩) :
    getHensonTimer nm name = some (t, nm) := by
  obtain ⟨hValue, -⟩ := Cell.mk.inj h
  have hExists : nm.existsName (timer name) = true := by simp [NameMap.existsName, hValue]
  rw [getHensonTimer, hExists]
  exact loadTime_of_cell (t := some t) h

theorem getHensonTimer_of_none {nm : NameMap} {name : StdString}
    (h : nm.cell (timer name) = ⟨none, none⟩) : getHensonTimer nm name = some (0, nm) := by
  obtain ⟨hValue, hQueue⟩ := Cell.mk.inj h
  have hExists : nm.existsName (timer name) = false := by
    simp [NameMap.existsName, hValue, hQueue]
  rw [getHensonTimer, hExists]
  rfl

theorem cell_saveTime {nm : NameMap} {name n : StdString} (t : ClockTime) {v : Option Value}
    (h : nm.cell name = ⟨v, none⟩) :
    (saveTime nm name t).cell n = if name = n then ⟨some (.sizeT t), none⟩ else nm.cell n := by
  rw [saveTime, NameMap.cell_add]
  split
  · rename_i hName
    rw [← hName, h]
    rfl
  · rfl

namespace Shows

variable {names : StdString → Prop} {nm : NameMap} {watch : StdString → Stopwatch}
  {name : StdString}

theorem timer_plain (h : Shows names nm watch) (hName : names name) :
    ∃ v, nm.cell (timer name) = ⟨v, none⟩ := by
  rcases h.time name hName with hCell | ⟨hCell, -⟩
  · exact ⟨_, hCell⟩
  · exact ⟨_, hCell⟩

theorem getHensonTimer_eq (h : Shows names nm watch) (hName : names name) :
    getHensonTimer nm name = some ((watch name).time, nm) := by
  rcases h.time name hName with hCell | ⟨hCell, hZero⟩
  · exact getHensonTimer_of_value hCell
  · rw [getHensonTimer_of_none hCell, hZero]

theorem loadTime_eq (h : Shows names nm watch) (hName : names name) :
    loadTime nm (timerStart name) = (watch name).started.map fun t => (t, nm) :=
  loadTime_of_cell (h.started name hName)

theorem saveStart (h : Shows names nm watch) (hApart : Apart names) (hName : names name)
    (now : ClockTime) :
    Shows names (saveTime nm (timerStart name) now)
      (Function.update watch name { watch name with started := some now }) := by
  refine ⟨fun n hn => ?_, fun n hn => ?_⟩
  · rw [cell_saveTime now (h.started name hName)]
    by_cases hSame : n = name
    · subst hSame
      rw [if_pos rfl, Function.update_self]
      rfl
    · rw [if_neg fun hEq => hSame (timerStart_injective hEq).symm, Function.update_of_ne hSame]
      exact h.started n hn
  · rw [cell_saveTime now (h.started name hName), if_neg (hApart.ne hName hn)]
    by_cases hSame : n = name
    · subst hSame
      simpa using h.time n hn
    · simpa [hSame] using h.time n hn

theorem saveTimer (h : Shows names nm watch) (hApart : Apart names) (hName : names name)
    (t : ClockTime) :
    Shows names (saveTime nm (timer name) t)
      (Function.update watch name { watch name with time := t }) := by
  obtain ⟨v, hPlain⟩ := h.timer_plain hName
  refine ⟨fun n hn => ?_, fun n hn => ?_⟩
  · rw [cell_saveTime t hPlain, if_neg (hApart.ne hn hName).symm, h.started n hn]
    by_cases hSame : n = name
    · subst hSame
      simp
    · simp [hSame]
  · rw [cell_saveTime t hPlain]
    by_cases hSame : n = name
    · subst hSame
      simp
    · rw [if_neg fun hEq => hSame (timer_injective hEq).symm, Function.update_of_ne hSame]
      exact h.time n hn

theorem other (h : Shows names nm watch) {nm' : NameMap} (hTimer : ∀ name, names name →
    nm'.cell (timer name) = nm.cell (timer name) ∧
      nm'.cell (timerStart name) = nm.cell (timerStart name)) : Shows names nm' watch where
  started name hName := (hTimer name hName).2.trans (h.started name hName)
  time name hName := by
    rw [(hTimer name hName).1]
    exact h.time name hName

theorem call {s : Stopwatches} (h : Shows names nm s.watch) (hApart : Apart names) {c : TimerCall}
    (hNames : ∀ name ∈ c.names, names name) :
    Option.Rel (fun p q => p.1 = q.1 ∧ Shows names p.2 q.2.watch) (timerMain nm c) (s.call c) := by
  cases c with
  | start name now =>
    have hName := hNames name List.mem_cons_self
    exact .some ⟨rfl, h.saveStart hApart hName now⟩
  | stop name now increment =>
    have hName := hNames name List.mem_cons_self
    rw [timerMain, Stopwatches.call, h.loadTime_eq hName]
    cases (s.watch name).started with
    | none => exact .none
    | some start =>
      cases increment with
      | false =>
        refine .some ⟨rfl, ?_⟩
        simpa [Stopwatches.set] using h.saveTimer hApart hName (now - start)
      | true =>
        simp only [Option.map_some, bind, Option.bind_some, h.getHensonTimer_eq hName]
        exact .some ⟨rfl, h.saveTimer hApart hName ((s.watch name).time + (now - start))⟩
  | reset name =>
    have hName := hNames name List.mem_cons_self
    exact .some ⟨rfl, h.saveTimer hApart hName 0⟩
  | compare cmp name₁ name₂ received =>
    have hFirst := hNames name₁ List.mem_cons_self
    have hSecond := hNames name₂ (List.mem_cons_of_mem _ List.mem_cons_self)
    simp only [timerMain, h.getHensonTimer_eq hFirst, h.getHensonTimer_eq hSecond, bind,
      Option.bind_some]
    exact .some ⟨rfl, h⟩
  | report name now =>
    have hName := hNames name List.mem_cons_self
    rw [timerMain, Stopwatches.call, h.loadTime_eq hName]
    cases (s.watch name).started with
    | none => exact .none
    | some start => exact .some ⟨rfl, h⟩

theorem step {s s' : TimerState} {t : Stopwatches} {a : TimerAction}
    (h : Shows names s.nameMap t.watch) (hOutputs : s.outputs = t.outputs) (hApart : Apart names)
    (hWithin : a.Within names) (hStep : s.step a = some s') :
    ∃ t', t.step a = some t' ∧ Shows names s'.nameMap t'.watch ∧ s'.outputs = t'.outputs := by
  cases a with
  | call c =>
    obtain ⟨⟨o, nm⟩, hMain, rfl⟩ := Option.map_eq_some_iff.mp hStep
    have hRel := h.call hApart hWithin
    rw [hMain] at hRel
    cases hCall : t.call c with
    | none => rw [hCall] at hRel; cases hRel
    | some q =>
      rw [hCall] at hRel
      cases hRel with
      | some hBoth =>
        obtain ⟨rfl, hShows⟩ := hBoth
        refine ⟨{ q.2 with outputs := t.outputs ++ [q.1] }, ?_, hShows, by rw [hOutputs]⟩
        rw [Stopwatches.step, hCall]
        rfl
  | other op =>
    obtain ⟨u, hOp, rfl⟩ := Option.map_eq_some_iff.mp hStep
    obtain ⟨-, -, -, hOther, -⟩ := Session.step_cell hOp
    refine ⟨t, rfl, h.other fun name hName => ⟨?_, ?_⟩, hOutputs⟩
    · exact hOther _ (hWithin name hName).1
    · exact hOther _ (hWithin name hName).2

theorem run {as : List TimerAction} {s s' : TimerState} {t : Stopwatches}
    (h : Shows names s.nameMap t.watch) (hOutputs : s.outputs = t.outputs) (hApart : Apart names)
    (hWithin : ∀ a ∈ as, a.Within names) (hRun : timerMachine.run as s = some s') :
    ∃ t', stopwatchMachine.run as t = some t' ∧ Shows names s'.nameMap t'.watch ∧
      s'.outputs = t'.outputs := by
  induction as generalizing s t with
  | nil =>
    obtain rfl := Option.some.inj hRun
    exact ⟨t, rfl, h, hOutputs⟩
  | cons a as ih =>
    obtain ⟨m, hStep, hRest⟩ := Option.bind_eq_some_iff.mp hRun
    obtain ⟨u, hu, hShows, hSame⟩ :=
      h.step hOutputs hApart (hWithin a List.mem_cons_self) hStep
    obtain ⟨t', ht', hEnd⟩ := ih hShows hSame (fun b hb => hWithin b (List.mem_cons_of_mem a hb)) hRest
    exact ⟨t', (Machine.run_cons_of_step (M := stopwatchMachine) hu as).trans ht', hEnd⟩

end Shows

/-- The puppets of a rank see stopwatches: what the tool returns and prints in a run is what it
would with them, and the next call returns the same or, for a timer that was never started, is as
undefined. -/
def KeepsTime (names : StdString → Prop) : Prop :=
  ∀ as s, (∀ a ∈ as, TimerAction.Within names a) → timerMachine.run as {} = some s →
    ∃ t, stopwatchMachine.run as {} = some t ∧ s.outputs = t.outputs ∧
      ∀ c : TimerCall, (∀ name ∈ c.names, names name) →
        (timerMain s.nameMap c).map Prod.fst = (t.call c).map Prod.fst

theorem shows_new (names : StdString → Prop) : Shows names {} fun _ => {} where
  started name _ := by simp [NameMap.cell]
  time name _ := .inr (by simp [NameMap.cell])

theorem map_fst_of_rel {α β γ : Type} {R : β → γ → Prop} {x : Option (α × β)} {y : Option (α × γ)}
    (h : Option.Rel (fun p q => p.1 = q.1 ∧ R p.2 q.2) x y) : x.map Prod.fst = y.map Prod.fst := by
  cases h with
  | none => rfl
  | some h => exact congrArg some h.1

/-- After the start of a timer, the one that is called like it with `start_` before has counted,
up to the time of the start. -/
theorem started_elsewhere (name : StdString) :
    (timerMain (saveTime {} (timerStart name) 1)
      (.compare .gt (prefixed "start_" name) name none)).map Prod.fst = some { result := 0 } := by
  have hEmpty : ∀ n, NameMap.cell {} n = ⟨none, none⟩ := fun n => by simp [NameMap.cell]
  have hStart : (saveTime {} (timerStart name) 1).cell (timer (prefixed "start_" name)) =
      ⟨some (.sizeT 1), none⟩ := by
    rw [cell_saveTime 1 (hEmpty _), if_pos (timerStart_eq name)]
  have hPlain : (saveTime {} (timerStart name) 1).cell (timer name) = ⟨none, none⟩ := by
    rw [cell_saveTime 1 (hEmpty _), if_neg, hEmpty]
    rw [timerStart_eq_timer_iff]
    exact (prefixed_ne name).symm
  simp only [timerMain, getHensonTimer_of_value hStart, getHensonTimer_of_none hPlain, bind,
    Option.bind_some]
  rfl

/-- The start of a timer is the time of the one that is called like it with `start_` before, so
these two are no stopwatches; any others are. -/
theorem timers_keep_time_iff (names : StdString → Prop) : KeepsTime names ↔ Apart names := by
  constructor
  · intro hKeeps name hName hOther
    have hRun : timerMachine.run [.call (.start name 1)] {} =
        some ⟨saveTime {} (timerStart name) 1, [{}]⟩ := rfl
    have hWithin : ∀ a ∈ [TimerAction.call (.start name 1)], a.Within names := by
      simpa [TimerAction.Within, TimerCall.names] using hName
    obtain ⟨t, ht, -, hNext⟩ := hKeeps _ _ hWithin hRun
    obtain rfl := Option.some.inj ht
    have hCall := hNext (.compare .gt (prefixed "start_" name) name none)
      (by simp [TimerCall.names, hName, hOther])
    rw [started_elsewhere] at hCall
    exact absurd (congrArg TimerOutput.result (Option.some.inj hCall)) (by
      simp [comparisonOutput, Stopwatches.set, TimerComparison.holds, prefixed_ne])
  · intro hApart as s hWithin hRun
    obtain ⟨t, ht, hShows, hOutputs⟩ := (shows_new names).run (t := {}) rfl hApart hWithin hRun
    exact ⟨t, ht, hOutputs, fun c hc =>
      map_fst_of_rel (R := fun nm u => Shows names nm u.watch) (hShows.call hApart hc)⟩

end Henson.Tools
