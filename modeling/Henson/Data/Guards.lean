import Henson.Data.NameMap

/-!
# Guards around `get`

`exists` answers over values and queues together, while `get` and `queue_empty` each
need more than that: the one a value or a queue with a front, the other a queue.
A typed load looks at the alternative only after `get` has returned, when the
front of a queue is already gone.
-/

namespace Henson

open TransitionSystem

namespace NameMap

def existsName (nm : NameMap) (name : StdString) : Bool :=
  nm.values[name]?.isSome || nm.queues[name]?.isSome

/-- Undefined for a name that is no queue. -/
def queueEmpty (nm : NameMap) (name : StdString) : Option Bool :=
  nm.queues[name]?.map List.isEmpty

def clear (_ : NameMap) : NameMap := { values := ∅, queues := ∅ }

theorem queueEmpty_isSome (nm : NameMap) (n : StdString) :
    (nm.queueEmpty n).isSome ↔ ∃ q, nm.queues[n]? = some q := by
  rw [queueEmpty, Option.isSome_map, Option.isSome_iff_exists]

theorem get_isSome_of_plain {nm : NameMap} {n : StdString} (h : nm.queues[n]? = none) :
    (nm.get n).isSome ↔ nm.existsName n = true := by
  simp [get, existsName, h]

end NameMap

inductive NameMapCall where
  | op (op : NameMapOp)
  | clear

/-- The events are those since the last `clear`. -/
def Session.call (s : Session) : NameMapCall → Option Session
  | .op op => s.step op
  | .clear => some { nameMap := s.nameMap.clear, events := [] }

def clearableMachine : Machine Session NameMapCall where
  initial := {}
  step := Session.call

theorem Accounts.initial (n : StdString) : Accounts n (NameMap.cell {} n) [] := by
  have hCell : NameMap.cell {} n = {} := by simp [NameMap.cell]
  exact hCell ▸ Accounts.empty n

theorem Session.call_accounts {s s' : Session} {c : NameMapCall}
    (h : ∀ n, Accounts n (s.nameMap.cell n) s.events) (hCall : s.call c = some s') (n : StdString) :
    Accounts n (s'.nameMap.cell n) s'.events := by
  cases c with
  | op op => exact Session.step_accounts h hCall n
  | clear =>
    obtain rfl := Option.some.inj hCall
    exact Accounts.initial n

theorem accounts_of_clearable {s : Session} (h : clearableMachine.Reachable s) (n : StdString) :
    Accounts n (s.nameMap.cell n) s.events := by
  apply h.invariant (I := fun s => ∀ n, Accounts n (s.nameMap.cell n) s.events)
  · exact Accounts.initial
  · intro s c s' hInv hCall
    exact Session.call_accounts hInv hCall

/-- What `exists` leaves open. A name that exists has `queue_empty` if it was made a queue since
the last `clear`, and `get` unless it was and all that was added to the queue has been taken;
for a queue that is what `queue_empty` tells. -/
theorem exists_guards {s : Session} (h : clearableMachine.Reachable s) {n : StdString}
    (hExists : s.nameMap.existsName n = true) :
    ((s.nameMap.queueEmpty n).isSome ↔ .created n ∈ s.events) ∧
    ((s.nameMap.get n).isSome ↔ (.created n ∈ s.events →
      (gotFrom n (sinceCreated n s.events)).length <
        (addedTo n (sinceCreated n s.events)).length)) ∧
    (.created n ∈ s.events →
      ((s.nameMap.get n).isSome ↔ s.nameMap.queueEmpty n = some false)) := by
  have hAccounts := accounts_of_clearable h n
  refine ⟨?_, ?_, ?_⟩
  · rw [NameMap.queueEmpty_isSome]
    exact hAccounts.queue_iff
  · cases hQueue : s.nameMap.queues[n]? with
    | none =>
      have hNot : .created n ∉ s.events := by
        rw [← hAccounts.queue_iff, hQueue]
        simp
      rw [NameMap.get_isSome_of_plain hQueue]
      exact ⟨fun _ hCreated => absurd hCreated hNot, fun _ => hExists⟩
    | some q =>
      have hCreated := hAccounts.queue_iff.mp ⟨q, hQueue⟩
      rw [NameMap.get_isSome_of_queue hQueue, hAccounts.front_iff hQueue]
      exact ⟨fun hMore _ => hMore, fun hMore => hMore hCreated⟩
  · intro hCreated
    obtain ⟨q, hQueue⟩ := hAccounts.queue_iff.mpr hCreated
    rw [NameMap.get_isSome_of_queue hQueue, NameMap.queueEmpty, hQueue]
    cases q with
    | nil => simp
    | cons v q => simp

def guardCalls : List NameMapCall :=
  [.op (.add ⟨[97]⟩ (.int 1)), .clear, .op (.createQueue ⟨[97]⟩), .op (.add ⟨[97]⟩ (.int 2)),
    .op (.add ⟨[98]⟩ (.int 3)), .op (.get ⟨[97]⟩)]

theorem exists_guards_run :
    ∃ s, clearableMachine.run guardCalls {} = some s ∧
      s.nameMap.existsName ⟨[97]⟩ = true ∧
      ((s.nameMap.get ⟨[97]⟩).isSome ↔ s.nameMap.queueEmpty ⟨[97]⟩ = some false) := by
  have hRun : (clearableMachine.run guardCalls {}).map
      (fun s => (s.events, s.nameMap.existsName ⟨[97]⟩)) =
      some ([.created ⟨[97]⟩, .added ⟨[97]⟩ (.int 2), .added ⟨[98]⟩ (.int 3),
        .got ⟨[97]⟩ (.int 2)], true) := by decide
  obtain ⟨s, hs, hPair⟩ := Option.map_eq_some_iff.mp hRun
  obtain ⟨hEvents, hExists⟩ := Prod.mk.inj hPair
  have hReach := Machine.reachable_of_run (M := clearableMachine) guardCalls .initial hs
  exact ⟨s, hs, hExists, (exists_guards hReach hExists).2.2 (by rw [hEvents]; decide)⟩

theorem exists_is_no_guard :
    ∃ s, clearableMachine.Reachable s ∧
      (s.nameMap.existsName ⟨[97]⟩ = true ∧ s.nameMap.get ⟨[97]⟩ = none) ∧
      s.nameMap.existsName ⟨[98]⟩ = true ∧ s.nameMap.queueEmpty ⟨[98]⟩ = none := by
  have hRun : (clearableMachine.run guardCalls {}).map
      (fun s => (s.nameMap.existsName ⟨[97]⟩, (s.nameMap.get ⟨[97]⟩).isNone,
        s.nameMap.existsName ⟨[98]⟩, s.nameMap.queueEmpty ⟨[98]⟩)) =
      some (true, true, true, none) := by decide
  obtain ⟨s, hs, hAll⟩ := Option.map_eq_some_iff.mp hRun
  simp only [Prod.mk.injEq, Option.isNone_iff_eq_none] at hAll
  obtain ⟨hQueue, hGet, hPlain, hEmpty⟩ := hAll
  have hReach := Machine.reachable_of_run (M := clearableMachine) guardCalls .initial hs
  exact ⟨s, hReach, ⟨hQueue, hGet⟩, hPlain, hEmpty⟩

inductive Loader where
  | array | pointer | sizeT | int | float | double

namespace Loader

/-- What a loader writes through its out-parameters; an address is a place in the bytes it points
into. -/
def Result : Loader → Type
  | array => (List Byte × UInt64) × UInt64 × UInt64 × UInt64
  | pointer => UInt64
  | sizeT => UInt64
  | int => Int32
  | float => UInt32
  | double => UInt64

/-- `get<T>` of the variant; `none` where it throws. -/
def pick : (l : Loader) → Value → Option l.Result
  | array, .array a => some ((a.memory, a.offset), a.type, a.count, a.stride)
  | pointer, .pointer address => some address
  | sizeT, .sizeT x => some x
  | int, .int x => some x
  | float, .float x => some x
  | double, .double x => some x
  | _, _ => none

/-- What is loaded, `none` if the loader throws, and the name map it leaves. -/
def load (l : Loader) (nm : NameMap) (name : StdString) : Option (Option l.Result × NameMap) := do
  let (v, nm) ← nm.get name
  return (l.pick v, nm)

end Loader

namespace NameMap

abbrev hensonLoadArray (nm : NameMap) (name : StdString) := Loader.array.load nm name

abbrev hensonLoadPointer (nm : NameMap) (name : StdString) := Loader.pointer.load nm name

abbrev hensonLoadSizeT (nm : NameMap) (name : StdString) := Loader.sizeT.load nm name

abbrev hensonLoadInt (nm : NameMap) (name : StdString) := Loader.int.load nm name

abbrev hensonLoadFloat (nm : NameMap) (name : StdString) := Loader.float.load nm name

abbrev hensonLoadDouble (nm : NameMap) (name : StdString) := Loader.double.load nm name

end NameMap

namespace Loader

variable {l : Loader} {nm nm' : NameMap} {name : StdString}

theorem load_of_plain (l : Loader) (h : nm.queues[name]? = none) :
    l.load nm name = nm.values[name]?.map fun v => (l.pick v, nm) := by
  rw [load, NameMap.get, h]
  cases nm.values[name]? with
  | none => rfl
  | some v => rfl

theorem load_of_front (l : Loader) {v : Value} {q : List Value}
    (h : nm.queues[name]? = some (v :: q)) :
    l.load nm name = some (l.pick v, { nm with queues := nm.queues.insert name q }) := by
  rw [load, NameMap.get, h]
  rfl

theorem load_of_empty (l : Loader) (h : nm.queues[name]? = some []) : l.load nm name = none := by
  rw [load, NameMap.get, h]
  rfl

/-- A load that throws leaves the name map as it was, for every load after it. -/
def LosesNothing (l : Loader) (nm : NameMap) (name : StdString) : Prop :=
  ∀ nm', l.load nm name = some (none, nm') →
    nm' = nm ∧ ∀ (r : Loader) (x : r.Result) (nm'' : NameMap),
      r.load nm name = some (some x, nm'') → r.load nm' name = some (some x, nm'')

theorem front_lost {v : Value} {q : List Value} (h : nm.queues[name]? = some (v :: q)) :
    { nm with queues := nm.queues.insert name q } ≠ nm := by
  intro hSame
  have hQueue : (nm.queues.insert name q)[name]? = nm.queues[name]? :=
    congrArg (fun nm : NameMap => nm.queues[name]?) hSame
  rw [Std.ExtTreeMap.getElem?_insert_self, h] at hQueue
  exact List.cons_ne_self v q (Option.some.inj hQueue).symm

end Loader

/-- A typed load that throws loses nothing exactly where the name is no queue or the front of
the queue has the type of the loader: the front is popped before its type is looked at. -/
theorem loses_nothing_iff (l : Loader) (nm : NameMap) (name : StdString) :
    l.LosesNothing nm name ↔
      ∀ v q, nm.queues[name]? = some (v :: q) → (l.pick v).isSome := by
  constructor
  · intro h v q hQueue
    by_contra hThrows
    rw [Option.not_isSome_iff_eq_none] at hThrows
    have hLoad := l.load_of_front hQueue
    rw [hThrows] at hLoad
    exact Loader.front_lost hQueue (h _ hLoad).1
  · intro h nm' hLoad
    have hSame : nm' = nm := by
      cases hQueue : nm.queues[name]? with
      | none =>
        rw [l.load_of_plain hQueue] at hLoad
        obtain ⟨v, -, hPair⟩ := Option.map_eq_some_iff.mp hLoad
        exact (Prod.mk.inj hPair).2.symm
      | some q =>
        cases q with
        | nil =>
          rw [l.load_of_empty hQueue] at hLoad
          cases hLoad
        | cons v q =>
          have hPick := h v q hQueue
          rw [l.load_of_front hQueue] at hLoad
          rw [(Prod.mk.inj (Option.some.inj hLoad)).1] at hPick
          cases hPick
    subst hSame
    exact ⟨rfl, fun _ _ _ hLater => hLater⟩

/-- The queue holds an `int` that is loaded as a `size_t`; after that it is empty. -/
theorem failed_load_pops :
    let name : StdString := ⟨[97]⟩
    let nm := (({} : NameMap).createQueue name).add name (.int 7)
    ¬ Loader.sizeT.LosesNothing nm name ∧
      ((Loader.sizeT.load nm name).map fun p => (p.1.isSome, p.2.queues[name]?)) =
        some (false, some []) ∧
      ((Loader.int.load nm name).map fun p => p.1.isSome) = some true := by
  intro name nm
  have hQueue : nm.queues[name]? = some [.int 7] := by decide
  refine ⟨fun h => ?_, by decide, by decide⟩
  have hLoad := Loader.sizeT.load_of_front hQueue
  exact Loader.front_lost hQueue (h _ hLoad).1

end Henson
