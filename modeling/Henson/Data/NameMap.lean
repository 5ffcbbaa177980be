import Mathlib.Data.List.TakeWhile
import Henson.Library.ListSplit
import Henson.Library.TransitionSystem
import Henson.Serialization.BoxedValue

/-!
# The name map

Values and queues share one namespace. A name that was made a queue is one for
good, and its old value can no longer be read. What is read under a name depends on
the operations on that name only: the last value added to it, or, from the time
it became a queue, the values added in their order.
-/

namespace Henson

open TransitionSystem

/-- The variant `Value`. Floating-point values are bit patterns, pointers addresses. -/
inductive Value where
  | int (x : Int32)
  | sizeT (x : UInt64)
  | pointer (address : UInt64)
  | float (x : UInt32)
  | double (x : UInt64)
  | array (a : Array)
  | string (s : StdString)
  deriving DecidableEq

structure NameMap where
  values : Std.ExtTreeMap StdString Value compare := ∅
  queues : Std.ExtTreeMap StdString (List Value) compare := ∅

namespace NameMap

def add (nm : NameMap) (name : StdString) (value : Value) : NameMap :=
  match nm.queues[name]? with
  | some q => { nm with queues := nm.queues.insert name (q ++ [value]) }
  | none => { nm with values := nm.values.insert name value }

/-- The front of an empty queue and the value of an unknown name are undefined. -/
def get (nm : NameMap) (name : StdString) : Option (Value × NameMap) :=
  match nm.queues[name]? with
  | some (v :: q) => some (v, { nm with queues := nm.queues.insert name q })
  | some [] => none
  | none => nm.values[name]?.map fun v => (v, nm)

/-- `emplace`: a queue that is there stays as it is. -/
def createQueue (nm : NameMap) (name : StdString) : NameMap :=
  { nm with queues := nm.queues.insertIfNew name [] }

end NameMap

structure Cell where
  value : Option Value := none
  queue : Option (List Value) := none

namespace Cell

def add (c : Cell) (value : Value) : Cell :=
  match c.queue with
  | some q => { c with queue := some (q ++ [value]) }
  | none => { c with value := some value }

def get (c : Cell) : Option (Value × Cell) :=
  match c.queue with
  | some (v :: q) => some (v, { c with queue := some q })
  | some [] => none
  | none => c.value.map fun v => (v, c)

def createQueue (c : Cell) : Cell := { c with queue := some (c.queue.getD []) }

end Cell

namespace NameMap

def cell (nm : NameMap) (name : StdString) : Cell := ⟨nm.values[name]?, nm.queues[name]?⟩

theorem cell_add (nm : NameMap) (name n : StdString) (v : Value) :
    (nm.add name v).cell n = if name = n then (nm.cell n).add v else nm.cell n := by
  by_cases hName : name = n
  · subst hName
    rw [if_pos rfl]
    cases hQueue : nm.queues[name]? with
    | none => simp [add, cell, Cell.add, hQueue]
    | some q => simp [add, cell, Cell.add, hQueue]
  · rw [if_neg hName]
    cases hQueue : nm.queues[name]? with
    | none => simp [add, cell, hQueue, Std.ExtTreeMap.getElem?_insert, hName]
    | some q => simp [add, cell, hQueue, Std.ExtTreeMap.getElem?_insert, hName]

theorem cell_createQueue (nm : NameMap) (name n : StdString) :
    (nm.createQueue name).cell n = if name = n then (nm.cell n).createQueue else nm.cell n := by
  simp only [cell, createQueue, Cell.createQueue, Std.ExtTreeMap.getElem?_insertIfNew,
    Std.ExtTreeMap.mem_iff_isSome_getElem?, Std.LawfulEqCmp.compare_eq_iff_eq]
  by_cases hName : name = n
  · subst hName
    cases hQueue : nm.queues[name]? with
    | none => simp
    | some q => simp
  · simp [hName]

theorem get_eq_some {nm nm' : NameMap} {name : StdString} {v : Value}
    (h : nm.get name = some (v, nm')) :
    (nm.cell name).get = some (v, nm'.cell name) ∧ ∀ n, name ≠ n → nm'.cell n = nm.cell n := by
  rw [get] at h
  split at h
  · rename_i v' q hQueue
    obtain ⟨rfl, rfl⟩ := Prod.mk.inj (Option.some.inj h)
    refine ⟨by simp [cell, Cell.get, hQueue], fun n hName => ?_⟩
    simp [cell, Std.ExtTreeMap.getElem?_insert, hName]
  · cases h
  · rename_i hQueue
    obtain ⟨v', hValue, hPair⟩ := Option.map_eq_some_iff.mp h
    obtain ⟨rfl, rfl⟩ := Prod.mk.inj hPair
    exact ⟨by simp [cell, Cell.get, hQueue, hValue], fun _ _ => rfl⟩

theorem exists_get {nm : NameMap} {name : StdString} {v : Value} {c : Cell}
    (h : (nm.cell name).get = some (v, c)) : ∃ nm', nm.get name = some (v, nm') := by
  simp only [Cell.get, cell] at h
  rw [get]
  split at h
  · rename_i v' q hQueue
    obtain ⟨rfl, -⟩ := Prod.mk.inj (Option.some.inj h)
    exact ⟨{ nm with queues := nm.queues.insert name q }, rfl⟩
  · cases h
  · rename_i hQueue
    obtain ⟨v', hValue, hPair⟩ := Option.map_eq_some_iff.mp h
    obtain ⟨rfl, -⟩ := Prod.mk.inj hPair
    exact ⟨nm, by rw [hValue, Option.map_some]⟩

end NameMap

inductive NameMapOp where
  | add (name : StdString) (value : Value)
  | createQueue (name : StdString)
  | get (name : StdString)

def NameMapOp.name : NameMapOp → StdString
  | add name _ | createQueue name | get name => name

/-- An operation with what it returned. -/
inductive NameMapEvent where
  | added (name : StdString) (value : Value)
  | created (name : StdString)
  | got (name : StdString) (value : Value)
  deriving DecidableEq

def NameMapEvent.name : NameMapEvent → StdString
  | added name _ | created name | got name _ => name

structure Session where
  nameMap : NameMap := {}
  events : List NameMapEvent := []

def Session.step (s : Session) : NameMapOp → Option Session
  | .add name value => some ⟨s.nameMap.add name value, s.events ++ [.added name value]⟩
  | .createQueue name => some ⟨s.nameMap.createQueue name, s.events ++ [.created name]⟩
  | .get name => (s.nameMap.get name).map fun (v, nm) => ⟨nm, s.events ++ [.got name v]⟩

/-- The sequences in which every `get` is defined. -/
def nameMapMachine : Machine Session NameMapOp where
  initial := {}
  step := Session.step

def addedTo (n : StdString) (es : List NameMapEvent) : List Value :=
  es.filterMap fun
    | .added name v => if name = n then some v else none
    | _ => none

def gotFrom (n : StdString) (es : List NameMapEvent) : List Value :=
  es.filterMap fun
    | .got name v => if name = n then some v else none
    | _ => none

def sinceCreated (n : StdString) (es : List NameMapEvent) : List NameMapEvent :=
  es.dropWhile fun e => e ≠ .created n

section Events

variable {n : StdString} {es : List NameMapEvent} {e : NameMapEvent}

theorem addedTo_concat (n : StdString) (es : List NameMapEvent) (e : NameMapEvent) :
    addedTo n (es ++ [e]) = addedTo n es ++ addedTo n [e] := List.filterMap_append

theorem gotFrom_concat (n : StdString) (es : List NameMapEvent) (e : NameMapEvent) :
    gotFrom n (es ++ [e]) = gotFrom n es ++ gotFrom n [e] := List.filterMap_append

theorem sinceCreated_concat (h : .created n ∈ es) (e : NameMapEvent) :
    sinceCreated n (es ++ [e]) = sinceCreated n es ++ [e] := by
  have hSome : (sinceCreated n es).isEmpty = false := by
    rw [sinceCreated, List.isEmpty_eq_false_iff, ne_eq, List.dropWhile_eq_nil_iff]
    exact fun hAll => of_decide_eq_true (hAll _ h) rfl
  rw [sinceCreated, List.dropWhile_append]
  rw [sinceCreated] at hSome
  rw [hSome]
  rfl

theorem sinceCreated_first (h : .created n ∉ es) :
    sinceCreated n (es ++ [.created n]) = [.created n] := by
  have hNone : es.dropWhile (fun e => e ≠ .created n) = [] := by
    rw [List.dropWhile_eq_nil_iff]
    intro e he
    exact decide_eq_true fun hEq => h (hEq ▸ he)
  rw [sinceCreated, List.dropWhile_append, hNone]
  simp

end Events

/-- The events under a name account for its cell. -/
structure Accounts (n : StdString) (c : Cell) (es : List NameMapEvent) : Prop where
  plain : .created n ∉ es → c.queue = none ∧ c.value = (addedTo n es).getLast?
  queued : .created n ∈ es → ∃ q, c.queue = some q ∧
    gotFrom n (sinceCreated n es) ++ q = addedTo n (sinceCreated n es)
  gets : ∀ pre v post, es = pre ++ .got n v :: post → .created n ∉ pre →
    (addedTo n pre).getLast? = some v

namespace Accounts

variable {n : StdString} {c c' : Cell} {es : List NameMapEvent}

theorem empty (n : StdString) : Accounts n {} [] where
  plain _ := ⟨rfl, rfl⟩
  queued h := by cases h
  gets pre v post h := absurd h.symm (by simp)

theorem gets_concat (h : Accounts n c es) {e : NameMapEvent} (he : ∀ v, e ≠ .got n v) :
    ∀ pre v post, es ++ [e] = pre ++ .got n v :: post → .created n ∉ pre →
      (addedTo n pre).getLast? = some v := by
  intro pre v post hSplit hNot
  rcases ListSplit.concat_eq_append_cons.mp hSplit with ⟨-, hLast, -⟩ | ⟨post', -, hOld⟩
  · exact absurd hLast.symm (he v)
  · exact h.gets pre v post' hOld hNot

theorem other (h : Accounts n c es) {e : NameMapEvent} (hName : e.name ≠ n) :
    Accounts n c (es ++ [e]) := by
  have hAdded : addedTo n [e] = [] := by
    cases e <;> simp_all [addedTo, NameMapEvent.name]
  have hGot : gotFrom n [e] = [] := by
    cases e <;> simp_all [gotFrom, NameMapEvent.name]
  have hMem : .created n ∈ es ++ [e] ↔ .created n ∈ es := by
    rw [List.mem_append, List.mem_singleton, or_iff_left]
    rintro rfl
    exact hName rfl
  refine ⟨fun hNot => ?_, fun hIn => ?_, h.gets_concat ?_⟩
  · rw [addedTo_concat, hAdded, List.append_nil]
    exact h.plain (hMem.not.mp hNot)
  · replace hIn := hMem.mp hIn
    rw [sinceCreated_concat hIn, gotFrom_concat, addedTo_concat, hAdded, hGot, List.append_nil,
      List.append_nil]
    exact h.queued hIn
  · rintro v rfl
    exact hName rfl

theorem add (h : Accounts n c es) (v : Value) : Accounts n (c.add v) (es ++ [.added n v]) := by
  have hAdded : addedTo n [.added n v] = [v] := by simp [addedTo]
  have hGot : gotFrom n [.added n v] = [] := rfl
  have hMem : .created n ∈ es ++ [.added n v] ↔ .created n ∈ es := by simp
  refine ⟨fun hNot => ?_, fun hIn => ?_, h.gets_concat (by simp)⟩
  · obtain ⟨hQueue, -⟩ := h.plain (hMem.not.mp hNot)
    rw [addedTo_concat, hAdded, List.getLast?_concat, Cell.add, hQueue]
    exact ⟨rfl, rfl⟩
  · replace hIn := hMem.mp hIn
    obtain ⟨q, hQueue, hAll⟩ := h.queued hIn
    rw [sinceCreated_concat hIn, gotFrom_concat, addedTo_concat, hAdded, hGot, List.append_nil,
      Cell.add, hQueue]
    exact ⟨q ++ [v], rfl, by rw [← List.append_assoc, hAll]⟩

theorem createQueue (h : Accounts n c es) : Accounts n c.createQueue (es ++ [.created n]) := by
  refine ⟨fun hNot => absurd (by simp) hNot, fun _ => ?_, h.gets_concat (by simp)⟩
  by_cases hIn : .created n ∈ es
  · obtain ⟨q, hQueue, hAll⟩ := h.queued hIn
    rw [sinceCreated_concat hIn, gotFrom_concat, addedTo_concat, Cell.createQueue, hQueue]
    exact ⟨q, rfl, by simpa [gotFrom, addedTo] using hAll⟩
  · rw [sinceCreated_first hIn, Cell.createQueue, (h.plain hIn).1]
    exact ⟨[], rfl, rfl⟩

theorem get (h : Accounts n c es) {v : Value} (hGet : c.get = some (v, c')) :
    Accounts n c' (es ++ [.got n v]) := by
  have hAdded : addedTo n [.got n v] = [] := rfl
  have hGot : gotFrom n [.got n v] = [v] := by simp [gotFrom]
  have hMem : .created n ∈ es ++ [.got n v] ↔ .created n ∈ es := by simp
  refine ⟨fun hNot => ?_, fun hIn => ?_, fun pre w post hSplit hNot => ?_⟩
  · obtain ⟨hQueue, hValue⟩ := h.plain (hMem.not.mp hNot)
    simp only [Cell.get, hQueue] at hGet
    obtain ⟨w, -, hPair⟩ := Option.map_eq_some_iff.mp hGet
    obtain ⟨rfl, rfl⟩ := Prod.mk.inj hPair
    rw [addedTo_concat, hAdded, List.append_nil]
    exact ⟨hQueue, hValue⟩
  · replace hIn := hMem.mp hIn
    obtain ⟨q, hQueue, hAll⟩ := h.queued hIn
    cases q with
    | nil => simp [Cell.get, hQueue] at hGet
    | cons w q =>
      simp only [Cell.get, hQueue, Option.some.injEq, Prod.mk.injEq] at hGet
      obtain ⟨rfl, rfl⟩ := hGet
      rw [sinceCreated_concat hIn, gotFrom_concat, addedTo_concat, hAdded, hGot, List.append_nil]
      exact ⟨q, rfl, by rw [← hAll, List.append_assoc]; rfl⟩
  · rcases ListSplit.concat_eq_append_cons.mp hSplit with ⟨rfl, hLast, -⟩ | ⟨post', -, hOld⟩
    · obtain ⟨-, rfl⟩ := NameMapEvent.got.inj hLast
      obtain ⟨hQueue, hValue⟩ := h.plain hNot
      simp only [Cell.get, hQueue] at hGet
      obtain ⟨w, hStored, hPair⟩ := Option.map_eq_some_iff.mp hGet
      obtain ⟨rfl, -⟩ := Prod.mk.inj hPair
      rw [← hValue, hStored]
    · exact h.gets pre w post' hOld hNot

end Accounts

theorem Session.step_cell {s s' : Session} {op : NameMapOp} (h : s.step op = some s') :
    ∃ e : NameMapEvent, e.name = op.name ∧ s'.events = s.events ++ [e] ∧
      (∀ n, op.name ≠ n → s'.nameMap.cell n = s.nameMap.cell n) ∧
      ∀ t : Session, t.nameMap.cell op.name = s.nameMap.cell op.name →
        ∃ t', t.step op = some t' ∧ t'.events = t.events ++ [e] ∧
          t'.nameMap.cell op.name = s'.nameMap.cell op.name := by
  cases op with
  | add name v =>
    obtain rfl := Option.some.inj h
    refine ⟨.added name v, rfl, rfl, fun n hName => ?_, fun t hCell => ⟨_, rfl, rfl, ?_⟩⟩
    · exact (NameMap.cell_add s.nameMap name n v).trans (if_neg hName)
    · dsimp only [NameMapOp.name] at hCell ⊢
      rw [NameMap.cell_add, NameMap.cell_add, hCell]
  | createQueue name =>
    obtain rfl := Option.some.inj h
    refine ⟨.created name, rfl, rfl, fun n hName => ?_, fun t hCell => ⟨_, rfl, rfl, ?_⟩⟩
    · exact (NameMap.cell_createQueue s.nameMap name n).trans (if_neg hName)
    · dsimp only [NameMapOp.name] at hCell ⊢
      rw [NameMap.cell_createQueue, NameMap.cell_createQueue, hCell]
  | get name =>
    obtain ⟨⟨v, nm⟩, hGet, rfl⟩ := Option.map_eq_some_iff.mp h
    obtain ⟨hHere, hOther⟩ := NameMap.get_eq_some hGet
    refine ⟨.got name v, rfl, rfl, hOther, fun t hCell => ?_⟩
    dsimp only [NameMapOp.name] at hCell ⊢
    obtain ⟨nm', hGet'⟩ := NameMap.exists_get (hCell ▸ hHere)
    have hCell' := (NameMap.get_eq_some hGet').1
    rw [hCell, hHere] at hCell'
    obtain ⟨-, hSame⟩ := Prod.mk.inj (Option.some.inj hCell')
    exact ⟨⟨nm', t.events ++ [.got name v]⟩, by rw [step, hGet', Option.map_some], rfl, hSame.symm⟩

theorem Session.step_accounts {s s' : Session} {op : NameMapOp}
    (h : ∀ n, Accounts n (s.nameMap.cell n) s.events) (hStep : s.step op = some s') (n : StdString) :
    Accounts n (s'.nameMap.cell n) s'.events := by
  by_cases hName : op.name = n
  · subst hName
    cases op with
    | add name v =>
      obtain rfl := Option.some.inj hStep
      dsimp only [NameMapOp.name]
      rw [NameMap.cell_add, if_pos rfl]
      exact (h name).add v
    | createQueue name =>
      obtain rfl := Option.some.inj hStep
      dsimp only [NameMapOp.name]
      rw [NameMap.cell_createQueue, if_pos rfl]
      exact (h name).createQueue
    | get name =>
      obtain ⟨⟨v, nm⟩, hGet, rfl⟩ := Option.map_eq_some_iff.mp hStep
      exact (h name).get (NameMap.get_eq_some hGet).1
  · obtain ⟨e, heName, heEvents, hOther, -⟩ := Session.step_cell hStep
    rw [hOther n hName, heEvents]
    exact (h n).other (heName ▸ hName)

theorem accounts_of_reachable {s : Session} (h : nameMapMachine.Reachable s) (n : StdString) :
    Accounts n (s.nameMap.cell n) s.events := by
  refine h.invariant (I := fun s => ∀ n, Accounts n (s.nameMap.cell n) s.events) ?_ ?_ n
  · intro n
    have hCell : NameMap.cell {} n = {} := by simp [NameMap.cell]
    exact hCell ▸ Accounts.empty n
  · exact fun _ _ _ hInv hStep => Session.step_accounts hInv hStep

theorem NameMap.get_isSome_of_queue {nm : NameMap} {n : StdString} {q : List Value}
    (h : nm.queues[n]? = some q) : (nm.get n).isSome ↔ q ≠ [] := by
  cases q with
  | nil => simp [get, h]
  | cons v q => simp [get, h]

namespace Accounts

variable {nm : NameMap} {n : StdString} {es : List NameMapEvent}

theorem queue_iff (h : Accounts n (nm.cell n) es) :
    (∃ q, nm.queues[n]? = some q) ↔ .created n ∈ es := by
  constructor
  · rintro ⟨q, hQueue⟩
    by_contra hNot
    obtain ⟨hNone, -⟩ := h.plain hNot
    have hSome : (nm.cell n).queue = some q := hQueue
    rw [hNone] at hSome
    cases hSome
  · intro hCreated
    obtain ⟨q, hQueue, -⟩ := h.queued hCreated
    exact ⟨q, hQueue⟩

theorem front_iff (h : Accounts n (nm.cell n) es) {q : List Value}
    (hQueue : nm.queues[n]? = some q) :
    q ≠ [] ↔ (gotFrom n (sinceCreated n es)).length < (addedTo n (sinceCreated n es)).length := by
  obtain ⟨q', hQueue', hAll⟩ := h.queued (h.queue_iff.mp ⟨q, hQueue⟩)
  have hSame : q' = q := Option.some.inj (hQueue'.symm.trans hQueue)
  subst hSame
  rw [← hAll, List.length_append, ← List.length_pos_iff]
  omega

/-- `get` is defined on a queue with a front, and under another name once a value was added. -/
theorem get_isSome (h : Accounts n (nm.cell n) es) :
    (.created n ∈ es → ((nm.get n).isSome ↔
      (gotFrom n (sinceCreated n es)).length < (addedTo n (sinceCreated n es)).length)) ∧
    (.created n ∉ es → ((nm.get n).isSome ↔ addedTo n es ≠ [])) := by
  constructor
  · intro hCreated
    obtain ⟨q, hQueue⟩ := h.queue_iff.mpr hCreated
    rw [NameMap.get_isSome_of_queue hQueue, h.front_iff hQueue]
  · intro hPlain
    obtain ⟨hNone, hValue⟩ := h.plain hPlain
    have hQueue : nm.queues[n]? = none := hNone
    have hLast : nm.values[n]? = (addedTo n es).getLast? := hValue
    simp [NameMap.get, hQueue, hLast]

end Accounts

theorem NameMap.createQueue_of_queue {nm : NameMap} {n : StdString} {q : List Value}
    (h : nm.queues[n]? = some q) : nm.createQueue n = nm := by
  have hMem : n ∈ nm.queues := by
    rw [Std.ExtTreeMap.mem_iff_isSome_getElem?, h]
    rfl
  have hSame : nm.queues.insertIfNew n [] = nm.queues := by
    apply Std.ExtTreeMap.ext_getElem?
    intro m
    rw [Std.ExtTreeMap.getElem?_insertIfNew, if_neg (fun hNew => hNew.2 hMem)]
  rw [createQueue, hSame]

/-- The operations on one name do the same without the operations on the others. -/
theorem run_filter (n : StdString) (ops : List NameMapOp) {s s' t : Session}
    (hCell : t.nameMap.cell n = s.nameMap.cell n) (h : nameMapMachine.run ops s = some s') :
    ∃ t' es, nameMapMachine.run (ops.filter (·.name = n)) t = some t' ∧
      s'.events = s.events ++ es ∧ t'.events = t.events ++ es.filter (·.name = n) := by
  induction ops generalizing s t with
  | nil =>
    obtain rfl := Option.some.inj h
    exact ⟨t, [], rfl, by simp, by simp⟩
  | cons op ops ih =>
    obtain ⟨r, hStep, hRest⟩ := Option.bind_eq_some_iff.mp h
    obtain ⟨e, heName, heEvents, hOther, hLocal⟩ := Session.step_cell hStep
    by_cases hName : op.name = n
    · subst hName
      obtain ⟨u, hu, huEvents, huCell⟩ := hLocal t hCell
      obtain ⟨t', es, hRun, hEvents, hFiltered⟩ := ih huCell hRest
      refine ⟨t', e :: es, ?_, by rw [hEvents, heEvents, List.append_assoc]; rfl, ?_⟩
      · rw [List.filter_cons_of_pos (by simp)]
        exact (Machine.run_cons_of_step hu _).trans hRun
      · rw [hFiltered, huEvents, List.filter_cons_of_pos (by simp [heName]), List.append_assoc]
        rfl
    · obtain ⟨t', es, hRun, hEvents, hFiltered⟩ := ih (hCell.trans (hOther n hName).symm) hRest
      refine ⟨t', e :: es, ?_, by rw [hEvents, heEvents, List.append_assoc]; rfl, ?_⟩
      · rw [List.filter_cons_of_neg (by simpa using hName)]
        exact hRun
      · rw [hFiltered, List.filter_cons_of_neg (by simpa [heName] using hName)]

/-- For every sequence of operations in which each `get` is defined: under a name that is no
queue `get` returns the last value added; from a queue it returns, in order, first of the
values added since its creation, and the rest is there; a queue is created once; the operations
on one name return what they return without the others; and the next `get` is defined exactly on
a queue with a value left or on an added name that is no queue. -/
theorem name_map_stores_values_and_queues {ops : List NameMapOp} {s : Session}
    (h : nameMapMachine.run ops {} = some s) :
    (∀ n pre v post, s.events = pre ++ .got n v :: post → .created n ∉ pre →
      (addedTo n pre).getLast? = some v) ∧
    (∀ n, .created n ∈ s.events → ∃ rest, s.nameMap.queues[n]? = some rest ∧
      gotFrom n (sinceCreated n s.events) ++ rest = addedTo n (sinceCreated n s.events)) ∧
    (∀ n, .created n ∈ s.events → s.nameMap.createQueue n = s.nameMap) ∧
    (∀ n, ∃ s', nameMapMachine.run (ops.filter (·.name = n)) {} = some s' ∧
      s'.events = s.events.filter (·.name = n)) ∧
    ∀ n, (.created n ∈ s.events → ((s.nameMap.get n).isSome ↔
        (gotFrom n (sinceCreated n s.events)).length <
          (addedTo n (sinceCreated n s.events)).length)) ∧
      (.created n ∉ s.events → ((s.nameMap.get n).isSome ↔ addedTo n s.events ≠ [])) := by
  have hAccounts := accounts_of_reachable (Machine.reachable_of_run ops .initial h)
  refine ⟨fun n => (hAccounts n).gets, fun n => (hAccounts n).queued, fun n hCreated => ?_, ?_,
    fun n => (hAccounts n).get_isSome⟩
  · obtain ⟨q, hQueue, -⟩ := (hAccounts n).queued hCreated
    exact NameMap.createQueue_of_queue hQueue
  · intro n
    obtain ⟨s', es, hRun, hEvents, hFiltered⟩ := run_filter n ops (s := {}) (t := {}) rfl h
    rw [List.nil_append] at hEvents hFiltered
    exact ⟨s', hRun, hEvents ▸ hFiltered⟩

theorem name_map_stores_values_and_queues_run :
    ∃ s : Session, s.events.getLast? = some (.got ⟨[97]⟩ (.int 3)) ∧
      (addedTo ⟨[97]⟩ (sinceCreated ⟨[97]⟩ s.events) = [.int 3, .int 4]) ∧
      ∃ rest, s.nameMap.queues[(⟨[97]⟩ : StdString)]? = some rest ∧
        gotFrom ⟨[97]⟩ (sinceCreated ⟨[97]⟩ s.events) ++ rest =
          addedTo ⟨[97]⟩ (sinceCreated ⟨[97]⟩ s.events) := by
  let a : StdString := ⟨[97]⟩
  let b : StdString := ⟨[98]⟩
  let ops : List NameMapOp :=
    [.add a (.int 1), .get a, .createQueue a, .add a (.int 3), .add b (.string a), .createQueue a,
      .add a (.int 4), .get b, .get a]
  have hRun : (nameMapMachine.run ops {}).map Session.events = some
      [.added a (.int 1), .got a (.int 1), .created a, .added a (.int 3), .added b (.string a),
        .created a, .added a (.int 4), .got b (.string a), .got a (.int 3)] := by decide
  obtain ⟨s, hs, hEvents⟩ := Option.map_eq_some_iff.mp hRun
  refine ⟨s, by rw [hEvents]; rfl, by rw [hEvents]; decide, ?_⟩
  exact (name_map_stores_values_and_queues hs).2.1 a (by rw [hEvents]; decide)

end Henson
