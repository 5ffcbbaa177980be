import Henson.Scheduler.System
import Henson.Serialization.BoxedRoundTrip

/-!
# The way of a result

A worker boxes the result of a job's function, saves it into a buffer and saves
that buffer into its answer. The controller decodes the answer and queues the
nested buffer, which `pop_chai` loads from. The bytes arrive intact, and so does
the cursor, which the worker left behind the last byte.
-/

namespace Henson

open LittleEndian MemoryBuffer

/-- The runner of `listen_chai`, after the call of the job's function; `none` where saving throws. -/
def runnerResult : BoxedValue → Option MemoryBuffer
  | .bool _ => some {}
  | v => save {} v

/-- The saves of `listen`, for a result that is not empty. -/
def saveAnswer (id : Nat) (name : StdString) (result : MemoryBuffer) (bb : MemoryBuffer) :
    Option MemoryBuffer := do
  let bb ← save bb id
  let bb ← save bb name
  save bb result

/-- The loads of `check_for_complete_jobs`, from a message that `source` sent. -/
def loadAnswer (source : Nat) (bb : MemoryBuffer) : Option (Answer × MemoryBuffer) := do
  let (id, bb) ← load bb 0
  let (name, bb) ← load bb (StdString.mk [])
  let (result, bb) ← load bb ({} : MemoryBuffer)
  return (⟨source, id, name, result⟩, bb)

/-- The answer that reaches the controller when a job's function returned `v`. -/
def arrived (source id : Nat) (name : StdString) (v : BoxedValue) : Option Answer := do
  let result ← runnerResult v
  if result.empty then none
  else
    let sent ← saveAnswer id name result {}
    let (a, _) ← loadAnswer source { buffer := sent.buffer }
    return a

namespace Scheduler

def popMany (s : Scheduler) : Nat → Option Scheduler
  | 0 => some s
  | n + 1 => do
    let (_, s) ← s.pop
    s.popMany n

def popChai (s : Scheduler) : Option (BoxedValue × Scheduler) := do
  let (mb, s) ← s.pop
  let (result, _) ← load mb BoxedValue.undef
  return (result, s)

/-- `pop_chai` with the cursor reset, as `pop_python` and the runner's argument have it. -/
def popReset (s : Scheduler) : Option (BoxedValue × Scheduler) := do
  let (mb, s) ← s.pop
  let (result, _) ← load mb.reset BoxedValue.undef
  return (result, s)

theorem popMany_results {s : Scheduler} {front rest : List MemoryBuffer}
    (h : s.results = front ++ rest) :
    s.popMany front.length = some { s with results := rest } := by
  induction front generalizing s with
  | nil =>
    obtain rfl : s.results = rest := h
    rfl
  | cons mb front ih =>
    have hPop : s.pop = some (mb, { s with results := front ++ rest }) := by
      rw [pop, h]
      rfl
    rw [List.length_cons, popMany, hPop]
    exact ih rfl

end Scheduler

/-- What `pop_chai` returns for the answer of a job that returned `v`, once the results that
were queued before it are popped. -/
def returned (s : Scheduler) (endTime : Time) (source id : Nat) (name : StdString)
    (v : BoxedValue) : Option (BoxedValue × Scheduler) := do
  let a ← arrived source id name v
  let s ← (s.handleAnswer endTime a).popMany s.results.length
  s.popChai

def Survives (s : Scheduler) (endTime : Time) (source id : Nat) (name : StdString)
    (v : BoxedValue) : Prop :=
  ∃ s', returned s endTime source id name v = some (v.contiguous, s')

theorem atEnd_of_load {bb bb' x mb : MemoryBuffer} (h : load bb x = some (mb, bb')) :
    mb.AtEnd := by
  obtain ⟨⟨position, bb₁⟩, -, hRest⟩ := Option.bind_eq_some_iff.mp h
  obtain ⟨⟨buffer, bb₂⟩, hBuffer, hResult⟩ := Option.bind_eq_some_iff.mp hRest
  obtain ⟨rfl, -⟩ := Prod.mk.inj (Option.some.inj hResult)
  simp only [loadBinary, Option.ite_none_right_eq_some, Option.some.injEq, Prod.mk.injEq] at hBuffer
  obtain ⟨hBound, rfl, -⟩ := hBuffer
  simp only [AtEnd, List.length_take, List.length_drop]
  omega

theorem atEnd_of_arrived {source id : Nat} {name : StdString} {v : BoxedValue} {a : Answer}
    (h : arrived source id name v = some a) : a.result.AtEnd := by
  obtain ⟨result, -, hRest⟩ := Option.bind_eq_some_iff.mp h
  split at hRest
  · cases hRest
  · obtain ⟨sent, -, hReceive⟩ := Option.bind_eq_some_iff.mp hRest
    obtain ⟨⟨a', bb⟩, hAnswer, hSame⟩ := Option.bind_eq_some_iff.mp hReceive
    obtain rfl := Option.some.inj hSame
    obtain ⟨⟨id', bb₁⟩, -, hAnswer⟩ := Option.bind_eq_some_iff.mp hAnswer
    obtain ⟨⟨name', bb₂⟩, -, hAnswer⟩ := Option.bind_eq_some_iff.mp hAnswer
    obtain ⟨⟨mb, bb₃⟩, hLoad, hAnswer⟩ := Option.bind_eq_some_iff.mp hAnswer
    obtain ⟨rfl, -⟩ := Prod.mk.inj (Option.some.inj hAnswer)
    exact atEnd_of_load hLoad

theorem load_boxed_atEnd {mb : MemoryBuffer} (h : mb.AtEnd) (x : BoxedValue) :
    load mb x = none := by
  have hTag : mb.loadBinary 4 = none := by
    rw [AtEnd] at h
    exact loadBinary_eq_none (by omega)
  change loadBoxed (mb.buffer.length + 1) mb = none
  simp [loadBoxed, Serialization.load, hTag]

namespace Scheduler

theorem popChai_atEnd {s : Scheduler} {mb : MemoryBuffer} {rest : List MemoryBuffer}
    (hFront : s.results = mb :: rest) (hEnd : mb.AtEnd) : s.popChai = none := by
  simp [popChai, pop, hFront, load_boxed_atEnd hEnd]

end Scheduler

theorem runnerResult_eq {v : BoxedValue} {bytes : List Byte} (h : v.encode = some bytes) :
    runnerResult v = some (written bytes) := by
  have hSave : save (written []) v = some (written bytes) := by
    change saveBoxed (written []) v = _
    rw [saveBoxed_written, h]
    rfl
  cases v with
  | bool b => cases h
  | _ => exact hSave

def answerBytes (id : Nat) (name : StdString) (result : MemoryBuffer) : List Byte :=
  toBytes 8 id ++ ((toBytes 8 name.bytes.length ++ name.bytes) ++
    (toBytes 8 result.position ++ result.nested.buffer))

theorem Appends.answer (id : Nat) (name : StdString) {result : MemoryBuffer}
    (hResult : result.position ≤ result.buffer.length) :
    Appends (saveAnswer id name result) (answerBytes id name result) :=
  (Appends.sizeT id).bind ((Appends.stdString name).bind (Appends.memoryBuffer hResult))

theorem Reads.answer (source : Nat) {id : Nat} {name : StdString} {result : MemoryBuffer}
    (hResult : result.position ≤ result.buffer.length) (hId : id < 256 ^ 8)
    (hName : name.bytes.length < 256 ^ 8) (hPosition : result.position < 256 ^ 8) :
    Reads (loadAnswer source) (answerBytes id name result)
      ⟨source, id, name, result.nested⟩ := by
  apply (Reads.sizeT id 0 hId).bind
  refine (Reads.stdString name ⟨[]⟩ hName).bind ?_
  exact (Reads.memoryBuffer hResult hPosition {}).map fun mb => Answer.mk source id name mb

theorem loadAnswer_saveAnswer (source : Nat) {id : Nat} {name : StdString} {result : MemoryBuffer}
    (hResult : result.position ≤ result.buffer.length) (hId : id < 256 ^ 8)
    (hName : name.bytes.length < 256 ^ 8) (hPosition : result.position < 256 ^ 8) :
    ∃ sent rest, saveAnswer id name result {} = some sent ∧
      loadAnswer source { buffer := sent.buffer } =
        some (⟨source, id, name, result.nested⟩, rest) := by
  have hReceive := Reads.answer source hResult hId hName hPosition [] []
  rw [List.nil_append, List.append_nil] at hReceive
  exact ⟨_, _, Appends.answer id name hResult [], hReceive⟩

theorem loadAnswer_of_mem_answerOf {runner : Runner} {m : JobMessage} {rank : Nat} {a : Answer}
    (ha : a ∈ System.answerOf runner m rank)
    (hResult : (runner m rank).position ≤ (runner m rank).buffer.length)
    (hId : m.job.id < 256 ^ 8) (hName : m.job.name.bytes.length < 256 ^ 8)
    (hPosition : (runner m rank).position < 256 ^ 8) :
    ∃ sent rest, saveAnswer m.job.id m.job.name (runner m rank) {} = some sent ∧
      loadAnswer rank { buffer := sent.buffer } = some (a, rest) := by
  rw [System.answerOf, List.mem_ite_nil_left, List.mem_singleton] at ha
  rw [ha.2]
  exact loadAnswer_saveAnswer rank hResult hId hName hPosition

theorem arrived_eq (source id : Nat) (name : StdString) {v : BoxedValue} {bytes : List Byte}
    (h : v.encode = some bytes) (hId : id < 256 ^ 8) (hName : name.bytes.length < 256 ^ 8)
    (hBytes : bytes.length < 256 ^ 8) :
    arrived source id name v = some ⟨source, id, name, written bytes⟩ := by
  have hEmpty : (written bytes).empty = false := by
    have hTag := tag_le_of_encode h
    rw [MemoryBuffer.empty, List.isEmpty_eq_false_iff, ← List.length_pos_iff]
    exact Nat.lt_of_lt_of_le (by decide) hTag
  obtain ⟨sent, rest, hSend, hLoad⟩ :=
    loadAnswer_saveAnswer source (atEnd_written bytes).le hId hName hBytes
  rw [nested_of_atEnd (atEnd_written bytes)] at hLoad
  simp [arrived, runnerResult_eq h, hEmpty, hSend, hLoad]

/-- Nothing is lost on the way: the same load from the start of the buffer returns the value. -/
theorem popReset_arrived {s : Scheduler} {source id : Nat} {name : StdString} {v : BoxedValue}
    {bytes : List Byte} {a : Answer} {rest : List MemoryBuffer} (h : v.encode = some bytes)
    (hId : id < 256 ^ 8) (hName : name.bytes.length < 256 ^ 8) (hBytes : bytes.length < 256 ^ 8)
    (ha : arrived source id name v = some a) (hFront : s.results = a.result :: rest) :
    s.popReset = some (v.contiguous, { s with results := rest }) := by
  obtain rfl := Option.some.inj ((arrived_eq source id name h hId hName hBytes).symm.trans ha)
  have hLoad := Reads.boxed v bytes (bytes.length + 1) h (storable_of_encode v bytes h hBytes)
    (Nat.lt_succ_self _) [] []
  simp only [List.nil_append, List.append_nil, List.length_nil] at hLoad
  have hReset : load (written bytes).reset BoxedValue.undef =
      some (v.contiguous, ⟨bytes.length, bytes⟩) := hLoad
  simp [Scheduler.popReset, Scheduler.pop, hFront, hReset]

theorem returned_eq_none (s : Scheduler) (endTime : Time) (source id : Nat) (name : StdString)
    (v : BoxedValue) : returned s endTime source id name v = none := by
  cases ha : arrived source id name v with
  | none => simp [returned, ha]
  | some a =>
    have hResults : (s.handleAnswer endTime a).results = s.results ++ [a.result] := rfl
    have hFront := Scheduler.popChai_atEnd (s := { s.handleAnswer endTime a with
      results := [a.result] }) rfl (atEnd_of_arrived ha)
    simp [returned, ha, Scheduler.popMany_results hResults, hFront]

/-- No value survives, whatever the job and whatever the scheduler did before: `pop_chai` starts
to read where the worker stopped writing. -/
theorem result_never_survives (s : Scheduler) (endTime : Time) (source id : Nat)
    (name : StdString) (v : BoxedValue) : ¬ Survives s endTime source id name v := by
  rintro ⟨s', hReturned⟩
  rw [returned_eq_none] at hReturned
  cases hReturned

theorem int_result_lost :
    let w : World := ⟨2, 1, by decide, by decide, by decide⟩
    (arrived 1 0 ⟨[]⟩ (.int 42)).map Answer.result = some ⟨8, [0, 0, 0, 0, 42, 0, 0, 0]⟩ ∧
      ¬ Survives (Scheduler.new w) 5 1 0 ⟨[]⟩ (.int 42) := by
  intro w
  refine ⟨by decide, ?_⟩
  rintro ⟨s', hReturned⟩
  have hNone : (returned (Scheduler.new w) 5 1 0 ⟨[]⟩ (.int 42)).isNone = true := by decide
  rw [hReturned] at hNone
  cases hNone

end Henson
