import Henson.Scheduler.System
import Henson.Serialization.RoundTrip
import Henson.Serialization.Transport

/-!
# The way of a job

`run_job` writes the ranks and the job into one buffer and sends it to each rank of
the interval; `listen` reads the same fields in the same order, the argument as a
nested buffer whose cursor the runner sets back before it loads from it.
-/

namespace Henson

open LittleEndian MemoryBuffer

def groupsType : SerialType ProcMap.Vector (List.Forall₂ (pairSame Eq Eq)) :=
  .vector (.pair .string (.plain .int))

def Job.fresh : Job := ⟨0, ⟨[]⟩, ⟨[]⟩, {}, [], 0⟩

instance : Serialization Job where
  save bb j := do
    let bb ← save bb j.id
    let bb ← save bb j.name
    let bb ← save bb j.function
    let bb ← save bb j.arg
    let bb ← groupsType.save bb j.groups
    save bb j.size
  load bb j := do
    let (id, bb) ← load bb j.id
    let (name, bb) ← load bb j.name
    let (function, bb) ← load bb j.function
    let (arg, bb) ← load bb j.arg
    let (groups, bb) ← groupsType.load bb j.groups
    let (size, bb) ← load bb j.size
    return (⟨id, name, function, arg, groups, size⟩, bb)

/-- The saves of `run_job`. -/
def saveJobMessage (m : JobMessage) (bb : MemoryBuffer) : Option MemoryBuffer := do
  let bb ← save bb m.first
  let bb ← save bb m.last
  save bb m.job

/-- The loads of `listen`. -/
def loadJobMessage (bb : MemoryBuffer) : Option (JobMessage × MemoryBuffer) := do
  let (first, bb) ← load bb 0
  let (last, bb) ← load bb 0
  let (job, bb) ← load bb Job.fresh
  return (⟨first, last, job⟩, bb)

/-- The loop of `run_job` over the ranks: to whom which message is sent. -/
def JobMessage.sends (m : JobMessage) (message : List Byte) : List (Nat × List Byte) :=
  (List.range' m.first (m.last + 1 - m.first)).map fun rank => (rank, message)

/-- The runner's `job.arg.reset()` and the load of the argument. -/
def Job.loadArg (j : Job) (d : Declared) : Option (d.Carrier × MemoryBuffer) :=
  d.type.load j.arg.reset d.type.init

/-- The numbers and the sizes of a job are `size_t`s. -/
structure Job.Valid (j : Job) : Prop where
  id : j.id < 256 ^ 8
  name : j.name.bytes.length < 256 ^ 8
  function : j.function.bytes.length < 256 ^ 8
  arg : j.arg.size < 256 ^ 8
  groups : groupsType.Valid j.groups
  size : j.size < 256 ^ 8

theorem pairSame_eq {α β : Type} :
    pairSame (Eq : α → α → Prop) (Eq : β → β → Prop) = Eq := by
  funext x y
  exact propext Prod.ext_iff.symm

theorem framed_groups {g : ProcMap.Vector} (h : groupsType.Valid g) :
    Framed (fun bb => groupsType.save bb g) (fun bb => groupsType.load bb []) (Eq g) := by
  obtain ⟨bytes, g', hSave, hLoad, hSame⟩ := groupsType.framed g h
  rw [pairSame_eq, List.forall₂_eq_eq_eq] at hSame
  exact ⟨bytes, g', hSave, hLoad, hSame⟩

theorem framed_job {j : Job} (h : j.Valid) (hEnd : j.arg.AtEnd) :
    Framed (fun bb => save bb j) (fun bb => load bb Job.fresh) (Eq j) := by
  obtain ⟨groups, g, hSaveGroups, hLoadGroups, rfl⟩ := framed_groups h.groups
  have hPosition : j.arg.position < 256 ^ 8 := hEnd ▸ h.arg
  have hLoadArg := Reads.memoryBuffer hEnd.le hPosition {}
  rw [nested_of_atEnd hEnd] at hLoadArg
  have hSaveArg := Appends.memoryBuffer hEnd.le
  rw [nested_of_atEnd hEnd] at hSaveArg
  have hSave := (Appends.sizeT j.id).bind ((Appends.stdString j.name).bind
    ((Appends.stdString j.function).bind (hSaveArg.bind
      (hSaveGroups.bind (Appends.sizeT j.size)))))
  refine ⟨_, j, hSave, ?_, rfl⟩
  exact (Reads.sizeT j.id 0 h.id).bind ((Reads.stdString j.name ⟨[]⟩ h.name).bind
    ((Reads.stdString j.function ⟨[]⟩ h.function).bind (hLoadArg.bind
      (hLoadGroups.bind ((Reads.sizeT j.size 0 h.size).map
        (Job.mk j.id j.name j.function j.arg j.groups))))))

theorem framed_jobMessage {m : JobMessage} (hFirst : m.first < 256 ^ 8) (hLast : m.last < 256 ^ 8)
    (hJob : m.job.Valid) (hEnd : m.job.arg.AtEnd) :
    Framed (saveJobMessage m) loadJobMessage (Eq m) := by
  obtain ⟨job, j, hSave, hLoad, rfl⟩ := framed_job hJob hEnd
  exact ⟨_, m, (Appends.sizeT m.first).bind ((Appends.sizeT m.last).bind hSave),
    (Reads.sizeT m.first 0 hFirst).bind ((Reads.sizeT m.last 0 hLast).bind
      (hLoad.map (JobMessage.mk m.first m.last))), rfl⟩

theorem mem_ranks_iff (m : JobMessage) (rank : Nat) :
    rank ∈ m.ranks ↔ m.first ≤ rank ∧ rank ≤ m.last := Iff.rfl

theorem sends_filter (m : JobMessage) (message : List Byte) (rank : Nat) :
    (m.sends message).filter (fun p => p.1 = rank) =
      if rank ∈ m.ranks then [(rank, message)] else [] := by
  have hCount : (List.range' m.first (m.last + 1 - m.first)).filter (fun i => i = rank) =
      if rank ∈ m.ranks then [rank] else [] := by
    have hMem : m.first ≤ rank ∧ rank < m.first + (m.last + 1 - m.first) ↔ rank ∈ m.ranks := by
      rw [mem_ranks_iff]
      omega
    rw [List.filter_eq, List.count_range_1']
    by_cases hRank : rank ∈ m.ranks
    · rw [if_pos hRank, if_pos (hMem.mpr hRank)]
      rfl
    · rw [if_neg hRank, if_neg (fun h => hRank (hMem.mp h))]
      rfl
  rw [JobMessage.sends, List.filter_map]
  change List.map _ ((List.range' m.first (m.last + 1 - m.first)).filter fun i => i = rank) = _
  rw [hCount]
  by_cases hRank : rank ∈ m.ranks
  · simp [hRank]
  · simp [hRank]

/-- The message of the job is sent to the ranks of its interval, each of them decodes it to the
same fields and is then at its end, and the runner gets the argument `x`. -/
def ArrivesAsDispatched (m : JobMessage) (x : Variable) : Prop :=
  ∃ bb message, saveJobMessage m {} = some bb ∧ bb.send = some message ∧
    (∀ rank, (m.sends message).filter (fun p => p.1 = rank) =
      if rank ∈ m.ranks then [(rank, message)] else []) ∧
    loadJobMessage (recv message) = some (m, ⟨message.length, message⟩) ∧
    ∃ y rest, m.job.loadArg x.toDeclared = some (y, rest) ∧ x.same x.value y

theorem atEnd_of_save {x : Variable} {bb : MemoryBuffer} (hValid : x.Valid)
    (hArg : x.type.save {} x.value = some bb) : bb.AtEnd := by
  obtain ⟨bytes, y, hSave, -, -⟩ := x.type.framed x.value hValid
  rw [Option.some.inj (hArg.symm.trans (hSave []))]
  exact atEnd_written _

theorem loadArg_of_save {j : Job} {x : Variable} (hValid : x.Valid)
    (hArg : x.type.save {} x.value = some j.arg) :
    ∃ y, j.loadArg x.toDeclared = some (y, j.arg) ∧ x.same x.value y := by
  obtain ⟨bytes, y, hSave, hLoad, hSame⟩ := x.type.framed x.value hValid
  have hWritten : j.arg = written bytes := Option.some.inj (hArg.symm.trans (hSave []))
  refine ⟨y, ?_, hSame⟩
  rw [Job.loadArg, hWritten]
  simpa [written, reset] using hLoad [] []

theorem arrives_of_fits {m : JobMessage} {x : Variable} (hFirst : m.first < 256 ^ 8)
    (hLast : m.last < 256 ^ 8) (hJob : m.job.Valid) (hValid : x.Valid)
    (hArg : x.type.save {} x.value = some m.job.arg)
    (hFits : ∀ bb, saveJobMessage m {} = some bb → bb.size < 2 ^ 31) :
    ArrivesAsDispatched m x := by
  obtain ⟨bytes, _, hSave, hLoad, rfl⟩ :=
    framed_jobMessage hFirst hLast hJob (atEnd_of_save hValid hArg)
  have hSaved : saveJobMessage m {} = some (written bytes) := hSave []
  have hSent : (written bytes).send = some bytes := send_of_lt (hFits _ hSaved)
  have hLoaded := hLoad [] []
  simp only [List.nil_append, List.append_nil, List.length_nil] at hLoaded
  obtain ⟨y, hArgument, hSame⟩ := loadArg_of_save hValid hArg
  exact ⟨_, bytes, hSaved, hSent, sends_filter m bytes, hLoaded, y, _, hArgument, hSame⟩

theorem job_arrives_as_dispatched {s s' : Scheduler} {now : Time} {m : JobMessage} {x : Variable}
    (hSize : s.availableProcs.length < 2 ^ 31) (hCanRun : s.canRun = true)
    (hRun : s.runJob now = some (s', m)) (hJob : m.job.Valid) (hValid : x.Valid)
    (hArg : x.type.save {} x.value = some m.job.arg)
    (hFits : ∀ bb, saveJobMessage m {} = some bb → bb.size < 2 ^ 31) :
    ArrivesAsDispatched m x := by
  obtain ⟨job, jobs, first, hPlaced, hRunJob⟩ := Scheduler.runJob_eq hSize hCanRun
  obtain ⟨-, rfl⟩ := Prod.mk.inj (Option.some.inj ((hRunJob now).symm.trans hRun))
  have hBlock := hPlaced.fits
  refine arrives_of_fits ?_ ?_ hJob hValid hArg hFits
  · dsimp only
    omega
  · dsimp only
    omega

theorem job_arrives_as_dispatched_run :
    let s := (Scheduler.new ⟨3, 1, by decide, by decide, by decide⟩).schedule ⟨[97]⟩ ⟨[98]⟩
      ⟨8, [0, 0, 0, 0, 7, 0, 0, 0]⟩ [(⟨[99]⟩, 2)] 2
    let m : JobMessage := ⟨1, 2, ⟨0, ⟨[97]⟩, ⟨[98]⟩, ⟨8, [0, 0, 0, 0, 7, 0, 0, 0]⟩, [(⟨[99]⟩, 2)], 2⟩⟩
    (s.runJob 0).map Prod.snd = some m ∧ ArrivesAsDispatched m ⟨⟨.boxed⟩, .int 7⟩ := by
  intro s m
  have hMessage : (s.runJob 0).map Prod.snd = some m := by decide
  refine ⟨hMessage, ?_⟩
  obtain ⟨⟨s', m'⟩, hRun, rfl : m' = m⟩ := Option.map_eq_some_iff.mp hMessage
  have hSize : (saveJobMessage m {}).all fun bb => bb.size < 2 ^ 31 := by decide +kernel
  have hFits : ∀ bb, saveJobMessage m {} = some bb → bb.size < 2 ^ 31 := by
    intro bb hSave
    rw [hSave] at hSize
    exact of_decide_eq_true hSize
  have hArg : SerialType.boxed.save {} (.int 7) = some m.job.arg := by decide +kernel
  have hGroups : groupsType.Valid m.job.groups := by
    simp [m, groupsType, SerialType.Valid]
  exact job_arrives_as_dispatched (by decide) (by decide) hRun
    ⟨by decide, by decide, by decide, by decide, hGroups, by decide⟩ trivial hArg hFits

theorem exists_save_of_groups_nil {m : JobMessage} (hGroups : m.job.groups = [])
    (hEnd : m.job.arg.AtEnd) :
    ∃ bytes, saveJobMessage m {} = some (written bytes) ∧ bytes.length =
      64 + m.job.name.bytes.length + m.job.function.bytes.length + m.job.arg.size := by
  have hSaveArg := Appends.memoryBuffer hEnd.le
  rw [nested_of_atEnd hEnd] at hSaveArg
  have hSaveGroups : Appends (fun bb => groupsType.save bb m.job.groups) (toBytes 8 0 ++ []) := by
    rw [hGroups]
    exact (Appends.sizeT 0).bind Appends.pure_nil
  have hSave := (Appends.sizeT m.first).bind ((Appends.sizeT m.last).bind
    ((Appends.sizeT m.job.id).bind ((Appends.stdString m.job.name).bind
      ((Appends.stdString m.job.function).bind (hSaveArg.bind
        (hSaveGroups.bind (Appends.sizeT m.job.size)))))))
  refine ⟨_, hSave [], ?_⟩
  simp only [List.nil_append, List.length_append, length_toBytes, List.length_nil, size]
  omega

/-- From 2 GiB on, the count that is passed for the message is negative. -/
theorem not_arrives_of_oversize {m : JobMessage} {x : Variable} (hGroups : m.job.groups = [])
    (hEnd : m.job.arg.AtEnd) (hName : m.job.name = ⟨[]⟩) (hFunction : m.job.function = ⟨[]⟩)
    (hLow : 2 ^ 31 ≤ m.job.arg.size) (hHigh : m.job.arg.size < 2 ^ 31 + 2 ^ 30) :
    ¬ ArrivesAsDispatched m x := by
  rintro ⟨bb, message, hSave, hSend, -⟩
  obtain ⟨bytes, hSaved, hLength⟩ := exists_save_of_groups_nil hGroups hEnd
  obtain rfl := Option.some.inj (hSaved.symm.trans hSave)
  have hSize : (written bytes).size = 64 + m.job.arg.size := by
    rw [hName, hFunction] at hLength
    simpa [written, size] using hLength
  rw [send_eq_none (by omega) (by omega)] at hSend
  cases hSend

/-- A long string as the argument of the only job, for the only worker. -/
theorem oversize_string_not_sent {v : StdString} (hLow : 2 ^ 31 ≤ v.bytes.length)
    (hHigh : v.bytes.length < 2 ^ 31 + 2 ^ 29) :
    let w : World := ⟨2, 1, by decide, by decide, by decide⟩
    let x : Variable := ⟨⟨.string⟩, v⟩
    ∃ arg s' m, x.Valid ∧ x.type.save {} x.value = some arg ∧
      let s := (Scheduler.new w).schedule ⟨[]⟩ ⟨[]⟩ arg [] 1
      s.canRun = true ∧ s.runJob 0 = some (s', m) ∧ m.job.Valid ∧ m.job.arg = arg ∧
        ¬ ArrivesAsDispatched m x := by
  intro w x
  have hSize : (written (toBytes 8 v.bytes.length ++ v.bytes)).size = 8 + v.bytes.length := by
    simp [written, size]
  have hValid : x.Valid := by
    change v.bytes.length < 256 ^ 8
    omega
  let arg := written (toBytes 8 v.bytes.length ++ v.bytes)
  let s := (Scheduler.new w).schedule ⟨[]⟩ ⟨[]⟩ arg [] 1
  have hCanRun : s.canRun = true := rfl
  have hWorld : s.availableProcs.length < 2 ^ 31 := (by decide : 2 < 2 ^ 31)
  obtain ⟨job, jobs, first, hPlaced, hRun⟩ := Scheduler.runJob_eq hWorld hCanRun
  obtain ⟨rfl, -⟩ := List.cons.inj hPlaced.jobs_eq
  refine ⟨arg, _, _, hValid, Appends.stdString v [], hCanRun, hRun 0, ?_, rfl, ?_⟩
  · have hZero : 0 < 256 ^ 8 := by decide
    have hOne : 1 < 256 ^ 8 := by decide
    have hArg : arg.size < 256 ^ 8 := by
      rw [hSize]
      omega
    exact ⟨hZero, hZero, hZero, hArg, ⟨hZero, fun p hp => absurd hp List.not_mem_nil⟩, hOne⟩
  · apply not_arrives_of_oversize rfl (atEnd_written _) rfl rfl
    · change _ ≤ size (written _)
      omega
    · change size (written _) < _
      omega

theorem oversize_job_not_sent :
    let w : World := ⟨2, 1, by decide, by decide, by decide⟩
    let x : Variable := ⟨⟨.string⟩, ⟨List.replicate (2 ^ 31) 0⟩⟩
    ∃ arg s' m, x.Valid ∧ x.type.save {} x.value = some arg ∧
      let s := (Scheduler.new w).schedule ⟨[]⟩ ⟨[]⟩ arg [] 1
      s.canRun = true ∧ s.runJob 0 = some (s', m) ∧ m.job.Valid ∧ m.job.arg = arg ∧
        ¬ ArrivesAsDispatched m x := by
  apply oversize_string_not_sent
  · exact (List.length_replicate).ge
  · exact (List.length_replicate).trans_lt (by decide)

end Henson
