import Henson.Library.TransitionSystem
import Henson.Serialization.MemoryBuffer

/-!
# Buffers inside buffers

A buffer is saved up to its cursor, so the cursor is the length of what is stored. What
comes back is the buffer itself where the cursor stands at the end. `copy` moves a stored
buffer without a temporary one and sizes its destination itself: it cuts what
`save_binary` would leave behind the bytes that it writes.
-/

namespace Henson

open LittleEndian TransitionSystem

namespace MemoryBuffer

def InBounds (bb : MemoryBuffer) : Prop := bb.position ≤ bb.buffer.length

/-- The bytes over what the buffer has at the cursor, the cursor behind them. -/
def overwritten (bb : MemoryBuffer) (bytes : List Byte) : MemoryBuffer where
  position := bb.position + bytes.length
  buffer := bb.buffer.take bb.position ++ bytes ++ bb.buffer.drop (bb.position + bytes.length)

section Overwritten

variable {bb : MemoryBuffer}

theorem saveBinary_eq_overwritten (h : bb.InBounds) (x : List Byte) :
    bb.saveBinary x = bb.overwritten x := by
  rw [InBounds] at h
  by_cases hGrow : bb.position + x.length > bb.buffer.length
  · have hResize : resize bb.buffer (bb.position + x.length) =
        bb.buffer ++ List.replicate (bb.position + x.length - bb.buffer.length) 0 := by
      rw [resize, List.take_of_length_le (Nat.le_of_lt hGrow)]
    have hDrop : (bb.buffer ++ List.replicate (bb.position + x.length - bb.buffer.length) 0).drop
        (bb.position + x.length) = [] := by
      apply List.drop_eq_nil_of_le
      rw [List.length_append, List.length_replicate]
      omega
    have hOld : bb.buffer.drop (bb.position + x.length) = [] :=
      List.drop_eq_nil_of_le (Nat.le_of_lt hGrow)
    simp only [saveBinary, overwritten, if_pos hGrow]
    rw [hResize, hDrop, hOld, List.take_append_of_le_length h]
  · simp [saveBinary, overwritten, hGrow]

theorem length_overwritten (h : bb.InBounds) (x : List Byte) :
    (bb.overwritten x).buffer.length = max bb.buffer.length (bb.position + x.length) := by
  rw [InBounds] at h
  simp only [overwritten, List.length_append, List.length_take, List.length_drop]
  omega

theorem overwritten_inBounds (h : bb.InBounds) (x : List Byte) : (bb.overwritten x).InBounds := by
  rw [InBounds, length_overwritten h]
  exact Nat.le_max_right _ _

theorem overwritten_append (h : bb.InBounds) (a b : List Byte) :
    (bb.overwritten a).overwritten b = bb.overwritten (a ++ b) := by
  have hLength : (bb.buffer.take bb.position ++ a).length = bb.position + a.length := by
    rw [List.length_append, List.length_take, Nat.min_eq_left h]
  have hTake : (bb.overwritten a).buffer.take (bb.position + a.length) =
      bb.buffer.take bb.position ++ a := by
    rw [overwritten, ← hLength, List.take_left]
  have hDrop : (bb.overwritten a).buffer.drop (bb.position + a.length + b.length) =
      bb.buffer.drop (bb.position + (a ++ b).length) := by
    rw [overwritten, ← hLength, List.drop_length_add_append, hLength, List.drop_drop,
      List.length_append, Nat.add_assoc]
  rw [overwritten]
  change MemoryBuffer.mk (bb.position + a.length + b.length)
    ((bb.overwritten a).buffer.take (bb.position + a.length) ++ b ++
      (bb.overwritten a).buffer.drop (bb.position + a.length + b.length)) = _
  rw [hTake, hDrop, overwritten, List.append_assoc (bb.buffer.take bb.position), Nat.add_assoc,
    ← List.length_append]

theorem reads_overwritten {α : Type} {f : MemoryBuffer → Option (α × MemoryBuffer)}
    {bytes : List Byte} {x : α} (hReads : Reads f bytes x) (h : bb.InBounds) :
    f { bb.overwritten bytes with position := bb.position } = some (x, bb.overwritten bytes) := by
  have hLength : (bb.buffer.take bb.position).length = bb.position := by
    rw [List.length_take, Nat.min_eq_left h]
  have hRead := hReads (bb.buffer.take bb.position) (bb.buffer.drop (bb.position + bytes.length))
  rw [List.length_append, hLength] at hRead
  exact hRead

/-- The stored form of a buffer: its cursor and the bytes up to it. -/
def stored (x : MemoryBuffer) : List Byte := toBytes 8 x.position ++ x.nested.buffer

theorem save_memoryBuffer {x : MemoryBuffer} (hx : x.InBounds) (h : bb.InBounds) :
    save bb x = some (bb.overwritten x.stored) := by
  have hSize : save bb x.position = some (bb.overwritten (toBytes 8 x.position)) :=
    congrArg some (saveBinary_eq_overwritten h _)
  have hBytes := saveBinary_eq_overwritten (overwritten_inBounds h (toBytes 8 x.position))
    x.nested.buffer
  rw [overwritten_append h] at hBytes
  change (save bb x.position >>= fun bb =>
    if x.position ≤ x.buffer.length then some (bb.saveBinary x.nested.buffer) else none) = _
  rw [hSize, Option.bind_eq_bind, Option.bind_some, if_pos (show _ ≤ _ from hx), hBytes]
  rfl

end Overwritten

end MemoryBuffer

open MemoryBuffer

inductive BufferOp where
  | saveBinary (x : List Byte)
  | loadBinary (count : Nat)
  | reset
  | skip (s : Nat)
  | clear

/-- Reads and skips stay within the bytes. -/
def MemoryBuffer.step (bb : MemoryBuffer) : BufferOp → Option MemoryBuffer
  -- `resize` throws beyond the `max_size` of a vector
  | .saveBinary x => if bb.position + x.length < 2 ^ 63 then some (bb.saveBinary x) else none
  | .loadBinary count => (bb.loadBinary count).map Prod.snd
  | .reset => some bb.reset
  | .skip s => if bb.position + s ≤ bb.size then some (bb.skip s) else none
  | .clear => some bb.clear

def bufferMachine : Machine MemoryBuffer BufferOp where
  initial := {}
  step := MemoryBuffer.step

structure MemoryBuffer.WellFormed (bb : MemoryBuffer) : Prop where
  inBounds : bb.InBounds
  fits : bb.buffer.length < 2 ^ 63

theorem MemoryBuffer.WellFormed.step {bb bb' : MemoryBuffer} {op : BufferOp} (h : bb.WellFormed)
    (hStep : bb.step op = some bb') : bb'.WellFormed := by
  cases op with
  | saveBinary x =>
    obtain ⟨hFits, hSaved⟩ := Option.ite_none_right_eq_some.mp hStep
    rw [saveBinary_eq_overwritten h.inBounds] at hSaved
    obtain rfl := Option.some.inj hSaved
    refine ⟨overwritten_inBounds h.inBounds x, ?_⟩
    rw [length_overwritten h.inBounds]
    exact Nat.max_lt.mpr ⟨h.fits, hFits⟩
  | loadBinary count =>
    obtain ⟨⟨bytes, bb''⟩, hLoad, rfl⟩ := Option.map_eq_some_iff.mp hStep
    obtain ⟨hBound, hPair⟩ := Option.ite_none_right_eq_some.mp hLoad
    obtain ⟨-, rfl⟩ := Prod.mk.inj (Option.some.inj hPair)
    exact ⟨hBound, h.fits⟩
  | reset =>
    obtain rfl := Option.some.inj hStep
    exact ⟨Nat.zero_le _, h.fits⟩
  | skip s =>
    obtain ⟨hBound, hSkipped⟩ := Option.ite_none_right_eq_some.mp hStep
    obtain rfl := Option.some.inj hSkipped
    exact ⟨hBound, h.fits⟩
  | clear =>
    obtain rfl := Option.some.inj hStep
    exact ⟨Nat.le_refl 0, Nat.two_pow_pos 63⟩

theorem wellFormed_of_reachable {bb : MemoryBuffer} (h : bufferMachine.Reachable bb) :
    bb.WellFormed := by
  apply h.invariant (I := MemoryBuffer.WellFormed)
  · exact ⟨Nat.le_refl 0, Nat.two_pow_pos 63⟩
  · intro bb op bb' hInv hStep
    exact hInv.step hStep

theorem MemoryBuffer.WellFormed.position_lt {bb : MemoryBuffer} (h : bb.WellFormed) :
    bb.position < 256 ^ 8 :=
  Nat.lt_of_le_of_lt h.inBounds (Nat.lt_trans h.fits (by decide))

theorem MemoryBuffer.nested_eq_iff {bb : MemoryBuffer} (h : bb.InBounds) :
    bb.nested = bb ↔ bb.AtEnd := by
  constructor
  · intro hSame
    have hLength := congrArg (fun bb : MemoryBuffer => bb.buffer.length) hSame
    simp only [nested, List.length_take] at hLength
    rw [AtEnd]
    rw [InBounds] at h
    omega
  · exact nested_of_atEnd

/-- After every history, a buffer saved at any place of another one and loaded back from there
has its cursor and its bytes up to the cursor. It is the same buffer exactly if the cursor
stands at the end of the bytes. -/
theorem nested_round_trip {x : MemoryBuffer} (h : bufferMachine.Reachable x)
    (outer target : MemoryBuffer) (hOuter : outer.position ≤ outer.buffer.length) :
    ∃ saved y rest, save outer x = some saved ∧
      load { saved with position := outer.position } target = some (y, rest) ∧
      y.position = x.position ∧ y.buffer = x.buffer.take x.position ∧
      (y = x ↔ x.position = x.buffer.length) := by
  have hx := wellFormed_of_reachable h
  refine ⟨outer.overwritten x.stored, x.nested, outer.overwritten x.stored, ?_, ?_, rfl, rfl, ?_⟩
  · exact save_memoryBuffer hx.inBounds hOuter
  · exact reads_overwritten (Reads.memoryBuffer hx.inBounds hx.position_lt target) hOuter
  · exact nested_eq_iff hx.inBounds

theorem nested_round_trip_run :
    ∃ saved y rest, save (⟨1, [9, 9, 9]⟩ : MemoryBuffer) (⟨2, [1, 2]⟩ : MemoryBuffer) = some saved ∧
      load { saved with position := 1 } ({} : MemoryBuffer) = some (y, rest) ∧
      y.position = 2 ∧ y.buffer = [1, 2] ∧ (y = (⟨2, [1, 2]⟩ : MemoryBuffer) ↔ 2 = 2) := by
  have hRun : bufferMachine.run [.saveBinary [1, 2], .reset, .loadBinary 1, .skip 1] {} =
      some ⟨2, [1, 2]⟩ := by decide
  exact nested_round_trip (Machine.reachable_of_run _ .initial hRun) ⟨1, [9, 9, 9]⟩ {} (by decide)

/-- Two bytes are written and the cursor is set back: an empty buffer comes back. -/
theorem rewound_buffer_is_lost :
    bufferMachine.Reachable ⟨0, [1, 2]⟩ ∧
      ((save ({} : MemoryBuffer) (⟨0, [1, 2]⟩ : MemoryBuffer)).bind fun saved =>
        (load { saved with position := 0 } ({} : MemoryBuffer)).map Prod.fst) =
        some (⟨0, []⟩ : MemoryBuffer) := by
  have hRun : bufferMachine.run [.saveBinary [1, 2], .reset] {} = some ⟨0, [1, 2]⟩ := by decide
  exact ⟨Machine.reachable_of_run _ .initial hRun, by decide⟩

namespace MemoryBuffer

def copy (src dst : MemoryBuffer) : Option (MemoryBuffer × MemoryBuffer) := do
  let (sz, src) ← load src (0 : Nat)
  let src := { src with position := src.position - 8 }
  let total := 8 + sz
  let buffer := resize dst.buffer (dst.position + total)
  let (bytes, src) ← src.loadBinary total
  let dst :=
    { position := dst.position + total
      buffer := buffer.take dst.position ++ bytes ++ buffer.drop (dst.position + total) }
  return (src, dst)

def copyByTemporary (src dst : MemoryBuffer) : Option (MemoryBuffer × MemoryBuffer) := do
  let (x, src) ← load src ({} : MemoryBuffer)
  let dst ← save dst x
  return (src, dst)

section Copy

variable {x src dst : MemoryBuffer} {pre post : List Byte}

theorem length_stored (hx : x.InBounds) : x.stored.length = 8 + x.position := by
  rw [stored, List.length_append, length_toBytes, nested, List.length_take, Nat.min_eq_left hx]

theorem nested_nested (hx : x.InBounds) : x.nested.nested = x.nested := by
  rw [nested_eq_iff (Nat.le_of_eq (List.length_take_of_le hx).symm), AtEnd, nested,
    List.length_take_of_le hx]

theorem stored_nested (hx : x.InBounds) : x.nested.stored = x.stored := by
  rw [stored, nested_nested hx]
  rfl

theorem copyByTemporary_eq (hx : x.InBounds) (hFits : x.position < 256 ^ 8)
    (hSrc : src = ⟨pre.length, pre ++ x.stored ++ post⟩) (hDst : dst.InBounds) :
    copyByTemporary src dst =
      some (⟨(pre ++ x.stored).length, pre ++ x.stored ++ post⟩, dst.overwritten x.stored) := by
  have hLoad : load ⟨pre.length, pre ++ x.stored ++ post⟩ ({} : MemoryBuffer) =
      some (x.nested, ⟨(pre ++ x.stored).length, pre ++ x.stored ++ post⟩) :=
    Reads.memoryBuffer hx hFits {} pre post
  have hNested : x.nested.InBounds := Nat.le_of_eq (List.length_take_of_le hx).symm
  have hSave := save_memoryBuffer hNested hDst
  rw [stored_nested hx] at hSave
  subst hSrc
  rw [copyByTemporary, hLoad, Option.bind_eq_bind, Option.bind_some]
  dsimp only
  rw [hSave]
  rfl

theorem copy_eq (hx : x.InBounds) (hFits : x.position < 256 ^ 8)
    (hSrc : src = ⟨pre.length, pre ++ x.stored ++ post⟩) (hDst : dst.InBounds) :
    copy src dst =
      some (⟨(pre ++ x.stored).length, pre ++ x.stored ++ post⟩,
        ⟨dst.position + x.stored.length, dst.buffer.take dst.position ++ x.stored⟩) := by
  have hRaw : pre ++ x.stored ++ post =
      pre ++ toBytes 8 x.position ++ (x.nested.buffer ++ post) := by
    simp [stored, List.append_assoc]
  have hSize : load ⟨pre.length, pre ++ x.stored ++ post⟩ (0 : Nat) =
      some (x.position, ⟨(pre ++ toBytes 8 x.position).length, pre ++ x.stored ++ post⟩) := by
    rw [hRaw]
    exact Reads.sizeT x.position 0 hFits pre (x.nested.buffer ++ post)
  have hBytes := loadBinary_eq pre x.stored post
  have hTotal := length_stored hx
  have hBack : (pre ++ toBytes 8 x.position).length - 8 = pre.length := by
    rw [List.length_append, length_toBytes, Nat.add_sub_cancel]
  have hTake : (resize dst.buffer (dst.position + x.stored.length)).take dst.position =
      dst.buffer.take dst.position := by
    rw [resize, List.take_append_of_le_length, List.take_take, Nat.min_eq_left (Nat.le_add_right _ _)]
    rw [List.length_take, Nat.le_min]
    exact ⟨Nat.le_add_right _ _, hDst⟩
  have hDrop : (resize dst.buffer (dst.position + x.stored.length)).drop
      (dst.position + x.stored.length) = [] := by
    apply List.drop_eq_nil_of_le
    rw [resize, List.length_append, List.length_take, List.length_replicate]
    omega
  subst hSrc
  rw [copy, hSize, Option.bind_eq_bind, Option.bind_some]
  dsimp only
  rw [hBack, ← hTotal, hBytes, Option.bind_eq_bind, Option.bind_some]
  dsimp only
  rw [hTake, hDrop, List.append_nil]
  rfl

end Copy

end MemoryBuffer

/-- Copying a stored buffer does what loading it into a temporary buffer and saving that one does
exactly if the destination has no bytes behind the place that the copy takes. -/
theorem copy_eq_iff {x src dst : MemoryBuffer} (pre post : List Byte)
    (hx : x.position ≤ x.buffer.length) (hFits : x.position < 256 ^ 8)
    (hSrc : src = ⟨pre.length, pre ++ x.stored ++ post⟩)
    (hDst : dst.position ≤ dst.buffer.length) :
    MemoryBuffer.copy src dst = copyByTemporary src dst ↔
      dst.buffer.length ≤ dst.position + (8 + x.position) := by
  rw [copy_eq hx hFits hSrc hDst, copyByTemporary_eq hx hFits hSrc hDst, ← length_stored hx,
    ← List.drop_eq_nil_iff]
  simp [overwritten]

theorem copy_eq_iff_run :
    MemoryBuffer.copy ⟨0, toBytes 8 1 ++ [7]⟩ ⟨0, [5]⟩ =
        copyByTemporary ⟨0, toBytes 8 1 ++ [7]⟩ ⟨0, [5]⟩ ↔
      [5].length ≤ 0 + (8 + 1) :=
  copy_eq_iff (x := ⟨1, [7]⟩) [] [] (by decide) (by decide) (by decide) (by decide)

/-- The two bytes behind the nine that are copied get lost. -/
theorem copy_truncates :
    MemoryBuffer.copy ⟨0, toBytes 8 1 ++ [7]⟩ ⟨0, List.replicate 11 5⟩ =
        some (⟨9, toBytes 8 1 ++ [7]⟩, ⟨9, toBytes 8 1 ++ [7]⟩) ∧
      copyByTemporary ⟨0, toBytes 8 1 ++ [7]⟩ ⟨0, List.replicate 11 5⟩ =
        some (⟨9, toBytes 8 1 ++ [7]⟩, ⟨9, toBytes 8 1 ++ [7, 5, 5]⟩) := by
  decide

end Henson
