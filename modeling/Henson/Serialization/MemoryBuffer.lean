import Henson.Library.LittleEndian

/-!
# Serialization buffers

A `MemoryBuffer` is a byte vector and one cursor, which writing and reading
share. Reading past the end of the vector has no defined result in the source;
here it is `none`. The capacity that `saveBinary` reserves ahead of time never
shows in the contents, so it is left out.
-/

namespace Henson

open LittleEndian

abbrev Byte := UInt8

structure MemoryBuffer where
  position : Nat := 0
  buffer : List Byte := []
  deriving DecidableEq

namespace MemoryBuffer

/-- `std::vector::resize`: cut, or fill up with zero bytes. -/
def resize (bytes : List Byte) (n : Nat) : List Byte :=
  bytes.take n ++ List.replicate (n - bytes.length) 0

def saveBinary (bb : MemoryBuffer) (x : List Byte) : MemoryBuffer :=
  let count := x.length
  let grown :=
    if bb.position + count > bb.buffer.length then resize bb.buffer (bb.position + count)
    else bb.buffer
  { position := bb.position + count
    buffer := grown.take bb.position ++ x ++ grown.drop (bb.position + count) }

def loadBinary (bb : MemoryBuffer) (count : Nat) : Option (List Byte × MemoryBuffer) :=
  if bb.position + count ≤ bb.buffer.length then
    some ((bb.buffer.drop bb.position).take count, { bb with position := bb.position + count })
  else none

def reset (bb : MemoryBuffer) : MemoryBuffer := { bb with position := 0 }

def skip (bb : MemoryBuffer) (s : Nat) : MemoryBuffer := { bb with position := bb.position + s }

def clear (_ : MemoryBuffer) : MemoryBuffer := { position := 0, buffer := [] }

def empty (bb : MemoryBuffer) : Bool := bb.buffer.isEmpty

def size (bb : MemoryBuffer) : Nat := bb.buffer.length

end MemoryBuffer

/-- `Serialization<T>`. Saving may throw; loading takes the target's old value,
since some specializations reuse it. -/
class Serialization (α : Type) where
  save : MemoryBuffer → α → Option MemoryBuffer
  load : MemoryBuffer → α → Option (α × MemoryBuffer)

export Serialization (save load)

/-- The unspecialized `Serialization<T>` of a trivially copyable type: `width` bytes as they are. -/
@[reducible] def defaultSerialization {α : Type} (width : Nat) (encode : α → Nat) (decode : Nat → α) :
    Serialization α where
  save bb x := some (bb.saveBinary (toBytes width (encode x)))
  load bb _ := do
    let (bytes, bb) ← bb.loadBinary width
    return (decode (ofBytes bytes), bb)

/-- `size_t`, by its value. -/
instance : Serialization Nat := defaultSerialization 8 id id

instance : Serialization UInt64 := defaultSerialization 8 UInt64.toNat UInt64.ofNat

instance : Serialization UInt32 := defaultSerialization 4 UInt32.toNat UInt32.ofNat

/-- `int`, in two's complement. -/
instance : Serialization Int32 :=
  defaultSerialization 4 (fun x => x.toUInt32.toNat) (fun n => (UInt32.ofNat n).toInt32)

instance : Serialization Byte := defaultSerialization 1 UInt8.toNat UInt8.ofNat

/-- `std::string`: its bytes, of any values. -/
structure StdString where
  bytes : List Byte
  deriving DecidableEq

/-- `operator<`, which compares bytes. -/
instance : Ord StdString := ⟨fun s t => compare s.bytes t.bytes⟩

instance : Std.TransOrd StdString where
  eq_swap {s t} := @Std.OrientedCmp.eq_swap (List Byte) compare _ s.bytes t.bytes
  isLE_trans {s t u} := @Std.TransCmp.isLE_trans (List Byte) compare _ s.bytes t.bytes u.bytes

instance : Std.LawfulEqOrd StdString where
  compare_self {s} := @Std.ReflCmp.compare_self (List Byte) compare _ s.bytes
  eq_of_compare {s t} h := by
    obtain ⟨bytes⟩ := s
    exact congrArg StdString.mk (@Std.LawfulEqCmp.eq_of_compare (List Byte) compare _ _ _ h)

/-- The character loop of `Serialization<std::string>::load`. -/
def loadChars : Nat → MemoryBuffer → Option (List Byte × MemoryBuffer)
  | 0, bb => some ([], bb)
  | n + 1, bb => do
    let (c, bb) ← load bb (0 : Byte)
    let (s, bb) ← loadChars n bb
    return (c :: s, bb)

instance : Serialization StdString where
  save bb s := do
    let bb ← save bb s.bytes.length
    return bb.saveBinary s.bytes
  load bb _ := do
    let (sz, bb) ← load bb 0
    let (bytes, bb) ← loadChars sz bb
    return (⟨bytes⟩, bb)

instance : Serialization MemoryBuffer where
  save bb x := do
    let bb ← save bb x.position
    if x.position ≤ x.buffer.length then
      return bb.saveBinary (x.buffer.take x.position)
    else none
  load bb x := do
    let (position, bb) ← load bb x.position
    let (buffer, bb) ← bb.loadBinary position
    return ({ position := position, buffer := buffer }, bb)

namespace MemoryBuffer

def AtEnd (bb : MemoryBuffer) : Prop := bb.position = bb.buffer.length

/-- What a buffer becomes when it is saved into another one and loaded again: its bytes up to
the cursor, with the cursor behind them. -/
def nested (bb : MemoryBuffer) : MemoryBuffer := { bb with buffer := bb.buffer.take bb.position }

def written (bytes : List Byte) : MemoryBuffer :=
  { position := bytes.length, buffer := bytes }

theorem atEnd_written (bytes : List Byte) : (written bytes).AtEnd := rfl

theorem nested_of_atEnd {bb : MemoryBuffer} (h : bb.AtEnd) : bb.nested = bb := by
  rw [nested, h, List.take_length, ← h]

theorem saveBinary_written (pre x : List Byte) :
    (written pre).saveBinary x = written (pre ++ x) := by
  by_cases hx : x = []
  · simp [saveBinary, written, hx]
  · have hPos : 0 < x.length := List.length_pos_iff.mpr hx
    have hTake : pre.take (pre.length + x.length) = pre := List.take_of_length_le (by omega)
    simp [saveBinary, written, resize, hPos, hTake]

theorem loadBinary_eq (pre x post : List Byte) :
    loadBinary ⟨pre.length, pre ++ x ++ post⟩ x.length =
      some (x, ⟨(pre ++ x).length, pre ++ x ++ post⟩) := by
  simp [loadBinary, List.append_assoc]

theorem loadBinary_eq_none {bb : MemoryBuffer} {count : Nat}
    (h : bb.buffer.length < bb.position + count) : bb.loadBinary count = none := by
  simp [loadBinary, h]

end MemoryBuffer

open MemoryBuffer

/-- The computation writes `bytes` at the end of whatever the buffer holds. -/
def Appends (f : MemoryBuffer → Option MemoryBuffer) (bytes : List Byte) : Prop :=
  ∀ pre, f (written pre) = some (written (pre ++ bytes))

/-- The computation reads exactly `bytes`, wherever the cursor finds them, and returns `x`. -/
def Reads {α : Type} (f : MemoryBuffer → Option (α × MemoryBuffer)) (bytes : List Byte)
    (x : α) : Prop :=
  ∀ pre post, f ⟨pre.length, pre ++ bytes ++ post⟩ =
    some (x, ⟨(pre ++ bytes).length, pre ++ bytes ++ post⟩)

theorem Appends.saveBinary (bytes : List Byte) :
    Appends (fun bb => some (bb.saveBinary bytes)) bytes := by
  intro pre
  exact congrArg some (saveBinary_written pre bytes)

theorem Appends.pure_nil : Appends some [] := by
  intro pre
  rw [List.append_nil]

theorem Appends.bind {f g : MemoryBuffer → Option MemoryBuffer} {a b : List Byte}
    (hf : Appends f a) (hg : Appends g b) : Appends (fun bb => f bb >>= g) (a ++ b) := by
  intro pre
  change (f (written pre)).bind g = _
  rw [hf pre, Option.bind_some, hg, List.append_assoc]

theorem Reads.loadBinary (bytes : List Byte) :
    Reads (fun bb => bb.loadBinary bytes.length) bytes bytes :=
  fun pre post => loadBinary_eq pre bytes post

theorem Reads.pure {α : Type} (x : α) : Reads (fun bb => some (x, bb)) [] x := by
  intro pre post
  rw [List.append_nil]

theorem Reads.bind {α β : Type} {f : MemoryBuffer → Option (α × MemoryBuffer)}
    {g : α × MemoryBuffer → Option (β × MemoryBuffer)} {a b : List Byte} {x : α} {y : β}
    (hf : Reads f a x) (hg : Reads (fun bb => g (x, bb)) b y) :
    Reads (fun bb => f bb >>= g) (a ++ b) y := by
  intro pre post
  have h := hf pre (b ++ post)
  have h' := hg (pre ++ a) post
  simp only [List.append_assoc] at h h' ⊢
  change (f _).bind g = _
  rw [h, Option.bind_some, h']

theorem Reads.map {α β : Type} {f : MemoryBuffer → Option (α × MemoryBuffer)} {a : List Byte}
    {x : α} (hf : Reads f a x) (g : α → β) :
    Reads (fun bb => f bb >>= fun p => some (g p.1, p.2)) a (g x) := by
  have h := hf.bind (g := fun p => some (g p.1, p.2)) (Reads.pure (g x))
  rwa [List.append_nil] at h

theorem Appends.default {α : Type} (width : Nat) (encode : α → Nat) (decode : Nat → α) (x : α) :
    Appends (fun bb => (defaultSerialization width encode decode).save bb x)
      (toBytes width (encode x)) :=
  Appends.saveBinary _

theorem Reads.default {α : Type} (width : Nat) (encode : α → Nat) (decode : Nat → α)
    (x target : α) (hFits : encode x < 256 ^ width) (hInverse : decode (encode x) = x) :
    Reads (fun bb => (defaultSerialization width encode decode).load bb target)
      (toBytes width (encode x)) x := by
  have h := (Reads.loadBinary (toBytes width (encode x))).map (fun bytes => decode (ofBytes bytes))
  rwa [length_toBytes, ofBytes_toBytes hFits, hInverse] at h

theorem Appends.sizeT (n : Nat) : Appends (fun bb => save bb n) (toBytes 8 n) :=
  Appends.default 8 id id n

theorem Reads.sizeT (n target : Nat) (hFits : n < 256 ^ 8) :
    Reads (fun bb => load bb target) (toBytes 8 n) n :=
  Reads.default 8 id id n target hFits rfl

theorem Appends.uint64 (n : UInt64) : Appends (fun bb => save bb n) (toBytes 8 n.toNat) :=
  Appends.default 8 UInt64.toNat UInt64.ofNat n

theorem Reads.uint64 (n target : UInt64) :
    Reads (fun bb => load bb target) (toBytes 8 n.toNat) n :=
  Reads.default 8 UInt64.toNat UInt64.ofNat n target n.toNat_lt (UInt64.ofNat_toNat)

theorem Appends.uint32 (n : UInt32) : Appends (fun bb => save bb n) (toBytes 4 n.toNat) :=
  Appends.default 4 UInt32.toNat UInt32.ofNat n

theorem Reads.uint32 (n target : UInt32) :
    Reads (fun bb => load bb target) (toBytes 4 n.toNat) n :=
  Reads.default 4 UInt32.toNat UInt32.ofNat n target n.toNat_lt (UInt32.ofNat_toNat)

theorem Appends.int32 (n : Int32) :
    Appends (fun bb => save bb n) (toBytes 4 n.toUInt32.toNat) :=
  Appends.default 4 (fun x : Int32 => x.toUInt32.toNat) (fun k => (UInt32.ofNat k).toInt32) n

theorem Reads.int32 (n target : Int32) :
    Reads (fun bb => load bb target) (toBytes 4 n.toUInt32.toNat) n :=
  Reads.default 4 (fun x : Int32 => x.toUInt32.toNat) (fun k => (UInt32.ofNat k).toInt32) n target
    n.toUInt32.toNat_lt (by simp)

theorem Reads.byte (c target : Byte) : Reads (fun bb => load bb target) [c] c := by
  have h := Reads.default 1 UInt8.toNat UInt8.ofNat c target c.toNat_lt UInt8.ofNat_toNat
  simpa [toBytes] using h

theorem Appends.memoryBuffer {x : MemoryBuffer} (h : x.position ≤ x.buffer.length) :
    Appends (fun bb => save bb x) (toBytes 8 x.position ++ x.nested.buffer) := by
  intro pre
  have hBytes := (Appends.sizeT x.position).bind (Appends.saveBinary x.nested.buffer) pre
  simpa [Serialization.save, h, nested] using hBytes

theorem Reads.memoryBuffer {x : MemoryBuffer} (h : x.position ≤ x.buffer.length)
    (hFits : x.position < 256 ^ 8) (target : MemoryBuffer) :
    Reads (fun bb => load bb target) (toBytes 8 x.position ++ x.nested.buffer) x.nested := by
  have hLength : x.nested.buffer.length = x.position := List.length_take_of_le h
  have hBuffer := (Reads.loadBinary x.nested.buffer).map (MemoryBuffer.mk x.position)
  rw [hLength] at hBuffer
  exact (Reads.sizeT x.position target.position hFits).bind hBuffer

theorem Reads.loadChars (bytes : List Byte) : Reads (loadChars bytes.length) bytes bytes := by
  induction bytes with
  | nil => exact Reads.pure []
  | cons c bytes ih => exact (Reads.byte c 0).bind (ih.map (c :: ·))

theorem Appends.stdString (s : StdString) :
    Appends (fun bb => save bb s) (toBytes 8 s.bytes.length ++ s.bytes) :=
  (Appends.sizeT s.bytes.length).bind (Appends.saveBinary s.bytes)

theorem Reads.stdString (s target : StdString) (hFits : s.bytes.length < 256 ^ 8) :
    Reads (fun bb => load bb target) (toBytes 8 s.bytes.length ++ s.bytes) s :=
  (Reads.sizeT s.bytes.length 0 hFits).bind ((Reads.loadChars s.bytes).map StdString.mk)

end Henson
