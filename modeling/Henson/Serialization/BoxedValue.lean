import Henson.Serialization.MemoryBuffer

/-!
# Arrays and boxed values

An `Array` is a pointer, an element size, a count and a stride. What can be
read through the pointer is modelled by the bytes it points into and the place of
the address among them; a stride may lead in either direction, since sums and products
are those of `size_t`. `saveBoxed` writes a boxed value behind a tag for its type,
and `loadBoxed` reads it back.
-/

namespace Henson

open LittleEndian MemoryBuffer

structure Array where
  /-- Which pointer type the variant `address` holds. -/
  index : Fin 5 := 0
  memory : List Byte := []
  /-- The place of the address in `memory`. -/
  offset : UInt64 := 0
  type : UInt64 := 0
  count : UInt64 := 0
  stride : UInt64 := 0
  deriving DecidableEq

namespace Array

/-- The first alternative of the variant `address`. -/
def voidPtr : Fin 5 := 0

def floatPtr : Fin 5 := 1

def doublePtr : Fin 5 := 2

def intPtr : Fin 5 := 3

def longPtr : Fin 5 := 4

/-- `type` bytes at `void_ptr() + i*stride`; undefined where one of them does not exist. -/
def element? (a : Array) (i : Nat) : Option (List Byte) :=
  let start := (a.offset + UInt64.ofNat i * a.stride).toNat
  if a.type.toNat = 0 then some []
  else if start + a.type.toNat ≤ a.memory.length then
    some ((a.memory.drop start).take a.type.toNat)
  else none

def elementsFrom (a : Array) (i : Nat) : Nat → Option (List (List Byte))
  | 0 => some []
  | n + 1 => do
    let x ← a.element? i
    let xs ← a.elementsFrom (i + 1) n
    return x :: xs

def elements (a : Array) : Option (List (List Byte)) := a.elementsFrom 0 a.count.toNat

def byteCount (a : Array) : Nat := a.count.toNat * a.type.toNat

def saveElements (a : Array) (bb : MemoryBuffer) (i : Nat) : Nat → Option MemoryBuffer
  | 0 => some bb
  | n + 1 => do
    let x ← a.element? i
    a.saveElements (bb.saveBinary x) (i + 1) n

end Array

instance : Serialization Array where
  save bb x := do
    let bb ← save bb (UInt64.ofNat x.index.val)
    let bb ← save bb x.type
    let bb ← save bb x.count
    x.saveElements bb 0 x.count.toNat
  load bb x := do
    let (index, bb) ← load bb (0 : UInt64)
    let (type, bb) ← load bb x.type
    let (count, bb) ← load bb x.count
    let (storage, bb) ← bb.loadBinary (count * type).toNat
    -- an index without an alternative leaves the address alone
    if h : index.toNat < 5 then
      return (⟨⟨index.toNat, h⟩, storage, 0, type, count, type⟩, bb)
    else
      return ({ x with type := type, count := count, stride := type }, bb)

/-- `chaiscript::Boxed_Value`, by the type it was boxed as. Floating-point
values are their bit patterns; `other` stands for every type without a tag. -/
inductive BoxedValue where
  | int (i : Int32)
  | float (f : UInt32)
  | double (d : UInt64)
  | sizeT (s : UInt64)
  | string (s : StdString)
  | array (a : Array)
  | vector (v : List BoxedValue)
  | undef
  | bool (b : Bool)
  | other

namespace BoxedValue

inductive Tag where
  | int | float | double | sizeT | string | array | vector | undef
  deriving DecidableEq

def Tag.code : Tag → Int32
  | int => 0 | float => 1 | double => 2 | sizeT => 3
  | string => 4 | array => 5 | vector => 6 | undef => 7

def Tag.ofCode? (n : Int32) : Option Tag :=
  [Tag.int, float, double, sizeT, string, array, vector, undef].find? fun t => t.code = n

end BoxedValue

open BoxedValue (Tag)

mutual
/-- `Serialization<Boxed_Value>::save`; `none` where the source throws. -/
def saveBoxed (bb : MemoryBuffer) : BoxedValue → Option MemoryBuffer
  | .int i => do save (← save bb Tag.int.code) i
  | .float f => do save (← save bb Tag.float.code) f
  | .double d => do save (← save bb Tag.double.code) d
  | .sizeT s => do save (← save bb Tag.sizeT.code) s
  | .string s => do save (← save bb Tag.string.code) s
  | .vector v => do
    let bb ← save bb Tag.vector.code
    let bb ← save bb v.length
    saveBoxedArray bb v
  | .array a => do save (← save bb Tag.array.code) a
  | .undef => save bb Tag.undef.code
  | .bool _ => none
  | .other => none

/-- `save(bb, x, n)` for boxed values: element by element, since their serialization is specialized. -/
def saveBoxedArray (bb : MemoryBuffer) : List BoxedValue → Option MemoryBuffer
  | [] => some bb
  | x :: xs => do saveBoxedArray (← saveBoxed bb x) xs
end

/-- `load(bb, x, n)` for a specialized element type. -/
def loadArray {α : Type} (loadOne : MemoryBuffer → Option (α × MemoryBuffer)) :
    Nat → MemoryBuffer → Option (List α × MemoryBuffer)
  | 0, bb => some ([], bb)
  | n + 1, bb => do
    let (x, bb) ← loadOne bb
    let (xs, bb) ← loadArray loadOne n bb
    return (x :: xs, bb)

/-- `Serialization<Boxed_Value>::load`, nested at most `fuel` deep. -/
def loadBoxed : Nat → MemoryBuffer → Option (BoxedValue × MemoryBuffer)
  | 0, _ => none
  | fuel + 1, bb => do
    let (tag, bb) ← load bb (0 : Int32)
    match Tag.ofCode? tag with
    | some .int => do let (i, bb) ← load bb (0 : Int32); return (.int i, bb)
    | some .float => do let (f, bb) ← load bb (0 : UInt32); return (.float f, bb)
    | some .double => do let (d, bb) ← load bb (0 : UInt64); return (.double d, bb)
    | some .sizeT => do let (s, bb) ← load bb (0 : UInt64); return (.sizeT s, bb)
    | some .string => do let (s, bb) ← load bb (StdString.mk []); return (.string s, bb)
    | some .vector => do
      let (s, bb) ← load bb 0
      let (v, bb) ← loadArray (loadBoxed fuel) s bb
      return (.vector v, bb)
    | some .array => do let (a, bb) ← load bb ({} : Array); return (.array a, bb)
    | some .undef => return (.undef, bb)
    | none => none

/-- Every level of nesting reads a tag, so the bytes of the buffer bound the nesting. -/
instance : Serialization BoxedValue where
  save := saveBoxed
  load bb _ := loadBoxed (bb.buffer.length + 1) bb

end Henson
