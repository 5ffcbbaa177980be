import Henson.Data.NameMap
import Henson.Serialization.Transport
import Henson.Tools.SendReceive

/-!
# The messages of the tools `send` and `receive`

A sender writes one message for each partner: the scalars, and its slice of every
array, gathered element by element. A receiver reads the messages of its partners
in the order of their ranks. With one partner it publishes an array right away;
with several it appends the slices and publishes the arrays after the last message.
-/

namespace Henson.Tools

open LittleEndian MemoryBuffer

def ascii (s : String) : StdString := ⟨s.toList.map fun c => UInt8.ofNat c.toNat⟩

structure Variable where
  name : StdString
  type : StdString
  deriving DecidableEq

/-- `parse_variable`: the type is what follows the last colon. -/
def parseVariable (var : StdString) : Option Variable :=
  let isColon := fun c : Byte => c == 58
  let type := (var.bytes.reverse.takeWhile fun c => !isColon c).reverse
  match var.bytes.reverse.dropWhile fun c => !isColon c with
  | [] => none
  | _ :: name => some ⟨⟨name.reverse⟩, ⟨type⟩⟩

theorem parseVariable_eq_some {var : StdString} {v : Variable} :
    parseVariable var = some v ↔
      var.bytes = v.name.bytes ++ 58 :: v.type.bytes ∧ 58 ∉ v.type.bytes := by
  have hNotColon (c : Byte) : (!(c == 58)) = true ↔ c ≠ 58 := by simp
  constructor
  · intro h
    have hSplit := List.takeWhile_append_dropWhile (p := fun c : Byte => !(c == 58))
      (l := var.bytes.reverse)
    have hHead := List.head?_dropWhile_not (fun c : Byte => !(c == 58)) var.bytes.reverse
    cases hRest : var.bytes.reverse.dropWhile fun c : Byte => !(c == 58) with
    | nil => simp [parseVariable, hRest] at h
    | cons c name =>
      obtain rfl : _ = v := by simpa [parseVariable, hRest] using h
      have hColon : c = 58 := by simpa [hRest] using hHead
      refine ⟨List.reverse_injective ?_, fun hMem => ?_⟩
      · rw [hRest, hColon] at hSplit
        simpa using hSplit.symm
      · rw [List.mem_reverse] at hMem
        have hNot := List.mem_takeWhile_imp hMem
        exact (hNotColon 58).mp hNot rfl
  · rintro ⟨hBytes, hType⟩
    have hSkip : ∀ c ∈ v.type.bytes.reverse, (!(c == 58)) = true := fun c hc =>
      (hNotColon c).mpr fun hColon => hType (hColon ▸ List.mem_reverse.mp hc)
    have hReverse : var.bytes.reverse = v.type.bytes.reverse ++ 58 :: v.name.bytes.reverse := by
      rw [hBytes]
      simp
    simp [parseVariable, hReverse, List.takeWhile_append_of_pos hSkip,
      List.dropWhile_append_of_pos hSkip]

/-- The `getline` loop of `split`, in the middle of an item. -/
def splitFrom (delim : Byte) (item : List Byte) : List Byte → List StdString
  | [] => if item.isEmpty then [] else [⟨item⟩]
  | c :: s =>
    if c = delim then ⟨item⟩ :: splitFrom delim [] s else splitFrom delim (item ++ [c]) s

def split (s : StdString) (delim : Byte) : List StdString := splitFrom delim [] s.bytes

inductive ScalarType where
  | int | sizeT | float | double
  deriving DecidableEq

namespace ScalarType

def word : ScalarType → StdString
  | int => ascii "int"
  | sizeT => ascii "size_t"
  | float => ascii "float"
  | double => ascii "double"

def size : ScalarType → Nat
  | int => 4
  | sizeT => 8
  | float => 4
  | double => 8

/-- The bytes of a value; `none` where the variant holds another alternative. -/
def encode : ScalarType → Value → Option (List Byte)
  | int, .int x => some (toBytes 4 x.toUInt32.toNat)
  | sizeT, .sizeT x => some (toBytes 8 x.toNat)
  | float, .float x => some (toBytes 4 x.toNat)
  | double, .double x => some (toBytes 8 x.toNat)
  | _, _ => none

def decode : ScalarType → List Byte → Value
  | int, bytes => .int (UInt32.ofNat (ofBytes bytes)).toInt32
  | sizeT, bytes => .sizeT (UInt64.ofNat (ofBytes bytes))
  | float, bytes => .float (UInt32.ofNat (ofBytes bytes))
  | double, bytes => .double (UInt64.ofNat (ofBytes bytes))

end ScalarType

/-- One value or one array that a variable names. -/
inductive Slot where
  | scalar (t : ScalarType) (name : StdString)
  | array (name : StdString)
  deriving DecidableEq

def Slot.name : Slot → StdString
  | scalar _ name => name
  | array name => name

def Slot.array? : Slot → Option StdString
  | scalar _ _ => none
  | array name => some name

/-- What the tools do for a variable, by its type; nothing for an unknown one. -/
def Variable.slots (var : Variable) : List Slot :=
  match [ScalarType.int, .sizeT, .float, .double].find? fun t => var.type = t.word with
  | some t => [.scalar t var.name]
  | none => if var.type = ascii "array" then (split var.name 44).map .array else []

def slots (vars : List Variable) : List Slot := vars.flatMap Variable.slots

def arrayNames (vars : List Variable) : List StdString := (slots vars).filterMap Slot.array?

/-- `write`: what `save_binary` does, with the vector and the position in two variables. -/
abbrev write (bb : MemoryBuffer) (x : List Byte) : MemoryBuffer := bb.saveBinary x

/-- `read`: what `load_binary` does. -/
abbrev read (bb : MemoryBuffer) (count : Nat) : Option (List Byte × MemoryBuffer) :=
  bb.loadBinary count

/-- `henson_load_array`; another alternative of the variant throws. -/
def hensonLoadArray (nm : NameMap) (name : StdString) : Option (Array × NameMap) := do
  match ← nm.get name with
  | (.array a, nm) => some (a, nm)
  | _ => none

/-- Which part of every array a message carries. -/
structure Slice where
  r : Nat
  partners : Nat
  fraction : Nat

namespace Slice

def start (s : Slice) (count : Nat) : Nat := s.r * (count / s.fraction)

def stop (s : Slice) (count : Nat) : Nat :=
  if s.r + 1 = s.partners then count else (s.r + 1) * (count / s.fraction)

end Slice

def packSlot (s : Slice) (st : MemoryBuffer × NameMap) : Slot → Option (MemoryBuffer × NameMap)
  | .scalar t name => do
    let (x, nm) ← st.2.get name
    return (write st.1 (← t.encode x), nm)
  | .array name => do
    let (a, nm) ← hensonLoadArray st.2 name
    let first := s.start a.count.toNat
    let last := s.stop a.count.toNat
    let bb := write st.1 (toBytes 8 (last - first))
    let bb := write bb (toBytes 8 a.type.toNat)
    -- the elements one by one, as for a serialized array
    return (← a.saveElements bb first (last - first), nm)

def packMessage (vars : List Variable) (s : Slice) (nm : NameMap) :
    Option (MemoryBuffer × NameMap) :=
  (slots vars).foldlM (packSlot s) ({}, nm)

def sendFraction (size remoteSize : Nat) : Nat :=
  if size ≥ remoteSize then 1 else remoteSize / size

/-- The loop over the partners from the `r`-th on. -/
def sendFrom (vars : List Variable) (partners fraction : Nat) :
    Nat → List Nat → NameMap → Option (List (Nat × List Byte) × NameMap)
  | _, [], nm => some ([], nm)
  | r, rank :: ranks, nm => do
    let (bb, nm) ← packMessage vars ⟨r, partners, fraction⟩ nm
    let message ← bb.send
    let (sends, nm) ← sendFrom vars partners fraction (r + 1) ranks nm
    return ((rank, message) :: sends, nm)

/-- A value or a slice of an array as a message has it. -/
inductive Field where
  | scalar (name : StdString) (t : ScalarType) (x : Value)
  | array (name : StdString) (type count : UInt64) (data : List Byte)
  deriving DecidableEq

def readSlot (bb : MemoryBuffer) : Slot → Option (Field × MemoryBuffer)
  | .scalar t name => do
    let (bytes, bb) ← read bb t.size
    return (.scalar name t (t.decode bytes), bb)
  | .array name => do
    let (count, bb) ← read bb 8
    let (type, bb) ← read bb 8
    let count := UInt64.ofNat (ofBytes count)
    let type := UInt64.ofNat (ofBytes type)
    let (data, bb) ← read bb (count * type).toNat
    return (.array name type count data, bb)

/-- An entry of `arrays` and the entry of `arrays_meta` beside it. -/
structure Gathered where
  bytes : List Byte := []
  count : UInt64 := 0
  type : UInt64 := 0
  deriving DecidableEq

/-- Elements one after another, as `henson_save_array` gets them. -/
def contiguous (type count : UInt64) (data : List Byte) : Array :=
  ⟨Array.voidPtr, data, 0, type, count, type⟩

def Gathered.append (g : Gathered) (type count : UInt64) (data : List Byte) : Gathered :=
  { bytes := g.bytes ++ data, count := g.count + count, type := type }

/-- The arrays gathered so far, the index of the next one in the message, and what was
saved into the name map, in this order. -/
structure Unpacking where
  arrayIdx : Nat := 0
  arrays : List Gathered
  saves : List (StdString × Value) := []

def Unpacking.publish (single : Bool) (u : Unpacking) : Field → Unpacking
  | .scalar name _ x => { u with saves := u.saves ++ [(name, x)] }
  | .array name type count data =>
    if single then
      { u with
        arrayIdx := u.arrayIdx + 1
        saves := u.saves ++ [(name, .array (contiguous type count data))] }
    else
      { u with
        arrayIdx := u.arrayIdx + 1
        arrays := u.arrays.modify u.arrayIdx fun g => g.append type count data }

def unpackSlots (single : Bool) :
    List Slot → MemoryBuffer → Unpacking → Option (Unpacking × MemoryBuffer)
  | [], bb, u => some (u, bb)
  | slot :: rest, bb, u => do
    let (f, bb) ← readSlot bb slot
    unpackSlots single rest bb (u.publish single f)

def unpackMessages (single : Bool) (vars : List Variable) :
    List (List Byte) → Unpacking → Option Unpacking
  | [], u => some u
  | message :: rest, u => do
    let (u, _) ← unpackSlots single (slots vars) (recv message) { u with arrayIdx := 0 }
    unpackMessages single vars rest u

/-- The saves of the arrays that several partners sent. -/
def savesOf (names : List StdString) (arrays : List Gathered) : List (StdString × Value) :=
  List.zipWith (fun name g => (name, .array (contiguous g.type g.count g.bytes))) names arrays

/-- One turn of the receive loop after the messages have come: the saves it makes. -/
def unpackRound (vars : List Variable) (messages : List (List Byte)) :
    Option (List (StdString × Value)) := do
  let names := arrayNames vars
  let single := messages.length == 1
  let u ← unpackMessages single vars messages { arrays := List.replicate names.length {} }
  return if single then u.saves else u.saves ++ savesOf names u.arrays

structure Round (x : Exchange) where
  vars : List Variable
  senders : Nat → NameMap
  receivers : Nat → NameMap

namespace Round

variable {x : Exchange} (round : Round x)

def sends (rank : Nat) : Option (List (Nat × List Byte)) := do
  let ranks := x.sendRanks rank
  let (sends, _) ← sendFrom round.vars ranks.length (sendFraction x.senders x.receivers) 0 ranks
    (round.senders rank)
  return sends

def message (sender receiver : Nat) : Option (List Byte) := do
  (← round.sends sender).lookup receiver

/-- What a receiver saves into its name map, in this order. -/
def published (rank : Nat) : Option (List (StdString × Value)) := do
  let messages ← (x.receiveRanks rank).mapM fun sender => round.message sender rank
  unpackRound round.vars messages

def received (rank : Nat) : Option NameMap := do
  let saves ← round.published rank
  return saves.foldl (fun nm save => nm.add save.1 save.2) (round.receivers rank)

end Round

end Henson.Tools
