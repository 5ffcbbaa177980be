import Henson.Data.Storage

/-!
# The views of an array

Printing, copying and serializing an array go from element to element by its stride. The
operator `[]` goes by the size of the element type, so it finds other bytes in an array
with gaps.
-/

namespace Henson

open LittleEndian MachineInt Memory MemoryBuffer

namespace StoredArray

/-- `sizeof` of what the pointer types of the variant point to. -/
def elementSize : Fin 5 → UInt64
  | 0 => 0
  | 1 => 4
  | 2 => 8
  | 3 => 4
  | 4 => 8

/-- An array of `float`, `double`, `int` or `long`. -/
def Typed (a : StoredArray) : Prop := a.index ≠ Array.voidPtr ∧ a.type = elementSize a.index

/-- `*(x + i)`, as the bytes of the value; a generic array throws. -/
def bracket (a : StoredArray) (m : Memory) (i : Int32) : Option (List Byte) :=
  if a.index = Array.voidPtr then none
  else
    m.readBytes (a.pointer.add (i.toInt64.toUInt64 * elementSize a.index))
      (elementSize a.index).toNat

/-- The loop of `convert` from the pointer `x` and the index `i` on, where `text` is `to_string`. -/
def convertFrom (text : List Byte → String) (m : Memory) (size : Nat) (count stride : UInt64)
    (x : Pointer) (i : Nat) : Nat → Option String
  | 0 => some ""
  | n + 1 => do
    let value ← m.readBytes x size
    let rest ← convertFrom text m size count stride (x.add stride) (i + 1) n
    return text value ++ (if UInt64.ofNat i ≠ count - 1 then ", " else "") ++ rest

def convert (text : List Byte → String) (m : Memory) (size : Nat) (x : Pointer)
    (count stride : UInt64) : Option String := do
  return "[" ++ (← convertFrom text m size count stride x 0 count.toNat) ++ "]"

def typeName : Fin 5 → String
  | 0 => "Array<void*>"
  | 1 => "Array<float*>"
  | 2 => "Array<double*>"
  | 3 => "Array<int*>"
  | 4 => "Array<long*>"

def toText (text : Fin 5 → List Byte → String) (a : StoredArray) (m : Memory) : Option String :=
  if a.index = Array.voidPtr then
    some (typeName a.index ++ " with " ++ toString a.count ++ " elements")
  else
    (convert (text a.index) m (elementSize a.index).toNat a.pointer a.count a.stride).map
      (typeName a.index ++ ·)

def save (a : StoredArray) (m : Memory) (bb : MemoryBuffer) : Option MemoryBuffer :=
  Henson.save bb (a.view m)

def load (x : StoredArray) (m : Memory) (bb : MemoryBuffer) :
    Option ((StoredArray × Memory) × MemoryBuffer) := do
  let (index, bb) ← Henson.load bb (0 : UInt64)
  let (type, bb) ← Henson.load bb x.type
  let (count, bb) ← Henson.load bb x.count
  let size := (count * type).toNat
  let fresh := m.length
  -- a vector throws beyond its maximal size
  if size < 2 ^ 63 then
    let m := (m.makeShared size).release x.storage
    let (bytes, bb) ← bb.loadBinary size
    let m ← m.writeBytes ⟨fresh, 0⟩ bytes
    let x := { x with type := type, count := count, stride := type, storage := some fresh }
    -- an index without an alternative leaves the address alone
    if h : index.toNat < 5 then
      return (({ x with index := ⟨index.toNat, h⟩, pointer := ⟨fresh, 0⟩ }, m), bb)
    else
      return ((x, m), bb)
  else none

section Views

variable {a : StoredArray} {m : Memory} {es : List (List Byte)}

def joined (text : List Byte → String) : List (List Byte) → String
  | [] => ""
  | [x] => text x
  | x :: y :: xs => text x ++ ", " ++ joined text (y :: xs)

theorem add_stride (a : StoredArray) (i : Nat) :
    (a.pointer.add (UInt64.ofNat i * a.stride)).add a.stride =
      a.pointer.add (UInt64.ofNat (i + 1) * a.stride) := by
  rw [Pointer.add, Pointer.add, Pointer.add, UInt64.ofNat_add, UInt64.add_mul, UInt64.add_assoc]
  simp

theorem convertFrom_eq (text : List Byte → String) {i n : Nat} (hCount : a.count.toNat = i + n)
    (hElements : a.elementsFrom m i n = some es) :
    convertFrom text m a.type.toNat a.count a.stride (a.pointer.add (UInt64.ofNat i * a.stride)) i
      n = some (joined text es) := by
  induction n generalizing i es with
  | zero =>
    obtain rfl := Option.some.inj hElements
    rfl
  | succ n ih =>
    obtain ⟨x, hx, hRest⟩ := Option.bind_eq_some_iff.mp hElements
    obtain ⟨xs, hxs, hAll⟩ := Option.bind_eq_some_iff.mp hRest
    obtain rfl := Option.some.inj hAll
    have hRead : m.readBytes (a.pointer.add (UInt64.ofNat i * a.stride)) a.type.toNat = some x := hx
    have hTail := ih (by omega) hxs
    have hLength := (elementsFrom_eq_some_iff.mp hxs).1
    have hLast : UInt64.ofNat i ≠ a.count - 1 ↔ xs ≠ [] := by
      have hBound := a.count.toNat_lt
      have hOne : (1 : UInt64) ≤ a.count := by
        rw [UInt64.le_iff_toNat_le, hCount]
        exact Nat.le_trans (Nat.succ_le_succ (Nat.zero_le n)) (Nat.le_add_left _ _)
      rw [ne_eq, ← UInt64.toNat_inj, UInt64.toNat_ofNat', UInt64.toNat_sub_of_le _ _ hOne,
        Nat.mod_eq_of_lt (by omega), hCount, ← List.length_pos_iff]
      simp only [UInt64.toNat_one]
      omega
    rw [convertFrom, hRead, add_stride, hTail]
    cases xs with
    | nil => simp [hLast, joined]
    | cons y xs => simp [hLast, joined]

theorem toText_eq (text : Fin 5 → List Byte → String) (hTyped : a.Typed)
    (hElements : a.elements m = some es) :
    a.toText text m = some (typeName a.index ++ ("[" ++ joined (text a.index) es ++ "]")) := by
  have hLoop := convertFrom_eq (text a.index) (Nat.zero_add _).symm hElements
  have hStart : a.pointer.add (UInt64.ofNat 0 * a.stride) = a.pointer := by simp [Pointer.add]
  rw [hStart, hTyped.2] at hLoop
  rw [toText, if_neg hTyped.1, convert, hLoop]
  rfl

def encoded (a : StoredArray) (es : List (List Byte)) : List Byte :=
  toBytes 8 a.index.val ++ (toBytes 8 a.type.toNat ++ (toBytes 8 a.count.toNat ++ es.flatten))

theorem toNat_index (a : StoredArray) : (UInt64.ofNat a.index.val).toNat = a.index.val := by
  rw [UInt64.toNat_ofNat']
  exact Nat.mod_eq_of_lt (by omega)

theorem Appends.storedArray (h : a.elements m = some es) :
    Appends (fun bb => a.save m bb) (a.encoded es) := by
  have hEncode : (a.view m).encode = some (a.encoded es) := by
    rw [Array.encode, elements_view, h]
    rfl
  exact Appends.array hEncode

theorem Reads.storedArray (hLength : es.length = a.count.toNat)
    (hWidth : ∀ x ∈ es, x.length = a.type.toNat) (hFits : a.byteCount < 2 ^ 63)
    {x : StoredArray} (hOwns : x.Owns m) :
    Reads (fun bb => x.load m bb) (a.encoded es)
      (a.copied m.length, m.release x.storage ++ [some ⟨es.flatten, some 1⟩]) := by
  have hBytes : es.flatten.length = (a.count * a.type).toNat := by
    rw [Slices.length_flatten hWidth, hLength, UInt64.toNat_mul]
    exact (Nat.mod_eq_of_lt (Nat.lt_trans hFits (by decide))).symm
  have hSmall : (a.count * a.type).toNat < 2 ^ 63 := by
    rwa [← hBytes, Slices.length_flatten hWidth, hLength]
  have hWrite : ((m.makeShared (a.count * a.type).toNat).release x.storage).writeBytes
      ⟨m.length, 0⟩ es.flatten = some (m.release x.storage ++ [some ⟨es.flatten, some 1⟩]) := by
    have hStart : (0 : UInt64).toNat = ([] : List Byte).length := rfl
    have hLast := writeBytes_last (m.release x.storage) []
      (List.replicate (a.count * a.type).toNat 0) es.flatten (some 1) hStart
      (Nat.le_of_eq (hBytes.trans List.length_replicate.symm))
    rw [length_release] at hLast
    rw [makeShared, release_append hOwns.lt_length]
    simpa [hBytes] using hLast
  have hIndex := toNat_index a
  have hIndexRead := Reads.uint64 (UInt64.ofNat a.index.val) 0
  rw [hIndex] at hIndexRead
  have hData : Reads (fun bb => bb.loadBinary (a.count * a.type).toNat) es.flatten es.flatten :=
    hBytes ▸ Reads.loadBinary es.flatten
  refine hIndexRead.bind ((Reads.uint64 a.type x.type).bind
    ((Reads.uint64 a.count x.count).bind ?_))
  simp only [if_pos hSmall]
  have hFinish := hData.bind (g := fun p => do
    let m' ← ((m.makeShared (a.count * a.type).toNat).release x.storage).writeBytes
      ⟨m.length, 0⟩ p.1
    return ((a.copied m.length, m'), p.2)) (by
      dsimp only
      rw [hWrite]
      exact Reads.pure _)
  rw [List.append_nil] at hFinish
  simpa [hIndex, copied] using hFinish

end Views

/-- How far from the address `[]` reads; its index is an `int`. -/
def bracketPlace (a : StoredArray) (i : Nat) : UInt64 :=
  (toInt32 i).toInt64.toUInt64 * elementSize a.index

/-- What `[]` returns at `i` is the `i`-th element that is printed, the `i`-th after `copy`, and
the `i`-th of the array that any array becomes by loading. -/
structure AgreesAt (a : StoredArray) (m : Memory) (i : Nat) (x : List Byte) : Prop where
  bracket : a.bracket m (toInt32 i) = some x
  printed : ∃ es : List (List Byte), es[i]? = some x ∧ ∀ text,
    a.toText text m = some (typeName a.index ++ ("[" ++ joined (text a.index) es ++ "]"))
  copied : ∃ a' m', a.copy m = some (a', m') ∧ a'.element? m' i = some x
  loaded : ∀ (y : StoredArray) (m₀ : Memory), y.Owns m₀ → ∃ saved a' m' rest,
    a.save m {} = some saved ∧ y.load m₀ saved.reset = some ((a', m'), rest) ∧
      a'.element? m' i = some x

def ViewsAgree (a : StoredArray) (m : Memory) : Prop :=
  ∀ i < a.count.toNat, ∃ x, a.AgreesAt m i x

/-- The same bytes lie where `[]` reads and where the stride leads. -/
def SameBytes (a : StoredArray) (m : Memory) : Prop :=
  ∀ i < a.count.toNat, m.readBytes (a.pointer.add (a.bracketPlace i)) a.type.toNat =
    m.readBytes (a.pointer.add (UInt64.ofNat i * a.stride)) a.type.toNat

section Agreement

variable {a : StoredArray} {m m' : Memory} {es : List (List Byte)} {i : Nat}

theorem bracket_eq (hTyped : a.Typed) (i : Nat) :
    a.bracket m (toInt32 i) =
      m.readBytes (a.pointer.add (a.bracketPlace i)) a.type.toNat := by
  rw [bracket, if_neg hTyped.1, bracketPlace, hTyped.2]

theorem bracketPlace_of_lt (h : i < 2 ^ 31) :
    a.bracketPlace i = UInt64.ofNat i * elementSize a.index := by
  rw [bracketPlace, ← Int64.ofInt_toInt (toInt32 i).toInt64, Int32.toInt_toInt64,
    toInt_toInt32_of_lt h, Int64.ofInt_eq_ofNat, Int64.toUInt64_ofNat']

theorem Typed.type_ne_zero (h : a.Typed) : a.type.toNat ≠ 0 := by
  obtain ⟨hIndex, hType⟩ := h
  rw [hType]
  generalize a.index = index at hIndex
  revert hIndex
  revert index
  decide

theorem agreesAt_of_sameBytes (hTyped : a.Typed) (hOwns : a.Owns m)
    (hElements : a.elements m = some es) (hSurvives : a.Survives m)
    (hFits : a.byteCount < 2 ^ 63) (hSame : a.SameBytes m) (hi : i < a.count.toNat) :
    ∃ x, a.AgreesAt m i x := by
  have hLength := (elementsFrom_eq_some_iff.mp hElements).1
  have hWidth := width_of_elementsFrom hElements
  obtain ⟨x, hx, hElement⟩ := exists_element hElements hi
  have hThere : ∀ {b : StoredArray} {m' : Memory}, b.elements m' = some es →
      b.count = a.count → b.element? m' i = some x := by
    intro b m' hRow hCount
    obtain ⟨y, hy, hElement'⟩ := exists_element hRow (hCount ▸ hi)
    rw [hElement', ← hy, hx]
  refine ⟨x, ?_, ?_, ?_, ?_⟩
  · rw [bracket_eq hTyped, hSame i hi]
    exact hElement
  · exact ⟨es, hx, fun text => toText_eq text hTyped hElements⟩
  · have hCopy := copy_eq hOwns hElements (.inr ⟨hSurvives, hFits⟩)
    obtain ⟨-, -, hCopied⟩ := copied_of_copy hOwns hElements hCopy
    exact ⟨_, _, hCopy, hThere hCopied rfl⟩
  · intro y m₀ hOwns₀
    have hSave := Appends.storedArray hElements []
    have hLoad := Reads.storedArray hLength hWidth hFits hOwns₀ [] []
    have hBlock : block? (m₀.release y.storage ++ [some ⟨es.flatten, some 1⟩]) m₀.length =
        some ⟨es.flatten, some 1⟩ := by
      rw [← length_release m₀ y.storage, block?_last]
    have hRow := elements_of_row hLength hWidth (Nat.lt_trans hFits (by decide)) hBlock
    rw [List.append_nil, List.nil_append] at hLoad
    exact ⟨_, _, _, _, hSave, hLoad, hThere hRow rfl⟩

theorem viewsAgree_iff_sameBytes (hTyped : a.Typed) (hOwns : a.Owns m)
    (hElements : a.elements m = some es) :
    a.ViewsAgree m ↔
      a.count = 0 ∨ a.Survives m ∧ a.byteCount < 2 ^ 63 ∧ a.SameBytes m := by
  constructor
  · intro h
    rcases Nat.eq_zero_or_pos a.count.toNat with hZero | hPos
    · exact .inl (UInt64.toNat_inj.mp hZero)
    · right
      have hBytes : a.byteCount ≠ 0 := Nat.mul_ne_zero (Nat.ne_of_gt hPos) hTyped.type_ne_zero
      obtain ⟨x, hFirst⟩ := h 0 hPos
      obtain ⟨a', m', hCopy, -⟩ := hFirst.copied
      obtain ⟨hSurvives, hFits⟩ := survives_of_copy hOwns hBytes hCopy
      refine ⟨hSurvives, hFits, fun i hi => ?_⟩
      obtain ⟨x, hAgrees⟩ := h i hi
      obtain ⟨a', m', hCopy, hCopied⟩ := hAgrees.copied
      obtain ⟨rfl, -, hRow⟩ := copied_of_copy hOwns hElements hCopy
      obtain ⟨y, hy, hThere⟩ := exists_element hRow hi
      obtain ⟨z, hz, hHere⟩ := exists_element hElements hi
      rw [← bracket_eq hTyped, hAgrees.bracket, ← hCopied, hThere, ← hy, hz]
      exact hHere.symm
  · rintro (hZero | ⟨hSurvives, hFits, hSame⟩) i hi
    · rw [hZero] at hi
      exact absurd hi (Nat.not_lt_zero i)
    · exact agreesAt_of_sameBytes hTyped hOwns hElements hSurvives hFits hSame hi

end Agreement

/-- The same blocks, with the same sizes and owners; the bytes may be others. -/
def SameShape (m m' : Memory) : Prop :=
  ∀ b, (m'.block? b).map (fun block => (block.bytes.length, block.owners)) =
    (m.block? b).map fun block => (block.bytes.length, block.owners)

/-- All bytes of the block are zero but the one at `place`. -/
def marked (m : Memory) (b place : Nat) : Memory :=
  m.modify b fun block => block.map fun old =>
    { old with bytes := (List.replicate old.bytes.length 0).set place 1 }

section Shape

variable {a : StoredArray} {m m' : Memory} {es : List (List Byte)}

theorem SameShape.symm (h : SameShape m m') : SameShape m' m := fun b => (h b).symm

theorem exists_block_of_shape (h : SameShape m m') {b : Nat} {block : Block}
    (hBlock : m.block? b = some block) :
    ∃ bytes, bytes.length = block.bytes.length ∧ m'.block? b = some ⟨bytes, block.owners⟩ := by
  have hSame := h b
  rw [hBlock] at hSame
  obtain ⟨⟨bytes, owners⟩, hBlock', hPair⟩ := Option.map_eq_some_iff.mp hSame
  obtain ⟨hLength, rfl⟩ := Prod.mk.inj hPair
  exact ⟨bytes, hLength, hBlock'⟩

theorem Owns.of_shape (h : SameShape m m') (hOwns : a.Owns m) : a.Owns m' := by
  intro b hb
  obtain ⟨bytes, owners, hBlock⟩ := hOwns b hb
  obtain ⟨bytes', -, hBlock'⟩ := exists_block_of_shape h hBlock
  exact ⟨bytes', owners, hBlock'⟩

theorem Survives.of_shape (h : SameShape m m') (hSurvives : a.Survives m) :
    a.Survives m' := by
  intro block hStorage hBlock
  obtain ⟨bytes, -, hOld⟩ := exists_block_of_shape h.symm hBlock
  exact hSurvives ⟨bytes, block.owners⟩ hStorage hOld

theorem element?_isSome_of_shape (h : SameShape m m') (hType : a.type.toNat ≠ 0) {i : Nat}
    {x : List Byte} (hElement : a.element? m i = some x) : (a.element? m' i).isSome := by
  obtain ⟨block, hBlock, hBound, -⟩ := exists_of_readBytes hType hElement
  obtain ⟨bytes, hLength, hBlock'⟩ := exists_block_of_shape h hBlock
  rw [← hLength] at hBound
  rw [element?, readBytes, if_neg hType, hBlock', Option.bind_eq_bind, Option.bind_some,
    if_pos hBound]
  rfl

theorem exists_elements_of_shape (h : SameShape m m') (hType : a.type.toNat ≠ 0)
    (hElements : a.elements m = some es) : ∃ es', a.elements m' = some es' := by
  have hSome : ∀ n i, (∀ j < n, (a.element? m' (i + j)).isSome) →
      ∃ es', a.elementsFrom m' i n = some es' := by
    intro n
    induction n with
    | zero => exact fun i _ => ⟨[], rfl⟩
    | succ n ih =>
      intro i hEach
      obtain ⟨x, hx⟩ := Option.isSome_iff_exists.mp (hEach 0 (Nat.succ_pos n))
      obtain ⟨xs, hxs⟩ := ih (i + 1) fun j hj => by
        have hNext := hEach (j + 1) (Nat.succ_lt_succ hj)
        rwa [← Nat.add_assoc, Nat.add_right_comm] at hNext
      rw [Nat.add_zero] at hx
      exact ⟨x :: xs, by rw [elementsFrom, hx, hxs]; rfl⟩
  apply hSome
  intro j hj
  obtain ⟨x, -, hElement⟩ := exists_element hElements hj
  rw [Nat.zero_add]
  exact element?_isSome_of_shape h hType hElement

theorem block?_marked (m : Memory) (b place c : Nat) :
    (marked m b place).block? c =
      if b = c then (m.block? c).map fun old =>
        { old with bytes := (List.replicate old.bytes.length 0).set place 1 }
      else m.block? c := by
  rw [block?, block?, marked, List.getElem?_modify]
  cases m[c]? with
  | none => simp
  | some block =>
    split
    · rfl
    · rfl

theorem sameShape_marked (m : Memory) (b place : Nat) : SameShape m (marked m b place) := by
  intro c
  rw [block?_marked]
  split
  · rw [Option.map_map]
    simp [Function.comp_def]
  · rfl

theorem head_of_readBytes {p : Pointer} {n : Nat} {x : List Byte} {block : Block} (hn : n ≠ 0)
    (hBlock : m.block? p.block = some block) (h : m.readBytes p n = some x) :
    x[0]? = block.bytes[p.offset.toNat]? := by
  obtain ⟨block', hBlock', -, rfl⟩ := exists_of_readBytes hn h
  obtain rfl := Option.some.inj (hBlock.symm.trans hBlock')
  rw [List.getElem?_take_of_lt (Nat.pos_of_ne_zero hn), List.getElem?_drop, Nat.add_zero]

/-- A byte that only the stride leads to tells the two places apart. -/
theorem not_sameBytes_marked (hTyped : a.Typed) (hElements : a.elements m = some es) {i : Nat}
    (hi : i < a.count.toNat) (hPlace : UInt64.ofNat i * a.stride ≠ a.bracketPlace i) :
    ¬ a.SameBytes
      (marked m a.pointer.block (a.pointer.offset + UInt64.ofNat i * a.stride).toNat) := by
  intro hSame
  have hWidth := hTyped.type_ne_zero
  obtain ⟨x, -, hElement⟩ := exists_element hElements hi
  obtain ⟨block, hBlock, hBound, -⟩ := exists_of_readBytes hWidth hElement
  have hMarked := block?_marked m a.pointer.block
    (a.pointer.offset + UInt64.ofNat i * a.stride).toNat a.pointer.block
  rw [if_pos rfl, show m.block? a.pointer.block = some block from hBlock, Option.map_some]
    at hMarked
  have hShape := sameShape_marked m a.pointer.block
    (a.pointer.offset + UInt64.ofNat i * a.stride).toNat
  obtain ⟨y, hy⟩ := Option.isSome_iff_exists.mp (element?_isSome_of_shape hShape hWidth hElement)
  have hHere := head_of_readBytes (p := a.pointer.add _) hWidth hMarked hy
  have hThere := head_of_readBytes (p := a.pointer.add _) hWidth hMarked ((hSame i hi).trans hy)
  have hOther : (a.pointer.offset + UInt64.ofNat i * a.stride).toNat ≠
      (a.pointer.offset + a.bracketPlace i).toNat :=
    fun hEq => hPlace ((UInt64.add_right_inj _).mp (UInt64.toNat_inj.mp hEq))
  rw [hHere] at hThere
  simp only [Pointer.add] at hThere hBound
  have hPos : 0 < a.type.toNat := Nat.pos_of_ne_zero hWidth
  rw [List.getElem?_set_self (by rw [List.length_replicate]; omega),
    List.getElem?_set_ne hOther, List.getElem?_replicate] at hThere
  split at hThere
  · exact absurd (Option.some.inj hThere) (by decide)
  · cases hThere

/-- Beyond the indices of an `int`, `[]` reads in front of the address. -/
theorem bracketPlace_ne (hTyped : a.Typed) (hCount : 1 < a.count.toNat)
    (h : ¬ (a.stride = a.type ∧ a.count.toNat ≤ 2 ^ 31)) :
    ∃ i < a.count.toNat, UInt64.ofNat i * a.stride ≠ a.bracketPlace i := by
  by_cases hStride : a.stride = a.type
  · have hBeyond : 2 ^ 31 < a.count.toNat := Nat.lt_of_not_le fun hLe => h ⟨hStride, hLe⟩
    refine ⟨2 ^ 31, hBeyond, ?_⟩
    obtain ⟨hIndex, hType⟩ := hTyped
    rw [bracketPlace, hStride, hType]
    generalize a.index = index at hIndex
    revert hIndex
    revert index
    decide
  · refine ⟨1, hCount, ?_⟩
    rw [bracketPlace_of_lt (by decide), ← hTyped.2]
    simpa using hStride

theorem sameBytes_of_layout (hTyped : a.Typed)
    (h : a.count = 1 ∨ a.stride = a.type ∧ a.count.toNat ≤ 2 ^ 31) : a.SameBytes m := by
  intro i hi
  rcases h with hOne | ⟨hStride, hCount⟩
  · have hFirst : i = 0 := by
      rw [hOne] at hi
      exact Nat.lt_one_iff.mp hi
    rw [hFirst, bracketPlace_of_lt (by decide), show UInt64.ofNat 0 = 0 from rfl, UInt64.zero_mul,
      UInt64.zero_mul]
  · rw [bracketPlace_of_lt (by omega), hStride, hTyped.2]

end Shape

end StoredArray

/-- For every array of `int`, `long`, `float` or `double` whose elements can be read: the views
agree exactly if it is empty, or its storage is not given up by `copy`, its bytes fit into a
vector, and at every index the same bytes lie where `[]` reads and where the stride leads. They
agree whatever the bytes are exactly if, beyond that, it has one element, or no gaps and no index
that an `int` cannot hold. -/
theorem views_agree_iff {a : StoredArray} {m : Memory} (hTyped : a.Typed) (hOwns : a.Owns m)
    (hElements : (a.elements m).isSome) :
    (a.ViewsAgree m ↔ a.count = 0 ∨ a.Survives m ∧ a.byteCount < 2 ^ 63 ∧ a.SameBytes m) ∧
    ((∀ m', StoredArray.SameShape m m' → a.ViewsAgree m') ↔
      a.count = 0 ∨ a.Survives m ∧ a.byteCount < 2 ^ 63 ∧
        (a.count = 1 ∨ a.stride = a.type ∧ a.count.toNat ≤ 2 ^ 31)) := by
  obtain ⟨es, hEs⟩ := Option.isSome_iff_exists.mp hElements
  have hHere := StoredArray.viewsAgree_iff_sameBytes hTyped hOwns hEs
  have hIff : ∀ m', StoredArray.SameShape m m' → (a.ViewsAgree m' ↔
      a.count = 0 ∨ a.Survives m' ∧ a.byteCount < 2 ^ 63 ∧ a.SameBytes m') := by
    intro m' hShape
    obtain ⟨es', hEs'⟩ :=
      StoredArray.exists_elements_of_shape hShape hTyped.type_ne_zero hEs
    exact StoredArray.viewsAgree_iff_sameBytes hTyped (hOwns.of_shape hShape) hEs'
  refine ⟨hHere, ?_, ?_⟩
  · intro h
    rcases hHere.mp (h m fun _ => rfl) with hZero | ⟨hSurvives, hFits, -⟩
    · exact .inl hZero
    · by_contra hNot
      simp only [not_or, not_and, hSurvives, hFits, true_implies] at hNot
      obtain ⟨hCount, hOne, hLayout⟩ := hNot
      have hMany : 1 < a.count.toNat := by
        have hZero' : a.count.toNat ≠ 0 := fun h => hCount (UInt64.toNat_inj.mp h)
        have hOne' : a.count.toNat ≠ 1 := fun h => hOne (UInt64.toNat_inj.mp h)
        omega
      obtain ⟨i, hi, hPlace⟩ :=
        StoredArray.bracketPlace_ne hTyped hMany fun h => hLayout h.1 h.2
      have hShape := StoredArray.sameShape_marked m a.pointer.block
        (a.pointer.offset + UInt64.ofNat i * a.stride).toNat
      obtain ⟨-, -, hSame⟩ := ((hIff _ hShape).mp (h _ hShape)).resolve_left hCount
      exact StoredArray.not_sameBytes_marked hTyped hEs hi hPlace hSame
  · intro h m' hShape
    rw [hIff m' hShape]
    rcases h with hZero | ⟨hSurvives, hFits, hLayout⟩
    · exact .inl hZero
    · exact .inr ⟨hSurvives.of_shape hShape, hFits,
        StoredArray.sameBytes_of_layout hTyped hLayout⟩

/-- Two numbers, each the first field of a structure of two. -/
def fieldOfStructs : StoredArray × Memory :=
  ({ index := ⟨3, by decide⟩, pointer := ⟨0, 0⟩, type := 4, count := 2, stride := 8 },
    [some ⟨[1, 0, 0, 0, 9, 0, 0, 0, 2, 0, 0, 0, 9, 0, 0, 0], none⟩])

theorem views_agree_iff_run :
    (∀ m', StoredArray.SameShape fieldOfStructs.2 m' → fieldOfStructs.1.ViewsAgree m') ↔
      (2 : UInt64) = 0 ∨ fieldOfStructs.1.Survives fieldOfStructs.2 ∧
        fieldOfStructs.1.byteCount < 2 ^ 63 ∧
          ((2 : UInt64) = 1 ∨ (8 : UInt64) = 4 ∧ (2 : UInt64).toNat ≤ 2 ^ 31) :=
  (views_agree_iff (a := fieldOfStructs.1) (m := fieldOfStructs.2) ⟨by decide, rfl⟩
    (by rintro b hb; cases hb) (by decide)).2

/-- `[]` returns the second field of the first structure; printing and copying give the first
field of the second one. -/
theorem bracket_ignores_stride :
    fieldOfStructs.1.bracket fieldOfStructs.2 1 = some [9, 0, 0, 0] ∧
      fieldOfStructs.1.toText (fun _ x => toString (x.headD 0)) fieldOfStructs.2 =
        some "Array<int*>[1, 2]" ∧
      ((fieldOfStructs.1.copy fieldOfStructs.2).bind fun p => p.1.element? p.2 1) =
        some [2, 0, 0, 0] ∧
      ¬ fieldOfStructs.1.ViewsAgree fieldOfStructs.2 := by
  have hBracket : fieldOfStructs.1.bracket fieldOfStructs.2 1 = some [9, 0, 0, 0] := by decide
  have hCopied : ((fieldOfStructs.1.copy fieldOfStructs.2).bind fun p => p.1.element? p.2 1) =
      some [2, 0, 0, 0] := by decide
  refine ⟨hBracket, by decide, hCopied, fun h => ?_⟩
  obtain ⟨x, hAgrees⟩ := h 1 (by decide)
  obtain ⟨a', m', hCopy, hElement⟩ := hAgrees.copied
  have hx := hBracket.symm.trans hAgrees.bracket
  rw [hCopy, Option.bind_some] at hCopied
  have hSame := (hCopied.symm.trans hElement).trans hx.symm
  exact absurd hSame (by decide)

end Henson
