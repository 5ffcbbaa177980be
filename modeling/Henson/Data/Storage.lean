import Henson.Serialization.BoxedRoundTrip

/-!
# Arrays and the memory they point into

Memory is a row of blocks: foreign ones, and byte vectors that exist as long as they have
an owner. An array points into a block and may own one. `copy` gives its storage a new
vector before it reads the elements, so a vector that nobody else owns is gone by then.
-/

namespace Henson

/-- A block and a place in it; arithmetic is that of `size_t`. -/
structure Pointer where
  block : Nat
  offset : UInt64
  deriving DecidableEq

def Pointer.add (p : Pointer) (n : UInt64) : Pointer := { p with offset := p.offset + n }

/-- `owners` counts the shared pointers to a vector; foreign memory has none. -/
structure Block where
  bytes : List Byte
  owners : Option Nat := none
  deriving DecidableEq

/-- The blocks by their numbers; `none` where a vector was. -/
abbrev Memory := List (Option Block)

namespace Memory

def block? (m : Memory) (b : Nat) : Option Block := m[b]?.join

/-- Undefined where a byte does not exist. -/
def readBytes (m : Memory) (p : Pointer) (n : Nat) : Option (List Byte) :=
  if n = 0 then some []
  else do
    let block ← m.block? p.block
    if p.offset.toNat + n ≤ block.bytes.length then
      some ((block.bytes.drop p.offset.toNat).take n)
    else none

def writeBytes (m : Memory) (p : Pointer) (x : List Byte) : Option Memory :=
  if x.length = 0 then some m
  else do
    let block ← m.block? p.block
    let start := p.offset.toNat
    if start + x.length ≤ block.bytes.length then
      let bytes := block.bytes.take start ++ x ++ block.bytes.drop (start + x.length)
      some (m.set p.block (some { block with bytes := bytes }))
    else none

/-- `make_shared` of a vector of zero bytes, which gets the next number. -/
def makeShared (m : Memory) (n : Nat) : Memory := m ++ [some ⟨List.replicate n 0, some 1⟩]

/-- One owner less; the last one takes the vector with it. -/
def Block.release (block : Block) : Option Block :=
  match block.owners with
  | none => some block
  | some owners => if owners ≤ 1 then none else some { block with owners := some (owners - 1) }

/-- What becomes of the vector that a shared pointer held when it gets another one. -/
def release (m : Memory) : Option Nat → Memory
  | none => m
  | some b => m.modify b fun block => block.bind Block.release

end Memory

/-- `Array`, with its storage as the number of a block. -/
structure StoredArray where
  /-- Which pointer type the variant `address` holds. -/
  index : Fin 5 := 0
  pointer : Pointer
  type : UInt64 := 0
  count : UInt64 := 0
  stride : UInt64 := 0
  storage : Option Nat := none
  deriving DecidableEq

namespace StoredArray

def element? (a : StoredArray) (m : Memory) (i : Nat) : Option (List Byte) :=
  m.readBytes (a.pointer.add (UInt64.ofNat i * a.stride)) a.type.toNat

def elementsFrom (a : StoredArray) (m : Memory) (i : Nat) : Nat → Option (List (List Byte))
  | 0 => some []
  | n + 1 => do
    let x ← a.element? m i
    let xs ← a.elementsFrom m (i + 1) n
    return x :: xs

def elements (a : StoredArray) (m : Memory) : Option (List (List Byte)) :=
  a.elementsFrom m 0 a.count.toNat

/-- The loop of `copy`, into the block `fresh`. -/
def copyFrom (a : StoredArray) (fresh : Nat) (m : Memory) (i : Nat) : Nat → Option Memory
  | 0 => some m
  | n + 1 => do
    let x ← a.element? m i
    let m ← m.writeBytes ⟨fresh, UInt64.ofNat i * a.type⟩ x
    a.copyFrom fresh m (i + 1) n

def copy (a : StoredArray) (m : Memory) : Option (StoredArray × Memory) :=
  let size := (a.count * a.type).toNat
  let fresh := m.length
  -- a vector throws beyond its maximal size
  if size < 2 ^ 63 then do
    let m := (m.makeShared size).release a.storage
    let m ← a.copyFrom fresh m 0 a.count.toNat
    return ({ a with pointer := ⟨fresh, 0⟩, stride := a.type, storage := some fresh }, m)
  else none

/-- The array as the name map has it, next to the bytes of its block. -/
def view (a : StoredArray) (m : Memory) : Array where
  index := a.index
  memory := ((m.block? a.pointer.block).map Block.bytes).getD []
  offset := a.pointer.offset
  type := a.type
  count := a.count
  stride := a.stride

def Owns (a : StoredArray) (m : Memory) : Prop :=
  ∀ b, a.storage = some b → ∃ bytes owners, m.block? b = some ⟨bytes, some (owners + 1)⟩

/-- The elements are outside the storage, or somebody else owns it too. -/
def Survives (a : StoredArray) (m : Memory) : Prop :=
  ∀ block, a.storage = some a.pointer.block → m.block? a.pointer.block = some block →
    block.owners ≠ some 1

/-- `copy` is defined, keeps the elements and leaves them without gaps. -/
def KeepsElements (a : StoredArray) (m : Memory) : Prop :=
  ∃ a' m', a.copy m = some (a', m') ∧ a'.elements m' = a.elements m ∧ a'.stride = a.type

def KeepsElementsTwice (a : StoredArray) (m : Memory) : Prop :=
  ∃ a' m', a.copy m = some (a', m') ∧ a'.elements m' = a.elements m ∧ a'.stride = a.type ∧
    a'.KeepsElements m'

end StoredArray

namespace Memory

variable {m : Memory} {b : Nat} {block : Block} {x : Option Block}

theorem lt_length_of_block? (h : m.block? b = some block) : b < m.length := by
  by_contra hLe
  rw [block?, List.getElem?_eq_none (Nat.le_of_not_lt hLe)] at h
  cases h

theorem block?_append (h : b < m.length) (x : Option Block) :
    block? (m ++ [x]) b = m.block? b := by
  rw [block?, block?, List.getElem?_append_left h]

theorem block?_last (m : Memory) (x : Option Block) : block? (m ++ [x]) m.length = x := by
  rw [block?, List.getElem?_concat_length]
  rfl

theorem length_release (m : Memory) (storage : Option Nat) :
    (m.release storage).length = m.length := by
  cases storage with
  | none => rfl
  | some b => exact List.length_modify _ _ _

theorem block?_release (m : Memory) (b c : Nat) :
    (m.release (some b)).block? c =
      if b = c then (m.block? c).bind Block.release else m.block? c := by
  rw [block?, block?, release, List.getElem?_modify]
  cases hEntry : m[c]? with
  | none => simp
  | some block =>
    split
    · rfl
    · rfl

theorem release_append {storage : Option Nat} (h : ∀ b, storage = some b → b < m.length)
    (x : Option Block) : release (m ++ [x]) storage = m.release storage ++ [x] := by
  cases storage with
  | none => rfl
  | some b =>
    apply List.ext_getElem?
    intro c
    rw [release, release, List.getElem?_modify]
    rcases Nat.lt_or_ge c m.length with hc | hc
    · rw [List.getElem?_append_left hc, List.getElem?_append_left (by rwa [List.length_modify]),
        List.getElem?_modify]
    · have hOther : b ≠ c := Nat.ne_of_lt (Nat.lt_of_lt_of_le (h b rfl) hc)
      rw [List.getElem?_append_right hc, List.getElem?_append_right (by rwa [List.length_modify]),
        List.length_modify]
      simp [hOther]

theorem readBytes_congr {m m' : Memory} {p : Pointer}
    (h : (m.block? p.block).map Block.bytes = (m'.block? p.block).map Block.bytes) (n : Nat) :
    m.readBytes p n = m'.readBytes p n := by
  rw [readBytes, readBytes]
  cases hBlock : m.block? p.block with
  | none =>
    rw [hBlock] at h
    rw [Option.map_eq_none_iff.mp h.symm]
  | some block =>
    rw [hBlock] at h
    obtain ⟨block', hBlock', hBytes⟩ := Option.map_eq_some_iff.mp h.symm
    rw [hBlock']
    simp only [Option.bind_eq_bind, Option.bind_some, hBytes]

theorem exists_of_readBytes {p : Pointer} {n : Nat} {bytes : List Byte} (hn : n ≠ 0)
    (h : m.readBytes p n = some bytes) :
    ∃ block, m.block? p.block = some block ∧ p.offset.toNat + n ≤ block.bytes.length ∧
      bytes = (block.bytes.drop p.offset.toNat).take n := by
  rw [readBytes, if_neg hn] at h
  obtain ⟨block, hBlock, h⟩ := Option.bind_eq_some_iff.mp h
  obtain ⟨hBound, h⟩ := Option.ite_none_right_eq_some.mp h
  exact ⟨block, hBlock, hBound, (Option.some.inj h).symm⟩

theorem length_of_readBytes {p : Pointer} {n : Nat} {bytes : List Byte}
    (h : m.readBytes p n = some bytes) : bytes.length = n := by
  by_cases hn : n = 0
  · rw [readBytes, if_pos hn] at h
    rw [← Option.some.inj h, hn, List.length_nil]
  · obtain ⟨block, -, hBound, rfl⟩ := exists_of_readBytes hn h
    rw [List.length_take, List.length_drop]
    omega

theorem readBytes_append {p : Pointer} (h : p.block < m.length) (x : Option Block) (n : Nat) :
    readBytes (m ++ [x]) p n = m.readBytes p n :=
  readBytes_congr (by rw [block?_append h]) n

theorem writeBytes_last (m : Memory) (filled rest bytes : List Byte) (owners : Option Nat)
    {offset : UInt64} (hOffset : offset.toNat = filled.length) (hFits : bytes.length ≤ rest.length) :
    writeBytes (m ++ [some ⟨filled ++ rest, owners⟩]) ⟨m.length, offset⟩ bytes =
      some (m ++ [some ⟨filled ++ bytes ++ rest.drop bytes.length, owners⟩]) := by
  by_cases hEmpty : bytes.length = 0
  · obtain rfl := List.length_eq_zero_iff.mp hEmpty
    simp [writeBytes]
  · have hBound : filled.length + bytes.length ≤ (filled ++ rest).length := by
      rw [List.length_append]
      omega
    rw [writeBytes, if_neg hEmpty]
    dsimp only
    rw [block?_last, Option.bind_eq_bind, Option.bind_some, hOffset, if_pos hBound, List.take_left,
      List.drop_length_add_append, List.set_append_right _ _ (Nat.le_refl _), Nat.sub_self]
    rfl

end Memory

namespace StoredArray

open Memory

variable {a : StoredArray} {m m' : Memory} {i n : Nat} {es : List (List Byte)}

theorem element?_view (a : StoredArray) (m : Memory) (i : Nat) :
    (a.view m).element? i = a.element? m i := by
  rw [Array.element?, element?, readBytes, view]
  by_cases hType : a.type.toNat = 0
  · simp only [hType, if_true]
  · simp only [if_neg hType, Pointer.add]
    cases hBlock : m.block? a.pointer.block with
    | none =>
      rw [Option.map_none, Option.getD_none, List.length_nil, if_neg (by omega)]
      rfl
    | some block => rfl

theorem elementsFrom_view (a : StoredArray) (m : Memory) (i n : Nat) :
    (a.view m).elementsFrom i n = a.elementsFrom m i n := by
  induction n generalizing i with
  | zero => rfl
  | succ n ih => rw [Array.elementsFrom, elementsFrom, element?_view, ih]

theorem elements_view (a : StoredArray) (m : Memory) : (a.view m).elements = a.elements m :=
  elementsFrom_view a m 0 a.count.toNat

theorem elementsFrom_eq_some_iff :
    a.elementsFrom m i n = some es ↔
      es.length = n ∧ ∀ k < n, a.element? m (i + k) = es[k]? := by
  rw [← elementsFrom_view, Array.elementsFrom_eq_some_iff]
  simp only [element?_view]

theorem exists_element {j : Nat} (h : a.elements m = some es) (hj : j < a.count.toNat) :
    ∃ x, es[j]? = some x ∧ a.element? m j = some x := by
  obtain ⟨hLength, hAt⟩ := elementsFrom_eq_some_iff.mp h
  have hElement := hAt j hj
  rw [Nat.zero_add] at hElement
  have hx : es[j]? = some (es[j]) := List.getElem?_eq_getElem (hLength ▸ hj)
  exact ⟨_, hx, hElement.trans hx⟩

theorem length_of_element? {x : List Byte} (h : a.element? m i = some x) :
    x.length = a.type.toNat := length_of_readBytes h

theorem width_of_elementsFrom (h : a.elementsFrom m i n = some es) :
    ∀ x ∈ es, x.length = a.type.toNat := by
  rw [← elementsFrom_view] at h
  exact Array.width_of_elementsFrom h

theorem copyFrom_eq (filled : List Byte)
    (hBlock : a.pointer.block < m.length)
    (hElements : a.elementsFrom m i n = some es) (hFilled : filled.length = i * a.type.toNat)
    (hFits : (i + n) * a.type.toNat < 2 ^ 64) :
    a.copyFrom m.length
        (m ++ [some ⟨filled ++ List.replicate (n * a.type.toNat) 0, some 1⟩]) i n =
      some (m ++ [some ⟨filled ++ es.flatten, some 1⟩]) := by
  induction n generalizing i es filled with
  | zero =>
    obtain rfl := Option.some.inj hElements
    simp [copyFrom]
  | succ n ih =>
    obtain ⟨x, hx, hRest⟩ := Option.bind_eq_some_iff.mp hElements
    obtain ⟨xs, hxs, hAll⟩ := Option.bind_eq_some_iff.mp hRest
    obtain rfl := Option.some.inj hAll
    have hLength := length_of_element? hx
    have hPlace : (UInt64.ofNat i * a.type).toNat = filled.length := by
      rw [hFilled]
      apply MachineInt.toNat_ofNat_mul
      exact Nat.lt_of_le_of_lt (Nat.mul_le_mul_right _ (Nat.le_add_right i (n + 1))) hFits
    have hRead : a.element?
        (m ++ [some ⟨filled ++ List.replicate ((n + 1) * a.type.toNat) 0, some 1⟩]) i = some x :=
      (readBytes_append (p := a.pointer.add _) hBlock _ _).trans hx
    have hWrite := writeBytes_last m filled (List.replicate ((n + 1) * a.type.toNat) 0) x (some 1)
      hPlace
      (by rw [hLength, List.length_replicate, Nat.succ_mul]; exact Nat.le_add_left _ _)
    have hLeft : (List.replicate ((n + 1) * a.type.toNat) (0 : Byte)).drop x.length =
        List.replicate (n * a.type.toNat) 0 := by
      rw [hLength, List.drop_replicate, Nat.succ_mul, Nat.add_sub_cancel]
    rw [hLeft] at hWrite
    have hNext := ih (filled ++ x) hxs
      (by rw [List.length_append, hFilled, hLength, Nat.succ_mul])
      (by rwa [Nat.add_assoc, Nat.add_comm 1])
    rw [copyFrom, hRead, Option.bind_eq_bind, Option.bind_some, hWrite, Option.bind_eq_bind,
      Option.bind_some, hNext, List.flatten_cons, List.append_assoc]

theorem element?_of_type_zero (h : a.type = 0) (m : Memory) (i : Nat) :
    a.element? m i = some [] := by
  rw [element?, h]
  exact if_pos rfl

theorem copyFrom_of_type_zero (h : a.type = 0) (fresh : Nat) (m : Memory) (i n : Nat) :
    a.copyFrom fresh m i n = some m := by
  induction n generalizing i with
  | zero => rfl
  | succ n ih =>
    rw [copyFrom, element?_of_type_zero h, Option.bind_eq_bind, Option.bind_some]
    exact ih (i + 1)

theorem elementsFrom_of_type_zero (h : a.type = 0) (m : Memory) (i n : Nat) :
    a.elementsFrom m i n = some (List.replicate n []) := by
  induction n generalizing i with
  | zero => rfl
  | succ n ih =>
    rw [elementsFrom, element?_of_type_zero h, ih]
    rfl

theorem fits_of_copyFrom {filled : List Byte} (hType : a.type ≠ 0)
    (h : a.copyFrom m.length (m ++ [some ⟨filled, some 1⟩]) i n = some m') :
    ∀ j < n, (UInt64.ofNat (i + j) * a.type).toNat + a.type.toNat ≤ filled.length := by
  induction n generalizing i filled with
  | zero => exact fun j hj => absurd hj (Nat.not_lt_zero j)
  | succ n ih =>
    obtain ⟨x, hx, h⟩ := Option.bind_eq_some_iff.mp h
    obtain ⟨m'', hWrite, h⟩ := Option.bind_eq_some_iff.mp h
    have hLength := length_of_element? hx
    have hWidth : a.type.toNat ≠ 0 := fun hZero => hType (UInt64.toNat_inj.mp hZero)
    rw [writeBytes, if_neg (hLength ▸ hWidth)] at hWrite
    dsimp only at hWrite
    rw [block?_last, Option.bind_eq_bind, Option.bind_some] at hWrite
    obtain ⟨hBound, hWrite⟩ := Option.ite_none_right_eq_some.mp hWrite
    have hSet := Option.some.inj hWrite
    rw [List.set_append_right _ _ (Nat.le_refl _), Nat.sub_self] at hSet
    subst hSet
    intro j hj
    cases j with
    | zero =>
      rw [hLength] at hBound
      exact hBound
    | succ j =>
      have hRest := ih h j (Nat.lt_of_succ_lt_succ hj)
      rw [Nat.add_assoc, Nat.add_comm 1] at hRest
      refine Nat.le_trans hRest (Nat.le_of_eq ?_)
      dsimp only at hBound
      simp only [List.length_append, List.length_take, List.length_drop]
      omega

def byteCount (a : StoredArray) : Nat := a.count.toNat * a.type.toNat

def copied (a : StoredArray) (fresh : Nat) : StoredArray :=
  { a with pointer := ⟨fresh, 0⟩, stride := a.type, storage := some fresh }

theorem Owns.lt_length (h : a.Owns m) : ∀ b, a.storage = some b → b < m.length := by
  intro b hb
  obtain ⟨bytes, owners, hBlock⟩ := h b hb
  exact lt_length_of_block? hBlock

theorem bytes_release (hOwns : a.Owns m) (h : a.Survives m) :
    ((m.release a.storage).block? a.pointer.block).map Block.bytes =
      (m.block? a.pointer.block).map Block.bytes := by
  cases hStorage : a.storage with
  | none => rfl
  | some b =>
    rw [block?_release]
    split
    · rename_i hSame
      subst hSame
      obtain ⟨bytes, owners, hBlock⟩ := hOwns _ hStorage
      have hMore : ¬ owners + 1 ≤ 1 := fun hLe =>
        h _ hStorage hBlock (congrArg some (Nat.le_antisymm hLe (Nat.le_add_left 1 owners)))
      rw [hBlock, Option.bind_some, Block.release]
      dsimp only
      rw [if_neg hMore]
      rfl
    · rfl

theorem gone_of_release (h : ¬ a.Survives m) :
    (m.release a.storage).block? a.pointer.block = none := by
  rw [Survives] at h
  push Not at h
  obtain ⟨block, hStorage, hBlock, hOwner⟩ := h
  rw [hStorage, block?_release, if_pos rfl, hBlock, Option.bind_some, Block.release, hOwner]
  rfl

theorem element?_congr (h : (m.block? a.pointer.block).map Block.bytes =
    (m'.block? a.pointer.block).map Block.bytes) (i : Nat) : a.element? m i = a.element? m' i :=
  readBytes_congr (p := a.pointer.add _) h _

theorem elementsFrom_congr (h : (m.block? a.pointer.block).map Block.bytes =
    (m'.block? a.pointer.block).map Block.bytes) (i n : Nat) :
    a.elementsFrom m i n = a.elementsFrom m' i n := by
  induction n generalizing i with
  | zero => rfl
  | succ n ih => rw [elementsFrom, elementsFrom, element?_congr h, ih]

theorem block_lt_length {x : List Byte} (hType : a.type ≠ 0) (h : a.element? m i = some x) :
    a.pointer.block < m.length := by
  have hWidth : a.type.toNat ≠ 0 := fun hZero => hType (UInt64.toNat_inj.mp hZero)
  obtain ⟨block, hBlock, -, -⟩ := exists_of_readBytes hWidth h
  exact lt_length_of_block? hBlock

theorem elements_of_row {fresh : Nat} {owners : Option Nat} (hLength : es.length = a.count.toNat)
    (hWidth : ∀ x ∈ es, x.length = a.type.toNat) (hFits : a.byteCount < 2 ^ 64)
    (hBlock : m.block? fresh = some ⟨es.flatten, owners⟩) :
    (a.copied fresh).elements m = some es := by
  have hView : (a.copied fresh).view m = ⟨a.index, es.flatten, 0, a.type, a.count, a.type⟩ := by
    rw [view]
    dsimp only [copied]
    rw [hBlock]
    rfl
  rw [← elements_view, hView]
  exact Array.elements_row hLength hWidth hFits

theorem fits_of_keeps (h : a.byteCount = 0 ∨ a.Survives m ∧ a.byteCount < 2 ^ 63) :
    a.byteCount < 2 ^ 63 :=
  h.elim (fun hZero => hZero ▸ Nat.two_pow_pos 63) And.right

theorem copy_eq (hOwns : a.Owns m) (hElements : a.elements m = some es)
    (h : a.byteCount = 0 ∨ a.Survives m ∧ a.byteCount < 2 ^ 63) :
    a.copy m = some (a.copied m.length,
      m.release a.storage ++ [some ⟨es.flatten, some 1⟩]) := by
  have hFits := fits_of_keeps h
  have hSize : (a.count * a.type).toNat = a.byteCount := by
    rw [UInt64.toNat_mul]
    exact Nat.mod_eq_of_lt (Nat.lt_trans hFits (by decide))
  have hLoop : a.copyFrom m.length
      ((m.makeShared a.byteCount).release a.storage) 0 a.count.toNat =
      some (m.release a.storage ++ [some ⟨es.flatten, some 1⟩]) := by
    rw [makeShared, release_append hOwns.lt_length]
    by_cases hType : a.type = 0
    · have hEmpty : es.flatten = [] := by
        rw [elements, elementsFrom_of_type_zero hType] at hElements
        rw [← Option.some.inj hElements]
        simp
      rw [copyFrom_of_type_zero hType, hEmpty, byteCount, hType]
      rfl
    · by_cases hCount : a.count.toNat = 0
      · rw [elements, hCount] at hElements
        obtain rfl := Option.some.inj hElements
        rw [hCount, byteCount, hCount, Nat.zero_mul]
        rfl
      · have hWidth : a.type.toNat ≠ 0 := fun hZero => hType (UInt64.toNat_inj.mp hZero)
        have hSurvives : a.Survives m :=
          (h.resolve_left (Nat.mul_ne_zero hCount hWidth)).1
        have hSame := bytes_release hOwns hSurvives
        have hReleased : a.elementsFrom (m.release a.storage) 0 a.count.toNat = some es :=
          (elementsFrom_congr hSame _ _).trans hElements
        obtain ⟨x, -, hFirst⟩ := exists_element hReleased (Nat.pos_of_ne_zero hCount)
        have hRun := copyFrom_eq [] (block_lt_length hType hFirst) hReleased
          (by simp) (by rw [Nat.zero_add]; exact Nat.lt_trans hFits (by decide))
        rw [length_release] at hRun
        exact hRun
  rw [copy]
  dsimp only
  rw [hSize, if_pos hFits, hLoop]
  rfl

/-- `copy` is defined only where its source outlives the release of the storage and the bytes
fit into a vector. -/
theorem survives_of_copy (hOwns : a.Owns m) (hBytes : a.byteCount ≠ 0)
    {a' : StoredArray} (h : a.copy m = some (a', m')) :
    a.Survives m ∧ a.byteCount < 2 ^ 63 := by
  have hCount : 0 < a.count.toNat := Nat.pos_of_ne_zero (Nat.mul_ne_zero_iff.mp hBytes).1
  have hWidth : a.type.toNat ≠ 0 := (Nat.mul_ne_zero_iff.mp hBytes).2
  have hType : a.type ≠ 0 := fun hZero => hWidth (congrArg UInt64.toNat hZero)
  have hSize : (a.count * a.type).toNat = a.byteCount % 2 ^ 64 := UInt64.toNat_mul _ _
  rw [copy] at h
  dsimp only at h
  obtain ⟨hSmall, h⟩ := Option.ite_none_right_eq_some.mp h
  obtain ⟨m'', hLoop, -⟩ := Option.bind_eq_some_iff.mp h
  rw [makeShared, release_append hOwns.lt_length, ← length_release m a.storage] at hLoop
  constructor
  · by_contra hGone
    obtain ⟨n, hn⟩ := Nat.exists_eq_succ_of_ne_zero (Nat.ne_of_gt hCount)
    rw [hn] at hLoop
    obtain ⟨x, hFirst, -⟩ := Option.bind_eq_some_iff.mp hLoop
    obtain ⟨block, hBlock, -, -⟩ := exists_of_readBytes hWidth hFirst
    have hNone := gone_of_release hGone
    rcases Nat.lt_or_ge a.pointer.block (m.release a.storage).length with hOld | hNew
    · rw [Pointer.add, block?_append hOld, hNone] at hBlock
      cases hBlock
    · -- the block that was given up has an older number than the new one
      rw [Survives] at hGone
      push Not at hGone
      obtain ⟨old, -, hOld, -⟩ := hGone
      rw [length_release] at hNew
      exact absurd (lt_length_of_block? hOld) (Nat.not_lt_of_le hNew)
  · by_contra hLarge
    have hWithin := fits_of_copyFrom hType hLoop
    rw [List.length_replicate] at hWithin
    -- the first element that does not fit starts within the vector
    let j := (a.count * a.type).toNat / a.type.toNat
    have hStart : j * a.type.toNat ≤ (a.count * a.type).toNat := Nat.div_mul_le_self _ _
    have hStop : (a.count * a.type).toNat < j * a.type.toNat + a.type.toNat :=
      Nat.lt_div_mul_add (Nat.pos_of_ne_zero hWidth)
    have hWrapped : (a.count * a.type).toNat < a.byteCount := by omega
    have hj : j < a.count.toNat := by
      apply Nat.div_lt_of_lt_mul
      rw [Nat.mul_comm]
      exact hWrapped
    have hPlace : (UInt64.ofNat j * a.type).toNat = j * a.type.toNat :=
      MachineInt.toNat_ofNat_mul (by omega)
    have hBound := hWithin j hj
    rw [Nat.zero_add, hPlace] at hBound
    omega

theorem elements_copied (hElements : a.elements m = some es)
    (h : a.byteCount = 0 ∨ a.Survives m ∧ a.byteCount < 2 ^ 63) :
    block? (m.release a.storage ++ [some ⟨es.flatten, some 1⟩]) m.length =
        some ⟨es.flatten, some 1⟩ ∧
      (a.copied m.length).elements (m.release a.storage ++ [some ⟨es.flatten, some 1⟩]) =
        some es := by
  have hBlock : block? (m.release a.storage ++ [some ⟨es.flatten, some 1⟩]) m.length =
      some ⟨es.flatten, some 1⟩ := by
    rw [← length_release m a.storage, block?_last]
  constructor
  · exact hBlock
  · exact elements_of_row (elementsFrom_eq_some_iff.mp hElements).1
      (width_of_elementsFrom hElements) (Nat.lt_trans (fits_of_keeps h) (by decide)) hBlock

theorem keeps_of_copy (hOwns : a.Owns m) {a' : StoredArray} (h : a.copy m = some (a', m')) :
    a.byteCount = 0 ∨ a.Survives m ∧ a.byteCount < 2 ^ 63 := by
  rcases Nat.eq_zero_or_pos a.byteCount with hZero | hBytes
  · exact .inl hZero
  · exact .inr (survives_of_copy hOwns (Nat.ne_of_gt hBytes) h)

theorem keepsElements_iff (hOwns : a.Owns m) (hElements : a.elements m = some es) :
    a.KeepsElements m ↔ a.byteCount = 0 ∨ a.Survives m ∧ a.byteCount < 2 ^ 63 := by
  constructor
  · rintro ⟨a', m', hCopy, -, -⟩
    exact keeps_of_copy hOwns hCopy
  · intro h
    exact ⟨_, _, copy_eq hOwns hElements h, (elements_copied hElements h).2.trans hElements.symm,
      rfl⟩

theorem copied_of_copy (hOwns : a.Owns m) (hElements : a.elements m = some es)
    {a' : StoredArray} (h : a.copy m = some (a', m')) :
    a' = a.copied m.length ∧ m'.block? m.length = some ⟨es.flatten, some 1⟩ ∧
      a'.elements m' = some es := by
  have hKeeps := keeps_of_copy hOwns h
  rw [copy_eq hOwns hElements hKeeps] at h
  obtain ⟨rfl, rfl⟩ := Prod.mk.inj (Option.some.inj h)
  exact ⟨rfl, elements_copied hElements hKeeps⟩

/-- A second copy gives the vector up before it reads from it. -/
theorem keepsElements_copied_iff {fresh : Nat} {bytes : List Byte}
    (hBlock : m.block? fresh = some ⟨bytes, some 1⟩)
    (hElements : (a.copied fresh).elements m = some es) :
    (a.copied fresh).KeepsElements m ↔ a.byteCount = 0 := by
  have hOwns : (a.copied fresh).Owns m := by
    intro b hb
    obtain rfl := Option.some.inj hb
    exact ⟨bytes, 0, hBlock⟩
  rw [keepsElements_iff hOwns hElements]
  constructor
  · rintro (hZero | ⟨hSurvives, -⟩)
    · exact hZero
    · exact absurd rfl (hSurvives _ rfl hBlock)
  · exact .inl

end StoredArray

/-- For every array whose elements can be read: `copy` reads only bytes that exist, keeps the
elements and leaves them without gaps exactly if there are no bytes, or the elements are not in
storage that the array alone owns and fit into a vector. A second `copy` does so too exactly if
there are no bytes. -/
theorem copy_keeps_elements_iff {a : StoredArray} {m : Memory} (hOwns : a.Owns m)
    (hElements : (a.elements m).isSome) :
    (a.KeepsElements m ↔ a.count.toNat * a.type.toNat = 0 ∨
      a.Survives m ∧ a.count.toNat * a.type.toNat < 2 ^ 63) ∧
    (a.KeepsElementsTwice m ↔ a.count.toNat * a.type.toNat = 0) := by
  obtain ⟨es, hEs⟩ := Option.isSome_iff_exists.mp hElements
  refine ⟨StoredArray.keepsElements_iff hOwns hEs, ?_, ?_⟩
  · rintro ⟨a', m', hCopy, -, -, hAgain⟩
    obtain ⟨rfl, hBlock, hSame⟩ := StoredArray.copied_of_copy hOwns hEs hCopy
    exact (StoredArray.keepsElements_copied_iff hBlock hSame).mp hAgain
  · intro hZero
    obtain ⟨a', m', hCopy, hKept, hStride⟩ :=
      (StoredArray.keepsElements_iff hOwns hEs).mpr (.inl hZero)
    obtain ⟨rfl, hBlock, hSame⟩ := StoredArray.copied_of_copy hOwns hEs hCopy
    exact ⟨_, _, hCopy, hKept, hStride,
      (StoredArray.keepsElements_copied_iff hBlock hSame).mpr hZero⟩

/-- Two elements of two bytes, four bytes apart, in foreign memory. -/
def spread : StoredArray × Memory :=
  ({ index := ⟨0, by decide⟩, pointer := ⟨0, 1⟩, type := 2, count := 2, stride := 4 },
    [some ⟨[0, 1, 2, 3, 4, 5, 6, 7], none⟩])

theorem copy_keeps_elements_iff_run :
    (spread.1.KeepsElements spread.2 ↔ 2 * 2 = 0 ∨ spread.1.Survives spread.2 ∧ 2 * 2 < 2 ^ 63) ∧
      (spread.1.KeepsElementsTwice spread.2 ↔ 2 * 2 = 0) :=
  copy_keeps_elements_iff (by rintro b hb; cases hb) (by decide)

/-- The first copy is right; the second one reads from the vector that it has given up. -/
theorem second_copy_reads_freed :
    ((spread.1.copy spread.2).map fun p => (p.1.elements p.2, p.1.stride)) =
        some (some [[1, 2], [5, 6]], 2) ∧
      ((spread.1.copy spread.2).bind fun p => p.1.copy p.2) = none := by
  decide

end Henson
