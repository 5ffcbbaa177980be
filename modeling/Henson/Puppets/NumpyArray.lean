import Mathlib.Algebra.BigOperators.Ring.List
import Mathlib.Data.UInt
import Henson.Data.ArrayViews
import Henson.Library.RowMajor

/-!
# Sharing a NumPy array

Adding a NumPy array to the name map shares its memory. The count of the stored array is
taken over all the axes, its stride is that of the first axis.
-/

namespace Henson

open RowMajor

/-- The descriptors that `add` looks for, each by identity; any other has its own item size. -/
inductive Dtype where
  | float
  | double
  | int
  | long
  | other (itemsize : UInt64)
  deriving DecidableEq

def Dtype.itemsize : Dtype → UInt64
  | .float => 4
  | .double => 8
  | .int => 4
  | .long => 8
  | .other itemsize => itemsize

/-- An array as NumPy describes it; strides are in bytes and may be negative. -/
structure PyArray where
  dtype : Dtype
  data : Pointer
  shape : List Nat
  strides : List Int64
  writeable : Bool := true
  length_strides : strides.length = shape.length
  size_lt : shape.prod < 2 ^ 63

namespace PyArray

def ndim (x : PyArray) : Nat := x.shape.length

def size (x : PyArray) : UInt64 := UInt64.ofNat x.shape.prod

def mutableData (x : PyArray) : Except String Pointer :=
  if x.writeable then .ok x.data else .error "array is not writeable"

/-- `strides(dim)`, from an `ssize_t` to a `size_t`. -/
def stridesOf (x : PyArray) (dim : Nat) : Except String UInt64 :=
  match x.strides[dim]? with
  | some stride => .ok stride.toUInt64
  | none => .error ("invalid axis: " ++ toString dim ++ " (ndim = " ++ toString x.ndim ++ ")")

/-- A branch of `add`, for one element type. -/
def share (x : PyArray) (index : Fin 5) (size : UInt64) : Except String StoredArray := do
  let address ← x.mutableData
  let stride ← x.stridesOf 0
  return { index, pointer := address, type := size, count := x.size, stride }

/-- The array that `add` stores. -/
def toArray (x : PyArray) : Except String StoredArray :=
  match x.dtype with
  | .float => x.share Array.floatPtr 4
  | .double => x.share Array.doublePtr 8
  | .int => x.share Array.intPtr 4
  | .long => x.share Array.longPtr 8
  | .other _ => .error "Unknown array dtype"

end PyArray

def itemBytes (size : UInt64) (addresses : List Pointer) : List Pointer :=
  addresses.flatMap fun p => (List.range size.toNat).map fun k => p.add (UInt64.ofNat k)

def StoredArray.addresses (a : StoredArray) : List Pointer :=
  (List.range a.count.toNat).map fun i => a.pointer.add (UInt64.ofNat i * a.stride)

namespace PyArray

def addresses (x : PyArray) : List Pointer :=
  (indices x.shape).map fun index => x.data.add (offset (x.strides.map Int64.toUInt64) index)

/-- The stored array has the elements of the NumPy array, in order, and no memory beside them. -/
structure SharesElements (x : PyArray) (a : StoredArray) : Prop where
  addresses : a.addresses = x.addresses
  inside : ∀ p ∈ itemBytes a.type a.addresses, p ∈ itemBytes x.dtype.itemsize x.addresses

def Rejected (x : PyArray) : Prop :=
  (∃ itemsize, x.dtype = .other itemsize) ∨ x.writeable = false ∨ x.shape = []

/-- Every axis with at least two entries has the stride of the first axis times the number of the
elements that the later axes span. -/
def OneStride (x : PyArray) : Prop :=
  ∀ first ∈ x.strides.head?, Uniform first.toUInt64 (x.strides.map Int64.toUInt64) x.shape

end PyArray

theorem StoredArray.elementsFrom_eq_mapM (a : StoredArray) (m : Memory) (i n : Nat) :
    a.elementsFrom m i n = (List.range' i n).mapM (a.element? m) := by
  induction n generalizing i with
  | zero => rfl
  | succ n ih =>
    rw [elementsFrom, ih, List.range'_succ, List.mapM_cons]

theorem StoredArray.elements_eq_mapM (a : StoredArray) (m : Memory) :
    a.elements m = a.addresses.mapM fun p => m.readBytes p a.type.toNat := by
  rw [elements, elementsFrom_eq_mapM, addresses, List.mapM_map, List.range_eq_range']
  rfl

theorem Pointer.add_right_injective (p : Pointer) : Function.Injective p.add := by
  intro n k hSame
  exact add_left_cancel (congrArg Pointer.offset hSame)

namespace PyArray

variable {x : PyArray}

theorem addresses_eq_map : x.addresses =
    (offsets (x.strides.map Int64.toUInt64) x.shape).map x.data.add := by
  rw [addresses, offsets, List.map_map]
  rfl

theorem toNat_size : x.size.toNat = x.shape.prod := by
  have hSize := x.size_lt
  rw [size, UInt64.toNat_ofNat', Nat.mod_eq_of_lt (by omega)]

structure Stored (x : PyArray) (a : StoredArray) : Prop where
  typed : a.Typed
  pointer : a.pointer = x.data
  type : a.type = x.dtype.itemsize
  count : a.count = x.size
  stride : ∃ first ∈ x.strides.head?, a.stride = first.toUInt64

theorem share_eq_ok_iff {index : Fin 5} {size : UInt64} {a : StoredArray} :
    x.share index size = .ok a ↔ x.writeable = true ∧ ∃ first ∈ x.strides.head?, a =
      { index, pointer := x.data, type := size, count := x.size, stride := first.toUInt64 } := by
  rw [share, mutableData, stridesOf, ← List.head?_eq_getElem?]
  cases x.writeable with
  | false => exact iff_of_false (fun h => nomatch h) fun h => nomatch h.1
  | true =>
    cases x.strides.head? with
    | none =>
      refine iff_of_false (fun h => nomatch h) ?_
      rintro ⟨-, first, hFirst, -⟩
      cases hFirst
    | some first =>
      constructor
      · intro h
        exact ⟨rfl, first, rfl, (Except.ok.inj h).symm⟩
      · rintro ⟨-, first', hFirst, rfl⟩
        obtain rfl := Option.some.inj hFirst
        rfl

theorem Stored.of_share {index : Fin 5} {a : StoredArray} (hIndex : index ≠ Array.voidPtr)
    (hSize : x.dtype.itemsize = StoredArray.elementSize index)
    (h : x.share index x.dtype.itemsize = .ok a) : x.Stored a := by
  obtain ⟨-, first, hFirst, rfl⟩ := share_eq_ok_iff.mp h
  exact ⟨⟨hIndex, hSize⟩, rfl, rfl, rfl, first, hFirst, rfl⟩

theorem toArray_eq (x : PyArray) :
    ((∀ itemsize, x.dtype ≠ .other itemsize) ∧ ∃ index, index ≠ Array.voidPtr ∧
      x.dtype.itemsize = StoredArray.elementSize index ∧
      x.toArray = x.share index x.dtype.itemsize) ∨
    ∃ itemsize, x.dtype = .other itemsize ∧ x.toArray = .error "Unknown array dtype" := by
  rw [toArray]
  cases x.dtype with
  | float => exact .inl ⟨nofun, Array.floatPtr, by decide, rfl, rfl⟩
  | double => exact .inl ⟨nofun, Array.doublePtr, by decide, rfl, rfl⟩
  | int => exact .inl ⟨nofun, Array.intPtr, by decide, rfl, rfl⟩
  | long => exact .inl ⟨nofun, Array.longPtr, by decide, rfl, rfl⟩
  | other itemsize => exact .inr ⟨itemsize, rfl, rfl⟩

theorem Stored.of_toArray {a : StoredArray} (h : x.toArray = .ok a) : x.Stored a := by
  obtain ⟨-, index, hIndex, hSize, hShare⟩ | ⟨itemsize, -, hError⟩ := x.toArray_eq
  · exact .of_share hIndex hSize (hShare.symm.trans h)
  · cases hError.symm.trans h

theorem exists_first_stride : (∃ first, x.strides.head? = some first) ↔ x.shape ≠ [] := by
  rw [← Option.ne_none_iff_exists', ne_eq, List.head?_eq_none_iff, ← List.length_eq_zero_iff,
    x.length_strides, List.length_eq_zero_iff]

theorem exists_share_iff {index : Fin 5} {size : UInt64} :
    (∃ a, x.share index size = .ok a) ↔ x.writeable = true ∧ x.shape ≠ [] := by
  rw [← exists_first_stride]
  constructor
  · rintro ⟨a, h⟩
    obtain ⟨hWriteable, first, hFirst, -⟩ := share_eq_ok_iff.mp h
    exact ⟨hWriteable, first, hFirst⟩
  · rintro ⟨hWriteable, first, hFirst⟩
    exact ⟨_, share_eq_ok_iff.mpr ⟨hWriteable, first, hFirst, rfl⟩⟩

theorem rejected_iff : x.Rejected ↔ ¬ ∃ a, x.toArray = .ok a := by
  obtain ⟨hKnown, index, -, -, hShare⟩ | ⟨itemsize, hOther, hError⟩ := x.toArray_eq
  · rw [hShare, exists_share_iff, Rejected, or_iff_right (not_exists.mpr hKnown), not_and_or,
      Bool.not_eq_true, not_not]
  · refine iff_of_true (.inl ⟨itemsize, hOther⟩) ?_
    rintro ⟨a, h⟩
    cases hError.symm.trans h

section Stored

variable {a : StoredArray}

theorem Stored.addresses_eq (h : x.Stored a) :
    a.addresses = (progression a.stride x.shape.prod).map x.data.add := by
  rw [StoredArray.addresses, h.count, h.pointer, toNat_size, progression, List.map_map]
  rfl

theorem Stored.sharesElements_iff (h : x.Stored a) :
    x.SharesElements a ↔ 0 ∈ x.shape ∨ x.OneStride := by
  obtain ⟨first, hFirst, hStride⟩ := h.stride
  have hAxes : (x.strides.map Int64.toUInt64).length = x.shape.length := by
    rw [List.length_map, x.length_strides]
  have hOne : x.OneStride ↔ Uniform a.stride (x.strides.map Int64.toUInt64) x.shape := by
    rw [hStride]
    exact ⟨fun hAll => hAll first hFirst, fun hUniform other hOther =>
      Option.some.inj (hFirst.symm.trans hOther) ▸ hUniform⟩
  have hAddresses : a.addresses = x.addresses ↔ 0 ∈ x.shape ∨ x.OneStride := by
    rw [h.addresses_eq, addresses_eq_map, hOne, ← List.prod_eq_zero_iff, eq_comm,
      (List.map_injective_iff.mpr x.data.add_right_injective).eq_iff,
      offsets_eq_progression_iff hAxes]
  constructor
  · exact fun hShares => hAddresses.mp hShares.addresses
  · intro hLayout
    have hSame := hAddresses.mpr hLayout
    exact ⟨hSame, fun p hp => by rwa [← h.type, ← hSame]⟩

theorem Stored.elements_eq (h : x.Stored a) (hShares : x.SharesElements a) (m : Memory) :
    a.elements m = x.addresses.mapM fun p => m.readBytes p x.dtype.itemsize.toNat := by
  rw [a.elements_eq_mapM, hShares.addresses, h.type]

end Stored

theorem oneStride_of_ndim (h : x.ndim = 1) : x.OneStride := by
  obtain ⟨n, hShape⟩ := List.length_eq_one_iff.mp h
  obtain ⟨s, hStrides⟩ := List.length_eq_one_iff.mp (x.length_strides.trans h)
  intro first hFirst
  rw [hStrides] at hFirst
  obtain rfl := Option.some.inj hFirst
  rw [hShape, hStrides]
  refine ⟨fun _ => ?_, trivial⟩
  rw [List.prod_nil, one_nsmul]

/-- For every array: the call throws or shares exactly its elements, if and only if it throws, or
the array is empty, or one stride fits all its axes. -/
theorem add_shares_elements_iff (x : PyArray) :
    (∀ a, x.toArray = .ok a → x.SharesElements a) ↔
      x.Rejected ∨ 0 ∈ x.shape ∨ x.OneStride := by
  by_cases hRejected : x.Rejected
  · exact iff_of_true (fun a h => absurd ⟨a, h⟩ (rejected_iff.mp hRejected)) (.inl hRejected)
  · obtain ⟨a, h⟩ := not_not.mp (rejected_iff.not.mp hRejected)
    rw [or_iff_right hRejected, ← (Stored.of_toArray h).sharesElements_iff]
    exact ⟨fun hAll => hAll a h, fun hShares b hb => Except.ok.inj (h.symm.trans hb) ▸ hShares⟩

def square : PyArray where
  dtype := .double
  data := ⟨0, 0⟩
  shape := [2, 2]
  strides := [16, 8]
  length_strides := rfl
  size_lt := by decide

/-- Two of its elements are not shared, and the last two addresses are behind it. -/
theorem square_not_shared :
    ∃ a, square.toArray = .ok a ∧
      a.addresses = [⟨0, 0⟩, ⟨0, 16⟩, ⟨0, 32⟩, ⟨0, 48⟩] ∧
      square.addresses = [⟨0, 0⟩, ⟨0, 8⟩, ⟨0, 16⟩, ⟨0, 24⟩] ∧
      ⟨0, 32⟩ ∈ itemBytes a.type a.addresses ∧
      ⟨0, 32⟩ ∉ itemBytes square.dtype.itemsize square.addresses ∧
      ¬ square.SharesElements a := by
  have hOutside : ⟨0, 32⟩ ∉ itemBytes square.dtype.itemsize square.addresses := by decide
  have hInside : ⟨0, 32⟩ ∈ itemBytes 8 [⟨0, 0⟩, ⟨0, 16⟩, ⟨0, 32⟩, ⟨0, 48⟩] := by decide
  refine ⟨⟨Array.doublePtr, ⟨0, 0⟩, 8, 4, 16, none⟩, rfl, by decide, by decide, hInside, hOutside,
    fun hShares => ?_⟩
  exact hOutside (hShares.inside _ hInside)

end PyArray

end Henson
