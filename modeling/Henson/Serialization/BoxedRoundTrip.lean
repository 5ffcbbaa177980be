import Henson.Library.MachineInt
import Henson.Library.Slices
import Henson.Serialization.BoxedValue

/-!
# Boxed values survive a buffer

`encode` gives the bytes of a boxed value, or `none` where saving throws.
Loading them yields the value with its arrays gathered: same element type,
count and elements, the stride equal to the element size.
-/

namespace Henson

open LittleEndian MachineInt MemoryBuffer

namespace Array

variable {a : Array} {i n : Nat} {xs : List (List Byte)}

theorem elementsFrom_eq_some_iff :
    a.elementsFrom i n = some xs ↔ xs.length = n ∧ ∀ k < n, a.element? (i + k) = xs[k]? := by
  induction n generalizing i xs with
  | zero =>
    constructor
    · intro h
      obtain rfl := Option.some.inj h
      exact ⟨rfl, fun k hk => absurd hk (Nat.not_lt_zero k)⟩
    · rintro ⟨hLength, -⟩
      rw [List.length_eq_zero_iff.mp hLength]
      rfl
  | succ n ih =>
    constructor
    · intro h
      obtain ⟨x, hx, hRest⟩ := Option.bind_eq_some_iff.mp h
      obtain ⟨xs, hxs, hCons⟩ := Option.bind_eq_some_iff.mp hRest
      obtain rfl := Option.some.inj hCons
      obtain ⟨hLength, hAt⟩ := ih.mp hxs
      refine ⟨by rw [List.length_cons, hLength], fun k hk => ?_⟩
      cases k with
      | zero => exact hx
      | succ k =>
        rw [List.getElem?_cons_succ, ← hAt k (by omega)]
        exact congrArg a.element? (by omega)
    · rintro ⟨hLength, hAt⟩
      obtain _ | ⟨x, xs⟩ := xs
      · cases hLength
      have hx := hAt 0 (Nat.succ_pos n)
      have hxs : a.elementsFrom (i + 1) n = some xs := by
        refine ih.mpr ⟨Nat.succ.inj hLength, fun k hk => ?_⟩
        have hNext := hAt (k + 1) (by omega)
        rwa [List.getElem?_cons_succ, ← Nat.add_assoc, Nat.add_right_comm] at hNext
      rw [elementsFrom, hxs]
      rw [Nat.add_zero] at hx
      rw [hx]
      rfl

theorem length_of_elements (h : a.elements = some xs) : xs.length = a.count.toNat :=
  (elementsFrom_eq_some_iff.mp h).1

theorem elementsFrom_slice {m : Nat} (h : a.elementsFrom 0 n = some xs) (hSlice : i + m ≤ n) :
    a.elementsFrom i m = some ((xs.drop i).take m) := by
  obtain ⟨hLength, hAt⟩ := elementsFrom_eq_some_iff.mp h
  refine elementsFrom_eq_some_iff.mpr ⟨?_, fun k hk => ?_⟩
  · rw [List.length_take, List.length_drop]
    omega
  · rw [List.getElem?_take_of_lt hk, List.getElem?_drop, ← hAt (i + k) (by omega), Nat.zero_add]

theorem length_of_element? {x : List Byte} (h : a.element? i = some x) :
    x.length = a.type.toNat := by
  rw [element?] at h
  split at h
  · rename_i hZero
    rw [← Option.some.inj h, hZero]
    rfl
  · obtain ⟨hBound, hSlice⟩ := Option.ite_none_right_eq_some.mp h
    rw [← Option.some.inj hSlice, List.length_take, List.length_drop]
    omega

theorem width_of_elementsFrom (h : a.elementsFrom i n = some xs) :
    ∀ x ∈ xs, x.length = a.type.toNat := by
  intro x hx
  obtain ⟨k, hk, rfl⟩ := List.getElem_of_mem hx
  obtain ⟨hLength, hAt⟩ := elementsFrom_eq_some_iff.mp h
  exact length_of_element? ((hAt k (hLength ▸ hk)).trans (List.getElem?_eq_getElem hk))

theorem length_flatten_elements (h : a.elements = some xs) : xs.flatten.length = a.byteCount := by
  rw [Slices.length_flatten (width_of_elementsFrom h), length_of_elements h, byteCount]

theorem elements_row {index : Fin 5} {type count : UInt64} (hLength : xs.length = count.toNat)
    (hWidth : ∀ x ∈ xs, x.length = type.toNat) (hFits : count.toNat * type.toNat < 2 ^ 64) :
    (Array.mk index xs.flatten 0 type count type).elements = some xs := by
  refine elementsFrom_eq_some_iff.mpr ⟨hLength, fun k hk => ?_⟩
  dsimp only at hk
  obtain ⟨x, hx⟩ : ∃ x, xs[k]? = some x := ⟨_, List.getElem?_eq_getElem (by omega)⟩
  obtain ⟨hBound, hTake⟩ := Slices.take_drop_flatten hWidth hx
  have hPlace : ((0 : UInt64) + UInt64.ofNat k * type).toNat = k * type.toNat := by
    rw [UInt64.zero_add]
    exact toNat_ofNat_mul (Nat.lt_of_le_of_lt (Nat.mul_le_mul_right _ (Nat.le_of_lt hk)) hFits)
  rw [element?, Nat.zero_add, hx]
  dsimp only
  rw [hPlace, if_pos hBound, hTake]
  split
  · rename_i hZero
    have hEmpty := hWidth x (List.mem_of_getElem? hx)
    rw [hZero] at hEmpty
    rw [List.length_eq_zero_iff.mp hEmpty]
  · rfl

/-- The elements can be read, and a buffer can hold them. -/
def Storable (a : Array) : Prop := a.elements.isSome ∧ a.byteCount < 256 ^ 8

instance (a : Array) : Decidable a.Storable :=
  inferInstanceAs (Decidable (a.elements.isSome ∧ a.byteCount < 256 ^ 8))

/-- The gathered array that loading leaves behind. -/
def contiguous (a : Array) : Array :=
  { a with memory := (a.elements.getD []).flatten, offset := 0, stride := a.type }

def encode (a : Array) : Option (List Byte) :=
  a.elements.map fun xs =>
    toBytes 8 a.index.val ++ (toBytes 8 a.type.toNat ++ (toBytes 8 a.count.toNat ++ xs.flatten))

end Array

theorem Appends.saveElements (a : Array) {n i : Nat} {xs : List (List Byte)}
    (h : a.elementsFrom i n = some xs) :
    Appends (fun bb => a.saveElements bb i n) xs.flatten := by
  induction n generalizing i xs with
  | zero => exact Option.some.inj h ▸ Appends.pure_nil
  | succ n ih =>
    obtain ⟨x, hx, hRest⟩ := Option.bind_eq_some_iff.mp h
    obtain ⟨xs, hxs, hCons⟩ := Option.bind_eq_some_iff.mp hRest
    obtain rfl := Option.some.inj hCons
    intro pre
    have hTail := (Appends.saveBinary x).bind (ih hxs) pre
    simpa [Array.saveElements, hx] using hTail

theorem saveElements_eq_none (a : Array) {n i : Nat} (h : a.elementsFrom i n = none)
    (bb : MemoryBuffer) : a.saveElements bb i n = none := by
  induction n generalizing i bb with
  | zero => cases h
  | succ n ih =>
    cases hx : a.element? i with
    | none => simp [Array.saveElements, hx]
    | some x =>
      have hRest : a.elementsFrom (i + 1) n = none := by
        cases hxs : a.elementsFrom (i + 1) n with
        | none => rfl
        | some xs => simp [Array.elementsFrom, hx, hxs] at h
      simpa [Array.saveElements, hx] using ih hRest _

namespace BoxedValue

def tagBytes (t : Tag) : List Byte := toBytes 4 t.code.toUInt32.toNat

mutual
def encode : BoxedValue → Option (List Byte)
  | .int i => some (tagBytes .int ++ toBytes 4 i.toUInt32.toNat)
  | .float f => some (tagBytes .float ++ toBytes 4 f.toNat)
  | .double d => some (tagBytes .double ++ toBytes 8 d.toNat)
  | .sizeT s => some (tagBytes .sizeT ++ toBytes 8 s.toNat)
  | .string s => some (tagBytes .string ++ (toBytes 8 s.bytes.length ++ s.bytes))
  | .array a => a.encode.map (tagBytes .array ++ ·)
  | .vector v => (encodeArray v).map fun bytes => tagBytes .vector ++ (toBytes 8 v.length ++ bytes)
  | .undef => some (tagBytes .undef)
  | .bool _ => none
  | .other => none

def encodeArray : List BoxedValue → Option (List Byte)
  | [] => some []
  | x :: xs => do return (← encode x) ++ (← encodeArray xs)
end

mutual
/-- A value of a type with a tag, whose arrays can be read and whose sizes fit `size_t`. -/
def Storable : BoxedValue → Prop
  | .int _ => True
  | .float _ => True
  | .double _ => True
  | .sizeT _ => True
  | .string s => s.bytes.length < 256 ^ 8
  | .array a => a.Storable
  | .vector v => v.length < 256 ^ 8 ∧ StorableArray v
  | .undef => True
  | .bool _ => False
  | .other => False

def StorableArray : List BoxedValue → Prop
  | [] => True
  | x :: xs => Storable x ∧ StorableArray xs
end

mutual
def contiguous : BoxedValue → BoxedValue
  | .array a => .array a.contiguous
  | .vector v => .vector (contiguousArray v)
  | v => v

def contiguousArray : List BoxedValue → List BoxedValue
  | [] => []
  | x :: xs => contiguous x :: contiguousArray xs
end

end BoxedValue

open BoxedValue

theorem Appends.array {a : Array} {bytes : List Byte} (h : a.encode = some bytes) :
    Appends (fun bb => save bb a) bytes := by
  obtain ⟨elements, hElements, rfl⟩ := Option.map_eq_some_iff.mp h
  have hIndex : (UInt64.ofNat a.index.val).toNat = a.index.val := by
    rw [UInt64.toNat_ofNat']
    exact Nat.mod_eq_of_lt (by omega)
  have hSave := (Appends.uint64 (UInt64.ofNat a.index.val)).bind
    ((Appends.uint64 a.type).bind ((Appends.uint64 a.count).bind
      (Appends.saveElements a hElements)))
  rwa [hIndex] at hSave

theorem save_array_eq_none {a : Array} (h : a.encode = none) (bb : MemoryBuffer) :
    save bb a = none := by
  have hElements : a.elementsFrom 0 a.count.toNat = none := Option.map_eq_none_iff.mp h
  simp [Serialization.save, saveElements_eq_none a hElements]

theorem Appends.tagged (t : Tag) {f : MemoryBuffer → Option MemoryBuffer} {bytes : List Byte}
    (hf : Appends f bytes) : Appends (fun bb => save bb t.code >>= f) (tagBytes t ++ bytes) :=
  (Appends.int32 t.code).bind hf

theorem save_tag_written (t : Tag) (pre : List Byte) :
    save (written pre) t.code = some (written (pre ++ tagBytes t)) :=
  Appends.int32 t.code pre

mutual
theorem saveBoxed_written (v : BoxedValue) (pre : List Byte) :
    saveBoxed (written pre) v = v.encode.map fun bytes => written (pre ++ bytes) := by
  cases v with
  | int i => exact Appends.tagged .int (Appends.int32 i) pre
  | float f => exact Appends.tagged .float (Appends.uint32 f) pre
  | double d => exact Appends.tagged .double (Appends.uint64 d) pre
  | sizeT s => exact Appends.tagged .sizeT (Appends.uint64 s) pre
  | string s => exact Appends.tagged .string (Appends.stdString s) pre
  | undef => exact save_tag_written .undef pre
  | bool b => rfl
  | other => rfl
  | array a =>
    rw [saveBoxed, encode]
    cases h : a.encode with
    | none => simp [save_tag_written, save_array_eq_none h]
    | some bytes => exact Appends.tagged .array (Appends.array h) pre
  | vector v =>
    have hSize : (save (written pre) Tag.vector.code >>= fun bb => save bb v.length) =
        some (written (pre ++ (tagBytes .vector ++ toBytes 8 v.length))) :=
      Appends.tagged .vector (Appends.sizeT v.length) pre
    rw [saveBoxed, encode, ← bind_assoc, hSize]
    simp only [Option.bind_eq_bind, Option.bind_some]
    rw [saveBoxedArray_written v]
    simp [Option.map_map, Function.comp_def]

theorem saveBoxedArray_written (v : List BoxedValue) (pre : List Byte) :
    saveBoxedArray (written pre) v =
      (encodeArray v).map fun bytes => written (pre ++ bytes) := by
  cases v with
  | nil => simp [saveBoxedArray, encodeArray]
  | cons x xs =>
    rw [saveBoxedArray, encodeArray, saveBoxed_written x]
    cases x.encode with
    | none => rfl
    | some a =>
      simp only [Option.map_some, Option.bind_eq_bind, Option.bind_some]
      rw [saveBoxedArray_written xs]
      cases encodeArray xs with
      | none => rfl
      | some b => simp
end

theorem Reads.array {a : Array} {bytes : List Byte} (h : a.encode = some bytes)
    (hFits : a.byteCount < 256 ^ 8) (target : Array) :
    Reads (fun bb => load bb target) bytes a.contiguous := by
  obtain ⟨elements, hElements, rfl⟩ := Option.map_eq_some_iff.mp h
  have hLength : elements.flatten.length = (a.count * a.type).toNat := by
    rw [Array.length_flatten_elements hElements, UInt64.toNat_mul, Array.byteCount]
    exact (Nat.mod_eq_of_lt hFits).symm
  have hIndex : (UInt64.ofNat a.index.val).toNat = a.index.val := by
    rw [UInt64.toNat_ofNat']
    exact Nat.mod_eq_of_lt (by omega)
  have hContiguous : a.contiguous =
      ⟨a.index, elements.flatten, 0, a.type, a.count, a.type⟩ := by
    simp [Array.contiguous, hElements]
  have hStorage : Reads (fun bb => bb.loadBinary (a.count * a.type).toNat) elements.flatten
      elements.flatten :=
    hLength ▸ Reads.loadBinary elements.flatten
  have hIndexRead := Reads.uint64 (UInt64.ofNat a.index.val) 0
  rw [hIndex] at hIndexRead
  refine hIndexRead.bind ((Reads.uint64 a.type target.type).bind
    ((Reads.uint64 a.count target.count).bind ?_))
  rw [hContiguous]
  have hFinish := hStorage.map fun storage => Array.mk a.index storage 0 a.type a.count a.type
  simpa [hIndex] using hFinish

theorem Reads.tagged {β : Type} (t : Tag) {g : Int32 × MemoryBuffer → Option (β × MemoryBuffer)}
    {bytes : List Byte} {y : β} (hg : Reads (fun bb => g (t.code, bb)) bytes y) :
    Reads (fun bb => load bb (0 : Int32) >>= g) (tagBytes t ++ bytes) y :=
  (Reads.int32 t.code 0).bind hg

@[simp] theorem length_tagBytes (t : Tag) : (tagBytes t).length = 4 := length_toBytes _ _

theorem tag_le_of_encode {v : BoxedValue} {bytes : List Byte} (h : v.encode = some bytes) :
    4 ≤ bytes.length := by
  cases v with
  | bool b => cases h
  | other => cases h
  | array a =>
    obtain ⟨bytes, _, rfl⟩ := Option.map_eq_some_iff.mp h
    simp
  | vector v =>
    obtain ⟨bytes, _, rfl⟩ := Option.map_eq_some_iff.mp h
    simp
  | _ =>
    obtain rfl := Option.some.inj h
    simp

theorem length_le_of_encodeArray (v : List BoxedValue) (bytes : List Byte)
    (h : encodeArray v = some bytes) : v.length ≤ bytes.length := by
  induction v generalizing bytes with
  | nil => exact Nat.zero_le _
  | cons x xs ih =>
    obtain ⟨a, hx, hRest⟩ := Option.bind_eq_some_iff.mp h
    obtain ⟨b, hxs, hBytes⟩ := Option.bind_eq_some_iff.mp hRest
    have hHead := tag_le_of_encode hx
    have hTail := ih b hxs
    rw [← Option.some.inj hBytes, List.length_append, List.length_cons]
    omega

mutual
theorem exists_encode_of_storable (v : BoxedValue) (h : v.Storable) :
    ∃ bytes, v.encode = some bytes := by
  cases v with
  | bool b => exact h.elim
  | other => exact h.elim
  | array a =>
    obtain ⟨elements, hElements⟩ := Option.isSome_iff_exists.mp h.1
    exact ⟨_, by rw [encode, Array.encode, hElements]; rfl⟩
  | vector v =>
    obtain ⟨bytes, hBytes⟩ := exists_encodeArray_of_storable v h.2
    exact ⟨_, by rw [encode, hBytes]; rfl⟩
  | _ => exact ⟨_, rfl⟩

theorem exists_encodeArray_of_storable (v : List BoxedValue) (h : StorableArray v) :
    ∃ bytes, encodeArray v = some bytes := by
  cases v with
  | nil => exact ⟨[], rfl⟩
  | cons x xs =>
    obtain ⟨a, hx⟩ := exists_encode_of_storable x h.1
    obtain ⟨b, hxs⟩ := exists_encodeArray_of_storable xs h.2
    exact ⟨a ++ b, by rw [encodeArray, hx, hxs]; rfl⟩
end

mutual
theorem storable_of_encode (v : BoxedValue) (bytes : List Byte) (h : v.encode = some bytes)
    (hFits : bytes.length < 256 ^ 8) : v.Storable := by
  cases v with
  | bool b => cases h
  | other => cases h
  | string s =>
    obtain rfl := Option.some.inj h
    simp only [List.length_append] at hFits
    exact (by omega : s.bytes.length < 256 ^ 8)
  | array a =>
    obtain ⟨bytes, hArray, rfl⟩ := Option.map_eq_some_iff.mp h
    obtain ⟨elements, hElements, rfl⟩ := Option.map_eq_some_iff.mp hArray
    have hLength := Array.length_flatten_elements hElements
    simp only [List.length_append, length_tagBytes, length_toBytes] at hFits
    exact ⟨Option.isSome_iff_exists.mpr ⟨elements, hElements⟩, by omega⟩
  | vector v =>
    obtain ⟨bytes, hVector, rfl⟩ := Option.map_eq_some_iff.mp h
    simp only [List.length_append, length_tagBytes, length_toBytes] at hFits
    have hCount := length_le_of_encodeArray v bytes hVector
    exact ⟨by omega, storableArray_of_encode v bytes hVector (by omega)⟩
  | _ => trivial

theorem storableArray_of_encode (v : List BoxedValue) (bytes : List Byte)
    (h : encodeArray v = some bytes) (hFits : bytes.length < 256 ^ 8) : StorableArray v := by
  cases v with
  | nil => trivial
  | cons x xs =>
    obtain ⟨a, hx, hRest⟩ := Option.bind_eq_some_iff.mp h
    obtain ⟨b, hxs, hBytes⟩ := Option.bind_eq_some_iff.mp hRest
    obtain rfl := Option.some.inj hBytes
    simp only [List.length_append] at hFits
    exact ⟨storable_of_encode x a hx (by omega), storableArray_of_encode xs b hxs (by omega)⟩
end

mutual
theorem Reads.boxed (v : BoxedValue) (bytes : List Byte) (fuel : Nat)
    (h : v.encode = some bytes) (hStorable : v.Storable) (hFuel : bytes.length < fuel) :
    Reads (loadBoxed fuel) bytes v.contiguous := by
  obtain _ | fuel := fuel
  · omega
  cases v with
  | int i =>
    obtain rfl := Option.some.inj h
    exact Reads.tagged .int ((Reads.int32 i 0).map BoxedValue.int)
  | float f =>
    obtain rfl := Option.some.inj h
    exact Reads.tagged .float ((Reads.uint32 f 0).map BoxedValue.float)
  | double d =>
    obtain rfl := Option.some.inj h
    exact Reads.tagged .double ((Reads.uint64 d 0).map BoxedValue.double)
  | sizeT s =>
    obtain rfl := Option.some.inj h
    exact Reads.tagged .sizeT ((Reads.uint64 s 0).map BoxedValue.sizeT)
  | string s =>
    obtain rfl := Option.some.inj h
    exact Reads.tagged .string ((Reads.stdString s _ hStorable).map BoxedValue.string)
  | undef =>
    obtain rfl := Option.some.inj h
    have hUndef : Reads (loadBoxed (fuel + 1)) (tagBytes .undef ++ []) .undef :=
      Reads.tagged .undef (Reads.pure BoxedValue.undef)
    rwa [List.append_nil] at hUndef
  | bool b => cases h
  | other => cases h
  | array a =>
    obtain ⟨bytes, hArray, rfl⟩ := Option.map_eq_some_iff.mp h
    exact Reads.tagged .array ((Reads.array hArray hStorable.2 _).map BoxedValue.array)
  | vector v =>
    obtain ⟨bytes, hVector, rfl⟩ := Option.map_eq_some_iff.mp h
    simp only [List.length_append, length_tagBytes, length_toBytes] at hFuel
    have hElements := Reads.boxedArray v bytes fuel hVector hStorable.2 (by omega)
    exact Reads.tagged .vector ((Reads.sizeT v.length 0 hStorable.1).bind
      (hElements.map BoxedValue.vector))

theorem Reads.boxedArray (v : List BoxedValue) (bytes : List Byte) (fuel : Nat)
    (h : encodeArray v = some bytes) (hStorable : StorableArray v)
    (hFuel : bytes.length < fuel) :
    Reads (loadArray (loadBoxed fuel) v.length) bytes (contiguousArray v) := by
  cases v with
  | nil => exact Option.some.inj h ▸ Reads.pure []
  | cons x xs =>
    obtain ⟨a, hx, hRest⟩ := Option.bind_eq_some_iff.mp h
    obtain ⟨b, hxs, hBytes⟩ := Option.bind_eq_some_iff.mp hRest
    obtain rfl := Option.some.inj hBytes
    simp only [List.length_append] at hFuel
    exact (Reads.boxed x a fuel hx hStorable.1 (by omega)).bind
      ((Reads.boxedArray xs b fuel hxs hStorable.2 (by omega)).map (x.contiguous :: ·))
end

end Henson
