import Henson.Library.Associative
import Henson.Serialization.BoxedRoundTrip

/-!
# The serializable types

A `SerialType` is a type that has a serialization, next to the relation that says
when two of its values are equal: arrays by the elements they refer to, hashed
containers in any order of listing. The template instances of the source are the
recursion over it.
-/

namespace Henson

open Associative MemoryBuffer

/-- A type that the default serialization copies byte by byte. -/
structure TriviallyCopyable (α : Type) where
  size : Nat
  bytes : α → List Byte
  ofBytes : List Byte → α
  init : α
  length_bytes : ∀ x, (bytes x).length = size
  ofBytes_bytes : ∀ x, ofBytes (bytes x) = x

/-- `std::less<std::string>`. -/
def StdString.order : KeyOrder (Eq : StdString → StdString → Prop) where
  lt s t := compare s t == .lt
  trans hab hbc := by
    simp only [beq_iff_eq] at hab hbc ⊢
    exact Std.TransCmp.lt_trans hab hbc
  respects := by
    rintro s _ t _ rfl rfl
    rfl

/-- Arrays are equal by what they refer to; a loaded one owns its elements side by side. -/
structure Array.Same (a b : Array) : Prop where
  index : b.index = a.index
  type : b.type = a.type
  count : b.count = a.count
  elements : b.elements = a.elements
  stride : b.stride = b.type

inductive BoxedValue.Same : BoxedValue → BoxedValue → Prop where
  | int (i : Int32) : Same (.int i) (.int i)
  | float (f : UInt32) : Same (.float f) (.float f)
  | double (d : UInt64) : Same (.double d) (.double d)
  | sizeT (s : UInt64) : Same (.sizeT s) (.sizeT s)
  | string (s : StdString) : Same (.string s) (.string s)
  | array {a b : Array} : a.Same b → Same (.array a) (.array b)
  | vector {v w : List BoxedValue} : List.Forall₂ Same v w → Same (.vector v) (.vector w)
  | undef : Same .undef .undef

def pairSame {α β : Type} (r : α → α → Prop) (s : β → β → Prop) (x y : α × β) : Prop :=
  r x.1 y.1 ∧ s x.2 y.2

/-- The same entries, listed in another order. -/
def listedSame {α : Type} (r : α → α → Prop) (l l' : List α) : Prop :=
  ∃ listed, List.Forall₂ r l listed ∧ listed.Perm l'

mutual
inductive SerialType : (α : Type) → (α → α → Prop) → Type 1 where
  | plain {α : Type} (p : TriviallyCopyable α) : SerialType α Eq
  | string : SerialType StdString Eq
  | vector {α : Type} {r : α → α → Prop} (t : SerialType α r) :
      SerialType (List α) (List.Forall₂ r)
  | valarray {α : Type} {r : α → α → Prop} (t : SerialType α r) :
      SerialType (List α) (List.Forall₂ r)
  | pair {α β : Type} {r : α → α → Prop} {s : β → β → Prop} (x : SerialType α r)
      (y : SerialType β s) : SerialType (α × β) (pairSame r s)
  | map {K V : Type} {r : K → K → Prop} {s : V → V → Prop} (order : KeyOrder r)
      (k : SerialType K r) (v : SerialType V s) :
      SerialType (Ordered order (Prod.fst : K × V → K))
        fun m m' => List.Forall₂ (pairSame r s) m.entries m'.entries
  | set {K : Type} {r : K → K → Prop} (order : KeyOrder r) (k : SerialType K r) :
      SerialType (Ordered order (id : K → K)) fun m m' => List.Forall₂ r m.entries m'.entries
  | unorderedMap {K V : Type} {r : K → K → Prop} {s : V → V → Prop} (hashing : Hashing r (K × V))
      (k : SerialType K r) (v : SerialType V s) :
      SerialType (Hashed hashing (Prod.fst : K × V → K))
        fun m m' => listedSame (pairSame r s) m.entries m'.entries
  | unorderedSet {K : Type} {r : K → K → Prop} (hashing : Hashing r K) (k : SerialType K r) :
      SerialType (Hashed hashing (id : K → K)) fun m m' => listedSame r m.entries m'.entries
  | tuple {α : Type} {r : α → α → Prop} (args : Args α r) : SerialType α r
  | array : SerialType Array Array.Same
  | boxed : SerialType BoxedValue BoxedValue.Same

/-- The element types of a tuple. -/
inductive Args : (α : Type) → (α → α → Prop) → Type 1 where
  | nil : Args Unit Eq
  | cons {α β : Type} {r : α → α → Prop} {s : β → β → Prop} (t : SerialType α r)
      (args : Args β s) : Args (α × β) (pairSame r s)
end

def saveEach {α : Type} (saveOne : MemoryBuffer → α → Option MemoryBuffer) :
    MemoryBuffer → List α → Option MemoryBuffer
  | bb, [] => some bb
  | bb, x :: xs => do saveEach saveOne (← saveOne bb x) xs

/-- Every element is loaded on top of what it was. -/
def loadEach {α : Type} (loadOne : MemoryBuffer → α → Option (α × MemoryBuffer)) :
    MemoryBuffer → List α → Option (List α × MemoryBuffer)
  | bb, [] => some ([], bb)
  | bb, x :: xs => do
    let (x, bb) ← loadOne bb x
    let (xs, bb) ← loadEach loadOne bb xs
    return (x :: xs, bb)

/-- `n` entries are loaded and put into a container, one by one. -/
def loadInto {C : Type} (step : MemoryBuffer → C → Option (C × MemoryBuffer)) :
    Nat → MemoryBuffer → C → Option (C × MemoryBuffer)
  | 0, bb, m => some (m, bb)
  | n + 1, bb, m => do
    let (m, bb) ← step bb m
    loadInto step n bb m

section Entries

variable {K V : Type} {same : K → K → Prop}
  (loadKey : MemoryBuffer → Option (K × MemoryBuffer))

/-- A key is loaded, and the value it maps to in place: on top of what is there, else of `init`. -/
def loadMapEntry {order : KeyOrder same} (loadValue : MemoryBuffer → V → Option (V × MemoryBuffer))
    (init : V) (bb : MemoryBuffer) (m : Ordered order (Prod.fst : K × V → K)) :
    Option (Ordered order (Prod.fst : K × V → K) × MemoryBuffer) := do
  let (k, bb) ← loadKey bb
  let (v, bb) ← loadValue bb (((m.find? k).map Prod.snd).getD init)
  return (m.place (fun old new => (old.1, new.2)) (fun _ _ => rfl) (k, v), bb)

def loadSetEntry {order : KeyOrder same} (bb : MemoryBuffer) (m : Ordered order (id : K → K)) :
    Option (Ordered order (id : K → K) × MemoryBuffer) := do
  let (p, bb) ← loadKey bb
  return (m.place (fun old _ => old) (fun _ _ => rfl) p, bb)

def loadHashedEntry {E : Type} {hashing : Hashing same E} {key : E → K}
    (loadOne : MemoryBuffer → Option (E × MemoryBuffer)) (bb : MemoryBuffer)
    (m : Hashed hashing key) : Option (Hashed hashing key × MemoryBuffer) := do
  let (p, bb) ← loadOne bb
  return (m.emplace p, bb)

end Entries

def savePair {α β : Type} (save₁ : MemoryBuffer → α → Option MemoryBuffer)
    (save₂ : MemoryBuffer → β → Option MemoryBuffer) (bb : MemoryBuffer) (p : α × β) :
    Option MemoryBuffer := do
  let bb ← save₁ bb p.1
  save₂ bb p.2

def loadPair {α β : Type} (load₁ : MemoryBuffer → α → Option (α × MemoryBuffer))
    (load₂ : MemoryBuffer → β → Option (β × MemoryBuffer)) (bb : MemoryBuffer) (p : α × β) :
    Option ((α × β) × MemoryBuffer) := do
  let (first, bb) ← load₁ bb p.1
  let (second, bb) ← load₂ bb p.2
  return ((first, second), bb)

def resizeTo {α : Type} (v : List α) (n : Nat) (init : α) : List α :=
  v.take n ++ List.replicate (n - v.length) init

namespace TriviallyCopyable

variable {α : Type} (p : TriviallyCopyable α)

/-- A number of `width` bytes. -/
def number (width : Nat) (encode : α → Nat) (decode : Nat → α)
    (hFits : ∀ x, encode x < 256 ^ width) (hInverse : ∀ x, decode (encode x) = x) :
    TriviallyCopyable α where
  size := width
  bytes x := LittleEndian.toBytes width (encode x)
  ofBytes bytes := decode (LittleEndian.ofBytes bytes)
  init := decode 0
  length_bytes _ := LittleEndian.length_toBytes _ _
  ofBytes_bytes x := by rw [LittleEndian.ofBytes_toBytes (hFits x), hInverse]

def int : TriviallyCopyable Int32 :=
  number 4 (fun x => x.toUInt32.toNat) (fun n => (UInt32.ofNat n).toInt32)
    (fun x => x.toUInt32.toNat_lt) (fun x => by simp)

/-- The values in a row of bytes. -/
def split : Nat → List Byte → List α
  | 0, _ => []
  | n + 1, bytes => p.ofBytes (bytes.take p.size) :: split n (bytes.drop p.size)

end TriviallyCopyable

namespace SerialType

variable {α : Type} {r : α → α → Prop}

/-- `is_default`: the serialization is not specialized. -/
def default? {α : Type} {r : α → α → Prop} : SerialType α r → Option (TriviallyCopyable α)
  | plain p => some p
  | _ => none

/-- `save(bb, x, n)`, where `saveOne` saves one element. -/
def saveArray (t : SerialType α r) (saveOne : MemoryBuffer → α → Option MemoryBuffer)
    (bb : MemoryBuffer) (x : List α) : Option MemoryBuffer :=
  match t.default? with
  | none => saveEach saveOne bb x
  | some p => some (bb.saveBinary (x.flatMap p.bytes))

/-- `load(bb, x, n)`, where `loadOne` loads one element. -/
def loadArray (t : SerialType α r) (loadOne : MemoryBuffer → α → Option (α × MemoryBuffer))
    (bb : MemoryBuffer) (x : List α) : Option (List α × MemoryBuffer) :=
  match t.default? with
  | none => loadEach loadOne bb x
  | some p => do
    let (bytes, bb) ← bb.loadBinary (p.size * x.length)
    return (p.split x.length bytes, bb)

end SerialType

mutual
/-- Sizes fit `size_t`, the elements of arrays can be read and are no more bytes than that, boxed
values have a tag. -/
def SerialType.Valid {α : Type} {r : α → α → Prop} : SerialType α r → α → Prop
  | .plain _, _ => True
  | .string, s => s.bytes.length < 256 ^ 8
  | .vector t, v => v.length < 256 ^ 8 ∧ ∀ x ∈ v, t.Valid x
  | .valarray t, v => v.length < 256 ^ 8 ∧ ∀ x ∈ v, t.Valid x
  | .pair x y, p => x.Valid p.1 ∧ y.Valid p.2
  | .map _ k v, m => m.entries.length < 256 ^ 8 ∧ ∀ p ∈ m.entries, k.Valid p.1 ∧ v.Valid p.2
  | .set _ k, m => m.entries.length < 256 ^ 8 ∧ ∀ p ∈ m.entries, k.Valid p
  | .unorderedMap _ k v, m =>
    m.entries.length < 256 ^ 8 ∧ ∀ p ∈ m.entries, k.Valid p.1 ∧ v.Valid p.2
  | .unorderedSet _ k, m => m.entries.length < 256 ^ 8 ∧ ∀ p ∈ m.entries, k.Valid p
  | .tuple args, t => args.Valid t
  | .array, a => a.Storable
  | .boxed, v => v.Storable

def Args.Valid {α : Type} {r : α → α → Prop} : Args α r → α → Prop
  | .nil, _ => True
  | .cons t args, x => t.Valid x.1 ∧ args.Valid x.2
end

mutual
def SerialType.init {α : Type} {r : α → α → Prop} : SerialType α r → α
  | .plain p => p.init
  | .string => ⟨[]⟩
  | .vector _ => []
  | .valarray _ => []
  | .pair x y => (x.init, y.init)
  | .map _ _ _ => Ordered.empty
  | .set _ _ => Ordered.empty
  | .unorderedMap _ _ _ => Hashed.empty
  | .unorderedSet _ _ => Hashed.empty
  | .tuple args => args.init
  | .array => { index := Array.voidPtr }
  | .boxed => .undef

def Args.init {α : Type} {r : α → α → Prop} : Args α r → α
  | .nil => ()
  | .cons t args => (t.init, args.init)
end

mutual
def SerialType.save {α : Type} {r : α → α → Prop} :
    SerialType α r → MemoryBuffer → α → Option MemoryBuffer
  | .plain p, bb, x => some (bb.saveBinary (p.bytes x))
  | .string, bb, s => Henson.save bb s
  | .vector t, bb, v => do
    let bb ← Henson.save bb v.length
    t.saveArray t.save bb v
  | .valarray t, bb, v => do
    let bb ← Henson.save bb v.length
    t.saveArray t.save bb v
  | .pair x y, bb, p => savePair x.save y.save bb p
  | .map _ k v, bb, m => do
    let bb ← Henson.save bb m.entries.length
    saveEach (savePair k.save v.save) bb m.entries
  | .set _ k, bb, m => do
    let bb ← Henson.save bb m.entries.length
    saveEach k.save bb m.entries
  | .unorderedMap _ k v, bb, m => do
    let bb ← Henson.save bb m.entries.length
    saveEach (savePair k.save v.save) bb m.entries
  | .unorderedSet _ k, bb, m => do
    let bb ← Henson.save bb m.entries.length
    saveEach k.save bb m.entries
  | .tuple args, bb, t => args.save bb t
  | .array, bb, a => Henson.save bb a
  | .boxed, bb, v => Henson.save bb v

def Args.save {α : Type} {r : α → α → Prop} :
    Args α r → MemoryBuffer → α → Option MemoryBuffer
  | .nil, bb, _ => some bb
  | .cons t args, bb, x => do
    let bb ← t.save bb x.1
    args.save bb x.2
end

mutual
def SerialType.load {α : Type} {r : α → α → Prop} :
    SerialType α r → MemoryBuffer → α → Option (α × MemoryBuffer)
  | .plain p, bb, _ => do
    let (bytes, bb) ← bb.loadBinary p.size
    return (p.ofBytes bytes, bb)
  | .string, bb, s => Henson.load bb s
  | .vector t, bb, v => do
    let (s, bb) ← Henson.load bb 0
    t.loadArray t.load bb (resizeTo v s t.init)
  | .valarray t, bb, _ => do
    let (s, bb) ← Henson.load bb 0
    -- resizing a valarray sets every element anew
    t.loadArray t.load bb (List.replicate s t.init)
  | .pair x y, bb, p => loadPair x.load y.load bb p
  | .map _ k v, bb, m => do
    let (s, bb) ← Henson.load bb 0
    loadInto (loadMapEntry (fun bb => k.load bb k.init) v.load v.init) s bb m
  | .set _ k, bb, m => do
    let (s, bb) ← Henson.load bb 0
    loadInto (loadSetEntry fun bb => k.load bb k.init) s bb m
  | .unorderedMap _ k v, bb, m => do
    let (s, bb) ← Henson.load bb 0
    loadInto (loadHashedEntry fun bb => loadPair k.load v.load bb (k.init, v.init)) s bb m
  | .unorderedSet _ k, bb, m => do
    let (s, bb) ← Henson.load bb 0
    loadInto (loadHashedEntry fun bb => k.load bb k.init) s bb m
  | .tuple args, bb, t => args.load bb t
  | .array, bb, a => Henson.load bb a
  | .boxed, bb, v => Henson.load bb v

def Args.load {α : Type} {r : α → α → Prop} :
    Args α r → MemoryBuffer → α → Option (α × MemoryBuffer)
  | .nil, bb, _ => some ((), bb)
  | .cons t args, bb, x => do
    let (first, bb) ← t.load bb x.1
    let (rest, bb) ← args.load bb x.2
    return ((first, rest), bb)
end

structure Declared where
  {Carrier : Type}
  {same : Carrier → Carrier → Prop}
  type : SerialType Carrier same

structure Variable extends Declared where
  value : Carrier

namespace Variable

inductive Same : Variable → Variable → Prop where
  | intro {α : Type} {r : α → α → Prop} (t : SerialType α r) (x y : α) :
      r x y → Same ⟨⟨t⟩, x⟩ ⟨⟨t⟩, y⟩

def Valid (x : Variable) : Prop := x.type.Valid x.value

end Variable

/-- The variables are saved one after another; the numbers of bytes each save wrote come first. -/
def saveAll : MemoryBuffer → List Variable → Option (List Nat × MemoryBuffer)
  | bb, [] => some ([], bb)
  | bb, x :: xs => do
    let saved ← x.type.save bb x.value
    let (counts, last) ← saveAll saved xs
    return ((saved.size - bb.size) :: counts, last)

/-- Loads into freshly constructed variables, and by how much each advanced the cursor. -/
def loadAll : MemoryBuffer → List Declared → Option (List Variable × List Nat × MemoryBuffer)
  | bb, [] => some ([], [], bb)
  | bb, d :: ds =>
    (d.type.load bb d.type.init).bind fun (y, loaded) =>
      (loadAll loaded ds).map fun (ys, counts, last) =>
        (⟨d, y⟩ :: ys, (loaded.position - bb.position) :: counts, last)

end Henson
