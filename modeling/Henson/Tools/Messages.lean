import Henson.Library.Slices
import Henson.Serialization.BoxedRoundTrip
import Henson.Tools.Packing

/-!
# What the messages carry

A message decodes to the fields it was made from. The fields of the messages of
several partners, one message after another, leave behind arrays whose elements are
those of all slices, and in the name map every array has the elements that came.
-/

namespace Henson

open LittleEndian MemoryBuffer

namespace Tools

namespace ScalarType

theorem decode_encode {t : ScalarType} {x : Value} {bytes : List Byte}
    (h : t.encode x = some bytes) : bytes.length = t.size ∧ t.decode bytes = x := by
  cases t with
  | int =>
    cases x with
    | int x =>
      obtain rfl := Option.some.inj h
      refine ⟨length_toBytes _ _, ?_⟩
      rw [decode, ofBytes_toBytes x.toUInt32.toNat_lt]
      simp
    | _ => cases h
  | sizeT =>
    cases x with
    | sizeT x =>
      obtain rfl := Option.some.inj h
      refine ⟨length_toBytes _ _, ?_⟩
      rw [decode, ofBytes_toBytes x.toNat_lt, UInt64.ofNat_toNat]
    | _ => cases h
  | float =>
    cases x with
    | float x =>
      obtain rfl := Option.some.inj h
      refine ⟨length_toBytes _ _, ?_⟩
      rw [decode, ofBytes_toBytes x.toNat_lt, UInt32.ofNat_toNat]
    | _ => cases h
  | double =>
    cases x with
    | double x =>
      obtain rfl := Option.some.inj h
      refine ⟨length_toBytes _ _, ?_⟩
      rw [decode, ofBytes_toBytes x.toNat_lt, UInt64.ofNat_toNat]
    | _ => cases h

end ScalarType

/-- A plain value: the name is not a queue. -/
structure Plain (nm : NameMap) (name : StdString) (x : Value) : Prop where
  queue : nm.queues[name]? = none
  value : nm.values[name]? = some x

theorem Plain.get {nm : NameMap} {name : StdString} {x : Value} (h : Plain nm name x) :
    nm.get name = some (x, nm) := by
  rw [NameMap.get, h.queue, h.value]
  rfl

theorem Plain.loadArray {nm : NameMap} {name : StdString} {a : Array}
    (h : Plain nm name (.array a)) : hensonLoadArray nm name = some (a, nm) := by
  rw [hensonLoadArray, h.get]
  rfl

/-- The field that a sender writes for a slot, of its `r`-th message for one of `k` partners. -/
inductive FieldOf (nm : NameMap) (k r : Nat) : Slot → Field → Prop where
  | scalar {t : ScalarType} {name : StdString} {x : Value} {bytes : List Byte} :
      Plain nm name x → t.encode x = some bytes →
      FieldOf nm k r (.scalar t name) (.scalar name t x)
  | array {name : StdString} {a : Array} {xs : List (List Byte)} :
      Plain nm name (.array a) → a.elements = some xs →
      FieldOf nm k r (.array name) (.array name a.type
        (UInt64.ofNat (Slices.slice xs k r).length) (Slices.slice xs k r).flatten)

def Field.bytes : Field → List Byte
  | .scalar _ t x => (t.encode x).getD []
  | .array _ type count data => toBytes 8 count.toNat ++ (toBytes 8 type.toNat ++ data)

theorem elementsFrom_slice {a : Array} {xs : List (List Byte)} {k r : Nat}
    (h : a.elements = some xs) (hr : r < k) :
    a.elementsFrom (Slices.start xs.length k r) (Slices.slice xs k r).length =
      some (Slices.slice xs k r) := by
  have hStart := Slices.start_le_stop (n := xs.length) hr
  have hStop := Slices.stop_le (n := xs.length) hr
  have hLength := Array.length_of_elements h
  rw [Slices.length_slice xs hr]
  exact Array.elementsFrom_slice h (by omega)

theorem toNat_length_slice {a : Array} {xs : List (List Byte)} {k r : Nat}
    (h : a.elements = some xs) :
    (UInt64.ofNat (Slices.slice xs k r).length).toNat = (Slices.slice xs k r).length := by
  have hLength := Array.length_of_elements h
  have hCount := a.count.toNat_lt
  have hSlice : (Slices.slice xs k r).length ≤ xs.length := by
    rw [Slices.slice, List.length_take, List.length_drop]
    omega
  rw [UInt64.toNat_ofNat', Nat.mod_eq_of_lt (by omega)]

theorem packSlot_written {nm : NameMap} {k r : Nat} {slot : Slot} {f : Field}
    (h : FieldOf nm k r slot f) (hr : r < k) (pre : List Byte) :
    packSlot ⟨r, k, k⟩ (written pre, nm) slot = some (written (pre ++ f.bytes), nm) := by
  cases h with
  | scalar hPlain hEncode =>
    simp [packSlot, hPlain.get, hEncode, Field.bytes, saveBinary_written]
  | @array name a xs hPlain hItems =>
    have hLength := Array.length_of_elements hItems
    have hData := elementsFrom_slice hItems hr
    have hStart : Slice.start ⟨r, k, k⟩ a.count.toNat = Slices.start xs.length k r := by
      rw [hLength]
      rfl
    have hCount : Slice.stop ⟨r, k, k⟩ a.count.toNat - Slices.start xs.length k r =
        (Slices.slice xs k r).length := by
      rw [Slices.length_slice xs hr, hLength]
      rfl
    have hSave := Appends.saveElements a hData
      (pre ++ toBytes 8 (Slices.slice xs k r).length ++ toBytes 8 a.type.toNat)
    rw [packSlot]
    simp only [hPlain.loadArray, hCount, hStart, Option.bind_eq_bind, Option.bind_some,
      saveBinary_written]
    simp only [] at hSave
    rw [hSave, Field.bytes, toNat_length_slice hItems]
    simp

theorem packSlots_written {nm : NameMap} {k r : Nat} {slots : List Slot} {fields : List Field}
    (h : List.Forall₂ (FieldOf nm k r) slots fields) (hr : r < k) (pre : List Byte) :
    slots.foldlM (packSlot ⟨r, k, k⟩) (written pre, nm) =
      some (written (pre ++ fields.flatMap Field.bytes), nm) := by
  induction h generalizing pre with
  | nil => simp
  | @cons slot f slots fields hSlot _ ih =>
    rw [List.foldlM_cons, packSlot_written hSlot hr, Option.bind_eq_bind, Option.bind_some, ih,
      List.flatMap_cons, List.append_assoc]

theorem reads_sizeT (n : UInt64) :
    Reads (fun bb => bb.loadBinary 8) (toBytes 8 n.toNat) (toBytes 8 n.toNat) ∧
      UInt64.ofNat (ofBytes (toBytes 8 n.toNat)) = n := by
  have hRead := Reads.loadBinary (toBytes 8 n.toNat)
  rw [length_toBytes] at hRead
  exact ⟨hRead, by rw [ofBytes_toBytes n.toNat_lt, UInt64.ofNat_toNat]⟩

theorem readSlot_reads {nm : NameMap} {k r : Nat} {slot : Slot} {f : Field}
    (h : FieldOf nm k r slot f) (hFits : f.bytes.length < 2 ^ 64) :
    Reads (fun bb => readSlot bb slot) f.bytes f := by
  cases h with
  | @scalar t name x bytes hPlain hEncode =>
    obtain ⟨hLength, hDecode⟩ := ScalarType.decode_encode hEncode
    have hRead := (Reads.loadBinary bytes).map fun b => Field.scalar name t (t.decode b)
    rw [hLength, hDecode] at hRead
    rw [Field.bytes, hEncode, Option.getD_some]
    exact hRead
  | @array name a xs hPlain hItems =>
    have hCount := toNat_length_slice (k := k) (r := r) hItems
    have hLengths : ∀ x ∈ Slices.slice xs k r, x.length = a.type.toNat := fun x hx =>
      Array.width_of_elementsFrom hItems x (Slices.mem_of_mem_slice hx)
    have hProduct := Slices.length_flatten hLengths
    simp only [Field.bytes, List.length_append] at hFits
    have hData : (Slices.slice xs k r).flatten.length =
        (UInt64.ofNat (Slices.slice xs k r).length * a.type).toNat := by
      rw [UInt64.toNat_mul, hCount, ← hProduct, Nat.mod_eq_of_lt (by omega)]
    obtain ⟨hReadCount, hToCount⟩ := reads_sizeT (UInt64.ofNat (Slices.slice xs k r).length)
    obtain ⟨hReadType, hToType⟩ := reads_sizeT a.type
    have hReadData := (Reads.loadBinary (Slices.slice xs k r).flatten).map
      (Field.array name a.type (UInt64.ofNat (Slices.slice xs k r).length))
    rw [hData] at hReadData
    refine hReadCount.bind (hReadType.bind ?_)
    simp only [hToCount, hToType]
    exact hReadData

def readSlots : List Slot → MemoryBuffer → Option (List Field × MemoryBuffer)
  | [], bb => some ([], bb)
  | slot :: rest, bb => do
    let (f, bb) ← readSlot bb slot
    let (fs, bb) ← readSlots rest bb
    return (f :: fs, bb)

theorem readSlots_reads {nm : NameMap} {k r : Nat} {slots : List Slot} {fields : List Field}
    (h : List.Forall₂ (FieldOf nm k r) slots fields)
    (hFits : (fields.flatMap Field.bytes).length < 2 ^ 64) :
    Reads (readSlots slots) (fields.flatMap Field.bytes) fields := by
  induction h with
  | nil => exact Reads.pure []
  | @cons slot f slots fields hSlot _ ih =>
    rw [List.flatMap_cons, List.length_append] at hFits
    exact (readSlot_reads hSlot (by omega)).bind ((ih (by omega)).map (f :: ·))

theorem unpackSlots_eq (single : Bool) (slots : List Slot) (bb : MemoryBuffer) (u : Unpacking) :
    unpackSlots single slots bb u =
      (readSlots slots bb).map fun p => (p.1.foldl (Unpacking.publish single) u, p.2) := by
  induction slots generalizing bb u with
  | nil => rfl
  | cons slot slots ih =>
    rw [unpackSlots, readSlots]
    cases hSlot : readSlot bb slot with
    | none => rfl
    | some p =>
      simp only [Option.bind_eq_bind, Option.bind_some, ih]
      cases hRest : readSlots slots p.2 with
      | none => rfl
      | some q => rfl

theorem readSlots_recv {nm : NameMap} {k r : Nat} {slots : List Slot} {fields : List Field}
    (h : List.Forall₂ (FieldOf nm k r) slots fields)
    (hFits : (fields.flatMap Field.bytes).length < 2 ^ 64) :
    readSlots slots (recv (fields.flatMap Field.bytes)) =
      some (fields, written (fields.flatMap Field.bytes)) := by
  have hRead := readSlots_reads h hFits [] []
  simpa [recv, written] using hRead

theorem unpackSlots_recv {nm : NameMap} {k r : Nat} {slots : List Slot} {fields : List Field}
    (h : List.Forall₂ (FieldOf nm k r) slots fields)
    (hFits : (fields.flatMap Field.bytes).length < 2 ^ 64) (single : Bool) (u : Unpacking) :
    unpackSlots single slots (recv (fields.flatMap Field.bytes)) u =
      some (fields.foldl (Unpacking.publish single) u, written (fields.flatMap Field.bytes)) := by
  rw [unpackSlots_eq, readSlots_recv h hFits]
  rfl

theorem sendFrom_of_packs {vars : List Variable} {k : Nat} {maps : Nat → NameMap}
    {messages : Nat → List Byte}
    (hPack : ∀ r < k, packMessage vars ⟨r, k, k⟩ (maps r) =
      some (written (messages r), maps (r + 1)))
    (hFits : ∀ r < k, (messages r).length < 2 ^ 31) {r : Nat} {ranks : List Nat}
    (hRanks : r + ranks.length ≤ k) :
    sendFrom vars k k r ranks (maps r) =
      some (ranks.mapIdx fun i rank => (rank, messages (r + i)), maps (r + ranks.length)) := by
  induction ranks generalizing r with
  | nil => rfl
  | cons rank ranks ih =>
    rw [List.length_cons] at hRanks
    have hSend : (written (messages r)).send = some (messages r) :=
      send_of_lt (hFits r (by omega))
    have hRest := @ih (r + 1) (by omega)
    simp only [sendFrom, hPack r (by omega), hSend, hRest, Option.bind_eq_bind, Option.bind_some,
      List.mapIdx_cons, List.length_cons, Nat.add_zero, Nat.add_assoc, Nat.add_comm 1]
    rfl

theorem lookup_mapIdx {ranks : List Nat} {f : Nat → List Byte} {q : Nat} (hq : q ∈ ranks) :
    (ranks.mapIdx fun i rank => (rank, f i)).lookup q = some (f (ranks.idxOf q)) := by
  induction ranks generalizing f with
  | nil => cases hq
  | cons rank ranks ih =>
    rw [List.mapIdx_cons, List.lookup_cons]
    by_cases hHere : q = rank
    · subst hHere
      simp
    · have hThere : q ∈ ranks := (List.mem_cons.mp hq).resolve_left hHere
      rw [beq_false_of_ne hHere, List.idxOf_cons_ne _ (Ne.symm hHere)]
      exact ih hThere

theorem sendFrom_eq {vars : List Variable} {nm : NameMap} {k : Nat} {fields : Nat → List Field}
    (hFields : ∀ r < k, List.Forall₂ (FieldOf nm k r) (slots vars) (fields r))
    (hFits : ∀ r < k, ((fields r).flatMap Field.bytes).length < 2 ^ 31) {r : Nat}
    {ranks : List Nat} (hRanks : r + ranks.length ≤ k) :
    ∃ sends, sendFrom vars k k r ranks nm = some (sends, nm) ∧
      ∀ q ∈ ranks, sends.lookup q =
        some ((fields (r + ranks.idxOf q)).flatMap Field.bytes) := by
  have hPack : ∀ r < k, packMessage vars ⟨r, k, k⟩ nm =
      some (written ((fields r).flatMap Field.bytes), nm) :=
    fun r hr => packSlots_written (hFields r hr) hr []
  exact ⟨_, sendFrom_of_packs hPack hFits hRanks, fun q hq => lookup_mapIdx hq⟩

def Field.save : Field → StdString × Value
  | .scalar name _ x => (name, x)
  | .array name type count data => (name, .array (contiguous type count data))

theorem publish_single (fields : List Field) (u : Unpacking) :
    (fields.foldl (Unpacking.publish true) u).saves = u.saves ++ fields.map Field.save := by
  induction fields generalizing u with
  | nil => simp
  | cons f fields ih =>
    rw [List.foldl_cons, ih, List.map_cons]
    cases f with
    | scalar name t x => simp [Unpacking.publish, Field.save]
    | array name type count data => simp [Unpacking.publish, Field.save]

structure ArrayField where
  type : UInt64
  count : UInt64
  data : List Byte

def Field.array? : Field → Option ArrayField
  | .scalar _ _ _ => none
  | .array _ type count data => some ⟨type, count, data⟩

def Field.scalar? : Field → Option (StdString × Value)
  | .scalar name _ x => some (name, x)
  | .array _ _ _ _ => none

def Gathered.add (g : Gathered) (a : ArrayField) : Gathered := g.append a.type a.count a.data

theorem publish_many {fields : List Field} {front back : List Gathered}
    {saves : List (StdString × Value)} (h : (fields.filterMap Field.array?).length = back.length) :
    fields.foldl (Unpacking.publish false) ⟨front.length, front ++ back, saves⟩ =
      ⟨front.length + back.length,
        front ++ List.zipWith Gathered.add back (fields.filterMap Field.array?),
        saves ++ fields.filterMap Field.scalar?⟩ := by
  induction fields generalizing front back saves with
  | nil =>
    obtain rfl := List.length_eq_zero_iff.mp h.symm
    simp
  | cons f fields ih =>
    cases f with
    | scalar name t x =>
      have hArrays : (Field.scalar name t x :: fields).filterMap Field.array? =
          fields.filterMap Field.array? := List.filterMap_cons_none rfl
      have hScalars : (Field.scalar name t x :: fields).filterMap Field.scalar? =
          (name, x) :: fields.filterMap Field.scalar? := List.filterMap_cons_some rfl
      rw [hArrays] at h ⊢
      rw [List.foldl_cons, Unpacking.publish]
      dsimp only
      rw [ih h, hScalars, List.append_assoc]
      rfl
    | array name type count data =>
      have hArrays : (Field.array name type count data :: fields).filterMap Field.array? =
          ⟨type, count, data⟩ :: fields.filterMap Field.array? := List.filterMap_cons_some rfl
      have hScalars : (Field.array name type count data :: fields).filterMap Field.scalar? =
          fields.filterMap Field.scalar? := List.filterMap_cons_none rfl
      rw [hArrays] at h ⊢
      obtain _ | ⟨g, back⟩ := back
      · cases h
      have hModify : (front ++ g :: back).modify front.length (fun g => g.append type count data) =
          (front ++ [g.append type count data]) ++ back := by
        simp [List.modify_eq_take_cons_drop]
      have hRest := @ih (front ++ [g.append type count data]) back saves (Nat.succ.inj h)
      rw [List.length_append, List.length_singleton] at hRest
      rw [List.foldl_cons, Unpacking.publish]
      dsimp only
      rw [if_neg Bool.false_ne_true, hModify, hRest, hScalars, List.append_assoc, List.length_cons,
        Nat.add_assoc, Nat.add_comm 1]
      rfl

structure ArrayField.Holds (a : ArrayField) (type : UInt64) (xs : List (List Byte)) : Prop where
  type_eq : a.type = type
  count : a.count.toNat = xs.length
  data : a.data = xs.flatten
  lengths : ∀ x ∈ xs, x.length = type.toNat

structure Gathered.Holds (g : Gathered) (type : UInt64) (xs : List (List Byte)) : Prop where
  type_eq : xs = [] ∨ g.type = type
  count : g.count.toNat = xs.length
  bytes : g.bytes = xs.flatten
  lengths : ∀ x ∈ xs, x.length = type.toNat

theorem Gathered.holds_nil (type : UInt64) : Gathered.Holds {} type [] :=
  ⟨.inl rfl, rfl, rfl, fun _ hx => absurd hx List.not_mem_nil⟩

theorem Gathered.Holds.add {g : Gathered} {a : ArrayField} {type : UInt64}
    {xs ys : List (List Byte)} (hg : g.Holds type xs) (ha : a.Holds type ys)
    (hFits : (xs ++ ys).length < 2 ^ 64) : (g.add a).Holds type (xs ++ ys) where
  type_eq := .inr ha.type_eq
  count := by
    rw [List.length_append] at hFits ⊢
    rw [Gathered.add, Gathered.append, UInt64.toNat_add, hg.count, ha.count, Nat.mod_eq_of_lt hFits]
  bytes := by
    rw [Gathered.add, Gathered.append, hg.bytes, ha.data, List.flatten_append]
  lengths x hx := (List.mem_append.mp hx).elim (hg.lengths x) (ha.lengths x)

theorem Gathered.Holds.elements {g : Gathered} {type : UInt64} {xs : List (List Byte)}
    (h : g.Holds type xs) (hFits : xs.length * type.toNat < 2 ^ 64) :
    (contiguous g.type g.count g.bytes).elements = some xs := by
  rw [contiguous, h.bytes]
  rcases h.type_eq with rfl | hType
  · have hNone : g.count.toNat = 0 := h.count
    rw [Array.elements, hNone]
    rfl
  · rw [hType]
    exact Array.elements_row h.count.symm h.lengths (h.count ▸ hFits)

theorem ArrayField.Holds.elements {a : ArrayField} {type : UInt64} {xs : List (List Byte)}
    (h : a.Holds type xs) (hFits : xs.length * type.toNat < 2 ^ 64) :
    (contiguous a.type a.count a.data).elements = some xs := by
  rw [contiguous, h.data, h.type_eq]
  exact Array.elements_row h.count.symm h.lengths (h.count ▸ hFits)

theorem forall₂_add {names : List StdString} {size : StdString → UInt64}
    {done next : StdString → List (List Byte)} {arrays : List Gathered} {slices : List ArrayField}
    (hArrays : List.Forall₂ (fun name g => g.Holds (size name) (done name)) names arrays)
    (hSlices : List.Forall₂ (fun name a => a.Holds (size name) (next name)) names slices)
    (hFits : ∀ name ∈ names, (done name ++ next name).length < 2 ^ 64) :
    List.Forall₂ (fun name g => g.Holds (size name) (done name ++ next name)) names
      (List.zipWith Gathered.add arrays slices) := by
  induction hArrays generalizing slices with
  | nil => exact .nil
  | cons hHead _ ih =>
    cases hSlices with
    | cons hSlice hSlices =>
      exact .cons (hHead.add hSlice (hFits _ List.mem_cons_self))
        (ih hSlices fun name hName => hFits name (List.mem_cons_of_mem _ hName))

theorem unpackMessages_many {vars : List Variable} {size : StdString → UInt64}
    {pieces : Nat → StdString → List (List Byte)} {fields : Nat → List Field}
    {message : Nat → List Byte} {sources : List Nat}
    (hRead : ∀ s ∈ sources, ∀ u, ∃ bb, unpackSlots false (slots vars) (recv (message s)) u =
      some ((fields s).foldl (Unpacking.publish false) u, bb))
    (hSlices : ∀ s ∈ sources, List.Forall₂ (fun name a => a.Holds (size name) (pieces s name))
      (arrayNames vars) ((fields s).filterMap Field.array?))
    {done : StdString → List (List Byte)} {idx : Nat} {arrays : List Gathered}
    {saves : List (StdString × Value)}
    (hArrays : List.Forall₂ (fun name g => g.Holds (size name) (done name)) (arrayNames vars) arrays)
    (hFits : ∀ name ∈ arrayNames vars,
      (done name ++ sources.flatMap fun s => pieces s name).length < 2 ^ 64) :
    ∃ idx' arrays', unpackMessages false vars (sources.map message) ⟨idx, arrays, saves⟩ =
        some ⟨idx', arrays',
          saves ++ sources.flatMap fun s => (fields s).filterMap Field.scalar?⟩ ∧
      List.Forall₂ (fun name g => g.Holds (size name)
        (done name ++ sources.flatMap fun s => pieces s name)) (arrayNames vars) arrays' := by
  induction sources generalizing done idx arrays saves with
  | nil => exact ⟨idx, arrays, by simp [unpackMessages], by simpa using hArrays⟩
  | cons s sources ih =>
    obtain ⟨bb, hUnpack⟩ := hRead s List.mem_cons_self ⟨0, arrays, saves⟩
    have hSlice := hSlices s List.mem_cons_self
    have hLength : ((fields s).filterMap Field.array?).length = arrays.length :=
      hSlice.length_eq.symm.trans hArrays.length_eq
    have hPublish := @publish_many (fields s) [] arrays saves hLength
    simp only [List.length_nil, List.nil_append, Nat.zero_add] at hPublish
    rw [hPublish] at hUnpack
    have hAdded := forall₂_add hArrays hSlice fun name hName => by
      have hAll := hFits name hName
      simp only [List.flatMap_cons, List.length_append] at hAll ⊢
      omega
    obtain ⟨idx', arrays', hRest, hGathered⟩ := ih
      (fun s' hs' => hRead s' (List.mem_cons_of_mem s hs'))
      (fun s' hs' => hSlices s' (List.mem_cons_of_mem s hs')) hAdded fun name hName => by
        have hAll := hFits name hName
        rwa [List.flatMap_cons, ← List.append_assoc] at hAll
    refine ⟨idx', arrays', ?_, ?_⟩
    · rw [List.map_cons, unpackMessages]
      dsimp only
      rw [hUnpack, Option.bind_eq_bind, Option.bind_some]
      dsimp only
      rw [hRest, List.flatMap_cons, List.append_assoc]
    · simpa only [List.flatMap_cons, List.append_assoc] using hGathered

def addAll (nm : NameMap) (saves : List (StdString × Value)) : NameMap :=
  saves.foldl (fun nm save => nm.add save.1 save.2) nm

theorem add_plain {nm : NameMap} {name n : StdString} {x : Value}
    (h : nm.queues[name]? = none) :
    (nm.add n x).queues[name]? = none ∧
      (nm.add n x).values[name]? = if n = name then some x else nm.values[name]? := by
  have hCell := NameMap.cell_add nm n name x
  by_cases hName : n = name
  · rw [if_pos hName, Cell.add] at hCell
    simp only [NameMap.cell, h] at hCell
    obtain ⟨hValue, hQueue⟩ := Cell.mk.inj hCell
    exact ⟨hQueue, by rw [if_pos hName, hValue]⟩
  · rw [if_neg hName] at hCell
    obtain ⟨hValue, hQueue⟩ := Cell.mk.inj hCell
    exact ⟨hQueue.trans h, by rw [if_neg hName, hValue]⟩

theorem addAll_of_notMem {nm : NameMap} {name : StdString} {saves : List (StdString × Value)}
    (h : nm.queues[name]? = none) (hNot : ∀ x, (name, x) ∉ saves) :
    (addAll nm saves).queues[name]? = none ∧
      (addAll nm saves).values[name]? = nm.values[name]? := by
  induction saves generalizing nm with
  | nil => exact ⟨h, rfl⟩
  | cons save saves ih =>
    obtain ⟨n, x⟩ := save
    have hName : n ≠ name := fun hEq => hNot x (hEq ▸ List.mem_cons_self)
    obtain ⟨hQueue, hValue⟩ := add_plain (n := n) (x := x) h
    obtain ⟨hQueues, hValues⟩ := ih hQueue fun y hy => hNot y (List.mem_cons_of_mem _ hy)
    refine ⟨hQueues, ?_⟩
    rw [addAll, List.foldl_cons]
    exact hValues.trans (by rw [hValue, if_neg hName])

theorem addAll_plain {nm : NameMap} {name : StdString} {saves : List (StdString × Value)}
    {P : Value → Prop} (h : nm.queues[name]? = none) (hSome : ∃ x, (name, x) ∈ saves)
    (hAll : ∀ x, (name, x) ∈ saves → P x) : ∃ x, P x ∧ Plain (addAll nm saves) name x := by
  induction saves generalizing nm with
  | nil =>
    obtain ⟨x, hx⟩ := hSome
    cases hx
  | cons save saves ih =>
    obtain ⟨n, y⟩ := save
    obtain ⟨hQueue, hValue⟩ := add_plain (n := n) (x := y) h
    have hRest : ∀ x, (name, x) ∈ saves → P x := fun x hx => hAll x (List.mem_cons_of_mem _ hx)
    by_cases hLater : ∃ x, (name, x) ∈ saves
    · exact ih hQueue hLater hRest
    · obtain ⟨x, hx⟩ := hSome
      have hHead : (name, x) = (n, y) := (List.mem_cons.mp hx).resolve_right fun hx =>
        hLater ⟨x, hx⟩
      obtain ⟨rfl, rfl⟩ := Prod.mk.inj hHead
      obtain ⟨hQueues, hValues⟩ := addAll_of_notMem hQueue fun z hz => hLater ⟨z, hz⟩
      rw [if_pos rfl] at hValue
      exact ⟨x, hAll x hx, hQueues, hValues.trans hValue⟩

def arrayItems (nm : NameMap) (name : StdString) : Option (List (List Byte)) := do
  let (a, _) ← hensonLoadArray nm name
  a.elements

/-- A plain value of the slot's type; an array has elements of the given size. -/
def Slot.Held (elementSize : StdString → UInt64) (nm : NameMap) : Slot → Prop
  | .scalar t name => ∃ x bytes, Plain nm name x ∧ t.encode x = some bytes
  | .array name => ∃ a xs, Plain nm name (.array a) ∧ a.elements = some xs ∧
      a.type = elementSize name

theorem Plain.unique {nm : NameMap} {name : StdString} {x y : Value} (hx : Plain nm name x)
    (hy : Plain nm name y) : x = y :=
  Option.some.inj (hx.value.symm.trans hy.value)

theorem Plain.arrayItems {nm : NameMap} {name : StdString} {a : Array} {xs : List (List Byte)}
    (h : Plain nm name (.array a)) (hItems : a.elements = some xs) :
    arrayItems nm name = some xs := by
  rw [Tools.arrayItems, h.loadArray]
  exact hItems

section Fields

variable {nm : NameMap} {elementSize : StdString → UInt64} {k r : Nat}

theorem exists_fields {slots : List Slot} (h : ∀ slot ∈ slots, slot.Held elementSize nm)
    (k r : Nat) :
    ∃ fields, List.Forall₂ (FieldOf nm k r) slots fields := by
  induction slots with
  | nil => exact ⟨[], .nil⟩
  | cons slot slots ih =>
    obtain ⟨fields, hFields⟩ := ih fun s hs => h s (List.mem_cons_of_mem _ hs)
    have hSlot := h slot List.mem_cons_self
    cases slot with
    | scalar t name =>
      obtain ⟨x, bytes, hPlain, hEncode⟩ := hSlot
      exact ⟨_ :: fields, .cons (.scalar hPlain hEncode) hFields⟩
    | array name =>
      obtain ⟨a, xs, hPlain, hItems, -⟩ := hSlot
      exact ⟨_ :: fields, .cons (.array hPlain hItems) hFields⟩

theorem holds_of_field {name : StdString} {f : Field} (hField : FieldOf nm k r (.array name) f)
    (hHeld : (Slot.array name).Held elementSize nm) :
    ∃ (xs : List (List Byte)) (a : ArrayField), arrayItems nm name = some xs ∧
      f = .array name a.type a.count a.data ∧ a.Holds (elementSize name) (Slices.slice xs k r) := by
  cases hField with
  | @array _ a xs hPlain hItems =>
    obtain ⟨a', xs', hPlain', -, hType⟩ := hHeld
    obtain rfl := Value.array.inj (hPlain'.unique hPlain)
    have hLengths := Array.width_of_elementsFrom hItems
    refine ⟨xs, ⟨a'.type, UInt64.ofNat (Slices.slice xs k r).length, (Slices.slice xs k r).flatten⟩,
      hPlain.arrayItems hItems, rfl, ⟨hType, toNat_length_slice hItems, rfl, fun x hx => ?_⟩⟩
    exact hType ▸ hLengths x (Slices.mem_of_mem_slice hx)

theorem slices_of_fields {slots : List Slot} {fields : List Field}
    (h : List.Forall₂ (FieldOf nm k r) slots fields)
    (hHeld : ∀ slot ∈ slots, slot.Held elementSize nm) :
    List.Forall₂ (fun name a => a.Holds (elementSize name)
        (Slices.slice ((arrayItems nm name).getD []) k r))
      (slots.filterMap Slot.array?) (fields.filterMap Field.array?) := by
  induction h with
  | nil => exact .nil
  | @cons slot f slots fields hSlot _ ih =>
    have hRest := ih fun s hs => hHeld s (List.mem_cons_of_mem _ hs)
    cases slot with
    | scalar t name =>
      cases hSlot with
      | scalar hPlain hEncode => exact hRest
    | array name =>
      obtain ⟨xs, a, hItems, rfl, hHolds⟩ :=
        holds_of_field hSlot (hHeld _ List.mem_cons_self)
      exact .cons (by rw [hItems]; exact hHolds) hRest

theorem exists_slot_of_field {slots : List Slot} {fields : List Field}
    (h : List.Forall₂ (FieldOf nm k r) slots fields) {f : Field} (hf : f ∈ fields) :
    ∃ slot ∈ slots, FieldOf nm k r slot f := by
  induction h with
  | nil => cases hf
  | @cons slot f' slots fields hSlot _ ih =>
    rcases List.mem_cons.mp hf with rfl | hf
    · exact ⟨slot, List.mem_cons_self, hSlot⟩
    · obtain ⟨slot, hMem, hField⟩ := ih hf
      exact ⟨slot, List.mem_cons_of_mem _ hMem, hField⟩

theorem exists_field_of_slot {slots : List Slot} {fields : List Field}
    (h : List.Forall₂ (FieldOf nm k r) slots fields) {slot : Slot} (hSlot : slot ∈ slots) :
    ∃ f ∈ fields, FieldOf nm k r slot f := by
  induction h with
  | nil => cases hSlot
  | @cons slot' f slots fields hHead _ ih =>
    rcases List.mem_cons.mp hSlot with rfl | hSlot
    · exact ⟨f, List.mem_cons_self, hHead⟩
    · obtain ⟨f, hMem, hField⟩ := ih hSlot
      exact ⟨f, List.mem_cons_of_mem _ hMem, hField⟩

theorem scalar_ne_array {slots : List Slot} {fields : List Field} {name : StdString} {x : Value}
    (h : List.Forall₂ (FieldOf nm k r) slots fields) (hName : .array name ∈ slots)
    (hHeld : ∀ slot ∈ slots, slot.Held elementSize nm) :
    (name, x) ∉ fields.filterMap Field.scalar? := by
  intro hMem
  obtain ⟨f, hf, hScalar⟩ := List.mem_filterMap.mp hMem
  obtain ⟨slot, -, hField⟩ := exists_slot_of_field h hf
  obtain ⟨a, xs, hPlain, -⟩ := hHeld _ hName
  cases hField with
  | scalar hPlain' hEncode =>
    obtain ⟨rfl, rfl⟩ := Prod.mk.inj (Option.some.inj hScalar)
    obtain rfl := hPlain'.unique hPlain
    rename_i t _ _
    cases t <;> cases hEncode
  | array hPlain' hItems => cases hScalar

theorem size_slice_le {slots : List Slot} {fields : List Field} {name : StdString}
    (h : List.Forall₂ (FieldOf nm k r) slots fields) (hName : .array name ∈ slots)
    (hHeld : ∀ slot ∈ slots, slot.Held elementSize nm) :
    (Slices.slice ((arrayItems nm name).getD []) k r).length * (elementSize name).toNat ≤
      (fields.flatMap Field.bytes).length := by
  obtain ⟨f, hf, hField⟩ := exists_field_of_slot h hName
  obtain ⟨xs, a, hItems, rfl, hHolds⟩ := holds_of_field hField (hHeld _ hName)
  have hData : a.data.length = (Slices.slice xs k r).length * (elementSize name).toNat := by
    rw [hHolds.data, Slices.length_flatten hHolds.lengths]
  have hField : (Field.array name a.type a.count a.data).bytes.length ≤
      (fields.flatMap Field.bytes).length := by
    rw [List.flatMap_def]
    exact (List.sublist_flatten_of_mem (List.mem_map_of_mem hf)).length_le
  have hBytes : a.data.length ≤ (Field.array name a.type a.count a.data).bytes.length := by
    simp only [Field.bytes, List.length_append]
    omega
  rw [hItems, Option.getD_some, ← hData]
  exact hBytes.trans hField

end Fields

end Tools

end Henson
