import Henson.Tools.Messages
import Henson.Tools.Shutdown

/-!
# Redistribution preserves the data

The pairs of partners are the same list whether one goes through them by the senders
or by the receivers, and the slices that a sender's partners get are the array it
has. So the elements that arrive, receiver by receiver, are the elements that were
sent, sender by sender.
-/

namespace Henson

namespace Tools

open MemoryBuffer

namespace Exchange

theorem sendRanks_cases (x : Exchange) :
    (∃ k, 0 < k ∧ x.senders = x.receivers * k ∧ sendFraction x.senders x.receivers = 1 ∧
        (∀ rank, x.sendRanks rank = [rank / k]) ∧
        ∀ rank, x.receiveRanks rank = (List.range k).map (rank * k + ·)) ∨
      ∃ k, 0 < k ∧ x.receivers = x.senders * k ∧ sendFraction x.senders x.receivers = k ∧
        (∀ rank, x.sendRanks rank = (List.range k).map (rank * k + ·)) ∧
        ∀ rank, x.receiveRanks rank = [rank / k] := by
  rcases x.ranks_cases with ⟨k, hk, hSize, hSend, hReceive⟩ | ⟨k, hk, hLt, hSize, hSend, hReceive⟩
  · have hGe : x.senders ≥ x.receivers := hSize ▸ Nat.le_mul_of_pos_right x.receivers hk
    exact .inl ⟨k, hk, hSize, if_pos hGe, hSend, hReceive⟩
  · have hFraction : sendFraction x.senders x.receivers = k := by
      rw [sendFraction, if_neg (by omega), hSize, Nat.mul_div_cancel_left k x.senders_pos]
    exact .inr ⟨k, hk, hSize, hFraction, hSend, hReceive⟩

theorem length_sendRanks (x : Exchange) (rank : Nat) :
    (x.sendRanks rank).length = sendFraction x.senders x.receivers := by
  rcases x.sendRanks_cases with ⟨k, -, -, hFraction, hSend, -⟩ | ⟨k, -, -, hFraction, hSend, -⟩
  · rw [hSend, hFraction]
    rfl
  · rw [hSend, hFraction, List.length_map, List.length_range]

theorem flatMap_receiveRanks (x : Exchange) {α : Type} (f : Nat → Nat → List α) :
    (List.range x.receivers).flatMap (fun q => (x.receiveRanks q).flatMap fun s => f s q) =
      (List.range x.senders).flatMap fun s => (x.sendRanks s).flatMap fun q => f s q := by
  rcases x.sendRanks_cases with ⟨k, hk, hSize, -, hSend, hReceive⟩ |
    ⟨k, hk, hSize, -, hSend, hReceive⟩
  · simp only [hSend, hReceive, List.flatMap_singleton, hSize]
    exact (Slices.flatMap_range_mul x.receivers hk fun q s => f s q).symm
  · simp only [hSend, hReceive, List.flatMap_singleton, hSize]
    exact Slices.flatMap_range_mul x.senders hk f

theorem flatMap_slices (x : Exchange) {α : Type} (rank : Nat) (l : List α) :
    ((x.sendRanks rank).flatMap fun q =>
      Slices.slice l (sendFraction x.senders x.receivers) ((x.sendRanks rank).idxOf q)) = l := by
  have hPos : 0 < sendFraction x.senders x.receivers := by
    rcases x.sendRanks_cases with ⟨k, hk, -, hFraction, -⟩ | ⟨k, hk, -, hFraction, -⟩
    · rw [hFraction]
      exact Nat.one_pos
    · rw [hFraction]
      exact hk
  have hSlices := Slices.flatMap_idxOf (nodup_partnerRanks x.senders x.receivers rank)
    (Slices.slice l (sendFraction x.senders x.receivers))
  apply hSlices.trans
  change (List.range (x.sendRanks rank).length).flatMap _ = l
  rw [length_sendRanks]
  exact Slices.flatMap_slice l hPos

end Exchange

def Round.piece {x : Exchange} (round : Round x) (s q : Nat) (name : StdString) :
    List (List Byte) :=
  Slices.slice ((arrayItems (round.senders s) name).getD []) (sendFraction x.senders x.receivers)
    ((x.sendRanks s).idxOf q)

/-- Every sender holds its values, the elements of an array have one size on all senders, an
`int` counts the bytes of every message, and a `size_t` the elements without any bytes. -/
structure Round.Ready {x : Exchange} (round : Round x) (elementSize : StdString → UInt64) :
    Prop where
  senders_lt : x.senders < 2 ^ 31
  held : ∀ s < x.senders, ∀ slot ∈ slots round.vars, slot.Held elementSize (round.senders s)
  fits : ∀ s < x.senders, ∀ r < sendFraction x.senders x.receivers, ∀ bb nm,
    packMessage round.vars
      ⟨r, sendFraction x.senders x.receivers, sendFraction x.senders x.receivers⟩
      (round.senders s) = some (bb, nm) → bb.size < 2 ^ 31
  counted : ∀ q < x.receivers, ∀ name ∈ arrayNames round.vars, elementSize name = 0 →
    ((x.receiveRanks q).flatMap fun s => round.piece s q name).length < 2 ^ 64

namespace Exchange

theorem length_receiveRanks_le (x : Exchange) (q : Nat) :
    (x.receiveRanks q).length ≤ x.senders := by
  rcases x.sendRanks_cases with ⟨k, hk, hSize, -, -, hReceive⟩ | ⟨k, hk, hSize, -, -, hReceive⟩
  · rw [hReceive, List.length_map, List.length_range, hSize]
    exact Nat.le_mul_of_pos_left k x.receivers_pos
  · rw [hReceive]
    exact x.senders_pos

end Exchange

namespace Round

variable {x : Exchange} {round : Round x} {elementSize : StdString → UInt64}

def Fields (round : Round x) (s q : Nat) (fields : List Field) : Prop :=
  List.Forall₂ (FieldOf (round.senders s) (sendFraction x.senders x.receivers)
    ((x.sendRanks s).idxOf q)) (slots round.vars) fields

theorem exists_sends (h : round.Ready elementSize) {s : Nat} (hs : s < x.senders) :
    ∃ fields : Nat → List Field, ∀ q ∈ x.sendRanks s, round.Fields s q (fields q) ∧
      round.message s q = some ((fields q).flatMap Field.bytes) ∧
      ((fields q).flatMap Field.bytes).length < 2 ^ 31 := by
  let k := sendFraction x.senders x.receivers
  have hExists := exists_fields (k := k) (h.held s hs)
  have hFields : ∀ r < k, List.Forall₂ (FieldOf (round.senders s) k r) (slots round.vars)
    (hExists r).choose := fun r _ => (hExists r).choose_spec
  have hFits : ∀ r < k, ((hExists r).choose.flatMap Field.bytes).length < 2 ^ 31 := fun r hr =>
    h.fits s hs r hr _ _ (packSlots_written (hFields r hr) hr [])
  have hLength : (x.sendRanks s).length = k := x.length_sendRanks s
  have hRanks : 0 + (x.sendRanks s).length ≤ k := by omega
  obtain ⟨sends, hSends, hLookup⟩ := sendFrom_eq hFields hFits hRanks
  refine ⟨fun q => (hExists ((x.sendRanks s).idxOf q)).choose, fun q hq => ?_⟩
  have hIndex : (x.sendRanks s).idxOf q < k := hLength ▸ List.idxOf_lt_length_of_mem hq
  refine ⟨hFields _ hIndex, ?_, hFits _ hIndex⟩
  have hTarget := hLookup q hq
  rw [Nat.zero_add] at hTarget
  have hAll : round.sends s = some sends := by
    rw [Round.sends, hLength, hSends]
    rfl
  rw [Round.message, hAll]
  exact hTarget

theorem mapM_message {q : Nat} {message : Nat → List Byte} {sources : List Nat}
    (h : ∀ s ∈ sources, round.message s q = some (message s)) :
    sources.mapM (fun s => round.message s q) = some (sources.map message) := by
  induction sources with
  | nil => rfl
  | cons s sources ih =>
    rw [List.mapM_cons, h s List.mem_cons_self, ih fun s' hs' => h s' (List.mem_cons_of_mem s hs')]
    rfl

theorem forall₂_replicate {α β : Type} {R : α → β → Prop} {b : β} (h : ∀ a, R a b) (l : List α) :
    List.Forall₂ R l (List.replicate l.length b) := by
  induction l with
  | nil => exact .nil
  | cons a l ih => exact .cons (h a) ih

theorem size_flatMap_le {α β : Type} {l : List α} {f : α → List β} {width bound : Nat}
    (h : ∀ a ∈ l, (f a).length * width ≤ bound) :
    (l.flatMap f).length * width ≤ l.length * bound := by
  induction l with
  | nil => rw [List.flatMap_nil, List.length_nil, Nat.zero_mul, List.length_nil, Nat.zero_mul]
  | cons a l ih =>
    have hHead := h a List.mem_cons_self
    have hTail := ih fun b hb => h b (List.mem_cons_of_mem a hb)
    rw [List.flatMap_cons, List.length_append, List.length_cons, Nat.succ_mul, Nat.add_mul]
    omega

theorem mem_slots_of_mem_arrayNames {vars : List Variable} {name : StdString}
    (h : name ∈ arrayNames vars) : .array name ∈ slots vars := by
  obtain ⟨slot, hSlot, hName⟩ := List.mem_filterMap.mp h
  cases slot with
  | scalar t n => cases hName
  | array n =>
    obtain rfl := Option.some.inj hName
    exact hSlot

theorem exists_messages (h : round.Ready elementSize) {q : Nat} (hq : q < x.receivers) :
    ∃ fields : Nat → List Field, ∀ s ∈ x.receiveRanks q, round.Fields s q (fields s) ∧
      round.message s q = some ((fields s).flatMap Field.bytes) ∧
      ((fields s).flatMap Field.bytes).length < 2 ^ 31 := by
  classical
  have hEach : ∀ s ∈ x.receiveRanks q, ∃ fields, round.Fields s q fields ∧
      round.message s q = some (fields.flatMap Field.bytes) ∧
      (fields.flatMap Field.bytes).length < 2 ^ 31 := by
    intro s hs
    have hLt := x.lt_of_mem_receiveRanks hq hs
    obtain ⟨fields, hFields⟩ := exists_sends h hLt
    exact ⟨fields q, hFields q (x.mem_sendRanks_iff.mpr hs)⟩
  refine ⟨fun s => if hs : s ∈ x.receiveRanks q then (hEach s hs).choose else [], fun s hs => ?_⟩
  simp only [dif_pos hs]
  exact (hEach s hs).choose_spec

theorem size_pieces_lt (h : round.Ready elementSize) {q : Nat} (hq : q < x.receivers)
    {fields : Nat → List Field} (hFields : ∀ s ∈ x.receiveRanks q, round.Fields s q (fields s) ∧
      ((fields s).flatMap Field.bytes).length < 2 ^ 31) {name : StdString}
    (hName : name ∈ arrayNames round.vars) :
    ((x.receiveRanks q).flatMap fun s => round.piece s q name).length *
      (elementSize name).toNat < 2 ^ 64 := by
  have hPiece : ∀ s ∈ x.receiveRanks q,
      (round.piece s q name).length * (elementSize name).toNat ≤ 2 ^ 31 := by
    intro s hs
    obtain ⟨hForall, hLt⟩ := hFields s hs
    have hSize := size_slice_le hForall (mem_slots_of_mem_arrayNames hName)
      (h.held s (x.lt_of_mem_receiveRanks hq hs))
    exact hSize.trans hLt.le
  have hSenders := h.senders_lt
  calc ((x.receiveRanks q).flatMap fun s => round.piece s q name).length *
        (elementSize name).toNat
      ≤ (x.receiveRanks q).length * 2 ^ 31 := size_flatMap_le hPiece
    _ ≤ x.senders * 2 ^ 31 := Nat.mul_le_mul_right _ (x.length_receiveRanks_le q)
    _ < 2 ^ 64 := by omega

theorem length_pieces_lt (h : round.Ready elementSize) {q : Nat} (hq : q < x.receivers)
    {fields : Nat → List Field} (hFields : ∀ s ∈ x.receiveRanks q, round.Fields s q (fields s) ∧
      ((fields s).flatMap Field.bytes).length < 2 ^ 31) {name : StdString}
    (hName : name ∈ arrayNames round.vars) :
    ((x.receiveRanks q).flatMap fun s => round.piece s q name).length < 2 ^ 64 := by
  by_cases hZero : elementSize name = 0
  · exact h.counted q hq name hName hZero
  · have hPos : 0 < (elementSize name).toNat :=
      Nat.pos_of_ne_zero fun hNat => hZero (UInt64.toNat_inj.mp hNat)
    exact (Nat.le_mul_of_pos_right _ hPos).trans_lt (size_pieces_lt h hq hFields hName)

theorem elements_of_mem_savesOf {names : List StdString} {arrays : List Gathered}
    {size : StdString → UInt64} {all : StdString → List (List Byte)}
    (h : List.Forall₂ (fun name g => g.Holds (size name) (all name)) names arrays)
    (hFits : ∀ name ∈ names, (all name).length * (size name).toNat < 2 ^ 64)
    {name : StdString} {v : Value} (hMem : (name, v) ∈ savesOf names arrays) :
    ∃ a, v = .array a ∧ a.elements = some (all name) := by
  induction h with
  | nil => cases hMem
  | @cons n g names arrays hHead _ ih =>
    rcases List.mem_cons.mp hMem with hEq | hMem
    · obtain ⟨rfl, rfl⟩ := Prod.mk.inj hEq
      exact ⟨_, rfl, hHead.elements (hFits _ List.mem_cons_self)⟩
    · exact ih (fun m hm => hFits m (List.mem_cons_of_mem n hm)) hMem

theorem exists_mem_savesOf {names : List StdString} {arrays : List Gathered}
    (h : names.length = arrays.length) {name : StdString} (hName : name ∈ names) :
    ∃ v, (name, v) ∈ savesOf names arrays := by
  induction names generalizing arrays with
  | nil => cases hName
  | cons n names ih =>
    obtain _ | ⟨g, arrays⟩ := arrays
    · cases h
    rcases List.mem_cons.mp hName with rfl | hName
    · exact ⟨_, List.mem_cons_self⟩
    · obtain ⟨v, hMem⟩ := ih (Nat.succ.inj h) hName
      exact ⟨v, List.mem_cons_of_mem _ hMem⟩

theorem unpackRound_single {nm : NameMap} {vars : List Variable} {k r : Nat} {fields : List Field}
    (h : List.Forall₂ (FieldOf nm k r) (slots vars) fields)
    (hFits : (fields.flatMap Field.bytes).length < 2 ^ 64) :
    unpackRound vars [fields.flatMap Field.bytes] = some (fields.map Field.save) := by
  have hUnpack := unpackSlots_recv h hFits true
    ⟨0, List.replicate (arrayNames vars).length {}, []⟩
  have hSaves := publish_single fields ⟨0, List.replicate (arrayNames vars).length {}, []⟩
  rw [List.nil_append] at hSaves
  have hMessages : unpackMessages true vars [fields.flatMap Field.bytes]
      ⟨0, List.replicate (arrayNames vars).length {}, []⟩ =
      some (fields.foldl (Unpacking.publish true)
        ⟨0, List.replicate (arrayNames vars).length {}, []⟩) := by
    simp only [unpackMessages, hUnpack, Option.bind_eq_bind, Option.bind_some]
  simp only [unpackRound, List.length_singleton, beq_self_eq_true, hMessages,
    Option.bind_eq_bind, Option.bind_some, if_true, hSaves]
  rfl

theorem unpackRound_many {vars : List Variable} {messages : List (List Byte)}
    (h : messages.length ≠ 1) {idx : Nat} {arrays : List Gathered}
    {saves : List (StdString × Value)}
    (hMessages : unpackMessages false vars messages
      ⟨0, List.replicate (arrayNames vars).length {}, []⟩ = some ⟨idx, arrays, saves⟩) :
    unpackRound vars messages = some (saves ++ savesOf (arrayNames vars) arrays) := by
  have hSingle : (messages.length == 1) = false := beq_false_of_ne h
  simp only [unpackRound, hSingle, hMessages, Option.bind_eq_bind, Option.bind_some]
  rfl

theorem elements_of_mem_save {nm : NameMap} {k r : Nat} {slots : List Slot} {fields : List Field}
    (h : List.Forall₂ (FieldOf nm k r) slots fields)
    (hHeld : ∀ slot ∈ slots, slot.Held elementSize nm)
    (hFits : (fields.flatMap Field.bytes).length < 2 ^ 64) {name : StdString}
    (hName : .array name ∈ slots) :
    (∃ v, (name, v) ∈ fields.map Field.save) ∧ ∀ v, (name, v) ∈ fields.map Field.save →
      ∃ a, v = .array a ∧
        a.elements = some (Slices.slice ((arrayItems nm name).getD []) k r) := by
  constructor
  · obtain ⟨f, hf, hField⟩ := exists_field_of_slot h hName
    obtain ⟨xs, a, -, rfl, -⟩ := holds_of_field hField (hHeld _ hName)
    exact ⟨_, List.mem_map.mpr ⟨_, hf, rfl⟩⟩
  · intro v hMem
    obtain ⟨f, hf, hSave⟩ := List.mem_map.mp hMem
    cases f with
    | scalar n t x =>
      have hScalar : (name, v) ∈ fields.filterMap Field.scalar? :=
        List.mem_filterMap.mpr ⟨.scalar n t x, hf, congrArg some hSave⟩
      exact absurd hScalar (scalar_ne_array h hName hHeld)
    | array n type count data =>
      obtain ⟨rfl, rfl⟩ := Prod.mk.inj hSave
      obtain ⟨slot, hSlot, hField⟩ := exists_slot_of_field h hf
      have hArray : slot = .array n := by
        cases hField
        rfl
      subst hArray
      obtain ⟨xs, a, hItems, hEq, hHolds⟩ := holds_of_field hField (hHeld _ hSlot)
      obtain ⟨-, rfl, rfl, rfl⟩ := Field.array.inj hEq
      have hSize := size_slice_le h hSlot hHeld
      rw [hItems, Option.getD_some] at hSize
      rw [hItems]
      exact ⟨_, rfl, hHolds.elements (hSize.trans_lt hFits)⟩

theorem exists_saves (h : round.Ready elementSize) {q : Nat} (hq : q < x.receivers)
    {fields : Nat → List Field} (hFields : ∀ s ∈ x.receiveRanks q, round.Fields s q (fields s) ∧
      ((fields s).flatMap Field.bytes).length < 2 ^ 31) :
    ∃ saves, unpackRound round.vars ((x.receiveRanks q).map fun s =>
        (fields s).flatMap Field.bytes) = some saves ∧
      ∀ name ∈ arrayNames round.vars, (∃ v, (name, v) ∈ saves) ∧
        ∀ v, (name, v) ∈ saves → ∃ a, v = .array a ∧
          a.elements = some ((x.receiveRanks q).flatMap fun s => round.piece s q name) := by
  have hHeld : ∀ s ∈ x.receiveRanks q, ∀ slot ∈ slots round.vars,
      slot.Held elementSize (round.senders s) :=
    fun s hs => h.held s (x.lt_of_mem_receiveRanks hq hs)
  by_cases hSingle : (x.receiveRanks q).length = 1
  · obtain ⟨s, hRanks⟩ := List.length_eq_one_iff.mp hSingle
    have hs : s ∈ x.receiveRanks q := hRanks ▸ List.mem_singleton_self s
    obtain ⟨hForall, hLt⟩ := hFields s hs
    have hRound := unpackRound_single hForall (by omega)
    refine ⟨_, by rw [hRanks]; exact hRound, fun name hName => ?_⟩
    rw [hRanks, List.flatMap_singleton]
    exact elements_of_mem_save hForall (hHeld s hs) (by omega) (mem_slots_of_mem_arrayNames hName)
  · have hRead : ∀ s ∈ x.receiveRanks q, ∀ u, ∃ bb,
        unpackSlots false (slots round.vars) (recv ((fields s).flatMap Field.bytes)) u =
          some ((fields s).foldl (Unpacking.publish false) u, bb) :=
      fun s hs u => by
        obtain ⟨hForall, hLt⟩ := hFields s hs
        exact ⟨_, unpackSlots_recv hForall (by omega) false u⟩
    have hSlices : ∀ s ∈ x.receiveRanks q, List.Forall₂
        (fun name a => a.Holds (elementSize name) (round.piece s q name))
        (arrayNames round.vars) ((fields s).filterMap Field.array?) :=
      fun s hs => slices_of_fields (hFields s hs).1 (hHeld s hs)
    have hNone : List.Forall₂ (fun name (g : Gathered) => g.Holds (elementSize name) [])
        (arrayNames round.vars) (List.replicate (arrayNames round.vars).length {}) :=
      forall₂_replicate (b := ({} : Gathered))
        (fun name => Gathered.holds_nil (elementSize name)) _
    obtain ⟨idx, arrays, hMessages, hGathered⟩ := @unpackMessages_many _ _ _ _ _ _ hRead hSlices
      _ 0 _ [] hNone fun name hName => length_pieces_lt h hq hFields hName
    have hLength : ((x.receiveRanks q).map fun s => (fields s).flatMap Field.bytes).length ≠ 1 := by
      rwa [List.length_map]
    refine ⟨_, unpackRound_many hLength hMessages, fun name hName => ⟨?_, fun v hMem => ?_⟩⟩
    · obtain ⟨v, hMem⟩ := exists_mem_savesOf hGathered.length_eq hName
      exact ⟨v, List.mem_append_right _ hMem⟩
    · rcases List.mem_append.mp hMem with hScalar | hSaved
      · obtain ⟨s, hs, hScalar⟩ := List.mem_flatMap.mp hScalar
        exact absurd hScalar (scalar_ne_array (hFields s hs).1
          (mem_slots_of_mem_arrayNames hName) (hHeld s hs))
      · exact elements_of_mem_savesOf hGathered
          (fun name hName => size_pieces_lt h hq hFields hName) hSaved

/-- The arrays that a receiver publishes under a name, each with the elements `xs`. -/
def Publishes (round : Round x) (q : Nat) (name : StdString) (xs : List (List Byte)) : Prop :=
  ∃ saves, round.published q = some saves ∧ (∃ v, (name, v) ∈ saves) ∧
    ∀ v, (name, v) ∈ saves → ∃ a, v = .array a ∧ a.elements = some xs

theorem publishes_pieces (h : round.Ready elementSize) {q : Nat} (hq : q < x.receivers)
    {name : StdString} (hName : name ∈ arrayNames round.vars) :
    round.Publishes q name ((x.receiveRanks q).flatMap fun s => round.piece s q name) := by
  obtain ⟨fields, hFields⟩ := exists_messages h hq
  obtain ⟨saves, hSaves, hArrays⟩ := exists_saves h hq fun s hs =>
    ⟨(hFields s hs).1, (hFields s hs).2.2⟩
  refine ⟨saves, ?_, hArrays name hName⟩
  rw [Round.published, mapM_message fun s hs => (hFields s hs).2.1]
  exact hSaves

theorem Publishes.received {q : Nat} {name : StdString} {xs : List (List Byte)}
    (h : round.Publishes q name xs) (hQueue : (round.receivers q).queues[name]? = none) :
    ∃ nm, round.received q = some nm ∧ arrayItems nm name = some xs := by
  obtain ⟨saves, hSaves, hSome, hAll⟩ := h
  refine ⟨addAll (round.receivers q) saves, by rw [Round.received, hSaves]; rfl, ?_⟩
  obtain ⟨v, ⟨a, rfl, hItems⟩, hPlain⟩ := addAll_plain hQueue hSome hAll
  exact hPlain.arrayItems hItems

end Round

end Tools

open Tools LittleEndian MemoryBuffer

/-- A round of `send` and `receive`: the partners agree, a message is read as it was written,
and the elements of an array arrive in their order, all of them and no others. -/
theorem redistribution_preserves_data {x : Exchange} (round : Round x)
    {elementSize : StdString → UInt64} (h : round.Ready elementSize) :
    (∀ s q, q ∈ x.sendRanks s ↔ s ∈ x.receiveRanks q) ∧
    (∀ s < x.senders, ∀ q ∈ x.sendRanks s, ∃ message fields bb,
      round.message s q = some message ∧ round.Fields s q fields ∧
      readSlots (slots round.vars) (recv message) = some (fields, bb) ∧ bb.AtEnd) ∧
    ∀ name ∈ arrayNames round.vars, ∃ parts wholes : Nat → List (List Byte),
      (∀ q < x.receivers, round.Publishes q name (parts q) ∧
        ((round.receivers q).queues[name]? = none →
          ∃ nm, round.received q = some nm ∧ arrayItems nm name = some (parts q))) ∧
      (∀ s < x.senders, arrayItems (round.senders s) name = some (wholes s)) ∧
      (List.range x.receivers).flatMap parts = (List.range x.senders).flatMap wholes := by
  refine ⟨fun s q => x.mem_sendRanks_iff, fun s hs q hq => ?_, fun name hName => ?_⟩
  · obtain ⟨fields, hFields⟩ := Round.exists_sends h hs
    obtain ⟨hForall, hMessage, hLt⟩ := hFields q hq
    exact ⟨_, fields q, _, hMessage, hForall, readSlots_recv hForall (by omega), atEnd_written _⟩
  · refine ⟨fun q => (x.receiveRanks q).flatMap fun s => round.piece s q name,
      fun s => (arrayItems (round.senders s) name).getD [], fun q hq => ?_, fun s hs => ?_, ?_⟩
    · have hPublishes := Round.publishes_pieces h hq hName
      exact ⟨hPublishes, hPublishes.received⟩
    · obtain ⟨a, xs, hPlain, hItems, -⟩ := h.held s hs _ (Round.mem_slots_of_mem_arrayNames hName)
      have hWhole := hPlain.arrayItems hItems
      exact hWhole.trans (congrArg some (congrArg (·.getD []) hWhole).symm)
    · rw [x.flatMap_receiveRanks fun s q => round.piece s q name]
      exact List.flatMap_congr fun s _ => x.flatMap_slices s _

/-- An array that runs backwards with gaps, and a number, go from one sender to two receivers. -/
theorem redistribution_preserves_data_run :
    let x : Exchange := ⟨1, 2, 1, by decide, by decide, .inl (by decide)⟩
    let a : Array := ⟨0, [3, 0, 9, 2, 0, 9, 1, 0], 6, 2, 3, -3⟩
    let round : Round x := ⟨[⟨ascii "a", ascii "array"⟩, ⟨ascii "n", ascii "int"⟩],
      fun _ => (({} : NameMap).add (ascii "a") (.array a)).add (ascii "n") (.int 7), fun _ => {}⟩
    ∃ parts : Nat → List (List Byte),
      (∀ q < 2, ∃ nm, round.received q = some nm ∧ arrayItems nm (ascii "a") = some (parts q)) ∧
      (List.range 2).flatMap parts = [[1, 0], [2, 0], [3, 0]] := by
  intro x a round
  have hNone : ({} : NameMap).queues[ascii "a"]? = none := by simp
  have hNone' : ({} : NameMap).queues[ascii "n"]? = none := by simp
  have hArray : Plain (round.senders 0) (ascii "a") (.array a) := by
    obtain ⟨hQueue, hValue⟩ := add_plain (n := ascii "a") (x := .array a) hNone
    obtain ⟨hQueue', hValue'⟩ := add_plain (n := ascii "n") (x := .int 7) hQueue
    exact ⟨hQueue', hValue'.trans hValue⟩
  have hInt : Plain (round.senders 0) (ascii "n") (.int 7) := by
    obtain ⟨hQueue, -⟩ := add_plain (n := ascii "a") (x := .array a) hNone'
    obtain ⟨hQueue', hValue'⟩ := add_plain (n := ascii "n") (x := .int 7) hQueue
    exact ⟨hQueue', hValue'⟩
  have hItems : a.elements = some [[1, 0], [2, 0], [3, 0]] := by decide
  have hSlots : slots round.vars = [.array (ascii "a"), .scalar .int (ascii "n")] := by decide
  have hReady : round.Ready fun _ => 2 := by
    refine ⟨by decide, fun s _ slot hSlot => ?_, fun s _ r hr bb nm hPack => ?_,
      fun q _ name _ hZero => absurd hZero (by decide)⟩
    · rw [hSlots] at hSlot
      rcases List.mem_pair.mp hSlot with rfl | rfl
      · exact ⟨a, _, hArray, hItems, rfl⟩
      · exact ⟨.int 7, _, hInt, rfl⟩
    · let xs : List (List Byte) := Slices.slice [[1, 0], [2, 0], [3, 0]] 2 r
      have hFields : List.Forall₂ (FieldOf (round.senders 0) 2 r) (slots round.vars)
          [.array (ascii "a") 2 (UInt64.ofNat xs.length) xs.flatten,
            .scalar (ascii "n") .int (.int 7)] := by
        rw [hSlots]
        exact .cons (.array hArray hItems) (.cons (.scalar hInt rfl) .nil)
      have hFraction : sendFraction x.senders x.receivers = 2 := by decide
      rw [hFraction] at hr hPack
      have hWritten := packSlots_written hFields hr []
      obtain ⟨rfl, -⟩ := Prod.mk.inj (Option.some.inj (hPack.symm.trans hWritten))
      obtain rfl | rfl : r = 0 ∨ r = 1 := by omega
      all_goals decide
  obtain ⟨-, -, hArrays⟩ := redistribution_preserves_data round hReady
  obtain ⟨parts, wholes, hParts, hWholes, hAll⟩ := hArrays (ascii "a") (by decide)
  refine ⟨parts, fun q hq => (hParts q hq).2 hNone, hAll.trans ?_⟩
  have hWhole := (hWholes 0 (by decide)).symm.trans (hArray.arrayItems hItems)
  change wholes 0 ++ [] = _
  rw [List.append_nil, Option.some.inj hWhole]

/-- From 2 GiB on, the count that is passed for a message is negative. -/
theorem sendFrom_eq_none {vars : List Tools.Variable} {nm : NameMap} {k : Nat} {fields : List Field}
    (hFields : List.Forall₂ (FieldOf nm k 0) (slots vars) fields) (hk : 0 < k)
    (hLow : 2 ^ 31 ≤ (fields.flatMap Field.bytes).length)
    (hHigh : (fields.flatMap Field.bytes).length < 2 ^ 32) (rank : Nat) (ranks : List Nat) :
    sendFrom vars k k 0 (rank :: ranks) nm = none := by
  have hPack : packMessage vars ⟨0, k, k⟩ nm = some (written (fields.flatMap Field.bytes), nm) :=
    packSlots_written hFields hk []
  have hSend : (written (fields.flatMap Field.bytes)).send = none := send_eq_none hLow hHigh
  simp only [sendFrom, hPack, hSend, Option.bind_eq_bind, Option.bind_some, Option.bind_none]

theorem elements_bytes {data : List Byte} (h : data.length < 2 ^ 64) :
    (Array.mk 0 data 0 1 (UInt64.ofNat data.length) 1).elements = some (data.map fun b => [b]) := by
  have hFlatten : (data.map fun b => [b]).flatten = data := List.flatMap_singleton' data
  have hLengths : ∀ item ∈ data.map fun b => [b], item.length = (1 : UInt64).toNat := by
    intro item hItem
    obtain ⟨b, -, rfl⟩ := List.mem_map.mp hItem
    rfl
  have hCount : (UInt64.ofNat data.length).toNat = (data.map fun b => [b]).length := by
    rw [UInt64.toNat_ofNat', Nat.mod_eq_of_lt h, List.length_map]
  have hFits : (UInt64.ofNat data.length).toNat * (1 : UInt64).toNat < 2 ^ 64 :=
    (Nat.mul_one _).trans_lt (UInt64.toNat_lt _)
  have hFlat := @Array.elements_row _ 0 _ _ hCount.symm hLengths hFits
  rwa [hFlatten] at hFlat

theorem plain_add (name : StdString) (v : Value) :
    Plain (({} : NameMap).add name v) name v := by
  have hNone : ({} : NameMap).queues[name]? = none := by simp
  obtain ⟨hQueue, hValue⟩ := @add_plain _ _ name v hNone
  exact ⟨hQueue, by rwa [if_pos rfl] at hValue⟩

/-- A long array of bytes, from one sender to one receiver. -/
theorem bytes_not_redistributed {data : List Byte} (hLow : 2 ^ 31 ≤ data.length)
    (hHigh : data.length < 2 ^ 31 + 2 ^ 29) :
    let x : Exchange := ⟨1, 1, 1, by decide, by decide, .inl (by decide)⟩
    let a : Array := ⟨0, data, 0, 1, UInt64.ofNat data.length, 1⟩
    let round : Round x := ⟨[⟨ascii "a", ascii "array"⟩],
      fun _ => ({} : NameMap).add (ascii "a") (.array a), fun _ => {}⟩
    (∀ s < x.senders, ∀ slot ∈ slots round.vars, slot.Held (fun _ => 1) (round.senders s)) ∧
      0 ∈ x.sendRanks 0 ∧ round.message 0 0 = none ∧ round.published 0 = none := by
  intro x a round
  have hItems : a.elements = some (data.map fun b => [b]) := elements_bytes (by omega)
  have hArray : Plain (({} : NameMap).add (ascii "a") (.array a)) (ascii "a") (.array a) :=
    plain_add (ascii "a") (.array a)
  have hSlots : slots [⟨ascii "a", ascii "array"⟩] = [.array (ascii "a")] := by decide
  let xs := Slices.slice (data.map fun b => [b]) 1 0
  have hFields : List.Forall₂ (FieldOf (round.senders 0) 1 0)
      (slots [⟨ascii "a", ascii "array"⟩])
      [.array (ascii "a") 1 (UInt64.ofNat xs.length) xs.flatten] := by
    rw [hSlots]
    exact .cons (.array hArray hItems) .nil
  have hLength : ([Field.array (ascii "a") 1 (UInt64.ofNat xs.length) xs.flatten].flatMap
      Field.bytes).length = 16 + data.length := by
    have hSlice : xs ++ [] = data.map fun b => [b] := Slices.flatMap_slice _ Nat.one_pos
    have hWhole : xs.flatten = data := by
      rw [← xs.append_nil, hSlice]
      exact List.flatMap_singleton' data
    simp [Field.bytes, hWhole]
    omega
  have hSend := sendFrom_eq_none hFields Nat.one_pos (by omega) (by omega) 0 []
  have hSends : round.sends 0 = none := by
    have hRanks : x.sendRanks 0 = [0] := by decide
    rw [Round.sends, hRanks]
    change (sendFrom [⟨ascii "a", ascii "array"⟩] 1 1 0 [0] (round.senders 0)).bind _ = none
    rw [hSend, Option.bind_none]
  have hMessage : round.message 0 0 = none := by
    rw [Round.message, hSends]
    rfl
  refine ⟨fun s _ slot hSlot => ?_, by decide, hMessage, ?_⟩
  · have hSlot : slot ∈ slots [⟨ascii "a", ascii "array"⟩] := hSlot
    rw [hSlots] at hSlot
    obtain rfl := List.mem_singleton.mp hSlot
    exact ⟨a, _, hArray, hItems, rfl⟩
  · have hRanks : x.receiveRanks 0 = [0] := by decide
    rw [Round.published, hRanks, List.mapM_cons, hMessage]
    rfl

theorem elements_empty {n : Nat} (h : n < 2 ^ 64) :
    (Array.mk 0 [] 0 0 (UInt64.ofNat n) 0).elements = some (List.replicate n []) := by
  have hLengths : ∀ item ∈ List.replicate n ([] : List Byte), item.length = (0 : UInt64).toNat := by
    intro item hItem
    obtain ⟨-, rfl⟩ := List.mem_replicate.mp hItem
    rfl
  have hCount : (UInt64.ofNat n).toNat = (List.replicate n ([] : List Byte)).length := by
    rw [UInt64.toNat_ofNat', Nat.mod_eq_of_lt h, List.length_replicate]
  have hFlat := @Array.elements_row _ 0 _ _ hCount.symm hLengths (Nat.two_pow_pos 64)
  rwa [List.flatten_replicate_nil] at hFlat

/-- Elements without any bytes, from two senders to one receiver. -/
theorem empty_elements_not_counted {n : Nat} (h : n = 2 ^ 63) :
    let x : Exchange := ⟨2, 1, 1, by decide, by decide, .inr (by decide)⟩
    let a : Array := ⟨0, [], 0, 0, UInt64.ofNat n, 0⟩
    let round : Round x := ⟨[⟨ascii "a", ascii "array"⟩],
      fun _ => ({} : NameMap).add (ascii "a") (.array a), fun _ => {}⟩
    (∀ s < x.senders, ∀ slot ∈ slots round.vars, slot.Held (fun _ => 0) (round.senders s)) ∧
      (∀ s < x.senders, arrayItems (round.senders s) (ascii "a") = some (List.replicate n [])) ∧
      round.published 0 = some [(ascii "a", .array ⟨0, [], 0, 0, 0, 0⟩)] := by
  intro x a round
  have hItems : a.elements = some (List.replicate n []) := elements_empty (by omega)
  have hArray : Plain (({} : NameMap).add (ascii "a") (.array a)) (ascii "a") (.array a) :=
    plain_add (ascii "a") (.array a)
  have hSlots : slots [⟨ascii "a", ascii "array"⟩] = [.array (ascii "a")] := by decide
  have hSlice : Slices.slice (List.replicate n ([] : List Byte)) 1 0 = List.replicate n [] := by
    have hAll := Slices.flatMap_slice (List.replicate n ([] : List Byte)) Nat.one_pos
    rwa [List.range_one, List.flatMap_singleton] at hAll
  have hFields : ∀ s, ∀ r < 1, List.Forall₂ (FieldOf (round.senders s) 1 r)
      (slots [⟨ascii "a", ascii "array"⟩]) [.array (ascii "a") 0 (UInt64.ofNat (2 ^ 63)) []] := by
    intro s r hr
    obtain rfl : r = 0 := by omega
    have hField := FieldOf.array (k := 1) (r := 0) hArray hItems
    rw [hSlice, List.length_replicate, List.flatten_replicate_nil, h] at hField
    rw [hSlots]
    exact .cons hField .nil
  have hMessage : ∀ s < 2, round.message s 0 =
      some (toBytes 8 (UInt64.ofNat (2 ^ 63)).toNat ++ toBytes 8 0) := by
    intro s hs
    let fields : Nat → List Field := fun _ => [.array (ascii "a") 0 (UInt64.ofNat (2 ^ 63)) []]
    have hFits : ∀ r < 1, ((fields r).flatMap Field.bytes).length < 2 ^ 31 :=
      fun _ _ => (by decide : ((fields 0).flatMap Field.bytes).length < 2 ^ 31)
    have hLength : 0 + [0].length ≤ 1 := by decide
    obtain ⟨sends, hSends, hLookup⟩ := sendFrom_eq (hFields s) hFits hLength
    have hRanks : x.sendRanks s = [0] := by
      obtain rfl | rfl : s = 0 ∨ s = 1 := by omega
      all_goals decide
    have hAll : round.sends s = some sends := by
      rw [Round.sends, hRanks]
      change (sendFrom [⟨ascii "a", ascii "array"⟩] 1 1 0 [0] (round.senders s)).bind _ = _
      rw [hSends]
      rfl
    rw [Round.message, hAll]
    exact hLookup 0 (List.mem_singleton_self 0)
  refine ⟨fun s _ slot hSlot => ?_, fun s _ => hArray.arrayItems hItems, ?_⟩
  · have hSlot : slot ∈ slots [⟨ascii "a", ascii "array"⟩] := hSlot
    rw [hSlots] at hSlot
    obtain rfl := List.mem_singleton.mp hSlot
    exact ⟨a, _, hArray, hItems, rfl⟩
  · have hRanks : x.receiveRanks 0 = [0, 1] := by decide
    have hUnpack : unpackRound [⟨ascii "a", ascii "array"⟩]
        ([0, 1].map fun _ => toBytes 8 (UInt64.ofNat (2 ^ 63)).toNat ++ toBytes 8 0) =
        some [(ascii "a", .array ⟨0, [], 0, 0, 0, 0⟩)] := by decide
    rw [Round.published, hRanks, Round.mapM_message fun s hs => hMessage s ?_]
    · exact hUnpack
    · rcases List.mem_pair.mp hs with rfl | rfl
      · decide
      · decide

/-- A message of 2 GiB is not sent, and the counts of elements without bytes wrap around. -/
theorem redistribution_overflows :
    (let data : List Byte := List.replicate (2 ^ 31) 0
    let x : Exchange := ⟨1, 1, 1, by decide, by decide, .inl (by decide)⟩
    let a : Array := ⟨0, data, 0, 1, UInt64.ofNat data.length, 1⟩
    let round : Round x := ⟨[⟨ascii "a", ascii "array"⟩],
      fun _ => ({} : NameMap).add (ascii "a") (.array a), fun _ => {}⟩
    (∀ s < x.senders, ∀ slot ∈ slots round.vars, slot.Held (fun _ => 1) (round.senders s)) ∧
      0 ∈ x.sendRanks 0 ∧ round.message 0 0 = none ∧ round.published 0 = none) ∧
    (let n := 2 ^ 63
    let x : Exchange := ⟨2, 1, 1, by decide, by decide, .inr (by decide)⟩
    let a : Array := ⟨0, [], 0, 0, UInt64.ofNat n, 0⟩
    let round : Round x := ⟨[⟨ascii "a", ascii "array"⟩],
      fun _ => ({} : NameMap).add (ascii "a") (.array a), fun _ => {}⟩
    (∀ s < x.senders, ∀ slot ∈ slots round.vars, slot.Held (fun _ => 0) (round.senders s)) ∧
      (∀ s < x.senders, arrayItems (round.senders s) (ascii "a") = some (List.replicate n [])) ∧
      round.published 0 = some [(ascii "a", .array ⟨0, [], 0, 0, 0, 0⟩)]) := by
  refine ⟨bytes_not_redistributed ?_ ?_, empty_elements_not_counted rfl⟩
  · exact (List.length_replicate).ge
  · exact (List.length_replicate).trans_lt (by decide)

end Henson
