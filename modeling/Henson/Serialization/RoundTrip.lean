import Mathlib.Data.List.Forall2
import Henson.Serialization.SerialType

/-!
# What is saved is loaded again

A save is framed by its load: it appends bytes that the load, wherever the cursor
finds them, reads to the last one, and the loaded value is equal to the saved one.
Framing is kept by every way the source builds a serialization from others.
-/

namespace Henson

open Associative LittleEndian MemoryBuffer

/-- The saved bytes are read again, to the last one, as a value with the property `P`. -/
def Framed {α : Type} (save : MemoryBuffer → Option MemoryBuffer)
    (load : MemoryBuffer → Option (α × MemoryBuffer)) (P : α → Prop) : Prop :=
  ∃ bytes y, Appends save bytes ∧ Reads load bytes y ∧ P y

theorem Framed.pair {α β : Type} {save₁ : MemoryBuffer → α → Option MemoryBuffer}
    {save₂ : MemoryBuffer → β → Option MemoryBuffer}
    {load₁ : MemoryBuffer → α → Option (α × MemoryBuffer)}
    {load₂ : MemoryBuffer → β → Option (β × MemoryBuffer)} {r : α → α → Prop} {s : β → β → Prop}
    {p target : α × β} (h₁ : Framed (fun bb => save₁ bb p.1) (fun bb => load₁ bb target.1) (r p.1))
    (h₂ : Framed (fun bb => save₂ bb p.2) (fun bb => load₂ bb target.2) (s p.2)) :
    Framed (fun bb => savePair save₁ save₂ bb p) (fun bb => loadPair load₁ load₂ bb target)
      (pairSame r s p) := by
  obtain ⟨a, x, hSave₁, hLoad₁, hx⟩ := h₁
  obtain ⟨b, y, hSave₂, hLoad₂, hy⟩ := h₂
  exact ⟨a ++ b, (x, y), hSave₁.bind hSave₂, hLoad₁.bind (hLoad₂.map (Prod.mk x)), hx, hy⟩

theorem Framed.sized {α : Type} {save : MemoryBuffer → Option MemoryBuffer} {P : α → Prop}
    {n : Nat} (load : Nat → MemoryBuffer → Option (α × MemoryBuffer)) (hFits : n < 256 ^ 8)
    (h : Framed save (load n) P) :
    Framed (fun bb => Henson.save bb n >>= save)
      (fun bb => Henson.load bb 0 >>= fun s => load s.1 s.2) P := by
  obtain ⟨bytes, y, hSave, hLoad, hy⟩ := h
  exact ⟨toBytes 8 n ++ bytes, y, (Appends.sizeT n).bind hSave, (Reads.sizeT n 0 hFits).bind hLoad,
    hy⟩

theorem framed_each {α : Type} {r : α → α → Prop}
    {saveOne : MemoryBuffer → α → Option MemoryBuffer}
    {loadOne : MemoryBuffer → α → Option (α × MemoryBuffer)} {init : α} {xs : List α}
    (h : ∀ x ∈ xs, Framed (fun bb => saveOne bb x) (fun bb => loadOne bb init) (r x)) :
    Framed (fun bb => saveEach saveOne bb xs)
      (fun bb => loadEach loadOne bb (List.replicate xs.length init)) (List.Forall₂ r xs) := by
  induction xs with
  | nil => exact ⟨[], [], Appends.pure_nil, Reads.pure [], .nil⟩
  | cons x xs ih =>
    obtain ⟨a, y, hSave, hLoad, hy⟩ := h x List.mem_cons_self
    obtain ⟨b, ys, hSaves, hLoads, hys⟩ := ih fun z hz => h z (List.mem_cons_of_mem x hz)
    exact ⟨a ++ b, y :: ys, hSave.bind hSaves, hLoad.bind (hLoads.map (y :: ·)), .cons hy hys⟩

namespace TriviallyCopyable

variable {α : Type} (p : TriviallyCopyable α)

theorem length_flatMap_bytes (xs : List α) :
    (xs.flatMap p.bytes).length = p.size * xs.length := by
  induction xs with
  | nil => rfl
  | cons x xs ih =>
    rw [List.flatMap_cons, List.length_append, p.length_bytes, ih, List.length_cons, Nat.mul_succ,
      Nat.add_comm]

theorem split_flatMap_bytes (xs : List α) : p.split xs.length (xs.flatMap p.bytes) = xs := by
  induction xs with
  | nil => rfl
  | cons x xs ih =>
    rw [List.flatMap_cons, List.length_cons, split, List.take_left' (p.length_bytes x),
      List.drop_left' (p.length_bytes x), p.ofBytes_bytes, ih]

theorem framed_bulk (xs : List α) :
    Framed (fun bb => some (bb.saveBinary (xs.flatMap p.bytes)))
      (fun bb => bb.loadBinary (p.size * xs.length) >>= fun b =>
        some (p.split xs.length b.1, b.2)) (List.Forall₂ Eq xs) := by
  refine ⟨xs.flatMap p.bytes, xs, Appends.saveBinary _, ?_, List.forall₂_refl xs⟩
  have hRead := (Reads.loadBinary (xs.flatMap p.bytes)).map (p.split xs.length)
  rwa [p.length_flatMap_bytes, p.split_flatMap_bytes] at hRead

end TriviallyCopyable

theorem SerialType.framed_array {α : Type} {r : α → α → Prop} (t : SerialType α r) {xs : List α}
    (h : ∀ x ∈ xs, Framed (fun bb => t.save bb x) (fun bb => t.load bb t.init) (r x)) :
    Framed (fun bb => t.saveArray t.save bb xs)
      (fun bb => t.loadArray t.load bb (List.replicate xs.length t.init))
      (List.Forall₂ r xs) := by
  cases t with
  | plain p =>
    have hBulk := p.framed_bulk xs
    simpa [saveArray, loadArray, default?] using hBulk
  | _ => exact framed_each h

theorem framed_into {E C : Type} {saveOne : MemoryBuffer → E → Option MemoryBuffer}
    {step : MemoryBuffer → C → Option (C × MemoryBuffer)} {Inv : List E → C → Prop}
    (hStep : ∀ e rest m, Inv (e :: rest) m →
      Framed (fun bb => saveOne bb e) (fun bb => step bb m) (Inv rest))
    {entries : List E} {m : C} (h : Inv entries m) :
    Framed (fun bb => saveEach saveOne bb entries)
      (fun bb => loadInto step entries.length bb m) (Inv []) := by
  induction entries generalizing m with
  | nil => exact ⟨[], m, Appends.pure_nil, Reads.pure m, h⟩
  | cons e rest ih =>
    obtain ⟨a, m', hSave, hLoad, hRest⟩ := hStep e rest m h
    obtain ⟨b, m'', hSaves, hLoads, hAll⟩ := ih hRest
    exact ⟨a ++ b, m'', hSave.bind hSaves, hLoad.bind hLoads, hAll⟩

theorem forall_right_of_forall₂ {E : Type} {s : E → E → Prop} {P : E → Prop} {l l' : List E}
    (h : List.Forall₂ s l l') (hP : ∀ d ∈ l, ∀ a, s d a → P a) : ∀ a ∈ l', P a := by
  induction h with
  | nil => exact fun a ha => absurd ha List.not_mem_nil
  | @cons d a l l' hHead _ ih =>
    intro b hb
    rcases List.mem_cons.mp hb with rfl | hTail
    · exact hP d List.mem_cons_self b hHead
    · exact ih (fun d hd => hP d (List.mem_cons_of_mem _ hd)) b hTail

/-- What the loads of an ordered container have built so far: the entries before the coming ones. -/
def Loading {E C : Type} (s : E → E → Prop) (entries : C → List E) (all rest : List E) (m : C) :
    Prop :=
  ∃ done, all = done ++ rest ∧ List.Forall₂ s done (entries m)

def LoadingListed {E C : Type} (s : E → E → Prop) (entries : C → List E) (all rest : List E)
    (m : C) : Prop :=
  ∃ done, all = done ++ rest ∧ listedSame s done (entries m)

section Entries

variable {K E : Type} {same : K → K → Prop} {s : E → E → Prop} {key : E → K}

theorem forall_lt_of_loading {order : KeyOrder same} {x m : Ordered order key} {e : E}
    {rest : List E} {k : K} (hKeys : ∀ a b, s a b → same (key a) (key b))
    (hLoading : Loading s Ordered.entries x.entries (e :: rest) m) (hk : same (key e) k) :
    ∀ a ∈ m.entries, order.lt (key a) k = true := by
  obtain ⟨done, hSplit, hDone⟩ := hLoading
  refine forall_right_of_forall₂ hDone fun d hd a hda => ?_
  have hSorted := x.sorted
  rw [hSplit] at hSorted
  rw [← order.respects (hKeys d a hda) hk]
  exact (List.pairwise_append.mp hSorted).2.2 d hd e List.mem_cons_self

theorem loading_place {order : KeyOrder same} {x m : Ordered order key} {e e' : E}
    {rest : List E} {replace : E → E → E} {hReplace : ∀ a e, key (replace a e) = key a}
    (hKeys : ∀ a b, s a b → same (key a) (key b))
    (hLoading : Loading s Ordered.entries x.entries (e :: rest) m) (he : s e e') :
    Loading s Ordered.entries x.entries rest (m.place replace hReplace e') := by
  have hAbove := forall_lt_of_loading hKeys hLoading (hKeys e e' he)
  obtain ⟨done, hSplit, hDone⟩ := hLoading
  refine ⟨done ++ [e], by rw [hSplit, List.append_assoc]; rfl, ?_⟩
  rw [Ordered.entries_place_of_forall_lt hAbove]
  exact List.rel_append hDone (.cons he .nil)

theorem loading_emplace {hashing : Hashing same E} {x m : Hashed hashing key} {e e' : E}
    {rest : List E} (hKeys : ∀ a b, s a b → same (key a) (key b))
    (hLoading : LoadingListed s Hashed.entries x.entries (e :: rest) m) (he : s e e') :
    LoadingListed s Hashed.entries x.entries rest (m.emplace e') := by
  obtain ⟨done, hSplit, listed, hDone, hPerm⟩ := hLoading
  have hDistinct := x.distinct
  rw [hSplit] at hDistinct
  have hListed : ∀ a ∈ listed, hashing.eq (key e') (key a) = false := by
    refine forall_right_of_forall₂ hDone fun d hd a hda => ?_
    rw [hashing.symm, ← hashing.respects (hKeys d a hda) (hKeys e e' he)]
    exact (List.pairwise_append.mp hDistinct).2.2 d hd e List.mem_cons_self
  have hNew : ∀ a ∈ m.entries, hashing.eq (key e') (key a) = false :=
    fun a ha => hListed a (hPerm.mem_iff.mpr ha)
  refine ⟨done ++ [e], by rw [hSplit, List.append_assoc]; rfl, listed ++ [e'],
    List.rel_append hDone (.cons he .nil), ?_⟩
  have hConcat : (listed ++ [e']).Perm (e' :: listed) := List.perm_append_singleton e' listed
  exact (hConcat.trans (hPerm.cons e')).trans (Hashed.entries_emplace_perm hNew).symm

theorem framed_ordered {order : KeyOrder same} {x : Ordered order key}
    {saveOne : MemoryBuffer → E → Option MemoryBuffer}
    {step : MemoryBuffer → Ordered order key → Option (Ordered order key × MemoryBuffer)}
    (replace : E → E → E) (hReplace : ∀ a e, key (replace a e) = key a)
    (hKeys : ∀ a b, s a b → same (key a) (key b)) (hFits : x.entries.length < 256 ^ 8)
    (hStep : ∀ e ∈ x.entries, ∀ m : Ordered order key,
      (∀ k, same (key e) k → m.find? k = none) → Framed (fun bb => saveOne bb e)
        (fun bb => step bb m) fun m' => ∃ e', s e e' ∧ m' = m.place replace hReplace e') :
    Framed (fun bb => save bb x.entries.length >>= fun bb => saveEach saveOne bb x.entries)
      (fun bb => load bb 0 >>= fun n => loadInto step n.1 n.2 Ordered.empty)
      fun m => List.Forall₂ s x.entries m.entries := by
  have hLoop : Framed (fun bb => saveEach saveOne bb x.entries)
      (fun bb => loadInto step x.entries.length bb Ordered.empty)
      (Loading s Ordered.entries x.entries []) := by
    refine framed_into (fun e rest m hLoading => ?_) ⟨[], rfl, .nil⟩
    have ⟨done, hSplit, _⟩ := hLoading
    have hNew : ∀ k, same (key e) k → m.find? k = none := fun k hk =>
      findIn_of_forall_lt (forall_lt_of_loading hKeys hLoading hk)
    obtain ⟨bytes, m', hSave, hLoad, e', he, rfl⟩ := hStep e (by simp [hSplit]) m hNew
    exact ⟨bytes, _, hSave, hLoad, loading_place hKeys hLoading he⟩
  obtain ⟨bytes, m, hSave, hLoad, done, hDone, hSame⟩ := hLoop
  rw [List.append_nil] at hDone
  subst hDone
  exact Framed.sized (fun n bb => loadInto step n bb Ordered.empty) hFits
    ⟨bytes, m, hSave, hLoad, hSame⟩

theorem framed_hashed {hashing : Hashing same E} {x : Hashed hashing key}
    {saveOne : MemoryBuffer → E → Option MemoryBuffer}
    {loadOne : MemoryBuffer → Option (E × MemoryBuffer)}
    (hKeys : ∀ a b, s a b → same (key a) (key b)) (hFits : x.entries.length < 256 ^ 8)
    (hStep : ∀ e ∈ x.entries, Framed (fun bb => saveOne bb e) loadOne (s e)) :
    Framed (fun bb => save bb x.entries.length >>= fun bb => saveEach saveOne bb x.entries)
      (fun bb => load bb 0 >>= fun n => loadInto (loadHashedEntry loadOne) n.1 n.2
        (Hashed.empty : Hashed hashing key)) fun m => listedSame s x.entries m.entries := by
  have hLoop : Framed (fun bb => saveEach saveOne bb x.entries)
      (fun bb => loadInto (loadHashedEntry loadOne) x.entries.length bb
        (Hashed.empty : Hashed hashing key)) (LoadingListed s Hashed.entries x.entries []) := by
    refine framed_into (fun e rest m hLoading => ?_) ⟨[], rfl, [], .nil, .nil⟩
    have ⟨done, hSplit, _⟩ := hLoading
    obtain ⟨bytes, e', hSave, hLoad, he⟩ := hStep e (by simp [hSplit])
    exact ⟨bytes, m.emplace e', hSave, hLoad.map m.emplace, loading_emplace hKeys hLoading he⟩
  obtain ⟨bytes, m, hSave, hLoad, done, hDone, hSame⟩ := hLoop
  rw [List.append_nil] at hDone
  subst hDone
  exact Framed.sized (fun n bb => loadInto (loadHashedEntry loadOne) n bb Hashed.empty) hFits
    ⟨bytes, m, hSave, hLoad, hSame⟩

end Entries

theorem Array.same_contiguous {a : Array} (h : a.Storable) : a.Same a.contiguous := by
  obtain ⟨elements, hElements⟩ := Option.isSome_iff_exists.mp h.1
  have hRow : a.contiguous.elements = some elements := by
    rw [Array.contiguous, hElements, Option.getD_some]
    exact elements_row (length_of_elements hElements) (width_of_elementsFrom hElements) h.2
  exact ⟨rfl, rfl, rfl, hRow.trans hElements.symm, rfl⟩

theorem Array.framed {a : Array} (h : a.Storable) (target : Array) :
    Framed (fun bb => save bb a) (fun bb => load bb target) a.Same := by
  obtain ⟨bytes, hBytes⟩ : ∃ bytes, a.encode = some bytes :=
    Option.isSome_iff_exists.mp ((Option.isSome_map ..).trans h.1)
  exact ⟨bytes, a.contiguous, Appends.array hBytes, Reads.array hBytes h.2 target,
    same_contiguous h⟩

mutual
theorem BoxedValue.same_contiguous (v : BoxedValue) (h : v.Storable) : v.Same v.contiguous := by
  cases v with
  | int i => exact .int i
  | float f => exact .float f
  | double d => exact .double d
  | sizeT s => exact .sizeT s
  | string s => exact .string s
  | array a => exact .array (Array.same_contiguous h)
  | vector v => exact .vector (BoxedValue.forall₂_contiguousArray v h.2)
  | undef => exact .undef
  | bool b => exact h.elim
  | other => exact h.elim

theorem BoxedValue.forall₂_contiguousArray (v : List BoxedValue) (h : StorableArray v) :
    List.Forall₂ BoxedValue.Same v (contiguousArray v) := by
  cases v with
  | nil => exact .nil
  | cons x xs =>
    exact .cons (BoxedValue.same_contiguous x h.1) (BoxedValue.forall₂_contiguousArray xs h.2)
end

theorem BoxedValue.framed {v : BoxedValue} (h : v.Storable) (target : BoxedValue) :
    Framed (fun bb => save bb v) (fun bb => load bb target) v.Same := by
  obtain ⟨bytes, hBytes⟩ := exists_encode_of_storable v h
  refine ⟨bytes, v.contiguous, fun pre => ?_, fun pre post => ?_, same_contiguous v h⟩
  · exact (saveBoxed_written v pre).trans (by rw [hBytes]; rfl)
  · -- the nesting is bounded by the bytes of the whole buffer, of which these are a part
    have hFuel : bytes.length < (pre ++ bytes ++ post).length + 1 := by
      simp only [List.length_append]
      omega
    exact Reads.boxed v bytes _ hBytes h hFuel pre post

theorem StdString.framed {s : StdString} (h : s.bytes.length < 256 ^ 8) (target : StdString) :
    Framed (fun bb => save bb s) (fun bb => load bb target) (Eq s) :=
  ⟨_, s, Appends.stdString s, Reads.stdString s target h, rfl⟩

mutual
theorem SerialType.framed {α : Type} {r : α → α → Prop} (t : SerialType α r) (x : α)
    (h : t.Valid x) : Framed (fun bb => t.save bb x) (fun bb => t.load bb t.init) (r x) := by
  match t, x, h with
  | .plain p, x, _ =>
    have hLoad := (Reads.loadBinary (p.bytes x)).map p.ofBytes
    rw [p.length_bytes, p.ofBytes_bytes] at hLoad
    exact ⟨p.bytes x, x, Appends.saveBinary _, hLoad, rfl⟩
  | .string, s, h => exact StdString.framed h _
  | .vector t, v, h =>
    have hArray := t.framed_array fun x hx => t.framed x (h.2 x hx)
    have hSized := Framed.sized (fun s bb => t.loadArray t.load bb (List.replicate s t.init)) h.1
      hArray
    simpa [SerialType.save, SerialType.load, resizeTo, SerialType.init] using hSized
  | .valarray t, v, h =>
    have hArray := t.framed_array fun x hx => t.framed x (h.2 x hx)
    exact Framed.sized (fun s bb => t.loadArray t.load bb (List.replicate s t.init)) h.1 hArray
  | .pair x y, p, h => exact Framed.pair (x.framed p.1 h.1) (y.framed p.2 h.2)
  | .map order k v, m, h =>
    refine framed_ordered (fun old new => (old.1, new.2)) (fun _ _ => rfl)
      (fun _ _ hSame => hSame.1) h.1 fun p hp m hNew => ?_
    obtain ⟨a, key, hSaveKey, hLoadKey, hKey⟩ := k.framed p.1 (h.2 p hp).1
    obtain ⟨b, value, hSaveValue, hLoadValue, hValue⟩ := v.framed p.2 (h.2 p hp).2
    refine ⟨a ++ b, _, hSaveKey.bind hSaveValue, hLoadKey.bind ?_, (key, value), ⟨hKey, hValue⟩, rfl⟩
    -- the key is a new one, so its value is loaded on top of a fresh one
    have hPlaced := hLoadValue.map fun y => m.place (fun old new => (old.1, new.2)) (fun _ _ => rfl)
      (key, y)
    simpa [hNew key hKey] using hPlaced
  | .set order k, m, h =>
    refine framed_ordered (fun old _ => old) (fun _ _ => rfl) (fun _ _ hSame => hSame) h.1
      fun p hp m _ => ?_
    obtain ⟨bytes, key, hSave, hLoad, hKey⟩ := k.framed p (h.2 p hp)
    exact ⟨bytes, _, hSave, hLoad.map (m.place (fun old _ => old) fun _ _ => rfl), key, hKey, rfl⟩
  | .unorderedMap hashing k v, m, h =>
    exact framed_hashed (fun _ _ hSame => hSame.1) h.1 fun p hp =>
      Framed.pair (k.framed p.1 (h.2 p hp).1) (v.framed p.2 (h.2 p hp).2)
  | .unorderedSet hashing k, m, h =>
    exact framed_hashed (fun _ _ hSame => hSame) h.1 fun p hp => k.framed p (h.2 p hp)
  | .tuple args, t, h => exact args.framed t h
  | .array, a, h => exact Array.framed h _
  | .boxed, v, h => exact BoxedValue.framed h _

theorem Args.framed {α : Type} {r : α → α → Prop} (args : Args α r) (x : α)
    (h : args.Valid x) :
    Framed (fun bb => args.save bb x) (fun bb => args.load bb args.init) (r x) := by
  match args, x, h with
  | .nil, x, _ => exact ⟨[], (), Appends.pure_nil, Reads.pure (), rfl⟩
  | .cons t args, x, h => exact Framed.pair (t.framed x.1 h.1) (args.framed x.2 h.2)
end

theorem framed_all (xs : List Variable) (hValid : ∀ x ∈ xs, x.Valid) :
    ∃ bytes counts ys, (∀ pre, saveAll (written pre) xs = some (counts, written (pre ++ bytes))) ∧
      (∀ pre post, loadAll ⟨pre.length, pre ++ bytes ++ post⟩ (xs.map Variable.toDeclared) =
        some (ys, counts, ⟨(pre ++ bytes).length, pre ++ bytes ++ post⟩)) ∧
      List.Forall₂ Variable.Same xs ys := by
  induction xs with
  | nil =>
    refine ⟨[], [], [], fun pre => ?_, fun pre post => ?_, .nil⟩
    · rw [List.append_nil]
      rfl
    · rw [List.append_nil]
      rfl
  | cons x xs ih =>
    obtain ⟨a, y, hSave, hLoad, hSame⟩ := x.type.framed x.value (hValid x List.mem_cons_self)
    obtain ⟨b, counts, ys, hSaves, hLoads, hSames⟩ :=
      ih fun z hz => hValid z (List.mem_cons_of_mem x hz)
    refine ⟨a ++ b, a.length :: counts, ⟨x.toDeclared, y⟩ :: ys, fun pre => ?_,
      fun pre post => ?_, .cons (.intro x.type x.value y hSame) hSames⟩
    · have hSaved := hSave pre
      have hRest := hSaves (pre ++ a)
      simp only [] at hSaved
      rw [saveAll, hSaved, Option.bind_eq_bind, Option.bind_some, hRest, List.append_assoc]
      simp [written, size]
    · have hLoaded := hLoad pre (b ++ post)
      have hRest := hLoads (pre ++ a) post
      simp only [List.append_assoc] at hLoaded hRest ⊢
      rw [List.map_cons, loadAll, hLoaded, Option.bind_some]
      dsimp only
      rw [hRest]
      simp

theorem serialization_round_trip (xs : List Variable) (hValid : ∀ x ∈ xs, x.Valid)
    (bb : MemoryBuffer) (hEnd : bb.AtEnd) :
    ∃ counts saved ys, saveAll bb xs = some (counts, saved) ∧
      loadAll { saved with position := bb.position } (xs.map Variable.toDeclared) =
        some (ys, counts, saved) ∧
      List.Forall₂ Variable.Same xs ys := by
  obtain ⟨bytes, counts, ys, hSave, hLoad, hSame⟩ := framed_all xs hValid
  have hWritten : bb = written bb.buffer := by rw [written, ← hEnd]
  have hSaved := hSave bb.buffer
  have hLoaded := hLoad bb.buffer []
  rw [← hWritten] at hSaved
  rw [← hEnd, List.append_nil] at hLoaded
  exact ⟨counts, written (bb.buffer ++ bytes), ys, hSaved, hLoaded, hSame⟩

/-- A map of strings to vectors, every other byte of a memory backwards, and a boxed vector. -/
def mixedVariables : List Variable :=
  [⟨⟨.map StdString.order .string (.vector (.plain .int))⟩,
      ⟨[(⟨[97]⟩, [1, 2]), (⟨[98]⟩, [])], by decide⟩⟩,
    ⟨⟨.array⟩, ⟨Array.voidPtr, [1, 2, 3], 2, 1, 2, -2⟩⟩,
    ⟨⟨.boxed⟩, .vector [.int 3, .string ⟨[99]⟩]⟩]

theorem serialization_round_trip_run :
    ∃ counts saved ys, saveAll { position := 1, buffer := [0] } mixedVariables =
        some (counts, saved) ∧
      loadAll { saved with position := 1 } (mixedVariables.map Variable.toDeclared) =
        some (ys, counts, saved) ∧
      List.Forall₂ Variable.Same mixedVariables ys := by
  have hArray : Array.Storable ⟨Array.voidPtr, [1, 2, 3], 2, 1, 2, -2⟩ := by decide
  have hValid : ∀ x ∈ mixedVariables, x.Valid := by
    simp [mixedVariables, Variable.Valid, SerialType.Valid, BoxedValue.Storable,
      BoxedValue.StorableArray, hArray]
  exact serialization_round_trip mixedVariables hValid _ rfl

end Henson
