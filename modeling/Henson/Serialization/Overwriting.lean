import Henson.Serialization.RoundTrip

/-!
# What a load leaves of its target

Vectors are resized and every element is loaded over the old one, a valarray starts from
new elements, and a pair or a tuple loads part by part. The maps and sets put the loaded
entries beside those that are there. So the types whose loads overwrite are those in
which a map or a set occurs only in the elements of a valarray.
-/

namespace Henson

open Associative LittleEndian MemoryBuffer

mutual
/-- Every map and set in the type is in the elements of a valarray. -/
def SerialType.Overwriting {α : Type} {r : α → α → Prop} : SerialType α r → Prop
  | .plain _ => True
  | .string => True
  | .vector t => t.Overwriting
  | .valarray _ => True
  | .pair x y => x.Overwriting ∧ y.Overwriting
  | .map _ _ _ => False
  | .set _ _ => False
  | .unorderedMap _ _ _ => False
  | .unorderedSet _ _ => False
  | .tuple args => args.Overwriting
  | .array => True
  | .boxed => True

def Args.Overwriting {α : Type} {r : α → α → Prop} : Args α r → Prop
  | .nil => True
  | .cons t args => t.Overwriting ∧ args.Overwriting
end

/-- Loads of the same bytes into any two targets succeed and leave equal values. -/
def SerialType.LoadOverwrites {α : Type} {r : α → α → Prop} (t : SerialType α r) : Prop :=
  ∀ x, t.Valid x → ∀ y y', ∃ bytes z z', Appends (fun bb => t.save bb x) bytes ∧
    Reads (fun bb => t.load bb y) bytes z ∧ Reads (fun bb => t.load bb y') bytes z' ∧ r z z'

/-- The saved bytes are read as one value into every target. -/
def Settled {α : Type} (save : MemoryBuffer → Option MemoryBuffer)
    (load : MemoryBuffer → α → Option (α × MemoryBuffer)) (P : α → Prop) : Prop :=
  ∃ bytes z, Appends save bytes ∧ (∀ target, Reads (fun bb => load bb target) bytes z) ∧ P z

theorem Settled.pair {α β : Type} {save₁ : MemoryBuffer → α → Option MemoryBuffer}
    {save₂ : MemoryBuffer → β → Option MemoryBuffer}
    {load₁ : MemoryBuffer → α → Option (α × MemoryBuffer)}
    {load₂ : MemoryBuffer → β → Option (β × MemoryBuffer)} {r : α → α → Prop} {s : β → β → Prop}
    {p : α × β} (h₁ : Settled (fun bb => save₁ bb p.1) load₁ (r p.1))
    (h₂ : Settled (fun bb => save₂ bb p.2) load₂ (s p.2)) :
    Settled (fun bb => savePair save₁ save₂ bb p) (loadPair load₁ load₂) (pairSame r s p) := by
  obtain ⟨a, x, hSave₁, hLoad₁, hx⟩ := h₁
  obtain ⟨b, y, hSave₂, hLoad₂, hy⟩ := h₂
  refine ⟨a ++ b, (x, y), hSave₁.bind hSave₂, fun target => ?_, hx, hy⟩
  exact (hLoad₁ target.1).bind ((hLoad₂ target.2).map (Prod.mk x))

theorem Framed.settled {α : Type} {save : MemoryBuffer → Option MemoryBuffer}
    {load : MemoryBuffer → α → Option (α × MemoryBuffer)} {P : α → Prop} {init : α}
    (h : Framed save (fun bb => load bb init) P)
    (hTarget : ∀ bb target, load bb target = load bb init) : Settled save load P := by
  obtain ⟨bytes, z, hSave, hLoad, hz⟩ := h
  refine ⟨bytes, z, hSave, fun target => ?_, hz⟩
  simpa only [hTarget] using hLoad

theorem settled_each {α : Type} {r : α → α → Prop}
    {saveOne : MemoryBuffer → α → Option MemoryBuffer}
    {loadOne : MemoryBuffer → α → Option (α × MemoryBuffer)} {xs : List α}
    (h : ∀ x ∈ xs, Settled (fun bb => saveOne bb x) loadOne (r x)) :
    ∃ bytes zs, Appends (fun bb => saveEach saveOne bb xs) bytes ∧
      (∀ targets : List α, targets.length = xs.length →
        Reads (fun bb => loadEach loadOne bb targets) bytes zs) ∧ List.Forall₂ r xs zs := by
  induction xs with
  | nil =>
    refine ⟨[], [], Appends.pure_nil, fun targets hLength => ?_, .nil⟩
    obtain rfl := List.length_eq_zero_iff.mp hLength
    exact Reads.pure []
  | cons x xs ih =>
    obtain ⟨a, z, hSave, hLoad, hz⟩ := h x List.mem_cons_self
    obtain ⟨b, zs, hSaves, hLoads, hzs⟩ := ih fun y hy => h y (List.mem_cons_of_mem x hy)
    refine ⟨a ++ b, z :: zs, hSave.bind hSaves, fun targets hLength => ?_, .cons hz hzs⟩
    obtain ⟨y, ys, rfl⟩ := List.exists_cons_of_length_eq_add_one hLength
    exact (hLoad y).bind ((hLoads ys (Nat.succ.inj hLength)).map (z :: ·))

theorem SerialType.settled_array {α : Type} {r : α → α → Prop} (t : SerialType α r) {xs : List α}
    (h : ∀ x ∈ xs, Settled (fun bb => t.save bb x) t.load (r x)) :
    ∃ bytes zs, Appends (fun bb => t.saveArray t.save bb xs) bytes ∧
      (∀ targets : List α, targets.length = xs.length →
        Reads (fun bb => t.loadArray t.load bb targets) bytes zs) ∧ List.Forall₂ r xs zs := by
  cases t with
  | plain p =>
    obtain ⟨bytes, zs, hSave, hLoad, hzs⟩ := p.framed_bulk xs
    refine ⟨bytes, zs, hSave, fun targets hLength => ?_, hzs⟩
    rw [← hLength] at hLoad
    exact hLoad
  | _ => exact settled_each h

theorem length_resizeTo {α : Type} (v : List α) (n : Nat) (init : α) :
    (resizeTo v n init).length = n := by
  rw [resizeTo, List.length_append, List.length_take, List.length_replicate]
  omega

mutual
theorem SerialType.settled {α : Type} {r : α → α → Prop} (t : SerialType α r)
    (hType : t.Overwriting) (x : α) (h : t.Valid x) :
    Settled (fun bb => t.save bb x) t.load (r x) := by
  match t, hType, x, h with
  | .plain p, _, x, h => exact ((SerialType.plain p).framed x h).settled fun _ _ => rfl
  | .string, _, s, h => exact (SerialType.string.framed s h).settled fun _ _ => rfl
  | .vector t, hType, v, h =>
    obtain ⟨bytes, zs, hSave, hLoad, hzs⟩ :=
      t.settled_array fun x hx => t.settled hType x (h.2 x hx)
    refine ⟨toBytes 8 v.length ++ bytes, zs, (Appends.sizeT v.length).bind hSave,
      fun target => ?_, hzs⟩
    exact (Reads.sizeT v.length 0 h.1).bind (hLoad _ (length_resizeTo target v.length t.init))
  | .valarray t, _, v, h => exact ((SerialType.valarray t).framed v h).settled fun _ _ => rfl
  | .pair x y, hType, p, h =>
    exact Settled.pair (x.settled hType.1 p.1 h.1) (y.settled hType.2 p.2 h.2)
  | .tuple args, hType, t, h => exact args.settled hType t h
  | .array, _, a, h =>
    obtain ⟨bytes, hBytes⟩ : ∃ bytes, a.encode = some bytes :=
      Option.isSome_iff_exists.mp ((Option.isSome_map ..).trans h.1)
    exact ⟨bytes, a.contiguous, Appends.array hBytes, Reads.array hBytes h.2,
      Array.same_contiguous h⟩
  | .boxed, _, v, h => exact (SerialType.boxed.framed v h).settled fun _ _ => rfl

theorem Args.settled {α : Type} {r : α → α → Prop} (args : Args α r) (hType : args.Overwriting)
    (x : α) (h : args.Valid x) : Settled (fun bb => args.save bb x) args.load (r x) := by
  match args, hType, x, h with
  | .nil, _, x, _ => exact ⟨[], (), Appends.pure_nil, fun _ => Reads.pure (), rfl⟩
  | .cons t args, hType, x, h =>
    exact Settled.pair (t.settled hType.1 x.1 h.1) (args.settled hType.2 x.2 h.2)
end

theorem forall₂_refl_right {α : Type} {r : α → α → Prop} {l l' : List α}
    (hEach : ∀ x z, r x z → r z z) (h : List.Forall₂ r l l') : List.Forall₂ r l' l' := by
  induction h with
  | nil => exact .nil
  | cons hHead _ ih => exact .cons (hEach _ _ hHead) ih

theorem pairSame_refl_right {α β : Type} {r : α → α → Prop} {s : β → β → Prop}
    (hFirst : ∀ x z, r x z → r z z) (hSecond : ∀ x z, s x z → s z z) (p q : α × β)
    (h : pairSame r s p q) : pairSame r s q q :=
  ⟨hFirst _ _ h.1, hSecond _ _ h.2⟩

theorem listedSame_refl_right {α : Type} {r : α → α → Prop} {l l' : List α}
    (hEach : ∀ x z, r x z → r z z) (h : listedSame r l l') : listedSame r l' l' := by
  obtain ⟨listed, hListed, hPerm⟩ := h
  refine ⟨l', List.forall₂_same.mpr fun z hz => ?_, List.Perm.refl l'⟩
  exact List.forall₂_same.mp (forall₂_refl_right hEach hListed) z (hPerm.mem_iff.mpr hz)

mutual
theorem BoxedValue.same_right (v w : BoxedValue) (h : v.Same w) : w.Same w := by
  cases h with
  | array h => exact .array ⟨rfl, rfl, rfl, rfl, h.stride⟩
  | @vector v w h => exact .vector (BoxedValue.forall₂_same_right v w h)
  | int i => exact .int i
  | float f => exact .float f
  | double d => exact .double d
  | sizeT s => exact .sizeT s
  | string s => exact .string s
  | undef => exact .undef

theorem BoxedValue.forall₂_same_right (v w : List BoxedValue)
    (h : List.Forall₂ BoxedValue.Same v w) : List.Forall₂ BoxedValue.Same w w := by
  cases h with
  | nil => exact .nil
  | @cons x y v w hHead hTail =>
    exact .cons (BoxedValue.same_right x y hHead) (BoxedValue.forall₂_same_right v w hTail)
end

mutual
theorem SerialType.refl_right {α : Type} {r : α → α → Prop} (t : SerialType α r) (x z : α)
    (h : r x z) : r z z := by
  match t, x, z, h with
  | .plain p, _, _, _ => rfl
  | .string, _, _, _ => rfl
  | .vector t, _, _, h => exact forall₂_refl_right t.refl_right h
  | .valarray t, _, _, h => exact forall₂_refl_right t.refl_right h
  | .pair first second, _, _, h =>
    exact pairSame_refl_right first.refl_right second.refl_right _ _ h
  | .map order k v, _, _, h =>
    exact forall₂_refl_right (pairSame_refl_right k.refl_right v.refl_right) h
  | .set order k, _, _, h => exact forall₂_refl_right k.refl_right h
  | .unorderedMap hashing k v, _, _, h =>
    exact listedSame_refl_right (pairSame_refl_right k.refl_right v.refl_right) h
  | .unorderedSet hashing k, _, _, h => exact listedSame_refl_right k.refl_right h
  | .tuple args, x, z, h => exact args.refl_right x z h
  | .array, _, _, h => exact ⟨rfl, rfl, rfl, rfl, h.stride⟩
  | .boxed, x, z, h => exact BoxedValue.same_right x z h

theorem Args.refl_right {α : Type} {r : α → α → Prop} (args : Args α r) (x z : α) (h : r x z) :
    r z z := by
  match args, x, z, h with
  | .nil, _, _, _ => rfl
  | .cons t args, _, _, h => exact pairSame_refl_right t.refl_right args.refl_right _ _ h
end

/-- Two loads of one saved value leave different values. -/
def KeepsOld {α : Type} (save : MemoryBuffer → α → Option MemoryBuffer)
    (load : MemoryBuffer → α → Option (α × MemoryBuffer)) (Valid : α → Prop) (r : α → α → Prop) :
    Prop :=
  ∃ x y y' bytes z z', Valid x ∧ Appends (fun bb => save bb x) bytes ∧
    Reads (fun bb => load bb y) bytes z ∧ Reads (fun bb => load bb y') bytes z' ∧ ¬ r z z'

section Keeps

variable {α β : Type} {save₁ : MemoryBuffer → α → Option MemoryBuffer}
  {save₂ : MemoryBuffer → β → Option MemoryBuffer}
  {load₁ : MemoryBuffer → α → Option (α × MemoryBuffer)}
  {load₂ : MemoryBuffer → β → Option (β × MemoryBuffer)} {Valid₁ : α → Prop} {Valid₂ : β → Prop}
  {r : α → α → Prop} {s : β → β → Prop}

theorem KeepsOld.first (h : KeepsOld save₁ load₁ Valid₁ r) {x init : β} (hx : Valid₂ x)
    (hOther : Framed (fun bb => save₂ bb x) (fun bb => load₂ bb init) (s x)) :
    KeepsOld (savePair save₁ save₂) (loadPair load₁ load₂) (fun p => Valid₁ p.1 ∧ Valid₂ p.2)
      (pairSame r s) := by
  obtain ⟨w, y, y', a, z, z', hw, hSave₁, hLoad, hLoad', hNot⟩ := h
  obtain ⟨b, u, hSave₂, hLoad₂, -⟩ := hOther
  refine ⟨(w, x), (y, init), (y', init), a ++ b, (z, u), (z', u), ⟨hw, hx⟩, hSave₁.bind hSave₂,
    ?_, ?_, fun hSame => hNot hSame.1⟩
  · exact hLoad.bind (hLoad₂.map (Prod.mk z))
  · exact hLoad'.bind (hLoad₂.map (Prod.mk z'))

theorem KeepsOld.second (h : KeepsOld save₂ load₂ Valid₂ s) {x init : α} (hx : Valid₁ x)
    (hOther : Framed (fun bb => save₁ bb x) (fun bb => load₁ bb init) (r x)) :
    KeepsOld (savePair save₁ save₂) (loadPair load₁ load₂) (fun p => Valid₁ p.1 ∧ Valid₂ p.2)
      (pairSame r s) := by
  obtain ⟨w, y, y', b, z, z', hw, hSave₂, hLoad, hLoad', hNot⟩ := h
  obtain ⟨a, u, hSave₁, hLoad₁, -⟩ := hOther
  refine ⟨(x, w), (init, y), (init, y'), a ++ b, (u, z), (u, z'), ⟨hx, hw⟩, hSave₁.bind hSave₂,
    ?_, ?_, fun hSame => hNot hSame.2⟩
  · exact hLoad₁.bind (hLoad.map (Prod.mk u))
  · exact hLoad₁.bind (hLoad'.map (Prod.mk u))

theorem reads_into_nothing {C : Type} (step : MemoryBuffer → C → Option (C × MemoryBuffer))
    (m : C) :
    Reads (fun bb => load bb 0 >>= fun n => loadInto step n.1 n.2 m) (toBytes 8 0) m := by
  have hRead := (Reads.sizeT 0 0 (by decide)).bind
    (g := fun n => loadInto step n.1 n.2 m) (Reads.pure m)
  rwa [List.append_nil] at hRead

theorem appends_nothing {E : Type} (saveOne : MemoryBuffer → E → Option MemoryBuffer) :
    Appends (fun bb => save bb ([] : List E).length >>= fun bb => saveEach saveOne bb [])
      (toBytes 8 0) := by
  have hSave := (Appends.sizeT 0).bind (g := fun bb => saveEach saveOne bb []) Appends.pure_nil
  rwa [List.append_nil] at hSave

theorem keepsOld_of_nothing {C : Type} {save : MemoryBuffer → C → Option MemoryBuffer}
    {load : MemoryBuffer → C → Option (C × MemoryBuffer)} {Valid : C → Prop} {r : C → C → Prop}
    {nothing : C} (other : C) (hValid : Valid nothing)
    (hSave : Appends (fun bb => save bb nothing) (toBytes 8 0))
    (hLoad : ∀ m, Reads (fun bb => load bb m) (toBytes 8 0) m) (hOther : ¬ r nothing other) :
    KeepsOld save load Valid r :=
  ⟨nothing, nothing, other, toBytes 8 0, nothing, other, hValid, hSave, hLoad nothing,
    hLoad other, hOther⟩

theorem not_listedSame_singleton {E : Type} (r : E → E → Prop) (x : E) :
    ¬ listedSame r [] [x] := by
  rintro ⟨listed, hListed, hPerm⟩
  cases hListed
  exact absurd hPerm.length_eq (by simp)

theorem keepsOld_each (h : KeepsOld save₁ load₁ Valid₁ r) :
    ∃ x y y' bytes z z', Valid₁ x ∧ Appends (fun bb => saveEach save₁ bb [x]) bytes ∧
      Reads (fun bb => loadEach load₁ bb [y]) bytes [z] ∧
      Reads (fun bb => loadEach load₁ bb [y']) bytes [z'] ∧ ¬ List.Forall₂ r [z] [z'] := by
  obtain ⟨x, y, y', bytes, z, z', hx, hSave, hLoad, hLoad', hNot⟩ := h
  have hNone : Reads (fun bb => loadEach load₁ bb []) [] [] := Reads.pure []
  have hSaves : Appends (fun bb => saveEach save₁ bb [x]) (bytes ++ []) :=
    hSave.bind Appends.pure_nil
  have hLoads : Reads (fun bb => loadEach load₁ bb [y]) (bytes ++ []) [z] :=
    hLoad.bind (hNone.map (z :: ·))
  have hLoads' : Reads (fun bb => loadEach load₁ bb [y']) (bytes ++ []) [z'] :=
    hLoad'.bind (hNone.map (z' :: ·))
  rw [List.append_nil] at hSaves hLoads hLoads'
  refine ⟨x, y, y', bytes, z, z', hx, hSaves, hLoads, hLoads', fun hSame => ?_⟩
  obtain ⟨hHead, -⟩ := List.forall₂_cons.mp hSame
  exact hNot hHead

end Keeps

theorem valid_nothing {E : Type} (P : E → Prop) :
    ([] : List E).length < 256 ^ 8 ∧ ∀ x ∈ ([] : List E), P x :=
  ⟨Nat.two_pow_pos 64, fun _ hx => absurd hx List.not_mem_nil⟩

mutual
theorem SerialType.valid_init {α : Type} {r : α → α → Prop} (t : SerialType α r) :
    t.Valid t.init := by
  match t with
  | .plain p => trivial
  | .string => exact Nat.two_pow_pos 64
  | .vector t => exact valid_nothing t.Valid
  | .valarray t => exact valid_nothing t.Valid
  | .pair x y => exact ⟨x.valid_init, y.valid_init⟩
  | .map order k v => exact valid_nothing _
  | .set order k => exact valid_nothing k.Valid
  | .unorderedMap hashing k v => exact valid_nothing _
  | .unorderedSet hashing k => exact valid_nothing k.Valid
  | .tuple args => exact args.valid_init
  | .array => exact ⟨rfl, Nat.two_pow_pos 64⟩
  | .boxed => trivial

theorem Args.valid_init {α : Type} {r : α → α → Prop} (args : Args α r) :
    args.Valid args.init := by
  match args with
  | .nil => trivial
  | .cons t args => exact ⟨t.valid_init, args.valid_init⟩
end

theorem SerialType.default?_of_keeps {α : Type} {r : α → α → Prop} {t : SerialType α r}
    (h : ¬ t.Overwriting) : t.default? = none := by
  cases t with
  | plain p => exact absurd trivial h
  | _ => rfl

mutual
theorem SerialType.keepsOld {α : Type} {r : α → α → Prop} (t : SerialType α r)
    (h : ¬ t.Overwriting) : KeepsOld t.save t.load t.Valid r := by
  match t, h with
  | .plain p, h => exact absurd trivial h
  | .string, h => exact absurd trivial h
  | .valarray t, h => exact absurd trivial h
  | .array, h => exact absurd trivial h
  | .boxed, h => exact absurd trivial h
  | .vector t, h =>
    have hEach := keepsOld_each (t.keepsOld h)
    obtain ⟨x, y, y', bytes, z, z', hx, hSave, hLoad, hLoad', hNot⟩ := hEach
    have hSpecial : t.default? = none := SerialType.default?_of_keeps h
    have hArray : ∀ bb v, t.saveArray t.save bb v = saveEach t.save bb v := fun bb v => by
      rw [SerialType.saveArray, hSpecial]
    have hArray' : ∀ bb v, t.loadArray t.load bb v = loadEach t.load bb v := fun bb v => by
      rw [SerialType.loadArray, hSpecial]
    have hResize : ∀ y, resizeTo [y] 1 t.init = [y] := fun y => rfl
    have hOne : ([x] : List _).length < 256 ^ 8 := by
      rw [List.length_singleton]
      decide
    refine ⟨[x], [y], [y'], toBytes 8 1 ++ bytes, [z], [z'],
      ⟨hOne, fun w hw => List.mem_singleton.mp hw ▸ hx⟩, ?_, ?_, ?_, hNot⟩
    · exact (Appends.sizeT 1).bind (by simpa only [hArray] using hSave)
    · exact (Reads.sizeT 1 0 (by decide)).bind
        (by simpa only [hArray', hResize] using hLoad)
    · exact (Reads.sizeT 1 0 (by decide)).bind
        (by simpa only [hArray', hResize] using hLoad')
  | .pair x y, h =>
    rcases not_and_or.mp h with hx | hy
    · exact (x.keepsOld hx).first y.valid_init (y.framed y.init y.valid_init)
    · exact (y.keepsOld hy).second x.valid_init (x.framed x.init x.valid_init)
  | .map order k v, _ =>
    refine keepsOld_of_nothing ⟨[(k.init, v.init)], List.pairwise_singleton _ _⟩
      (SerialType.map order k v).valid_init (appends_nothing _) (reads_into_nothing _) ?_
    exact fun hSame => nomatch hSame
  | .set order k, _ =>
    refine keepsOld_of_nothing ⟨[k.init], List.pairwise_singleton _ _⟩
      (SerialType.set order k).valid_init (appends_nothing _) (reads_into_nothing _) ?_
    exact fun hSame => nomatch hSame
  | .unorderedMap hashing k v, _ =>
    refine keepsOld_of_nothing ⟨[(k.init, v.init)], List.pairwise_singleton _ _⟩
      (SerialType.unorderedMap hashing k v).valid_init (appends_nothing _) (reads_into_nothing _) ?_
    exact not_listedSame_singleton _ _
  | .unorderedSet hashing k, _ =>
    refine keepsOld_of_nothing ⟨[k.init], List.pairwise_singleton _ _⟩
      (SerialType.unorderedSet hashing k).valid_init (appends_nothing _) (reads_into_nothing _) ?_
    exact not_listedSame_singleton _ _
  | .tuple args, h => exact args.keepsOld h

theorem Args.keepsOld {α : Type} {r : α → α → Prop} (args : Args α r)
    (h : ¬ args.Overwriting) : KeepsOld args.save args.load args.Valid r := by
  match args, h with
  | .nil, h => exact absurd trivial h
  | .cons t args, h =>
    rcases not_and_or.mp h with hx | hy
    · exact (t.keepsOld hx).first args.valid_init (args.framed args.init args.valid_init)
    · exact (args.keepsOld hy).second t.valid_init (t.framed t.init t.valid_init)
end

theorem Appends.unique {f : MemoryBuffer → Option MemoryBuffer} {a b : List Byte}
    (ha : Appends f a) (hb : Appends f b) : a = b :=
  (MemoryBuffer.mk.inj (Option.some.inj ((ha []).symm.trans (hb [])))).2

theorem Reads.unique {α : Type} {f : MemoryBuffer → Option (α × MemoryBuffer)} {bytes : List Byte}
    {x y : α} (hx : Reads f bytes x) (hy : Reads f bytes y) : x = y :=
  (Prod.mk.inj (Option.some.inj ((hx [] []).symm.trans (hy [] [])))).1

theorem SerialType.not_loadOverwrites {α : Type} {r : α → α → Prop} {t : SerialType α r}
    (h : KeepsOld t.save t.load t.Valid r) : ¬ t.LoadOverwrites := by
  intro hAll
  obtain ⟨x, y, y', a, z, z', hx, hSave, hLoad, hLoad', hOther⟩ := h
  obtain ⟨b, w, w', hSave', hRead, hRead', hSame⟩ := hAll x hx y y'
  obtain rfl := hSave.unique hSave'
  rw [← hLoad.unique hRead, ← hLoad'.unique hRead'] at hSame
  exact hOther hSame

/-- For every serializable type: loading any value into any two targets leaves them equal exactly
if no map and no set occurs in the type outside the elements of valarrays. -/
theorem load_overwrites_iff {α : Type} {r : α → α → Prop} (t : SerialType α r) :
    t.LoadOverwrites ↔ t.Overwriting := by
  constructor
  · intro h
    by_contra hNot
    exact SerialType.not_loadOverwrites (t.keepsOld hNot) h
  · intro hType x hx y y'
    obtain ⟨bytes, z, hSave, hLoad, hSame⟩ := t.settled hType x hx
    exact ⟨bytes, z, z, hSave, hLoad y, hLoad y', t.refl_right x z hSame⟩

/-- The set of `a` is loaded into the empty set and into the set of `b`. -/
theorem set_keeps_old_elements :
    let t := SerialType.set StdString.order .string
    let a : StdString := ⟨[97]⟩
    let b : StdString := ⟨[98]⟩
    ((t.save {} ⟨[a], List.pairwise_singleton _ _⟩).bind fun saved =>
        (t.load saved.reset Ordered.empty).map fun p => p.1.entries) = some [a] ∧
      ((t.save {} ⟨[a], List.pairwise_singleton _ _⟩).bind fun saved =>
        (t.load saved.reset ⟨[b], List.pairwise_singleton _ _⟩).map fun p => p.1.entries) =
          some [a, b] ∧
      ¬ t.LoadOverwrites := by
  intro t a b
  exact ⟨by decide, by decide, SerialType.not_loadOverwrites (t.keepsOld not_false)⟩

end Henson
