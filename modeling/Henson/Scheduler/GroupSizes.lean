import Mathlib.Data.List.Nodup
import Henson.Scheduler.Controller

/-!
# Group sizes of a job

The `schedule` functions of both bindings turn a map of requested group sizes
into the sizes of a job's groups; a request of at most 0 leaves the size open.
All sizes are `int`, but the open groups are counted in `size_t`.
-/

namespace Henson

open MachineInt

/-- A `std::map` from group names to requested sizes, as the loops go through it. -/
structure GroupRequest where
  entries : ProcMap.Vector
  names_nodup : (entries.map Prod.fst).Nodup
  length_lt : entries.length < 2 ^ 64

namespace GroupRequest

def unspecified (r : GroupRequest) : List StdString :=
  (r.entries.filter fun x => x.2.toInt ≤ 0).map Prod.fst

def addSpecified (specified : Int32) (x : StdString × Int32) : Int32 :=
  if x.2.toInt ≤ 0 then specified else specified + x.2

def specified (r : GroupRequest) : Int32 := r.entries.foldl addSpecified 0

def groupSize (last : StdString) (lastSize otherSize : Int32) (x : StdString × Int32) :
    StdString × Int32 :=
  if 0 < x.2.toInt then x
  else if x.1 = last then (x.1, lastSize)
  else (x.1, otherSize)

/-- The sizes that are scheduled; `none` for the division by zero without an open group. -/
def groupsVector (r : GroupRequest) (size : Int32) : Option ProcMap.Vector :=
  match r.unspecified.getLast? with
  | none => none
  | some last =>
    let count := r.unspecified.length
    let leftover := size - r.specified
    let leftoverGroupSize := toInt32 (toSizeT size / count)
    let lastSize := toInt32 (subSizeT (toSizeT leftover)
      (mulSizeT (toSizeT leftoverGroupSize) (subSizeT count 1)))
    some (r.entries.map (groupSize last lastSize leftoverGroupSize))

def requested (r : GroupRequest) : Int :=
  ((r.entries.filter fun x => 0 < x.2.toInt).map fun x => x.2.toInt).sum

def leftover (r : GroupRequest) (size : Int32) : Int := size.toInt - r.requested

structure FairSizes (r : GroupRequest) (size : Int32) (v : ProcMap.Vector) : Prop where
  names : v.map Prod.fst = r.entries.map Prod.fst
  kept : ∀ x ∈ r.entries, 0 < x.2.toInt → x ∈ v
  nonneg : ∀ x ∈ v, x.1 ∈ r.unspecified → 0 ≤ x.2.toInt
  share : ∀ x ∈ v, x.1 ∈ r.unspecified.dropLast →
    x.2.toInt = r.leftover size / r.unspecified.length
  remainder : ∀ x ∈ v, x.1 ∈ r.unspecified.getLast? →
    x.2.toInt = r.leftover size -
      r.leftover size / r.unspecified.length * (r.unspecified.length - 1)
  sum : (v.map fun x => x.2.toInt).sum = size.toInt

theorem sum_nonneg_of_pos {l : List Int} (h : ∀ x ∈ l, 0 < x) : 0 ≤ l.sum := by
  induction l with
  | nil => exact Int.le_refl _
  | cons x l ih =>
    rw [List.forall_mem_cons] at h
    have hRest := ih h.2
    rw [List.sum_cons]
    omega

theorem requested_nonneg (r : GroupRequest) : 0 ≤ r.requested := by
  refine sum_nonneg_of_pos fun x hx => ?_
  obtain ⟨y, hy, rfl⟩ := List.mem_map.mp hx
  exact of_decide_eq_true (List.mem_filter.mp hy).2

theorem toInt_foldl_addSpecified (l : ProcMap.Vector) (acc : Int32) (hAcc : 0 ≤ acc.toInt)
    (hFits : acc.toInt + ((l.filter fun x => 0 < x.2.toInt).map fun x => x.2.toInt).sum < 2 ^ 31) :
    (l.foldl addSpecified acc).toInt =
      acc.toInt + ((l.filter fun x => 0 < x.2.toInt).map fun x => x.2.toInt).sum := by
  induction l generalizing acc with
  | nil => simp
  | cons x l ih =>
    rw [List.foldl_cons]
    by_cases hPos : 0 < x.2.toInt
    · have hRest : 0 ≤ ((l.filter fun x => 0 < x.2.toInt).map fun x => x.2.toInt).sum := by
        refine sum_nonneg_of_pos fun y hy => ?_
        obtain ⟨z, hz, rfl⟩ := List.mem_map.mp hy
        exact of_decide_eq_true (List.mem_filter.mp hz).2
      simp only [List.filter_cons, hPos, decide_true, if_true, List.map_cons, List.sum_cons] at hFits ⊢
      have hStep : addSpecified acc x = acc + x.2 := if_neg (by omega)
      have hAdd : (acc + x.2).toInt = acc.toInt + x.2.toInt := by
        rw [Int32.toInt_add]
        exact Int.bmod_eq_of_le (by omega) (by omega)
      rw [hStep, ih _ (by omega) (by omega), hAdd, Int.add_assoc]
    · simp only [List.filter_cons, hPos, decide_false, Bool.false_eq_true, if_false] at hFits ⊢
      have hStep : addSpecified acc x = acc := if_pos (by omega)
      rw [hStep]
      exact ih acc hAcc hFits

theorem toInt_specified (r : GroupRequest) {size : Int32} (hFits : r.requested ≤ size.toInt) :
    r.specified.toInt = r.requested := by
  have hUpper := size.toInt_lt
  have hSum := toInt_foldl_addSpecified r.entries 0 (by decide)
  simp only [Int32.toInt_zero, Int.zero_add] at hSum
  exact hSum (Int.lt_of_le_of_lt hFits hUpper)

theorem toInt_toInt32_sub {a b : Nat} (ha : a < 2 ^ 31) (hb : b < 2 ^ 31) :
    (toInt32 (subSizeT a b)).toInt = a - b := by
  rw [toInt_toInt32]
  rcases Nat.lt_or_ge a b with hLess | hLe
  · have hWrap : ((subSizeT a b : Nat) : Int) = a - b + 2 ^ 32 * (2 ^ 32 : Int) := by
      simp only [subSizeT]
      omega
    rw [hWrap]
    have hMod := Int.add_mul_bmod_self_left ((a : Int) - b) (2 ^ 32) (2 ^ 32)
    rw [Nat.cast_pow, Nat.cast_ofNat] at hMod
    rw [hMod]
    exact Int.bmod_eq_of_le (by omega) (by omega)
  · rw [subSizeT_of_le hLe (by omega), Int.natCast_sub hLe]
    exact Int.bmod_eq_of_le (by omega) (by omega)

theorem mulSizeT_share (size : Int32) {count : Nat} (hSize : 0 ≤ size.toInt) (hCount : 1 ≤ count)
    (hCountLt : count < 2 ^ 64) :
    (toInt32 (toSizeT size / count)).toInt = size.toInt / count ∧
      ∃ taken : Nat, mulSizeT (toSizeT (toInt32 (toSizeT size / count))) (subSizeT count 1) = taken ∧
        (taken : Int) = size.toInt / count * (count - 1) ∧ taken < 2 ^ 31 := by
  have hUpper := size.toInt_lt
  have hNat : (toSizeT size : Int) = size.toInt := toSizeT_of_nonneg hSize
  have hShareLe : toSizeT size / count ≤ toSizeT size := Nat.div_le_self _ _
  have hShare : (toInt32 (toSizeT size / count)).toInt = (toSizeT size / count : Nat) :=
    toInt_toInt32_of_lt (by omega)
  have hBack : toSizeT (toInt32 (toSizeT size / count)) = toSizeT size / count := by
    have hNonneg := toSizeT_of_nonneg (hShare ▸ Int.natCast_nonneg (toSizeT size / count))
    rw [hShare] at hNonneg
    exact Int.ofNat_inj.mp hNonneg
  have hTaken : toSizeT size / count * (count - 1) < 2 ^ 31 := by
    have hMul := Nat.div_mul_le_self (toSizeT size) count
    have hLess := Nat.mul_le_mul_left (toSizeT size / count) (Nat.sub_le count 1)
    omega
  refine ⟨by rw [hShare, Int.natCast_ediv, hNat], toSizeT size / count * (count - 1), ?_, ?_, hTaken⟩
  · rw [hBack, subSizeT_of_le hCount hCountLt, mulSizeT, Nat.mod_eq_of_lt (by omega)]
  · rw [Int.natCast_mul, Int.natCast_ediv, hNat, Int.natCast_sub hCount]
    rfl

theorem length_unspecified_lt (r : GroupRequest) : r.unspecified.length < 2 ^ 64 := by
  refine Nat.lt_of_le_of_lt ?_ r.length_lt
  rw [unspecified, List.length_map]
  exact List.length_filter_le _ _

theorem nodup_unspecified (r : GroupRequest) : r.unspecified.Nodup :=
  (List.filter_sublist.map Prod.fst).nodup r.names_nodup

theorem leftover_nonneg (r : GroupRequest) {size : Int32} (hFits : r.requested ≤ size.toInt) :
    0 ≤ r.leftover size := by
  rw [leftover]
  omega

theorem groupsVector_eq (r : GroupRequest) {size : Int32} (hFits : r.requested ≤ size.toInt)
    {last : StdString} (hLast : r.unspecified.getLast? = some last) :
    ∃ lastSize otherSize : Int32,
      r.groupsVector size = some (r.entries.map (groupSize last lastSize otherSize)) ∧
      otherSize.toInt = size.toInt / r.unspecified.length ∧
      lastSize.toInt =
        r.leftover size - size.toInt / r.unspecified.length * (r.unspecified.length - 1) := by
  have hRequested := r.requested_nonneg
  have hUpper := size.toInt_lt
  have hLeftover : (size - r.specified).toInt = r.leftover size := by
    rw [Int32.toInt_sub, r.toInt_specified hFits, leftover]
    exact Int.bmod_eq_of_le (by omega) (by omega)
  have hLeftoverNat : (toSizeT (size - r.specified) : Int) = r.leftover size := by
    rw [toSizeT_of_nonneg (hLeftover ▸ r.leftover_nonneg hFits), hLeftover]
  have hLeftoverLt : toSizeT (size - r.specified) < 2 ^ 31 := by
    rw [leftover] at hLeftoverNat
    omega
  have hCount : 0 < r.unspecified.length := by
    rw [List.length_pos_iff]
    rintro hNil
    rw [hNil] at hLast
    cases hLast
  obtain ⟨hShare, taken, hMul, hTaken, hTakenLt⟩ :=
    mulSizeT_share size (by omega) hCount r.length_unspecified_lt
  refine ⟨_, _, by rw [groupsVector, hLast], hShare, ?_⟩
  rw [hMul, toInt_toInt32_sub hLeftoverLt hTakenLt, hLeftoverNat, hTaken]

section Sizes

variable {r : GroupRequest} {last : StdString} {lastSize otherSize : Int32}

theorem fst_groupSize (x : StdString × Int32) : (groupSize last lastSize otherSize x).1 = x.1 := by
  unfold groupSize
  split
  · rfl
  · split <;> rfl

theorem snd_of_mem_unspecified {x : StdString × Int32}
    (hx : x ∈ r.entries.map (groupSize last lastSize otherSize)) (hName : x.1 ∈ r.unspecified) :
    x.2 = if x.1 = last then lastSize else otherSize := by
  obtain ⟨y, hy, rfl⟩ := List.mem_map.mp hx
  obtain ⟨z, hz, hSame⟩ := List.mem_map.mp hName
  obtain ⟨hz, hOpen⟩ := List.mem_filter.mp hz
  rw [fst_groupSize] at hSame ⊢
  obtain rfl := List.inj_on_of_nodup_map r.names_nodup hz hy hSame
  have hNot : ¬ 0 < z.2.toInt := not_lt.mpr (of_decide_eq_true hOpen)
  rw [groupSize, if_neg hNot]
  split <;> rfl

theorem exists_of_mem_unspecified (last : StdString) (lastSize otherSize : Int32)
    {name : StdString} (hName : name ∈ r.unspecified) :
    ∃ x ∈ r.entries.map (groupSize last lastSize otherSize), x.1 = name := by
  obtain ⟨y, hy, rfl⟩ := List.mem_map.mp hName
  exact ⟨_, List.mem_map_of_mem (List.mem_filter.mp hy).1, fst_groupSize y⟩

theorem sum_groupSize (entries : ProcMap.Vector) :
    ((entries.map (groupSize last lastSize otherSize)).map fun x => x.2.toInt).sum =
      ((entries.filter fun x => 0 < x.2.toInt).map fun x => x.2.toInt).sum +
      (((entries.filter fun x => x.2.toInt ≤ 0).map Prod.fst).map fun name =>
        if name = last then lastSize.toInt else otherSize.toInt).sum := by
  induction entries with
  | nil => rfl
  | cons x entries ih =>
    by_cases hPos : 0 < x.2.toInt
    · have hNot : ¬ x.2.toInt ≤ 0 := by omega
      simp only [List.map_cons, List.sum_cons, ih, List.filter_cons, groupSize, hPos, hNot,
        decide_true, decide_false, if_true, Bool.false_eq_true, if_false]
      omega
    · have hOpen : x.2.toInt ≤ 0 := by omega
      have hSize : (groupSize last lastSize otherSize x).2.toInt =
          if x.1 = last then lastSize.toInt else otherSize.toInt := by
        rw [groupSize, if_neg hPos]
        split <;> rfl
      simp only [List.map_cons, List.sum_cons, ih, List.filter_cons, hSize, hPos, hOpen,
        decide_true, decide_false, if_true, Bool.false_eq_true, if_false]
      omega

theorem sum_open {names : List StdString} (hNodup : names.Nodup)
    (hLast : names.getLast? = some last) (a b : Int) :
    (names.map fun name => if name = last then a else b).sum = b * (names.length - 1) + a := by
  obtain ⟨front, rfl⟩ : ∃ front, names = front ++ [last] :=
    ⟨names.dropLast, (List.dropLast_append_getLast? last hLast).symm⟩
  have hFront : ∀ name ∈ front, name ≠ last := fun name hName =>
    (List.nodup_append.mp hNodup).2.2 name hName last (List.mem_singleton_self _)
  have hSame : (front.map fun name => if name = last then a else b) =
      front.map fun _ => b := List.map_congr_left fun name hName => if_neg (hFront name hName)
  simp [hSame, Int.mul_comm]

theorem mem_dropLast_unspecified (hLast : r.unspecified.getLast? = some last) {name : StdString}
    (hName : name ∈ r.unspecified.dropLast) : name ∈ r.unspecified ∧ name ≠ last := by
  have hNodup := r.nodup_unspecified
  rw [← List.dropLast_append_getLast? last hLast] at hNodup
  exact ⟨List.dropLast_subset _ hName,
    (List.nodup_append.mp hNodup).2.2 name hName last (List.mem_singleton_self _)⟩

theorem remainder_nonneg {size : Int32} (hFits : r.requested ≤ size.toInt)
    (hCount : 0 < r.unspecified.length) :
    0 ≤ r.leftover size -
      r.leftover size / r.unspecified.length * (r.unspecified.length - 1) := by
  have hLeftover := r.leftover_nonneg hFits
  have hMul := Int.ediv_mul_le (r.leftover size) (Int.natCast_ne_zero.mpr hCount.ne')
  have hShare := Int.ediv_nonneg hLeftover (Int.natCast_nonneg r.unspecified.length)
  rw [Int.mul_sub, Int.mul_one]
  omega

theorem share_of_fairSizes {size : Int32} (hLast : r.unspecified.getLast? = some last)
    (hFair : r.FairSizes size (r.entries.map (groupSize last lastSize otherSize)))
    (hCount : r.unspecified.length ≠ 1) :
    otherSize.toInt = r.leftover size / r.unspecified.length := by
  have hFront : r.unspecified.dropLast ≠ [] := by
    intro hNil
    have hSplit := List.dropLast_append_getLast? last hLast
    rw [hNil, List.nil_append] at hSplit
    exact hCount (by rw [← hSplit, List.length_singleton])
  obtain ⟨name, hName⟩ := List.exists_mem_of_ne_nil _ hFront
  obtain ⟨hOpenName, hNe⟩ := mem_dropLast_unspecified hLast hName
  obtain ⟨x, hx, rfl⟩ := exists_of_mem_unspecified last lastSize otherSize hOpenName
  have hShare := hFair.share x hx hName
  rwa [snd_of_mem_unspecified hx hOpenName, if_neg hNe] at hShare

theorem fairSizes_of_share {size : Int32} (hFits : r.requested ≤ size.toInt)
    (hLast : r.unspecified.getLast? = some last) (hNonneg : 0 ≤ otherSize.toInt)
    (hLastSize : lastSize.toInt =
      r.leftover size - otherSize.toInt * (r.unspecified.length - 1))
    (hShare : r.unspecified.length = 1 ∨
      otherSize.toInt = r.leftover size / r.unspecified.length) :
    r.FairSizes size (r.entries.map (groupSize last lastSize otherSize)) := by
  have hOpen : last ∈ r.unspecified := List.mem_of_getLast? hLast
  have hRemainder : lastSize.toInt = r.leftover size -
      r.leftover size / r.unspecified.length * (r.unspecified.length - 1) := by
    obtain hOne | hShare := hShare
    · rw [hLastSize, hOne]
      simp
    · rw [hLastSize, hShare]
  refine ⟨?_, ?_, ?_, ?_, ?_, ?_⟩
  · rw [List.map_map]
    exact List.map_congr_left fun x _ => fst_groupSize x
  · intro x hx hPos
    exact List.mem_map.mpr ⟨x, hx, if_pos hPos⟩
  · intro x hx hName
    rw [snd_of_mem_unspecified hx hName]
    split
    · exact hRemainder ▸ remainder_nonneg hFits (List.length_pos_of_mem hOpen)
    · exact hNonneg
  · intro x hx hName
    obtain ⟨hOpenName, hNe⟩ := mem_dropLast_unspecified hLast hName
    rw [snd_of_mem_unspecified hx hOpenName, if_neg hNe]
    refine hShare.resolve_left fun hOne => ?_
    have hLength : r.unspecified.dropLast.length = 0 := by rw [List.length_dropLast, hOne]
    rw [List.length_eq_zero_iff.mp hLength] at hName
    cases hName
  · intro x hx hName
    obtain rfl : last = x.1 := by simpa [hLast] using hName
    rw [snd_of_mem_unspecified hx hOpen, if_pos rfl, hRemainder]
  · have hOpenSum := sum_open r.nodup_unspecified hLast lastSize.toInt otherSize.toInt
    rw [sum_groupSize]
    change r.requested + (r.unspecified.map _).sum = _
    rw [hOpenSum, hLastSize, leftover]
    omega

end Sizes

/-- The sizes are fair exactly when only one group is open, or the job's size and what is left
over give the same share. -/
theorem fairSizes_iff (r : GroupRequest) (size : Int32) (hFits : r.requested ≤ size.toInt)
    (hOpen : r.unspecified ≠ []) :
    ∃ v, r.groupsVector size = some v ∧
      (r.FairSizes size v ↔ r.unspecified.length = 1 ∨
        size.toInt / r.unspecified.length = r.leftover size / r.unspecified.length) := by
  have hLast := List.getLast?_eq_some_getLast hOpen
  obtain ⟨lastSize, otherSize, hVector, hOther, hRemainder⟩ := r.groupsVector_eq hFits hLast
  refine ⟨_, hVector, ?_⟩
  rw [← hOther] at hRemainder ⊢
  constructor
  · intro hFair
    exact or_iff_not_imp_left.mpr (share_of_fairSizes hLast hFair)
  · intro hShare
    have hNonneg : 0 ≤ otherSize.toInt := by
      have hRequested := r.requested_nonneg
      rw [hOther]
      exact Int.ediv_nonneg (by omega) (Int.natCast_nonneg _)
    exact fairSizes_of_share hFits hLast hNonneg hRemainder hShare

theorem fairSizes_iff_run :
    let r : GroupRequest := ⟨[(⟨[97]⟩, 3), (⟨[98]⟩, 0)], by decide, by decide⟩
    ∃ v, r.groupsVector 10 = some v ∧ r.FairSizes 10 v := by
  intro r
  obtain ⟨v, hv, hFair⟩ := fairSizes_iff r 10 (by decide) (by decide)
  exact ⟨v, hv, hFair.mpr (.inl (by decide))⟩

/-- Job size 10 with one group asking for 8 and two groups open: they get 5 and -3. -/
theorem negative_share :
    let r : GroupRequest := ⟨[(⟨[97]⟩, 8), (⟨[98]⟩, 0), (⟨[99]⟩, 0)], by decide, by decide⟩
    r.requested ≤ (10 : Int32).toInt ∧ r.unspecified ≠ [] ∧
      r.groupsVector 10 = some [(⟨[97]⟩, 8), (⟨[98]⟩, 5), (⟨[99]⟩, -3)] ∧
      ∀ v, r.groupsVector 10 = some v → ¬ r.FairSizes 10 v := by
  intro r
  refine ⟨by decide, by decide, by decide, ?_⟩
  intro v hv hFair
  have hVector : r.groupsVector 10 = some [(⟨[97]⟩, 8), (⟨[98]⟩, 5), (⟨[99]⟩, -3)] := by decide
  obtain rfl := Option.some.inj (hVector.symm.trans hv)
  exact absurd (hFair.nonneg (⟨[99]⟩, -3) (by decide) (by decide)) (by decide)

end GroupRequest

end Henson
