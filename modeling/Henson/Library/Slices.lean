import Mathlib.Data.List.Nodup

/-!
# Consecutive slices

A list that is cut into consecutive slices is their concatenation: slices of a
common length with a last one that takes the rest, items of one length in a row,
and the numbers below a product, block by block.
-/

namespace Slices

universe u

variable {α : Type u}

theorem range_mul (m k : Nat) :
    List.range (m * k) = (List.range m).flatMap fun q => (List.range k).map (q * k + ·) := by
  induction m with
  | zero => simp
  | succ m ih =>
    rw [Nat.succ_mul, List.range_add, ih, List.range_succ, List.flatMap_append]
    simp

theorem flatMap_range_mul (m : Nat) {k : Nat} (hk : 0 < k) (f : Nat → Nat → List α) :
    (List.range (m * k)).flatMap (fun i => f (i / k) i) =
      (List.range m).flatMap fun q => ((List.range k).map (q * k + ·)).flatMap (f q) := by
  rw [range_mul, List.flatMap_assoc]
  refine List.flatMap_congr fun q _ => ?_
  rw [List.flatMap_map, List.flatMap_map]
  refine List.flatMap_congr fun i hi => ?_
  have hBlock : (q * k + i) / k = q := by
    rw [Nat.mul_comm, Nat.mul_add_div hk, Nat.div_eq_of_lt (List.mem_range.mp hi), Nat.add_zero]
  rw [hBlock]

theorem flatMap_idxOf {β : Type u} [DecidableEq β] {l : List β} (h : l.Nodup)
    (g : Nat → List α) :
    l.flatMap (fun b => g (l.idxOf b)) = (List.range l.length).flatMap g := by
  have hIndices : l.map (fun b => l.idxOf b) = List.range l.length := by
    refine List.ext_getElem (by simp) fun i hi _ => ?_
    rw [List.length_map] at hi
    rw [List.getElem_map, List.getElem_range]
    exact List.get_idxOf h ⟨i, hi⟩
  rw [← hIndices, List.flatMap_map]

theorem take_mul (l : List α) (width count : Nat) :
    l.take (count * width) =
      (List.range count).flatMap fun i => (l.drop (i * width)).take width := by
  induction count with
  | zero => simp
  | succ count ih =>
    have hLast : (List.range (count + 1)).flatMap (fun i => (l.drop (i * width)).take width) =
        (List.range count).flatMap (fun i => (l.drop (i * width)).take width) ++
          (l.drop (count * width)).take width := by
      rw [List.range_succ, List.flatMap_append, List.flatMap_singleton]
    rw [hLast, ← ih, Nat.succ_mul, List.take_add]

def start (n k r : Nat) : Nat := r * (n / k)

def stop (n k r : Nat) : Nat := if r + 1 = k then n else (r + 1) * (n / k)

/-- The `r`-th of `k` slices has `l.length / k` items; the last one takes the rest. -/
def slice (l : List α) (k r : Nat) : List α :=
  (l.drop (start l.length k r)).take (stop l.length k r - start l.length k r)

theorem start_le_stop {n k r : Nat} (hr : r < k) : start n k r ≤ stop n k r := by
  rw [start, stop]
  split
  · exact Nat.le_trans (Nat.mul_le_mul_right _ (Nat.le_of_lt hr)) (Nat.mul_div_le n k)
  · exact Nat.mul_le_mul_right _ (Nat.le_succ r)

theorem stop_le {n k r : Nat} (hr : r < k) : stop n k r ≤ n := by
  rw [stop]
  split
  · exact Nat.le_refl n
  · exact Nat.le_trans (Nat.mul_le_mul_right _ hr) (Nat.mul_div_le n k)

theorem length_slice (l : List α) {k r : Nat} (hr : r < k) :
    (slice l k r).length = stop l.length k r - start l.length k r := by
  have hStart := start_le_stop (n := l.length) hr
  have hStop := stop_le (n := l.length) hr
  rw [slice, List.length_take, List.length_drop]
  omega

theorem mem_of_mem_slice {l : List α} {k r : Nat} {a : α} (h : a ∈ slice l k r) : a ∈ l :=
  List.mem_of_mem_drop (List.mem_of_mem_take h)

theorem flatMap_slice (l : List α) {k : Nat} (hk : 0 < k) :
    (List.range k).flatMap (slice l k) = l := by
  obtain ⟨k, rfl⟩ := Nat.exists_eq_succ_of_ne_zero (Nat.ne_of_gt hk)
  have hInit : (List.range k).flatMap (slice l (k + 1)) = l.take (k * (l.length / (k + 1))) := by
    rw [take_mul]
    refine List.flatMap_congr fun r hr => ?_
    have hNotLast : r + 1 ≠ k + 1 := by
      have := List.mem_range.mp hr
      omega
    rw [slice, start, stop, if_neg hNotLast, Nat.succ_mul, Nat.add_sub_cancel_left]
  have hLast : slice l (k + 1) k = l.drop (k * (l.length / (k + 1))) := by
    rw [slice, start, stop, if_pos rfl]
    exact List.take_of_length_le (Nat.le_of_eq List.length_drop)
  rw [List.range_succ, List.flatMap_append, hInit, List.flatMap_singleton, hLast,
    List.take_append_drop]

theorem length_flatten {items : List (List α)} {width : Nat}
    (hWidth : ∀ a ∈ items, a.length = width) : items.flatten.length = items.length * width := by
  rw [List.length_flatten, List.map_congr_left hWidth]
  simp

theorem take_drop_flatten {items : List (List α)} {width i : Nat} {item : List α}
    (hWidth : ∀ a ∈ items, a.length = width) (hItem : items[i]? = some item) :
    i * width + width ≤ items.flatten.length ∧
      (items.flatten.drop (i * width)).take width = item := by
  induction items generalizing i with
  | nil => simp at hItem
  | cons a items ih =>
    have hHead := hWidth a List.mem_cons_self
    cases i with
    | zero =>
      obtain rfl := Option.some.inj hItem
      rw [List.flatten_cons, Nat.zero_mul, List.drop_zero, ← hHead, List.take_left]
      simp
    | succ i =>
      obtain ⟨hLength, hTake⟩ := ih (fun b hb => hWidth b (List.mem_cons_of_mem a hb)) hItem
      rw [List.flatten_cons, List.length_append, Nat.succ_mul, hHead]
      refine ⟨by omega, ?_⟩
      have hDrop : (a ++ items.flatten).drop (i * width + width) =
          items.flatten.drop (i * width) := by
        rw [Nat.add_comm, ← hHead, List.drop_length_add_append]
      rw [hDrop]
      exact hTake

end Slices
