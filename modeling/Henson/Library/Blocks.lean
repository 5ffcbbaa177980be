import Mathlib.Algebra.BigOperators.Group.List.Basic
import Mathlib.Algebra.GroupWithZero.Nat

/-!
# Consecutive blocks

A list of items with sizes cuts the numbers below the total size into consecutive
blocks, one for each item. No number is in two blocks; an item of size zero has
none.
-/

namespace Blocks

universe u

variable {α : Type u} {size : α → Nat}

def total (size : α → Nat) (l : List α) : Nat := (l.map size).sum

@[simp] theorem total_nil : total size [] = 0 := rfl

@[simp] theorem total_cons (x : α) (l : List α) : total size (x :: l) = size x + total size l :=
  List.sum_cons

@[simp] theorem total_append (l l' : List α) :
    total size (l ++ l') = total size l + total size l' := by
  rw [total, List.map_append, List.sum_append]
  rfl

/-- The block of `x`, behind those of `pre`, has the number `r`. -/
structure At (size : α → Nat) (l pre : List α) (x : α) (r : Nat) : Prop where
  split : ∃ post, l = pre ++ x :: post
  start_le : total size pre ≤ r
  lt_stop : r < total size pre + size x

theorem behind_or_eq (size : α → Nat) {l pre pre' post post' : List α} {x x' : α}
    (h : l = pre ++ x :: post) (h' : l = pre' ++ x' :: post') :
    (pre = pre' ∧ x = x') ∨ total size pre + size x ≤ total size pre' ∨
      total size pre' + size x' ≤ total size pre := by
  rcases List.append_eq_append_iff.mp (h.symm.trans h') with ⟨between, hPre, hRest⟩ |
    ⟨between, hPre, hRest⟩
  · cases between with
    | nil =>
      obtain ⟨rfl, -⟩ := List.cons.inj hRest
      exact .inl ⟨by simpa using hPre.symm, rfl⟩
    | cons y between =>
      obtain ⟨rfl, -⟩ := List.cons.inj hRest
      refine .inr (.inl ?_)
      rw [hPre, total_append, total_cons]
      omega
  · cases between with
    | nil =>
      obtain ⟨rfl, -⟩ := List.cons.inj hRest
      exact .inl ⟨by simpa using hPre, rfl⟩
    | cons y between =>
      obtain ⟨rfl, -⟩ := List.cons.inj hRest
      refine .inr (.inr ?_)
      rw [hPre, total_append, total_cons]
      omega

theorem At.unique {l pre pre' : List α} {x x' : α} {r : Nat} (h : At size l pre x r)
    (h' : At size l pre' x' r) : pre = pre' ∧ x = x' := by
  obtain ⟨⟨post, hSplit⟩, hStart, hStop⟩ := h
  obtain ⟨⟨post', hSplit'⟩, hStart', hStop'⟩ := h'
  rcases behind_or_eq size hSplit hSplit' with hEq | hBehind | hBehind
  · exact hEq
  · omega
  · omega

end Blocks
