import Mathlib.Data.List.Basic

/-!
# Splitting a list at one of its members

Histories and tables are lists that grow at their end. A member of such a list is
the last one or splits the list as it was before. A list of lines is split in one
way at the first of its line ends.
-/

namespace ListSplit

universe u

theorem concat_eq_append_cons {α : Type u} {l front back : List α} {x y : α} :
    l ++ [x] = front ++ y :: back ↔
      (front = l ∧ y = x ∧ back = []) ∨ ∃ back', back = back' ++ [x] ∧ l = front ++ y :: back' := by
  constructor
  · intro h
    rcases List.eq_nil_or_concat back with rfl | ⟨back', z, rfl⟩
    · obtain ⟨rfl, hLast⟩ := List.append_inj' h rfl
      exact .inl ⟨rfl, (List.singleton_inj.mp hLast).symm, rfl⟩
    · rw [List.concat_eq_append, ← List.cons_append, ← List.append_assoc] at h
      obtain ⟨hSplit, hLast⟩ := List.append_inj' h rfl
      obtain rfl := List.singleton_inj.mp hLast
      exact .inr ⟨back', List.concat_eq_append, hSplit⟩
  · rintro (⟨rfl, rfl, rfl⟩ | ⟨back', rfl, rfl⟩)
    · rfl
    · simp

theorem append_eq_append_cons {α : Type u} {l l' front back : List α} {x : α} :
    l ++ l' = front ++ x :: back ↔
      (∃ back', l = front ++ x :: back' ∧ back = back' ++ l') ∨
        ∃ front', front = l ++ front' ∧ l' = front' ++ x :: back := by
  constructor
  · intro h
    rcases List.append_eq_append_iff.mp h with ⟨front', hFront, hBack⟩ | ⟨rest, hFront, hBack⟩
    · exact .inr ⟨front', hFront, hBack⟩
    · rcases List.cons_eq_append_iff.mp hBack with ⟨rfl, rfl⟩ | ⟨back', rfl, rfl⟩
      · exact .inr ⟨[], by simpa using hFront.symm, rfl⟩
      · exact .inl ⟨back', hFront, rfl⟩
  · rintro (⟨back', rfl, rfl⟩ | ⟨front', rfl, rfl⟩)
    · simp
    · simp

theorem takeWhile_append {α : Type u} {p : α → Bool} {a t : List α} (ha : ∀ x ∈ a, p x = false)
    (ht : ∃ x ∈ t.head?, p x = true) : (a ++ t).takeWhile (fun x => !p x) = a := by
  obtain ⟨x, hx, hp⟩ := ht
  obtain ⟨rest, rfl⟩ := List.head?_eq_some_iff.mp hx
  rw [List.takeWhile_append_of_pos fun y hy => by rw [ha y hy]; rfl,
    List.takeWhile_cons_of_neg (by simp [hp]), List.append_nil]

theorem append_unique {α : Type u} {p : α → Bool} {a b t u : List α} (h : a ++ t = b ++ u)
    (ha : ∀ x ∈ a, p x = false) (hb : ∀ x ∈ b, p x = false) (ht : ∃ x ∈ t.head?, p x = true)
    (hu : ∃ x ∈ u.head?, p x = true) : a = b ∧ t = u := by
  have hSame : a = b := by
    rw [← takeWhile_append ha ht, h, takeWhile_append hb hu]
  subst hSame
  exact ⟨rfl, List.append_cancel_left h⟩

theorem mem_takeWhile_iff {α : Type u} {p : α → Bool} {l : List α} {x : α} :
    x ∈ l.takeWhile p ↔
      ∃ i : Nat, l[i]? = some x ∧ ∀ j ≤ i, ∀ y, l[j]? = some y → p y = true := by
  induction l with
  | nil => simp
  | cons a l ih =>
    rw [List.takeWhile_cons]
    cases hp : p a with
    | false =>
      refine iff_of_false List.not_mem_nil ?_
      rintro ⟨i, -, hAll⟩
      rw [hAll 0 (Nat.zero_le i) a rfl] at hp
      cases hp
    | true =>
      rw [if_pos rfl, List.mem_cons, ih]
      constructor
      · rintro (rfl | ⟨i, hi, hAll⟩)
        · refine ⟨0, rfl, fun j hj y hy => ?_⟩
          obtain rfl := Nat.le_zero.mp hj
          exact Option.some.inj hy ▸ hp
        · refine ⟨i + 1, hi, fun j hj y hy => ?_⟩
          cases j with
          | zero => exact Option.some.inj hy ▸ hp
          | succ j => exact hAll j (Nat.le_of_succ_le_succ hj) y hy
      · rintro ⟨i, hi, hAll⟩
        cases i with
        | zero => exact .inl (Option.some.inj hi).symm
        | succ i =>
          exact .inr ⟨i, hi, fun j hj y hy => hAll (j + 1) (Nat.succ_le_succ hj) y hy⟩

theorem not_mem_of_mem_splitOn {α : Type u} [BEq α] [LawfulBEq α] {a : α} {l run : List α}
    (h : run ∈ l.splitOn a) : a ∉ run := by
  induction l generalizing run with
  | nil =>
    rw [List.splitOn_nil, List.mem_singleton] at h
    exact h ▸ List.not_mem_nil
  | cons x l ih =>
    rw [List.splitOn_cons_eq_if_modifyHead] at h
    split at h
    · rcases List.mem_cons.mp h with rfl | hTail
      · exact List.not_mem_nil
      · exact ih hTail
    · rename_i hOther
      obtain ⟨first, runs, hRuns⟩ := List.exists_cons_of_ne_nil (List.splitOn_ne_nil a l)
      rw [hRuns, List.modifyHead_cons] at h
      rcases List.mem_cons.mp h with rfl | hTail
      · rw [List.mem_cons, not_or]
        exact ⟨fun hSame => hOther (beq_iff_eq.mpr hSame.symm), ih (hRuns ▸ List.mem_cons_self)⟩
      · exact ih (hRuns ▸ List.mem_cons_of_mem first hTail)

theorem mem_take_drop {α : Type u} {l : List α} {start stop : Nat} {x : α} :
    x ∈ (l.take stop).drop start ↔ ∃ i, start ≤ i ∧ i < stop ∧ l[i]? = some x := by
  rw [List.mem_iff_getElem?]
  constructor
  · rintro ⟨k, hk⟩
    rw [List.getElem?_drop, List.getElem?_take] at hk
    split at hk
    · exact ⟨start + k, Nat.le_add_right _ _, ‹_›, hk⟩
    · cases hk
  · rintro ⟨i, hStart, hStop, hi⟩
    refine ⟨i - start, ?_⟩
    rw [List.getElem?_drop, Nat.add_sub_cancel' hStart, List.getElem?_take_of_lt hStop, hi]

end ListSplit
