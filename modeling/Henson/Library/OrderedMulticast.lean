import Mathlib.Data.List.Nodup
import Mathlib.Data.List.Infix

/-!
# Multicast in one order

One source issues items, each to a set of members, and every member handles the
items it got one after another. Whatever the sets, two members handle the items
they share in the same order, and the earliest item that somebody has not handled
is the next one everywhere it is still to be handled.
-/

namespace OrderedMulticast

universe u v

variable {Member : Type u} {Item : Type v} {addressed : Item → Member → Prop}
  [∀ x p, Decidable (addressed x p)]

def inbox (addressed : Item → Member → Prop) [∀ x p, Decidable (addressed x p)] (issued : List Item)
    (p : Member) : List Item :=
  issued.filter (addressed · p)

/-- Every member has handled a first part of what was issued to it and the rest waits. -/
structure Ordered (addressed : Item → Member → Prop) [∀ x p, Decidable (addressed x p)]
    (issued : List Item) (handled waiting : Member → List Item) : Prop where
  nodup : issued.Nodup
  split : ∀ p, handled p ++ waiting p = inbox addressed issued p

theorem mem_inbox {issued : List Item} {p : Member} {x : Item} :
    x ∈ inbox addressed issued p ↔ x ∈ issued ∧ addressed x p := by
  simp [inbox]

theorem inbox_issue (issued : List Item) (x : Item) (p : Member) :
    inbox addressed (issued ++ [x]) p =
      inbox addressed issued p ++ if addressed x p then [x] else [] := by
  by_cases h : addressed x p <;> simp [inbox, h]

theorem eq_cons_of_append {α : Type v} {l l' pre post : List α} {x : α}
    (hEq : l ++ l' = pre ++ x :: post) (hNodup : (l ++ l').Nodup) (hMem : x ∈ l')
    (hPre : ∀ y ∈ pre, y ∉ l') : l' = x :: post := by
  rcases List.append_eq_append_iff.mp hEq with ⟨between, hFront, hBack⟩ | ⟨between, hFront, hBack⟩
  · -- what lies between the two cuts would be handled and waiting at once
    cases between with
    | nil => simpa using hBack
    | cons y between =>
      have hy : y ∈ pre := by simp [hFront]
      exact absurd (by simp [hBack]) (hPre y hy)
  · cases between with
    | nil => simpa using hBack.symm
    | cons y between =>
      obtain ⟨rfl, -⟩ := List.cons.inj hBack
      have hl : x ∈ l := by simp [hFront]
      exact absurd rfl ((List.nodup_append.mp hNodup).2.2 x hl x hMem)

namespace Ordered

variable {issued : List Item} {handled waiting : Member → List Item}

theorem mem_waiting_iff (h : Ordered addressed issued handled waiting) {p : Member} {x : Item} :
    x ∈ waiting p ↔ x ∈ issued ∧ addressed x p ∧ x ∉ handled p := by
  have hMem : x ∈ inbox addressed issued p ↔ x ∈ handled p ∨ x ∈ waiting p := by
    rw [← h.split p, List.mem_append]
  have hNodup : (handled p ++ waiting p).Nodup := h.split p ▸ h.nodup.filter _
  rw [mem_inbox] at hMem
  constructor
  · intro hWaiting
    have hIssued := hMem.mpr (.inr hWaiting)
    refine ⟨hIssued.1, hIssued.2, fun hHandled => ?_⟩
    exact (List.nodup_append.mp hNodup).2.2 x hHandled x hWaiting rfl
  · rintro ⟨hIssued, hAddressed, hNot⟩
    exact (hMem.mp ⟨hIssued, hAddressed⟩).resolve_left hNot

theorem addressed_of_handled (h : Ordered addressed issued handled waiting) {p : Member} {x : Item}
    (hHandled : x ∈ handled p) : addressed x p := by
  have hInbox : x ∈ inbox addressed issued p := h.split p ▸ List.mem_append_left _ hHandled
  exact (mem_inbox.mp hInbox).2

theorem nodup_waiting (h : Ordered addressed issued handled waiting) (p : Member) :
    (waiting p).Nodup := by
  have hNodup : (handled p ++ waiting p).Nodup := h.split p ▸ h.nodup.filter _
  exact (List.nodup_append.mp hNodup).2.1

theorem issue (h : Ordered addressed issued handled waiting) {x : Item} (hFresh : x ∉ issued) :
    Ordered addressed (issued ++ [x]) handled
      fun p => waiting p ++ if addressed x p then [x] else [] where
  nodup := by
    refine List.nodup_append.mpr ⟨h.nodup, List.nodup_singleton x, ?_⟩
    intro y hy z hz hEq
    rw [List.mem_singleton] at hz
    exact hFresh (hz ▸ hEq ▸ hy)
  split p := by rw [inbox_issue, ← List.append_assoc, h.split p]

theorem handle [DecidableEq Member] (h : Ordered addressed issued handled waiting) {p : Member}
    {x : Item} {rest : List Item} (hHead : waiting p = x :: rest) :
    Ordered addressed issued (Function.update handled p (handled p ++ [x]))
      (Function.update waiting p rest) where
  nodup := h.nodup
  split q := by
    by_cases hq : q = p
    · subst hq
      rw [Function.update_self, Function.update_self, List.append_assoc, List.singleton_append,
        ← hHead, h.split q]
    · rw [Function.update_of_ne hq, Function.update_of_ne hq, h.split q]

theorem shared_prefix (h : Ordered addressed issued handled waiting) (p q : Member)
    {begun : List Item} (hBegun : begun <+: handled p ++ waiting p) :
    begun.filter (addressed · q) <+: inbox addressed (inbox addressed issued q) p := by
  have hShared : inbox addressed (inbox addressed issued q) p =
      (inbox addressed issued p).filter (addressed · q) := by
    simp only [inbox, List.filter_filter, Bool.and_comm]
  rw [hShared, ← h.split p]
  exact hBegun.filter _

theorem head_of_earliest (h : Ordered addressed issued handled waiting)
    {pre post : List Item} {x : Item} (hSplit : issued = pre ++ x :: post)
    (hPre : ∀ y ∈ pre, ∀ p, y ∉ waiting p) {p : Member}
    (hWaiting : x ∈ waiting p) : (waiting p).head? = some x := by
  have hAddressed := (h.mem_waiting_iff.mp hWaiting).2.1
  have hCut : handled p ++ waiting p =
      pre.filter (addressed · p) ++ x :: post.filter (addressed · p) := by
    rw [h.split p, inbox, hSplit, List.filter_append,
      List.filter_cons_of_pos (by simpa using hAddressed)]
  have hNodup : (handled p ++ waiting p).Nodup := h.split p ▸ h.nodup.filter _
  have hEq := eq_cons_of_append hCut hNodup hWaiting
    fun y hy => hPre y (List.mem_of_mem_filter hy) p
  rw [hEq, List.head?_cons]

theorem exists_earliest (h : Ordered addressed issued handled waiting) {p : Member}
    (hWaiting : waiting p ≠ []) :
    ∃ pre x post, issued = pre ++ x :: post ∧ (∀ y ∈ pre, ∀ q, y ∉ waiting q) ∧
      ∃ q, x ∈ waiting q := by
  obtain ⟨x, hx⟩ := List.exists_mem_of_ne_nil _ hWaiting
  classical
  have hFind : (issued.find? fun y => decide (∃ q, y ∈ waiting q)).isSome := by
    rw [List.find?_isSome]
    exact ⟨x, (h.mem_waiting_iff.mp hx).1, decide_eq_true ⟨p, hx⟩⟩
  obtain ⟨y, hy⟩ := Option.isSome_iff_exists.mp hFind
  obtain ⟨hFound, pre, post, hSplit, hPre⟩ := List.find?_eq_some_iff_append.mp hy
  refine ⟨pre, y, post, hSplit, fun z hz q hWaits => ?_, of_decide_eq_true hFound⟩
  have hNot := hPre z hz
  rw [Bool.not_eq_true', decide_eq_false_iff_not] at hNot
  exact hNot ⟨q, hWaits⟩

end Ordered

end OrderedMulticast
