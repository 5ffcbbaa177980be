import Mathlib.Logic.Basic
import Mathlib.Data.List.Basic

/-!
# FIFO channels with a probe

A channel keeps everything that was ever sent on it, in order, and two cursors:
how much has arrived, and how much has been received. A probe sees what has
arrived and was not received. The cursors never overtake each other.
-/

universe u

structure FifoChannel (α : Type u) where
  sent : List α
  arrived : Nat
  received : Nat
  received_le : received ≤ arrived
  arrived_le : arrived ≤ sent.length

namespace FifoChannel

variable {α : Type u}

def empty : FifoChannel α := ⟨[], 0, 0, Nat.le_refl _, Nat.le_refl _⟩

def send (c : FifoChannel α) (x : α) : FifoChannel α where
  sent := c.sent ++ [x]
  arrived := c.arrived
  received := c.received
  received_le := c.received_le
  arrived_le := Nat.le_trans c.arrived_le (by simp)

/-- The next message in flight becomes visible. -/
def arrive (c : FifoChannel α) : Option (FifoChannel α) :=
  if h : c.arrived < c.sent.length then
    some { c with
      arrived := c.arrived + 1
      received_le := Nat.le_succ_of_le c.received_le
      arrived_le := h }
  else none

def probe (c : FifoChannel α) : Bool := c.received < c.arrived

def receive (c : FifoChannel α) : Option (α × FifoChannel α) :=
  if h : c.received < c.arrived then
    some (c.sent.get ⟨c.received, Nat.lt_of_lt_of_le h c.arrived_le⟩,
      { c with received := c.received + 1, received_le := h })
  else none

def Drained (c : FifoChannel α) : Prop := c.received = c.sent.length

instance (c : FifoChannel α) : Decidable c.Drained := inferInstanceAs (Decidable (_ = _))

theorem sent_arrive {c c' : FifoChannel α} (h : c.arrive = some c') : c'.sent = c.sent := by
  simp only [arrive, Option.dite_none_right_eq_some, Option.some.injEq] at h
  obtain ⟨-, rfl⟩ := h
  rfl

theorem received_arrive {c c' : FifoChannel α} (h : c.arrive = some c') :
    c'.received = c.received := by
  simp only [arrive, Option.dite_none_right_eq_some, Option.some.injEq] at h
  obtain ⟨-, rfl⟩ := h
  rfl

theorem probe_arrive {c c' : FifoChannel α} (h : c.arrive = some c') (hProbe : c.probe = true) :
    c'.probe = true := by
  simp only [arrive, Option.dite_none_right_eq_some, Option.some.injEq] at h
  obtain ⟨-, rfl⟩ := h
  have hLt : c.received < c.arrived := of_decide_eq_true hProbe
  exact decide_eq_true (Nat.lt_succ_of_lt hLt)

theorem receive_eq_some {c c' : FifoChannel α} {x : α} (h : c.receive = some (x, c')) :
    c.sent[c.received]? = some x ∧ c'.sent = c.sent ∧ c'.received = c.received + 1 := by
  simp only [receive, Option.dite_none_right_eq_some, Option.some.injEq, Prod.mk.injEq] at h
  obtain ⟨hArrived, rfl, rfl⟩ := h
  exact ⟨List.getElem?_eq_getElem _, rfl, rfl⟩

theorem probe_of_receive {c c' : FifoChannel α} {x : α} (h : c.receive = some (x, c')) :
    c.probe = true := by
  simp only [receive, Option.dite_none_right_eq_some] at h
  exact decide_eq_true h.1

theorem not_probe_of_receive {c : FifoChannel α} (h : c.receive = none) : ¬ c.probe = true := by
  intro hProbe
  have hLt : c.received < c.arrived := of_decide_eq_true hProbe
  rw [receive, dif_pos hLt] at h
  cases h

theorem sent_ne_nil_of_probe {c : FifoChannel α} (h : c.probe = true) : c.sent ≠ [] := by
  have hArrived : c.received < c.arrived := of_decide_eq_true h
  have hSent := c.arrived_le
  exact List.length_pos_iff.mp (by omega)

end FifoChannel
