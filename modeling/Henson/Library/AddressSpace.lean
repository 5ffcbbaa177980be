import Mathlib.Data.Nat.Basic
import Mathlib.Algebra.Order.Ring.Nat

/-!
# The pages of a process

Whole pages are mapped, protected and unmapped. Whom a page was mapped for is written
down beside its protection; no call looks at it.
-/

namespace AddressSpace

inductive Prot where
  | none
  | readWrite
  | readWriteExec
  deriving DecidableEq

structure Page (User : Type) where
  user : User
  prot : Prot

structure PageSize where
  bytes : Nat
  pos : 0 < bytes

/-- The page begins among the `len` bytes from `addr`. -/
def Covers (P : PageSize) (addr len q : Nat) : Prop :=
  addr ≤ q * P.bytes ∧ q * P.bytes < addr + len

instance (P : PageSize) (addr len q : Nat) : Decidable (Covers P addr len q) :=
  inferInstanceAs (Decidable (_ ∧ _))

section

variable {User : Type} (P : PageSize) (addr len : Nat)

def mmap (user : User) (prot : Prot) (pages : Nat → Option (Page User)) (q : Nat) :
    Option (Page User) :=
  if Covers P addr len q then some ⟨user, prot⟩ else pages q

def munmap (pages : Nat → Option (Page User)) (q : Nat) : Option (Page User) :=
  if P.bytes ∣ addr ∧ Covers P addr len q then none else pages q

def mprotect (prot : Prot) (pages : Nat → Option (Page User)) (q : Nat) : Option (Page User) :=
  if P.bytes ∣ addr ∧ Covers P addr len q then (pages q).map ({ · with prot }) else pages q

/-- What the kernel may grant: whole pages, none of them in use. -/
def Free (pages : Nat → Option (Page User)) : Prop :=
  P.bytes ∣ addr ∧ ∀ q < addr + len, Covers P addr len q → (pages q).isNone = true

instance (pages : Nat → Option (Page User)) : Decidable (Free P addr len pages) :=
  inferInstanceAs (Decidable (_ ∧ _))

def Writable (pages : Nat → Option (Page User)) (a : Nat) : Prop :=
  ∃ p, pages (a / P.bytes) = some p ∧ p.prot ≠ .none

variable {P addr len} {pages : Nat → Option (Page User)}

theorem Free.eq_none (h : Free P addr len pages) {q : Nat} (hq : Covers P addr len q) :
    pages q = none := by
  have hLe : q ≤ q * P.bytes := Nat.le_mul_of_pos_right q P.pos
  exact Option.isNone_iff_eq_none.mp (h.2 q (Nat.lt_of_le_of_lt hLe hq.2) hq)

theorem mmap_of_covers {user : User} {prot : Prot} {q : Nat} (hq : Covers P addr len q) :
    mmap P addr len user prot pages q = some ⟨user, prot⟩ :=
  if_pos hq

theorem munmap_of_covers (hAddr : P.bytes ∣ addr) {q : Nat} (hq : Covers P addr len q) :
    munmap P addr len pages q = none :=
  if_pos ⟨hAddr, hq⟩

theorem munmap_of_not_covers {q : Nat} (hq : ¬ Covers P addr len q) :
    munmap P addr len pages q = pages q :=
  if_neg fun h => hq h.2

theorem mprotect_of_covers (hAddr : P.bytes ∣ addr) {prot : Prot} {q : Nat}
    (hq : Covers P addr len q) :
    mprotect P addr len prot pages q = (pages q).map ({ · with prot }) :=
  if_pos ⟨hAddr, hq⟩

theorem mprotect_of_not_covers {prot : Prot} {q : Nat} (hq : ¬ Covers P addr len q) :
    mprotect P addr len prot pages q = pages q :=
  if_neg fun h => hq h.2

end

theorem covers_div {P : PageSize} {addr len a : Nat} (hAddr : P.bytes ∣ addr) (hLe : addr ≤ a)
    (hLt : a < addr + len) : Covers P addr len (a / P.bytes) := by
  obtain ⟨n, rfl⟩ := hAddr
  refine ⟨?_, Nat.lt_of_le_of_lt (Nat.div_mul_le_self a P.bytes) hLt⟩
  rw [Nat.mul_comm]
  exact Nat.mul_le_mul_right _ ((Nat.le_div_iff_mul_le P.pos).mpr (Nat.mul_comm _ _ ▸ hLe))

theorem of_covers_div {P : PageSize} {addr len a : Nat} (hAddr : P.bytes ∣ addr)
    (hLen : P.bytes ∣ len) (h : Covers P addr len (a / P.bytes)) :
    addr ≤ a ∧ a < addr + len := by
  refine ⟨h.1.trans (Nat.div_mul_le_self a P.bytes), ?_⟩
  obtain ⟨n, hn⟩ := Nat.dvd_add hAddr hLen
  have hLt := h.2
  rw [hn, Nat.mul_comm P.bytes n] at hLt ⊢
  exact (Nat.div_lt_iff_lt_mul P.pos).mp (Nat.lt_of_mul_lt_mul_right hLt)

end AddressSpace
