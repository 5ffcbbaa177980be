import Mathlib.Algebra.Group.Nat.Defs
import Mathlib.Algebra.Group.Int.Defs

/-!
# A 32-bit `int` and a 64-bit `size_t`

A `size_t` is a natural number below `2 ^ 64`; its operations wrap around. The
operations of `int` have no result where they overflow, and no quotient by zero
has one.
-/

namespace MachineInt

/-- Conversion to `size_t`: negative numbers wrap to the top. -/
def toSizeT (x : Int32) : Nat := (x.toInt % 2 ^ 64).toNat

/-- Narrowing to `int`: the low 32 bits, read in two's complement. -/
def toInt32 (n : Nat) : Int32 := Int32.ofInt n

def addSizeT (a b : Nat) : Nat := (a + b) % 2 ^ 64

def subSizeT (a b : Nat) : Nat := (a + (2 ^ 64 - b)) % 2 ^ 64

def mulSizeT (a b : Nat) : Nat := a * b % 2 ^ 64

def divSizeT (a b : Nat) : Option Nat := if b = 0 then none else some (a / b)

theorem toNat_ofNat_mul {i : Nat} {width : UInt64} (h : i * width.toNat < 2 ^ 64) :
    (UInt64.ofNat i * width).toNat = i * width.toNat := by
  rw [UInt64.toNat_mul, UInt64.toNat_ofNat', Nat.mod_mul_mod, Nat.mod_eq_of_lt h]

theorem toSizeT_of_nonneg {x : Int32} (h : 0 ≤ x.toInt) : (toSizeT x : Int) = x.toInt := by
  have hUpper := x.toInt_lt
  simp only [toSizeT]
  omega

theorem toInt_toInt32 (n : Nat) : (toInt32 n).toInt = (n : Int).bmod (2 ^ 32) :=
  Int32.toInt_ofInt

theorem toInt_toInt32_of_lt {n : Nat} (h : n < 2 ^ 31) : (toInt32 n).toInt = n := by
  rw [toInt_toInt32]
  exact Int.bmod_eq_of_le (by omega) (by omega)

theorem addSizeT_of_lt {a b : Nat} (h : a + b < 2 ^ 64) : addSizeT a b = a + b :=
  Nat.mod_eq_of_lt h

theorem subSizeT_of_le {a b : Nat} (h : b ≤ a) (hFits : a < 2 ^ 64) : subSizeT a b = a - b := by
  simp only [subSizeT]
  omega

def intOf (x : Int) : Option Int32 :=
  if -2 ^ 31 ≤ x ∧ x < 2 ^ 31 then some (Int32.ofInt x) else none

def addInt (a b : Int32) : Option Int32 := intOf (a.toInt + b.toInt)

def subInt (a b : Int32) : Option Int32 := intOf (a.toInt - b.toInt)

/-- The quotient is rounded towards zero. -/
def divInt (a b : Int32) : Option Int32 :=
  if b.toInt = 0 then none else intOf (a.toInt.tdiv b.toInt)

theorem intOf_eq_some {x : Int} {y : Int32} : intOf x = some y ↔ y.toInt = x := by
  rw [intOf, Option.ite_none_right_eq_some, Option.some.injEq]
  constructor
  · rintro ⟨hFits, rfl⟩
    exact Int32.toInt_ofInt_of_le hFits.1 hFits.2
  · rintro rfl
    exact ⟨⟨y.le_toInt, y.toInt_lt⟩, Int32.ofInt_toInt y⟩

end MachineInt
