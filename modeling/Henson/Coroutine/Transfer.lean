import Mathlib.Data.List.Nodup
import Mathlib.Logic.Function.Basic

/-!
# `coro_transfer`, the assembly backend

The code pushes the integer registers that a callee has to keep, exchanges the stack
pointers of the two contexts, and pops in the opposite order. The amd64 and the i386
code differ in the registers alone. The control words of the floating point units, which
a callee has to keep as well, are not saved and not part of the model. Addresses count
the words of the machine, since every access here is aligned to a word.
-/

namespace Henson.Coroutine

structure Cpu (Register : Type) where
  sp : Nat
  ip : Nat
  reg : Register → Nat
  mem : Nat → Nat

inductive Instr (Register : Type) where
  | push (r : Register)
  | pop (r : Register)
  /-- `movq %rsp, (r)` -/
  | storeSp (r : Register)
  /-- `movq (r), %rsp` -/
  | loadSp (r : Register)
  /-- `jmpq *r` -/
  | jump (r : Register)
  deriving DecidableEq

section

variable {Register : Type}

namespace Cpu

def store (c : Cpu Register) (a v : Nat) : Cpu Register :=
  { c with mem := Function.update c.mem a v }

def push (c : Cpu Register) (v : Nat) : Cpu Register :=
  { c.store (c.sp - 1) v with sp := c.sp - 1 }

variable [DecidableEq Register]

def set (c : Cpu Register) (r : Register) (v : Nat) : Cpu Register :=
  { c with reg := Function.update c.reg r v }

def exec (c : Cpu Register) : Instr Register → Cpu Register
  | .push r => c.push (c.reg r)
  | .pop r => { c.set r (c.mem c.sp) with sp := c.sp + 1 }
  | .storeSp r => c.store (c.reg r) c.sp
  | .loadSp r => { c with sp := c.mem (c.reg r) }
  | .jump r => { c with ip := c.reg r }

def run (c : Cpu Register) (code : List (Instr Register)) : Cpu Register := code.foldl exec c

end Cpu

/-- The integer registers, besides the stack pointer, that a function has to leave as it has
found them. -/
class CallingConvention (Register : Type) where
  calleeSaved : List Register

/-- What a backend chooses: the registers of `prev`, of `next`, and of the jump, and those that
are pushed. -/
structure Backend (Register : Type) [CallingConvention Register] where
  prev : Register
  next : Register
  target : Register
  saved : List Register
  nodup : saved.Nodup
  prev_not_saved : prev ∉ saved
  next_not_saved : next ∉ saved
  target_not_saved : target ∉ saved
  prev_ne_next : prev ≠ next
  keeps : ∀ r ∈ CallingConvention.calleeSaved, r ∈ saved

variable [CallingConvention Register]

def Backend.numSaved (b : Backend Register) : Nat := b.saved.length

def Backend.code (b : Backend Register) : List (Instr Register) :=
  b.saved.map .push ++ [.storeSp b.prev, .loadSp b.next] ++ b.saved.reverse.map .pop ++
    [.pop b.target, .jump b.target]

/-- `coro_transfer`, entered with its two arguments in their registers and the return address on
the stack. -/
def Backend.transfer [DecidableEq Register] (b : Backend Register) (c : Cpu Register) :
    Cpu Register :=
  c.run b.code

end

inductive Amd64 where
  | rbp | rbx | r12 | r13 | r14 | r15 | rdi | rsi | rcx
  deriving DecidableEq

/-- The System V convention. -/
instance : CallingConvention Amd64 := ⟨[.rbx, .rbp, .r12, .r13, .r14, .r15]⟩

def amd64 : Backend Amd64 where
  prev := .rdi
  next := .rsi
  target := .rcx
  saved := [.rbp, .rbx, .r12, .r13, .r14, .r15]
  nodup := by decide
  prev_not_saved := by decide
  next_not_saved := by decide
  target_not_saved := by decide
  prev_ne_next := by decide
  keeps := by decide

example : amd64.code =
    [.push .rbp, .push .rbx, .push .r12, .push .r13, .push .r14, .push .r15,
      .storeSp .rdi, .loadSp .rsi,
      .pop .r15, .pop .r14, .pop .r13, .pop .r12, .pop .rbx, .pop .rbp,
      .pop .rcx, .jump .rcx] := rfl

inductive I386 where
  | ebp | ebx | esi | edi | eax | edx | ecx
  deriving DecidableEq

instance : CallingConvention I386 := ⟨[.ebx, .esi, .edi, .ebp]⟩

def i386 : Backend I386 where
  prev := .eax
  next := .edx
  target := .ecx
  saved := [.ebp, .ebx, .esi, .edi]
  nodup := by decide
  prev_not_saved := by decide
  next_not_saved := by decide
  target_not_saved := by decide
  prev_ne_next := by decide
  keeps := by decide

/-- The `n` words from an address upwards. -/
def words (mem : Nat → Nat) : Nat → Nat → List Nat
  | _, 0 => []
  | a, n + 1 => mem a :: words mem (a + 1) n

theorem words_append (mem : Nat → Nat) (a : Nat) (n k : Nat) :
    words mem a (n + k) = words mem a n ++ words mem (a + n) k := by
  induction n generalizing a with
  | zero => simp [words]
  | succ n ih =>
    rw [Nat.succ_add, words, words, ih, List.cons_append, Nat.add_right_comm, Nat.add_assoc a n 1]

theorem words_congr {mem mem' : Nat → Nat} {a : Nat} {n : Nat}
    (h : ∀ x, a ≤ x → x < a + n → mem x = mem' x) : words mem a n = words mem' a n := by
  induction n generalizing a with
  | zero => rfl
  | succ n ih =>
    rw [words, words, h a (Nat.le_refl a) (by omega), ih fun x hx hlt => h x (by omega) (by omega)]

section

variable {Register : Type} (c : Cpu Register) (rs : List Register)

@[simp] theorem Cpu.store_sp (a v : Nat) : (c.store a v).sp = c.sp := rfl
@[simp] theorem Cpu.store_ip (a v : Nat) : (c.store a v).ip = c.ip := rfl
@[simp] theorem Cpu.store_reg (a v : Nat) : (c.store a v).reg = c.reg := rfl
@[simp] theorem Cpu.push_sp (v : Nat) : (c.push v).sp = c.sp - 1 := rfl
@[simp] theorem Cpu.push_ip (v : Nat) : (c.push v).ip = c.ip := rfl
@[simp] theorem Cpu.push_reg (v : Nat) : (c.push v).reg = c.reg := rfl

@[simp] theorem Cpu.store_mem_self (a v : Nat) : (c.store a v).mem a = v := by
  simp only [store, Function.update_self]

theorem Cpu.store_mem_of_ne {a x : Nat} (h : x ≠ a) (v : Nat) : (c.store a v).mem x = c.mem x := by
  simp only [store, Function.update_of_ne h]

theorem Cpu.push_mem_self (v : Nat) : (c.push v).mem (c.sp - 1) = v := c.store_mem_self _ v

theorem Cpu.push_mem_of_ne {x : Nat} (h : x ≠ c.sp - 1) (v : Nat) :
    (c.push v).mem x = c.mem x :=
  c.store_mem_of_ne h v

variable [DecidableEq Register]

@[simp] theorem Cpu.set_sp (r : Register) (v : Nat) : (c.set r v).sp = c.sp := rfl
@[simp] theorem Cpu.set_ip (r : Register) (v : Nat) : (c.set r v).ip = c.ip := rfl
@[simp] theorem Cpu.set_mem (r : Register) (v : Nat) : (c.set r v).mem = c.mem := rfl

@[simp] theorem Cpu.set_reg_self (r : Register) (v : Nat) : (c.set r v).reg r = v := by
  simp only [set, Function.update_self]

theorem Cpu.set_reg_of_ne {r r' : Register} (h : r' ≠ r) (v : Nat) :
    (c.set r v).reg r' = c.reg r' := by
  simp only [set, Function.update_of_ne h]

theorem Cpu.run_append (code code' : List (Instr Register)) :
    c.run (code ++ code') = (c.run code).run code' :=
  List.foldl_append

theorem Cpu.run_push : (c.run (rs.map .push)).sp = c.sp - rs.length ∧
    (c.run (rs.map .push)).ip = c.ip ∧ (c.run (rs.map .push)).reg = c.reg := by
  induction rs generalizing c with
  | nil => exact ⟨rfl, rfl, rfl⟩
  | cons r rs ih =>
    obtain ⟨hSp, hIp, hReg⟩ := ih (c.push (c.reg r))
    exact ⟨hSp.trans (by simp; omega), hIp, hReg⟩

theorem Cpu.run_push_mem {x : Nat} (h : x < c.sp - rs.length ∨ c.sp ≤ x)
    (hRoom : rs.length ≤ c.sp) : (c.run (rs.map .push)).mem x = c.mem x := by
  induction rs generalizing c with
  | nil => rfl
  | cons r rs ih =>
    simp only [List.length_cons] at h hRoom
    have hRest := ih (c.push (c.reg r)) (by simp; omega) (by simp; omega)
    exact hRest.trans (c.push_mem_of_ne (by omega) _)

theorem Cpu.words_run_push (hRoom : rs.length ≤ c.sp) :
    words (c.run (rs.map .push)).mem (c.sp - rs.length) rs.length = rs.reverse.map c.reg := by
  induction rs generalizing c with
  | nil => rfl
  | cons r rs ih =>
    simp only [List.length_cons] at hRoom ⊢
    have hRest := ih (c.push (c.reg r)) (by simp; omega)
    have hTop : ((c.push (c.reg r)).run (rs.map .push)).mem (c.sp - 1) = c.reg r := by
      rw [run_push_mem _ rs (.inr (by simp)) (by simp; omega), push_mem_self]
    have hStart : c.sp - (rs.length + 1) = (c.push (c.reg r)).sp - rs.length := by
      simp only [push_sp]
      omega
    have hEnd : (c.push (c.reg r)).sp - rs.length + rs.length = c.sp - 1 := by
      simp only [push_sp]
      omega
    rw [hStart, words_append, List.map_cons]
    change words ((c.push (c.reg r)).run (rs.map .push)).mem _ _ ++ _ = _
    rw [hRest, hEnd, words, words]
    change _ ++ [((c.push (c.reg r)).run (rs.map .push)).mem (c.sp - 1)] = _
    rw [hTop, List.reverse_cons, List.map_append, push_reg, List.map_singleton]

theorem Cpu.run_pop : (c.run (rs.map .pop)).sp = c.sp + rs.length ∧
    (c.run (rs.map .pop)).ip = c.ip ∧ (c.run (rs.map .pop)).mem = c.mem := by
  induction rs generalizing c with
  | nil => exact ⟨rfl, rfl, rfl⟩
  | cons r rs ih =>
    obtain ⟨hSp, hIp, hMem⟩ := ih (c.exec (.pop r))
    refine ⟨hSp.trans ?_, hIp, hMem⟩
    simp only [exec, List.length_cons]
    omega

theorem Cpu.run_pop_reg_of_not_mem {r : Register} (h : r ∉ rs) :
    (c.run (rs.map .pop)).reg r = c.reg r := by
  induction rs generalizing c with
  | nil => rfl
  | cons r' rs ih =>
    obtain ⟨hNe, hRest⟩ := not_or.mp (mt List.mem_cons.mpr h)
    exact (ih (c.exec (.pop r')) hRest).trans (c.set_reg_of_ne hNe _)

theorem Cpu.map_run_pop (hNodup : rs.Nodup) :
    rs.map (c.run (rs.map .pop)).reg = words c.mem c.sp rs.length := by
  induction rs generalizing c with
  | nil => rfl
  | cons r rs ih =>
    obtain ⟨hNot, hRest⟩ := List.nodup_cons.mp hNodup
    rw [List.length_cons, words, List.map_cons]
    congr 1
    · exact ((c.exec (.pop r)).run_pop_reg_of_not_mem rs hNot).trans (c.set_reg_self r _)
    · exact ih (c.exec (.pop r)) hRest

end

namespace Backend

variable {Register : Type} [CallingConvention Register] (b : Backend Register)

/-- A context's stack pointer leads to a frame: the registers, the first pushed highest, and the
address to return to. -/
def frame (mem : Nat → Nat) (sp : Nat) : List Nat × Nat :=
  (words mem sp b.numSaved, mem (sp + b.numSaved))

variable [DecidableEq Register] (c : Cpu Register)

/-- The registers that a callee has to keep, found among the words of a frame. -/
def kept (ws : List Nat) : List Nat :=
  CallingConvention.calleeSaved.map fun r => ws.getD (b.saved.reverse.idxOf r) 0

theorem kept_map (reg : Register → Nat) :
    b.kept (b.saved.reverse.map reg) = CallingConvention.calleeSaved.map reg := by
  refine List.map_congr_left fun r hr => ?_
  have hSaved : r ∈ b.saved.reverse := List.mem_reverse.mpr (b.keeps r hr)
  rw [List.getD_eq_getElem?_getD, List.getElem?_map, List.getElem?_idxOf hSaved]
  rfl

def saving : Cpu Register :=
  (c.run (b.saved.map .push)).exec (.storeSp b.prev)

theorem transfer_spec :
    (b.transfer c).mem = (b.saving c).mem ∧
    (b.transfer c).sp = (b.saving c).mem (c.reg b.next) + b.numSaved + 1 ∧
    (b.transfer c).ip = (b.frame (b.saving c).mem ((b.saving c).mem (c.reg b.next))).2 ∧
    b.saved.reverse.map (b.transfer c).reg =
      (b.frame (b.saving c).mem ((b.saving c).mem (c.reg b.next))).1 := by
  obtain ⟨-, -, hReg⟩ := c.run_push b.saved
  let loaded := (b.saving c).exec (.loadSp b.next)
  have hLoaded : loaded.sp = (b.saving c).mem (c.reg b.next) := by
    change (b.saving c).mem ((c.run (b.saved.map .push)).reg b.next) = _
    rw [hReg]
  let popped := loaded.run (b.saved.reverse.map .pop)
  have hCode : b.transfer c = (popped.exec (.pop b.target)).exec (.jump b.target) := by
    rw [transfer, code, Cpu.run_append, Cpu.run_append, Cpu.run_append]
    rfl
  obtain ⟨hSp, -, hMem⟩ := loaded.run_pop b.saved.reverse
  rw [List.length_reverse, hLoaded] at hSp
  have hIp : (b.transfer c).ip = popped.mem popped.sp := by
    rw [hCode]
    exact popped.set_reg_self b.target _
  refine ⟨?_, ?_, ?_, ?_⟩
  · rw [hCode]
    exact hMem
  · rw [hCode]
    exact congrArg (· + 1) hSp
  · rw [hIp, hSp, hMem]
    rfl
  · have hRestored : ∀ r ∈ b.saved.reverse, (b.transfer c).reg r = popped.reg r := by
      intro r hr
      rw [hCode]
      refine popped.set_reg_of_ne ?_ _
      rintro rfl
      exact b.target_not_saved (List.mem_reverse.mp hr)
    rw [List.map_congr_left hRestored]
    have hPop := loaded.map_run_pop b.saved.reverse (List.nodup_reverse.mpr b.nodup)
    rw [List.length_reverse, hLoaded] at hPop
    exact hPop

theorem saving_spec (hRoom : b.numSaved ≤ c.sp)
    (hCell : c.reg b.prev < c.sp - b.numSaved ∨ c.sp < c.reg b.prev) :
    (b.saving c).mem (c.reg b.prev) = c.sp - b.numSaved ∧
    b.frame (b.saving c).mem (c.sp - b.numSaved) = (b.saved.reverse.map c.reg, c.mem c.sp) ∧
    ∀ x, x ≠ c.reg b.prev → x < c.sp - b.numSaved ∨ c.sp ≤ x →
      (b.saving c).mem x = c.mem x := by
  obtain ⟨hSp, -, hReg⟩ := c.run_push b.saved
  have hStored : (b.saving c).mem =
      Function.update (c.run (b.saved.map .push)).mem (c.reg b.prev) (c.sp - b.numSaved) := by
    rw [saving, Cpu.exec, Cpu.store, hReg, hSp, numSaved]
  have hOutside : ∀ x, x ≠ c.reg b.prev →
      (b.saving c).mem x = (c.run (b.saved.map .push)).mem x := by
    intro x hx
    rw [hStored, Function.update_of_ne hx]
  refine ⟨?_, Prod.ext ?_ ?_, ?_⟩
  · rw [hStored, Function.update_self]
  · change words _ _ _ = _
    rw [← c.words_run_push b.saved hRoom]
    refine words_congr fun x hx hlt => hOutside x ?_
    rintro rfl
    omega
  · change (b.saving c).mem (c.sp - b.numSaved + b.numSaved) = _
    rw [Nat.sub_add_cancel hRoom, hOutside _ (by rintro hEq; omega)]
    exact c.run_push_mem b.saved (.inr (Nat.le_refl _)) hRoom
  · intro x hx hFar
    rw [hOutside x hx]
    exact c.run_push_mem b.saved hFar hRoom

end Backend

end Henson.Coroutine
