import Henson.Coroutine.Create
import Henson.Library.Threads

/-!
# Puppets as coroutines

Any thread may construct a puppet or proceed to one that waits, and a puppet yields to
whoever proceeded to it. Between these steps a thread computes as it likes, on its own
stack and on what no stack holds. `henson_yield`, which takes the two contexts from
static variables of the puppet's library, is not among the steps.
-/

namespace Henson.Coroutine

open TransitionSystem Threads

inductive Thread (Puppet : Type) where
  | main
  | puppet (i : Puppet)
  deriving DecidableEq

inductive Context (Puppet : Type) where
  | from_ (i : Puppet)
  | to_ (i : Puppet)
  deriving DecidableEq

inductive Owner (Puppet : Type) where
  | stack (t : Thread Puppet)
  | context (x : Context Puppet)
  | static
  | shared
  deriving DecidableEq

variable {Register Puppet : Type}

/-- Where everything is in memory: no word belongs to two. -/
structure Layout [CallingConvention Register] (b : Backend Register) (im : Image) (Puppet : Type) where
  owner : Nat → Owner Puppet
  base : Thread Puppet → Nat
  top : Thread Puppet → Nat
  context : Context Puppet → Nat
  stack_iff : ∀ a t, owner a = .stack t ↔ base t ≤ a ∧ a < top t
  context_iff : ∀ a x, owner a = .context x ↔ a = context x
  static_iff : ∀ a, owner a = .static ↔ a ∈ im.statics
  room : ∀ t, base t + (b.numSaved + 4) ≤ top t

/-- The processor, and who waits where. -/
structure System (Register Puppet : Type) where
  cpu : Cpu Register
  running : Thread Puppet
  status : Thread Puppet → Status (Context Puppet)

inductive Action (Register Puppet : Type) where
  | compute (sp ip : Nat) (reg : Register → Nat) (writes : List (Nat × Nat))
  | construct (i : Puppet) (func arg ret : Nat)
  | proceed (i : Puppet) (ret : Nat)
  /-- `yield` of a puppet, which returns to `t` -/
  | yield (i : Puppet) (t : Thread Puppet) (ret : Nat)

def Layout.mayWrite [CallingConvention Register] [DecidableEq Puppet] {b : Backend Register}
    {im : Image} (L : Layout b im Puppet) (t : Thread Puppet) (a : Nat) : Bool :=
  match L.owner a with
  | .stack u => u = t
  | .shared => true
  | .context _ => false
  | .static => false

def writeAll (mem : Nat → Nat) (writes : List (Nat × Nat)) : Nat → Nat :=
  writes.foldl (fun m w => Function.update m w.1 w.2) mem

/-- `coro_transfer` has saved the running thread under `x` and resumed `t`. -/
def System.switch [DecidableEq Puppet] (s : System Register Puppet) (x : Context Puppet)
    (t : Thread Puppet) (cpu : Cpu Register) : System Register Puppet where
  cpu
  running := t
  status := Function.update (Function.update s.status s.running (.held x)) t .running

section

variable [CallingConvention Register] {b : Backend Register} {im : Image} (L : Layout b im Puppet)

def step [DecidableEq Register] [DecidableEq Puppet] (s : System Register Puppet) :
    Action Register Puppet → Option (System Register Puppet)
  | .compute sp ip reg writes =>
    if L.base s.running ≤ sp ∧ sp ≤ L.top s.running ∧
        ∀ w ∈ writes, L.mayWrite s.running w.1 = true then
      some { s with cpu := { sp, ip, reg, mem := writeAll s.cpu.mem writes } }
    else none
  | .construct i func arg ret =>
    if s.status (.puppet i) = .unborn ∧ func ≠ 0 ∧
        L.base s.running + (b.numSaved + 3) ≤ s.cpu.sp then
      (b.create im (L.context (.to_ i)) func arg (L.top (.puppet i)) ret s.cpu).map fun cpu =>
        { s with cpu, status := Function.update s.status (.puppet i) (.held (.to_ i)) }
    else none
  | .proceed i ret =>
    if s.status (.puppet i) = .held (.to_ i) ∧
        L.base s.running + (b.numSaved + 1) ≤ s.cpu.sp then
      some (s.switch (.from_ i) (.puppet i)
        (b.call (L.context (.from_ i)) (L.context (.to_ i)) ret s.cpu))
    else none
  | .yield i t ret =>
    if s.running = .puppet i ∧ s.status t = .held (.from_ i) ∧
        L.base s.running + (b.numSaved + 1) ≤ s.cpu.sp then
      some (s.switch (.to_ i) t (b.call (L.context (.to_ i)) (L.context (.from_ i)) ret s.cpu))
    else none

/-- A processor whose stack pointer is on the main stack. -/
structure Start where
  cpu : Cpu Register
  base_le : L.base .main ≤ cpu.sp
  le_top : cpu.sp ≤ L.top .main

def initial [DecidableEq Puppet] (start : Start L) : System Register Puppet where
  cpu := start.cpu
  running := .main
  status t := if t = .main then .running else .unborn

def coroutines [DecidableEq Register] [DecidableEq Puppet] (start : Start L) :
    Machine (System Register Puppet) (Action Register Puppet) where
  initial := initial L start
  step := step L

end

/-- The registers that a callee has to keep and the stack of a thread, as it will find them. -/
structure Own where
  sp : Nat
  ip : Nat
  saved : List Nat
  stack : Nat → Nat

section Views

variable [CallingConvention Register] [DecidableEq Register] {b : Backend Register} {im : Image}
  (L : Layout b im Puppet)

/-- The words of a thread's stack that are in use. -/
def Layout.live (t : Thread Puppet) (sp : Nat) (mem : Nat → Nat) (a : Nat) : Nat :=
  if sp ≤ a ∧ a < L.top t then mem a else 0

def Layout.ownOfCpu (t : Thread Puppet) (c : Cpu Register) : Own where
  sp := c.sp
  ip := c.ip
  saved := CallingConvention.calleeSaved.map c.reg
  stack := L.live t c.sp c.mem

/-- The state of a thread that waits under `x`: its context leads to it. -/
def Layout.ownOfContext (t : Thread Puppet) (x : Context Puppet) (mem : Nat → Nat) : Own where
  sp := mem (L.context x) + b.numSaved + 1
  ip := (b.frame mem (mem (L.context x))).2
  saved := b.kept (b.frame mem (mem (L.context x))).1
  stack := L.live t (mem (L.context x) + b.numSaved + 1) mem

def Layout.own (s : System Register Puppet) (t : Thread Puppet) : Own :=
  match s.status t with
  | .unborn => ⟨0, 0, [], fun _ => 0⟩
  | .running => L.ownOfCpu t s.cpu
  | .held x => L.ownOfContext t x s.cpu.mem

def Layout.shared [DecidableEq Puppet] (mem : Nat → Nat) (a : Nat) : Nat :=
  if L.owner a = .shared then mem a else 0

def Layout.view [DecidableEq Puppet] (s : System Register Puppet) :
    Threads.State (Thread Puppet) (Context Puppet) Own (Nat → Nat) where
  running := s.running
  status := s.status
  own := L.own s
  shared := L.shared s.cpu.mem

/-- A thread that has been constructed: it goes on in `coro_init`, with the function and the
argument on its stack. -/
def Layout.born (i : Puppet) (func arg : Nat) : Own where
  sp := L.top (.puppet i) - 3
  ip := im.started
  saved := b.kept (List.replicate b.numSaved 0)
  stack a :=
    if a = L.top (.puppet i) - 3 then arg
    else if a = L.top (.puppet i) - 2 then func
    else if a = L.top (.puppet i) - 1 then im.abort
    else 0

/-- What an action is for the threads: a thread that hands over control goes on after its call,
with everything as it is. -/
def Layout.label [DecidableEq Puppet] (s : System Register Puppet) : Action Register Puppet →
    Threads.Action (Thread Puppet) (Context Puppet) Own (Nat → Nat)
  | .compute sp ip reg writes =>
    .compute (L.ownOfCpu s.running ⟨sp, ip, reg, writeAll s.cpu.mem writes⟩)
      (L.shared (writeAll s.cpu.mem writes))
  | .construct i func arg ret =>
    .spawn (.puppet i) (.to_ i) { L.own s s.running with ip := ret } (L.born i func arg)
  | .proceed i ret => .switch (.puppet i) (.from_ i) { L.own s s.running with ip := ret }
  | .yield i t ret => .switch t (.to_ i) { L.own s s.running with ip := ret }

end Views

namespace Layout

variable [CallingConvention Register] {b : Backend Register} {im : Image} (L : Layout b im Puppet)

theorem context_outside (x : Context Puppet) (t : Thread Puppet) :
    L.context x < L.base t ∨ L.top t ≤ L.context x := by
  by_contra hInside
  have hStack := (L.stack_iff (L.context x) t).mpr (by omega)
  rw [(L.context_iff _ x).mpr rfl] at hStack
  cases hStack

theorem context_injective {x y : Context Puppet} (h : L.context x = L.context y) : x = y :=
  Owner.context.inj
    (((L.context_iff _ x).mpr rfl).symm.trans ((L.context_iff (L.context x) y).mpr h))

theorem static_outside {a : Nat} (h : a ∈ im.statics) (t : Thread Puppet) :
    a < L.base t ∨ L.top t ≤ a := by
  by_contra hInside
  have hStack := (L.stack_iff a t).mpr (by omega)
  rw [(L.static_iff a).mpr h] at hStack
  cases hStack

theorem context_not_static (x : Context Puppet) : L.context x ∉ im.statics := by
  intro hStatic
  have hOwner := (L.static_iff _).mpr hStatic
  rw [(L.context_iff _ x).mpr rfl] at hOwner
  cases hOwner

theorem stack_outside {t u : Thread Puppet} (h : t ≠ u) {a : Nat} (hBase : L.base t ≤ a)
    (hTop : a < L.top t) : a < L.base u ∨ L.top u ≤ a := by
  by_contra hInside
  have hStack := (L.stack_iff a u).mpr (by omega)
  rw [(L.stack_iff a t).mpr ⟨hBase, hTop⟩] at hStack
  exact h (Owner.stack.inj hStack)

theorem stack_disjoint {t u : Thread Puppet} (h : t ≠ u) :
    L.top t ≤ L.base u ∨ L.top u ≤ L.base t := by
  have hRoom := L.room t
  have hRoom' := L.room u
  have hBase := L.stack_outside h (Nat.le_refl (L.base t)) (by omega)
  have hBase' := L.stack_outside h.symm (Nat.le_refl (L.base u)) (by omega)
  omega

end Layout

end Henson.Coroutine
