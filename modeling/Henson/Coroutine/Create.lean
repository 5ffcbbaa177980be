import Henson.Coroutine.Transfer

/-!
# `coro_create`

The new context starts in `coro_init`, which copies the two static variables to its own
stack and goes back at once. So the next `coro_create` may overwrite them.
-/

namespace Henson.Coroutine

variable {Register : Type} [CallingConvention Register]

def Backend.call [DecidableEq Register] (b : Backend Register) (prev next ret : Nat)
    (c : Cpu Register) : Cpu Register :=
  b.transfer (((c.set b.prev prev).set b.next next).push ret)

/-- What the call leaves: the caller's frame under `prev`, and the frame under `next` taken. -/
structure Backend.Switched (b : Backend Register) (prev next ret : Nat) (c c' : Cpu Register) :
    Prop where
  left : c'.mem prev = c.sp - 1 - b.numSaved
  frame : b.frame c'.mem (c.sp - 1 - b.numSaved) = (b.saved.reverse.map c.reg, ret)
  untouched : ∀ x, x ≠ prev → x < c.sp - 1 - b.numSaved ∨ c.sp ≤ x → c'.mem x = c.mem x
  sp : c'.sp = c'.mem next + b.numSaved + 1
  taken : b.frame c'.mem (c'.mem next) = (b.saved.reverse.map c'.reg, c'.ip)

theorem Backend.call_switched [DecidableEq Register] (b : Backend Register)
    {prev next ret : Nat} {c : Cpu Register} (hRoom : b.numSaved + 1 ≤ c.sp)
    (hPrev : prev < c.sp - 1 - b.numSaved ∨ c.sp ≤ prev) :
    b.Switched prev next ret c (b.call prev next ret c) := by
  let entered := ((c.set b.prev prev).set b.next next).push ret
  have hPrevReg : entered.reg b.prev = prev := by
    change ((c.set b.prev prev).set b.next next).reg b.prev = prev
    rw [Cpu.set_reg_of_ne _ b.prev_ne_next, Cpu.set_reg_self]
  have hNextReg : entered.reg b.next = next := Cpu.set_reg_self _ b.next next
  have hSavedReg : b.saved.reverse.map entered.reg = b.saved.reverse.map c.reg := by
    refine List.map_congr_left fun r hr => ?_
    have hSaved := List.mem_reverse.mp hr
    change ((c.set b.prev prev).set b.next next).reg r = c.reg r
    rw [Cpu.set_reg_of_ne, Cpu.set_reg_of_ne]
    · rintro rfl
      exact b.prev_not_saved hSaved
    · rintro rfl
      exact b.next_not_saved hSaved
  have hSp : entered.sp = c.sp - 1 := rfl
  have hReturn : entered.mem entered.sp = ret := Cpu.push_mem_self _ ret
  obtain ⟨hMem, hSp', hIp, hReg⟩ := b.transfer_spec entered
  obtain ⟨hLeft, hFrame, hSame⟩ := b.saving_spec entered (by omega) (by omega)
  rw [hPrevReg] at hLeft hSame
  rw [hNextReg] at hSp' hIp hReg
  rw [hReturn, hSavedReg] at hFrame
  rw [← hMem] at hLeft hFrame hSame hSp' hIp hReg
  refine ⟨hLeft, hFrame, fun x hx hFar => ?_, hSp', Prod.ext hReg.symm hIp.symm⟩
  have hEntered : entered.mem x = c.mem x :=
    Cpu.push_mem_of_ne _ (by simp only [Cpu.set_sp]; omega) ret
  exact (hSame x hx (by omega)).trans hEntered

/-- The static variables of `coro.c`, and the places in its code that the stacks name. -/
structure Image where
  initFunc : Nat
  initArg : Nat
  newCoro : Nat
  createCoro : Nat
  nodup : [initFunc, initArg, newCoro, createCoro].Nodup
  abort : Nat
  coroInit : Nat
  /-- where `coro_init` goes on after its call of `coro_transfer` -/
  started : Nat
  /-- where `coro_create` goes on after its call of `coro_transfer` -/
  created : Nat

def Image.statics (im : Image) : List Nat := [im.initFunc, im.initArg, im.newCoro, im.createCoro]

namespace Backend

variable (b : Backend Register) (im : Image)

/-- `coro_init` up to its call of `coro_transfer`, with its two variables on the stack. -/
def coroInit [DecidableEq Register] (c : Cpu Register) : Cpu Register :=
  let c := (c.push (c.mem im.initFunc)).push (c.mem im.initArg)
  b.call (c.mem im.newCoro) (c.mem im.createCoro) im.started c

def calls (c : Cpu Register) : Nat × Nat := (c.mem (c.sp + 1), c.mem c.sp)

/-- `memset` of `n` words -/
def clear (a : Nat) : Nat → Cpu Register → Cpu Register
  | 0, c => c
  | n + 1, c => clear (a + 1) n (c.store a 0)

/-- `*--ctx->sp = v` -/
def prepend (ctx v : Nat) (c : Cpu Register) : Cpu Register :=
  let c := c.store ctx (c.mem ctx - 1)
  c.store (c.mem ctx) v

/-- `coro_create` up to the two places that it puts on the new stack. The frame holds the return
address and `nctx`; `top` is the end of the stack area. -/
def header (ctx func arg top ret : Nat) (c : Cpu Register) : Cpu Register :=
  let c := (c.push ret).push 0
  let c := (c.store im.initFunc func).store im.initArg arg
  let c := (c.store im.newCoro ctx).store im.createCoro c.sp
  prepend ctx im.coroInit (prepend ctx im.abort (c.store ctx top))

/-- `coro_create` up to its call of `coro_transfer`. -/
def prepare (ctx func arg top ret : Nat) (c : Cpu Register) : Cpu Register :=
  let c := header im ctx func arg top ret c
  let c := c.store ctx (c.mem ctx - b.numSaved)
  clear (c.mem ctx) b.numSaved c

/-- `coro_create`. A piece of code runs only where the instruction pointer leads to it. -/
def create [DecidableEq Register] (ctx func arg top ret : Nat) (c : Cpu Register) :
    Option (Cpu Register) :=
  if func = 0 then some { c with ip := ret }
  else
    let c := b.prepare im ctx func arg top ret c
    let c := b.call c.sp ctx im.created c
    if c.ip = im.coroInit then
      let c := b.coroInit im c
      if c.ip = im.created then some { c with sp := c.sp + 2, ip := c.mem (c.sp + 1) } else none
    else none

end Backend

/-- The words that `coro_create` writes: below the caller's stack pointer, the context, the static
variables, and the upper end of the new stack. -/
structure Separate (b : Backend Register) (im : Image) (ctx sp top : Nat) : Prop where
  room : b.numSaved + 3 ≤ sp
  newRoom : b.numSaved + 4 ≤ top
  ctx_not_static : ctx ∉ im.statics
  ctx_outside : (ctx < sp - (b.numSaved + 3) ∨ sp ≤ ctx) ∧
    (ctx < top - (b.numSaved + 4) ∨ top ≤ ctx)
  static_outside : ∀ x ∈ im.statics, (x < sp - (b.numSaved + 3) ∨ sp ≤ x) ∧
    (x < top - (b.numSaved + 4) ∨ top ≤ x)
  disjoint : sp ≤ top - (b.numSaved + 4) ∨ top ≤ sp - (b.numSaved + 3)

section Clear

omit [CallingConvention Register]

variable (a n : Nat) (c : Cpu Register)

theorem Backend.clear_keeps :
    (Backend.clear a n c).sp = c.sp ∧ (Backend.clear a n c).reg = c.reg := by
  induction n generalizing a c with
  | zero => exact ⟨rfl, rfl⟩
  | succ n ih => exact ih (a + 1) (c.store a 0)

theorem Backend.clear_mem_of_outside {x : Nat} (h : x < a ∨ a + n ≤ x) :
    (Backend.clear a n c).mem x = c.mem x := by
  induction n generalizing a c with
  | zero => rfl
  | succ n ih =>
    rw [clear, ih (a + 1) (c.store a 0) (by omega)]
    exact c.store_mem_of_ne (by omega) 0

theorem Backend.words_clear : words (Backend.clear a n c).mem a n = List.replicate n 0 := by
  induction n generalizing a c with
  | zero => rfl
  | succ n ih =>
    rw [clear, words, List.replicate_succ, ih,
      clear_mem_of_outside (a + 1) n (c.store a 0) (.inl (Nat.lt_succ_self a)),
      Cpu.store_mem_self]

end Clear

namespace Separate

variable {b : Backend Register} {im : Image} {ctx sp top : Nat} (h : Separate b im ctx sp top)
include h

theorem outside {x : Nat} (hx : x ∈ ctx :: im.statics) :
    (x < sp - (b.numSaved + 3) ∨ sp ≤ x) ∧ (x < top - (b.numSaved + 4) ∨ top ≤ x) := by
  rcases List.mem_cons.mp hx with rfl | hx
  · exact h.ctx_outside
  · exact h.static_outside x hx

theorem nodup : (ctx :: im.statics).Nodup := List.nodup_cons.mpr ⟨h.ctx_not_static, im.nodup⟩

theorem ne_stack {x : Nat} (hx : x ∈ ctx :: im.statics) :
    x ≠ sp - 1 ∧ x ≠ sp - 2 ∧ x ≠ top - 1 ∧ x ≠ top - 2 := by
  have hRoom := h.room
  have hNewRoom := h.newRoom
  have hOutside := h.outside hx
  omega

theorem stack_ne_stack : sp - 1 ≠ top - 1 ∧ sp - 1 ≠ top - 2 ∧ sp - 2 ≠ top - 1 ∧
    sp - 2 ≠ top - 2 ∧ sp - 1 ≠ sp - 2 ∧ top - 1 ≠ top - 2 := by
  have hRoom := h.room
  have hNewRoom := h.newRoom
  rcases h.disjoint with hBelow | hAbove <;> refine ⟨?_, ?_, ?_, ?_, ?_, ?_⟩ <;> omega

end Separate

structure Headed (im : Image) (ctx func arg top ret : Nat) (c c' : Cpu Register) : Prop where
  context : c'.mem ctx = top - 2
  initFunc : c'.mem im.initFunc = func
  initArg : c'.mem im.initArg = arg
  newCoro : c'.mem im.newCoro = ctx
  createCoro : c'.mem im.createCoro = c.sp - 2
  abort : c'.mem (top - 1) = im.abort
  coroInit : c'.mem (top - 2) = im.coroInit
  ret : c'.mem (c.sp - 1) = ret
  untouched : ∀ x, x ∉ ctx :: im.statics → (x < c.sp - 2 ∨ c.sp ≤ x) →
    (x < top - 2 ∨ top ≤ x) → c'.mem x = c.mem x

theorem Backend.headed {b : Backend Register} {im : Image} {ctx top : Nat}
    {c : Cpu Register} (func arg ret : Nat) (h : Separate b im ctx c.sp top) :
    Headed im ctx func arg top ret c (header im ctx func arg top ret c) := by
  have hCtx := h.ne_stack List.mem_cons_self
  have hFunc := h.ne_stack (x := im.initFunc) (by simp [Image.statics])
  have hArg := h.ne_stack (x := im.initArg) (by simp [Image.statics])
  have hNew := h.ne_stack (x := im.newCoro) (by simp [Image.statics])
  have hCreate := h.ne_stack (x := im.createCoro) (by simp [Image.statics])
  have hStacks := h.stack_ne_stack
  have hNodup := h.nodup
  simp only [Image.statics, List.nodup_cons, List.mem_cons, List.not_mem_nil, or_false, not_or,
    not_false_eq_true, List.nodup_nil, and_true] at hNodup
  have hTwo : top - 1 - 1 = top - 2 := rfl
  have hTwo' : c.sp - 1 - 1 = c.sp - 2 := rfl
  simp only [header, prepend, Cpu.store, Cpu.push, Function.update_apply, ite_true, hCtx.2.2.1,
    ite_false, hTwo, hTwo']
  constructor
  case untouched =>
    intro x hx hCaller hNewStack
    have hRoom := h.room
    have hNewRoom := h.newRoom
    simp only [Image.statics, List.mem_cons, List.not_mem_nil, or_false, not_or] at hx
    have hStack : x ≠ c.sp - 1 ∧ x ≠ c.sp - 2 ∧ x ≠ top - 1 ∧ x ≠ top - 2 := by omega
    simp only [Function.update_apply, hx, hStack, if_false]
  all_goals
    clear h hTwo hTwo'
    generalize top - 1 = abortPlace, top - 2 = initPlace, c.sp - 1 = retPlace, c.sp - 2 = nctx at *
    simp only [Function.update_apply]
    grind

structure Prepared (b : Backend Register) (im : Image) (ctx func arg top ret : Nat)
    (c c' : Cpu Register) : Prop where
  sp : c'.sp = c.sp - 2
  reg : c'.reg = c.reg
  context : c'.mem ctx = top - 2 - b.numSaved
  frame : b.frame c'.mem (top - 2 - b.numSaved) = (List.replicate b.numSaved 0, im.coroInit)
  initFunc : c'.mem im.initFunc = func
  initArg : c'.mem im.initArg = arg
  newCoro : c'.mem im.newCoro = ctx
  createCoro : c'.mem im.createCoro = c.sp - 2
  abort : c'.mem (top - 1) = im.abort
  ret : c'.mem (c.sp - 1) = ret
  untouched : ∀ x, x ∉ ctx :: im.statics → (x < c.sp - 2 ∨ c.sp ≤ x) →
    (x < top - 2 - b.numSaved ∨ top ≤ x) → c'.mem x = c.mem x

theorem Backend.prepared {b : Backend Register} {im : Image} {ctx top : Nat}
    {c : Cpu Register} (func arg ret : Nat) (h : Separate b im ctx c.sp top) :
    Prepared b im ctx func arg top ret c (b.prepare im ctx func arg top ret c) := by
  have hHeaded := headed func arg ret h
  let c₁ := (header im ctx func arg top ret c).store ctx (top - 2 - b.numSaved)
  have hPrepare : b.prepare im ctx func arg top ret c =
      clear (top - 2 - b.numSaved) b.numSaved c₁ := by
    rw [prepare, hHeaded.context]
    change clear (c₁.mem ctx) _ _ = _
    rw [Cpu.store_mem_self]
  obtain ⟨hSp, hReg⟩ := clear_keeps (top - 2 - b.numSaved) b.numSaved c₁
  have hRoom := h.room
  have hNewRoom := h.newRoom
  have hMem {x : Nat} (hx : x < top - 2 - b.numSaved ∨ top - 2 ≤ x) :
      (b.prepare im ctx func arg top ret c).mem x = c₁.mem x := by
    rw [hPrepare]
    exact clear_mem_of_outside _ _ _ (by omega)
  have hKept {x : Nat} (hx : x < top - 2 - b.numSaved ∨ top - 2 ≤ x) (hNe : x ≠ ctx) :
      (b.prepare im ctx func arg top ret c).mem x = (header im ctx func arg top ret c).mem x :=
    (hMem hx).trans (Cpu.store_mem_of_ne _ hNe _)
  have hVariable {x : Nat} (hx : x ∈ im.statics) :
      (b.prepare im ctx func arg top ret c).mem x = (header im ctx func arg top ret c).mem x := by
    refine hKept ?_ ?_
    · have hOutside := (h.static_outside x hx).2
      omega
    · rintro rfl
      exact h.ctx_not_static hx
  refine ⟨hPrepare ▸ hSp, hPrepare ▸ hReg, ?_, Prod.ext ?_ ?_, ?_, ?_, ?_, ?_, ?_, ?_, ?_⟩
  · have hOutside := h.ctx_outside.2
    exact (hMem (by omega)).trans (Cpu.store_mem_self _ _ _)
  · rw [hPrepare]
    exact words_clear _ _ _
  · change (b.prepare im ctx func arg top ret c).mem (top - 2 - b.numSaved + b.numSaved) = _
    rw [Nat.sub_add_cancel (by omega), hKept (by omega) (h.ne_stack List.mem_cons_self).2.2.2.symm]
    exact hHeaded.coroInit
  · exact (hVariable (by simp [Image.statics])).trans hHeaded.initFunc
  · exact (hVariable (by simp [Image.statics])).trans hHeaded.initArg
  · exact (hVariable (by simp [Image.statics])).trans hHeaded.newCoro
  · exact (hVariable (by simp [Image.statics])).trans hHeaded.createCoro
  · have hNe := (h.ne_stack List.mem_cons_self).2.2.1.symm
    exact (hKept (by omega) hNe).trans hHeaded.abort
  · have hDisjoint := h.disjoint
    exact (hKept (by omega) (h.ne_stack List.mem_cons_self).1.symm).trans hHeaded.ret
  · intro x hx hCaller hNewStack
    have hNe : x ≠ ctx := fun hEq => hx (hEq ▸ List.mem_cons_self)
    exact (hKept (by omega) hNe).trans (hHeaded.untouched x hx hCaller (by omega))

theorem Backend.frame_congr (b : Backend Register) {mem mem' : Nat → Nat} {a : Nat}
    (h : ∀ x, a ≤ x → x ≤ a + b.numSaved → mem x = mem' x) : b.frame mem a = b.frame mem' a :=
  Prod.ext (words_congr fun x hx hlt => h x hx (by omega))
    (h _ (Nat.le_add_right a b.numSaved) (Nat.le_refl _))

/-- The caller goes on as after any call; the context holds a frame of `coro_init`, which has kept
the function and the argument. -/
structure Created (b : Backend Register) (im : Image) (ctx func arg top ret : Nat)
    (c c' : Cpu Register) : Prop where
  sp : c'.sp = c.sp
  ip : c'.ip = ret
  reg : b.saved.reverse.map c'.reg = b.saved.reverse.map c.reg
  context : c'.mem ctx = top - 4 - b.numSaved
  frame : b.frame c'.mem (top - 4 - b.numSaved) = (List.replicate b.numSaved 0, im.started)
  func : c'.mem (top - 2) = func
  arg : c'.mem (top - 3) = arg
  abort : c'.mem (top - 1) = im.abort
  untouched : ∀ x, x ∉ ctx :: im.statics → (x < c.sp - (b.numSaved + 3) ∨ c.sp ≤ x) →
    (x < top - (b.numSaved + 4) ∨ top ≤ x) → c'.mem x = c.mem x

structure Entered (b : Backend Register) (im : Image) (ctx func arg top ret : Nat)
    (c c' : Cpu Register) : Prop where
  sp : c'.sp = top - 1
  ip : c'.ip = im.coroInit
  reg : b.saved.reverse.map c'.reg = List.replicate b.numSaved 0
  nctx : c'.mem (c.sp - 2) = c.sp - (b.numSaved + 3)
  frame : b.frame c'.mem (c.sp - (b.numSaved + 3)) = (b.saved.reverse.map c.reg, im.created)
  ret : c'.mem (c.sp - 1) = ret
  initFunc : c'.mem im.initFunc = func
  initArg : c'.mem im.initArg = arg
  newCoro : c'.mem im.newCoro = ctx
  createCoro : c'.mem im.createCoro = c.sp - 2
  abort : c'.mem (top - 1) = im.abort
  untouched : ∀ x, x ∉ ctx :: im.statics → (x < c.sp - (b.numSaved + 3) ∨ c.sp ≤ x) →
    (x < top - (b.numSaved + 4) ∨ top ≤ x) → c'.mem x = c.mem x

variable [DecidableEq Register]

theorem Backend.entered {b : Backend Register} {im : Image} {ctx func arg top ret : Nat}
    {c p : Cpu Register} (h : Separate b im ctx c.sp top)
    (hPrepared : Prepared b im ctx func arg top ret c p) :
    Entered b im ctx func arg top ret c (b.call p.sp ctx im.created p) := by
  have hRoom := h.room
  have hSwitched : b.Switched p.sp ctx im.created p (b.call p.sp ctx im.created p) := by
    refine b.call_switched ?_ (.inr (Nat.le_refl _))
    rw [hPrepared.sp]
    omega
  generalize b.call p.sp ctx im.created p = e at hSwitched
  have hStart : c.sp - 2 - 1 - b.numSaved = c.sp - (b.numSaved + 3) := by omega
  have hLeft := hSwitched.left
  have hFrame := hSwitched.frame
  have hUntouched := hSwitched.untouched
  rw [hPrepared.sp, hStart] at hLeft hFrame hUntouched
  have hKept {x : Nat} (hx : x ∈ ctx :: im.statics) : e.mem x = p.mem x := by
    have hOutside := (h.outside hx).1
    exact hUntouched x (h.ne_stack hx).2.1 (by omega)
  have hContext : e.mem ctx = top - 2 - b.numSaved :=
    (hKept List.mem_cons_self).trans hPrepared.context
  have hNewRoom := h.newRoom
  have hTaken : b.frame e.mem (top - 2 - b.numSaved) =
      (List.replicate b.numSaved 0, im.coroInit) := by
    rw [← hPrepared.frame]
    have hDisjoint := h.disjoint
    exact b.frame_congr fun x hx hLe => hUntouched x (by omega) (by omega)
  have hResumed := hSwitched.taken
  rw [hContext, hTaken] at hResumed
  refine ⟨?_, (Prod.mk.inj hResumed).2.symm, (Prod.mk.inj hResumed).1.symm, hLeft,
    hFrame.trans (by rw [hPrepared.reg]), ?_, ?_, ?_, ?_, ?_, ?_, ?_⟩
  · rw [hSwitched.sp, hContext]
    omega
  · exact (hUntouched (c.sp - 1) (by omega) (by omega)).trans hPrepared.ret
  · exact (hKept (by simp [Image.statics])).trans hPrepared.initFunc
  · exact (hKept (by simp [Image.statics])).trans hPrepared.initArg
  · exact (hKept (by simp [Image.statics])).trans hPrepared.newCoro
  · exact (hKept (by simp [Image.statics])).trans hPrepared.createCoro
  · have hDisjoint := h.disjoint
    exact (hUntouched (top - 1) (by omega) (by omega)).trans hPrepared.abort
  · intro x hx hCaller hNewStack
    rw [hUntouched x (by omega) (by omega)]
    exact hPrepared.untouched x hx (by omega) (by omega)

theorem Backend.coroInit_spec {b : Backend Register} {im : Image} {ctx func arg top ret : Nat}
    {c e : Cpu Register} (h : Separate b im ctx c.sp top)
    (hEntered : Entered b im ctx func arg top ret c e) :
    (b.coroInit im e).ip = im.created ∧ (b.coroInit im e).sp = c.sp - 2 ∧
    Created b im ctx func arg top ret c { b.coroInit im e with
      sp := (b.coroInit im e).sp + 2, ip := (b.coroInit im e).mem ((b.coroInit im e).sp + 1) } := by
  have hRoom := h.room
  have hNewRoom := h.newRoom
  let f := (e.push (e.mem im.initFunc)).push (e.mem im.initArg)
  have hSp : f.sp = top - 3 := by
    change e.sp - 1 - 1 = _
    rw [hEntered.sp]
    omega
  have hArg : f.mem (top - 3) = arg := by
    rw [← hEntered.initArg, ← hSp]
    exact Cpu.push_mem_self _ _
  have hFunc : f.mem (top - 2) = func := by
    rw [← hEntered.initFunc]
    refine (Cpu.push_mem_of_ne _ ?_ _).trans ?_
    · rw [Cpu.push_sp, hEntered.sp]
      omega
    · have hPlace : top - 2 = e.sp - 1 := by
        rw [hEntered.sp]
        omega
      rw [hPlace]
      exact Cpu.push_mem_self _ _
  have hOld {x : Nat} (hx : x ≠ top - 2) (hx' : x ≠ top - 3) : f.mem x = e.mem x := by
    have hTwo : x ≠ e.sp - 1 := by
      rw [hEntered.sp]
      omega
    have hThree : x ≠ e.sp - 1 - 1 := by
      rw [hEntered.sp]
      omega
    exact (Cpu.push_mem_of_ne _ hThree _).trans (Cpu.push_mem_of_ne _ hTwo _)
  have hVariable {x : Nat} (hx : x ∈ ctx :: im.statics) : f.mem x = e.mem x := by
    have hOutside := (h.outside hx).2
    exact hOld (by omega) (by omega)
  have hNewCoro : f.mem im.newCoro = ctx :=
    (hVariable (by simp [Image.statics])).trans hEntered.newCoro
  have hCreateCoro : f.mem im.createCoro = c.sp - 2 :=
    (hVariable (by simp [Image.statics])).trans hEntered.createCoro
  have hSwitched : b.Switched ctx (c.sp - 2) im.started f (b.coroInit im e) := by
    change b.Switched _ _ _ f (b.call (f.mem im.newCoro) (f.mem im.createCoro) im.started f)
    rw [hNewCoro, hCreateCoro]
    have hOutside := h.ctx_outside.2
    exact b.call_switched (by omega) (by omega)
  generalize b.coroInit im e = g at hSwitched
  have hStart : top - 3 - 1 - b.numSaved = top - 4 - b.numSaved := by omega
  have hLeft := hSwitched.left
  have hFrame := hSwitched.frame
  have hUntouched := hSwitched.untouched
  rw [hSp, hStart] at hLeft hFrame hUntouched
  have hDisjoint := h.disjoint
  have hCtx := h.ctx_outside
  have hCaller {x : Nat} (hLow : c.sp - (b.numSaved + 3) ≤ x) (hHigh : x < c.sp) :
      g.mem x = e.mem x :=
    (hUntouched x (by omega) (by omega)).trans (hOld (by omega) (by omega))
  have hNctx : g.mem (c.sp - 2) = c.sp - (b.numSaved + 3) :=
    (hCaller (by omega) (by omega)).trans hEntered.nctx
  have hTaken : b.frame g.mem (c.sp - (b.numSaved + 3)) =
      (b.saved.reverse.map c.reg, im.created) := by
    rw [← hEntered.frame]
    exact b.frame_congr fun x hLow hHigh => hCaller hLow (by omega)
  have hResumed := hSwitched.taken
  rw [hNctx, hTaken] at hResumed
  have hBack : g.sp = c.sp - 2 := by
    rw [hSwitched.sp, hNctx]
    omega
  have hRet : g.mem (g.sp + 1) = ret := by
    have hPlace : g.sp + 1 = c.sp - 1 := by omega
    rw [hPlace, hCaller (by omega) (by omega)]
    exact hEntered.ret
  refine ⟨(Prod.mk.inj hResumed).2.symm, hBack, ?_, hRet, (Prod.mk.inj hResumed).1.symm, hLeft,
    hFrame.trans ?_, ?_, ?_, ?_, ?_⟩
  · change g.sp + 2 = c.sp
    omega
  · exact congrArg (·, im.started) hEntered.reg
  · exact (hUntouched (top - 2) (by omega) (by omega)).trans hFunc
  · exact (hUntouched (top - 3) (by omega) (by omega)).trans hArg
  · exact (hUntouched (top - 1) (by omega) (by omega)).trans
      ((hOld (by omega) (by omega)).trans hEntered.abort)
  · intro x hx hOutside hNewStack
    have hNe : x ≠ ctx := fun hEq => hx (hEq ▸ List.mem_cons_self)
    refine (hUntouched x hNe (by omega)).trans ((hOld (by omega) (by omega)).trans ?_)
    exact hEntered.untouched x hx hOutside hNewStack

theorem Backend.create_spec {b : Backend Register} {im : Image} {ctx func top : Nat}
    {c : Cpu Register} (arg ret : Nat) (hFunc : func ≠ 0) (h : Separate b im ctx c.sp top) :
    ∃ c', b.create im ctx func arg top ret c = some c' ∧
      Created b im ctx func arg top ret c c' := by
  have hEntered := entered h (prepared func arg ret h)
  obtain ⟨hIp, -, hCreated⟩ := coroInit_spec h hEntered
  refine ⟨_, ?_, hCreated⟩
  rw [create, if_neg hFunc]
  simp only [hEntered.ip, hIp, if_true]

end Henson.Coroutine
