import Henson.Coroutine.Resumption
import Henson.Library.AddressSpace

/-!
# The stacks of the coroutines

`coro_stack_alloc` maps a stack with four guard pages below it, and `coro_stack_free`
unmaps both. The kernel decides which pages it grants, and the rest of the process maps
and unmaps what it likes, so long as it leaves the stacks alone. The machine is one of
64 bits: a word has eight bytes.
-/

namespace Henson.Coroutine

open TransitionSystem AddressSpace

/-- `coro_stack`. There is no stack where `sptr` is zero. -/
structure CoroStack where
  sptr : Nat
  ssze : Nat

def guardPages : Nat := 4

def guardSize (P : PageSize) : Nat := guardPages * P.bytes

/-- The bytes of a stack of `size` words, up to whole pages; `sizeof (void *)` is 8. -/
def stackSize (P : PageSize) (size : UInt32) : Nat :=
  let size := if size = 0 then 256 * 1024 else size.toNat
  (size * 8 + P.bytes - 1) / P.bytes * P.bytes

/-- The words that `Coroutine` asks for. -/
def coroutineStackSize : UInt32 := 8 * 1024 * 1024

/-- The answers of the kernel: what it grants with `PROT_EXEC`, what it grants without, and
whether `mprotect` succeeds. -/
structure Kernel where
  executable : Option Nat
  readWrite : Option Nat
  mprotect : Bool

/-- The second `mmap` is tried where the first has failed. -/
def Kernel.mmap (k : Kernel) : Option (Nat × Prot) :=
  match k.executable with
  | some base => some (base, .readWriteExec)
  | none => k.readWrite.map fun base => (base, .readWrite)

section

variable {Puppet : Type}

/-- `coro_stack_alloc`. What `mprotect` returns is not looked at. -/
def coroStackAlloc (P : PageSize) (i : Puppet) (size : UInt32) (k : Kernel)
    (pages : Nat → Option (Page (Option Puppet))) :
    (Nat → Option (Page (Option Puppet))) × CoroStack × Bool :=
  let stack : CoroStack := { sptr := 0, ssze := stackSize P size }
  let ssze := stack.ssze + guardSize P
  match k.mmap with
  | none => (pages, stack, false)
  | some (base, prot) =>
    let pages := mmap P base ssze (some i) prot pages
    let pages := if k.mprotect then mprotect P base (guardSize P) .none pages else pages
    (pages, { stack with sptr := base + guardSize P }, true)

def coroStackFree (P : PageSize) (stack : CoroStack)
    (pages : Nat → Option (Page (Option Puppet))) : Nat → Option (Page (Option Puppet)) :=
  if stack.sptr = 0 then pages
  else munmap P (stack.sptr - guardSize P) (stack.ssze + guardSize P) pages

/-- Whose stack a page was mapped for. -/
def userOf (pages : Nat → Option (Page (Option Puppet))) (q : Nat) : Option Puppet :=
  (pages q).bind Page.user

structure Allocated where
  stack : CoroStack
  guarded : Bool

structure Stacks (Puppet : Type) where
  pages : Nat → Option (Page (Option Puppet))
  stack : Puppet → Option Allocated

inductive StackAction (Puppet : Type) where
  | construct (i : Puppet) (k : Kernel)
  | destroy (i : Puppet)
  /-- The rest of the process maps a page, protects it or unmaps it. -/
  | other (q : Nat) (prot : Option Prot)

/-- The kernel grants pages that are not in use. -/
def Kernel.Honest (k : Kernel) (P : PageSize) (len : Nat)
    (pages : Nat → Option (Page (Option Puppet))) : Prop :=
  ∀ grant ∈ k.mmap, Free P grant.1 len pages

instance (k : Kernel) (P : PageSize) (len : Nat)
    (pages : Nat → Option (Page (Option Puppet))) : Decidable (k.Honest P len pages) :=
  inferInstanceAs (Decidable (∀ grant ∈ k.mmap, Free P grant.1 len pages))

variable [DecidableEq Puppet] (P : PageSize) (size : Puppet → UInt32)

def Stacks.step (s : Stacks Puppet) : StackAction Puppet → Option (Stacks Puppet)
  | .construct i k =>
    if (s.stack i).isNone ∧ k.Honest P (stackSize P (size i) + guardSize P) s.pages then
      let (pages, stack, _) := coroStackAlloc P i (size i) k s.pages
      some { pages, stack := Function.update s.stack i (some ⟨stack, k.mprotect⟩) }
    else none
  | .destroy i => (s.stack i).map fun a =>
      { pages := coroStackFree P a.stack s.pages, stack := Function.update s.stack i none }
  | .other q prot =>
    if userOf s.pages q = none then
      some { s with pages := Function.update s.pages q (prot.map (⟨none, ·⟩)) }
    else none

/-- The process before the first coroutine: all its pages are the rest's. -/
def coroStacks (mapped : Nat → Option Prot) : Machine (Stacks Puppet) (StackAction Puppet) where
  initial := { pages := fun q => (mapped q).map (⟨none, ·⟩), stack := fun _ => none }
  step := Stacks.step P size

end

section

variable {Puppet : Type} {P : PageSize} {size : UInt32} {i j : Puppet}
  {pages pages' : Nat → Option (Page (Option Puppet))}

theorem Kernel.mmap_prot {k : Kernel} {base : Nat} {prot : Prot} (h : k.mmap = some (base, prot)) :
    prot ≠ .none := by
  unfold Kernel.mmap at h
  split at h
  · cases h
    nofun
  · obtain ⟨_, _, hPair⟩ := Option.map_eq_some_iff.mp h
    cases hPair
    nofun

theorem le_stackSize (P : PageSize) (size : UInt32) : size.toNat * 8 ≤ stackSize P size := by
  have hUp (n : Nat) : n ≤ (n + P.bytes - 1) / P.bytes * P.bytes := by
    have hPos := P.pos
    have hRest := Nat.mod_lt (n + P.bytes - 1) hPos
    have hDiv := Nat.div_add_mod' (n + P.bytes - 1) P.bytes
    omega
  unfold stackSize
  split
  case isTrue hZero =>
    subst hZero
    exact (Nat.zero_le _)
  case isFalse => exact hUp _

theorem dvd_stackSize (P : PageSize) (size : UInt32) : P.bytes ∣ stackSize P size :=
  Nat.dvd_mul_left P.bytes _

theorem dvd_guardSize (P : PageSize) : P.bytes ∣ guardSize P :=
  Nat.dvd_mul_left P.bytes _

/-- Where the pages of a stack are, and how they are protected. -/
structure Allocated.At (P : PageSize) (size : UInt32) (i : Puppet) (a : Allocated)
    (pages : Nat → Option (Page (Option Puppet))) : Prop where
  ssze : a.stack.ssze = stackSize P size
  aligned : P.bytes ∣ a.stack.sptr
  guard_le : a.stack.sptr ≠ 0 → guardSize P ≤ a.stack.sptr
  owned : ∀ q, userOf pages q = some i ↔ a.stack.sptr ≠ 0 ∧
    Covers P (a.stack.sptr - guardSize P) (a.stack.ssze + guardSize P) q
  guard : a.guarded = true → ∀ q page, pages q = some page → page.user = some i →
    q * P.bytes < a.stack.sptr → page.prot = .none
  usable : ∀ q page, pages q = some page → page.user = some i →
    a.stack.sptr ≤ q * P.bytes → page.prot ≠ .none

theorem userOf_eq_some {q : Nat} :
    userOf pages q = some i ↔ ∃ page, pages q = some page ∧ page.user = some i :=
  Option.bind_eq_some_iff

/-- What changes is not a page of the stack, neither before nor after. -/
def Untouched (i : Puppet) (pages pages' : Nat → Option (Page (Option Puppet))) : Prop :=
  ∀ q, pages' q = pages q ∨ (userOf pages q ≠ some i ∧ userOf pages' q ≠ some i)

theorem Untouched.userOf_iff (h : Untouched i pages pages') (q : Nat) :
    userOf pages' q = some i ↔ userOf pages q = some i := by
  rcases h q with hSame | ⟨hBefore, hAfter⟩
  · rw [userOf, userOf, hSame]
  · exact iff_of_false hAfter hBefore

theorem Untouched.page (h : Untouched i pages pages') {q : Nat} {page : Page (Option Puppet)}
    (hPage : pages' q = some page) (hUser : page.user = some i) : pages q = some page := by
  rcases h q with hSame | ⟨_, hAfter⟩
  · exact hSame ▸ hPage
  · exact absurd (userOf_eq_some.mpr ⟨page, hPage, hUser⟩) hAfter

theorem Allocated.At.of_untouched {a : Allocated} (hAt : a.At P size i pages)
    (h : Untouched i pages pages') : a.At P size i pages' where
  ssze := hAt.ssze
  aligned := hAt.aligned
  guard_le := hAt.guard_le
  owned q := (h.userOf_iff q).trans (hAt.owned q)
  guard hGuarded q page hPage hUser := hAt.guard hGuarded q page (h.page hPage hUser) hUser
  usable q page hPage hUser := hAt.usable q page (h.page hPage hUser) hUser

theorem coroStackAlloc_page (i : Puppet) (size : UInt32)
    (pages : Nat → Option (Page (Option Puppet))) {k : Kernel} {base : Nat} {prot : Prot}
    (hGrant : k.mmap = some (base, prot)) (hBase : P.bytes ∣ base) (q : Nat) :
    (coroStackAlloc P i size k pages).1 q =
      if Covers P base (stackSize P size + guardSize P) q then
        some ⟨some i, if k.mprotect = true ∧ Covers P base (guardSize P) q then .none else prot⟩
      else pages q := by
  simp only [coroStackAlloc, hGrant]
  cases hProtect : k.mprotect with
  | false => simp [AddressSpace.mmap]
  | true =>
    simp only [if_true, true_and]
    by_cases hGuard : Covers P base (guardSize P) q
    · have hAll : Covers P base (stackSize P size + guardSize P) q :=
        ⟨hGuard.1, Nat.lt_of_lt_of_le hGuard.2 (by omega)⟩
      rw [mprotect_of_covers hBase hGuard, mmap_of_covers hAll, if_pos hAll, if_pos hGuard]
      rfl
    · rw [mprotect_of_not_covers hGuard, if_neg hGuard]
      rfl

theorem coroStackAlloc_at {k : Kernel} {base : Nat} {prot : Prot}
    (hGrant : k.mmap = some (base, prot))
    (hFree : Free P base (stackSize P size + guardSize P) pages)
    (hAbsent : ∀ q, userOf pages q ≠ some i) :
    Allocated.At P size i ⟨(coroStackAlloc P i size k pages).2.1, k.mprotect⟩
      (coroStackAlloc P i size k pages).1 := by
  have hPage := coroStackAlloc_page i size pages hGrant hFree.1
  have hStack : (coroStackAlloc P i size k pages).2.1 =
      { sptr := base + guardSize P, ssze := stackSize P size } := by
    simp only [coroStackAlloc, hGrant]
  have hPos : 0 < guardSize P := Nat.mul_pos (by decide) P.pos
  generalize (coroStackAlloc P i size k pages).1 = after at hPage ⊢
  rw [hStack]
  refine ⟨rfl, Nat.dvd_add hFree.1 (dvd_guardSize P), fun _ => Nat.le_add_left _ _, ?_, ?_, ?_⟩
  · intro q
    rw [Nat.add_sub_cancel, userOf, hPage]
    by_cases hCovers : Covers P base (stackSize P size + guardSize P) q
    · rw [if_pos hCovers]
      exact iff_of_true rfl ⟨Nat.ne_of_gt (Nat.add_pos_right base hPos), hCovers⟩
    · rw [if_neg hCovers]
      exact iff_of_false (hAbsent q) fun h => hCovers h.2
  · intro hGuarded q page hq hUser hBelow
    rw [hPage] at hq
    split at hq
    case isTrue hCovers =>
      obtain rfl := Option.some.inj hq
      exact if_pos ⟨hGuarded, hCovers.1, hBelow⟩
    case isFalse => exact absurd (userOf_eq_some.mpr ⟨page, hq, hUser⟩) (hAbsent q)
  · intro q page hq hUser hAbove
    rw [hPage] at hq
    split at hq
    case isTrue =>
      obtain rfl := Option.some.inj hq
      rw [if_neg fun h => Nat.not_lt.mpr hAbove h.2.2]
      exact Kernel.mmap_prot hGrant
    case isFalse => exact absurd (userOf_eq_some.mpr ⟨page, hq, hUser⟩) (hAbsent q)

theorem coroStackAlloc_untouched {k : Kernel} {base : Nat} {prot : Prot}
    (hGrant : k.mmap = some (base, prot))
    (hFree : Free P base (stackSize P size + guardSize P) pages) (hNe : j ≠ i) :
    Untouched j pages (coroStackAlloc P i size k pages).1 := by
  intro q
  have hPage := coroStackAlloc_page i size pages hGrant hFree.1 q
  by_cases hCovers : Covers P base (stackSize P size + guardSize P) q
  · right
    rw [userOf, userOf, hFree.eq_none hCovers, hPage, if_pos hCovers]
    exact ⟨nofun, fun h => hNe (Option.some.inj h).symm⟩
  · rw [hPage, if_neg hCovers]
    exact .inl rfl

theorem coroStackAlloc_fails {k : Kernel} (hGrant : k.mmap = none) :
    coroStackAlloc P i size k pages =
      (pages, { sptr := 0, ssze := stackSize P size }, false) := by
  simp only [coroStackAlloc, hGrant]

theorem failed_at (hAbsent : ∀ q, userOf pages q ≠ some i) (guarded : Bool) :
    Allocated.At P size i ⟨{ sptr := 0, ssze := stackSize P size }, guarded⟩ pages where
  ssze := rfl
  aligned := Nat.dvd_zero _
  guard_le h := absurd rfl h
  owned q := iff_of_false (hAbsent q) fun h => h.1 rfl
  guard _ _ _ _ _ hBelow := absurd hBelow (Nat.not_lt_zero _)
  usable q page hPage hUser _ := absurd (userOf_eq_some.mpr ⟨page, hPage, hUser⟩) (hAbsent q)

variable [DecidableEq Puppet]

theorem coroStackFree_page {a : Allocated} (hAt : a.At P size i pages) (q : Nat) :
    coroStackFree P a.stack pages q = if userOf pages q = some i then none else pages q := by
  unfold coroStackFree
  by_cases hZero : a.stack.sptr = 0
  · rw [if_pos hZero, if_neg fun h => ((hAt.owned q).mp h).1 hZero]
  · have hAligned : P.bytes ∣ a.stack.sptr - guardSize P :=
      Nat.dvd_sub hAt.aligned (dvd_guardSize P)
    rw [if_neg hZero]
    by_cases hUser : userOf pages q = some i
    · rw [if_pos hUser, munmap_of_covers hAligned ((hAt.owned q).mp hUser).2]
    · rw [if_neg hUser, munmap_of_not_covers fun h => hUser ((hAt.owned q).mpr ⟨hZero, h⟩)]

theorem coroStackFree_untouched {a : Allocated} (hAt : a.At P size i pages) (hNe : j ≠ i) :
    Untouched j pages (coroStackFree P a.stack pages) := by
  intro q
  rw [userOf, userOf, coroStackFree_page hAt]
  by_cases hUser : userOf pages q = some i
  · right
    rw [if_pos hUser]
    exact ⟨fun h => hNe (Option.some.inj (h.symm.trans hUser)), nofun⟩
  · rw [if_neg hUser]
    exact .inl rfl

end

section

variable {Puppet : Type} {P : PageSize} {size : Puppet → UInt32} {mapped : Nat → Option Prot}

/-- Each stack is where it was put, and what has no stack has no pages. -/
structure Stacks.Placed (P : PageSize) (size : Puppet → UInt32) (s : Stacks Puppet) : Prop where
  held : ∀ i a, s.stack i = some a → a.At P (size i) i s.pages
  absent : ∀ i, s.stack i = none → ∀ q, userOf s.pages q ≠ some i

theorem Stacks.Placed.other {s : Stacks Puppet} (hs : s.Placed P size) {q : Nat}
    (hUser : userOf s.pages q = none) (prot : Option Prot) :
    Stacks.Placed P size
      { s with pages := Function.update s.pages q (prot.map (⟨none, ·⟩)) } := by
  have hOther : ∀ j, Untouched j s.pages (Function.update s.pages q (prot.map (⟨none, ·⟩))) := by
    intro j q'
    by_cases hNe : q' = q
    · subst hNe
      right
      rw [hUser, userOf, Function.update_self]
      cases prot <;> exact ⟨nofun, nofun⟩
    · exact .inl (Function.update_of_ne hNe _ _)
  exact ⟨fun j a ha => (hs.held j a ha).of_untouched (hOther j),
    fun j hj q' => mt ((hOther j).userOf_iff q').mp (hs.absent j hj q')⟩

variable [DecidableEq Puppet]

theorem Stacks.Placed.update {s : Stacks Puppet} (hs : s.Placed P size) {i : Puppet}
    {after : Option Allocated} {pages : Nat → Option (Page (Option Puppet))}
    (hOther : ∀ j, j ≠ i → Untouched j s.pages pages)
    (hHeld : ∀ a, after = some a → a.At P (size i) i pages)
    (hAbsent : after = none → ∀ q, userOf pages q ≠ some i) :
    Stacks.Placed P size { pages, stack := Function.update s.stack i after } := by
  refine ⟨fun j a hj => ?_, fun j hj q => ?_⟩
  · by_cases hNe : j = i
    · subst hNe
      exact hHeld a (by simpa only [Function.update_self] using hj)
    · simp only [Function.update_of_ne hNe] at hj
      exact (hs.held j a hj).of_untouched (hOther j hNe)
  · by_cases hNe : j = i
    · subst hNe
      exact hAbsent (by simpa only [Function.update_self] using hj) q
    · simp only [Function.update_of_ne hNe] at hj
      exact mt ((hOther j hNe).userOf_iff q).mp (hs.absent j hj q)

theorem Stacks.Placed.construct {s : Stacks Puppet} (hs : s.Placed P size) {i : Puppet}
    (hNone : s.stack i = none) {k : Kernel}
    (hHonest : k.Honest P (stackSize P (size i) + guardSize P) s.pages) :
    Stacks.Placed P size
      { pages := (coroStackAlloc P i (size i) k s.pages).1
        stack := Function.update s.stack i
          (some ⟨(coroStackAlloc P i (size i) k s.pages).2.1, k.mprotect⟩) } := by
  have hAbsent := hs.absent i hNone
  cases hGrant : k.mmap with
  | none =>
    rw [coroStackAlloc_fails hGrant]
    refine hs.update (fun j _ q => .inl rfl) (fun a ha => ?_) nofun
    obtain rfl := Option.some.inj ha
    exact failed_at hAbsent k.mprotect
  | some grant =>
    have hFree := hHonest grant hGrant
    refine hs.update (fun j hNe => coroStackAlloc_untouched hGrant hFree hNe) (fun a ha => ?_) nofun
    obtain rfl := Option.some.inj ha
    exact coroStackAlloc_at hGrant hFree hAbsent

theorem Stacks.Placed.destroy {s : Stacks Puppet} (hs : s.Placed P size) {i : Puppet}
    {a : Allocated} (ha : s.stack i = some a) :
    Stacks.Placed P size
      { pages := coroStackFree P a.stack s.pages, stack := Function.update s.stack i none } := by
  have hAt := hs.held i a ha
  refine hs.update (fun j hNe => coroStackFree_untouched hAt hNe) nofun fun _ q => ?_
  rw [userOf, coroStackFree_page hAt]
  by_cases hUser : userOf s.pages q = some i
  · rw [if_pos hUser]
    nofun
  · rw [if_neg hUser]
    exact hUser

theorem Stacks.Placed.step {s s' : Stacks Puppet} {a : StackAction Puppet}
    (hs : s.Placed P size) (h : s.step P size a = some s') : s'.Placed P size := by
  cases a with
  | construct i k =>
    simp only [Stacks.step, Option.ite_none_right_eq_some, Option.isNone_iff_eq_none,
      Option.some.injEq] at h
    obtain ⟨⟨hNone, hHonest⟩, rfl⟩ := h
    exact hs.construct hNone hHonest
  | destroy i =>
    obtain ⟨a, ha, rfl⟩ := Option.map_eq_some_iff.mp h
    exact hs.destroy ha
  | other q prot =>
    simp only [Stacks.step, Option.ite_none_right_eq_some, Option.some.injEq] at h
    obtain ⟨hUser, rfl⟩ := h
    exact hs.other hUser prot

theorem stacks_placed {s : Stacks Puppet}
    (hReach : (coroStacks P size mapped).Reachable s) : s.Placed P size := by
  refine hReach.invariant ⟨nofun, fun i _ q => ?_⟩ fun s a s' hs h => hs.step h
  change (((mapped q).map (⟨none, ·⟩)).bind Page.user : Option Puppet) ≠ _
  cases mapped q <;> nofun

end

section

variable {Puppet : Type} {P : PageSize} {size : UInt32} {i : Puppet} {a : Allocated}
  {pages : Nat → Option (Page (Option Puppet))}

theorem Allocated.At.userOf_div_iff (hAt : a.At P size i pages) (hGranted : a.stack.sptr ≠ 0)
    (x : Nat) :
    userOf pages (x / P.bytes) = some i ↔
      a.stack.sptr - guardSize P ≤ x ∧ x < a.stack.sptr + a.stack.ssze := by
  have hLe := hAt.guard_le hGranted
  have hStart : P.bytes ∣ a.stack.sptr - guardSize P := Nat.dvd_sub hAt.aligned (dvd_guardSize P)
  have hLen : P.bytes ∣ a.stack.ssze + guardSize P :=
    Nat.dvd_add (hAt.ssze ▸ dvd_stackSize P size) (dvd_guardSize P)
  rw [hAt.owned]
  constructor
  · rintro ⟨-, hCovers⟩
    have hBytes := of_covers_div hStart hLen hCovers
    omega
  · rintro ⟨hFrom, hTo⟩
    exact ⟨hGranted, covers_div hStart hFrom (by omega)⟩

theorem Allocated.At.writable (hAt : a.At P size i pages) (hGranted : a.stack.sptr ≠ 0) {x : Nat}
    (hFrom : a.stack.sptr ≤ x) (hTo : x < a.stack.sptr + a.stack.ssze) : Writable P pages x := by
  obtain ⟨page, hPage, hUser⟩ :=
    userOf_eq_some.mp ((hAt.userOf_div_iff hGranted x).mpr ⟨by omega, hTo⟩)
  have hCovers : Covers P a.stack.sptr (x + 1) (x / P.bytes) :=
    covers_div hAt.aligned hFrom (by omega)
  exact ⟨page, hPage, hAt.usable _ page hPage hUser hCovers.1⟩

theorem Allocated.At.not_writable (hAt : a.At P size i pages) (hGranted : a.stack.sptr ≠ 0)
    (hGuarded : a.guarded = true) {x : Nat} (hFrom : a.stack.sptr - guardSize P ≤ x)
    (hTo : x < a.stack.sptr) : ¬ Writable P pages x := by
  obtain ⟨page, hPage, hUser⟩ :=
    userOf_eq_some.mp ((hAt.userOf_div_iff hGranted x).mpr ⟨hFrom, by omega⟩)
  have hBelow : x / P.bytes * P.bytes < a.stack.sptr :=
    Nat.lt_of_le_of_lt (Nat.div_mul_le_self x P.bytes) hTo
  rintro ⟨page', hPage', hProt⟩
  obtain rfl := Option.some.inj (hPage.symm.trans hPage')
  exact hProt (hAt.guard hGuarded _ page hPage hUser hBelow)

end

section

variable {Puppet : Type} {P : PageSize} {size : Puppet → UInt32} {mapped : Nat → Option Prot}
  {s : Stacks Puppet}

theorem Stacks.Placed.disjoint (hs : s.Placed P size) {i j : Puppet} (hNe : j ≠ i)
    {a a' : Allocated} (ha : s.stack i = some a) (ha' : s.stack j = some a')
    (hGranted : a.stack.sptr ≠ 0) (hGranted' : a'.stack.sptr ≠ 0) :
    a.stack.sptr + a.stack.ssze + guardSize P ≤ a'.stack.sptr ∨
      a'.stack.sptr + a'.stack.ssze + guardSize P ≤ a.stack.sptr := by
  have hOwned := (hs.held i a ha).userOf_div_iff hGranted
  have hOwned' := (hs.held j a' ha').userOf_div_iff hGranted'
  have hPos : 0 < guardSize P := Nat.mul_pos (by decide) P.pos
  have hLe := (hs.held i a ha).guard_le hGranted
  have hLe' := (hs.held j a' ha').guard_le hGranted'
  -- the first byte of the higher one would be on a page of both
  have hApart : ∀ x, ¬ ((a.stack.sptr - guardSize P ≤ x ∧ x < a.stack.sptr + a.stack.ssze) ∧
      (a'.stack.sptr - guardSize P ≤ x ∧ x < a'.stack.sptr + a'.stack.ssze)) := by
    rintro x ⟨hIn, hIn'⟩
    exact hNe (Option.some.inj (((hOwned' x).mpr hIn').symm.trans ((hOwned x).mpr hIn)))
  have hFirst := hApart (a.stack.sptr - guardSize P)
  have hFirst' := hApart (a'.stack.sptr - guardSize P)
  omega

variable [DecidableEq Puppet]

/-- On every run, and for each stack there is: it is as large as was asked for and can be
written; below it nothing can, for four pages, where `mprotect` has worked; the other stacks
are apart from it; and its destructor unmaps these bytes and no others. -/
theorem stacks_guarded (hReach : (coroStacks P size mapped).Reachable s) {i : Puppet}
    {a : Allocated} (ha : s.stack i = some a) (hGranted : a.stack.sptr ≠ 0) :
    (size i).toNat * 8 ≤ a.stack.ssze ∧
    (∀ x, a.stack.sptr ≤ x → x < a.stack.sptr + a.stack.ssze → Writable P s.pages x) ∧
    (a.guarded = true → ∀ x, a.stack.sptr - guardSize P ≤ x → x < a.stack.sptr →
      ¬ Writable P s.pages x) ∧
    (∀ j a', j ≠ i → s.stack j = some a' → a'.stack.sptr ≠ 0 →
      a.stack.sptr + a.stack.ssze + guardSize P ≤ a'.stack.sptr ∨
        a'.stack.sptr + a'.stack.ssze + guardSize P ≤ a.stack.sptr) ∧
    ∃ s', (coroStacks P size mapped).step s (.destroy i) = some s' ∧
      ∀ x, s'.pages (x / P.bytes) =
        if a.stack.sptr - guardSize P ≤ x ∧ x < a.stack.sptr + a.stack.ssze then none
        else s.pages (x / P.bytes) := by
  have hs := stacks_placed hReach
  have hAt := hs.held i a ha
  refine ⟨?_, fun x => hAt.writable hGranted, fun hGuarded x => hAt.not_writable hGranted hGuarded,
    fun j a' hNe ha' hGranted' => hs.disjoint hNe ha ha' hGranted hGranted', ?_⟩
  · rw [hAt.ssze]
    exact le_stackSize P (size i)
  · refine ⟨_, congrArg (Option.map _) ha, fun x => ?_⟩
    change coroStackFree P a.stack s.pages (x / P.bytes) = _
    simp only [coroStackFree_page hAt, hAt.userOf_div_iff hGranted]

def samplePages : PageSize := ⟨4096, by decide⟩

def sampleKernel : Kernel := ⟨some 4096, none, true⟩

/-- One coroutine has been constructed, on the second page and those after it. -/
def oneStack (i : Puppet) (size : UInt32) : Stacks Puppet where
  pages := (coroStackAlloc samplePages i size sampleKernel fun _ => none).1
  stack := Function.update (fun _ => none) i
    (some ⟨(coroStackAlloc samplePages i size sampleKernel fun _ => none).2.1, true⟩)

theorem oneStack_reachable (i : Puppet) (size : UInt32) :
    (coroStacks samplePages (fun _ => size) fun _ => none).Reachable (oneStack i size) := by
  refine .step (.construct i sampleKernel) .initial ?_
  rw [coroStacks]
  simp only [Stacks.step]
  refine if_pos ⟨rfl, ?_⟩
  rintro grant hGrant
  obtain rfl := Option.some.inj hGrant
  exact ⟨Nat.dvd_refl _, fun _ _ _ => rfl⟩

theorem oneStack_stack (i : Puppet) (size : UInt32) : (oneStack i size).stack i =
    some ⟨{ sptr := 20480, ssze := stackSize samplePages size }, true⟩ := by
  simp only [oneStack, Function.update_self]
  rfl

theorem oneStack_page (i : Puppet) {size : UInt32} {q : Nat}
    (h : ¬ Covers samplePages 4096 (stackSize samplePages size + guardSize samplePages) q) :
    (oneStack i size).pages q = none :=
  (coroStackAlloc_page i size _ (k := sampleKernel) rfl (Nat.dvd_refl 4096) _).trans (if_neg h)

def secondKernel : Kernel := ⟨some 24576, none, true⟩

def twoStacks : Stacks Bool where
  pages := (coroStackAlloc samplePages true 1 secondKernel (oneStack false 1).pages).1
  stack := Function.update (oneStack false 1).stack true
    (some ⟨(coroStackAlloc samplePages true 1 secondKernel (oneStack false 1).pages).2.1, true⟩)

theorem twoStacks_reachable :
    (coroStacks samplePages (fun _ => 1) fun _ => none).Reachable twoStacks := by
  refine .step (.construct true secondKernel) (oneStack_reachable false 1) ?_
  rw [coroStacks]
  simp only [Stacks.step]
  refine if_pos ⟨rfl, ?_⟩
  rintro grant hGrant
  obtain rfl := Option.some.inj hGrant
  refine ⟨by decide, fun q _ hCovers => ?_⟩
  rw [oneStack_page false fun hFirst => ?_]
  · rfl
  · have hTo : q * 4096 < 4096 + (4096 + 4 * 4096) := hFirst.2
    have hFrom : 24576 ≤ q * 4096 := hCovers.1
    omega

theorem stacks_guarded_two :
    Writable samplePages twoStacks.pages 40960 ∧ ¬ Writable samplePages twoStacks.pages 40959 ∧
      (20480 + 4096 + guardSize samplePages ≤ 40960 ∨
        40960 + 4096 + guardSize samplePages ≤ 20480) := by
  have hSecond : twoStacks.stack true = some ⟨{ sptr := 40960, ssze := 4096 }, true⟩ := rfl
  have hFirst : twoStacks.stack false = some ⟨{ sptr := 20480, ssze := 4096 }, true⟩ := rfl
  obtain ⟨-, hWritable, hGuard, hApart, -⟩ :=
    stacks_guarded twoStacks_reachable hSecond (by decide)
  exact ⟨hWritable _ (by decide) (by decide), hGuard rfl _ (by decide) (by decide),
    (hApart false _ (by decide) hFirst (by decide)).symm⟩

/-- With the last coroutine its stack is gone: nothing is left mapped for one. -/
theorem nothing_left (hReach : (coroStacks P size mapped).Reachable s)
    (hGone : ∀ i, s.stack i = none) (q : Nat) : userOf s.pages q = none :=
  Option.eq_none_iff_forall_ne_some.mpr fun i => (stacks_placed hReach).absent i (hGone i) q

end

section

variable {Register Puppet : Type} [CallingConvention Register] {b : Backend Register} {im : Image}

/-- Stacks, contexts and static variables, none of them on another. -/
structure Pieces (b : Backend Register) (im : Image) (Puppet : Type) where
  base : Thread Puppet → Nat
  top : Thread Puppet → Nat
  context : Context Puppet → Nat
  stack_unique : ∀ w t u, base t ≤ w → w < top t → base u ≤ w → w < top u → t = u
  context_injective : ∀ x y, context x = context y → x = y
  context_outside : ∀ x t, context x < base t ∨ top t ≤ context x
  static_outside : ∀ w ∈ im.statics, ∀ t, w < base t ∨ top t ≤ w
  context_not_static : ∀ x, context x ∉ im.statics
  room : ∀ t, base t + (b.numSaved + 4) ≤ top t

open Classical in
noncomputable def Pieces.owner (p : Pieces b im Puppet) (w : Nat) : Owner Puppet :=
  if hStack : ∃ t, p.base t ≤ w ∧ w < p.top t then .stack hStack.choose
  else if hContext : ∃ x, w = p.context x then .context hContext.choose
  else if w ∈ im.statics then .static
  else .shared

noncomputable def Pieces.layout (p : Pieces b im Puppet) : Layout b im Puppet where
  owner := p.owner
  base := p.base
  top := p.top
  context := p.context
  stack_iff w t := by
    unfold Pieces.owner
    constructor
    · intro h
      split at h
      case isTrue hStack => exact Owner.stack.inj h ▸ hStack.choose_spec
      case isFalse => split at h <;> [cases h; split at h <;> cases h]
    · intro h
      have hStack : ∃ t, p.base t ≤ w ∧ w < p.top t := ⟨t, h⟩
      have hSpec := hStack.choose_spec
      rw [dif_pos hStack, p.stack_unique w _ t hSpec.1 hSpec.2 h.1 h.2]
  context_iff w x := by
    unfold Pieces.owner
    constructor
    · intro h
      split at h
      case isTrue => cases h
      case isFalse =>
        split at h
        case isTrue hContext => exact Owner.context.inj h ▸ hContext.choose_spec
        case isFalse => split at h <;> cases h
    · rintro rfl
      have hStack : ¬ ∃ t, p.base t ≤ p.context x ∧ p.context x < p.top t := by
        rintro ⟨t, hBase, hTop⟩
        have hOutside := p.context_outside x t
        omega
      have hContext : ∃ y, p.context x = p.context y := ⟨x, rfl⟩
      rw [dif_neg hStack, dif_pos hContext,
        p.context_injective _ x hContext.choose_spec.symm]
  static_iff w := by
    unfold Pieces.owner
    constructor
    · intro h
      split at h
      case isTrue => cases h
      case isFalse =>
        split at h
        case isTrue => cases h
        case isFalse =>
          split at h
          case isTrue hStatic => exact hStatic
          case isFalse => cases h
    · intro hStatic
      have hStack : ¬ ∃ t, p.base t ≤ w ∧ w < p.top t := by
        rintro ⟨t, hBase, hTop⟩
        have hOutside := p.static_outside w hStatic t
        omega
      have hContext : ¬ ∃ x, w = p.context x := by
        rintro ⟨x, rfl⟩
        exact p.context_not_static x hStatic
      rw [dif_neg hStack, dif_neg hContext, if_pos hStatic]
  room := p.room

/-- Where the rest of the process is: on pages that are no coroutine's. -/
structure Rest (b : Backend Register) (im : Image) (P : PageSize) (s : Stacks Puppet) where
  base : Nat
  top : Nat
  context : Context Puppet → Nat
  room : base + (b.numSaved + 4) ≤ top
  stack_elsewhere : ∀ w, base ≤ w → w < top → userOf s.pages (8 * w / P.bytes) = none
  context_elsewhere : ∀ x, userOf s.pages (8 * context x / P.bytes) = none
  static_elsewhere : ∀ w ∈ im.statics, userOf s.pages (8 * w / P.bytes) = none
  context_injective : ∀ x y, context x = context y → x = y
  context_outside : ∀ x, context x < base ∨ top ≤ context x
  static_outside : ∀ w ∈ im.statics, w < base ∨ top ≤ w
  context_not_static : ∀ x, context x ∉ im.statics

def Stacks.base (s : Stacks Puppet) (i : Puppet) : Nat :=
  (s.stack i).elim 0 (·.stack.sptr / 8)

def Stacks.top (s : Stacks Puppet) (i : Puppet) : Nat :=
  (s.stack i).elim 0 fun a => (a.stack.sptr + a.stack.ssze) / 8

/-- Every puppet has the stack that its constructor asks for. -/
structure Stacks.AllHeld (P : PageSize) (s : Stacks Puppet) : Prop where
  placed : s.Placed P fun _ => coroutineStackSize
  words : 8 ∣ P.bytes
  held : ∀ i, ∃ a, s.stack i = some a ∧ a.stack.sptr ≠ 0

variable {P : PageSize} {s : Stacks Puppet}

theorem Stacks.AllHeld.words_eq (h : s.AllHeld P) {i : Puppet} {a : Allocated}
    (ha : s.stack i = some a) :
    8 * s.base i = a.stack.sptr ∧ 8 * s.top i = a.stack.sptr + a.stack.ssze := by
  have hAt := h.placed.held i a ha
  have hStart := h.words.trans hAt.aligned
  have hLen := h.words.trans (hAt.ssze ▸ dvd_stackSize P coroutineStackSize)
  simp only [Stacks.base, Stacks.top, ha, Option.elim_some]
  omega

theorem Stacks.AllHeld.userOf_word (h : s.AllHeld P) {i : Puppet} {w : Nat}
    (hBase : s.base i ≤ w) (hTop : w < s.top i) : userOf s.pages (8 * w / P.bytes) = some i := by
  obtain ⟨a, ha, hGranted⟩ := h.held i
  obtain ⟨hFirst, hLast⟩ := h.words_eq ha
  exact ((h.placed.held i a ha).userOf_div_iff hGranted _).mpr (by omega)

theorem Stacks.AllHeld.outside (h : s.AllHeld P) {w : Nat}
    (hUser : userOf s.pages (8 * w / P.bytes) = none) (i : Puppet) :
    w < s.base i ∨ s.top i ≤ w := by
  by_contra hInside
  rw [h.userOf_word (i := i) (by omega) (by omega)] at hUser
  cases hUser

theorem Stacks.AllHeld.room (h : s.AllHeld P) (i : Puppet) {n : Nat} (hn : n ≤ 8 * 1024 * 1024) :
    s.base i + n ≤ s.top i := by
  obtain ⟨a, ha, -⟩ := h.held i
  obtain ⟨hFirst, hLast⟩ := h.words_eq ha
  have hSize := le_stackSize P coroutineStackSize
  rw [← (h.placed.held i a ha).ssze] at hSize
  have hWords : coroutineStackSize.toNat = 8 * 1024 * 1024 := rfl
  omega

/-- The stacks of the puppets and what the rest of the process has. -/
def Rest.pieces (rest : Rest b im P s) (h : s.AllHeld P)
    (hSaved : b.numSaved + 4 ≤ 8 * 1024 * 1024) : Pieces b im Puppet where
  base
    | .main => rest.base
    | .puppet i => s.base i
  top
    | .main => rest.top
    | .puppet i => s.top i
  context := rest.context
  stack_unique w t u hBase hTop hBase' hTop' := by
    cases t with
    | main =>
      cases u with
      | main => rfl
      | puppet j =>
        have hUser := rest.stack_elsewhere w hBase hTop
        cases hUser.symm.trans (h.userOf_word hBase' hTop')
    | puppet i =>
      have hUser := h.userOf_word hBase hTop
      cases u with
      | main => cases (rest.stack_elsewhere w hBase' hTop').symm.trans hUser
      | puppet j =>
        obtain rfl := Option.some.inj (hUser.symm.trans (h.userOf_word hBase' hTop'))
        rfl
  context_injective := rest.context_injective
  context_outside x
    | .main => rest.context_outside x
    | .puppet i => h.outside (rest.context_elsewhere x) i
  static_outside w hw
    | .main => rest.static_outside w hw
    | .puppet i => h.outside (rest.static_elsewhere w hw) i
  context_not_static := rest.context_not_static
  room
    | .main => rest.room
    | .puppet i => h.room i hSaved

variable {mapped : Nat → Option Prot} [DecidableEq Puppet]

/-- On every run, once every puppet has its stack: the stacks, with the contexts and static
variables of the process on pages of its own, are a layout such as the coroutines need, and each
word of a stack can be written. -/
theorem stacks_are_layout (hWords : 8 ∣ P.bytes) (hSaved : b.numSaved + 4 ≤ 8 * 1024 * 1024)
    (hReach : (coroStacks P (fun _ => coroutineStackSize) mapped).Reachable s)
    (hHeld : ∀ i, ∃ a, s.stack i = some a ∧ a.stack.sptr ≠ 0) (rest : Rest b im P s) :
    ∃ L : Layout b im Puppet,
      (L.base .main = rest.base ∧ L.top .main = rest.top ∧ L.context = rest.context) ∧
      (∀ i a, s.stack i = some a →
        8 * L.base (.puppet i) = a.stack.sptr ∧
        8 * L.top (.puppet i) = a.stack.sptr + a.stack.ssze) ∧
      ∀ i w, L.owner w = .stack (.puppet i) → Writable P s.pages (8 * w) := by
  have h : s.AllHeld P := ⟨stacks_placed hReach, hWords, hHeld⟩
  refine ⟨(rest.pieces h hSaved).layout, ⟨rfl, rfl, rfl⟩, fun i a ha => h.words_eq ha, ?_⟩
  intro i w hOwner
  obtain ⟨hBase, hTop⟩ := ((rest.pieces h hSaved).layout.stack_iff w _).mp hOwner
  obtain ⟨a, ha, hGranted⟩ := hHeld i
  obtain ⟨hFirst, hLast⟩ := h.words_eq ha
  change s.base i ≤ w at hBase
  change w < s.top i at hTop
  exact (h.placed.held i a ha).writable hGranted (by omega) (by omega)

end

theorem oneStack_userOf {size : UInt32} {w : Nat}
    (h : w < 512 ∨ 20480 + stackSize samplePages size ≤ 8 * w) :
    userOf (oneStack () size).pages (8 * w / samplePages.bytes) = none := by
  have hOutside : ¬ Covers samplePages 4096 (stackSize samplePages size + guardSize samplePages)
      (8 * w / samplePages.bytes) := by
    rintro ⟨hFrom, hTo⟩
    obtain ⟨n, hn⟩ := dvd_stackSize samplePages size
    change 4096 ≤ 8 * w / 4096 * 4096 at hFrom
    change 8 * w / 4096 * 4096 < 4096 + (stackSize samplePages size + 16384) at hTo
    change stackSize samplePages size = 4096 * n at hn
    omega
  rw [userOf, oneStack_page () hOutside, Option.bind_none]

theorem sample_stackSize : stackSize samplePages coroutineStackSize = 67108864 := by
  decide +kernel

def sampleRest : Rest amd64 sampleImage samplePages (oneStack () coroutineStackSize) where
  base := 16 * 1024 * 1024
  top := 16 * 1024 * 1024 + 512
  context
    | .from_ () => 80
    | .to_ () => 81
  room := by decide
  stack_elsewhere w hBase _ := oneStack_userOf (.inr (by rw [sample_stackSize]; omega))
  context_elsewhere
    | .from_ () => oneStack_userOf (.inl (by decide))
    | .to_ () => oneStack_userOf (.inl (by decide))
  static_elsewhere w hw := by
    have hAll : ∀ w ∈ sampleImage.statics, w < 512 := by decide
    exact oneStack_userOf (.inl (hAll w hw))
  context_injective
    | .from_ (), .from_ (), _ => rfl
    | .to_ (), .to_ (), _ => rfl
  context_outside
    | .from_ () => .inl (by decide)
    | .to_ () => .inl (by decide)
  static_outside := by decide
  context_not_static
    | .from_ () => by decide
    | .to_ () => by decide

theorem stacks_are_layout_one : ∃ L : Layout amd64 sampleImage Unit,
    8 * L.base (.puppet ()) = 20480 ∧
      Writable samplePages (oneStack () coroutineStackSize).pages (8 * 2560) := by
  obtain ⟨L, -, hWords, hWritable⟩ := stacks_are_layout (by decide) (by decide)
    (oneStack_reachable () coroutineStackSize) (fun _ => ⟨_, oneStack_stack () _, by decide⟩) sampleRest
  obtain ⟨hBase, hTop⟩ := hWords () _ (oneStack_stack () coroutineStackSize)
  rw [sample_stackSize] at hTop
  refine ⟨L, hBase, hWritable () 2560 ((L.stack_iff _ _).mpr ?_)⟩
  dsimp only at hBase hTop
  omega

end Henson.Coroutine
