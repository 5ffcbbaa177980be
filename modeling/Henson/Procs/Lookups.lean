import Henson.Library.Rendezvous
import Henson.Procs.Ranks

/-!
# Lookups on all ranks

`MPI_Intercomm_create` returns when the ranks of both groups have called it and each
leader has named the other, and `MPI_Intercomm_merge` follows on the same ranks. A lookup
that finds its communicators waits for nobody. What a rank other than the first of its
group says about the other side does not count.
-/

namespace Henson.ProcMap

open TransitionSystem MachineInt

/-- What a rank got: the communicators, and the group on the other side. -/
structure Made where
  name : StdString
  comms : InterIntraComm
  remoteComm : List Nat

/-- The order of `MPI_Intercomm_merge`, where the two sides pass different flags. -/
def Made.merged (m : Made) : List Nat :=
  if m.comms.intraComm.high then m.remoteComm ++ m.comms.interComm.localComm
  else m.comms.interComm.localComm ++ m.remoteComm

/-- A rank, with the lookups that it still has to make. -/
structure Caller where
  levels : Levels
  calls : List StdString
  made : List Made := []

namespace Caller

def hit (c : Caller) : Bool :=
  match c.calls with
  | [] => false
  | name :: _ => (c.levels.cached name).isSome

/-- What a rank in `MPI_Intercomm_create` has given it. -/
def pending (c : Caller) : Option Intercomm :=
  match c.calls with
  | [] => none
  | name :: _ =>
    if (c.levels.cached name).isSome then none else (c.levels.intercomm name).map Prod.fst

def next (c : Caller) : Caller := { c with calls := c.calls.tail }

/-- `MPI_Intercomm_create` returns, and `intercomm` with it. -/
def create (remoteComm : List Nat) (c : Caller) : Caller :=
  match c.calls with
  | [] => c
  | name :: calls =>
    match c.levels.intercomm name with
    | none => c
    | some (_, levels) => {
        levels, calls
        made := c.made ++ ((levels.cached name).map (⟨name, ·, remoteComm⟩)).toList }

end Caller

inductive Meeting where
  | lookup (r : Nat)
  | create (a b : Nat)

namespace Ranks

variable (w : Ranks)

/-- All ranks of the two groups are in `MPI_Intercomm_create`, and each leader names the other. -/
def Meets (s : Nat → Caller) (a b : Nat) : Prop :=
  a < b ∧ w.IsLeader a ∧ w.IsLeader b ∧
  (∀ p ∈ w.comm a ++ w.comm b, (s p).pending.isSome = true) ∧
  (s a).pending.map Intercomm.remoteLeader = some (toInt32 b) ∧
  (s b).pending.map Intercomm.remoteLeader = some (toInt32 a)

instance (s : Nat → Caller) (a b : Nat) : Decidable (w.Meets s a b) :=
  inferInstanceAs (Decidable (_ ∧ _))

end Ranks

theorem Caller.pending_of_hit {c : Caller} (h : c.hit = true) : c.pending = none := by
  unfold Caller.hit at h
  unfold Caller.pending
  split at h
  · cases h
  · exact if_pos h

namespace Ranks

variable {w : Ranks} {s s' : Nat → Caller} {a b a' b' : Nat}

theorem Meets.congr (hSame : ∀ p, p ∈ w.comm a ∨ p ∈ w.comm b → s p = s' p)
    (h : w.Meets s a b) : w.Meets s' a b := by
  obtain ⟨hLt, ha, hb, hAll, hA, hB⟩ := h
  refine ⟨hLt, ha, hb, fun p hp => ?_, ?_, ?_⟩
  · rw [← hSame p (List.mem_append.mp hp)]
    exact hAll p hp
  · rw [← hSame a (.inl ha.mem)]
    exact hA
  · rw [← hSame b (.inr hb.mem)]
    exact hB

theorem Meets.pending (h : w.Meets s a b) {p : Nat} (hp : p ∈ w.comm a ∨ p ∈ w.comm b) :
    (s p).pending.isSome = true :=
  h.2.2.2.1 p (List.mem_append.mpr hp)

theorem Meets.right_eq (h : w.Meets s a b) (h' : w.Meets s a b') : b = b' := by
  obtain ⟨-, -, hb, -, hA, -⟩ := h
  obtain ⟨-, -, hb', -, hA', -⟩ := h'
  exact toInt32_injective hb.lt hb'.lt (Option.some.inj (hA.symm.trans hA'))

theorem Meets.left_eq (h : w.Meets s a b) (h' : w.Meets s a' b) : a = a' := by
  obtain ⟨-, ha, -, -, -, hB⟩ := h
  obtain ⟨-, ha', -, -, -, hB'⟩ := h'
  exact toInt32_injective ha.lt ha'.lt (Option.some.inj (hB.symm.trans hB'))

/-- A leader on both sides would be below the one that it names and above it. -/
theorem Meets.not_crossed (h : w.Meets s a b) (h' : w.Meets s a' a) : False := by
  obtain ⟨hLt, -, hb, -, hA, -⟩ := h
  obtain ⟨hLt', ha', -, -, -, hB'⟩ := h'
  have hSame := toInt32_injective hb.lt ha'.lt (Option.some.inj (hA.symm.trans hB'))
  omega

theorem Meets.unique (h : w.Meets s a b) (h' : w.Meets s a' b') {p : Nat}
    (hp : p ∈ w.comm a ∨ p ∈ w.comm b) (hp' : p ∈ w.comm a' ∨ p ∈ w.comm b') :
    a = a' ∧ b = b' := by
  have ha := h.2.1
  have hb := h.2.2.1
  have ha' := h'.2.1
  have hb' := h'.2.2.1
  rcases hp with hp | hp
  · rcases hp' with hp' | hp'
    · obtain rfl := ha.unique ha' hp hp'
      exact ⟨rfl, h.right_eq h'⟩
    · obtain rfl := ha.unique hb' hp hp'
      exact (h.not_crossed h').elim
  · rcases hp' with hp' | hp'
    · obtain rfl := hb.unique ha' hp hp'
      exact (h'.not_crossed h).elim
    · obtain rfl := hb.unique hb' hp hp'
      exact ⟨h.left_eq h', rfl⟩

variable (w) in
def lookups (calls : Nat → List StdString) : Rendezvous Nat Caller Meeting where
  initial p := { levels := w.start p, calls := if p < w.size then calls p else [] }
  member
    | .lookup r, p => p = r
    | .create a b, p => p ∈ w.comm a ∨ p ∈ w.comm b
  ready
    | .lookup r, s => (s r).hit = true
    | .create a b, s => w.Meets s a b
  effect
    | .lookup _, _, c => c.next
    | .create a b, p, c => c.create (if p ∈ w.comm a then w.comm b else w.comm a)
  decMember
    | .lookup r, p => inferInstanceAs (Decidable (p = r))
    | .create a b, p => inferInstanceAs (Decidable (p ∈ w.comm a ∨ p ∈ w.comm b))
  decReady
    | .lookup r, s => inferInstanceAs (Decidable ((s r).hit = true))
    | .create a b, s => inferInstanceAs (Decidable (w.Meets s a b))
  ready_congr
    | .lookup r, _, _, hSame, h => (congrArg Caller.hit (hSame r rfl)).symm.trans h
    | .create _ _, _, _, hSame, h => h.congr hSame
  exclusive
    | .lookup _, .lookup _, _, _, _, _, hp, hp' => by rw [← hp, ← hp']
    | .lookup _, .create _ _, _, _, h, h', hp, hp' => by
      subst hp
      have hPending := h'.pending hp'
      rw [Caller.pending_of_hit h] at hPending
      cases hPending
    | .create _ _, .lookup _, _, _, h, h', hp, hp' => by
      subst hp'
      have hPending := h.pending hp
      rw [Caller.pending_of_hit h'] at hPending
      cases hPending
    | .create _ _, .create _ _, _, _, h, h', hp, hp' => by
      obtain ⟨rfl, rfl⟩ := h.unique h' hp hp'
      rfl

end Ranks

/-- The names for which the lookups still have to make communicators. -/
def needed (has : StdString → Bool) : List StdString → List StdString
  | [] => []
  | name :: calls =>
    if has name then needed has calls else name :: needed (fun m => m == name || has m) calls

def Caller.names (c : Caller) : List StdString :=
  needed (fun m => (c.levels.cached m).isSome) c.calls

theorem Caller.names_next {c : Caller} (h : c.hit = true) :
    c.next.names = c.names ∧ c.calls.length = c.next.calls.length + 1 := by
  unfold Caller.hit at h
  split at h
  · cases h
  · rename_i name calls hCalls
    have hNames : c.names = needed (fun m => (c.levels.cached m).isSome) calls := by
      rw [Caller.names, hCalls, needed, if_pos h]
    rw [hNames, Caller.next, hCalls]
    exact ⟨rfl, rfl⟩

theorem Caller.hit_or_names {c : Caller} (h : c.calls ≠ []) :
    c.hit = true ∨ ∃ name, c.names.head? = some name ∧ c.calls.head? = some name ∧
      c.levels.cached name = none := by
  obtain ⟨name, calls, hCalls⟩ := List.exists_cons_of_ne_nil h
  cases hCached : c.levels.cached name with
  | some comms =>
    left
    rw [Caller.hit, hCalls]
    exact Option.isSome_of_eq_some hCached
  | none =>
    right
    refine ⟨name, ?_, by rw [hCalls, List.head?_cons], hCached⟩
    rw [Caller.names, hCalls, needed, if_neg (by simp [hCached]), List.head?_cons]

/-- Inside the caches a rank is as its `extend` left it. -/
def Caller.At (w : Ranks) (p : Nat) (c : Caller) : Prop :=
  ∃ top rest, c.levels.stack = top :: rest ∧ top.toLevel = w.level p

/-- What the return of `MPI_Intercomm_create` means for a rank. -/
structure Caller.Creates (w : Ranks) (p a : Nat) (c : Caller) (name : StdString)
    (comms : InterIntraComm) : Prop where
  pending : c.pending = some comms.interComm
  uncached : c.levels.cached name = none
  localComm : comms.interComm.localComm = w.comm p
  remote : w.leaderOf name = some comms.interComm.remoteLeader
  high : comms.intraComm.high = decide (toInt32 a > comms.interComm.remoteLeader)
  names : ∀ remoteComm, c.names = name :: (c.create remoteComm).names
  calls : ∀ remoteComm, c.calls.length = (c.create remoteComm).calls.length + 1
  made : ∀ remoteComm, (c.create remoteComm).made = c.made ++ [⟨name, comms, remoteComm⟩]
  cached : ∀ remoteComm m, (c.create remoteComm).levels.cached m =
    if m = name then some comms else c.levels.cached m
  at_ : ∀ remoteComm, (c.create remoteComm).At w p

theorem Levels.cached_create_eq {l : Levels} {top : CachedLevel} {rest : List CachedLevel}
    (hStack : l.stack = top :: rest) (name : StdString) (comms : InterIntraComm) (m : StdString) :
    (l.create top rest name comms).cached m = if m = name then some comms else l.cached m := by
  simp only [Levels.cached, Levels.create, hStack, List.findSome?_cons,
    Std.ExtTreeMap.getElem?_insert, Std.LawfulEqCmp.compare_eq_iff_eq]
  by_cases hName : name = m
  · subst hName
    simp
  · rw [if_neg hName, if_neg fun h => hName h.symm]

theorem Caller.At.creates {w : Ranks} {p a : Nat} {c : Caller} (hAt : c.At w p)
    (ha : w.IsLeader a) (hp : p ∈ w.comm a) {name : StdString} (hNext : c.calls.head? = some name)
    (hNone : c.levels.cached name = none) {g : Int32} (hLeader : w.leaderOf name = some g) :
    ∃ comms, comms.interComm.remoteLeader = g ∧ c.Creates w p a name comms := by
  obtain ⟨top, rest, hStack, hTop⟩ := hAt
  obtain ⟨calls, hCalls⟩ := List.head?_eq_some_iff.mp hNext
  have hpSize := (Ranks.lt_of_mem_comm hp).2
  have hRemote : top.leader name = some g := by
    rw [hTop, Ranks.level_leader hpSize, hLeader]
  have hOwn : top.leader top.group = some (toInt32 a) := by
    rw [hTop, Ranks.level_leader hpSize, Ranks.leader_own ha hp]
  have hComm : top.localComm = w.comm p := by rw [hTop]; rfl
  let interComm : Intercomm := ⟨c.levels.created.length, top.localComm, g, 0⟩
  let comms : InterIntraComm := ⟨interComm, ⟨interComm, toInt32 a > g⟩⟩
  have hLookup : c.levels.intercomm name =
      some (interComm, c.levels.create top rest name comms) := by
    rw [Levels.intercomm, hNone, hStack]
    dsimp only
    rw [hRemote, hOwn]
    rfl
  have hCreate : ∀ remoteComm, c.create remoteComm =
      { levels := c.levels.create top rest name comms, calls
        made := c.made ++ [⟨name, comms, remoteComm⟩] } := by
    intro remoteComm
    simp only [Caller.create, hCalls, hLookup, Levels.cached_create, Option.map_some,
      Option.toList_some]
  have hCached := Levels.cached_create_eq hStack name comms
  refine ⟨comms, rfl, ?_, hNone, hComm, hLeader, rfl, fun rc => ?_, fun rc => ?_, fun rc => ?_,
    fun rc m => ?_, fun rc => ?_⟩
  · simp only [Caller.pending, hCalls, hNone, hLookup]
    rfl
  · rw [hCreate, Caller.names, Caller.names, hCalls, needed, if_neg (by simp [hNone])]
    congr 2
    funext m
    rw [hCached]
    by_cases hName : m = name
    · simp [hName]
    · simp [hName]
  · rw [hCreate, hCalls, List.length_cons]
  · rw [hCreate]
  · rw [hCreate, hCached]
  · rw [hCreate]
    exact ⟨_, rest, rfl, hTop⟩

theorem Caller.At.creates_of_pending {w : Ranks} {p a : Nat} {c : Caller} (hAt : c.At w p)
    (ha : w.IsLeader a) (hp : p ∈ w.comm a) (hPending : c.pending.isSome = true) :
    ∃ name comms, c.Creates w p a name comms := by
  obtain ⟨top, rest, hStack, hTop⟩ := id hAt
  have hCalls : c.calls ≠ [] := by
    intro hNil
    rw [Caller.pending, hNil] at hPending
    cases hPending
  obtain hHit | ⟨name, -, hNext, hNone⟩ := Caller.hit_or_names hCalls
  · rw [Caller.pending_of_hit hHit] at hPending
    cases hPending
  · cases hLeader : w.leaderOf name with
    | some g =>
      obtain ⟨comms, -, hCreates⟩ := hAt.creates ha hp hNext hNone hLeader
      exact ⟨name, comms, hCreates⟩
    | none =>
      have hRemote : top.leader name = none := by
        rw [hTop, Ranks.level_leader (Ranks.lt_of_mem_comm hp).2, hLeader]
      obtain ⟨calls, hCalls⟩ := List.head?_eq_some_iff.mp hNext
      have hLookup : c.levels.intercomm name = none := by
        rw [Levels.intercomm, hNone, hStack]
        dsimp only
        rw [hRemote]
        rfl
      simp only [Caller.pending, hCalls, hLookup, Option.map_none, ite_self] at hPending
      cases hPending

namespace Ranks

variable {w : Ranks} {s s' : Nat → Caller} {calls : Nat → List StdString}

/-- The ranks of a group need the same communicators, in one order. -/
structure Collective (w : Ranks) (s : Nat → Caller) : Prop where
  at_ : ∀ p < w.size, (s p).At w p
  sync : ∀ p, ∀ q ∈ w.comm p, (s q).names = (s p).names

/-- One meeting, as its members see it. -/
structure Meets.Seen (w : Ranks) (s s' : Nat → Caller) (a b : Nat) (p : Nat) (name : StdString)
    (comms : InterIntraComm) (here there : Nat) : Prop where
  sides : here = a ∧ there = b ∨ here = b ∧ there = a
  mem : p ∈ w.comm here
  creates : (s p).Creates w p here name comms
  after : s' p = (s p).create (w.comm there)
  remote : comms.interComm.remoteLeader = toInt32 there

theorem Meets.apart {a b : Nat} (h : w.Meets s a b) {p : Nat} (ha : p ∈ w.comm a)
    (hb : p ∈ w.comm b) : False :=
  Nat.ne_of_lt h.1 (h.2.1.unique h.2.2.1 ha hb)

theorem Meets.seen {a b : Nat} (h : w.Meets s a b) (hs : w.Collective s)
    (hStep : (w.lookups calls).machine.step s (.create a b) = some s') {here there : Nat}
    (hSides : here = a ∧ there = b ∨ here = b ∧ there = a) :
    ∃ name, ∀ p ∈ w.comm here, ∃ comms, Meets.Seen w s s' a b p name comms here there := by
  have hLeader : w.IsLeader here ∧
      (s here).pending.map Intercomm.remoteLeader = some (toInt32 there) := by
    obtain ⟨-, ha, hb, -, hA, hB⟩ := h
    rcases hSides with ⟨rfl, rfl⟩ | ⟨rfl, rfl⟩
    · exact ⟨ha, hA⟩
    · exact ⟨hb, hB⟩
  obtain ⟨hHere, hNames⟩ := hLeader
  have hMember : ∀ p ∈ w.comm here, p ∈ w.comm a ∨ p ∈ w.comm b := by
    intro p hp
    rcases hSides with ⟨rfl, -⟩ | ⟨rfl, -⟩
    · exact .inl hp
    · exact .inr hp
  have hCreates : ∀ p ∈ w.comm here, ∃ name comms, (s p).Creates w p here name comms :=
    fun p hp => (hs.at_ p (lt_of_mem_comm hp).2).creates_of_pending hHere hp
      (h.pending (hMember p hp))
  obtain ⟨name, comms, hFirst⟩ := hCreates here hHere.mem
  have hThere : w.leaderOf name = some (toInt32 there) := by
    rw [hFirst.pending, Option.map_some, Option.some.injEq] at hNames
    rw [hFirst.remote, hNames]
  refine ⟨name, fun p hp => ?_⟩
  obtain ⟨name', comms', hSeen⟩ := hCreates p hp
  have hSync := hs.sync here p hp
  rw [hSeen.names [], hFirst.names []] at hSync
  obtain ⟨rfl, -⟩ := List.cons.inj hSync
  obtain ⟨-, rfl⟩ := Rendezvous.step_eq_some.mp hStep
  refine ⟨comms', hSides, hp, hSeen, ?_, ?_⟩
  · rw [Rendezvous.meet_of_member (hMember p hp)]
    change (s p).create (if p ∈ w.comm a then w.comm b else w.comm a) = _
    rcases hSides with ⟨rfl, rfl⟩ | ⟨rfl, rfl⟩
    · rw [if_pos hp]
    · rw [if_neg fun hA => h.apart hA hp]
  · exact Option.some.inj (hSeen.remote.symm.trans hThere)

theorem of_step_lookup {r : Nat}
    (hStep : (w.lookups calls).machine.step s (.lookup r) = some s') :
    (s r).hit = true ∧ s' r = (s r).next ∧ ∀ p, p ≠ r → s' p = s p := by
  obtain ⟨hHit, rfl⟩ := Rendezvous.step_eq_some.mp hStep
  exact ⟨hHit, if_pos rfl, fun p hp => if_neg hp⟩

theorem of_step_create {a b : Nat}
    (hStep : (w.lookups calls).machine.step s (.create a b) = some s') :
    w.Meets s a b ∧ ∀ p, p ∉ w.comm a → p ∉ w.comm b → s' p = s p := by
  obtain ⟨hMeets, rfl⟩ := Rendezvous.step_eq_some.mp hStep
  exact ⟨hMeets, fun p ha hb => if_neg (not_or.mpr ⟨ha, hb⟩)⟩

theorem side_cases (w : Ranks) (a b p : Nat) :
    (p ∉ w.comm a ∧ p ∉ w.comm b) ∨
      ∃ here there, (here = a ∧ there = b ∨ here = b ∧ there = a) ∧ p ∈ w.comm here := by
  by_cases ha : p ∈ w.comm a
  · exact .inr ⟨a, b, .inl ⟨rfl, rfl⟩, ha⟩
  · by_cases hb : p ∈ w.comm b
    · exact .inr ⟨b, a, .inr ⟨rfl, rfl⟩, hb⟩
    · exact .inl ⟨ha, hb⟩

theorem Collective.rank_cases (hs : w.Collective s) {m : Meeting}
    (hStep : (w.lookups calls).machine.step s m = some s') (p : Nat) :
    s' p = s p ∨ (s' p = (s p).next ∧ (s p).hit = true) ∨
      ∃ a b here there name comms, m = .create a b ∧ w.Meets s a b ∧
        Meets.Seen w s s' a b p name comms here there := by
  cases m with
  | lookup r =>
    obtain ⟨hHit, hNext, hOther⟩ := of_step_lookup hStep
    by_cases hp : p = r
    · subst hp
      exact .inr (.inl ⟨hNext, hHit⟩)
    · exact .inl (hOther p hp)
  | create a b =>
    obtain ⟨hMeets, hOther⟩ := of_step_create hStep
    rcases side_cases w a b p with ⟨ha, hb⟩ | ⟨here, there, hSides, hp⟩
    · exact .inl (hOther p ha hb)
    · obtain ⟨name, hSeen⟩ := hMeets.seen hs hStep hSides
      obtain ⟨comms, hSeen⟩ := hSeen p hp
      exact .inr (.inr ⟨a, b, here, there, name, comms, rfl, hMeets, hSeen⟩)

theorem names_lookup {r : Nat}
    (hStep : (w.lookups calls).machine.step s (.lookup r) = some s') (p : Nat) :
    (s' p).names = (s p).names := by
  obtain ⟨hHit, hNext, hOther⟩ := of_step_lookup hStep
  by_cases hp : p = r
  · subst hp
    rw [hNext, (Caller.names_next hHit).1]
  · rw [hOther p hp]

theorem Collective.step (hs : w.Collective s) {m : Meeting}
    (hStep : (w.lookups calls).machine.step s m = some s') : w.Collective s' where
  at_ p hp := by
    obtain hSame | ⟨hNext, -⟩ | ⟨a, b, here, there, name, comms, -, -, hSeen⟩ :=
      hs.rank_cases hStep p
    · rw [hSame]
      exact hs.at_ p hp
    · rw [hNext]
      exact hs.at_ p hp
    · rw [hSeen.after]
      exact hSeen.creates.at_ _
  sync p q hq := by
    have hSync := hs.sync p q hq
    cases m with
    | lookup r => rw [names_lookup hStep, names_lookup hStep, hSync]
    | create a b =>
      obtain ⟨hMeets, hOther⟩ := of_step_create hStep
      rcases side_cases w a b p with ⟨ha, hb⟩ | ⟨here, there, hSides, hp⟩
      · have hNot : ∀ c, p ∉ w.comm c → q ∉ w.comm c := fun c hc hqc =>
          hc (comm_eq_of_mem hqc ▸ mem_comm_symm hq)
        rw [hOther p ha hb, hOther q (hNot a ha) (hNot b hb), hSync]
      · obtain ⟨name, hSeen⟩ := hMeets.seen hs hStep hSides
        obtain ⟨comms, hSeenP⟩ := hSeen p hp
        obtain ⟨comms', hSeenQ⟩ := hSeen q (comm_eq_of_mem hp ▸ hq)
        rw [hSeenP.creates.names (w.comm there), hSeenQ.creates.names (w.comm there)] at hSync
        rw [hSeenP.after, hSeenQ.after]
        exact (List.cons.inj hSync).2

/-- What a rank got is what it finds from then on, and the other ranks of both groups got it
too. -/
structure Agreed (w : Ranks) (s : Nat → Caller) (p : Nat) (e : Made) : Prop where
  cached : (s p).levels.cached e.name = some e.comms
  sides : ∃ here there, w.IsLeader here ∧ w.IsLeader there ∧ here ≠ there ∧ p ∈ w.comm here ∧
    e.remoteComm = w.comm there ∧ e.comms.interComm.localComm = w.comm here ∧
    w.leaderOf e.name = some (toInt32 there) ∧
    e.comms.intraComm.high = decide (toInt32 here > toInt32 there)
  mates : ∀ q ∈ w.comm p, ∃ e' ∈ (s q).made, e'.name = e.name ∧ e'.remoteComm = e.remoteComm
  peers : ∀ q ∈ e.remoteComm, ∃ e' ∈ (s q).made, e'.remoteComm = w.comm p

theorem Collective.keeps (hs : w.Collective s) {m : Meeting}
    (hStep : (w.lookups calls).machine.step s m = some s') (p : Nat) :
    (∀ e ∈ (s p).made, e ∈ (s' p).made) ∧
    ∀ name comms, (s p).levels.cached name = some comms →
      (s' p).levels.cached name = some comms := by
  obtain hSame | ⟨hNext, -⟩ | ⟨a, b, here, there, name, comms, -, -, hSeen⟩ :=
    hs.rank_cases hStep p
  · rw [hSame]
    exact ⟨fun _ he => he, fun _ _ h => h⟩
  · rw [hNext]
    exact ⟨fun _ he => he, fun _ _ h => h⟩
  · rw [hSeen.after]
    refine ⟨fun e he => ?_, fun name' comms' h => ?_⟩
    · rw [hSeen.creates.made]
      exact List.mem_append_left _ he
    · rw [hSeen.creates.cached, if_neg, h]
      rintro rfl
      rw [hSeen.creates.uncached] at h
      cases h

theorem Agreed.keep (hs : w.Collective s) {m : Meeting}
    (hStep : (w.lookups calls).machine.step s m = some s') {p : Nat} {e : Made}
    (h : w.Agreed s p e) : w.Agreed s' p e where
  cached := (hs.keeps hStep p).2 _ _ h.cached
  sides := h.sides
  mates q hq := by
    obtain ⟨e', he', hSame⟩ := h.mates q hq
    exact ⟨e', (hs.keeps hStep q).1 e' he', hSame⟩
  peers q hq := by
    obtain ⟨e', he', hSame⟩ := h.peers q hq
    exact ⟨e', (hs.keeps hStep q).1 e' he', hSame⟩

theorem Meets.other {a b here there : Nat} (hSides : here = a ∧ there = b ∨ here = b ∧ there = a) :
    there = a ∧ here = b ∨ there = b ∧ here = a := by
  rcases hSides with ⟨rfl, rfl⟩ | ⟨rfl, rfl⟩
  · exact .inr ⟨rfl, rfl⟩
  · exact .inl ⟨rfl, rfl⟩

theorem Meets.leaders {a b here there : Nat} (h : w.Meets s a b)
    (hSides : here = a ∧ there = b ∨ here = b ∧ there = a) :
    w.IsLeader here ∧ w.IsLeader there ∧ here ≠ there := by
  obtain ⟨hLt, ha, hb, -⟩ := h
  rcases hSides with ⟨rfl, rfl⟩ | ⟨rfl, rfl⟩
  · exact ⟨ha, hb, Nat.ne_of_lt hLt⟩
  · exact ⟨hb, ha, Nat.ne_of_gt hLt⟩

theorem Meets.agreed {a b here there : Nat} (h : w.Meets s a b) (hs : w.Collective s)
    (hStep : (w.lookups calls).machine.step s (.create a b) = some s') {p : Nat} {name : StdString}
    {comms : InterIntraComm} (hSeen : Meets.Seen w s s' a b p name comms here there) :
    w.Agreed s' p ⟨name, comms, w.comm there⟩ := by
  obtain ⟨hHere, hThere, hNe⟩ := h.leaders hSeen.sides
  have hp : w.comm p = w.comm here := comm_eq_of_mem hSeen.mem
  obtain ⟨nameHere, hAllHere⟩ := h.seen hs hStep hSeen.sides
  obtain ⟨nameThere, hAllThere⟩ := h.seen hs hStep (Meets.other hSeen.sides)
  obtain ⟨comms', hSeen'⟩ := hAllHere p hSeen.mem
  have hName : name = nameHere := by
    have hSame := (hSeen.creates.names []).symm.trans (hSeen'.creates.names [])
    exact (List.cons.inj hSame).1
  have hRemote := hSeen.creates.remote
  have hHigh := hSeen.creates.high
  rw [hSeen.remote] at hRemote hHigh
  constructor
  · rw [hSeen.after, hSeen.creates.cached, if_pos rfl]
  · exact ⟨here, there, hHere, hThere, hNe, hSeen.mem, rfl, hp ▸ hSeen.creates.localComm, hRemote,
      hHigh⟩
  · intro q hq
    obtain ⟨commsQ, hSeenQ⟩ := hAllHere q (hp ▸ hq)
    refine ⟨⟨nameHere, commsQ, w.comm there⟩, ?_, hName.symm, rfl⟩
    rw [hSeenQ.after, hSeenQ.creates.made]
    exact List.mem_append_right _ List.mem_cons_self
  · intro q hq
    obtain ⟨commsQ, hSeenQ⟩ := hAllThere q hq
    refine ⟨⟨nameThere, commsQ, w.comm here⟩, ?_, hp.symm⟩
    rw [hSeenQ.after, hSeenQ.creates.made]
    exact List.mem_append_right _ List.mem_cons_self

structure Consistent (w : Ranks) (s : Nat → Caller) : Prop where
  collective : w.Collective s
  agreed : ∀ p, ∀ e ∈ (s p).made, w.Agreed s p e

theorem Consistent.step (hs : w.Consistent s) {m : Meeting}
    (hStep : (w.lookups calls).machine.step s m = some s') : w.Consistent s' where
  collective := hs.collective.step hStep
  agreed p e he := by
    obtain hSame | ⟨hNext, -⟩ | ⟨a, b, here, there, name, comms, rfl, hMeets, hSeen⟩ :=
      hs.collective.rank_cases hStep p
    · rw [hSame] at he
      exact (hs.agreed p e he).keep hs.collective hStep
    · rw [hNext] at he
      exact (hs.agreed p e he).keep hs.collective hStep
    · rw [hSeen.after, hSeen.creates.made, List.mem_append, List.mem_singleton] at he
      rcases he with he | rfl
      · exact (hs.agreed p e he).keep hs.collective hStep
      · exact hMeets.agreed hs.collective hStep hSeen

theorem IsLeader.eq_of_comm_eq {a b : Nat} (ha : w.IsLeader a) (hb : w.IsLeader b)
    (h : w.comm a = w.comm b) : a = b :=
  ha.unique hb ha.mem (h ▸ ha.mem)

def joined (w : Ranks) (a b : Nat) : List Nat :=
  if a < b then w.comm a ++ w.comm b else w.comm b ++ w.comm a

theorem joined_comm {a b : Nat} (hNe : a ≠ b) : w.joined a b = w.joined b a := by
  unfold joined
  rcases Nat.lt_or_gt_of_ne hNe with hLt | hLt
  · rw [if_pos hLt, if_neg (by omega)]
  · rw [if_neg (by omega), if_pos hLt]

theorem mem_joined {a b q : Nat} : q ∈ w.joined a b ↔ q ∈ w.comm a ∨ q ∈ w.comm b := by
  unfold joined
  split
  · rw [List.mem_append]
  · rw [List.mem_append, or_comm]

theorem pairwise_joined {a b : Nat} (ha : w.IsLeader a) (hb : w.IsLeader b) (hNe : a ≠ b) :
    (w.joined a b).Pairwise (· < ·) := by
  unfold joined
  split
  case isTrue hLt =>
    exact List.pairwise_append.mpr ⟨pairwise_comm a, pairwise_comm b, fun r hr r' hr' =>
      ha.comm_lt hb hLt hr hr'⟩
  case isFalse hNot =>
    exact List.pairwise_append.mpr ⟨pairwise_comm b, pairwise_comm a, fun r hr r' hr' =>
      hb.comm_lt ha (by omega) hr hr'⟩

/-- The flags differ, so that the group of the smaller leader comes first on both sides. -/
theorem Agreed.merged_eq {p : Nat} {e : Made} (h : w.Agreed s p e) {here there : Nat}
    (hHere : w.IsLeader here) (hThere : w.IsLeader there) (hp : w.comm p = w.comm here)
    (hRemote : e.remoteComm = w.comm there) : e.merged = w.joined here there := by
  obtain ⟨here', there', hHere', hThere', hNe, hp', hRemote', hLocal, -, hHigh⟩ := h.sides
  obtain rfl := hHere.eq_of_comm_eq hHere' (hp.symm.trans (comm_eq_of_mem hp'))
  obtain rfl := hThere.eq_of_comm_eq hThere' (hRemote.symm.trans hRemote')
  rw [Made.merged, joined, hHigh, hRemote, hLocal]
  simp only [gt_iff_lt, decide_eq_true_eq, toInt32_lt_iff hThere.lt hHere.lt]
  rcases Nat.lt_or_gt_of_ne hNe with hLt | hLt
  · rw [if_neg (by omega), if_pos hLt]
  · rw [if_pos hLt, if_neg (by omega)]

variable (w) in
/-- The ranks of a group look up the same new names, in one order. -/
def SameNeeds (calls : Nat → List StdString) : Prop :=
  ∀ p, ∀ q ∈ w.comm p,
    ((w.lookups calls).initial q).names = ((w.lookups calls).initial p).names

theorem consistent_initial (hNeeds : w.SameNeeds calls) :
    w.Consistent (w.lookups calls).initial where
  collective :=
    { at_ := fun p hp => ⟨_, _, congrArg Levels.stack (start_eq hp), rfl⟩
      sync := hNeeds }
  agreed p e he := by cases he

theorem consistent_of_reachable (hNeeds : w.SameNeeds calls)
    (hReach : (w.lookups calls).machine.Reachable s) : w.Consistent s :=
  hReach.invariant (consistent_initial hNeeds) fun _ _ _ hs hStep => hs.step hStep

/-- On every run, whatever a rank got by a lookup: later lookups of the name find it; the ranks
of its group got the same; the ranks of the other side got its group; all of these merge to one
communicator, which has the two groups in the order of the world; and the other side is the
group of that name, unless it is empty. -/
theorem group_comms_agree (hNeeds : w.SameNeeds calls)
    (hReach : (w.lookups calls).machine.Reachable s) {p : Nat} {e : Made} (he : e ∈ (s p).made) :
    (s p).levels.cached e.name = some e.comms ∧
    (∀ q ∈ w.comm p, ∃ e' ∈ (s q).made, e'.name = e.name ∧ e'.remoteComm = e.remoteComm ∧
      e'.merged = e.merged) ∧
    (∀ q ∈ e.remoteComm, w.comm q = e.remoteComm ∧ ∃ e' ∈ (s q).made,
      e'.remoteComm = w.comm p ∧ e'.merged = e.merged) ∧
    e.merged.Pairwise (· < ·) ∧ (∀ q, q ∈ e.merged ↔ q ∈ w.comm p ∨ q ∈ e.remoteComm) ∧
    ∀ g, (w.level p).groups[e.name]? = some g → 0 < g.size.toInt →
      ∀ q, q ∈ e.remoteComm ↔ (q : Int) ∈ g.ranks := by
  have hs := consistent_of_reachable hNeeds hReach
  have hAgreed := hs.agreed p e he
  obtain ⟨here, there, hHere, hThere, hNe, hp, hRemote, -, hLeader, -⟩ := hAgreed.sides
  have hComm : w.comm p = w.comm here := comm_eq_of_mem hp
  have hMerged := hAgreed.merged_eq hHere hThere hComm hRemote
  refine ⟨hAgreed.cached, fun q hq => ?_, fun q hq => ?_, ?_, fun q => ?_, fun g hg hSize q => ?_⟩
  · obtain ⟨e', he', hName, hRemote'⟩ := hAgreed.mates q hq
    have hMerged' := (hs.agreed q e' he').merged_eq hHere hThere ((comm_eq_of_mem hq).trans hComm)
      (hRemote'.trans hRemote)
    exact ⟨e', he', hName, hRemote', hMerged'.trans hMerged.symm⟩
  · obtain ⟨e', he', hRemote'⟩ := hAgreed.peers q hq
    have hq' : w.comm q = w.comm there := comm_eq_of_mem (hRemote ▸ hq)
    have hMerged' := (hs.agreed q e' he').merged_eq hThere hHere hq' (hRemote'.trans hComm)
    rw [joined_comm hNe.symm] at hMerged'
    exact ⟨hq'.trans hRemote.symm, e', he', hRemote', hMerged'.trans hMerged.symm⟩
  · rw [hMerged]
    exact pairwise_joined hHere hThere hNe
  · rw [hMerged, mem_joined, hComm, hRemote]
  · have hpSize := (lt_of_mem_comm hp).2
    have hFirst : g.leader = toInt32 there := by
      rw [← level_leader hpSize, Level.leader, hg, Option.map_some, Option.some.injEq] at hLeader
      exact hLeader
    rw [hRemote]
    exact mem_comm_of_group hpSize hg hSize hFirst hThere.lt q

def twoGroups : Ranks where
  procs := [(⟨[97]⟩, 1), (⟨[98]⟩, 2)]
  size := 3
  partition := ⟨by decide, by decide, by decide⟩
  fits := by decide
  commSplit _ c _ :=
    ranksOfColor 3 (fun r => (split (toInt32 r) [(⟨[97]⟩, 1), (⟨[98]⟩, 2)]).color) c
  splits := commSplit_ranksOfColor 3 _
  outer _ := {}

def sampleCalls (p : Nat) : List StdString := if p = 0 then [⟨[98]⟩, ⟨[98]⟩] else [⟨[97]⟩]

theorem sample_needs : twoGroups.SameNeeds sampleCalls := by
  have hAll : ∀ p < 3, ∀ q < 3, q ∈ twoGroups.comm p →
      ((twoGroups.lookups sampleCalls).initial q).names =
        ((twoGroups.lookups sampleCalls).initial p).names := by
    decide
  intro p q hq
  obtain ⟨hp, hq'⟩ := lt_of_mem_comm hq
  exact hAll p hp q hq' hq

theorem group_comms_agree_two :
    ∃ s, (twoGroups.lookups sampleCalls).machine.Reachable s ∧
      ∃ e ∈ (s 2).made, ∃ e' ∈ (s 1).made, e'.merged = e.merged := by
  let s := (twoGroups.lookups sampleCalls).meet (.create 0 1)
    (twoGroups.lookups sampleCalls).initial
  have hMeets : twoGroups.Meets (twoGroups.lookups sampleCalls).initial 0 1 := by decide
  have hReach : (twoGroups.lookups sampleCalls).machine.Reachable s :=
    .step (.create 0 1) .initial (Rendezvous.step_eq_some.mpr ⟨hMeets, rfl⟩)
  obtain ⟨e, he⟩ := List.exists_mem_of_ne_nil (s 2).made (by decide)
  obtain ⟨-, hMates, -⟩ := group_comms_agree sample_needs hReach he
  obtain ⟨e', he', -, -, hMerged⟩ := hMates 1 (by decide)
  exact ⟨s, hReach, e, he, e', he', hMerged⟩

end Ranks

end Henson.ProcMap
