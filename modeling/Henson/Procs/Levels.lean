import Henson.Library.TransitionSystem
import Henson.Procs.ProcMap

/-!
# The stack of levels

Every level has its groups and a cache of the communicators that were made there. A lookup
goes through the caches of all levels, innermost first, and only then makes communicators,
for the innermost level. So an outer cache comes before the groups of an inner level. The
history beside the stack says at which level, and under which name, each was made.
-/

namespace Henson.ProcMap

open TransitionSystem

/-- What `MPI_Intercomm_create` was given, and how many came before. -/
structure Intercomm where
  serial : Nat
  localComm : List Nat
  remoteLeader : Int32
  tag : Int32
  deriving DecidableEq

/-- What `MPI_Intercomm_merge` was given. -/
structure Intracomm where
  interComm : Intercomm
  high : Bool
  deriving DecidableEq

structure InterIntraComm where
  interComm : Intercomm
  intraComm : Intracomm
  deriving DecidableEq

abbrev IntercommCache := Std.ExtTreeMap StdString InterIntraComm compare

structure CachedLevel extends Level where
  number : Nat
  intercommCache : IntercommCache := ∅

structure Creation where
  level : Nat
  name : StdString
  comms : InterIntraComm
  deriving DecidableEq

/-- `levels_`, the innermost level first, and the history of the object. -/
structure Levels where
  stack : List CachedLevel := []
  pushed : Nat := 0
  removed : List Nat := []
  created : List Creation := []

/-- What MPI tells this rank about a communicator. -/
structure World where
  rank : Int32
  size : Int32
  commSplit : Nat → Int32 → List Nat
  rank_nonneg : 0 ≤ rank
  rank_lt : rank < size

namespace Levels

/-- A size that does not match throws, and nothing changes. -/
def extend (s : Levels) (world : World) (procs : Vector) : Levels :=
  match ProcMap.extend world.commSplit world.rank world.size procs with
  | .ok l => { s with
      stack := { toLevel := l, number := s.pushed } :: s.stack
      pushed := s.pushed + 1 }
  | .error _ => s

/-- The search of `intercomm` and `intracomm`. -/
def cached (s : Levels) (name : StdString) : Option InterIntraComm :=
  s.stack.findSome? fun l => l.intercommCache[name]?

/-- New communicators for `name` at the innermost level. -/
def create (s : Levels) (top : CachedLevel) (rest : List CachedLevel) (name : StdString)
    (comms : InterIntraComm) : Levels :=
  { s with
    stack := { top with intercommCache := top.intercommCache.insert name comms } :: rest
    created := s.created ++ [⟨top.number, name, comms⟩] }

/-- Without a level, or for a name without a group at the innermost one, undefined. -/
def intercomm (s : Levels) (name : StdString) (tag : Int32 := 0) : Option (Intercomm × Levels) :=
  match s.cached name, s.stack with
  | some comms, _ => some (comms.interComm, s)
  | none, [] => none
  | none, top :: rest => do
    let remoteLeader ← top.leader name
    let localLeader ← top.leader top.group
    let interComm := ⟨s.created.length, top.localComm, remoteLeader, tag⟩
    let comms := ⟨interComm, ⟨interComm, localLeader > remoteLeader⟩⟩
    return (interComm, s.create top rest name comms)

def popBack (s : Levels) : Option Levels :=
  match s.stack with
  | [] => none
  | top :: rest => some { s with stack := rest, removed := top.number :: s.removed }

end Levels

inductive LevelsOp where
  | extend (world : World) (procs : Vector)
  | intercomm (name : StdString) (tag : Int32)
  | popBack

def Levels.step (s : Levels) : LevelsOp → Option Levels
  | .extend world procs => some (s.extend world procs)
  | .intercomm name tag => (s.intercomm name tag).map Prod.snd
  | .popBack => s.popBack

/-- Before the first level of the constructor and behind the last one of the destructor too. -/
def levelsMachine : Machine Levels LevelsOp where
  initial := {}
  step := Levels.step

theorem split_concat (rank : Int32) (procs : Vector) (x : StdString × Int32) :
    split rank (procs ++ [x]) = (split rank procs).add rank x := by
  rw [split, List.foldl_append]
  rfl

theorem group_mem_split {rank : Int32} (hRank : 0 ≤ rank) {procs : Vector} (h : procs ≠ []) :
    ∃ g, (split rank procs).groups[(split rank procs).group]? = some g := by
  induction procs using List.reverseRecOn with
  | nil => exact absurd rfl h
  | append_singleton pre x ih =>
    rw [split_concat]
    simp only [Split.add]
    cases pre with
    | nil =>
      have hFirst : rank ≥ (split rank []).totalProcs := hRank
      rw [if_pos hFirst, Std.ExtTreeMap.getElem?_insert_self]
      exact ⟨_, rfl⟩
    | cons y pre =>
      obtain ⟨g, hg⟩ := ih (List.cons_ne_nil y pre)
      by_cases hStart : rank ≥ (split rank (y :: pre)).totalProcs
      · rw [if_pos hStart, Std.ExtTreeMap.getElem?_insert_self]
        exact ⟨_, rfl⟩
      · rw [if_neg hStart, Std.ExtTreeMap.getElem?_insert, hg]
        split
        · exact ⟨_, rfl⟩
        · exact ⟨g, rfl⟩

theorem own_group_of_extend {world : World} {procs : Vector} {l : Level}
    (h : ProcMap.extend world.commSplit world.rank world.size procs = .ok l) :
    ∃ leader, l.leader l.group = some leader := by
  rw [ProcMap.extend] at h
  split at h
  · cases h
  · rename_i hTotal
    obtain rfl := Except.ok.inj h
    have hProcs : procs ≠ [] := by
      rintro rfl
      have hSize : world.size = 0 := (not_not.mp hTotal).symm
      exact absurd (hSize ▸ Int32.lt_of_le_of_lt world.rank_nonneg world.rank_lt) (by decide)
    obtain ⟨g, hg⟩ := group_mem_split world.rank_nonneg hProcs
    exact ⟨g.leader, by rw [Level.leader, hg, Option.map_some]⟩

namespace Levels

/-- The caches of the stack against the history. -/
structure Consistent (s : Levels) : Prop where
  distinct : (s.stack.map CachedLevel.number).Nodup
  below : ∀ l ∈ s.stack, l.number < s.pushed
  ownGroup : ∀ l ∈ s.stack, ∃ leader, l.leader l.group = some leader
  cached : ∀ l ∈ s.stack, ∀ name comms, l.intercommCache[name]? = some comms →
    ⟨l.number, name, comms⟩ ∈ s.created ∧ (l.groups[name]?).isSome
  recorded : ∀ l ∈ s.stack, ∀ c ∈ s.created, c.level = l.number →
    l.intercommCache[c.name]? = some c.comms
  createdBelow : ∀ c ∈ s.created, c.level < s.pushed
  once : (s.created.map fun c => (c.level, c.name)).Nodup
  serials : s.created.map (fun c => c.comms.interComm.serial) = List.range s.created.length
  merged : ∀ c ∈ s.created, c.comms.intraComm.interComm = c.comms.interComm
  removed : ∀ n ∈ s.removed, n < s.pushed ∧ n ∉ s.stack.map CachedLevel.number

section Steps

variable {s s' : Levels} {name : StdString} {tag : Int32} {i : Intercomm}

theorem intercomm_of_cached {comms : InterIntraComm} (h : s.cached name = some comms)
    (tag : Int32) : s.intercomm name tag = some (comms.interComm, s) := by
  rw [intercomm, h]

theorem intercomm_cases (h : s.intercomm name tag = some (i, s')) :
    (∃ comms, s.cached name = some comms ∧ i = comms.interComm ∧ s' = s) ∨
    (s.cached name = none ∧ ∃ top rest comms, s.stack = top :: rest ∧
      (top.groups[name]?).isSome ∧ comms.interComm.serial = s.created.length ∧
      comms.intraComm.interComm = comms.interComm ∧
      i = comms.interComm ∧ s' = s.create top rest name comms) := by
  cases hCached : s.cached name with
  | some comms =>
    rw [intercomm_of_cached hCached] at h
    obtain ⟨rfl, rfl⟩ := Prod.mk.inj (Option.some.inj h)
    exact .inl ⟨comms, rfl, rfl, rfl⟩
  | none =>
    rw [intercomm, hCached] at h
    cases hStack : s.stack with
    | nil =>
      rw [hStack] at h
      cases h
    | cons top rest =>
      rw [hStack] at h
      obtain ⟨remoteLeader, hRemote, h⟩ := Option.bind_eq_some_iff.mp h
      obtain ⟨localLeader, -, h⟩ := Option.bind_eq_some_iff.mp h
      obtain ⟨rfl, rfl⟩ := Prod.mk.inj (Option.some.inj h)
      have hGroup : (top.groups[name]?).isSome := by
        rw [← Option.isSome_map (f := Group.leader)]
        exact Option.isSome_of_eq_some hRemote
      exact .inr ⟨rfl, top, rest, _, rfl, hGroup, rfl, rfl, rfl, rfl⟩

theorem cached_create (top : CachedLevel) (rest : List CachedLevel) (comms : InterIntraComm) :
    (s.create top rest name comms).cached name = some comms := by
  simp [cached, create]

theorem cache_eq_none (h : s.cached name = none) {l : CachedLevel} (hl : l ∈ s.stack) :
    l.intercommCache[name]? = none :=
  List.findSome?_eq_none_iff.mp h l hl

namespace Consistent

theorem empty : Consistent {} where
  distinct := List.nodup_nil
  below l hl := by cases hl
  ownGroup l hl := by cases hl
  cached l hl := by cases hl
  recorded l hl := by cases hl
  createdBelow c hc := by cases hc
  once := List.nodup_nil
  serials := rfl
  merged c hc := by cases hc
  removed n hn := by cases hn

theorem push (h : Consistent s) {l : Level} (hOwn : ∃ leader, l.leader l.group = some leader) :
    Consistent { s with
      stack := { toLevel := l, number := s.pushed } :: s.stack
      pushed := s.pushed + 1 } where
  distinct := by
    refine List.nodup_cons.mpr ⟨fun hMem => ?_, h.distinct⟩
    obtain ⟨l', hl', hSame⟩ := List.mem_map.mp hMem
    exact absurd hSame (Nat.ne_of_lt (h.below l' hl'))
  below := by
    rintro l' (_ | ⟨_, hl'⟩)
    · exact Nat.lt_succ_self _
    · exact Nat.lt_succ_of_lt (h.below l' hl')
  ownGroup := by
    rintro l' (_ | ⟨_, hl'⟩)
    · exact hOwn
    · exact h.ownGroup l' hl'
  cached := by
    rintro l' (_ | ⟨_, hl'⟩) name comms hComms
    · simp at hComms
    · exact h.cached l' hl' name comms hComms
  recorded := by
    rintro l' (_ | ⟨_, hl'⟩) c hc hLevel
    · exact absurd hLevel (Nat.ne_of_lt (h.createdBelow c hc))
    · exact h.recorded l' hl' c hc hLevel
  createdBelow c hc := Nat.lt_succ_of_lt (h.createdBelow c hc)
  once := h.once
  serials := h.serials
  merged := h.merged
  removed n hn := by
    obtain ⟨hBelow, hNot⟩ := h.removed n hn
    refine ⟨Nat.lt_succ_of_lt hBelow, fun hMem => ?_⟩
    rcases List.mem_cons.mp hMem with hSame | hMem
    · exact absurd hSame (Nat.ne_of_lt hBelow)
    · exact hNot hMem

theorem extend (h : Consistent s) (world : World) (procs : Vector) :
    Consistent (s.extend world procs) := by
  rw [Levels.extend]
  split
  · rename_i l hExtend
    exact h.push (own_group_of_extend hExtend)
  · exact h

theorem pop (h : Consistent s) {top : CachedLevel} {rest : List CachedLevel}
    (hStack : s.stack = top :: rest) :
    Consistent { s with stack := rest, removed := top.number :: s.removed } := by
  have hMem : ∀ l ∈ rest, l ∈ s.stack := fun l hl => hStack ▸ List.mem_cons_of_mem top hl
  have hDistinct := h.distinct
  rw [hStack, List.map_cons, List.nodup_cons] at hDistinct
  refine ⟨hDistinct.2, fun l hl => h.below l (hMem l hl), fun l hl => h.ownGroup l (hMem l hl),
    fun l hl => h.cached l (hMem l hl), fun l hl => h.recorded l (hMem l hl), h.createdBelow,
    h.once, h.serials, h.merged, fun n hn => ?_⟩
  rcases List.mem_cons.mp hn with rfl | hn
  · exact ⟨h.below top (hStack ▸ List.mem_cons_self), hDistinct.1⟩
  · obtain ⟨hBelow, hNot⟩ := h.removed n hn
    rw [hStack, List.map_cons] at hNot
    exact ⟨hBelow, fun hRest => hNot (List.mem_cons_of_mem _ hRest)⟩

/-- The new entry is the first one for its level and name, as no cache has the name. -/
theorem create (h : Consistent s) (hNone : s.cached name = none) {top : CachedLevel}
    {rest : List CachedLevel} (hStack : s.stack = top :: rest)
    (hGroup : (top.groups[name]?).isSome) {comms : InterIntraComm}
    (hSerial : comms.interComm.serial = s.created.length)
    (hMerged : comms.intraComm.interComm = comms.interComm) :
    Consistent (s.create top rest name comms) := by
  have hTop : top ∈ s.stack := hStack ▸ List.mem_cons_self
  have hRest : ∀ l ∈ rest, l ∈ s.stack := fun l hl => hStack ▸ List.mem_cons_of_mem top hl
  have hDistinct := h.distinct
  rw [hStack, List.map_cons, List.nodup_cons] at hDistinct
  have hOther : ∀ l ∈ rest, top.number ≠ l.number := fun l hl hSame =>
    hDistinct.1 (hSame ▸ List.mem_map_of_mem hl)
  have hFresh : ∀ c ∈ s.created, ¬ (c.level = top.number ∧ c.name = name) := by
    rintro c hc ⟨hLevel, rfl⟩
    have hEntry := h.recorded top hTop c hc hLevel
    rw [cache_eq_none hNone hTop] at hEntry
    cases hEntry
  constructor
  · simp only [Levels.create, List.map_cons, List.nodup_cons]
    exact hDistinct
  · rintro l (_ | ⟨_, hl⟩)
    · exact h.below top hTop
    · exact h.below l (hRest l hl)
  · rintro l (_ | ⟨_, hl⟩)
    · exact h.ownGroup top hTop
    · exact h.ownGroup l (hRest l hl)
  · rintro l (_ | ⟨_, hl⟩) n comms' hEntry
    · simp only [Std.ExtTreeMap.getElem?_insert, Std.LawfulEqCmp.compare_eq_iff_eq] at hEntry
      split at hEntry
      · rename_i hName
        subst hName
        obtain rfl := Option.some.inj hEntry
        exact ⟨List.mem_append_right _ List.mem_cons_self, hGroup⟩
      · obtain ⟨hMem, hDefined⟩ := h.cached top hTop n comms' hEntry
        exact ⟨List.mem_append_left _ hMem, hDefined⟩
    · obtain ⟨hMem, hDefined⟩ := h.cached l (hRest l hl) n comms' hEntry
      exact ⟨List.mem_append_left _ hMem, hDefined⟩
  · rintro l (_ | ⟨_, hl⟩) c hc hLevel
    · simp only [Std.ExtTreeMap.getElem?_insert, Std.LawfulEqCmp.compare_eq_iff_eq]
      rcases List.mem_append.mp hc with hc | hc
      · rw [if_neg fun hName => hFresh c hc ⟨hLevel, hName.symm⟩]
        exact h.recorded top hTop c hc hLevel
      · obtain rfl := List.mem_singleton.mp hc
        exact if_pos rfl
    · rcases List.mem_append.mp hc with hc | hc
      · exact h.recorded l (hRest l hl) c hc hLevel
      · obtain rfl := List.mem_singleton.mp hc
        exact absurd hLevel (hOther l hl)
  · intro c hc
    rcases List.mem_append.mp hc with hc | hc
    · exact h.createdBelow c hc
    · obtain rfl := List.mem_singleton.mp hc
      exact h.below top hTop
  · simp only [Levels.create, List.map_append, List.map_cons, List.map_nil]
    refine List.nodup_append.mpr ⟨h.once, List.nodup_singleton _, fun k hk k' hk' => ?_⟩
    obtain ⟨c, hc, rfl⟩ := List.mem_map.mp hk
    obtain rfl := List.mem_singleton.mp hk'
    intro hSame
    exact hFresh c hc (Prod.mk.inj hSame)
  · simp only [Levels.create, List.map_append, List.map_cons, List.map_nil, List.length_append,
      List.length_singleton, List.range_succ, h.serials, hSerial]
  · intro c hc
    rcases List.mem_append.mp hc with hc | hc
    · exact h.merged c hc
    · obtain rfl := List.mem_singleton.mp hc
      exact hMerged
  · intro n hn
    obtain ⟨hBelow, hNot⟩ := h.removed n hn
    rw [hStack, List.map_cons] at hNot
    exact ⟨hBelow, hNot⟩

theorem step (h : Consistent s) {op : LevelsOp} (hStep : s.step op = some s') : Consistent s' := by
  cases op with
  | extend world procs =>
    obtain rfl := Option.some.inj hStep
    exact h.extend world procs
  | intercomm name tag =>
    obtain ⟨⟨i, s''⟩, hLookup, rfl⟩ := Option.map_eq_some_iff.mp hStep
    obtain ⟨comms, -, -, rfl⟩ |
        ⟨hNone, top, rest, comms, hStack, hGroup, hSerial, hMerged, -, rfl⟩ :=
      intercomm_cases hLookup
    · exact h
    · exact h.create hNone hStack hGroup hSerial hMerged
  | popBack =>
    cases hStack : s.stack with
    | nil =>
      simp only [Levels.step, popBack, hStack] at hStep
      cases hStep
    | cons top rest =>
      simp only [Levels.step, popBack, hStack] at hStep
      obtain rfl := Option.some.inj hStep
      exact h.pop hStack

end Consistent

end Steps

end Levels

theorem consistent_of_reachable {s : Levels} (h : levelsMachine.Reachable s) : s.Consistent := by
  apply h.invariant (I := Levels.Consistent)
  · exact Levels.Consistent.empty
  · intro s op s' hInv hStep
    exact hInv.step hStep

namespace Levels

section Lookup

variable {s s' : Levels} {name : StdString} {tag : Int32} {l : CachedLevel}

end Lookup

end Levels

def firstOf (size : Int32) (h : 0 < size) : World :=
  ⟨0, size, fun _ _ => [0], Int32.le_refl 0, h⟩

end Henson.ProcMap
