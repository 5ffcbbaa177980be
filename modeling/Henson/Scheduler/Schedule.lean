import Henson.Library.Throwing
import Henson.Scheduler.GroupSizes

/-!
# The groups vector of a job

The loops of the two `schedule` functions. They are the same but for the values of
the map: `int`s in one, boxed values, which a cast may refuse, in the other.
-/

namespace Henson

open MachineInt Throwing

structure Requested where
  unspecified : List StdString := []
  specified : Int32 := 0

section Loops

variable {Value : Type} (cast : Value → Except String Int32)

def Requested.add (p : Requested) (x : StdString × Value) : Throwing String Requested := do
  let sz ← liftExcept (cast x.2)
  return if sz.toInt ≤ 0 then { p with unspecified := p.unspecified ++ [x.1] }
    else { p with specified := p.specified + sz }

/-- One turn of the second loop. -/
def Requested.emplace (p : Requested) (leftover leftoverGroupSize : Int32)
    (groupsVector : ProcMap.Vector) (x : StdString × Value) : Throwing String ProcMap.Vector := do
  let sz ← liftExcept (cast x.2)
  return groupsVector ++ [
    if 0 < sz.toInt then (x.1, sz)
    else if p.unspecified.getLast? = some x.1 then
      (x.1, toInt32 (subSizeT (toSizeT leftover)
        (mulSizeT (toSizeT leftoverGroupSize) (subSizeT p.unspecified.length 1))))
    else (x.1, leftoverGroupSize)]

/-- The computation of `groups_vector`. Its division has no result if its divisor is zero. -/
def scheduleGroups (groups : List (StdString × Value)) (size : Int32) :
    Throwing String ProcMap.Vector := do
  let p ← groups.foldlM (Requested.add cast) {}
  let leftover := size - p.specified
  let share ← undefinedIfNone (divSizeT (toSizeT size) p.unspecified.length)
  groups.foldlM (p.emplace cast leftover (toInt32 share)) []

end Loops

def PyScheduler.schedule (groups : ProcMap.Vector) (size : Int32) : Throwing String ProcMap.Vector :=
  scheduleGroups pure groups size

/-- The `schedule` lambda of `chai_scheduler`. -/
def ChaiScheduler.schedule {BoxedValue : Type} (boxedCast : BoxedValue → Except String Int32)
    (groups : List (StdString × BoxedValue)) (size : Int32) : Throwing String ProcMap.Vector :=
  scheduleGroups boxedCast groups size

section Loops

variable {Value : Type} {cast : Value → Except String Int32}

theorem Requested.returns_add {p p' : Requested} {x : StdString × Value} :
    Returns (p.add cast x) p' ↔ ∃ sz, cast x.2 = .ok sz ∧
      p' = if sz.toInt ≤ 0 then { p with unspecified := p.unspecified ++ [x.1] }
        else { p with specified := p.specified + sz } := by
  rw [Requested.add, returns_bind]
  refine exists_congr fun sz => ?_
  rw [returns_liftExcept, returns_pure, eq_comm (b := p')]

theorem Requested.unspecified_eq_nil {groups : List (StdString × Value)} {p p' : Requested}
    (h : Returns (groups.foldlM (Requested.add cast) p) p') :
    p'.unspecified = [] ↔
      p.unspecified = [] ∧ ∀ x ∈ groups, ∃ sz, cast x.2 = .ok sz ∧ 0 < sz.toInt := by
  induction groups generalizing p with
  | nil =>
    obtain rfl := returns_pure.mp h
    simp
  | cons x groups ih =>
    obtain ⟨q, hFirst, hRest⟩ := returns_foldlM_cons.mp h
    obtain ⟨sz, hCast, rfl⟩ := Requested.returns_add.mp hFirst
    have hHead : (∃ sz', cast x.2 = .ok sz' ∧ 0 < sz'.toInt) ↔ 0 < sz.toInt := by simp [hCast]
    rw [ih hRest, List.forall_mem_cons, hHead, ← and_assoc]
    refine and_congr_left fun _ => ?_
    split
    · rename_i hOpen
      exact iff_of_false (List.append_ne_nil_of_right_ne_nil _ (List.cons_ne_nil _ _))
        fun hBoth => absurd hBoth.2 (not_lt.mpr hOpen)
    · rename_i hPos
      exact (and_iff_left (not_le.mp hPos)).symm

/-- All sizes of the map are specified, and are the sizes of `v`. -/
def Specified (cast : Value → Except String Int32) (groups : List (StdString × Value))
    (v : ProcMap.Vector) : Prop :=
  groups.map (fun x => (x.1, cast x.2)) = v.map (fun x => (x.1, .ok x.2)) ∧
    ∀ x ∈ v, 0 < x.2.toInt

/-- Nothing is divided by zero, and specified sizes are passed on. -/
structure SafelyScheduled (cast : Value → Except String Int32) (groups : List (StdString × Value))
    (groupsVector : Throwing String ProcMap.Vector) : Prop where
  defined : Defined groupsVector
  passed : ∀ v, Specified cast groups v → Returns groupsVector v

theorem exists_specified {groups : List (StdString × Value)}
    (h : ∀ x ∈ groups, ∃ sz, cast x.2 = .ok sz ∧ 0 < sz.toInt) :
    ∃ v, Specified cast groups v := by
  induction groups with
  | nil => exact ⟨[], rfl, List.forall_mem_nil _⟩
  | cons x groups ih =>
    obtain ⟨⟨sz, hCast, hPos⟩, hRest⟩ := List.forall_mem_cons.mp h
    obtain ⟨v, hv, hAll⟩ := ih hRest
    refine ⟨(x.1, sz) :: v, ?_, List.forall_mem_cons.mpr ⟨hPos, hAll⟩⟩
    rw [List.map_cons, List.map_cons, hv, hCast]

theorem Specified.forall {groups : List (StdString × Value)} {v : ProcMap.Vector}
    (h : Specified cast groups v) : ∀ x ∈ groups, ∃ sz, cast x.2 = .ok sz ∧ 0 < sz.toInt := by
  intro x hx
  have hMem := List.mem_map_of_mem (f := fun x => (x.1, cast x.2)) hx
  rw [h.1] at hMem
  obtain ⟨y, hy, hSame⟩ := List.mem_map.mp hMem
  exact ⟨y.2, (congrArg Prod.snd hSame).symm, h.2 y hy⟩

theorem Requested.defined_foldlM (groups : List (StdString × Value)) (p : Requested) :
    Defined (groups.foldlM (Requested.add cast) p) :=
  Throwing.defined_foldlM
    (fun _ _ => defined_bind.mpr ⟨defined_liftExcept _, fun _ _ => defined_pure _⟩) groups p

theorem Requested.defined_emplace (p : Requested) (leftover leftoverGroupSize : Int32)
    (groups : List (StdString × Value)) (v : ProcMap.Vector) :
    Defined (groups.foldlM (p.emplace cast leftover leftoverGroupSize) v) :=
  Throwing.defined_foldlM
    (fun _ _ => defined_bind.mpr ⟨defined_liftExcept _, fun _ _ => defined_pure _⟩) groups v

theorem divSizeT_length_eq_none {n : Nat} {names : List StdString} :
    divSizeT n names.length = none ↔ names = [] := by
  simp [divSizeT]

/-- The division comes before the loop that may need its result, so a map without an open group
never gets through. -/
theorem scheduleGroups_safe_iff (groups : List (StdString × Value)) (size : Int32) :
    SafelyScheduled cast groups (scheduleGroups cast groups size) ↔
      ∃ x ∈ groups, ∀ sz, cast x.2 = .ok sz → sz.toInt ≤ 0 := by
  constructor
  · intro hSafe
    by_contra! hAll
    obtain ⟨v, hv⟩ := exists_specified hAll
    obtain ⟨p, hFirst, hRest⟩ := returns_bind.mp (hSafe.passed v hv)
    obtain ⟨share, hShare, -⟩ := returns_bind.mp hRest
    have hNil := (Requested.unspecified_eq_nil hFirst).mpr ⟨rfl, hAll⟩
    rw [returns_undefinedIfNone, divSizeT_length_eq_none.mpr hNil] at hShare
    cases hShare
  · rintro ⟨x, hx, hOpen⟩
    have hNot : ¬ ∀ x ∈ groups, ∃ sz, cast x.2 = .ok sz ∧ 0 < sz.toInt := by
      intro hAll
      obtain ⟨sz, hCast, hPos⟩ := hAll x hx
      exact absurd (hOpen sz hCast) (not_le.mpr hPos)
    constructor
    · refine defined_bind.mpr ⟨Requested.defined_foldlM groups {}, fun p hFirst => ?_⟩
      have hNil : p.unspecified ≠ [] := fun hNil =>
        hNot ((Requested.unspecified_eq_nil hFirst).mp hNil).2
      refine defined_bind.mpr ⟨?_, fun share _ => p.defined_emplace _ _ groups []⟩
      exact defined_undefinedIfNone.mpr fun hNone => hNil (divSizeT_length_eq_none.mp hNone)
    · exact fun v hv => absurd hv.forall hNot

end Loops

/-- Both copies are safe exactly for the maps with a size that is not specified. A value that is
no `int` ends the call before the division. -/
theorem safelyScheduled_iff {Boxed : Type} (boxedCast : Boxed → Except String Int32)
    (boxed : List (StdString × Boxed)) (groups : ProcMap.Vector) (size : Int32) :
    (SafelyScheduled boxedCast boxed (ChaiScheduler.schedule boxedCast boxed size) ↔
      ∃ x ∈ boxed, ∀ sz, boxedCast x.2 = .ok sz → sz.toInt ≤ 0) ∧
    (SafelyScheduled pure groups (PyScheduler.schedule groups size) ↔
      ∃ x ∈ groups, x.2.toInt ≤ 0) := by
  constructor
  · exact scheduleGroups_safe_iff boxed size
  · rw [PyScheduler.schedule, scheduleGroups_safe_iff]
    refine exists_congr fun x => and_congr_right fun _ => ?_
    constructor
    · exact fun h => h x.2 rfl
    · rintro h sz hCast
      cases hCast
      exact h

/-- A job of size 2 with one group that asks for both ranks, and a job without groups. -/
theorem specified_sizes_divide_by_zero :
    ¬ Defined (PyScheduler.schedule [(⟨[97]⟩, 2)] 2) ∧
    ¬ Defined (ChaiScheduler.schedule pure [(⟨[97]⟩, (2 : Int32))] 2) ∧
    ¬ Defined (PyScheduler.schedule [] 2) ∧
    ¬ SafelyScheduled pure [(⟨[97]⟩, 2)] (PyScheduler.schedule [(⟨[97]⟩, 2)] 2) :=
  ⟨fun h => h rfl, fun h => h rfl, fun h => h rfl, fun h => h.defined rfl⟩

section Ints

theorem foldlM_add_pure (groups : ProcMap.Vector) (p : Requested) :
    groups.foldlM (Requested.add pure) p =
      (pure { unspecified := p.unspecified ++
                (groups.filter fun x => x.2.toInt ≤ 0).map Prod.fst
              specified := groups.foldl GroupRequest.addSpecified p.specified } :
        Throwing String Requested) := by
  induction groups generalizing p with
  | nil => simp
  | cons x groups ih =>
    have hStep : p.add pure x = (pure (if x.2.toInt ≤ 0 then
        { p with unspecified := p.unspecified ++ [x.1] }
        else { p with specified := p.specified + x.2 }) : Throwing String Requested) := rfl
    rw [List.foldlM_cons, hStep, pure_bind, ih]
    by_cases hOpen : x.2.toInt ≤ 0
    · simp [hOpen, GroupRequest.addSpecified]
    · simp [hOpen, GroupRequest.addSpecified]

theorem foldlM_emplace_pure {p : Requested} {last : StdString}
    (hLast : p.unspecified.getLast? = some last) (leftover share : Int32)
    (groups v : ProcMap.Vector) :
    groups.foldlM (p.emplace pure leftover share) v =
      (pure (v ++ groups.map (GroupRequest.groupSize last (toInt32 (subSizeT (toSizeT leftover)
        (mulSizeT (toSizeT share) (subSizeT p.unspecified.length 1)))) share)) :
        Throwing String ProcMap.Vector) := by
  induction groups generalizing v with
  | nil => simp
  | cons x groups ih =>
    have hStep : p.emplace pure leftover share v x = (pure (v ++ [
        GroupRequest.groupSize last (toInt32 (subSizeT (toSizeT leftover)
          (mulSizeT (toSizeT share) (subSizeT p.unspecified.length 1)))) share x]) :
        Throwing String ProcMap.Vector) := by
      simp only [Requested.emplace, hLast, Option.some.injEq, GroupRequest.groupSize,
        eq_comm (a := last)]
      rfl
    rw [List.foldlM_cons, hStep, pure_bind, ih, List.map_cons, List.append_assoc,
      List.singleton_append]

end Ints

/-- On a map of `int`s the loops compute the sizes whose fairness is known. -/
theorem PyScheduler.schedule_eq (r : GroupRequest) (size : Int32) :
    PyScheduler.schedule r.entries size = undefinedIfNone (r.groupsVector size) := by
  rw [PyScheduler.schedule, scheduleGroups, foldlM_add_pure, pure_bind, List.nil_append]
  change (undefinedIfNone (divSizeT (toSizeT size) r.unspecified.length) >>= _) = _
  cases hLast : r.unspecified.getLast? with
  | none =>
    rw [List.getLast?_eq_none_iff] at hLast
    rw [divSizeT_length_eq_none.mpr hLast, GroupRequest.groupsVector, hLast]
    rfl
  | some last =>
    have hShare : divSizeT (toSizeT size) r.unspecified.length =
        some (toSizeT size / r.unspecified.length) :=
      if_neg fun hNil => by simp [List.length_eq_zero_iff.mp hNil] at hLast
    rw [hShare, GroupRequest.groupsVector, hLast]
    exact foldlM_emplace_pure hLast _ _ r.entries []

end Henson
