import Mathlib.Data.Finset.Card
import Mathlib.Data.List.Nodup
import Henson.Library.MachineInt
import Henson.Library.Throwing
import Henson.Procs.ProcMap

/-!
# Group sizes from the command line

`parse_procs` takes the entries of the `-p` option, of the form `group` or
`group=SIZE`, and the groups of a script, and divides the ranks that are left
among the groups without a size. An `int` that overflows and a division by zero
have no result.
-/

namespace Henson

open MachineInt Throwing

/-- `std::isspace` in the C locale. -/
def isSpaceByte (c : Byte) : Bool := c = 32 || (9 ≤ c.toNat && c.toNat ≤ 13)

def isDigitByte (c : Byte) : Bool := 48 ≤ c.toNat && c.toNat ≤ 57

def decimal (digits : List Byte) : Nat := digits.foldl (fun n c => n * 10 + (c.toNat - 48)) 0

/-- `std::stoi`: what is behind the digits is ignored. -/
def stoi (s : StdString) : Except String Int32 :=
  let s := s.bytes.dropWhile isSpaceByte
  let digits := (if s.head? = some 43 ∨ s.head? = some 45 then s.tail else s).takeWhile isDigitByte
  let value : Int := if s.head? = some 45 then -decimal digits else decimal digits
  if digits.isEmpty then .error "stoi"
  else
    match intOf value with
    | none => .error "stoi"
    | some sz => .ok sz

namespace ProcMap

/-- The group of an entry, and what stands behind its first `=` if it has one. -/
def splitEntry (procsSize : StdString) : StdString × Option StdString :=
  match procsSize.bytes.dropWhile (· ≠ 61) with
  | [] => (procsSize, none)
  | _ :: size => (⟨procsSize.bytes.takeWhile (· ≠ 61)⟩, some ⟨size⟩)

abbrev NameSet := Std.ExtTreeSet StdString compare

/-- The variables of the loop over the entries. -/
structure Entries where
  procs : Vector := []
  totalProcs : Int32 := 0
  unspecifiedSize : NameSet := ∅

def Entries.add (p : Entries) (procsSize : StdString) : Throwing String Entries :=
  match splitEntry procsSize with
  | (name, none) => return { p with unspecifiedSize := p.unspecifiedSize.insert name }
  | (name, some size) => do
    let sz ← liftExcept (stoi size)
    let total ← undefinedIfNone (addInt p.totalProcs sz)
    return { p with procs := p.procs ++ [(name, sz)], totalProcs := total }

def parseProcs (procsSizes : List StdString) (size : Int32) (allGroups : List StdString) :
    Throwing String Vector := do
  let p ← procsSizes.foldlM Entries.add {}
  if p.totalProcs > size then throw "Specified procs exceed MPI size"
  let assignedProcs : NameSet := p.procs.foldl (fun assigned x => assigned.insert x.1) ∅
  let unspecifiedSize := allGroups.foldl
    (fun unspecified x => if x ∈ assignedProcs then unspecified else unspecified.insert x)
    p.unspecifiedSize
  let unassigned := toInt32 unspecifiedSize.size
  unspecifiedSize.toList.foldlM (fun procs x => do
    let leftover ← undefinedIfNone (subInt size p.totalProcs)
    let share ← undefinedIfNone (divInt leftover unassigned)
    return procs ++ [(x, share)]) p.procs

section Requests

variable (procsSizes groups : List StdString)

def explicitSizes : Vector := procsSizes.filterMap fun procsSize =>
  match splitEntry procsSize with
  | (name, some size) => (stoi size).toOption.map fun sz => (name, sz)
  | (_, none) => none

def bareNames : List StdString := procsSizes.filterMap fun procsSize =>
  match splitEntry procsSize with
  | (name, none) => some name
  | (_, some _) => none

/-- The groups that share the ranks that are left. -/
def openGroups : Finset StdString :=
  (bareNames procsSizes ++
    groups.filter fun x => x ∉ (explicitSizes procsSizes).map Prod.fst).toFinset

/-- The same groups in the order of the set that the code keeps them in. -/
def openNames : List StdString := (Std.ExtTreeSet.ofList (bareNames procsSizes ++
  groups.filter fun x => x ∉ (explicitSizes procsSizes).map Prod.fst) compare).toList

def unassigned : Int32 := toInt32 (openGroups procsSizes groups).card

def specified : Int := ((explicitSizes procsSizes).map fun x => x.2.toInt).sum

def leftover (size : Int32) : Int := size.toInt - specified procsSizes

/-- The explicit sizes, and behind them the open groups with a share each. -/
def requestedSizes (size : Int32) : Vector :=
  explicitSizes procsSizes ++ (openNames procsSizes groups).map fun name =>
    (name, Int32.ofInt ((leftover procsSizes size).tdiv (unassigned procsSizes groups).toInt))

end Requests

theorem Entries.returns_add {p p' : Entries} {procsSize : StdString}
    (h : Returns (p.add procsSize) p') :
    p'.procs = p.procs ++ explicitSizes [procsSize] ∧
      p'.totalProcs.toInt = p.totalProcs.toInt + specified [procsSize] ∧
      ∀ name, name ∈ p'.unspecifiedSize ↔ name ∈ p.unspecifiedSize ∨ name ∈ bareNames [procsSize] := by
  unfold Entries.add at h
  split at h
  · rename_i name hSplit
    obtain rfl := returns_pure.mp h
    have hNone : explicitSizes [procsSize] = [] := by simp [explicitSizes, hSplit]
    refine ⟨by simp [hNone], by simp [specified, hNone], fun n => ?_⟩
    rw [Std.ExtTreeSet.mem_insert, Std.LawfulEqCmp.compare_eq_iff_eq, or_comm]
    simp [bareNames, hSplit, eq_comm (a := name)]
  · rename_i name size hSplit
    obtain ⟨sz, hSize, h⟩ := returns_bind.mp h
    obtain ⟨total, hTotal, h⟩ := returns_bind.mp h
    obtain rfl := returns_pure.mp h
    have hStoi := returns_liftExcept.mp hSize
    have hOne : explicitSizes [procsSize] = [(name, sz)] := by
      simp [explicitSizes, hSplit, hStoi, Except.toOption]
    have hAdd := intOf_eq_some.mp (returns_undefinedIfNone.mp hTotal)
    refine ⟨by rw [hOne], by simp [specified, hOne, hAdd], fun n => ?_⟩
    simp [bareNames, hSplit]

theorem explicitSizes_cons (procsSize : StdString) (procsSizes : List StdString) :
    explicitSizes (procsSize :: procsSizes) =
      explicitSizes [procsSize] ++ explicitSizes procsSizes := by
  rw [explicitSizes, explicitSizes, explicitSizes, ← List.filterMap_append, List.singleton_append]

theorem bareNames_cons (procsSize : StdString) (procsSizes : List StdString) :
    bareNames (procsSize :: procsSizes) = bareNames [procsSize] ++ bareNames procsSizes := by
  rw [bareNames, bareNames, bareNames, ← List.filterMap_append, List.singleton_append]

theorem Entries.returns_foldlM {procsSizes : List StdString} {p p' : Entries}
    (h : Returns (procsSizes.foldlM Entries.add p) p') :
    p'.procs = p.procs ++ explicitSizes procsSizes ∧
      p'.totalProcs.toInt = p.totalProcs.toInt + specified procsSizes ∧
      ∀ name, name ∈ p'.unspecifiedSize ↔ name ∈ p.unspecifiedSize ∨ name ∈ bareNames procsSizes := by
  induction procsSizes generalizing p with
  | nil =>
    obtain rfl := returns_pure.mp h
    simp [explicitSizes, specified, bareNames]
  | cons procsSize procsSizes ih =>
    obtain ⟨q, hFirst, hRest⟩ := returns_foldlM_cons.mp h
    obtain ⟨hProcs, hTotal, hNames⟩ := Entries.returns_add hFirst
    obtain ⟨hProcs', hTotal', hNames'⟩ := ih hRest
    have hSpecified : specified (procsSize :: procsSizes) =
        specified [procsSize] + specified procsSizes := by
      rw [specified, explicitSizes_cons, List.map_append, List.sum_append]
      rfl
    refine ⟨?_, ?_, fun name => ?_⟩
    · rw [hProcs', hProcs, explicitSizes_cons procsSize procsSizes, List.append_assoc]
    · rw [hTotal', hTotal, hSpecified, Int.add_assoc]
    · rw [hNames', hNames, bareNames_cons procsSize procsSizes, List.mem_append, or_assoc]

theorem mem_assigned (procs : Vector) (s : NameSet) (name : StdString) :
    name ∈ procs.foldl (fun (assigned : NameSet) x => assigned.insert x.1) s ↔
      name ∈ s ∨ name ∈ procs.map Prod.fst := by
  induction procs generalizing s with
  | nil => simp
  | cons x procs ih =>
    rw [List.foldl_cons, ih, Std.ExtTreeSet.mem_insert, Std.LawfulEqCmp.compare_eq_iff_eq,
      List.map_cons, List.mem_cons, eq_comm (a := x.1), or_comm (a := name = x.1), or_assoc]

theorem mem_unspecified (assigned : NameSet) (groups : List StdString) (s : NameSet)
    (name : StdString) :
    name ∈ groups.foldl
      (fun (unspecified : NameSet) x => if x ∈ assigned then unspecified else unspecified.insert x)
      s ↔ name ∈ s ∨ name ∈ groups ∧ name ∉ assigned := by
  induction groups generalizing s with
  | nil => simp
  | cons x groups ih =>
    rw [List.foldl_cons, ih]
    split
    · rename_i hAssigned
      have hNot : name = x → name ∈ assigned := fun h => h ▸ hAssigned
      grind
    · rename_i hOpen
      rw [Std.ExtTreeSet.mem_insert, Std.LawfulEqCmp.compare_eq_iff_eq]
      grind

theorem returns_shares {size total unassigned : Int32} {names : List StdString} {procs v : Vector}
    (h : Returns (names.foldlM (fun (procs : Vector) x => (do
      let leftover ← undefinedIfNone (subInt size total)
      let share ← undefinedIfNone (divInt leftover unassigned)
      return procs ++ [(x, share)] : Throwing String Vector)) procs) v) :
    ∃ share : Int32, v = procs ++ names.map (fun x => (x, share)) ∧
      (names ≠ [] → size.toInt - total.toInt < 2 ^ 31 ∧ unassigned.toInt ≠ 0 ∧
        share.toInt = (size.toInt - total.toInt).tdiv unassigned.toInt) := by
  induction names generalizing procs with
  | nil =>
    obtain rfl := returns_pure.mp h
    exact ⟨0, by simp, fun hNil => absurd rfl hNil⟩
  | cons x names ih =>
    obtain ⟨procs', hFirst, hRest⟩ := returns_foldlM_cons.mp h
    obtain ⟨leftover, hLeftover, hFirst⟩ := returns_bind.mp hFirst
    obtain ⟨share, hShare, hFirst⟩ := returns_bind.mp hFirst
    obtain rfl := returns_pure.mp hFirst
    have hSub := intOf_eq_some.mp (returns_undefinedIfNone.mp hLeftover)
    have hDiv := returns_undefinedIfNone.mp hShare
    rw [divInt, Option.ite_none_left_eq_some, intOf_eq_some, hSub] at hDiv
    have hUpper := leftover.toInt_lt
    obtain ⟨share', rfl, hShare'⟩ := ih hRest
    refine ⟨share, ?_, fun _ => ⟨hSub ▸ hUpper, hDiv.1, hDiv.2⟩⟩
    rw [List.map_cons, List.append_assoc, List.singleton_append]
    cases names with
    | nil => rfl
    | cons y names =>
      obtain rfl : share' = share :=
        Int32.toInt_inj.mp ((hShare' (List.cons_ne_nil _ _)).2.2.trans hDiv.2.symm)
      rfl

/-- What `parse_procs` returns: the explicit sizes in the order of the entries, and behind them a
share of what is left for every open group. -/
structure Parsed (procsSizes groups : List StdString) (size : Int32) (names : List StdString)
    (share : Int32) (v : Vector) : Prop where
  nodup : names.Nodup
  mem : ∀ name, name ∈ names ↔ name ∈ openGroups procsSizes groups
  vector : v = explicitSizes procsSizes ++ names.map fun name => (name, share)
  leftover_nonneg : 0 ≤ leftover procsSizes size
  share : names ≠ [] → leftover procsSizes size < 2 ^ 31 ∧
    (unassigned procsSizes groups).toInt ≠ 0 ∧
    share.toInt = (leftover procsSizes size).tdiv (unassigned procsSizes groups).toInt

theorem length_openGroups {procsSizes groups names : List StdString} (hNodup : names.Nodup)
    (hMem : ∀ name, name ∈ names ↔ name ∈ openGroups procsSizes groups) :
    names.length = (openGroups procsSizes groups).card := by
  rw [← List.toFinset_card_of_nodup hNodup]
  exact congrArg Finset.card (Finset.ext fun name => by rw [List.mem_toFinset, hMem])

theorem mem_openNames {procsSizes groups : List StdString} (name : StdString) :
    name ∈ openNames procsSizes groups ↔ name ∈ openGroups procsSizes groups := by
  rw [openNames, Std.ExtTreeSet.mem_toList, Std.ExtTreeSet.mem_ofList, openGroups,
    List.contains_iff_mem, List.mem_toFinset]

theorem parsed_openNames {procsSizes groups : List StdString} {size : Int32} {v : Vector}
    (h : Returns (parseProcs procsSizes size groups) v) :
    ∃ share, Parsed procsSizes groups size (openNames procsSizes groups) share v := by
  obtain ⟨p, hEntries, h⟩ := returns_bind.mp h
  obtain ⟨hProcs, hTotal, hNames⟩ := Entries.returns_foldlM hEntries
  simp only [List.nil_append, Int32.toInt_zero, Int.zero_add] at hProcs hTotal
  split at h
  · exact absurd h not_returns_throw
  rename_i hFits
  have hLeftover : size.toInt - p.totalProcs.toInt = leftover procsSizes size := by
    rw [hTotal, leftover]
  obtain ⟨share, hVector, hShare⟩ := returns_shares h
  generalize hSet : groups.foldl _ p.unspecifiedSize = s at hVector hShare
  have hMem (name : StdString) : name ∈ s ↔ name ∈ openGroups procsSizes groups := by
    rw [← hSet, mem_unspecified, mem_assigned, hNames, hProcs]
    simp [openGroups]
  have hSame : s.toList = openNames procsSizes groups := by
    refine congrArg Std.ExtTreeSet.toList (Std.ExtTreeSet.ext_mem fun name => ?_)
    rw [hMem, ← mem_openNames, openNames, Std.ExtTreeSet.mem_toList]
  have hNodup : (openNames procsSizes groups).Nodup :=
    Std.ExtTreeSet.distinct_toList.imp fun hNe hEq =>
      hNe (Std.LawfulEqCmp.compare_eq_iff_eq.mpr hEq)
  have hSize : s.size = (openGroups procsSizes groups).card := by
    rw [← Std.ExtTreeSet.length_toList, hSame, length_openGroups hNodup mem_openNames]
  rw [hLeftover, hSize, hSame] at hShare
  rw [hSame] at hVector
  refine ⟨share, hNodup, mem_openNames, hProcs ▸ hVector, ?_, hShare⟩
  rw [gt_iff_lt, Int32.lt_iff_toInt_lt] at hFits
  omega

theorem parsed_of_returns {procsSizes groups : List StdString} {size : Int32} {v : Vector}
    (h : Returns (parseProcs procsSizes size groups) v) :
    ∃ names share, Parsed procsSizes groups size names share v :=
  ⟨_, parsed_openNames h⟩

theorem eq_requestedSizes {procsSizes groups : List StdString} {size : Int32} {v : Vector}
    (h : Returns (parseProcs procsSizes size groups) v) :
    v = requestedSizes procsSizes groups size := by
  obtain ⟨share, hParsed⟩ := parsed_openNames h
  rw [hParsed.vector, requestedSizes]
  refine congrArg (explicitSizes procsSizes ++ ·) (List.map_congr_left fun name hName => ?_)
  obtain ⟨-, -, hShare⟩ := hParsed.share (List.ne_nil_of_mem hName)
  rw [← hShare, Int32.ofInt_toInt]

theorem totalProcs_split (rank : Int32) (procs : Vector) (s : Split) :
    (procs.foldl (Split.add rank) s).totalProcs =
      s.totalProcs + Int32.ofInt (procs.map fun x => x.2.toInt).sum := by
  induction procs generalizing s with
  | nil => simp
  | cons x procs ih =>
    rw [List.foldl_cons, ih, List.map_cons, List.sum_cons, Int32.ofInt_add, Int32.ofInt_toInt,
      ← Int32.add_assoc]
    rfl

theorem exists_extend {procs : Vector} {size : Int32}
    (hSum : (procs.map fun x => x.2.toInt).sum = size.toInt)
    (commSplit : Nat → Int32 → List Nat) (rank : Int32) :
    ∃ l, extend commSplit rank size procs = .ok l := by
  have hTotal : (split rank procs).totalProcs = size := by
    rw [split, totalProcs_split, hSum, Int32.ofInt_toInt]
    exact Int32.zero_add size
  exact ⟨_, by rw [extend, if_neg (not_not.mpr hTotal)]⟩

/-- As many equal shares as there are groups are the whole exactly if their number divides it,
also if the number does not fit an `int`. -/
theorem mul_share_eq_iff {count : Nat} {left share : Int} (hLeft : 0 ≤ left)
    (hFits : left < 2 ^ 31) (hShare : share = left.tdiv (toInt32 count).toInt) :
    count * share = left ↔ (count : Int) ∣ left := by
  constructor
  · exact fun hEq => ⟨share, hEq.symm⟩
  · intro hDvd
    obtain rfl | hPos := hLeft.eq_or_lt
    · rw [hShare, Int.zero_tdiv, Int.mul_zero]
    · have hLe := Int.le_of_dvd hPos hDvd
      rw [hShare, toInt_toInt32_of_lt (by omega), Int.mul_tdiv_cancel' hDvd]

theorem Parsed.sum {procsSizes groups names : List StdString} {size share : Int32} {v : Vector}
    (h : Parsed procsSizes groups size names share v) :
    (v.map fun x => x.2.toInt).sum =
      specified procsSizes + (openGroups procsSizes groups).card * share.toInt := by
  have hShares : (names.map fun name => (name, share)).map (fun x => x.2.toInt) =
      List.replicate names.length share.toInt := by
    simp [Function.comp_def]
  rw [h.vector, List.map_append, List.sum_append, hShares, List.sum_replicate,
    length_openGroups h.nodup h.mem, nsmul_eq_mul]
  rfl

/-- No rank is left over, and `extend` accepts the sizes, exactly if the number of open groups
divides the number of ranks that the explicit sizes leave. -/
theorem leftover_distributed_iff {procsSizes groups : List StdString} {size : Int32} {v : Vector}
    (h : Returns (parseProcs procsSizes size groups) v)
    (hOpen : (openGroups procsSizes groups).Nonempty) :
    ((v.map fun x => x.2.toInt).sum = size.toInt ∧
      ∀ commSplit rank, ∃ l, extend commSplit rank size v = .ok l) ↔
    ((openGroups procsSizes groups).card : Int) ∣ leftover procsSizes size := by
  obtain ⟨names, share, hParsed⟩ := parsed_of_returns h
  have hNames : names ≠ [] := by
    obtain ⟨name, hName⟩ := hOpen
    exact List.ne_nil_of_mem ((hParsed.mem name).mpr hName)
  obtain ⟨hFits, -, hShare⟩ := hParsed.share hNames
  rw [← mul_share_eq_iff hParsed.leftover_nonneg hFits hShare]
  have hSum : (v.map fun x => x.2.toInt).sum = size.toInt ↔
      (openGroups procsSizes groups).card * share.toInt = leftover procsSizes size := by
    rw [hParsed.sum, leftover]
    omega
  rw [← hSum]
  exact ⟨fun hBoth => hBoth.1, fun hEq => ⟨hEq, exists_extend hEq⟩⟩

theorem leftover_distributed_iff_run :
    ∃ v : Vector, v = [(⟨[97]⟩, 1), (⟨[98]⟩, 2), (⟨[99]⟩, 2)] ∧
      (v.map fun x => x.2.toInt).sum = 5 ∧
        ∀ commSplit rank, ∃ l, extend commSplit rank 5 v = .ok l := by
  have hParse : Returns (parseProcs [⟨[97, 61, 49]⟩] 5 [⟨[97]⟩, ⟨[98]⟩, ⟨[99]⟩])
      [(⟨[97]⟩, 1), (⟨[98]⟩, 2), (⟨[99]⟩, 2)] := rfl
  exact ⟨_, rfl, (leftover_distributed_iff hParse (by decide)).mpr (by decide)⟩

/-- Two groups of a script on three ranks: each gets one, and `extend` throws. -/
theorem rank_left_over :
    ∃ v, Returns (parseProcs [] 3 [⟨[97]⟩, ⟨[98]⟩]) v ∧
      (openGroups [] [⟨[97]⟩, ⟨[98]⟩]).Nonempty ∧
      (v.map fun x => x.2.toInt).sum = 2 ∧
      ∀ commSplit rank, extend commSplit rank 3 v =
        .error "Requested number of processors doesn't match MPI size: 2 vs 3" := by
  refine ⟨[(⟨[97]⟩, 1), (⟨[98]⟩, 1)], rfl, by decide, by decide, fun commSplit rank => ?_⟩
  have hTotal : (split rank [(⟨[97]⟩, 1), (⟨[98]⟩, 1)]).totalProcs = 2 := by
    rw [split, totalProcs_split]
    rfl
  have hNe : (2 : Int32) ≠ 3 := by decide
  rw [extend, hTotal, if_pos hNe]
  rfl

/-- Every group that is named anywhere is there once, with a rank or more. -/
def UsableGroups (procsSizes groups : List StdString) (v : Vector) : Prop :=
  ∀ name, name ∈ bareNames procsSizes ∨ name ∈ (explicitSizes procsSizes).map Prod.fst ∨
    name ∈ groups → (v.map Prod.fst).count name = 1 ∧ ∀ x ∈ v, x.1 = name → 1 ≤ x.2.toInt

/-- The requests give each group one positive size, and leave a rank for every open group. -/
structure UsableRequests (procsSizes groups : List StdString) (size : Int32) : Prop where
  names : ((explicitSizes procsSizes).map Prod.fst).Nodup
  bare : ∀ name ∈ bareNames procsSizes, name ∉ (explicitSizes procsSizes).map Prod.fst
  positive : ∀ x ∈ explicitSizes procsSizes, 1 ≤ x.2.toInt
  enough : (openGroups procsSizes groups).Nonempty →
    1 ≤ (unassigned procsSizes groups).toInt ∧
      (unassigned procsSizes groups).toInt ≤ leftover procsSizes size

theorem one_le_tdiv_iff {left count : Int} (hLeft : 0 ≤ left) (hCount : count ≠ 0) :
    1 ≤ left.tdiv count ↔ 1 ≤ count ∧ count ≤ left := by
  rw [Int.tdiv_eq_ediv_of_nonneg hLeft]
  rcases Int.lt_or_gt_of_ne hCount with hNeg | hPos
  · have hShare : left / count ≤ 0 := Int.ediv_nonpos_of_nonneg_of_nonpos hLeft (by omega)
    omega
  · rw [Int.le_ediv_iff_mul_le hPos]
    omega

section Usable

variable {procsSizes groups names : List StdString} {size share : Int32} {v : Vector}

theorem Parsed.count (h : Parsed procsSizes groups size names share v) (name : StdString) :
    (v.map Prod.fst).count name =
      ((explicitSizes procsSizes).map Prod.fst).count name + names.count name := by
  have hNames : (names.map fun name => (name, share)).map Prod.fst = names := by
    simp [Function.comp_def]
  rw [h.vector, List.map_append, List.count_append, hNames]

theorem Parsed.size_of_open (h : Parsed procsSizes groups size names share v) {name : StdString}
    (hName : name ∈ names) :
    1 ≤ share.toInt ↔ 1 ≤ (unassigned procsSizes groups).toInt ∧
      (unassigned procsSizes groups).toInt ≤ leftover procsSizes size := by
  obtain ⟨-, hCount, hShare⟩ := h.share (List.ne_nil_of_mem hName)
  rw [hShare, one_le_tdiv_iff h.leftover_nonneg hCount]

theorem Parsed.requests_of_groups (h : Parsed procsSizes groups size names share v)
    (hUsable : UsableGroups procsSizes groups v) : UsableRequests procsSizes groups size where
  names := by
    refine List.nodup_iff_count_le_one.mpr fun name => ?_
    by_cases hName : name ∈ (explicitSizes procsSizes).map Prod.fst
    · have hOnce := (hUsable name (.inr (.inl hName))).1
      rw [h.count] at hOnce
      omega
    · rw [List.count_eq_zero.mpr hName]
      exact Nat.zero_le 1
  bare name hBare hExplicit := by
    have hOnce := (hUsable name (.inl hBare)).1
    have hOpen : name ∈ names := (h.mem name).mpr (by simp [openGroups, hBare])
    have hFirst := List.count_pos_iff.mpr hExplicit
    have hSecond := List.count_pos_iff.mpr hOpen
    rw [h.count] at hOnce
    omega
  positive x hx := by
    refine (hUsable x.1 (.inr (.inl (List.mem_map_of_mem hx)))).2 x ?_ rfl
    rw [h.vector]
    exact List.mem_append_left _ hx
  enough hOpen := by
    obtain ⟨name, hName⟩ := hOpen
    have hMem := (h.mem name).mpr hName
    refine (h.size_of_open hMem).mp ((hUsable name ?_).2 (name, share) ?_ rfl)
    · simp only [openGroups, List.mem_toFinset, List.mem_append, List.mem_filter] at hName
      rcases hName with hBare | hGroup
      · exact .inl hBare
      · exact .inr (.inr hGroup.1)
    · rw [h.vector]
      exact List.mem_append_right _ (List.mem_map_of_mem hMem)

theorem Parsed.groups_of_requests (h : Parsed procsSizes groups size names share v)
    (hUsable : UsableRequests procsSizes groups size) : UsableGroups procsSizes groups v := by
  intro name hName
  have hOpen : name ∈ names ↔ name ∉ (explicitSizes procsSizes).map Prod.fst := by
    rw [h.mem, openGroups, List.mem_toFinset, List.mem_append, List.mem_filter]
    constructor
    · rintro (hBare | ⟨-, hGroup⟩)
      · exact hUsable.bare name hBare
      · simpa using hGroup
    · intro hNot
      rcases hName with hBare | hExplicit | hGroup
      · exact .inl hBare
      · exact absurd hExplicit hNot
      · exact .inr ⟨hGroup, by simpa using hNot⟩
  constructor
  · rw [h.count]
    by_cases hExplicit : name ∈ (explicitSizes procsSizes).map Prod.fst
    · have hNot : name ∉ names := fun hMem => hOpen.mp hMem hExplicit
      rw [List.count_eq_one_of_mem hUsable.names hExplicit, List.count_eq_zero.mpr hNot]
    · rw [List.count_eq_zero.mpr hExplicit, List.count_eq_one_of_mem h.nodup (hOpen.mpr hExplicit)]
  · intro x hx _
    rw [h.vector] at hx
    rcases List.mem_append.mp hx with hExplicit | hShare
    · exact hUsable.positive x hExplicit
    · obtain ⟨y, hy, rfl⟩ := List.mem_map.mp hShare
      exact (h.size_of_open hy).mpr (hUsable.enough ⟨y, (h.mem y).mp hy⟩)

end Usable

/-- `parse_procs` returns usable groups exactly if the requests are. -/
theorem usableGroups_iff {procsSizes groups : List StdString} {size : Int32} {v : Vector}
    (h : Returns (parseProcs procsSizes size groups) v) :
    UsableGroups procsSizes groups v ↔ UsableRequests procsSizes groups size := by
  obtain ⟨names, share, hParsed⟩ := parsed_of_returns h
  exact ⟨hParsed.requests_of_groups, hParsed.groups_of_requests⟩

theorem usableGroups_iff_run :
    UsableGroups [⟨[97, 61, 49]⟩] [⟨[97]⟩, ⟨[98]⟩] [(⟨[97]⟩, 1), (⟨[98]⟩, 2)] := by
  have hParse : Returns (parseProcs [⟨[97, 61, 49]⟩] 3 [⟨[97]⟩, ⟨[98]⟩])
      [(⟨[97]⟩, 1), (⟨[98]⟩, 2)] := rfl
  exact (usableGroups_iff hParse).mpr ⟨by decide, by decide, by decide, fun _ => by decide⟩

/-- The options `-p a=1 -p a` for the script group `a` on two ranks: `a` is there twice. -/
theorem group_listed_twice :
    Returns (parseProcs [⟨[97, 61, 49]⟩, ⟨[97]⟩] 2 [⟨[97]⟩]) [(⟨[97]⟩, 1), (⟨[97]⟩, 1)] ∧
      ¬ UsableGroups [⟨[97, 61, 49]⟩, ⟨[97]⟩] [⟨[97]⟩] [(⟨[97]⟩, 1), (⟨[97]⟩, 1)] := by
  refine ⟨rfl, fun hUsable => ?_⟩
  have hOnce := (hUsable ⟨[97]⟩ (.inr (.inr (by decide)))).1
  exact absurd hOnce (by decide)

end ProcMap

end Henson
