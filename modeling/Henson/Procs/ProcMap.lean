import Mathlib.Algebra.Ring.Int.Defs
import Mathlib.Data.List.Induction
import Mathlib.Data.List.Sort
import Mathlib.Data.Set.Disjoint
import Henson.Library.Blocks
import Henson.Library.ListSplit
import Henson.Library.MachineInt
import Henson.Serialization.MemoryBuffer

/-!
# Groups of ranks

`extend` goes once through the groups of a world and finds, on every rank, the
color it passes to `MPI_Comm_split` and the name of its group. The two come from
two tests. Both pick the group whose block of ranks has the rank, however many
groups are empty. A color counts groups, as a natural number.
-/

namespace Henson

open MachineInt

abbrev ProcMap.Vector := List (StdString × Int32)

namespace ProcMap

/-- The first rank of a group's block, and its size. -/
structure Group where
  leader : Int32
  size : Int32

abbrev GroupMap := Std.ExtTreeMap StdString Group compare

/-- The variables of the loop in `extend`. The color is an `int`; there are fewer than `2 ^ 31`
groups. -/
structure Split where
  groups : GroupMap := ∅
  color : Nat := 0
  totalProcs : Int32 := 0
  group : StdString := ⟨[]⟩

def Split.add (rank : Int32) (s : Split) (x : StdString × Int32) : Split where
  groups := s.groups.insert x.1 ⟨s.totalProcs, x.2⟩
  group := if rank ≥ s.totalProcs then x.1 else s.group
  totalProcs := s.totalProcs + x.2
  color := if rank ≥ s.totalProcs + x.2 then s.color + 1 else s.color

def split (rank : Int32) (procs : Vector) : Split := procs.foldl (Split.add rank) {}

/-- A communicator is the list of its members, as ranks of the world of the level. -/
structure Level where
  localComm : List Nat
  groups : GroupMap
  color : Nat
  group : StdString

/-- `extend` on one rank: `commSplit color key` is what `MPI_Comm_split` returns there. -/
def extend (commSplit : Nat → Int32 → List Nat) (rank size : Int32) (procs : Vector) :
    Except String Level :=
  let s := split rank procs
  if s.totalProcs ≠ size then
    .error ("Requested number of processors doesn't match MPI size: " ++
      toString s.totalProcs.toInt ++ " vs " ++ toString size.toInt)
  else
    .ok { localComm := commSplit s.color 0, groups := s.groups, color := s.color, group := s.group }

namespace Level

def leader (l : Level) (name : StdString) : Option Int32 := l.groups[name]?.map Group.leader

def size (l : Level) (name : StdString) : Option Int32 := l.groups[name]?.map Group.size

def isLeader (l : Level) (rank : Int32) : Bool :=
  l.groups.toList.any fun x => x.2.leader == rank

/-- `local_rank`, on the rank of the world. -/
def localRank (l : Level) (rank : Nat) : Nat := l.localComm.idxOf rank

end Level

/-- What `MPI_Comm_split` gives to the ranks of a world: the ranks with the same color,
ordered by key and then by rank. -/
structure CommSplit (size : Nat) (color : Nat → Nat) (key : Nat → Int32) (comm : Nat → List Nat) :
    Prop where
  mem : ∀ rank < size, ∀ r, r ∈ comm rank ↔ r < size ∧ color r = color rank
  ordered : ∀ rank < size,
    (comm rank).Pairwise fun r r' => key r < key r' ∨ key r = key r' ∧ r < r'

def blockSize (x : StdString × Int32) : Nat := x.2.toInt.toNat

/-- The variables of the loop behind the groups `pre`, on a rank. -/
structure Located (rank : Nat) (pre : Vector) (s : Split) : Prop where
  total : s.totalProcs.toInt = Blocks.total blockSize pre
  groups : ∀ (name : StdString) (g : Group), s.groups[name]? = some g ↔
    ∃ front back, pre = front ++ (name, g.size) :: back ∧
      g.leader.toInt = Blocks.total blockSize front
  place : (Blocks.total blockSize pre ≤ rank ∧ s.color = pre.length) ∨
    ∃ front x, Blocks.At blockSize pre front x rank ∧ s.color = front.length ∧ s.group = x.1

theorem toInt_blockSize {x : StdString × Int32} (h : 0 ≤ x.2.toInt) :
    (blockSize x : Int) = x.2.toInt := Int.toNat_of_nonneg h

theorem Located.nil (rank : Nat) : Located rank [] {} where
  total := rfl
  groups name g := by simp
  place := .inl ⟨Nat.zero_le rank, rfl⟩

theorem Located.add {rank : Nat} {pre : Vector} {s : Split} (h : Located rank pre s)
    (hRank : rank < 2 ^ 31) {x : StdString × Int32} (hSize : 0 ≤ x.2.toInt)
    (hName : x.1 ∉ pre.map Prod.fst) (hFits : Blocks.total blockSize (pre ++ [x]) < 2 ^ 31) :
    Located rank (pre ++ [x]) (s.add (toInt32 rank) x) := by
  have hBlock := toInt_blockSize hSize
  rw [Blocks.total_append, Blocks.total_cons, Blocks.total_nil, Nat.add_zero] at hFits
  have hTotal : (s.totalProcs + x.2).toInt = Blocks.total blockSize pre + blockSize x := by
    rw [Int32.toInt_add, h.total, ← hBlock]
    exact Int.bmod_eq_of_le (by omega) (by omega)
  have hBefore : toInt32 rank ≥ s.totalProcs ↔ Blocks.total blockSize pre ≤ rank := by
    rw [ge_iff_le, Int32.le_iff_toInt_le, toInt_toInt32_of_lt hRank, h.total]
    omega
  have hBehind : toInt32 rank ≥ s.totalProcs + x.2 ↔
      Blocks.total blockSize pre + blockSize x ≤ rank := by
    rw [ge_iff_le, Int32.le_iff_toInt_le, toInt_toInt32_of_lt hRank, hTotal]
    omega
  refine ⟨by simpa [Split.add] using hTotal, ?_, ?_⟩
  · intro name g
    simp only [Split.add, Std.ExtTreeMap.getElem?_insert, Std.LawfulEqCmp.compare_eq_iff_eq]
    split
    · rename_i hSame
      subst hSame
      rw [Option.some.injEq]
      constructor
      · rintro rfl
        exact ⟨pre, [], rfl, h.total⟩
      · rintro ⟨front, back, hSplit, hLeader⟩
        rcases ListSplit.concat_eq_append_cons.mp hSplit with ⟨rfl, hPair, -⟩ | ⟨back', -, hOld⟩
        · obtain ⟨leader, size⟩ := g
          obtain ⟨-, rfl⟩ := Prod.mk.inj hPair
          rw [← h.total] at hLeader
          exact congrArg (Group.mk · x.2) (Int32.toInt_inj.mp hLeader).symm
        · exact absurd (by simp [hOld]) hName
    · rename_i hOther
      rw [h.groups]
      constructor
      · rintro ⟨front, back, hSplit, hLeader⟩
        exact ⟨front, back ++ [x], by simp [hSplit], hLeader⟩
      · rintro ⟨front, back, hSplit, hLeader⟩
        rcases ListSplit.concat_eq_append_cons.mp hSplit with ⟨-, hPair, -⟩ | ⟨back', -, hOld⟩
        · exact absurd (congrArg Prod.fst hPair).symm hOther
        · exact ⟨front, back', hOld, hLeader⟩
  · simp only [Split.add, hBefore, hBehind]
    rcases h.place with ⟨hStart, hColor⟩ | ⟨front, y, ⟨⟨back, hSplit⟩, hStart, hStop⟩, hColor, hGroup⟩
    · by_cases hStop : Blocks.total blockSize pre + blockSize x ≤ rank
      · left
        simp [hStop, hColor]
      · right
        refine ⟨pre, x, ⟨⟨[], rfl⟩, hStart, by omega⟩, ?_, ?_⟩
        · rw [if_neg hStop, hColor]
        · rw [if_pos hStart]
    · -- the block was behind: both tests fail from here on
      have hLe : Blocks.total blockSize front + blockSize y ≤ Blocks.total blockSize pre := by
        rw [hSplit, Blocks.total_append, Blocks.total_cons]
        omega
      right
      refine ⟨front, y, ⟨⟨back ++ [x], by rw [hSplit]; simp⟩, hStart, hStop⟩, ?_, ?_⟩
      · rw [if_neg (by omega), hColor]
      · rw [if_neg (by omega), hGroup]

def blockEnds (start : Int32) : Vector → List Int32
  | [] => []
  | x :: procs => (start + x.2) :: blockEnds (start + x.2) procs

theorem color_split (rank : Int32) (procs : Vector) (s : Split) :
    (procs.foldl (Split.add rank) s).color =
      s.color + (blockEnds s.totalProcs procs).countP (· ≤ rank) := by
  induction procs generalizing s with
  | nil => rfl
  | cons x procs ih =>
    rw [List.foldl_cons, ih, blockEnds, List.countP_cons]
    simp only [Split.add, decide_eq_true_eq, ge_iff_le]
    split
    · omega
    · omega

structure Partition (procs : Vector) (size : Nat) : Prop where
  names : (procs.map Prod.fst).Nodup
  nonneg : ∀ x ∈ procs, 0 ≤ x.2.toInt
  sum : (procs.map fun x => x.2.toInt).sum = size

theorem total_eq_sum {procs : Vector} (hNonneg : ∀ x ∈ procs, 0 ≤ x.2.toInt) :
    (Blocks.total blockSize procs : Int) = (procs.map fun x => x.2.toInt).sum := by
  induction procs with
  | nil => rfl
  | cons x procs ih =>
    rw [List.forall_mem_cons] at hNonneg
    rw [Blocks.total_cons, List.map_cons, List.sum_cons, ← ih hNonneg.2, Int.natCast_add,
      toInt_blockSize hNonneg.1]

theorem Partition.total {procs : Vector} {size : Nat} (h : Partition procs size) :
    Blocks.total blockSize procs = size := by
  have hSum := total_eq_sum h.nonneg
  rw [h.sum] at hSum
  exact Int.ofNat_inj.mp hSum

theorem located_split {rank : Nat} (hRank : rank < 2 ^ 31) {procs : Vector}
    (hNames : (procs.map Prod.fst).Nodup) (hNonneg : ∀ x ∈ procs, 0 ≤ x.2.toInt)
    (hFits : Blocks.total blockSize procs < 2 ^ 31) :
    Located rank procs (split (toInt32 rank) procs) := by
  induction procs using List.reverseRecOn with
  | nil => exact Located.nil rank
  | append_singleton pre x ih =>
    rw [List.map_append, List.nodup_append] at hNames
    have hPre : ∀ y ∈ pre, 0 ≤ y.2.toInt := fun y hy => hNonneg y (List.mem_append_left _ hy)
    have hShorter : Blocks.total blockSize pre < 2 ^ 31 := by
      rw [Blocks.total_append] at hFits
      omega
    rw [split, List.foldl_append]
    refine (ih hNames.1 hPre hShorter).add hRank (hNonneg x (by simp)) ?_ hFits
    exact fun hMem => hNames.2.2 _ hMem x.1 (by simp) rfl

def Group.ranks (g : Group) : Set Int :=
  {rank | g.leader.toInt ≤ rank ∧ rank < g.leader.toInt + g.size.toInt}

/-- The level that a rank has after `extend` agrees with those of the other ranks. -/
structure ConsistentView (procs : Vector) (size rank : Nat) (l : Level) : Prop where
  color : procs[l.color]?.map Prod.fst = some l.group
  own : ∃ leader n, l.leader l.group = some leader ∧ l.size l.group = some n ∧
    leader.toInt ≤ rank ∧ rank < leader.toInt + n.toInt ∧
    l.localComm.length = n.toInt ∧ l.localRank rank = rank - leader.toInt
  disjoint : ∀ (name name' : StdString) (g g' : Group), l.groups[name]? = some g →
    l.groups[name']? = some g' → name ≠ name' → g.ranks ∩ g'.ranks = ∅
  cover : ∀ r < size, ∃ (name : StdString) (g : Group),
    l.groups[name]? = some g ∧ (r : Int) ∈ g.ranks
  leader : l.isLeader (toInt32 rank) = true ↔ l.localRank rank = 0

section View

variable {procs : Vector} {size rank : Nat} {s : Split} {front : Vector} {x : StdString × Int32}

theorem Located.at (h : Located rank procs s) (hRank : rank < Blocks.total blockSize procs) :
    ∃ front x, Blocks.At blockSize procs front x rank ∧ s.color = front.length ∧
      s.group = x.1 :=
  h.place.resolve_left fun hBehind => Nat.not_le_of_lt hRank hBehind.1

theorem Located.group_at (h : Located rank procs s) (hFits : Blocks.total blockSize procs < 2 ^ 31)
    {r : Nat} (hAt : Blocks.At blockSize procs front x r) :
    s.groups[x.1]? = some ⟨toInt32 (Blocks.total blockSize front), x.2⟩ ∧
      (toInt32 (Blocks.total blockSize front)).toInt = Blocks.total blockSize front := by
  obtain ⟨⟨post, hSplit⟩, -, -⟩ := hAt
  have hLeader : (toInt32 (Blocks.total blockSize front)).toInt = Blocks.total blockSize front := by
    apply toInt_toInt32_of_lt
    rw [hSplit, Blocks.total_append] at hFits
    omega
  exact ⟨(h.groups _ _).mpr ⟨front, post, hSplit, hLeader⟩, hLeader⟩

theorem mem_ranks (hLeader : (toInt32 (Blocks.total blockSize front)).toInt =
    Blocks.total blockSize front) (hNonneg : ∀ x ∈ procs, 0 ≤ x.2.toInt)
    (hAt : Blocks.At blockSize procs front x rank) :
    (rank : Int) ∈ Group.ranks ⟨toInt32 (Blocks.total blockSize front), x.2⟩ := by
  obtain ⟨⟨post, hSplit⟩, hStart, hStop⟩ := hAt
  have hBlock := toInt_blockSize (hNonneg x (by simp [hSplit]))
  rw [Group.ranks, Set.mem_ofPred_eq, hLeader]
  dsimp only
  omega

theorem color_eq_iff {rank' : Nat} {front' : Vector} {x' : StdString × Int32}
    (hAt : Blocks.At blockSize procs front x rank)
    (hAt' : Blocks.At blockSize procs front' x' rank') :
    front'.length = front.length ↔ Blocks.total blockSize front ≤ rank' ∧
      rank' < Blocks.total blockSize front + blockSize x := by
  constructor
  · intro hLength
    obtain ⟨⟨post, hSplit⟩, -, -⟩ := hAt
    obtain ⟨⟨post', hSplit'⟩, hStart, hStop⟩ := hAt'
    obtain ⟨rfl, hTail⟩ := List.append_inj (hSplit'.symm.trans hSplit) hLength
    obtain ⟨rfl, -⟩ := List.cons.inj hTail
    exact ⟨hStart, hStop⟩
  · rintro ⟨hStart, hStop⟩
    obtain ⟨rfl, -⟩ := Blocks.At.unique hAt' ⟨hAt.split, hStart, hStop⟩
    rfl

theorem Located.ranks_of_group (h : Located rank procs s) (hNonneg : ∀ x ∈ procs, 0 ≤ x.2.toInt)
    {name : StdString} {g : Group} (hGroup : s.groups[name]? = some g) :
    ∃ front back, procs = front ++ (name, g.size) :: back ∧
      g.ranks = {r : Int | Blocks.total blockSize front ≤ r ∧
        r < Blocks.total blockSize front + blockSize (name, g.size)} ∧
      g.leader.toInt = Blocks.total blockSize front := by
  obtain ⟨front, back, hSplit, hLeader⟩ := (h.groups _ _).mp hGroup
  refine ⟨front, back, hSplit, ?_, hLeader⟩
  rw [Group.ranks, hLeader, toInt_blockSize (hNonneg _ (by simp [hSplit]))]

theorem comm_eq_range (hFits : Blocks.total blockSize procs < 2 ^ 31)
    (hLocated : ∀ r < 2 ^ 31, Located r procs (split (toInt32 r) procs)) {comm : Nat → List Nat}
    (hComm : CommSplit (Blocks.total blockSize procs) (fun r => (split (toInt32 r) procs).color)
      (fun _ => 0) comm)
    (hRank : rank < Blocks.total blockSize procs) (hAt : Blocks.At blockSize procs front x rank)
    (hColor : (split (toInt32 rank) procs).color = front.length) :
    comm rank = List.range' (Blocks.total blockSize front) (blockSize x) := by
  refine List.Pairwise.eq_of_mem_iff (r := (· < ·)) ?_ List.pairwise_lt_range' fun r => ?_
  · exact (hComm.ordered rank hRank).imp fun h => (h.resolve_left (by simp)).2
  · rw [hComm.mem rank hRank, hColor, List.mem_range'_1]
    constructor
    · rintro ⟨hr, hSame⟩
      obtain ⟨front', x', hAt', hColor', -⟩ := (hLocated r (by omega)).at hr
      exact (color_eq_iff hAt hAt').mp (hColor' ▸ hSame)
    · intro hBlock
      have hStop : Blocks.total blockSize front + blockSize x ≤ Blocks.total blockSize procs := by
        obtain ⟨⟨post, hSplit⟩, -, -⟩ := hAt
        rw [hSplit, Blocks.total_append, Blocks.total_cons]
        omega
      have hr : r < Blocks.total blockSize procs := by omega
      obtain ⟨front', x', hAt', hColor', -⟩ := (hLocated r (by omega)).at hr
      exact ⟨hr, hColor' ▸ (color_eq_iff hAt hAt').mpr hBlock⟩

theorem idxOf_range' {start n r : Nat} (hStart : start ≤ r) (hStop : r < start + n) :
    (List.range' start n).idxOf r = r - start := by
  have hLt : r - start < (List.range' start n).length := by
    rw [List.length_range']
    omega
  have hGet : (List.range' start n)[r - start] = r := by
    rw [List.getElem_range']
    omega
  conv_lhs => rw [← hGet]
  exact List.Nodup.idxOf_getElem List.nodup_range' _ hLt

theorem Level.isLeader_iff {l : Level} {r : Int32} :
    l.isLeader r = true ↔ ∃ (name : StdString) (g : Group), l.groups[name]? = some g ∧
      g.leader = r := by
  simp only [Level.isLeader, List.any_eq_true, Prod.exists, beq_iff_eq,
    Std.ExtTreeMap.mem_toList_iff_getElem?_eq_some]

theorem Located.isLeader_iff {l : Level} (h : Located rank procs s) (hGroups : l.groups = s.groups)
    (hFits : Blocks.total blockSize procs < 2 ^ 31)
    (hNonneg : ∀ x ∈ procs, 0 ≤ x.2.toInt) (hAt : Blocks.At blockSize procs front x rank)
    (hRank : rank < 2 ^ 31) :
    l.isLeader (toInt32 rank) = true ↔ rank = Blocks.total blockSize front := by
  rw [Level.isLeader_iff, hGroups]
  have hOwn := h.group_at hFits hAt
  obtain ⟨⟨post, hSplit⟩, hStart, hStop⟩ := hAt
  constructor
  · rintro ⟨name, g, hGroup, hLeader⟩
    obtain ⟨front', back', hSplit', -, hFirst⟩ := h.ranks_of_group hNonneg hGroup
    rw [hLeader, toInt_toInt32_of_lt hRank] at hFirst
    -- a group that starts at `rank` is not behind its block; in front of it, it is empty
    rcases Blocks.behind_or_eq blockSize hSplit hSplit' with ⟨rfl, -⟩ | hBehind | hBefore
    · omega
    · omega
    · omega
  · intro hFirst
    exact ⟨x.1, _, hOwn.1, by rw [hFirst]⟩

end View

/-- On every rank of a world that the groups cut up, empty groups anywhere included, `extend`
finds the group whose block has the rank, and the local communicator is that block. -/
theorem consistent_view_of_partition {procs : Vector} {size : Nat} (h : Partition procs size)
    (hSize : size < 2 ^ 31) {commSplit : Nat → Nat → Int32 → List Nat}
    (hComm : CommSplit size (fun r => (split (toInt32 r) procs).color) (fun _ => 0)
      (fun r => commSplit r (split (toInt32 r) procs).color 0))
    {rank : Nat} (hRank : rank < size) :
    ∃ l, extend (commSplit rank) (toInt32 rank) (toInt32 size) procs = .ok l ∧
      ConsistentView procs size rank l := by
  have hTotal := h.total
  subst hTotal
  have hLocated : ∀ r < 2 ^ 31, Located r procs (split (toInt32 r) procs) :=
    fun r hr => located_split hr h.names h.nonneg hSize
  have hHere := hLocated rank (by omega)
  obtain ⟨front, x, hAt, hColor, hGroup⟩ := hHere.at hRank
  have hOwn := hHere.group_at hSize hAt
  have hCommEq := comm_eq_range hSize hLocated hComm hRank hAt hColor
  have hMem : x ∈ procs := by
    obtain ⟨⟨post, hSplit⟩, -, -⟩ := hAt
    simp [hSplit]
  have hBlock := toInt_blockSize (h.nonneg x hMem)
  have hStart := hAt.start_le
  have hStop := hAt.lt_stop
  have hMatch : (split (toInt32 rank) procs).totalProcs =
      toInt32 (Blocks.total blockSize procs) := by
    rw [← Int32.toInt_inj, hHere.total, toInt_toInt32_of_lt hSize]
  have hLocal : (List.range' (Blocks.total blockSize front) (blockSize x)).idxOf rank =
      rank - Blocks.total blockSize front := idxOf_range' hStart hStop
  refine ⟨_, by rw [extend, if_neg (not_not.mpr hMatch)], ?_, ?_, ?_, ?_, ?_⟩
  · obtain ⟨⟨post, hSplit⟩, -, -⟩ := hAt
    dsimp only
    rw [hColor, hGroup, hSplit, List.getElem?_append_right (Nat.le_refl _), Nat.sub_self]
    rfl
  · have hRanks := mem_ranks hOwn.2 h.nonneg hAt
    refine ⟨_, _, ?_, ?_, hRanks.1, hRanks.2, ?_, ?_⟩
    · rw [Level.leader, hGroup, hOwn.1, Option.map_some]
    · rw [Level.size, hGroup, hOwn.1, Option.map_some]
    · dsimp only
      rw [hCommEq, List.length_range', hBlock]
    · dsimp only [Level.localRank]
      rw [hCommEq, hLocal, hOwn.2]
      omega
  · intro name name' g g' hg hg' hNe
    obtain ⟨front₁, back₁, hSplit₁, hRanks₁, -⟩ := hHere.ranks_of_group h.nonneg hg
    obtain ⟨front₂, back₂, hSplit₂, hRanks₂, -⟩ := hHere.ranks_of_group h.nonneg hg'
    rw [hRanks₁, hRanks₂, Set.eq_empty_iff_forall_notMem]
    rintro r ⟨⟨hStart₁, hStop₁⟩, hStart₂, hStop₂⟩
    rcases Blocks.behind_or_eq blockSize hSplit₁ hSplit₂ with ⟨-, hSame⟩ | hBehind | hBehind
    · exact absurd (congrArg Prod.fst hSame) hNe
    · omega
    · omega
  · intro r hr
    obtain ⟨front', x', hAt', -, -⟩ := (hLocated r (by omega)).at hr
    obtain ⟨hGroup', hLeader'⟩ := hHere.group_at hSize hAt'
    exact ⟨x'.1, _, hGroup', mem_ranks hLeader' h.nonneg hAt'⟩
  · rw [hHere.isLeader_iff rfl hSize h.nonneg hAt (by omega)]
    dsimp only [Level.localRank]
    rw [hCommEq, hLocal]
    omega

def ranksOfColor (size : Nat) (color : Nat → Nat) (c : Nat) : List Nat :=
  (List.range size).filter (color · = c)

theorem commSplit_ranksOfColor (size : Nat) (color : Nat → Nat) :
    CommSplit size color (fun _ => 0) fun r => ranksOfColor size color (color r) where
  mem rank _ r := by simp [ranksOfColor]
  ordered rank _ := by
    have hRange : (List.range size).Pairwise (· < ·) := List.pairwise_lt_range
    exact (hRange.filter _).imp fun h => .inr ⟨rfl, h⟩

theorem consistent_view_of_partition_run :
    ∃ l, l.localComm = [2] ∧
      ConsistentView [(⟨[97]⟩, 0), (⟨[98]⟩, 2), (⟨[99]⟩, 0), (⟨[100]⟩, 1), (⟨[101]⟩, 0)] 3 2 l := by
  let procs : Vector := [(⟨[97]⟩, 0), (⟨[98]⟩, 2), (⟨[99]⟩, 0), (⟨[100]⟩, 1), (⟨[101]⟩, 0)]
  let color : Nat → Nat := fun r => (split (toInt32 r) procs).color
  have hPartition : Partition procs 3 := ⟨by decide, by decide, by decide⟩
  have hRank : 2 < 3 := by decide
  obtain ⟨l, hl, hView⟩ := @consistent_view_of_partition procs 3 hPartition (by decide)
    (fun _ c _ => ranksOfColor 3 color c) (commSplit_ranksOfColor 3 color) 2 hRank
  have hComm : (extend (fun c _ => ranksOfColor 3 color c) (toInt32 2) (toInt32 3) procs).toOption.map
      Level.localComm = some [2] := by decide
  rw [hl] at hComm
  exact ⟨l, Option.some.inj hComm, hView⟩

end ProcMap

end Henson
