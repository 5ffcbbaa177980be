import Henson.Procs.Levels

/-!
# The ranks of a world

Behind `extend` the ranks of a group have one communicator, which is its block, and all
ranks have the same groups. The groups are in the order of their leaders.
-/

namespace Henson.ProcMap

open MachineInt

/-- The ranks of a world behind their `extend`, each with the levels it had before. -/
structure Ranks where
  procs : Vector
  size : Nat
  partition : Partition procs size
  fits : size < 2 ^ 31
  commSplit : Nat → Nat → Int32 → List Nat
  splits : CommSplit size (fun r => (split (toInt32 r) procs).color) (fun _ => 0)
    fun r => commSplit r (split (toInt32 r) procs).color 0
  outer : Nat → Levels

namespace Ranks

variable (w : Ranks)

def comm (r : Nat) : List Nat :=
  if r < w.size then w.commSplit r (split (toInt32 r) w.procs).color 0 else []

/-- The level that `extend` makes on a rank. -/
def level (r : Nat) : Level where
  localComm := w.comm r
  groups := (split (toInt32 r) w.procs).groups
  color := (split (toInt32 r) w.procs).color
  group := (split (toInt32 r) w.procs).group

def world (r : Nat) (h : r < w.size) : World where
  rank := toInt32 r
  size := toInt32 w.size
  commSplit := w.commSplit r
  rank_nonneg := by
    have hFits := w.fits
    rw [Int32.le_iff_toInt_le, toInt_toInt32_of_lt (by omega)]
    exact Int.natCast_nonneg r
  rank_lt := by
    have hFits := w.fits
    rw [Int32.lt_iff_toInt_lt, toInt_toInt32_of_lt (by omega), toInt_toInt32_of_lt hFits]
    exact Int.ofNat_lt.mpr h

def start (r : Nat) : Levels :=
  if h : r < w.size then (w.outer r).extend (w.world r h) w.procs else {}

def leaderOf (name : StdString) : Option Int32 :=
  (split 0 w.procs).groups[name]?.map Group.leader

variable {w} {r r' a b : Nat}

theorem located (hr : r < w.size) : Located r w.procs (split (toInt32 r) w.procs) := by
  have hFits := w.fits
  exact located_split (by omega) w.partition.names w.partition.nonneg
    (w.partition.total ▸ w.fits)

theorem comm_at (hr : r < w.size) : ∃ front x, Blocks.At blockSize w.procs front x r ∧
    w.comm r = List.range' (Blocks.total blockSize front) (blockSize x) ∧
    (w.level r).group = x.1 := by
  have hTotal := w.partition.total
  have hFits : Blocks.total blockSize w.procs < 2 ^ 31 := hTotal ▸ w.fits
  obtain ⟨front, x, hAt, hColor, hGroup⟩ := (w.located hr).at (hTotal ▸ hr)
  have hAll : ∀ r < 2 ^ 31, Located r w.procs (split (toInt32 r) w.procs) :=
    fun r hr => located_split hr w.partition.names w.partition.nonneg hFits
  refine ⟨front, x, hAt, ?_, hGroup⟩
  rw [comm, if_pos hr]
  exact comm_eq_range hFits hAll (hTotal ▸ w.splits) (hTotal ▸ hr) hAt hColor

theorem lt_of_mem_comm (h : r' ∈ w.comm r) : r < w.size ∧ r' < w.size := by
  have hr : r < w.size := by
    by_contra hNot
    rw [comm, if_neg hNot] at h
    cases h
  rw [comm, if_pos hr] at h
  exact ⟨hr, ((w.splits.mem r hr r').mp h).1⟩

theorem self_mem_comm (hr : r < w.size) : r ∈ w.comm r := by
  rw [comm, if_pos hr]
  exact (w.splits.mem r hr r).mpr ⟨hr, rfl⟩

theorem comm_eq_of_mem (h : r' ∈ w.comm r) : w.comm r' = w.comm r := by
  obtain ⟨hr, hr'⟩ := lt_of_mem_comm h
  obtain ⟨front, x, hAt, hComm, -⟩ := comm_at hr
  obtain ⟨front', x', hAt', hComm', -⟩ := comm_at hr'
  rw [hComm, List.mem_range'_1] at h
  obtain ⟨rfl, rfl⟩ := hAt'.unique ⟨hAt.split, h.1, h.2⟩
  rw [hComm, hComm']

theorem mem_comm_symm (h : r' ∈ w.comm r) : r ∈ w.comm r' :=
  comm_eq_of_mem h ▸ self_mem_comm (lt_of_mem_comm h).1

variable (w) in
def IsLeader (a : Nat) : Prop := (w.comm a).head? = some a

instance (a : Nat) : Decidable (w.IsLeader a) := inferInstanceAs (Decidable (_ = _))

theorem IsLeader.mem (h : w.IsLeader a) : a ∈ w.comm a := List.mem_of_mem_head? h

theorem IsLeader.lt (h : w.IsLeader a) : a < w.size := (lt_of_mem_comm h.mem).1

theorem IsLeader.unique (ha : w.IsLeader a) (hb : w.IsLeader b) (hra : r ∈ w.comm a)
    (hrb : r ∈ w.comm b) : a = b := by
  have hSame : w.comm a = w.comm b := (comm_eq_of_mem hra).symm.trans (comm_eq_of_mem hrb)
  exact Option.some.inj (ha.symm.trans (hSame ▸ hb))

theorem exists_leader (hr : r < w.size) : ∃ a, w.IsLeader a ∧ r ∈ w.comm a := by
  have hSelf := self_mem_comm hr
  obtain ⟨a, rest, hComm⟩ := List.exists_cons_of_ne_nil (List.ne_nil_of_mem hSelf)
  have ha : a ∈ w.comm r := hComm ▸ List.mem_cons_self
  refine ⟨a, ?_, mem_comm_symm ha⟩
  rw [IsLeader, comm_eq_of_mem ha, hComm, List.head?_cons]

theorem IsLeader.eq_total (ha : w.IsLeader a) (hr : r ∈ w.comm a) {front : Vector}
    {x : StdString × Int32} (hAt : Blocks.At blockSize w.procs front x r) :
    a = Blocks.total blockSize front := by
  obtain ⟨front', x', hAt', hComm, -⟩ := comm_at (lt_of_mem_comm hr).2
  obtain ⟨rfl, rfl⟩ := hAt'.unique hAt
  have hStart := hAt.start_le
  have hStop := hAt.lt_stop
  obtain ⟨n, hn⟩ := Nat.exists_eq_succ_of_ne_zero (show blockSize x' ≠ 0 by omega)
  have hHead : (w.comm r).head? = some a := comm_eq_of_mem hr ▸ ha
  rw [hComm, hn, List.range'_succ, List.head?_cons] at hHead
  exact (Option.some.inj hHead).symm

theorem IsLeader.comm_lt (ha : w.IsLeader a) (hb : w.IsLeader b) (hLt : a < b) (hr : r ∈ w.comm a)
    (hr' : r' ∈ w.comm b) : r < r' := by
  obtain ⟨front, x, hAt, -, -⟩ := comm_at (lt_of_mem_comm hr).2
  obtain ⟨front', x', hAt', -, -⟩ := comm_at (lt_of_mem_comm hr').2
  obtain ⟨post, hSplit⟩ := hAt.split
  obtain ⟨post', hSplit'⟩ := hAt'.split
  have hFirst := ha.eq_total hr hAt
  have hFirst' := hb.eq_total hr' hAt'
  have hStart := hAt.start_le
  have hStop := hAt.lt_stop
  have hStart' := hAt'.start_le
  have hStop' := hAt'.lt_stop
  rcases Blocks.behind_or_eq blockSize hSplit hSplit' with ⟨rfl, -⟩ | hBehind | hBehind
  · omega
  · omega
  · omega

theorem getElem_groups (hr : r < w.size) (name : StdString) :
    (w.level r).groups[name]? = (split 0 w.procs).groups[name]? := by
  have hFirst : Located 0 w.procs (split (toInt32 0) w.procs) :=
    w.located (Nat.lt_of_le_of_lt (Nat.zero_le r) hr)
  refine Option.ext fun g => ?_
  exact ((w.located hr).groups name g).trans (hFirst.groups name g).symm

theorem level_leader (hr : r < w.size) (name : StdString) :
    (w.level r).leader name = w.leaderOf name := by
  rw [Level.leader, getElem_groups hr, leaderOf]

theorem leader_own (ha : w.IsLeader a) (hr : r ∈ w.comm a) :
    w.leaderOf (w.level r).group = some (toInt32 a) := by
  have hrSize := (lt_of_mem_comm hr).2
  obtain ⟨front, x, hAt, hComm, hGroup⟩ := comm_at hrSize
  have hFits : Blocks.total blockSize w.procs < 2 ^ 31 := w.partition.total ▸ w.fits
  have hEntry : (w.level r).groups[x.1]? = some ⟨toInt32 (Blocks.total blockSize front), x.2⟩ :=
    ((w.located hrSize).group_at hFits hAt).1
  rw [← level_leader hrSize, Level.leader, hGroup, hEntry, Option.map_some, ← ha.eq_total hr hAt]

theorem mem_comm_of_group {name : StdString} {g : Group} (hr : r < w.size)
    (hGroup : (w.level r).groups[name]? = some g) (hSize : 0 < g.size.toInt)
    (hLeader : g.leader = toInt32 b) (hb : b < w.size) (q : Nat) :
    q ∈ w.comm b ↔ (q : Int) ∈ g.ranks := by
  obtain ⟨front, back, hSplit, hRanks, hFirst⟩ :=
    (w.located hr).ranks_of_group w.partition.nonneg hGroup
  have hFits := w.fits
  rw [hLeader, toInt_toInt32_of_lt (by omega)] at hFirst
  have hFirst : b = Blocks.total blockSize front := Int.ofNat_inj.mp hFirst
  obtain ⟨front', x, hAt, hComm, -⟩ := comm_at hb
  have hPos : 0 < blockSize (name, g.size) := by
    have hBlock : (blockSize (name, g.size) : Int) = g.size.toInt :=
      toInt_blockSize (Int.le_of_lt hSize)
    omega
  obtain ⟨rfl, rfl⟩ := hAt.unique ⟨⟨back, hSplit⟩, by omega, by omega⟩
  rw [hComm, List.mem_range'_1, hRanks, Set.mem_ofPred_eq]
  omega

theorem toInt32_injective (ha : a < w.size) (hb : b < w.size) (h : toInt32 a = toInt32 b) :
    a = b := by
  have hFits := w.fits
  have hInt := congrArg Int32.toInt h
  rw [toInt_toInt32_of_lt (by omega), toInt_toInt32_of_lt (by omega)] at hInt
  exact Int.ofNat_inj.mp hInt

theorem toInt32_lt_iff (ha : a < w.size) (hb : b < w.size) : toInt32 a < toInt32 b ↔ a < b := by
  have hFits := w.fits
  rw [Int32.lt_iff_toInt_lt, toInt_toInt32_of_lt (by omega), toInt_toInt32_of_lt (by omega), Int.ofNat_lt]

theorem pairwise_comm (r : Nat) : (w.comm r).Pairwise (· < ·) := by
  by_cases hr : r < w.size
  · obtain ⟨front, x, -, hComm, -⟩ := comm_at hr
    rw [hComm]
    exact List.pairwise_lt_range'
  · rw [comm, if_neg hr]
    exact List.Pairwise.nil

theorem start_eq (hr : r < w.size) : w.start r = { w.outer r with
    stack := { toLevel := w.level r, number := (w.outer r).pushed } :: (w.outer r).stack
    pushed := (w.outer r).pushed + 1 } := by
  have hTotal : (split (toInt32 r) w.procs).totalProcs = toInt32 w.size := by
    rw [← Int32.toInt_inj, (w.located hr).total, toInt_toInt32_of_lt w.fits, w.partition.total]
  have hExtend : ProcMap.extend (w.commSplit r) (toInt32 r) (toInt32 w.size) w.procs =
      .ok (w.level r) := by
    rw [ProcMap.extend, if_neg (not_not.mpr hTotal), level, comm, if_pos hr]
  rw [start, dif_pos hr, Levels.extend, world, hExtend]

end Ranks

end Henson.ProcMap
