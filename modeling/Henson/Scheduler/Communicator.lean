import Mathlib.Algebra.GroupWithZero.Nat
import Mathlib.Algebra.Order.BigOperators.Group.List
import Mathlib.Algebra.Order.Group.Nat
import Mathlib.Data.List.Nodup
import Mathlib.Data.List.Range
import Henson.Library.TransitionSystem

/-!
# Creating a communicator without the other ranks

Every member of a group runs `non_collective_comm_create` on its own, starting
from a communicator of itself alone. A member is known by its rank in the group,
a communicator by the list of its members; leaders name each other by ranks of
the parent communicator. A member that merges waits for all members of both
sides, a member that skips a round does not wait for anybody.
-/

namespace Henson

open TransitionSystem

/-- A group, by the parent's ranks of its members (`translated_ranks`). -/
structure RankGroup where
  ranks : List Nat
  nodup : ranks.Nodup
  length_le : ranks.length ≤ 2 ^ 30

/-- What a member does in a round: nothing, or `MPI_Intercomm_create` with a remote leader
and then `MPI_Intercomm_merge`. -/
inductive MergeCall where
  | skip
  | create (remoteLeader : Nat) (high : Bool)
  deriving DecidableEq

def MergeCall.high? : MergeCall → Option Bool
  | skip => none
  | create _ high => some high

namespace RankGroup

def size (G : RankGroup) : Nat := G.ranks.length

/-- The branches of the loop body; `none` for an index outside of `translated_ranks`. -/
def branch (G : RankGroup) (groupRank mergeSize : Nat) : Option MergeCall :=
  let grpId := groupRank / mergeSize
  if grpId % 2 = 0 then
    if (grpId + 1) * mergeSize < G.size then
      G.ranks[(grpId + 1) * mergeSize]?.map fun leader => .create leader false
    else some .skip
  else G.ranks[(grpId - 1) * mergeSize]?.map fun leader => .create leader true

end RankGroup

structure Member where
  mergeSize : Nat
  comm : List Nat

abbrev Members := Nat → Member

inductive MergeAction where
  | skip (groupRank : Nat)
  | join (low high : Nat)

namespace Members

def inLoop (G : RankGroup) (s : Members) (g : Nat) : Prop := (s g).mergeSize < G.size

instance (G : RankGroup) (s : Members) (g : Nat) : Decidable (s.inLoop G g) :=
  inferInstanceAs (Decidable (_ < _))

def call (G : RankGroup) (s : Members) (g : Nat) : Option MergeCall :=
  G.branch g (s g).mergeSize

/-- All members of the communicator of `leader` create an intercommunicator and pass `high` to
the merge, and `leader`, its first member, names `remote`. -/
structure Offers (G : RankGroup) (s : Members) (leader remote : Nat) (high : Bool) : Prop where
  first : (s leader).comm.head? = some leader
  names : ∃ rank, G.ranks[remote]? = some rank ∧ s.call G leader = some (.create rank high)
  all : ∀ g ∈ (s leader).comm, g < G.size ∧ s.inLoop G g ∧ (s g).comm = (s leader).comm ∧
    (s.call G g).bind MergeCall.high? = some high

def offers (G : RankGroup) (s : Members) (leader remote : Nat) (high : Bool) : Bool :=
  (s leader).comm.head? = some leader ∧
    ((G.ranks[remote]?).any fun rank => s.call G leader = some (.create rank high)) ∧
    ∀ g ∈ (s leader).comm, g < G.size ∧ s.inLoop G g ∧ (s g).comm = (s leader).comm ∧
      (s.call G g).bind MergeCall.high? = some high

theorem offers_iff {G : RankGroup} {s : Members} {leader remote : Nat} {high : Bool} :
    s.offers G leader remote high = true ↔ s.Offers G leader remote high := by
  simp only [offers, decide_eq_true_eq, Option.any_eq_true]
  exact ⟨fun ⟨h₁, h₂, h₃⟩ => ⟨h₁, h₂, h₃⟩, fun ⟨h₁, h₂, h₃⟩ => ⟨h₁, h₂, h₃⟩⟩

def merge (s : Members) (merged : List Nat) : Members :=
  fun g => if g ∈ merged then ⟨(s g).mergeSize * 2, merged⟩ else s g

theorem mergeSize_merge (s : Members) (merged : List Nat) (g : Nat) :
    (s.merge merged g).mergeSize =
      if g ∈ merged then (s g).mergeSize * 2 else (s g).mergeSize :=
  apply_ite Member.mergeSize _ _ _

theorem comm_merge (s : Members) (merged : List Nat) (g : Nat) :
    (s.merge merged g).comm = if g ∈ merged then merged else (s g).comm :=
  apply_ite Member.comm _ _ _

theorem mergeSize_le_merge (s : Members) (merged : List Nat) (g : Nat) :
    (s g).mergeSize ≤ (s.merge merged g).mergeSize := by
  rw [mergeSize_merge]
  split <;> omega

def step (G : RankGroup) (s : Members) : MergeAction → Option Members
  | .skip g =>
    if g < G.size ∧ s.inLoop G g ∧ s.call G g = some .skip then
      some (Function.update s g { s g with mergeSize := (s g).mergeSize * 2 })
    else none
  | .join low high =>
    if s.offers G low high false && s.offers G high low true then
      some (s.merge ((s low).comm ++ (s high).comm))
    else none

end Members

def mergeMachine (G : RankGroup) : Machine Members MergeAction where
  initial g := ⟨1, [g]⟩
  step := Members.step G

namespace RankGroup

variable {G : RankGroup} {g g' m q : Nat}

def block (G : RankGroup) (m q : Nat) : List Nat := List.range' (q * m) (min m (G.size - q * m))

theorem mem_block (hm : 0 < m) : g ∈ G.block m q ↔ g < G.size ∧ g / m = q := by
  rw [block, List.mem_range'_1, Nat.div_eq_iff hm, Nat.mul_comm q m]
  omega

theorem block_append (hq : q % 2 = 0) (hPair : (q + 1) * m < G.size) :
    G.block m q ++ G.block m (q + 1) = G.block (m * 2) (q / 2) := by
  have hDouble : q / 2 * (m * 2) = q * m := by
    rw [Nat.mul_comm m 2, ← Nat.mul_assoc, Nat.div_mul_cancel (Nat.dvd_of_mod_eq_zero hq)]
  rw [Nat.add_mul, Nat.one_mul] at hPair
  have hFull : min m (G.size - q * m) = m := Nat.min_eq_left (by omega)
  rw [block, block, block, hDouble, hFull, Nat.add_mul, Nat.one_mul, List.range'_append_1]
  congr 1
  omega

theorem block_alone (hq : q % 2 = 0) (hAlone : G.size ≤ (q + 1) * m) :
    G.block m q = G.block (m * 2) (q / 2) := by
  have hDouble : q / 2 * (m * 2) = q * m := by
    rw [Nat.mul_comm m 2, ← Nat.mul_assoc, Nat.div_mul_cancel (Nat.dvd_of_mod_eq_zero hq)]
  rw [Nat.add_mul, Nat.one_mul] at hAlone
  rw [block, block, hDouble]
  congr 1
  omega

theorem block_all (hm : G.size ≤ m) : G.block m 0 = List.range G.size := by
  rw [block, Nat.zero_mul, Nat.sub_zero, Nat.min_eq_right hm, List.range_eq_range']

theorem getElem?_ranks_inj {i j r : Nat} (hi : G.ranks[i]? = some r) (hj : G.ranks[j]? = some r) :
    i = j := by
  obtain ⟨hiLt, hi⟩ := List.getElem?_eq_some_iff.mp hi
  obtain ⟨hjLt, hj⟩ := List.getElem?_eq_some_iff.mp hj
  exact G.nodup.getElem_inj_iff.mp (hi.trans hj.symm)

theorem branch_of_block (G : RankGroup) {m g g' : Nat} (h : g / m = g' / m) :
    G.branch g m = G.branch g' m := by
  rw [branch, branch, h]

theorem branch_cases (hg : g < G.size) :
    (g / m % 2 = 0 ∧ G.size ≤ (g / m + 1) * m ∧ G.branch g m = some .skip) ∨
    (g / m % 2 = 0 ∧ (g / m + 1) * m < G.size ∧ ∃ leader,
      G.ranks[(g / m + 1) * m]? = some leader ∧ G.branch g m = some (.create leader false)) ∨
    (g / m % 2 = 1 ∧ ∃ leader,
      G.ranks[(g / m - 1) * m]? = some leader ∧ G.branch g m = some (.create leader true)) := by
  simp only [branch]
  by_cases hEven : g / m % 2 = 0
  · by_cases hPair : (g / m + 1) * m < G.size
    · have hIndex := List.getElem?_eq_getElem hPair
      refine .inr (.inl ⟨hEven, hPair, _, hIndex, ?_⟩)
      rw [if_pos hEven, if_pos hPair, hIndex]
      rfl
    · refine .inl ⟨hEven, Nat.not_lt.mp hPair, ?_⟩
      rw [if_pos hEven, if_neg hPair]
  · have hLess : (g / m - 1) * m < G.size := by
      have hLe := Nat.mul_le_mul_right m (Nat.sub_le (g / m) 1)
      have hDiv := Nat.div_mul_le_self g m
      omega
    have hIndex := List.getElem?_eq_getElem hLess
    refine .inr (.inr ⟨by omega, _, hIndex, ?_⟩)
    rw [if_neg hEven, hIndex]
    rfl

def Paired (G : RankGroup) (m g : Nat) : Prop := (g / m / 2 * 2 + 1) * m < G.size

theorem paired_of_create (hg : g < G.size) {rank : Nat} {high : Bool}
    (h : G.branch g m = some (.create rank high)) : G.Paired m g := by
  rcases branch_cases (m := m) hg with ⟨-, -, hSkip⟩ | ⟨hEven, hPair, -⟩ | ⟨hOdd, -⟩
  · rw [hSkip] at h
    cases h
  · rwa [Paired, Nat.div_mul_cancel (Nat.dvd_of_mod_eq_zero hEven)]
  · have hHalf : g / m / 2 * 2 + 1 = g / m := by omega
    rw [Paired, hHalf]
    exact Nat.lt_of_le_of_lt (Nat.div_mul_le_self g m) hg

theorem not_paired_of_skip (hg : g < G.size) (h : G.branch g m = some .skip) :
    ¬ G.Paired m g := by
  rcases branch_cases (m := m) hg with ⟨hEven, hAlone, -⟩ | ⟨-, -, _, -, hCreate⟩ |
    ⟨-, _, -, hCreate⟩
  · rw [Paired, Nat.div_mul_cancel (Nat.dvd_of_mod_eq_zero hEven)]
    omega
  · rw [hCreate] at h
    cases h
  · rw [hCreate] at h
    cases h

theorem branch_eq_create (hg : g < G.size) {remote rank : Nat} {high : Bool}
    (hRemote : G.ranks[remote]? = some rank) (h : G.branch g m = some (.create rank high)) :
    (high = false ∧ g / m % 2 = 0 ∧ remote = (g / m + 1) * m) ∨
      (high = true ∧ g / m % 2 = 1 ∧ remote = (g / m - 1) * m) := by
  rcases branch_cases (m := m) hg with ⟨-, -, hSkip⟩ | ⟨hEven, -, _, hLeader, hCreate⟩ |
    ⟨hOdd, _, hLeader, hCreate⟩
  · rw [hSkip] at h
    cases h
  · rw [hCreate] at h
    cases h
    exact .inl ⟨rfl, hEven, getElem?_ranks_inj hRemote hLeader⟩
  · rw [hCreate] at h
    cases h
    exact .inr ⟨rfl, hOdd, getElem?_ranks_inj hRemote hLeader⟩

end RankGroup

structure Members.Inv (G : RankGroup) (s : Members) : Prop where
  power : ∀ g < G.size, ∃ k, (s g).mergeSize = 2 ^ k
  comm : ∀ g < G.size, (s g).comm = G.block (s g).mergeSize (g / (s g).mergeSize)
  /-- Two blocks that have a neighbour leave the round of their merge together. -/
  sync : ∀ g < G.size, ∀ g' < G.size, ∀ k, g / 2 ^ k / 2 = g' / 2 ^ k / 2 →
    G.Paired (2 ^ k) g → 2 ^ k < (s g).mergeSize → 2 ^ k < (s g').mergeSize

namespace Members.Inv

variable {G : RankGroup} {s : Members}

theorem initial (G : RankGroup) : Inv G (mergeMachine G).initial where
  power g _ := ⟨0, rfl⟩
  comm g hg := by
    have hOne : min 1 (G.size - g) = 1 := Nat.min_eq_left (by omega)
    simp [mergeMachine, RankGroup.block, hOne]
  sync g _ g' _ k _ _ hLt := hLt

theorem mergeSize_pos (h : Inv G s) {g : Nat} (hg : g < G.size) : 0 < (s g).mergeSize := by
  obtain ⟨k, hk⟩ := h.power g hg
  rw [hk]
  exact Nat.two_pow_pos k

theorem pow_le_of_lt_mul_two (h : Inv G s) {g k : Nat} (hg : g < G.size)
    (hLt : 2 ^ k < (s g).mergeSize * 2) : 2 ^ k ≤ (s g).mergeSize := by
  obtain ⟨j, hj⟩ := h.power g hg
  rw [hj, ← Nat.pow_succ] at hLt
  rw [hj]
  exact Nat.pow_le_pow_right (by omega)
    (Nat.lt_succ_iff.mp ((Nat.pow_lt_pow_iff_right (by omega)).mp hLt))

theorem mem_comm (h : Inv G s) {g g' : Nat} (hg : g < G.size) :
    g' ∈ (s g).comm ↔ g' < G.size ∧ g' / (s g).mergeSize = g / (s g).mergeSize := by
  rw [h.comm g hg, RankGroup.mem_block (h.mergeSize_pos hg)]

theorem mergeSize_le (h : Inv G s) {g g' : Nat} (hg : g < G.size) (hMem : g' ∈ (s g).comm)
    (hPaired : G.Paired (s g).mergeSize g) : (s g').mergeSize ≤ (s g).mergeSize := by
  obtain ⟨hg', hSame⟩ := (h.mem_comm hg).mp hMem
  obtain ⟨k, hk⟩ := h.power g hg
  by_contra hLess
  rw [hk] at hSame hPaired hLess
  have hPaired' : G.Paired (2 ^ k) g' := by rwa [RankGroup.Paired, hSame]
  have hSync := h.sync g' hg' g hg k (by rw [hSame]) hPaired' (Nat.not_le.mp hLess)
  rw [hk] at hSync
  exact Nat.lt_irrefl _ hSync

theorem skip (h : Inv G s) {g : Nat} (hg : g < G.size) (hSkip : s.call G g = some .skip) :
    Inv G (Function.update s g { s g with mergeSize := (s g).mergeSize * 2 }) where
  power x hx := by
    by_cases hSame : x = g
    · obtain ⟨k, hk⟩ := h.power g hg
      subst hSame
      rw [Function.update_self]
      exact ⟨k + 1, by rw [hk, Nat.pow_succ]⟩
    · rw [Function.update_of_ne hSame]
      exact h.power x hx
  comm x hx := by
    by_cases hSame : x = g
    · subst hSame
      rw [Function.update_self]
      dsimp only
      rcases RankGroup.branch_cases (m := (s x).mergeSize) hx with ⟨hEven, hAlone, -⟩ |
        ⟨-, -, _, -, hCreate⟩ | ⟨-, _, -, hCreate⟩
      · rw [h.comm x hx, RankGroup.block_alone hEven hAlone, Nat.div_div_eq_div_mul]
      · rw [call, hCreate] at hSkip
        cases hSkip
      · rw [call, hCreate] at hSkip
        cases hSkip
    · rw [Function.update_of_ne hSame]
      exact h.comm x hx
  sync x hx y hy k hBlock hPaired hLt := by
    have hMono : (s y).mergeSize ≤
        (Function.update s g { s g with mergeSize := (s g).mergeSize * 2 } y).mergeSize := by
      by_cases hSame : y = g
      · subst hSame
        rw [Function.update_self]
        exact Nat.le_mul_of_pos_right _ (by omega)
      · rw [Function.update_of_ne hSame]
    refine Nat.lt_of_lt_of_le (h.sync x hx y hy k hBlock hPaired ?_) hMono
    by_cases hSame : x = g
    · subst hSame
      rw [Function.update_self] at hLt
      refine Nat.lt_of_le_of_ne (h.pow_le_of_lt_mul_two hx hLt) fun hEq => ?_
      exact RankGroup.not_paired_of_skip hx hSkip (hEq ▸ hPaired)
    · rwa [Function.update_of_ne hSame] at hLt

theorem offers_spec (h : Inv G s) {leader remote : Nat} {high : Bool}
    (hOffer : s.Offers G leader remote high) :
    leader < G.size ∧ leader = leader / (s leader).mergeSize * (s leader).mergeSize ∧
      (∀ g ∈ (s leader).comm, (s g).mergeSize = (s leader).mergeSize) ∧
      ((high = false ∧ leader / (s leader).mergeSize % 2 = 0 ∧
        remote = (leader / (s leader).mergeSize + 1) * (s leader).mergeSize) ∨
       (high = true ∧ leader / (s leader).mergeSize % 2 = 1 ∧
        remote = (leader / (s leader).mergeSize - 1) * (s leader).mergeSize)) := by
  have hSelf : leader ∈ (s leader).comm := List.mem_of_head? hOffer.first
  have hLeader := (hOffer.all leader hSelf).1
  obtain ⟨rank, hRemote, hCall⟩ := hOffer.names
  refine ⟨hLeader, ?_, ?_, RankGroup.branch_eq_create hLeader hRemote hCall⟩
  · have hFirst := hOffer.first
    rw [h.comm leader hLeader, RankGroup.block, List.head?_range'] at hFirst
    split at hFirst
    · cases hFirst
    · exact (Option.some.inj hFirst).symm
  · intro g hg
    obtain ⟨hLt, -, hComm, hHigh⟩ := hOffer.all g hg
    obtain ⟨call, hOwn, hCreate⟩ := Option.bind_eq_some_iff.mp hHigh
    cases call with
    | skip => cases hCreate
    | create rank' high' =>
      apply Nat.le_antisymm (h.mergeSize_le hLeader hg (RankGroup.paired_of_create hLeader hCall))
      exact h.mergeSize_le hLt (hComm ▸ hSelf) (RankGroup.paired_of_create hLt hOwn)

theorem join_spec (h : Inv G s) {low high : Nat} (hLow : s.Offers G low high false)
    (hHigh : s.Offers G high low true) :
    ∃ m q, 0 < m ∧ q % 2 = 0 ∧ (q + 1) * m < G.size ∧
      (s low).comm = G.block m q ∧ (s high).comm = G.block m (q + 1) ∧
      ∀ g, g ∈ (s low).comm ++ (s high).comm → (s g).mergeSize = m := by
  obtain ⟨hLowLt, hLowEq, hLowAll, hLowNames⟩ := h.offers_spec hLow
  obtain ⟨hHighLt, hHighEq, hHighAll, hHighNames⟩ := h.offers_spec hHigh
  obtain ⟨-, hEven, hNamesHigh⟩ := hLowNames.resolve_right fun hNo => by cases hNo.1
  obtain ⟨-, hOdd, hNamesLow⟩ := hHighNames.resolve_left fun hNo => by cases hNo.1
  have hPos := h.mergeSize_pos hLowLt
  have hLowComm := h.comm low hLowLt
  have hHighComm := h.comm high hHighLt
  generalize (s low).mergeSize = m at *
  generalize (s high).mergeSize = m' at *
  generalize low / m = q at *
  generalize high / m' = q' at *
  obtain ⟨p, rfl⟩ : ∃ p, q' = p + 1 := ⟨q' - 1, by omega⟩
  rw [Nat.add_sub_cancel] at hNamesLow
  -- `high` is `m` above `low` and `m'` above it
  have hSame : m' = m := by
    rw [Nat.add_mul, Nat.one_mul] at hNamesHigh hHighEq
    omega
  subst hSame
  obtain rfl : p = q := Nat.eq_of_mul_eq_mul_right hPos (hNamesLow.symm.trans hLowEq)
  refine ⟨m', p, hPos, hEven, hNamesHigh ▸ hHighLt, hLowComm, hHighComm, fun g hg => ?_⟩
  rcases List.mem_append.mp hg with hg | hg
  · exact hLowAll g hg
  · exact hHighAll g hg

theorem join (h : Inv G s) {low high : Nat} (hLow : s.Offers G low high false)
    (hHigh : s.Offers G high low true) : Inv G (s.merge ((s low).comm ++ (s high).comm)) := by
  obtain ⟨m, q, hPos, hEven, hPair, hLowComm, hHighComm, hAll⟩ := h.join_spec hLow hHigh
  have hMerged : (s low).comm ++ (s high).comm = G.block (m * 2) (q / 2) := by
    rw [hLowComm, hHighComm, RankGroup.block_append hEven hPair]
  rw [hMerged] at hAll ⊢
  have hMem : ∀ {g}, g ∈ G.block (m * 2) (q / 2) ↔ g < G.size ∧ g / m / 2 = q / 2 := by
    intro g
    rw [RankGroup.mem_block (by omega), Nat.div_div_eq_div_mul]
  refine ⟨fun g hg => ?_, fun g hg => ?_, fun x hx y hy k hBlock hPaired hLt => ?_⟩
  · obtain ⟨k, hk⟩ := h.power g hg
    rw [mergeSize_merge]
    split
    · exact ⟨k + 1, by rw [hk, Nat.pow_succ]⟩
    · exact ⟨k, hk⟩
  · rw [mergeSize_merge, comm_merge]
    split
    · rename_i hIn
      rw [hAll g hIn, ← Nat.div_div_eq_div_mul, (hMem.mp hIn).2]
    · exact h.comm g hg
  · -- only the round of the merge is new, and there both blocks move
    rw [mergeSize_merge] at hLt
    split at hLt
    · rename_i hIn
      have hLe := h.pow_le_of_lt_mul_two hx hLt
      rw [hAll x hIn] at hLe
      rcases Nat.lt_or_eq_of_le hLe with hBefore | hNow
      · exact Nat.lt_of_lt_of_le (h.sync x hx y hy k hBlock hPaired (by rwa [hAll x hIn]))
          (s.mergeSize_le_merge _ y)
      · have hInY : y ∈ G.block (m * 2) (q / 2) := by
          rw [hMem, ← hNow, ← hBlock, hNow]
          exact ⟨hy, (hMem.mp hIn).2⟩
        rw [mergeSize_merge, if_pos hInY, hAll y hInY, hNow]
        omega
    · exact Nat.lt_of_lt_of_le (h.sync x hx y hy k hBlock hPaired hLt)
        (s.mergeSize_le_merge _ y)

theorem step (h : Inv G s) {s' : Members} {a : MergeAction} (hStep : s.step G a = some s') :
    Inv G s' := by
  cases a with
  | skip g =>
    simp only [Members.step, Option.ite_none_right_eq_some, Option.some.injEq] at hStep
    obtain ⟨⟨hg, -, hSkip⟩, rfl⟩ := hStep
    exact h.skip hg hSkip
  | join low high =>
    simp only [Members.step, Option.ite_none_right_eq_some, Option.some.injEq, Bool.and_eq_true,
      offers_iff] at hStep
    obtain ⟨⟨hLow, hHigh⟩, rfl⟩ := hStep
    exact h.join hLow hHigh

end Members.Inv

theorem merge_inv_of_reachable {G : RankGroup} {s : Members} (h : (mergeMachine G).Reachable s) :
    s.Inv G :=
  h.invariant (Members.Inv.initial G) fun _ _ _ hInv hStep => hInv.step hStep

namespace Members

theorem Inv.offers_of_block {G : RankGroup} {s : Members} (h : Inv G s) {m q remote rank : Nat}
    {high : Bool} (hm : 0 < m) (hLoop : m < G.size) (hq : q * m < G.size)
    (hAll : ∀ x < G.size, x / m = q → (s x).mergeSize = m) (hRemote : G.ranks[remote]? = some rank)
    (hCall : G.branch (q * m) m = some (.create rank high)) :
    s.Offers G (q * m) remote high := by
  have hDiv : q * m / m = q := Nat.mul_div_cancel q hm
  have hComm : ∀ x < G.size, x / m = q → (s x).comm = G.block m q := by
    intro x hx hBlock
    rw [h.comm x hx, hAll x hx hBlock, hBlock]
  refine ⟨?_, ⟨rank, hRemote, by rw [call, hAll _ hq hDiv, hCall]⟩, fun x hx => ?_⟩
  · rw [hComm _ hq hDiv, RankGroup.block, List.head?_range', if_neg (by omega)]
  · rw [hComm _ hq hDiv, RankGroup.mem_block hm] at hx
    obtain ⟨hLt, hBlock⟩ := hx
    refine ⟨hLt, by rwa [inLoop, hAll x hLt hBlock], by rw [hComm x hLt hBlock, hComm _ hq hDiv], ?_⟩
    rw [call, hAll x hLt hBlock, G.branch_of_block (hBlock.trans hDiv.symm), hCall]
    rfl

theorem exists_slowest {n : Nat} (f : Nat → Nat) (hn : 0 < n) :
    ∃ g < n, ∀ x < n, f g ≤ f x := by
  induction n with
  | zero => cases hn
  | succ n ih =>
    rcases Nat.eq_zero_or_pos n with rfl | hPos
    · exact ⟨0, by omega, fun x hx => by rw [Nat.lt_one_iff.mp hx]⟩
    · obtain ⟨g, hg, hMin⟩ := ih hPos
      rcases Nat.le_total (f g) (f n) with hLe | hLe
      · refine ⟨g, by omega, fun x hx => ?_⟩
        rcases Nat.lt_succ_iff_lt_or_eq.mp hx with hx | rfl
        · exact hMin x hx
        · exact hLe
      · refine ⟨n, by omega, fun x hx => ?_⟩
        rcases Nat.lt_succ_iff_lt_or_eq.mp hx with hx | rfl
        · exact Nat.le_trans hLe (hMin x hx)
        · exact Nat.le_refl _

/-- No interleaving gets stuck: the slowest member can always go on. -/
theorem Inv.exists_step {G : RankGroup} {s : Members} (h : Inv G s)
    (hLoop : ∃ g < G.size, s.inLoop G g) : ∃ a s', s.step G a = some s' := by
  obtain ⟨g₀, hg₀, hInLoop₀⟩ := hLoop
  obtain ⟨g, hg, hMin⟩ := exists_slowest (fun g => (s g).mergeSize) (Nat.zero_lt_of_lt hg₀)
  have hInLoop : s.inLoop G g := Nat.lt_of_le_of_lt (hMin g₀ hg₀) hInLoop₀
  have hPos := h.mergeSize_pos hg
  obtain ⟨k, hk⟩ := h.power g hg
  by_cases hSkip : s.call G g = some .skip
  · exact ⟨.skip g, _, if_pos ⟨hg, hInLoop, hSkip⟩⟩
  · have hPaired : G.Paired (s g).mergeSize g := by
      rcases RankGroup.branch_cases (m := (s g).mergeSize) hg with ⟨-, -, hCall⟩ |
        ⟨-, -, _, -, hCall⟩ | ⟨-, _, -, hCall⟩
      · exact absurd hCall hSkip
      · exact RankGroup.paired_of_create hg hCall
      · exact RankGroup.paired_of_create hg hCall
    -- both blocks of the merge wait in the round of the slowest member
    have hAll : ∀ x < G.size, x / (s g).mergeSize / 2 = g / (s g).mergeSize / 2 →
        (s x).mergeSize = (s g).mergeSize := by
      intro x hx hBlock
      refine Nat.le_antisymm (Nat.not_lt.mp fun hAhead => ?_) (hMin x hx)
      have hPairedX : G.Paired (s g).mergeSize x := by rwa [RankGroup.Paired, hBlock]
      rw [hk] at hBlock hPairedX hAhead
      have hSync := h.sync x hx g hg k hBlock hPairedX hAhead
      rw [hk] at hSync
      exact Nat.lt_irrefl _ hSync
    rw [inLoop] at hInLoop
    rw [RankGroup.Paired] at hPaired
    generalize (s g).mergeSize = m at *
    generalize g / m / 2 = q at *
    have hLow : q * 2 * m < G.size :=
      Nat.lt_of_le_of_lt (Nat.mul_le_mul_right m (Nat.le_succ _)) hPaired
    have hDivLow : q * 2 * m / m = q * 2 := Nat.mul_div_cancel _ hPos
    have hDivHigh : (q * 2 + 1) * m / m = q * 2 + 1 := Nat.mul_div_cancel _ hPos
    have hLowCall := RankGroup.branch_cases (m := m) hLow
    have hHighCall := RankGroup.branch_cases (m := m) hPaired
    rw [hDivLow] at hLowCall
    rw [hDivHigh, Nat.add_sub_cancel] at hHighCall
    obtain ⟨-, -, leader, hLeader, hLowCall⟩ :=
      (hLowCall.resolve_left fun hNo => by omega).resolve_right fun hNo => by omega
    obtain ⟨-, leader', hLeader', hHighCall⟩ :=
      (hHighCall.resolve_left fun hNo => by omega).resolve_left fun hNo => by omega
    have hLowOffers := h.offers_of_block hPos hInLoop hLow
      (fun x hx hBlock => hAll x hx (by omega)) hLeader hLowCall
    have hHighOffers := h.offers_of_block hPos hInLoop hPaired
      (fun x hx hBlock => hAll x hx (by omega)) hLeader' hHighCall
    refine ⟨.join (q * 2 * m) ((q * 2 + 1) * m), _, if_pos ?_⟩
    rw [Bool.and_eq_true, offers_iff, offers_iff]
    exact ⟨hLowOffers, hHighOffers⟩

def remaining (G : RankGroup) (s : Members) : Nat :=
  ((List.range G.size).map fun g => G.size - (s g).mergeSize).sum

theorem Inv.remaining_lt {G : RankGroup} {s s' : Members} {a : MergeAction} (h : Inv G s)
    (hStep : s.step G a = some s') : s'.remaining G < s.remaining G := by
  have hGrows : (∀ x, (s x).mergeSize ≤ (s' x).mergeSize) ∧
      ∃ x < G.size, s.inLoop G x ∧ (s' x).mergeSize = (s x).mergeSize * 2 := by
    cases a with
    | skip g =>
      simp only [Members.step, Option.ite_none_right_eq_some, Option.some.injEq] at hStep
      obtain ⟨⟨hg, hLoop, -⟩, rfl⟩ := hStep
      refine ⟨fun x => ?_, g, hg, hLoop, by rw [Function.update_self]⟩
      by_cases hSame : x = g
      · subst hSame
        rw [Function.update_self]
        exact Nat.le_mul_of_pos_right _ (by omega)
      · rw [Function.update_of_ne hSame]
    | join low high =>
      simp only [Members.step, Option.ite_none_right_eq_some, Option.some.injEq, Bool.and_eq_true,
        offers_iff] at hStep
      obtain ⟨⟨hLow, -⟩, rfl⟩ := hStep
      have hSelf : low ∈ (s low).comm := List.mem_of_head? hLow.first
      obtain ⟨hLt, hLoop, -⟩ := hLow.all low hSelf
      refine ⟨s.mergeSize_le_merge _, low, hLt, hLoop, ?_⟩
      rw [mergeSize_merge, if_pos (List.mem_append_left _ hSelf)]
  obtain ⟨hMono, x, hx, hLoop, hDouble⟩ := hGrows
  have hPos := h.mergeSize_pos hx
  refine List.sum_lt_sum _ _ (fun y _ => Nat.sub_le_sub_left (hMono y) _)
    ⟨x, List.mem_range.mpr hx, ?_⟩
  rw [inLoop] at hLoop
  omega

end Members

namespace RankGroup

/-- The leaders of two blocks name each other, from different sides. -/
def Matched (G : RankGroup) (m q q' : Nat) : Prop :=
  ∃ leader leader' high, G.ranks[q * m]? = some leader ∧ G.ranks[q' * m]? = some leader' ∧
    G.branch (q * m) m = some (.create leader' high) ∧
    G.branch (q' * m) m = some (.create leader !high)

/-- In every round a block has exactly one partner, or it skips the round and nobody names it. -/
theorem matched_or_alone (G : RankGroup) {m q : Nat} (hm : 0 < m) (hq : q * m < G.size) :
    (∃! q', G.Matched m q q') ∨
      (G.branch (q * m) m = some .skip ∧
        ∀ g < G.size, ∀ leader, G.ranks[q * m]? = some leader →
          ∀ high, G.branch g m ≠ some (.create leader high)) := by
  have hDiv : ∀ p, p * m / m = p := fun p => Nat.mul_div_cancel p hm
  have hSelf := List.getElem?_eq_getElem hq
  have hUnique : ∀ {p q' leader high}, G.ranks[p * m]? = some leader →
      G.branch (q * m) m = some (.create leader high) → G.Matched m q q' → q' = p := by
    rintro p q' leader high hLeader hCall ⟨_, leader', _, -, hLeader', hCall', -⟩
    rw [hCall] at hCall'
    cases hCall'
    exact Nat.eq_of_mul_eq_mul_right hm (getElem?_ranks_inj hLeader' hLeader)
  rcases branch_cases (m := m) hq with ⟨hEven, hAlone, hSkip⟩ |
    ⟨hEven, hPair, leader, hLeader, hCall⟩ | ⟨hOdd, leader, hLeader, hCall⟩
  · rw [hDiv] at hEven hAlone
    refine .inr ⟨hSkip, fun g hg leader hLeader high hCall => ?_⟩
    have hBlock := Nat.div_mul_le_self g m
    have hNames := branch_eq_create hg hLeader hCall
    generalize g / m = p at hBlock hNames
    rcases hNames with ⟨-, hEven', hNames⟩ | ⟨-, hOdd', hNames⟩
    · have hNext := Nat.eq_of_mul_eq_mul_right hm hNames
      omega
    · have hPrevious := Nat.eq_of_mul_eq_mul_right hm hNames
      obtain rfl : p = q + 1 := by omega
      omega
  · rw [hDiv] at hEven hPair hLeader
    refine .inl ⟨q + 1, ?_, fun q' hMatched => hUnique hLeader hCall hMatched⟩
    refine ⟨_, leader, false, hSelf, hLeader, hCall, ?_⟩
    rcases branch_cases (m := m) hPair with ⟨hNo, -⟩ | ⟨hNo, -⟩ | ⟨-, leader', hLeader', hCall'⟩
    · rw [hDiv] at hNo
      omega
    · rw [hDiv] at hNo
      omega
    · rw [hDiv, Nat.add_sub_cancel, hSelf] at hLeader'
      rw [hCall', Option.some.inj hLeader']
      rfl
  · rw [hDiv] at hOdd hLeader
    obtain ⟨p, rfl⟩ : ∃ p, q = p + 1 := ⟨q - 1, by omega⟩
    rw [Nat.add_sub_cancel] at hLeader
    refine .inl ⟨p, ?_, fun q' hMatched => hUnique hLeader hCall hMatched⟩
    refine ⟨_, leader, true, hSelf, hLeader, hCall, ?_⟩
    have hLess := (List.getElem?_eq_some_iff.mp hLeader).1
    rcases branch_cases (m := m) hLess with ⟨-, hNo, -⟩ | ⟨-, -, leader', hLeader', hCall'⟩ |
      ⟨hNo, -⟩
    · rw [hDiv] at hNo
      omega
    · rw [hDiv, hSelf] at hLeader'
      rw [hCall', Option.some.inj hLeader']
      rfl
    · rw [hDiv] at hNo
      omega

theorem int_bounds (G : RankGroup) {g m : Nat} (hg : g < G.size) (hm : m < G.size) :
    m * 2 < 2 ^ 31 ∧ (g / m + 1) * m < 2 ^ 31 := by
  have hLength : G.size ≤ 2 ^ 30 := G.length_le
  have hDiv := Nat.div_mul_le_self g m
  rw [Nat.add_mul, Nat.one_mul]
  omega

end RankGroup

/-- Along every run, whatever the order of the members' steps: each member's communicator is its
block of group ranks, its branch stays inside `translated_ranks`, a member that is done has the
whole group, and some member can go on as long as one is in the loop. -/
theorem communicator_is_block (G : RankGroup) {s : Members} (h : (mergeMachine G).Reachable s) :
    (∀ g < G.size, ∃ k, (s g).mergeSize = 2 ^ k ∧
      (s g).comm = List.range' (g / 2 ^ k * 2 ^ k) (min ((g / 2 ^ k + 1) * 2 ^ k) G.size -
        g / 2 ^ k * 2 ^ k) ∧
      ∃ call, s.call G g = some call) ∧
    (∀ m q, 0 < m → q * m < G.size →
      (∀ g, g / m = q → G.branch g m = G.branch (q * m) m) ∧
      ((∃! q', G.Matched m q q') ∨
        (G.branch (q * m) m = some .skip ∧
          ∀ g < G.size, ∀ leader, G.ranks[q * m]? = some leader →
            ∀ high, G.branch g m ≠ some (.create leader high)))) ∧
    (∀ g < G.size, ¬ s.inLoop G g → (s g).comm = List.range G.size) ∧
    ((∃ g < G.size, s.inLoop G g) → ∃ a s', s.step G a = some s') ∧
    ∀ a s', s.step G a = some s' → s'.remaining G < s.remaining G := by
  have hInv := merge_inv_of_reachable h
  refine ⟨fun g hg => ?_, fun m q hm hq => ⟨fun g hg => ?_, G.matched_or_alone hm hq⟩,
    fun g hg hDone => ?_, hInv.exists_step, fun _ _ hStep => hInv.remaining_lt hStep⟩
  · obtain ⟨k, hk⟩ := hInv.power g hg
    refine ⟨k, hk, ?_, ?_⟩
    · rw [hInv.comm g hg, hk, RankGroup.block, Nat.add_mul, Nat.one_mul]
      congr 1
      omega
    · rcases RankGroup.branch_cases (m := (s g).mergeSize) hg with ⟨-, -, hCall⟩ |
        ⟨-, -, _, -, hCall⟩ | ⟨-, _, -, hCall⟩ <;> exact ⟨_, hCall⟩
  · exact G.branch_of_block (by rw [hg, Nat.mul_div_cancel q hm])
  · have hAll : G.size ≤ (s g).mergeSize := Nat.not_lt.mp hDone
    rw [hInv.comm g hg, Nat.div_eq_of_lt (Nat.lt_of_lt_of_le hg hAll), RankGroup.block_all hAll]

theorem communicator_is_block_run :
    ∃ s : Members, ¬ s.inLoop ⟨[4, 9, 7], by decide, by decide⟩ 2 ∧ (s 2).comm = [0, 1, 2] := by
  let G : RankGroup := ⟨[4, 9, 7], by decide, by decide⟩
  let actions : List MergeAction := [.skip 2, .join 0 1, .join 0 2]
  have hRun : ((mergeMachine G).run actions (mergeMachine G).initial).map
      (fun s => decide (s.inLoop G 2)) = some false := by decide
  obtain ⟨s, hs, hDone⟩ := Option.map_eq_some_iff.mp hRun
  have hDone := of_decide_eq_false hDone
  exact ⟨s, hDone,
    (communicator_is_block G (Machine.reachable_of_run actions .initial hs)).2.2.1 2 (by decide) hDone⟩

end Henson
