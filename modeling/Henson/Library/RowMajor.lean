import Mathlib.Algebra.BigOperators.Group.List.Basic
import Mathlib.Algebra.GroupWithZero.Nat
import Henson.Library.Slices

/-!
# Row-major order

The indices of a box in row-major order, the offsets that strides give to them, and when one stride
gives the same offsets: an axis along which the index never moves may have any stride, every other
one must step over the whole of what the later axes span.
-/

namespace RowMajor

universe u

/-- The indices of a box, the last axis fastest. -/
def indices : List Nat → List (List Nat)
  | [] => [[]]
  | n :: shape => (List.range n).flatMap fun i => (indices shape).map (i :: ·)

section Offsets

variable {R : Type u} [AddCommMonoid R]

def offset : List R → List Nat → R
  | s :: strides, i :: index => i • s + offset strides index
  | _, _ => 0

def offsets (strides : List R) (shape : List Nat) : List R := (indices shape).map (offset strides)

/-- The first `n` multiples of one stride. -/
def progression (unit : R) (n : Nat) : List R := (List.range n).map (· • unit)

/-- Each axis with at least two places steps over `unit` times the size of the later axes. -/
def Uniform (unit : R) : List R → List Nat → Prop
  | s :: strides, n :: shape => (2 ≤ n → s = shape.prod • unit) ∧ Uniform unit strides shape
  | _, _ => True

theorem offsets_cons (s : R) (strides : List R) (n : Nat) (shape : List Nat) :
    offsets (s :: strides) (n :: shape) =
      (List.range n).flatMap fun i => (offsets strides shape).map (i • s + ·) := by
  rw [offsets, indices, List.map_flatMap]
  refine List.flatMap_congr fun i _ => ?_
  rw [offsets, List.map_map, List.map_map]
  rfl

theorem progression_mul (unit : R) (n k : Nat) :
    progression unit (n * k) =
      (List.range n).flatMap fun i => (progression unit k).map ((i * k) • unit + ·) := by
  rw [progression, Slices.range_mul, List.map_flatMap]
  refine List.flatMap_congr fun i _ => ?_
  rw [progression, List.map_map, List.map_map]
  exact List.map_congr_left fun j _ => add_nsmul unit (i * k) j

theorem length_progression (unit : R) (n : Nat) : (progression unit n).length = n := by
  rw [progression, List.length_map, List.length_range]

theorem length_offsets (strides : List R) (shape : List Nat) :
    (offsets strides shape).length = shape.prod := by
  rw [offsets, List.length_map]
  induction shape with
  | nil => rfl
  | cons n shape ih =>
    rw [indices, List.length_flatMap, List.prod_cons]
    simp [ih]

theorem flatMap_range_eq_iff {α : Type u} {f g : Nat → List α} {n : Nat}
    (hLength : ∀ i, (f i).length = (g i).length) :
    (List.range n).flatMap f = (List.range n).flatMap g ↔ ∀ i < n, f i = g i := by
  constructor
  · intro hSame
    induction n with
    | zero => exact fun i hi => absurd hi (Nat.not_lt_zero i)
    | succ n ih =>
      rw [List.range_succ, List.flatMap_append, List.flatMap_append, List.flatMap_singleton,
        List.flatMap_singleton] at hSame
      obtain ⟨hInit, hLast⟩ := List.append_inj' hSame (hLength n)
      intro i hi
      rcases Nat.lt_succ_iff_lt_or_eq.mp hi with hBefore | rfl
      · exact ih hInit i hBefore
      · exact hLast
  · exact fun hSame => List.flatMap_congr fun i hi => hSame i (List.mem_range.mp hi)

theorem head?_progression (unit : R) {k : Nat} (hk : 0 < k) :
    (progression unit k).head? = some 0 := by
  rw [progression, List.head?_map, List.head?_range, if_neg (Nat.ne_of_gt hk), Option.map_some,
    zero_nsmul]

/-- The blocks of the first axis are those of the progression if the first one is and the axis,
where it moves at all, steps over a block. -/
theorem blocks_eq_iff {unit s : R} {block : List R} {n k : Nat} (hn : 0 < n) (hk : 0 < k) :
    (∀ i < n, block.map (i • s + ·) = (progression unit k).map ((i * k) • unit + ·)) ↔
      (2 ≤ n → s = k • unit) ∧ block = progression unit k := by
  constructor
  · intro hBlocks
    have hFirst : block = progression unit k := by simpa using hBlocks 0 hn
    refine ⟨fun hMoves => ?_, hFirst⟩
    have hSecond := congrArg List.head? (hBlocks 1 hMoves)
    rw [hFirst, List.head?_map, List.head?_map, head?_progression unit hk] at hSecond
    simpa [one_nsmul] using hSecond
  · rintro ⟨hStep, rfl⟩ i hi
    rcases Nat.eq_zero_or_pos i with rfl | hPos
    · simp
    · rw [hStep (Nat.lt_of_le_of_lt hPos hi), mul_comm, mul_nsmul]

theorem offsets_eq_progression_iff {unit : R} {strides : List R} {shape : List Nat}
    (hAxes : strides.length = shape.length) :
    offsets strides shape = progression unit shape.prod ↔
      shape.prod = 0 ∨ Uniform unit strides shape := by
  induction shape generalizing strides with
  | nil =>
    obtain rfl := List.length_eq_zero_iff.mp hAxes
    refine iff_of_true ?_ (.inr trivial)
    simp [offsets, indices, offset, progression]
  | cons n shape ih =>
    cases strides with
    | nil => cases hAxes
    | cons s strides =>
      by_cases hEmpty : (n :: shape).prod = 0
      · refine iff_of_true ?_ (.inl hEmpty)
        rw [List.eq_nil_of_length_eq_zero ((length_offsets _ _).trans hEmpty), hEmpty]
        rfl
      · have hTail := ih (Nat.succ.inj hAxes)
        have hProduct : n * shape.prod ≠ 0 := fun hZero => hEmpty (List.prod_cons.trans hZero)
        obtain ⟨hn, hShape⟩ := mul_ne_zero_iff.mp hProduct
        have hBlock : ∀ i, ((offsets strides shape).map (i • s + ·)).length =
            ((progression unit shape.prod).map ((i * shape.prod) • unit + ·)).length := by
          intro i
          rw [List.length_map, List.length_map, length_offsets, length_progression]
        rw [offsets_cons, List.prod_cons, progression_mul, flatMap_range_eq_iff hBlock,
          blocks_eq_iff (Nat.pos_of_ne_zero hn) (Nat.pos_of_ne_zero hShape), hTail,
          or_iff_right hShape, or_iff_right hProduct, Uniform]

end Offsets

end RowMajor
