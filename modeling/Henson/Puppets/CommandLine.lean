import Henson.Library.ListSplit
import Henson.Procs.ParseProcs

/-!
# The command line of a puppet

`CommandLine` cuts a line at its spaces. The first search starts behind the first
character, so a space there stays in the first argument. The place of the last space is
kept in an `int`, which is the place itself below 2 GiB only.
-/

namespace Henson

open MachineInt

namespace CommandLine

/-- `std::string::find` of a character; `none` is `npos`. -/
def find (bytes : List Byte) (c : Byte) (pos : Nat) : Option Nat :=
  ((bytes.drop pos).findIdx? (· == c)).map (pos + ·)

/-- The characters from `first` to `last`; undefined where these are no places of the line. -/
def range (bytes : List Byte) (first : Int) (last : Nat) : Option (List Byte) :=
  if 0 ≤ first ∧ first ≤ last ∧ last ≤ bytes.length then
    some ((bytes.take last).drop first.toNat)
  else none

/-- The inner loop: an argument with a character that is no white space is kept, with a NUL. -/
def keep (arg : List Byte) : List (List Byte) :=
  if arg.any fun c => !isSpaceByte c then [arg ++ [0]] else []

theorem find_eq_some_iff {bytes : List Byte} {c : Byte} {pos next : Nat} :
    find bytes c pos = some next ↔
      pos ≤ next ∧ bytes[next]? = some c ∧ ∀ j, pos ≤ j → j < next → bytes[j]? ≠ some c := by
  simp only [find, Option.map_eq_some_iff, List.findIdx?_eq_some_iff_getElem, beq_iff_eq]
  constructor
  · rintro ⟨i, ⟨hLength, hHere, hBefore⟩, rfl⟩
    refine ⟨Nat.le_add_right _ _, ?_, fun j hLow hHigh hSame => ?_⟩
    · rw [← List.getElem?_drop, List.getElem?_eq_getElem hLength, hHere]
    · obtain ⟨k, rfl⟩ := Nat.exists_eq_add_of_le hLow
      have hk : k < i := by omega
      rw [← List.getElem?_drop, List.getElem?_eq_getElem (hk.trans hLength)] at hSame
      exact hBefore k hk (Option.some.inj hSame)
  · rintro ⟨hLe, hHere, hBefore⟩
    obtain ⟨i, rfl⟩ := Nat.exists_eq_add_of_le hLe
    rw [← List.getElem?_drop] at hHere
    obtain ⟨hLength, hHere⟩ := List.getElem?_eq_some_iff.mp hHere
    refine ⟨i, ⟨hLength, hHere, fun j hj hSame => ?_⟩, rfl⟩
    apply hBefore (pos + j) (Nat.le_add_right _ _) (Nat.add_lt_add_left hj pos)
    rw [← List.getElem?_drop, List.getElem?_eq_getElem (hj.trans hLength), hSame]

/-- The outer loop, from the value of `prev` and `pos` on. -/
def argumentsFrom (bytes : List Byte) (prev : Int32) (pos : Nat) : Option (List (List Byte)) :=
  match _h : find bytes 32 (pos + 1) with
  | none => do
    let arg ← range bytes (prev.toInt + 1) bytes.length
    return keep arg
  | some next => do
    let arg ← range bytes (prev.toInt + 1) next
    let rest ← argumentsFrom bytes (toInt32 next) next
    return keep arg ++ rest
termination_by bytes.length - pos
decreasing_by
  obtain ⟨hLe, hNext, -⟩ := find_eq_some_iff.mp _h
  have hLength := (List.getElem?_eq_some_iff.mp hNext).1
  omega

def arguments (line : StdString) : Option (List (List Byte)) := argumentsFrom line.bytes (-1) 0

/-- The runs between the spaces of the line, in order, where they are not white space only. -/
def words (bytes : List Byte) : List (List Byte) :=
  (bytes.splitOn 32).filter fun run => run.any fun c => !isSpaceByte c

def terminated (words : List (List Byte)) : List (List Byte) := words.map (· ++ [0])

def SpacedWord (bytes : List Byte) : Prop :=
  bytes.head? = some 32 ∧ ∃ c ∈ bytes.tail.takeWhile (· ≠ 32), isSpaceByte c = false

/-- From `start` on, up to the next space behind `p`, the line has white space only. -/
def WhiteBehind (bytes : List Byte) (start : Int) (p : Nat) : Prop :=
  ∀ i : Nat, start ≤ i → (∀ j, p < j → j ≤ i → bytes[j]? ≠ some 32) →
    ∀ c, bytes[i]? = some c → isSpaceByte c = true

/-- A space at `p` has a place that an `int` can hold, or nothing but white space follows the place
that the `int` has for it. -/
def Narrowed (bytes : List Byte) (p : Nat) : Prop :=
  bytes[p]? = some 32 → p < 2 ^ 31 ∨
    0 ≤ (toInt32 p).toInt + 1 ∧ WhiteBehind bytes ((toInt32 p).toInt + 1) p

theorem find_eq_none_iff {bytes : List Byte} {c : Byte} {pos : Nat} :
    find bytes c pos = none ↔ c ∉ bytes.drop pos := by
  rw [find, Option.map_eq_none_iff, List.findIdx?_eq_none_iff]
  constructor
  · intro h hMem
    simpa using h c hMem
  · intro h x hx
    exact beq_eq_false_iff_ne.mpr fun hSame => h (hSame ▸ hx)

theorem keep_of_space {arg : List Byte} (h : ∀ c ∈ arg, isSpaceByte c = true) : keep arg = [] := by
  rw [keep, if_neg]
  simpa using h

theorem keep_of_not_space {arg : List Byte} {c : Byte} (hMem : c ∈ arg)
    (h : isSpaceByte c = false) : keep arg = [arg ++ [0]] := by
  rw [keep, if_pos]
  exact List.any_eq_true.mpr ⟨c, hMem, by simp [h]⟩

theorem terminated_words_append {run rest : List Byte} (h : 32 ∉ run) :
    terminated (words (run ++ 32 :: rest)) = keep run ++ terminated (words rest) := by
  rw [words, List.splitOn_append_cons_self_of_not_mem h, List.filter_cons, keep]
  split <;> rfl

theorem terminated_words_of_not_mem {run : List Byte} (h : 32 ∉ run) :
    terminated (words run) = keep run := by
  rw [words, List.splitOn_eq_singleton h, List.filter_cons, keep]
  split <;> rfl

theorem not_mem_of_mem_terminated_words {bytes w : List Byte}
    (h : w ∈ terminated (words bytes)) : 32 ∉ w := by
  obtain ⟨run, hRun, rfl⟩ := List.mem_map.mp h
  have hFree := ListSplit.not_mem_of_mem_splitOn (List.mem_filter.mp hRun).1
  rw [List.mem_append, not_or]
  exact ⟨hFree, by decide⟩

theorem turn_eq_iff {r : Option (List Byte)} {s : Option (List (List Byte))} {arg run : List Byte}
    {ws : List (List Byte)} (hArg : r = some arg) (hKeep : keep arg = keep run) :
    (do
      let arg ← r
      let rest ← s
      return keep arg ++ rest) = some (keep run ++ ws) ↔ s = some ws := by
  rw [hArg]
  cases s with
  | none => simp
  | some rest => simp [hKeep]

theorem last_turn_eq (r : Option (List Byte)) :
    (do
      let arg ← r
      return keep arg) = (do
      let arg ← r
      let rest ← some []
      return keep arg ++ rest) := by
  cases r with
  | none => rfl
  | some arg => simp

def Spoilt (r : Option (List Byte)) : Prop :=
  ∀ arg, r = some arg → keep arg = [arg ++ [0]] ∧ 32 ∈ arg

theorem Spoilt.ne {r : Option (List Byte)} {s : Option (List (List Byte))} {bytes : List Byte}
    (h : Spoilt r) : (do
      let arg ← r
      let rest ← s
      return keep arg ++ rest) ≠ some (terminated (words bytes)) := by
  intro hSame
  obtain ⟨arg, hArg, hRest⟩ := Option.bind_eq_some_iff.mp hSame
  obtain ⟨rest, -, hKept⟩ := Option.bind_eq_some_iff.mp hRest
  obtain ⟨hKeep, hSpace⟩ := h arg hArg
  have hMem : arg ++ [0] ∈ terminated (words bytes) := by
    rw [← Option.some.inj hKept, hKeep]
    exact List.mem_cons_self
  exact not_mem_of_mem_terminated_words hMem (List.mem_append_left _ hSpace)

/-- Between the space at `p` and the next one at `q`, or the end of the line, stands `run`. -/
structure Piece (bytes run : List Byte) (p q : Nat) : Prop where
  lt : p < q
  le : q ≤ bytes.length
  space : bytes[p]? = some 32
  run_eq : (bytes.take q).drop (p + 1) = run
  free : 32 ∉ run
  stop : q = bytes.length ∨ bytes[q]? = some 32

namespace Piece

variable {bytes run : List Byte} {p q : Nat}

theorem of_find_none (hSpace : bytes[p]? = some 32) (h : find bytes 32 (p + 1) = none) :
    Piece bytes (bytes.drop (p + 1)) p bytes.length where
  lt := (List.getElem?_eq_some_iff.mp hSpace).1
  le := Nat.le_refl _
  space := hSpace
  run_eq := by rw [List.take_length]
  free := find_eq_none_iff.mp h
  stop := .inl rfl

theorem of_find_some (hSpace : bytes[p]? = some 32) (h : find bytes 32 (p + 1) = some q) :
    Piece bytes ((bytes.take q).drop (p + 1)) p q where
  lt := (find_eq_some_iff.mp h).1
  le := (List.getElem?_eq_some_iff.mp (find_eq_some_iff.mp h).2.1).1.le
  space := hSpace
  run_eq := rfl
  free := by
    rw [ListSplit.mem_take_drop]
    rintro ⟨i, hLow, hHigh, hi⟩
    exact (find_eq_some_iff.mp h).2.2 i hLow hHigh hi
  stop := .inr (find_eq_some_iff.mp h).2.1

theorem getElem?_ne (h : Piece bytes run p q) {j : Nat} (hLow : p < j) (hHigh : j < q) :
    bytes[j]? ≠ some 32 := by
  intro hSpace
  apply h.free
  rw [← h.run_eq, ListSplit.mem_take_drop]
  exact ⟨j, hLow, hHigh, hSpace⟩

theorem lt_iff (h : Piece bytes run p q) {i : Nat} (hi : i < bytes.length) :
    (∀ j, p < j → j ≤ i → bytes[j]? ≠ some 32) ↔ i < q := by
  constructor
  · intro hFree
    by_contra hNot
    rcases h.stop with hEnd | hSpace
    · omega
    · exact hFree q h.lt (by omega) hSpace
  · intro hLt j hLow hHigh
    exact h.getElem?_ne hLow (by omega)

theorem range_eq (h : Piece bytes run p q) : range bytes (p + 1) q = some run := by
  have hLt := h.lt
  have hLe := h.le
  rw [range, if_pos (by omega), ← h.run_eq]
  rfl

theorem keep_of_white (h : Piece bytes run p q) {start : Int} (hZero : 0 ≤ start) (hLe : start ≤ p)
    (hWhite : WhiteBehind bytes start p) :
    ∃ arg, range bytes start q = some arg ∧ keep arg = keep run := by
  have hLt := h.lt
  have hEnd := h.le
  have hAll : ∀ i c, start ≤ (i : Nat) → i < q → bytes[i]? = some c → isSpaceByte c = true := by
    intro i c hStart hi hc
    exact hWhite i hStart ((h.lt_iff (List.getElem?_eq_some_iff.mp hc).1).mpr hi) c hc
  refine ⟨(bytes.take q).drop start.toNat, if_pos (by omega), ?_⟩
  rw [keep_of_space, keep_of_space]
  · intro c hc
    rw [← h.run_eq, ListSplit.mem_take_drop] at hc
    obtain ⟨i, hStart, hi, hc⟩ := hc
    exact hAll i c (by omega) hi hc
  · intro c hc
    obtain ⟨i, hStart, hi, hc⟩ := ListSplit.mem_take_drop.mp hc
    exact hAll i c (by omega) hi hc

theorem spoilt_of_not_white (h : Piece bytes run p q) {start : Int} (hLe : start ≤ p)
    (hWhite : ¬ WhiteBehind bytes start p) : Spoilt (range bytes start q) := by
  intro arg hArg
  rw [range, Option.ite_none_right_eq_some, Option.some.injEq] at hArg
  obtain ⟨⟨hZero, -, -⟩, rfl⟩ := hArg
  simp only [WhiteBehind, not_forall] at hWhite
  obtain ⟨i, hStart, hBefore, c, hc, hOther⟩ := hWhite
  have hi := (h.lt_iff (List.getElem?_eq_some_iff.mp hc).1).mp hBefore
  have hMem : c ∈ (bytes.take q).drop start.toNat :=
    ListSplit.mem_take_drop.mpr ⟨i, by omega, hi, hc⟩
  exact ⟨keep_of_not_space hMem (Bool.not_eq_true _ ▸ hOther),
    ListSplit.mem_take_drop.mpr ⟨p, by omega, h.lt, h.space⟩⟩

theorem of_narrowed (h : Piece bytes run p q) (hNarrowed : Narrowed bytes p) :
    ∃ arg, range bytes ((toInt32 p).toInt + 1) q = some arg ∧ keep arg = keep run := by
  rcases hNarrowed h.space with hSmall | ⟨hZero, hWhite⟩
  · rw [toInt_toInt32_of_lt hSmall]
    exact ⟨run, h.range_eq, rfl⟩
  · by_cases hSmall : p < 2 ^ 31
    · rw [toInt_toInt32_of_lt hSmall]
      exact ⟨run, h.range_eq, rfl⟩
    · have hInt := (toInt32 p).toInt_lt
      exact h.keep_of_white hZero (by omega) hWhite

theorem of_not_narrowed (h : Piece bytes run p q) (hNarrowed : ¬ Narrowed bytes p) :
    Spoilt (range bytes ((toInt32 p).toInt + 1) q) := by
  simp only [Narrowed, not_forall, not_or, not_and] at hNarrowed
  obtain ⟨-, hLarge, hWhite⟩ := hNarrowed
  have hInt := (toInt32 p).toInt_lt
  by_cases hZero : 0 ≤ (toInt32 p).toInt + 1
  · exact h.spoilt_of_not_white (by omega) (hWhite hZero)
  · intro arg hArg
    rw [range, if_neg fun hPlaces => hZero hPlaces.1] at hArg
    cases hArg

end Piece

section Line

variable {bytes : List Byte} {p q : Nat}

theorem terminated_words_drop (h : find bytes 32 p = some q) :
    terminated (words (bytes.drop p)) =
      keep ((bytes.take q).drop p) ++ terminated (words (bytes.drop (q + 1))) := by
  obtain ⟨hLe, hSpace, hFree⟩ := find_eq_some_iff.mp h
  obtain ⟨hLength, hHere⟩ := List.getElem?_eq_some_iff.mp hSpace
  have hTake : p ≤ (bytes.take q).length := by
    rw [List.length_take, Nat.min_eq_left hLength.le]
    exact hLe
  have hSplit : bytes.drop p = (bytes.take q).drop p ++ 32 :: bytes.drop (q + 1) := by
    rw [← hHere, ← List.drop_eq_getElem_cons hLength, ← List.drop_append_of_le_length hTake,
      List.take_append_drop]
  rw [hSplit, terminated_words_append]
  rw [ListSplit.mem_take_drop]
  rintro ⟨i, hLow, hHigh, hi⟩
  exact hFree i hLow hHigh hi

theorem terminated_words_last (h : find bytes 32 p = none) :
    terminated (words (bytes.drop p)) = keep (bytes.drop p) :=
  terminated_words_of_not_mem (find_eq_none_iff.mp h)

theorem narrowed_iff {run : List Byte} (h : Piece bytes run p q) :
    (∀ i, p ≤ i → Narrowed bytes i) ↔ Narrowed bytes p ∧ ∀ i, q ≤ i → Narrowed bytes i := by
  have hLt := h.lt
  constructor
  · exact fun hAll => ⟨hAll p (Nat.le_refl p), fun i hi => hAll i (by omega)⟩
  · rintro ⟨hHere, hBehind⟩ i hi
    by_cases hNext : q ≤ i
    · exact hBehind i hNext
    · rcases Nat.eq_or_lt_of_le hi with rfl | hLater
      · exact hHere
      · exact fun hSpace => absurd hSpace (h.getElem?_ne hLater (by omega))

theorem narrowed_of_length_le (h : bytes.length ≤ p) : Narrowed bytes p := by
  intro hSpace
  rw [List.getElem?_eq_none h] at hSpace
  cases hSpace

theorem argumentsFrom_eq_iff (hSpace : bytes[p]? = some 32) :
    argumentsFrom bytes (toInt32 p) p = some (terminated (words (bytes.drop (p + 1)))) ↔
      ∀ i, p ≤ i → Narrowed bytes i := by
  induction hRest : bytes.length - p using Nat.strongRecOn generalizing p with
  | ind n ih =>
    subst hRest
    have hLength := (List.getElem?_eq_some_iff.mp hSpace).1
    rw [argumentsFrom]
    split
    · rename_i hNone
      have hPiece := Piece.of_find_none hSpace hNone
      rw [narrowed_iff hPiece, last_turn_eq]
      by_cases hNarrowed : Narrowed bytes p
      · obtain ⟨arg, hArg, hKeep⟩ := hPiece.of_narrowed hNarrowed
        rw [terminated_words_last hNone, ← List.append_nil (keep _), turn_eq_iff hArg hKeep]
        exact iff_of_true rfl ⟨hNarrowed, fun i => narrowed_of_length_le⟩
      · exact iff_of_false (hPiece.of_not_narrowed hNarrowed).ne fun h => hNarrowed h.1
    · rename_i next hNext
      have hPiece := Piece.of_find_some hSpace hNext
      have hNextSpace := (find_eq_some_iff.mp hNext).2.1
      have hTail := ih (bytes.length - next) (by have := hPiece.lt; omega) hNextSpace rfl
      rw [narrowed_iff hPiece]
      by_cases hNarrowed : Narrowed bytes p
      · obtain ⟨arg, hArg, hKeep⟩ := hPiece.of_narrowed hNarrowed
        rw [terminated_words_drop hNext, turn_eq_iff hArg hKeep, hTail]
        exact (and_iff_right hNarrowed).symm
      · exact iff_of_false (hPiece.of_not_narrowed hNarrowed).ne fun h => hNarrowed h.1

theorem spacedWord_iff (hSpace : bytes[0]? = some 32) :
    SpacedWord bytes ↔ ¬ WhiteBehind bytes 0 0 := by
  obtain ⟨tail, rfl⟩ := List.head?_eq_some_iff.mp (List.head?_eq_getElem?.trans hSpace)
  simp only [SpacedWord, List.head?_cons, true_and, List.tail_cons, ListSplit.mem_takeWhile_iff,
    WhiteBehind, not_forall, decide_not, Bool.not_eq_true', decide_eq_false_iff_not]
  constructor
  · rintro ⟨c, ⟨i, hi, hBefore⟩, hc⟩
    refine ⟨i + 1, by omega, fun j hLow hHigh => ?_, c, hi, by simp [hc]⟩
    obtain ⟨k, rfl⟩ := Nat.exists_eq_add_of_lt hLow
    rw [Nat.zero_add, List.getElem?_cons_succ]
    exact fun hHere => hBefore k (by omega) 32 hHere rfl
  · rintro ⟨i, -, hBefore, c, hi, hc⟩
    cases i with
    | zero =>
      obtain rfl := Option.some.inj hi
      exact absurd rfl hc
    | succ i =>
      refine ⟨c, ⟨i, hi, fun j hj y hy hSame => ?_⟩, Bool.not_eq_true _ ▸ hc⟩
      exact hBefore (j + 1) (Nat.succ_pos j) (Nat.succ_le_succ hj) (hSame ▸ hy)

theorem find_zero (h : bytes[0]? ≠ some 32) : find bytes 32 0 = find bytes 32 1 := by
  refine Option.ext fun q => ?_
  rw [find_eq_some_iff, find_eq_some_iff]
  constructor
  · rintro ⟨-, hSpace, hBefore⟩
    have hPos : q ≠ 0 := fun hZero => h (hZero ▸ hSpace)
    exact ⟨by omega, hSpace, fun j hLow => hBefore j (by omega)⟩
  · rintro ⟨-, hSpace, hBefore⟩
    refine ⟨Nat.zero_le q, hSpace, fun j _ hHigh => ?_⟩
    cases j with
    | zero => exact h
    | succ j => exact hBefore (j + 1) (Nat.succ_pos j) hHigh

theorem narrowed_zero : Narrowed bytes 0 := fun _ => .inl (by decide)

/-- The words behind the first turn, and what it keeps of the characters in front of `q`. -/
structure FirstTurn (bytes : List Byte) (q : Nat) (behind : List (List Byte)) : Prop where
  good : ¬ SpacedWord bytes → ∃ arg run, range bytes 0 q = some arg ∧ keep arg = keep run ∧
    terminated (words bytes) = keep run ++ behind
  bad : SpacedWord bytes → Spoilt (range bytes 0 q)

theorem FirstTurn.of_space {run : List Byte} {behind : List (List Byte)}
    (hPiece : Piece bytes run 0 q)
    (hWords : terminated (words (bytes.drop 1)) = keep run ++ behind) :
    FirstTurn bytes q behind where
  good hNot := by
    rw [spacedWord_iff hPiece.space, not_not] at hNot
    obtain ⟨arg, hArg, hKeep⟩ := hPiece.keep_of_white (Int.le_refl 0) (Int.le_refl 0) hNot
    refine ⟨arg, run, hArg, hKeep, hWords ▸ ?_⟩
    obtain ⟨tail, rfl⟩ :=
      List.head?_eq_some_iff.mp (List.head?_eq_getElem?.trans hPiece.space)
    have hEmpty : 32 ∉ ([] : List Byte) := List.not_mem_nil
    exact terminated_words_append hEmpty
  bad hSpaced :=
    hPiece.spoilt_of_not_white (Int.le_refl 0) ((spacedWord_iff hPiece.space).mp hSpaced)

theorem FirstTurn.of_other (hOther : bytes[0]? ≠ some 32) (hLe : q ≤ bytes.length)
    {behind : List (List Byte)}
    (hWords : terminated (words bytes) = keep (bytes.take q) ++ behind) :
    FirstTurn bytes q behind where
  good _ := ⟨bytes.take q, bytes.take q, if_pos ⟨Int.le_refl 0, by omega, hLe⟩, rfl, hWords⟩
  bad hSpaced := absurd (List.head?_eq_getElem?.symm.trans hSpaced.1) hOther

theorem FirstTurn.eq_iff {behind : List (List Byte)} (h : FirstTurn bytes q behind)
    {s : Option (List (List Byte))} {P : Prop} (hRest : s = some behind ↔ P) :
    (do
      let arg ← range bytes 0 q
      let rest ← s
      return keep arg ++ rest) = some (terminated (words bytes)) ↔ ¬ SpacedWord bytes ∧ P := by
  by_cases hSpaced : SpacedWord bytes
  · exact iff_of_false (h.bad hSpaced).ne fun hBoth => hBoth.1 hSpaced
  · obtain ⟨arg, run, hArg, hKeep, hWords⟩ := h.good hSpaced
    rw [hWords, turn_eq_iff hArg hKeep, hRest]
    exact (and_iff_right hSpaced).symm

theorem firstTurn_some (h : find bytes 32 1 = some q) :
    FirstTurn bytes q (terminated (words (bytes.drop (q + 1)))) := by
  by_cases hSpace : bytes[0]? = some 32
  · exact .of_space (.of_find_some hSpace h) (terminated_words_drop h)
  · have hSame : find bytes 32 0 = some q := (find_zero hSpace).trans h
    have hLength := (List.getElem?_eq_some_iff.mp (find_eq_some_iff.mp h).2.1).1
    exact .of_other hSpace hLength.le (terminated_words_drop hSame)

theorem firstTurn_none (h : find bytes 32 1 = none) : FirstTurn bytes bytes.length [] := by
  by_cases hSpace : bytes[0]? = some 32
  · refine .of_space (.of_find_none hSpace h) ?_
    rw [terminated_words_last h, List.append_nil]
  · have hSame : find bytes 32 0 = none := (find_zero hSpace).trans h
    refine .of_other hSpace (Nat.le_refl _) ?_
    rw [List.take_length, List.append_nil]
    exact terminated_words_last hSame

theorem narrowed_of_first (h : ∀ j, 1 ≤ j → j < q → bytes[j]? ≠ some 32)
    (hBehind : ∀ i, q ≤ i → Narrowed bytes i) (p : Nat) : Narrowed bytes p := by
  rcases Nat.eq_zero_or_pos p with rfl | hPos
  · exact narrowed_zero
  · by_cases hNext : q ≤ p
    · exact hBehind p hNext
    · exact fun hSpace => absurd hSpace (h p hPos (by omega))

end Line

/-- For every line: the arguments are exactly its words, in order and each with its NUL, if and only
if the line does not begin with one space and a word, and every space stands at a place that an
`int` holds (or the places that it has instead are followed by white space only). -/
theorem arguments_eq_words_iff (line : StdString) :
    arguments line = some (terminated (words line.bytes)) ↔
      ¬ SpacedWord line.bytes ∧ ∀ p, Narrowed line.bytes p := by
  obtain ⟨bytes⟩ := line
  have hStart : (-1 : Int32).toInt + 1 = 0 := by decide
  rw [arguments, argumentsFrom, hStart]
  split
  · rename_i hNone
    have hFree : ∀ j, 1 ≤ j → j < bytes.length → bytes[j]? ≠ some 32 := by
      intro j hLow _ hSpace
      apply find_eq_none_iff.mp hNone
      exact List.mem_iff_getElem?.mpr ⟨j - 1, by rwa [List.getElem?_drop, Nat.add_sub_cancel' hLow]⟩
    rw [last_turn_eq]
    refine (firstTurn_none hNone).eq_iff (iff_of_true rfl ?_)
    exact narrowed_of_first hFree fun i => narrowed_of_length_le
  · rename_i next hNext
    obtain ⟨-, hSpace, hFree⟩ := find_eq_some_iff.mp hNext
    refine (firstTurn_some hNext).eq_iff ((argumentsFrom_eq_iff hSpace).trans ?_)
    exact ⟨narrowed_of_first hFree, fun hAll i _ => hAll i⟩

/-- The space in front of a word is part of the argument. -/
theorem leading_space_kept :
    arguments ⟨[32, 97]⟩ = some [[32, 97, 0]] ∧ terminated (words [32, 97]) = [[97, 0]] ∧
      arguments ⟨[32, 97]⟩ ≠ some (terminated (words [32, 97])) := by
  have hKept : arguments ⟨[32, 97]⟩ = some [[32, 97, 0]] := by decide +kernel
  have hWord : terminated (words [32, 97]) = [[97, 0]] := by decide
  refine ⟨hKept, hWord, ?_⟩
  rw [hKept, hWord]
  decide

end CommandLine

end Henson
