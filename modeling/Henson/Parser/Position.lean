import Mathlib.Data.List.GetD
import Henson.Parser.Stream

/-!
# Lines and columns

The state stays one character ahead of every position that it has shown, unless the
stream has ended. Each such position has the line and the column of its place in the
text. There is one exception: behind a newline that ends the text, `operator ++` goes on
in the old line where `operator +=` begins a new one.
-/

namespace Henson.Parser

variable {Value : Type}

def Posn.after (p : Posn) (c : Char) : Posn :=
  if c = '\n' then ⟨p.index + 1, p.line + 1, 0⟩ else ⟨p.index + 1, p.line, p.col + 1⟩

def posnAt (w : List Char) : Posn := w.foldl Posn.after {}

theorem posnAt_concat (w : List Char) (c : Char) : posnAt (w ++ [c]) = (posnAt w).after c := by
  rw [posnAt, List.foldl_append]
  rfl

theorem posnAt_index (w : List Char) : (posnAt w).index = w.length := by
  induction w using List.reverseRecOn with
  | nil => rfl
  | append_singleton w c ih =>
    rw [posnAt_concat, Posn.after, List.length_append, ← ih]
    split <;> rfl

theorem newlines_append (i : Nat) (v w : List Char) :
    newlines i (v ++ w) = newlines i v ++ newlines (i + v.length) w := by
  induction v generalizing i with
  | nil => rfl
  | cons c v ih =>
    simp only [List.cons_append, newlines, ih, List.length_cons, Nat.add_assoc, Nat.add_comm 1]
    split <;> rfl

theorem mem_newlines {i l : Nat} {w : List Char} (h : l ∈ newlines i w) :
    i < l ∧ l ≤ i + w.length := by
  induction w generalizing i with
  | nil => cases h
  | cons c w ih =>
    rw [List.length_cons]
    rw [newlines] at h
    split at h
    · rcases List.mem_cons.mp h with rfl | h
      · omega
      · have hRest := ih h
        omega
    · have hRest := ih h
      omega

theorem posnAt_line_col (w : List Char) : (posnAt w).line = (newlines 0 w).length ∧
    (0 :: newlines 0 w).getD (posnAt w).line 0 + (posnAt w).col = w.length := by
  induction w using List.reverseRecOn with
  | nil => exact ⟨rfl, rfl⟩
  | append_singleton w c ih =>
    obtain ⟨hLine, hCol⟩ := ih
    rw [posnAt_concat, Posn.after, newlines_append, List.length_append]
    by_cases hc : c = '\n'
    · have hNew : newlines (0 + w.length) [c] = [w.length + 1] := by
        simp [newlines, hc]
      rw [if_pos hc, hNew, hLine]
      refine ⟨by simp, ?_⟩
      rw [List.getD_cons_succ, List.getD_append_right _ _ _ _ (Nat.le_refl _), Nat.sub_self]
      simp
    · have hNone : newlines (0 + w.length) [c] = [] := by
        simp [newlines, hc]
      rw [if_neg hc, hNone, List.append_nil]
      refine ⟨hLine, ?_⟩
      rw [List.length_append, List.length_singleton, ← hCol, Nat.add_assoc]

/-- Where `operator ++` stops behind the last character. -/
def pastEnd (w : List Char) : Posn :=
  { index := w.length + 1, line := (posnAt w).line, col := (posnAt w).col + 1 }

namespace Stream

structure Seen (s : Stream Value) (p : Posn) : Prop where
  le : p.index ≤ s.str.length
  ahead : p.index = s.str.length → s.unread = []
  located : p = posnAt (s.str.take p.index) ∨
    s.unread = [] ∧ ∃ w c, s.str = w ++ [c] ∧ p = pastEnd w

/-- The state of a parser of `text`. -/
structure Tracks (text : List Char) (s : Stream Value) : Prop where
  text : s.str ++ s.unread = text
  off : s.off = {}
  lines : s.lines = 0 :: newlines 0 s.str
  pos : s.Seen s.pos
  memo : ∀ row ∈ s.memoTable, ∀ key m, row key = some m → s.Seen m.stop
  err : s.Seen s.err.pos

structure Reads (s s' : Stream Value) (r : List Char) : Prop where
  unread : s.unread = r ++ s'.unread
  str : s'.str = s.str ++ r
  lines : s'.lines = s.lines ++ newlines (s.off.index + s.str.length) r
  pos : s'.pos = s.pos
  off : s'.off = s.off
  memoTable : s'.memoTable = s.memoTable
  err : s'.err = s.err

variable {s s' : Stream Value} {r text : List Char} {p : Posn}

theorem Seen.congr (hp : s.Seen p) (hStr : s'.str = s.str) (hUnread : s'.unread = s.unread) :
    s'.Seen p :=
  ⟨hStr ▸ hp.le, hStr ▸ hUnread ▸ hp.ahead, hStr ▸ hUnread ▸ hp.located⟩

theorem Reads.seen (h : Reads s s' r) (hp : s.Seen p) : s'.Seen p := by
  have hUnread (hNil : s.unread = []) : s'.unread = [] ∧ s'.str = s.str := by
    obtain ⟨rfl, hRest⟩ := List.append_eq_nil_iff.mp (h.unread.symm.trans hNil)
    exact ⟨hRest, by rw [h.str, List.append_nil]⟩
  refine ⟨?_, fun hEnd => ?_, ?_⟩
  · rw [h.str, List.length_append]
    exact Nat.le_add_right_of_le hp.le
  · have hLe := hp.le
    rw [h.str, List.length_append] at hEnd
    exact (hUnread (hp.ahead (by omega))).1
  · rcases hp.located with hAt | ⟨hNil, hPast⟩
    · left
      rw [h.str, List.take_append_of_le_length hp.le]
      exact hAt
    · obtain ⟨hNil', hStr⟩ := hUnread hNil
      exact .inr ⟨hNil', hStr ▸ hPast⟩

theorem Reads.tracks (h : Reads s s' r) (hs : s.Tracks text) : s'.Tracks text where
  text := by
    rw [← hs.text, h.str, h.unread, List.append_assoc]
  off := h.off.trans hs.off
  lines := by
    rw [h.lines, hs.lines, h.str, newlines_append, hs.off, List.cons_append]
  pos := h.pos ▸ h.seen hs.pos
  memo row hRow key m hm := h.seen (hs.memo row (h.memoTable ▸ hRow) key m hm)
  err := h.err ▸ h.seen hs.err

theorem reads_nil (s : Stream Value) : Reads s s [] :=
  ⟨rfl, (List.append_nil _).symm, (List.append_nil _).symm, rfl, rfl, rfl, rfl⟩

theorem reads_read (s : Stream Value) : Reads s s.read.2 (s.unread.take 1) := by
  unfold read
  cases hUnread : s.unread with
  | nil => exact reads_nil s
  | cons c rest =>
    refine ⟨hUnread, rfl, ?_, rfl, rfl, rfl, rfl⟩
    by_cases hc : c = '\n' <;> simp [newlines, hc]

theorem reads_readMany (s : Stream Value) (n : Nat) :
    Reads s (s.readMany n).2 (s.unread.take n) where
  unread := (List.take_append_drop n s.unread).symm
  str := rfl
  lines := rfl
  pos := rfl
  off := rfl
  memoTable := rfl
  err := rfl

theorem Tracks.congr (hs : s.Tracks text) (hUnread : s'.unread = s.unread) (hStr : s'.str = s.str)
    (hLines : s'.lines = s.lines) (hOff : s'.off = s.off) (hPos : s.Seen s'.pos)
    (hMemo : ∀ row ∈ s'.memoTable, ∀ key m, row key = some m → s.Seen m.stop)
    (hErr : s.Seen s'.err.pos) : s'.Tracks text := by
  have hSeen {p : Posn} (hp : s.Seen p) : s'.Seen p := hp.congr hStr hUnread
  exact ⟨by rw [hStr, hUnread, hs.text], hOff.trans hs.off, by rw [hLines, hs.lines, hStr],
    hSeen hPos, fun row hRow key m hm => hSeen (hMemo row hRow key m hm), hSeen hErr⟩

theorem Tracks.withPos (hs : s.Tracks text) (hp : s.Seen p) :
    ({ s with pos := p } : Stream Value).Tracks text :=
  hs.congr rfl rfl rfl rfl hp hs.memo hs.err

theorem Tracks.seen_default (hs : s.Tracks text) : s.Seen {} where
  le := Nat.zero_le _
  ahead hEnd := by
    have hPos := hs.pos
    exact hPos.ahead (Nat.le_antisymm hPos.le (hEnd ▸ Nat.zero_le _))
  located := .inl rfl

theorem tracks_ofText (text : List Char) : (ofText text : Stream Value).Tracks text := by
  cases text with
  | nil =>
    refine ⟨rfl, rfl, rfl, ?_, nofun, ?_⟩ <;> exact ⟨Nat.le_refl 0, fun _ => rfl, .inl rfl⟩
  | cons c text =>
    have hSeen : (ofText (c :: text) : Stream Value).Seen {} :=
      ⟨Nat.zero_le _, nofun, .inl rfl⟩
    refine ⟨rfl, rfl, ?_, hSeen, nofun, hSeen⟩
    by_cases hc : c = '\n' <;> simp [ofText, read, newlines, hc]

theorem Seen.eq_posnAt (hp : s.Seen p) (hLt : p.index < s.str.length) :
    p = posnAt (s.str.take p.index) := by
  rcases hp.located with hAt | ⟨-, w, c, hStr, rfl⟩
  · exact hAt
  · rw [hStr, List.length_append] at hLt
    exact absurd hLt (Nat.lt_irrefl _)

theorem Tracks.lines_split (hs : s.Tracks text) (i : Nat) (hi : i ≤ s.str.length) :
    s.lines = 0 :: (newlines 0 (s.str.take i) ++ newlines i (s.str.drop i)) := by
  have hSplit := newlines_append 0 (s.str.take i) (s.str.drop i)
  rw [List.take_append_drop, List.length_take, Nat.min_eq_left hi, Nat.zero_add] at hSplit
  rw [hs.lines, hSplit]

theorem countLines_append {index : Nat} {v w : List Nat} (hv : ∀ l ∈ v, l ≤ index)
    (hw : ∀ l ∈ w, index < l) (ln : Nat) : countLines index (v ++ w) ln = ln + v.length := by
  induction v generalizing ln with
  | nil =>
    cases w with
    | nil => rfl
    | cons l w => exact if_neg (Nat.not_le.mpr (hw l List.mem_cons_self))
  | cons l v ih =>
    rw [List.cons_append, countLines, if_pos (hv l List.mem_cons_self),
      ih (fun l' hl' => hv l' (List.mem_cons_of_mem l hl')), List.length_cons, Nat.add_assoc,
      Nat.add_comm 1]

theorem Tracks.moveTo_pos (hs : s.Tracks text) {i : Nat} (hp : s.pos = posnAt (s.str.take s.pos.index))
    (hLe : s.pos.index ≤ i) (hi : i ≤ s.str.length) : (s.moveTo i).pos = posnAt (s.str.take i) := by
  obtain ⟨hLine, -⟩ := posnAt_line_col (s.str.take s.pos.index)
  obtain ⟨hLine', hCol'⟩ := posnAt_line_col (s.str.take i)
  have hIndex := posnAt_index (s.str.take i)
  rw [List.length_take, Nat.min_eq_left hi] at hCol' hIndex
  rw [← hp] at hLine
  have hPrefix : s.str.take i = s.str.take s.pos.index ++ (s.str.take i).drop s.pos.index := by
    have hTake := List.take_append_drop s.pos.index (s.str.take i)
    rw [List.take_take, Nat.min_eq_left hLe] at hTake
    exact hTake.symm
  have hLines := hs.lines_split i hi
  have hDrop : s.lines.drop (s.pos.line - s.off.line + 1) =
      (newlines 0 (s.str.take i)).drop s.pos.line ++ newlines i (s.str.drop i) := by
    have hLength : s.pos.line ≤ (newlines 0 (s.str.take i)).length := by
      rw [hPrefix, newlines_append, List.length_append, hLine]
      exact Nat.le_add_right _ _
    rw [hLines, hs.off, Nat.sub_zero, List.drop_succ_cons, List.drop_append_of_le_length hLength]
  have hCount : countLines i (s.lines.drop (s.pos.line - s.off.line + 1)) s.pos.line =
      (posnAt (s.str.take i)).line := by
    rw [hDrop, countLines_append (fun l hl => ?_) (fun l hl => (mem_newlines hl).1), hLine',
      List.length_drop]
    · have hLength : (newlines 0 (s.str.take s.pos.index)).length ≤
          (newlines 0 (s.str.take i)).length := by
        rw [hPrefix, newlines_append, List.length_append]
        exact Nat.le_add_right _ _
      omega
    · have hBound := (mem_newlines (List.mem_of_mem_drop hl)).2
      rw [List.length_take, Nat.min_eq_left hi] at hBound
      omega
  have hStart : s.lines.getD (posnAt (s.str.take i)).line 0 =
      (0 :: newlines 0 (s.str.take i)).getD (posnAt (s.str.take i)).line 0 := by
    rw [hLines, ← List.cons_append, List.getD_append]
    rw [hLine', List.length_cons]
    exact Nat.lt_succ_self _
  refine Posn.ext hIndex.symm hCount ?_
  change i - s.lines.getD (countLines i _ s.pos.line - s.off.line) 0 = _
  rw [hCount, hs.off, Nat.sub_zero, hStart]
  omega

theorem Tracks.length_text (hs : s.Tracks text) : text.length = s.str.length + s.unread.length := by
  rw [← hs.text, List.length_append]

theorem Tracks.length_eq_of_end (hs : s.Tracks text) (hEnd : s.str.length ≤ s.pos.index) :
    text.length = s.pos.index := by
  have hAt := Nat.le_antisymm hs.pos.le hEnd
  rw [hs.length_text, hs.pos.ahead hAt, List.length_nil, Nat.add_zero, hAt]

theorem Tracks.next_line_iff (hs : s.Tracks text) {i : Nat} {c : Char} (hc : s.str[i]? = some c) :
    ((posnAt (s.str.take i)).line = s.lines.length - 1 ∨
      i + 1 < s.lines.getD ((posnAt (s.str.take i)).line + 1) 0) ↔ c ≠ '\n' := by
  obtain ⟨hi, hGet⟩ := List.getElem?_eq_some_iff.mp hc
  obtain ⟨hLine, -⟩ := posnAt_line_col (s.str.take i)
  have hDrop : s.str.drop i = c :: s.str.drop (i + 1) := by
    rw [List.drop_eq_getElem_cons hi, hGet]
  have hLines := hs.lines_split i (Nat.le_of_lt hi)
  rw [hLines, hLine, List.length_cons, Nat.add_sub_cancel, List.getD_cons_succ,
    List.getD_append_right _ _ _ _ (Nat.le_refl _), Nat.sub_self, List.length_append, hDrop]
  by_cases hNew : c = '\n'
  · simp [newlines, hNew]
  · simp only [newlines, hNew, if_false, ne_eq, not_false_eq_true, iff_true]
    cases hRest : newlines (i + 1) (s.str.drop (i + 1)) with
    | nil => exact .inl rfl
    | cons l ls =>
      have hBound := (mem_newlines (hRest ▸ List.mem_cons_self)).1
      exact .inr hBound

theorem Tracks.advanced_pos (hs : s.Tracks text) {i : Nat} {c : Char} (hc : s.str[i]? = some c) :
    (if (posnAt (s.str.take i)).line = s.lines.length - 1 ∨
        i + 1 < s.lines.getD ((posnAt (s.str.take i)).line + 1) 0 then
      ⟨i + 1, (posnAt (s.str.take i)).line, (posnAt (s.str.take i)).col + 1⟩
    else ⟨i + 1, (posnAt (s.str.take i)).line + 1, 0⟩ : Posn) = posnAt (s.str.take (i + 1)) := by
  obtain ⟨hi, hGet⟩ := List.getElem?_eq_some_iff.mp hc
  have hTake : s.str.take (i + 1) = s.str.take i ++ [c] := by
    rw [List.take_add_one, hc]
    rfl
  have hIndex := posnAt_index (s.str.take i)
  rw [List.length_take, Nat.min_eq_left (Nat.le_of_lt hi)] at hIndex
  rw [hTake, posnAt_concat, Posn.after, hIndex]
  by_cases hNew : c = '\n'
  · rw [if_neg (mt (hs.next_line_iff hc).mp (not_not_intro hNew)), if_pos hNew]
  · rw [if_pos ((hs.next_line_iff hc).mpr hNew), if_neg hNew]

/-- What a call leaves: the same text and memos, and the cursor elsewhere. -/
structure Moves (text : List Char) (s s' : Stream Value) (i : Nat) : Prop where
  tracks : s'.Tracks text
  index : s'.pos.index = min i text.length
  seen : ∀ p, s.Seen p → s'.Seen p
  memoTable : s'.memoTable = s.memoTable
  err : s'.err = s.err

theorem Seen.of_le {i : Nat} (hi : i ≤ s.str.length) (hEnd : i = s.str.length → s.unread = []) :
    s.Seen (posnAt (s.str.take i)) := by
  have hIndex := posnAt_index (s.str.take i)
  rw [List.length_take, Nat.min_eq_left hi] at hIndex
  exact ⟨by omega, fun hAt => hEnd (by omega), .inl (by rw [hIndex])⟩

theorem Tracks.next (hs : s.Tracks text) : Moves text s s.next (s.pos.index + 1) := by
  have hOff : s.pos.index - s.off.index = s.pos.index := by
    rw [hs.off, Nat.sub_zero]
  by_cases hEnd : s.str.length ≤ s.pos.index
  · have hSame : s.next = s := by
      simp only [Stream.next, hOff, hEnd, if_true]
    have hLength := hs.length_eq_of_end hEnd
    rw [hSame]
    exact ⟨hs, by omega, fun _ h => h, rfl, rfl⟩
  have hLt := Nat.lt_of_not_le hEnd
  have hp := hs.pos.eq_posnAt hLt
  obtain ⟨c, hc⟩ : ∃ c, s.str[s.pos.index]? = some c := ⟨_, List.getElem?_eq_getElem hLt⟩
  have hText := hs.length_text
  by_cases hLast : s.pos.index + 1 = s.str.length ∧ s.unread = []
  · -- nothing left to read: the line is not looked at
    obtain ⟨hAt, hNil⟩ := hLast
    have hNext : s.next = { s with pos := pastEnd (s.str.take s.pos.index) } := by
      have hPast : pastEnd (s.str.take s.pos.index) =
          ⟨s.pos.index + 1, s.pos.line, s.pos.col + 1⟩ := by
        rw [pastEnd, ← hp, List.length_take, Nat.min_eq_left (Nat.le_of_lt hLt)]
      rw [hPast]
      simp only [Stream.next, hOff, hEnd, if_false, hAt, if_true, read, hNil, Bool.not_false]
    have hTake : s.str = s.str.take s.pos.index ++ [c] := by
      have hWhole := List.take_add_one (l := s.str) (i := s.pos.index)
      rw [hAt, List.take_length, hc] at hWhole
      exact hWhole
    have hIndex : (pastEnd (s.str.take s.pos.index)).index = s.pos.index + 1 := by
      rw [pastEnd, List.length_take, Nat.min_eq_left (Nat.le_of_lt hLt)]
    have hSeen : s.Seen (pastEnd (s.str.take s.pos.index)) :=
      ⟨by omega, fun _ => hNil, .inr ⟨hNil, _, c, hTake, rfl⟩⟩
    rw [hNext]
    refine ⟨hs.withPos hSeen, ?_, fun _ h => h.congr rfl rfl, rfl, rfl⟩
    rw [hNil, List.length_nil] at hText
    exact hIndex.trans (by omega)
  · -- the character behind the next one is stored, or is read now
    obtain ⟨t, r, hReads, hBehind, hNext⟩ : ∃ t r, Reads s t r ∧ s.pos.index + 1 < t.str.length ∧
        s.next = { t with pos :=
          if s.pos.line = t.lines.length - 1 ∨
              s.pos.index + 1 < t.lines.getD (s.pos.line + 1) 0 then
            ⟨s.pos.index + 1, s.pos.line, s.pos.col + 1⟩
          else ⟨s.pos.index + 1, s.pos.line + 1, 0⟩ } := by
      have hBase : s.pos.line - s.off.line = s.pos.line := by
        rw [hs.off, Nat.sub_zero]
      by_cases hAt : s.pos.index + 1 = s.str.length
      · obtain ⟨c', rest, hUnread⟩ := List.exists_cons_of_ne_nil fun hNil => hLast ⟨hAt, hNil⟩
        refine ⟨s.read.2, s.unread.take 1, reads_read s, ?_, ?_⟩
        · simp only [read, hUnread, List.length_append, List.length_singleton]
          omega
        · simp only [Stream.next, hOff, hEnd, if_false, hAt, if_true, read, hUnread, Bool.not_true,
            Bool.false_eq_true, hBase]
          split_ifs <;> rfl
      · refine ⟨s, [], reads_nil s, by omega, ?_⟩
        simp only [Stream.next, hOff, hEnd, if_false, hAt, Bool.not_true, Bool.false_eq_true, hBase]
        split <;> rfl
    have ht := hReads.tracks hs
    have hGet : t.str[s.pos.index]? = some c := by
      rw [hReads.str, List.getElem?_append_left hLt, hc]
    have hPrefix : t.str.take s.pos.index = s.str.take s.pos.index := by
      rw [hReads.str, List.take_append_of_le_length (Nat.le_of_lt hLt)]
    have hPos := ht.advanced_pos hGet
    rw [hPrefix, ← hp] at hPos
    rw [hPos] at hNext
    have hSeen := Seen.of_le (Nat.le_of_lt hBehind) fun hEq => absurd hEq (Nat.ne_of_lt hBehind)
    have hIndex := posnAt_index (t.str.take (s.pos.index + 1))
    rw [List.length_take, Nat.min_eq_left (Nat.le_of_lt hBehind)] at hIndex
    have hLength := ht.length_text
    rw [hNext]
    refine ⟨ht.withPos hSeen, hIndex.trans (by omega), fun _ h => (hReads.seen h).congr rfl rfl,
      hReads.memoTable, hReads.err⟩

theorem Tracks.moveTo (hs : s.Tracks text) {i : Nat}
    (hp : s.pos = posnAt (s.str.take s.pos.index)) (hLe : s.pos.index ≤ i) (hi : i ≤ s.str.length)
    (hEnd : i = s.str.length → s.unread = []) : Moves text s (s.moveTo i) i := by
  have hMove : s.moveTo i = { s with pos := posnAt (s.str.take i) } := by
    rw [← hs.moveTo_pos hp hLe hi]
    rfl
  have hIndex := posnAt_index (s.str.take i)
  rw [List.length_take, Nat.min_eq_left hi] at hIndex
  have hLength := hs.length_text
  rw [hMove]
  exact ⟨hs.withPos (Seen.of_le hi hEnd), hIndex.trans (by omega), fun _ h => h.congr rfl rfl, rfl,
    rfl⟩

theorem Moves.of_reads {t : Stream Value} {i j : Nat} (hReads : Reads s t r) (h : Moves text t s' i)
    (hij : min i text.length = min j text.length) : Moves text s s' j where
  tracks := h.tracks
  index := h.index.trans hij
  seen p hp := h.seen p (hReads.seen hp)
  memoTable := h.memoTable.trans hReads.memoTable
  err := h.err.trans hReads.err

theorem Tracks.skip (hs : s.Tracks text) (n : Nat) : Moves text s (s.skip n) (s.pos.index + n) := by
  have hOff : s.pos.index - s.off.index = s.pos.index := by
    rw [hs.off, Nat.sub_zero]
  have hText := hs.length_text
  by_cases hMore : s.str.length ≤ s.pos.index + n
  · by_cases hEnd : s.str.length ≤ s.pos.index
    · have hSame : s.skip n = s := by
        simp only [Stream.skip, hOff, hMore, hEnd, if_true]
      have hLength := hs.length_eq_of_end hEnd
      rw [hSame]
      exact ⟨hs, by omega, fun _ h => h, rfl, rfl⟩
    -- one character more than asked for is read, if there is one
    have hLt := Nat.lt_of_not_le hEnd
    have hReads := reads_readMany s (s.pos.index + n + 1 - s.str.length)
    have ht := hReads.tracks hs
    have hSkip : s.skip n = ((s.readMany (s.pos.index + n + 1 - s.str.length)).2).moveTo
        (s.pos.index + if (s.unread.take (s.pos.index + n + 1 - s.str.length)).length <
            s.pos.index + n + 1 - s.str.length then
          (s.readMany (s.pos.index + n + 1 - s.str.length)).2.str.length - s.pos.index
        else n) := by
      simp only [Stream.skip, hOff, hMore, hEnd, if_true, if_false]
      rfl
    generalize (s.readMany (s.pos.index + n + 1 - s.str.length)).2 = t at hReads ht hSkip
    have hLength := hReads.str
    have hUnread := hReads.unread
    have hCount := congrArg List.length hLength
    rw [List.length_append, List.length_take] at hCount
    have hPos : t.pos = posnAt (t.str.take t.pos.index) := by
      rw [hReads.pos, hLength, List.take_append_of_le_length (Nat.le_of_lt hLt)]
      exact hs.pos.eq_posnAt hLt
    have hIndex := congrArg Posn.index hReads.pos
    have hLeft := congrArg List.length hUnread
    rw [List.length_append, List.length_take] at hLeft
    rw [hSkip, List.length_take]
    refine .of_reads hReads (ht.moveTo hPos ?_ ?_ fun hEq => ?_) ?_
    · omega
    · split <;> omega
    · refine List.eq_nil_of_length_eq_zero ?_
      split at hEq <;> omega
    · split <;> omega
  · have hSkip : s.skip n = s.moveTo (s.pos.index + n) := by
      simp only [Stream.skip, hOff, hMore, if_false]
    rw [hSkip]
    exact hs.moveTo (hs.pos.eq_posnAt (by omega)) (by omega) (by omega) (by omega)

theorem take_drop_append {v w : List Char} {i n : Nat} (h : i + n ≤ v.length ∨ w = []) :
    ((v ++ w).drop i).take n = (v.drop i).take n := by
  rcases h with hEnough | rfl
  · rw [List.drop_append_of_le_length (by omega), List.take_append_of_le_length]
    rw [List.length_drop]
    omega
  · rw [List.append_nil]

/-- `string` gives the characters of the text, and reads those that it needs. -/
theorem Tracks.string (hs : s.Tracks text) (p : Posn) (n : Nat) :
    ∃ t r, s.string p n = .ok ((text.drop p.index).take n, t) ∧ Reads s t r := by
  have hOff : p.index - s.off.index = p.index := by
    rw [hs.off, Nat.sub_zero]
  have hNotForgotten : ¬ p.index < s.off.index := by
    rw [hs.off]
    exact Nat.not_lt_zero _
  simp only [Stream.string, hNotForgotten, if_false, hOff]
  by_cases hMore : s.str.length < p.index + n
  · have hReads := reads_readMany s (p.index + n - s.str.length)
    refine ⟨_, _, ?_, hReads⟩
    rw [if_pos hMore]
    congr 2
    have ht := hReads.tracks hs
    have hText := ht.text
    generalize (s.readMany (p.index + n - s.str.length)).2 = t at hReads ht hText
    have hCount := congrArg List.length hReads.str
    have hLeft := congrArg List.length hReads.unread
    rw [List.length_append, List.length_take] at hCount hLeft
    rw [← hText, take_drop_append]
    refine or_iff_not_imp_left.mpr fun hShort => List.eq_nil_of_length_eq_zero ?_
    omega
  · refine ⟨s, [], ?_, reads_nil s⟩
    rw [if_neg hMore, ← hs.text, take_drop_append (.inl (by omega))]

end Stream

end Henson.Parser
