import Mathlib.Logic.Basic
import Mathlib.Data.List.Basic
import Henson.Hwl.Syntax

/-!
# Indentation tokens

`indent_to_tokens` keeps one current indentation and one counter. A layout keeps
the stack of all open indentations, which says how many levels each line opens
or closes. The output shows the layout exactly when no line closes two levels.
-/

namespace Henson.Hwl

/-- `std::isspace` in the C locale. -/
def isSpace (c : Char) : Bool := c = ' ' || (9 ≤ c.toNat && c.toNat ≤ 13)

/-- The lines that `std::getline` yields: a last line need not end with a newline. -/
def getlines : Text → List Text
  | [] => []
  | c :: rest =>
    if c = '\n' then [] :: getlines rest
    else
      match getlines rest with
      | [] => [[c]]
      | line :: lines => (c :: line) :: lines

def indentation (line : Text) : Nat := (line.takeWhile isSpace).length

def isBlank (line : Text) : Bool := indentation line = line.length

inductive Piece where
  | indent
  | dedent
  | line (text : Text)
  deriving DecidableEq

def Piece.render : Piece → Text
  | indent => "INDENT\n".toList
  | dedent => "DEDENT\n".toList
  | line text => text ++ ['\n']

structure Indenter where
  cur : Nat := 0
  count : Int := 0
  out : List Piece := []

namespace Indenter

/-- The body of the loop, for a line that is not skipped. -/
def addLine (s : Indenter) (line : Text) : Indenter :=
  let indent := indentation line
  let s :=
    if indent > s.cur then
      { cur := indent, count := s.count + 1, out := s.out ++ [.indent] }
    else if indent < s.cur then
      { cur := indent, count := s.count - 1, out := s.out ++ [.dedent] }
    else s
  { s with out := s.out ++ [.line line] }

def finish (s : Indenter) : List Piece := s.out ++ List.replicate s.count.toNat .dedent

end Indenter

def codeLines (txt : Text) : List Text := (getlines txt).filter fun line => !isBlank line

def indentPieces (txt : Text) : List Piece :=
  ((codeLines txt).foldl Indenter.addLine {}).finish

def indentToTokens (txt : Text) : Text := (indentPieces txt).flatMap Piece.render

inductive Move where
  | opens
  | closes (levels : Nat)
  deriving DecidableEq

namespace Layout

def top (stack : List Nat) : Nat := stack.headD 0

/-- Closes levels until `indent` is the innermost indentation, which has to be open. -/
def close (indent : Nat) : List Nat → Option (Nat × List Nat)
  | [] => if indent = 0 then some (0, []) else none
  | level :: stack =>
    if indent = level then some (0, level :: stack)
    else if indent < level then (close indent stack).map fun p => (p.1 + 1, p.2)
    else none

def move (stack : List Nat) (indent : Nat) : Option (Move × List Nat) :=
  if top stack < indent then some (.opens, indent :: stack)
  else (close indent stack).map fun p => (.closes p.1, p.2)

/-- The moves of all lines and the indentations open at the end, for a consistent layout. -/
def moves (stack : List Nat) : List Text → Option (List (Move × Text) × List Nat)
  | [] => some ([], stack)
  | line :: lines => do
    let (m, stack) ← move stack (indentation line)
    let (ms, stack) ← moves stack lines
    return ((m, line) :: ms, stack)

end Layout

def Move.pieces : Move → List Piece
  | opens => [.indent]
  | closes levels => List.replicate levels .dedent

def nesting (ms : List (Move × Text)) (stack : List Nat) : List Piece :=
  (ms.flatMap fun p => p.1.pieces ++ [.line p.2]) ++ List.replicate stack.length .dedent

/-- No prefix closes a level that is not open, and the whole closes all of them. -/
structure Balanced (ps : List Piece) : Prop where
  openFirst : ∀ q, q <+: ps → q.count .dedent ≤ q.count .indent
  closed : ps.count .dedent = ps.count .indent

def ShowsNesting (txt : Text) (ms : List (Move × Text)) (stack : List Nat) : Prop :=
  indentPieces txt = nesting ms stack ∧ Balanced (indentPieces txt)

structure BalancedFrom (depth : Nat) (ps : List Piece) : Prop where
  openFirst : ∀ q, q <+: ps → q.count .dedent ≤ depth + q.count .indent
  closed : ps.count .dedent = depth + ps.count .indent

theorem BalancedFrom.indent {depth : Nat} {ps : List Piece} (h : BalancedFrom (depth + 1) ps) :
    BalancedFrom depth (.indent :: ps) where
  openFirst q hq := by
    rcases List.prefix_cons_iff.mp hq with rfl | ⟨r, rfl, hr⟩
    · exact Nat.zero_le _
    · have hRest := h.openFirst r hr
      simp only [List.count_cons_self, ne_eq, reduceCtorEq, not_false_eq_true, List.count_cons_of_ne]
      omega
  closed := by
    have hRest := h.closed
    simp only [List.count_cons_self, ne_eq, reduceCtorEq, not_false_eq_true, List.count_cons_of_ne]
    omega

theorem BalancedFrom.dedent {depth : Nat} {ps : List Piece} (h : BalancedFrom depth ps) :
    BalancedFrom (depth + 1) (.dedent :: ps) where
  openFirst q hq := by
    rcases List.prefix_cons_iff.mp hq with rfl | ⟨r, rfl, hr⟩
    · exact Nat.zero_le _
    · have hRest := h.openFirst r hr
      simp only [List.count_cons_self, ne_eq, reduceCtorEq, not_false_eq_true, List.count_cons_of_ne]
      omega
  closed := by
    have hRest := h.closed
    simp only [List.count_cons_self, ne_eq, reduceCtorEq, not_false_eq_true, List.count_cons_of_ne]
    omega

theorem BalancedFrom.line {depth : Nat} {ps : List Piece} (h : BalancedFrom depth ps)
    (text : Text) : BalancedFrom depth (.line text :: ps) where
  openFirst q hq := by
    rcases List.prefix_cons_iff.mp hq with rfl | ⟨r, rfl, hr⟩
    · exact Nat.zero_le _
    · simpa [List.count_cons] using h.openFirst r hr
  closed := by simpa [List.count_cons] using h.closed

theorem BalancedFrom.dedents {depth : Nat} {ps : List Piece} (h : BalancedFrom depth ps)
    (levels : Nat) : BalancedFrom (depth + levels) (List.replicate levels .dedent ++ ps) := by
  induction levels with
  | zero => exact h
  | succ levels ih => exact ih.dedent

namespace Layout

theorem length_close {indent : Nat} {stack stack' : List Nat} {levels : Nat}
    (h : close indent stack = some (levels, stack')) : stack.length = stack'.length + levels := by
  induction stack generalizing levels with
  | nil =>
    simp only [close, Option.ite_none_right_eq_some, Option.some.injEq, Prod.mk.injEq] at h
    obtain ⟨-, rfl, rfl⟩ := h
    rfl
  | cons level stack ih =>
    rw [close] at h
    split at h
    · obtain ⟨rfl, rfl⟩ := Prod.mk.inj (Option.some.inj h)
      rfl
    · split at h
      · obtain ⟨⟨n, rest⟩, hClose, hEq⟩ := Option.map_eq_some_iff.mp h
        obtain ⟨rfl, rfl⟩ := Prod.mk.inj hEq
        rw [List.length_cons, ih hClose, Nat.add_assoc]
      · cases h

theorem top_close {indent : Nat} {stack stack' : List Nat} {levels : Nat}
    (h : close indent stack = some (levels, stack')) : top stack' = indent := by
  induction stack generalizing levels with
  | nil =>
    simp only [close, Option.ite_none_right_eq_some, Option.some.injEq, Prod.mk.injEq] at h
    obtain ⟨rfl, rfl, rfl⟩ := h
    rfl
  | cons level stack ih =>
    rw [close] at h
    split at h
    · rename_i hLevel
      obtain ⟨rfl, rfl⟩ := Prod.mk.inj (Option.some.inj h)
      exact hLevel.symm
    · split at h
      · obtain ⟨⟨n, rest⟩, hClose, hEq⟩ := Option.map_eq_some_iff.mp h
        obtain ⟨rfl, rfl⟩ := Prod.mk.inj hEq
        exact ih hClose
      · cases h

theorem levels_close {indent : Nat} {stack stack' : List Nat} {levels : Nat}
    (h : close indent stack = some (levels, stack')) : levels = 0 ↔ indent = top stack := by
  cases stack with
  | nil =>
    simp only [close, Option.ite_none_right_eq_some, Option.some.injEq, Prod.mk.injEq] at h
    obtain ⟨rfl, rfl, -⟩ := h
    exact iff_of_true rfl rfl
  | cons level stack =>
    rw [close] at h
    split at h
    · rename_i hLevel
      obtain ⟨rfl, -⟩ := Prod.mk.inj (Option.some.inj h)
      exact iff_of_true rfl hLevel
    · rename_i hLevel
      split at h
      · obtain ⟨⟨n, rest⟩, -, hEq⟩ := Option.map_eq_some_iff.mp h
        obtain ⟨rfl, -⟩ := Prod.mk.inj hEq
        exact iff_of_false (Nat.succ_ne_zero _) hLevel
      · cases h

theorem move_spec {stack stack' : List Nat} {indent : Nat} {m : Move}
    (h : move stack indent = some (m, stack')) :
    top stack' = indent ∧
      match m with
      | .opens => top stack < indent ∧ stack'.length = stack.length + 1
      | .closes levels => indent ≤ top stack ∧ (levels = 0 ↔ indent = top stack) ∧
        stack.length = stack'.length + levels := by
  rw [move] at h
  split at h
  · rename_i hTop
    obtain ⟨rfl, rfl⟩ := Prod.mk.inj (Option.some.inj h)
    exact ⟨rfl, hTop, rfl⟩
  · rename_i hTop
    obtain ⟨⟨levels, rest⟩, hClose, hEq⟩ := Option.map_eq_some_iff.mp h
    obtain ⟨rfl, rfl⟩ := Prod.mk.inj hEq
    exact ⟨top_close hClose, Nat.not_lt.mp hTop, levels_close hClose, length_close hClose⟩

end Layout

theorem balancedFrom_nesting {lines : List Text} {stack stack' : List Nat}
    {ms : List (Move × Text)} (h : Layout.moves stack lines = some (ms, stack')) :
    BalancedFrom stack.length (nesting ms stack') := by
  induction lines generalizing stack ms with
  | nil =>
    obtain ⟨rfl, rfl⟩ := Prod.mk.inj (Option.some.inj h)
    have hNil : BalancedFrom 0 ([] : List Piece) :=
      ⟨fun q hq => by rw [List.prefix_nil.mp hq]; exact Nat.le_refl _, rfl⟩
    simpa [nesting] using hNil.dedents stack.length
  | cons line lines ih =>
    obtain ⟨⟨m, stack₁⟩, hMove, hRest⟩ := Option.bind_eq_some_iff.mp h
    obtain ⟨⟨ms', stack₂⟩, hMoves, hEq⟩ := Option.bind_eq_some_iff.mp hRest
    obtain ⟨rfl, rfl⟩ := Prod.mk.inj (Option.some.inj hEq)
    have hTail := (ih hMoves).line line
    obtain ⟨-, hSpec⟩ := Layout.move_spec hMove
    cases m with
    | opens =>
      rw [hSpec.2] at hTail
      exact hTail.indent
    | closes levels =>
      have hDedents := hTail.dedents levels
      rw [← hSpec.2.2] at hDedents
      simpa [nesting, Move.pieces] using hDedents

namespace Move

def levels : Move → Nat
  | opens => 0
  | closes levels => levels

/-- What the loop appends before the line: one `DEDENT` for any number of levels. -/
def emitted : Move → List Piece
  | opens => [.indent]
  | closes levels => List.replicate (min levels 1) .dedent

def delta : Move → Int
  | opens => 1
  | closes levels => -(min levels 1 : Nat)

end Move

theorem addLine_eq (s : Indenter) {stack stack' : List Nat} {line : Text} {m : Move}
    (hCur : s.cur = Layout.top stack)
    (hMove : Layout.move stack (indentation line) = some (m, stack')) :
    s.addLine line = { cur := Layout.top stack', count := s.count + m.delta
                       out := s.out ++ (m.emitted ++ [.line line]) } := by
  obtain ⟨hTop, hSpec⟩ := Layout.move_spec hMove
  cases m with
  | opens =>
    have hDeeper : indentation line > s.cur := hCur ▸ hSpec.1
    simp [Indenter.addLine, Move.emitted, Move.delta, hDeeper, hTop]
  | closes levels =>
    obtain ⟨hLe, hZero, -⟩ := hSpec
    have hNot : ¬ indentation line > s.cur := by omega
    by_cases hSame : indentation line = s.cur
    · obtain rfl : levels = 0 := hZero.mpr (hSame.trans hCur)
      simp [Indenter.addLine, Move.emitted, Move.delta, hTop, hSame]
    · have hLess : indentation line < s.cur := by omega
      have hLevels : levels ≠ 0 := fun h => hSame ((hZero.mp h).trans hCur.symm)
      have hOne : min levels 1 = 1 := by omega
      simp [Indenter.addLine, Move.emitted, Move.delta, hNot, hLess, hOne, hTop, Int.sub_eq_add_neg]

theorem out_le_addLine (s : Indenter) (line : Text) : s.out <+: (s.addLine line).out := by
  unfold Indenter.addLine
  dsimp only
  split
  · simp
  · split <;> simp

theorem out_le_finish (lines : List Text) (s : Indenter) :
    s.out <+: (lines.foldl Indenter.addLine s).finish := by
  induction lines generalizing s with
  | nil => exact List.prefix_append _ _
  | cons line lines ih => exact (out_le_addLine s line).trans (ih _)

/-- As long as the counter is the depth, the rest of the output shows the rest of the layout if
and only if no line of the rest closes two levels. -/
theorem finish_eq_nesting_iff {lines : List Text} {stack stack' : List Nat}
    {ms : List (Move × Text)} (h : Layout.moves stack lines = some (ms, stack')) (s : Indenter)
    (hCur : s.cur = Layout.top stack) (hCount : s.count = stack.length) :
    (lines.foldl Indenter.addLine s).finish = s.out ++ nesting ms stack' ↔
      ∀ p ∈ ms, p.1.levels ≤ 1 := by
  induction lines generalizing stack ms s with
  | nil =>
    obtain ⟨rfl, rfl⟩ := Prod.mk.inj (Option.some.inj h)
    simp [Indenter.finish, nesting, hCount]
  | cons line lines ih =>
    obtain ⟨⟨m, stack₁⟩, hMove, hRest⟩ := Option.bind_eq_some_iff.mp h
    obtain ⟨⟨ms', stack₂⟩, hMoves, hEq⟩ := Option.bind_eq_some_iff.mp hRest
    obtain ⟨rfl, rfl⟩ := Prod.mk.inj (Option.some.inj hEq)
    obtain ⟨-, hSpec⟩ := Layout.move_spec hMove
    have hNesting : nesting ((m, line) :: ms') stack₂ =
        m.pieces ++ [.line line] ++ nesting ms' stack₂ := by simp [nesting]
    rw [List.foldl_cons, addLine_eq s hCur hMove, List.forall_mem_cons, hNesting]
    by_cases hLevels : m.levels ≤ 1
    · have hEmitted : m.emitted = m.pieces := by
        cases m with
        | opens => rfl
        | closes levels =>
          have hMin : min levels 1 = levels := Nat.min_eq_left hLevels
          simp [Move.emitted, Move.pieces, hMin]
      have hDelta : s.count + m.delta = stack₁.length := by
        cases m with
        | opens =>
          simp only [Move.delta]
          omega
        | closes levels =>
          simp only [Move.levels] at hLevels
          simp only [Move.delta]
          omega
      have hIh := ih hMoves ⟨Layout.top stack₁, s.count + m.delta,
        s.out ++ (m.emitted ++ [.line line])⟩ rfl hDelta
      rw [hEmitted] at hIh ⊢
      simp only [List.append_assoc] at hIh ⊢
      rw [hIh]
      exact (and_iff_right hLevels).symm
    · -- the second level's `DEDENT` is missing: the line comes in its place
      refine iff_of_false (fun hSame => ?_) fun hAll => hLevels hAll.1
      obtain ⟨levels, rfl⟩ : ∃ levels, m = .closes (levels + 2) := by
        cases m with
        | opens => exact absurd (Nat.zero_le _) hLevels
        | closes levels =>
          have hTwo : levels = levels - 2 + 2 := by
            simp only [Move.levels] at hLevels
            omega
          exact ⟨levels - 2, congrArg _ hTwo⟩
      obtain ⟨rest, hOut⟩ := out_le_finish lines ⟨Layout.top stack₁,
        s.count + (Move.closes (levels + 2)).delta,
        s.out ++ ((Move.closes (levels + 2)).emitted ++ [.line line])⟩
      rw [← hOut] at hSame
      simp [Move.emitted, Move.pieces, List.replicate_succ] at hSame

/-- The output shows the nesting structure of a consistent layout if and only if no line closes
two or more levels at once. -/
theorem showsNesting_iff (txt : Text) {ms : List (Move × Text)} {stack : List Nat}
    (h : Layout.moves [] (codeLines txt) = some (ms, stack)) :
    ShowsNesting txt ms stack ↔ ∀ p ∈ ms, p.1.levels ≤ 1 := by
  rw [← finish_eq_nesting_iff h {} rfl rfl]
  refine ⟨fun hShows => hShows.1, fun hSame => ⟨hSame, ?_⟩⟩
  have hBalanced := balancedFrom_nesting h
  have hPieces : indentPieces txt = nesting ms stack := hSame
  rw [hPieces]
  exact ⟨fun q hq => by simpa using hBalanced.openFirst q hq, by simpa using hBalanced.closed⟩

theorem showsNesting_iff_run :
    ShowsNesting "g while a:\n  if b:\n    c\n  d".toList
      [(.closes 0, "g while a:".toList), (.opens, "  if b:".toList), (.opens, "    c".toList),
        (.closes 1, "  d".toList)] [2] :=
  (showsNesting_iff "g while a:\n  if b:\n    c\n  d".toList (by decide)).mpr (by decide)

/-- Two levels closed at once in the middle of a text: the second `DEDENT` comes at the end only. -/
theorem two_levels_closed :
    let txt := "g while a:\n  if b:\n    c\nd = e".toList
    let ms : List (Move × Text) :=
      [(.closes 0, "g while a:".toList), (.opens, "  if b:".toList), (.opens, "    c".toList),
        (.closes 2, "d = e".toList)]
    Layout.moves [] (codeLines txt) = some (ms, []) ∧ ¬ ShowsNesting txt ms [] := by
  intro txt ms
  exact ⟨by decide, fun hShows => absurd hShows.1 (by decide)⟩

end Henson.Hwl
