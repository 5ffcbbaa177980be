import Henson.Hwl.Acceptance
import Henson.Hwl.Indent

/-!
# Code lines and token lines

What `indent_to_tokens` makes of the code lines of a text: the lines themselves,
in front of a line the token line that its indentation calls for, and at the end
the `DEDENT` lines that are missing.
-/

namespace Henson.Hwl

def lastLine (lines : List Text) : Text := lines.getLast?.getD []

/-- How many more levels the lines open than they close, one by each line at most. -/
def openLevels (cur : Nat) : List Text → Int
  | [] => 0
  | line :: lines =>
    (if indentation line > cur then 1 else if indentation line < cur then -1 else 0) +
      openLevels (indentation line) lines

def turn (cur indent : Nat) : List Piece :=
  if indent > cur then [.indent] else if indent < cur then [.dedent] else []

def piecesFrom (cur : Nat) : List Text → List Piece
  | [] => []
  | line :: lines =>
    turn cur (indentation line) ++ .line line :: piecesFrom (indentation line) lines

/-- The lines, the token lines between them and the `DEDENT` lines that close the open levels. -/
def tokenPieces (lines : List Text) : List Piece :=
  piecesFrom 0 lines ++ List.replicate (openLevels 0 lines).toNat .dedent

def render (ps : List Piece) : Text := ps.flatMap Piece.render

theorem turn_of_lt {cur indent : Nat} (h : cur < indent) : turn cur indent = [.indent] :=
  if_pos h

theorem turn_of_gt {cur indent : Nat} (h : indent < cur) : turn cur indent = [.dedent] := by
  rw [turn, if_neg (by omega), if_pos h]

theorem turn_self (cur : Nat) : turn cur cur = [] := by
  rw [turn, if_neg (by omega), if_neg (by omega)]

def indentAfter (cur : Nat) (lines : List Text) : Nat :=
  (lines.getLast?.map indentation).getD cur

theorem indentAfter_cons (cur : Nat) (line : Text) (lines : List Text) :
    indentAfter cur (line :: lines) = indentAfter (indentation line) lines := by
  simp only [indentAfter, List.getLast?_cons]
  cases lines.getLast? <;> rfl

theorem indentAfter_zero (lines : List Text) :
    indentAfter 0 lines = indentation (lastLine lines) := by
  rw [indentAfter, lastLine]
  cases lines.getLast? <;> rfl

theorem foldl_addLine (lines : List Text) (s : Indenter) :
    (lines.foldl Indenter.addLine s).out = s.out ++ piecesFrom s.cur lines ∧
      (lines.foldl Indenter.addLine s).count = s.count + openLevels s.cur lines := by
  induction lines generalizing s with
  | nil => simp [piecesFrom, openLevels]
  | cons line lines ih =>
    obtain ⟨hOut, hCount⟩ := ih (s.addLine line)
    have hCur : (s.addLine line).cur = indentation line := by
      simp only [Indenter.addLine]
      split_ifs <;> first | rfl | omega
    rw [List.foldl_cons, hOut, hCount, hCur, piecesFrom, openLevels, turn]
    simp only [Indenter.addLine]
    split_ifs <;> simp <;> omega

theorem indentPieces_eq (txt : Text) : indentPieces txt = tokenPieces (codeLines txt) := by
  obtain ⟨hOut, hCount⟩ := foldl_addLine (codeLines txt) {}
  rw [indentPieces, Indenter.finish, hOut, hCount, Int.zero_add]
  rfl

theorem piecesFrom_append (cur : Nat) (l l' : List Text) :
    piecesFrom cur (l ++ l') = piecesFrom cur l ++ piecesFrom (indentAfter cur l) l' := by
  induction l generalizing cur with
  | nil => rfl
  | cons line l ih =>
    rw [List.cons_append, piecesFrom, piecesFrom, ih, indentAfter_cons, List.append_assoc,
      List.cons_append]

theorem line_of_mem_piecesFrom {cur : Nat} {lines : List Text} {l : Text}
    (h : .line l ∈ piecesFrom cur lines) : l ∈ lines := by
  induction lines generalizing cur with
  | nil => cases h
  | cons line lines ih =>
    rw [piecesFrom, List.mem_append, List.mem_cons] at h
    rcases h with hTurn | hHere | hRest
    · rw [turn] at hTurn
      split_ifs at hTurn <;> simp at hTurn
    · cases hHere
      exact List.mem_cons_self
    · exact List.mem_cons_of_mem _ (ih hRest)

theorem openLevels_append (cur : Nat) (l l' : List Text) :
    openLevels cur (l ++ l') = openLevels cur l + openLevels (indentAfter cur l) l' := by
  induction l generalizing cur with
  | nil => exact (Int.zero_add _).symm
  | cons line l ih =>
    rw [List.cons_append, openLevels, openLevels, ih, indentAfter_cons, Int.add_assoc]

theorem piecesFrom_zero_append (l l' : List Text) :
    piecesFrom 0 (l ++ l') = piecesFrom 0 l ++ piecesFrom (indentation (lastLine l)) l' := by
  rw [piecesFrom_append, indentAfter_zero]

theorem openLevels_zero_append (l l' : List Text) :
    openLevels 0 (l ++ l') = openLevels 0 l + openLevels (indentation (lastLine l)) l' := by
  rw [openLevels_append, indentAfter_zero]

theorem openLevels_same {cur : Nat} {c : Text} (h : indentation c = cur) (lines : List Text) :
    openLevels cur (c :: lines) = openLevels cur lines := by
  simp [openLevels, h]

theorem piecesFrom_same {cur : Nat} {c : Text} (h : indentation c = cur) (lines : List Text) :
    piecesFrom cur (c :: lines) = .line c :: piecesFrom cur lines := by
  simp [piecesFrom, turn, h]

theorem tokenPieces_append (before after : List Text) :
    tokenPieces (before ++ after) =
      piecesFrom 0 before ++ (piecesFrom (indentation (lastLine before)) after ++
        List.replicate (openLevels 0 before +
          openLevels (indentation (lastLine before)) after).toNat .dedent) := by
  rw [tokenPieces, piecesFrom_zero_append, openLevels_zero_append, List.append_assoc]

theorem getlines_ne_nil {t : Text} (h : t ≠ []) : getlines t ≠ [] := by
  cases t with
  | nil => exact absurd rfl h
  | cons c t =>
    rw [getlines]
    split_ifs
    · exact List.cons_ne_nil _ _
    · split <;> exact List.cons_ne_nil _ _

theorem getlines_append (u t : Text) :
    getlines (u ++ '\n' :: t) = getlines (u ++ ['\n']) ++ getlines t := by
  induction u with
  | nil => simp [getlines]
  | cons c u ih =>
    rw [List.cons_append, List.cons_append, getlines, getlines]
    split_ifs
    · rw [ih, List.cons_append]
    · have hLines : getlines (u ++ ['\n']) ≠ [] := getlines_ne_nil (by simp)
      obtain ⟨line, lines, hEq⟩ := List.exists_cons_of_ne_nil hLines
      rw [ih, hEq]
      rfl

theorem getlines_line {line : Text} (h : '\n' ∉ line) (t : Text) :
    getlines (line ++ '\n' :: t) = line :: getlines t := by
  induction line with
  | nil => simp [getlines]
  | cons c line ih =>
    rw [List.mem_cons, not_or] at h
    rw [List.cons_append, getlines, if_neg (Ne.symm h.1), ih h.2]

theorem lineFeed_notMem_of_mem_getlines {t line : Text} (h : line ∈ getlines t) :
    '\n' ∉ line := by
  induction t generalizing line with
  | nil => cases h
  | cons c t ih =>
    rw [getlines] at h
    split_ifs at h with hFeed
    · rcases List.mem_cons.mp h with rfl | h
      · exact List.not_mem_nil
      · exact ih h
    · have hHead (l : Text) (hl : '\n' ∉ l) : '\n' ∉ c :: l := fun hMem =>
        (List.mem_cons.mp hMem).elim (fun hSame => hFeed hSame.symm) hl
      split at h
      · rw [List.mem_singleton] at h
        exact h ▸ hHead [] List.not_mem_nil
      · rename_i first lines hLines
        rw [hLines] at ih
        rcases List.mem_cons.mp h with rfl | h
        · exact hHead first (ih List.mem_cons_self)
        · exact ih (List.mem_cons_of_mem _ h)

theorem codeLines_append {before : Text} (hBefore : before = [] ∨ ∃ u, before = u ++ ['\n'])
    (t : Text) : codeLines (before ++ t) = codeLines before ++ codeLines t := by
  rcases hBefore with rfl | ⟨u, rfl⟩
  · rfl
  · rw [codeLines, codeLines, codeLines, ← List.filter_append, ← getlines_append,
      List.append_assoc]
    rfl

theorem lineFeed_notMem_codeLine {t line : Text} (h : line ∈ codeLines t) : '\n' ∉ line :=
  lineFeed_notMem_of_mem_getlines (List.mem_filter.mp h).1

theorem render_append (ps qs : List Piece) : render (ps ++ qs) = render ps ++ render qs :=
  List.flatMap_append

theorem render_line (line : Text) (ps : List Piece) :
    render (.line line :: ps) = line ++ '\n' :: render ps := by
  rw [render, List.flatMap_cons]
  exact List.append_assoc line ['\n'] (render ps)

theorem render_token {p : Piece} {k : Text} (hp : p.render = k ++ ['\n']) (ps : List Piece) :
    render (p :: ps) = k ++ '\n' :: render ps := by
  rw [render, List.flatMap_cons, hp, List.append_assoc]
  rfl

theorem render_indent (ps : List Piece) :
    render (.indent :: ps) = "INDENT".toList ++ '\n' :: render ps := render_token rfl ps

theorem render_dedent (ps : List Piece) :
    render (.dedent :: ps) = "DEDENT".toList ++ '\n' :: render ps := render_token rfl ps

theorem render_eq (ps : List Piece) : render ps = [] ∨ ∃ u, render ps = u ++ ['\n'] := by
  rcases List.eq_nil_or_concat ps with rfl | ⟨ps, p, rfl⟩
  · exact .inl rfl
  · have hLast : ∃ u, p.render = u ++ ['\n'] := by
      cases p with
      | indent => exact ⟨"INDENT".toList, rfl⟩
      | dedent => exact ⟨"DEDENT".toList, rfl⟩
      | line text => exact ⟨text, rfl⟩
    obtain ⟨u, hu⟩ := hLast
    refine .inr ⟨render ps ++ u, ?_⟩
    rw [List.concat_eq_append, render_append, List.append_assoc, ← hu]
    simp [render]

theorem render_eq_nil {ps : List Piece} (h : render ps = []) : ps = [] := by
  cases ps with
  | nil => rfl
  | cons p ps => cases p <;> simp [render, Piece.render] at h

theorem prefix_of_render {a b qs rs : List Piece} (h : a ++ qs = b ++ rs)
    (hText : render qs = render rs) : a = b := by
  rcases List.append_eq_append_iff.mp h with ⟨z, rfl, rfl⟩ | ⟨z, rfl, rfl⟩
  all_goals
    rw [render_append] at hText
    have hNil : render z = [] := by
      have hLength := congrArg List.length hText
      rw [List.length_append] at hLength
      exact List.length_eq_zero_iff.mp (by omega)
    rw [render_eq_nil hNil, List.append_nil]

theorem indentToTokens_eq (txt : Text) :
    indentToTokens txt = render (tokenPieces (codeLines txt)) := by
  rw [indentToTokens, indentPieces_eq]
  rfl

end Henson.Hwl
