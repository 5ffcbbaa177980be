import Henson.Hwl.CommentLine
import Henson.Hwl.Depths

/-!
# Comment lines in a script

`indent_to_tokens` takes a comment line for code, and its indentation counts. A
comment line changes nothing where it gets no token line of its own, since it is
indented like a line next to it, and where it does not come between the header of
a block and the `INDENT` of the block; nor behind the part of the text that the
grammar reads, or behind the last group. Elsewhere the lines behind it stand deeper
or less deep than before, or are not read any more. A script that was read to its
end, from a text without other comments, is then another one: it has as many lines
as the text, and their depths.
-/

namespace Henson.Hwl

/-- The grammar comes to the line between these pieces. -/
def ComesBetween (ps qs : List Piece) (spot : Spot) : Prop :=
  Comes (render (ps ++ qs)) spot (dropReturn (render qs))

/-- The pieces in front of a comment line for which no token line is added. The code lines `before`
and `after` it decide about that. -/
inductive NoToken (before after : List Text) (indent : Nat) : List Piece → Prop
  | next {line : Text} {rest : List Text} : after = line :: rest → indent = indentation line →
      NoToken before after indent
        (piecesFrom 0 before ++ turn (indentation (lastLine before)) indent)
  | previous : indent = indentation (lastLine before) →
      NoToken before after indent (piecesFrom 0 before)
  | closing : after = [] → indent < indentation (lastLine before) → openLevels 0 before > 0 →
      NoToken before after indent (piecesFrom 0 before ++ [.dedent])

/-- A comment line with this indentation does no harm between these code lines: the grammar never
comes to it; or no token line is added for it and it neither separates a header from its `INDENT`
line nor an `INDENT` line from a `DEDENT` line; or only comment lines follow, behind whole
groups. -/
inductive CommentFits (before after : List Text) (indent : Nat) : Prop
  | unread {qs : List Piece} : tokenPieces (before ++ after) = piecesFrom 0 before ++ qs →
      (∀ spot, ¬ ComesBetween (piecesFrom 0 before) qs spot) → CommentFits before after indent
  | noToken {ps qs : List Piece} : tokenPieces (before ++ after) = ps ++ qs →
      NoToken before after indent ps →
      (ComesBetween ps qs .header → ¬ TokenLine "INDENT".toList (dropReturn (render qs))) →
      (ComesBetween ps qs .start → ¬ TokenLine "DEDENT".toList (dropReturn (render qs))) →
      CommentFits before after indent
  | trailing : WellFormed (render (piecesFrom 0 before)) → (∀ l ∈ after, IsComment l) →
      CommentFits before after indent

/-- A text that is read to its end, where every group has a name of its own and no line is a
comment or begins like a token line. -/
structure Uncommented (txt : Text) : Prop where
  read : ∃ s, DistinctEntries {} (indentToTokens txt) s
  code : ∀ l ∈ codeLines txt, isEmptyLine l = false
  plain : ∀ l ∈ codeLines txt, PlainLine l

theorem NoToken.exists_rest {before after : List Text} {c : Text} {ps : List Piece}
    (h : NoToken before after (indentation c) ps) :
    ∃ qs, tokenPieces (before ++ after) = ps ++ qs ∧
      tokenPieces (before ++ c :: after) = ps ++ .line c :: qs := by
  rw [tokenPieces_append, tokenPieces_append]
  cases h with
  | @next line rest hAfter hIndent =>
    subst hAfter
    have hLevels (cur : Nat) :
        openLevels cur (c :: line :: rest) = openLevels cur (line :: rest) := by
      rw [openLevels, openLevels_same hIndent.symm, openLevels, hIndent]
    rw [hLevels]
    generalize List.replicate (openLevels 0 before +
      openLevels (indentation (lastLine before)) (line :: rest)).toNat Piece.dedent = dedents
    refine ⟨.line line :: (piecesFrom (indentation line) rest ++ dedents), ?_, ?_⟩
    · rw [hIndent, piecesFrom, List.append_assoc, List.append_assoc]
      rfl
    · rw [piecesFrom, piecesFrom_same hIndent.symm, hIndent, List.append_assoc, List.append_assoc]
      rfl
  | previous hIndent =>
    rw [openLevels_same hIndent, piecesFrom_same hIndent]
    exact ⟨_, rfl, rfl⟩
  | closing hAfter hLess hOpen =>
    subst hAfter
    have hTurn : turn (indentation (lastLine before)) (indentation c) = [.dedent] := by
      rw [turn, if_neg (by omega), if_pos hLess]
    have hLevels : openLevels (indentation (lastLine before)) [c] = -1 := by
      rw [openLevels, if_neg (by omega), if_pos hLess]
      rfl
    obtain ⟨n, hn⟩ : ∃ n : Nat, openLevels 0 before = n + 1 :=
      ⟨(openLevels 0 before - 1).toNat, by omega⟩
    refine ⟨List.replicate n .dedent, ?_, ?_⟩
    · have hAll : (openLevels 0 before + openLevels (indentation (lastLine before)) []).toNat =
          n + 1 := by
        rw [openLevels, hn]
        omega
      rw [hAll, List.replicate_succ, List.append_assoc]
      rfl
    · have hRest : (openLevels 0 before + openLevels (indentation (lastLine before)) [c]).toNat =
          n := by
        rw [hLevels, hn]
        omega
      rw [hRest, piecesFrom, hTurn, piecesFrom, List.append_assoc, List.append_assoc]
      rfl

theorem IsComment.plain {c : Text} (h : IsComment c) : PlainLine c := by
  obtain ⟨w, v, hw, hv, rfl⟩ := h
  constructor
  · intro x hx
    rcases List.mem_append.mp hx with hPad | hx
    · exact isNewline_of_isPad (hw x hPad)
    · rcases List.mem_cons.mp hx with rfl | hRest
      · rfl
      · have hChar := hv x hRest
        simp only [isCommentChar, Bool.and_eq_true, Bool.not_eq_true'] at hChar
        exact hChar.2
  · have hHead : ∃ p t, w ++ '#' :: v = p :: t ∧ isBlankStart p = true := by
      cases w with
      | nil => exact ⟨'#', v, rfl, rfl⟩
      | cons p w =>
        have hStart : isBlankStart p = true := by
          rw [isBlankStart, hw p List.mem_cons_self, Bool.true_or]
        exact ⟨p, w ++ '#' :: v, rfl, hStart⟩
    obtain ⟨p, t, hText, hStart⟩ := hHead
    rw [hText]
    rintro (hWord | hWord)
    all_goals
      obtain ⟨u, hu⟩ := hWord
      obtain ⟨rfl, -⟩ := List.cons.inj hu
      cases hStart

theorem IsComment.isEmptyLine {c : Text} (h : IsComment c) : isEmptyLine c = true := by
  obtain ⟨w, v, hw, -, rfl⟩ := h
  exact EmptyRest.isEmptyLine ⟨w, hw, .inr ⟨v, rfl⟩⟩

theorem IsComment.not_isBlank {c : Text} (h : IsComment c) : isBlank c = false := by
  obtain ⟨w, v, hw, -, rfl⟩ := h
  have hSpaces : ∀ x ∈ w, isSpace x = true := by
    intro x hx
    have hPad := hw x hx
    simp only [isPad, Bool.or_eq_true, decide_eq_true_eq] at hPad
    rcases hPad with rfl | rfl <;> rfl
  have hIndent : indentation (w ++ '#' :: v) = w.length := by
    rw [indentation, List.takeWhile_append_of_pos hSpaces, List.takeWhile_cons_of_neg (by decide),
      List.append_nil]
  rw [isBlank, hIndent, decide_eq_false_iff_not, List.length_append, List.length_cons]
  omega

theorem codeLines_comment {c : Text} (hc : IsComment c) (t : Text) :
    codeLines (c ++ '\n' :: t) = c :: codeLines t := by
  have hFeed : '\n' ∉ c := by
    intro hMem
    cases hc.plain.1 _ hMem
  rw [codeLines, getlines_line hFeed, List.filter_cons, hc.not_isBlank]
  rfl

/-- The text stands behind an `INDENT` line of the pieces. -/
def BehindIndent (ps : List Piece) (u : Text) : Prop :=
  ∃ qs rs, ps = qs ++ .indent :: rs ∧ u = render rs

theorem BehindIndent.append {ps : List Piece} {u : Text} (h : BehindIndent ps u)
    (qs : List Piece) : BehindIndent (qs ++ ps) u := by
  obtain ⟨qs', rs, rfl, hText⟩ := h
  exact ⟨qs ++ qs', rs, (List.append_assoc ..).symm, hText⟩

theorem indent_of_lineEnd {y t₁ t₂ : Text} {ps : List Piece} (hy : ∀ c ∈ y, isNewline c = false)
    (hPlain : Plain ps) (hLine : LineEnd (y ++ '\n' :: render ps) ("INDENT".toList ++ t₁))
    (hNewline : Newline t₁ t₂) : ∃ ps', ps = .indent :: ps' ∧ t₂ = render ps' := by
  obtain ⟨-, hIndent⟩ := lineEnd_rest hy hPlain hLine
  obtain ⟨ps', rfl, rfl⟩ := indent_of_word hPlain hIndent.symm
  exact ⟨ps', rfl, newline_render (plain_cons hPlain) hNewline⟩

theorem blockComes_start {v u : Text} {spot : Spot} (h : BlockComes v spot u)
    (hSpot : spot = .start) {y : Text} {ps : List Piece} (hText : v = y ++ '\n' :: render ps)
    (hy : ∀ c ∈ y, isNewline c = false) (hPlain : Plain ps) : BehindIndent ps u := by
  refine @BlockComes.rec
    (fun v spot u _ => spot = .start → ∀ y ps, v = y ++ '\n' :: render ps →
      (∀ c ∈ y, isNewline c = false) → Plain ps → BehindIndent ps u)
    (fun t spot u _ => spot = .start → ∀ ps, t = render ps → Plain ps → BehindIndent ps u)
    ?header ?start ?body ?line ?block v spot u h hSpot y ps hText hy hPlain
  case header =>
    intro t u _ hSpot
    cases hSpot
  case start =>
    rintro t t₁ u hLine hNewline - y ps rfl hy hPlain
    obtain ⟨ps', rfl, hRest⟩ := indent_of_lineEnd hy hPlain hLine hNewline
    exact ⟨[], ps', rfl, hRest⟩
  case body =>
    rintro t t₁ t₂ u s hLine hNewline - ih hSpot y ps rfl hy hPlain
    obtain ⟨ps', rfl, hRest⟩ := indent_of_lineEnd hy hPlain hLine hNewline
    exact (ih hSpot ps' hRest (plain_cons hPlain)).append [.indent]
  case line =>
    intro t u ss _ hSpot
    cases hSpot
  case block =>
    intro t t' v u ss s hItems hHeader _ ih hSpot ps hText hPlain
    obtain ⟨qs, rs, rfl, hRest, -⟩ := walk_items hItems hText hPlain
    have hPlain' := (plain_append.mp hPlain).2
    obtain ⟨l, y, ps, rfl, rfl⟩ := if_line hHeader hRest
    have hInner := ih hSpot y ps rfl (plain_line_append hPlain') (plain_cons hPlain')
    exact (hInner.append [_]).append qs

theorem comes_start {t u : Text} {spot : Spot} (h : Comes t spot u) (hSpot : spot = .start)
    {ps : List Piece} (hText : t = render ps) (hPlain : Plain ps) : BehindIndent ps u := by
  induction h generalizing ps with
  | here => cases hSpot
  | blank hLine _ ih =>
    subst hText
    obtain ⟨l, ps, rfl, -, rfl⟩ := empty_line hPlain hLine
    exact (ih hSpot rfl (plain_cons hPlain)).append [_]
  | puppet hPuppet _ ih =>
    obtain ⟨qs, rs, rfl, hRest, -⟩ := walk_puppet hPuppet hText hPlain
    exact (ih hSpot hRest (plain_append.mp hPlain).2).append qs
  | group hGroup _ ih =>
    obtain ⟨qs, rs, rfl, hRest, -⟩ := walk_group hGroup hText hPlain
    exact (ih hSpot hRest (plain_append.mp hPlain).2).append qs
  | block hHeader hBlock =>
    obtain ⟨l, y, ps, rfl, rfl⟩ := group_line hHeader hText
    exact (blockComes_start hBlock hSpot rfl (plain_line_append hPlain)
      (plain_cons hPlain)).append [_]

theorem walk_turn {d e p n : Nat} {h g : Bool} {L : List Nat} (hTurn : Walk d h (turn p n) L e g) :
    (p < n ∧ h = true ∧ g = false ∧ e = d + 1) ∨ (p = n ∧ g = h ∧ e = d) ∨
      (n < p ∧ h = false ∧ g = false ∧ d = e + 1) := by
  rw [turn] at hTurn
  split_ifs at hTurn with hUp hDown
  · cases hTurn with
    | indent hEnd =>
      cases hEnd
      exact .inl ⟨hUp, rfl, rfl, rfl⟩
  · cases hTurn with
    | dedent hEnd =>
      cases hEnd
      exact .inr (.inr ⟨hDown, rfl, rfl, rfl⟩)
  · cases hTurn
    exact .inr (.inl ⟨by omega, rfl, rfl⟩)

theorem walk_empty_line {d e : Nat} {h g : Bool} {c : Text} {ps : List Piece} {L : List Nat}
    (hEmpty : isEmptyLine c = true) (hWalk : Walk d h (.line c :: ps) L e g) :
    h = false ∧ Walk d false ps L e g := by
  cases hWalk with
  | empty _ hRest => exact ⟨rfl, hRest⟩
  | line hCode _ => cases hEmpty.symm.trans hCode

/-- An empty line between two lines leaves the second one as deep as it was: it is indented like
the second one or, unless that one opens a level, like the first one. -/
theorem indent_of_turns {d e p i n : Nat} {h : Bool} {L L' : List Nat} {c : Text}
    (hEmpty : isEmptyLine c = true) (hOld : Walk d h (turn p n) L e false)
    (hNew : Walk d h (turn p i ++ .line c :: turn i n) L' e false) :
    i = n ∨ i = p ∧ n ≤ p := by
  obtain ⟨L₁, L₂, d₁, h₁, hFirst, hRest, -⟩ := hNew.exists_append
  obtain ⟨rfl, hSecond⟩ := walk_empty_line hEmpty hRest
  have hSecond := walk_turn hSecond
  have hFirst := walk_turn hFirst
  have hOld := walk_turn hOld
  -- behind an empty line no level can be opened, and a level that it opens or closes is one more
  grind

/-- The same script with the comment as without it: in both texts all lines have been read, and they
are as deep. -/
theorem walk_of_comment {before after : List Text} {c : Text} {s : Script}
    (hOld : DistinctEntries {} (render (tokenPieces (before ++ after))) s)
    (hPlain : ∀ l ∈ before ++ after, PlainLine l) (hPlainC : PlainLine c)
    (hEmpty : isEmptyLine c = true)
    (hSame : (Reading.script (render (tokenPieces (before ++ c :: after)))).1 = s) :
    ∃ L L' qs rs, Walk 0 false (tokenPieces (before ++ after)) L 0 false ∧
      tokenPieces (before ++ c :: after) = qs ++ rs ∧ Walk 0 false qs L' 0 false ∧
      rs.countP isCode = 0 ∧ L'.Perm L := by
  have hCount : (tokenPieces (before ++ c :: after)).countP isCode =
      (tokenPieces (before ++ after)).countP isCode := by
    simp [countP_tokenPieces, hEmpty]
  have hPlain' : ∀ l ∈ before ++ c :: after, PlainLine l := by
    simp only [List.forall_mem_append, List.forall_mem_cons] at hPlain ⊢
    exact ⟨hPlain.1, hPlainC, hPlain.2⟩
  exact walk_of_same hOld (plain_tokenPieces hPlain) (plain_tokenPieces hPlain') hCount hSame

/-- A comment in front of another line. -/
theorem indent_of_same {before rest : List Text} {line c : Text} {s : Script}
    (hOld : DistinctEntries {} (render (tokenPieces (before ++ line :: rest))) s)
    (hPlain : ∀ l ∈ before ++ line :: rest, PlainLine l) (hPlainC : PlainLine c)
    (hCode : ∀ l ∈ before ++ line :: rest, isEmptyLine l = false) (hEmpty : isEmptyLine c = true)
    (hSame : (Reading.script (render (tokenPieces (before ++ c :: line :: rest)))).1 = s) :
    indentation c = indentation line ∨
      indentation c = indentation (lastLine before) ∧
        indentation line ≤ indentation (lastLine before) := by
  obtain ⟨L, L', qs, rs, hAll, hSplit, hRead, hRest, hPerm⟩ :=
    walk_of_comment hOld hPlain hPlainC hEmpty hSame
  have hLater : ∀ l ∈ line :: rest, isEmptyLine l = false :=
    fun l hl => hCode l (List.mem_append_right _ hl)
  have hLine (cur : Nat) : piecesFrom cur (line :: rest) =
      turn cur (indentation line) ++ piecesFrom (indentation line) (line :: rest) := by
    rw [piecesFrom, piecesFrom, turn_self, List.nil_append]
  rw [tokenPieces_append, hLine, List.append_assoc] at hAll
  rw [tokenPieces_append, piecesFrom, hLine, List.append_assoc, List.cons_append, List.append_assoc,
    ← List.cons_append, ← List.append_assoc _ (_ :: _), ← List.append_assoc] at hSplit
  obtain ⟨z, rfl, hEnd⟩ := append_of_no_code hLater hRest (List.cons_ne_nil _ _) hSplit
  have hz : z.countP isCode = 0 := by
    have hDedents := congrArg (List.countP isCode) hEnd
    rw [countP_dedents, List.countP_append] at hDedents
    omega
  rw [piecesFrom_same rfl] at hAll hRead
  rw [List.append_assoc] at hRead
  obtain ⟨d, h, e, hMove, hMove'⟩ := hAll.between (hLater line List.mem_cons_self) hRead
    (countP_turn _ _) (by simp [List.countP_append, countP_turn, isCode, hEmpty])
    (countP_dedents _) hz hPerm
  exact indent_of_turns hEmpty hMove hMove'

/-- A comment behind the last line, which is in a block. -/
theorem closes_of_same {before : List Text} {c : Text} {s : Script}
    (hOld : DistinctEntries {} (render (tokenPieces (before ++ []))) s)
    (hPlain : ∀ l ∈ before ++ [], PlainLine l) (hPlainC : PlainLine c)
    (hCode : ∀ l ∈ before, isEmptyLine l = false) (hEmpty : isEmptyLine c = true)
    (hSame : (Reading.script (render (tokenPieces (before ++ [c])))).1 = s)
    (hOpen : openLevels 0 before > 0) : indentation c ≤ indentation (lastLine before) := by
  obtain ⟨L, L', qs, rs, hAll, hSplit, hRead, hRest, hPerm⟩ :=
    walk_of_comment hOld hPlain hPlainC hEmpty hSame
  have hNe : before ≠ [] := by
    rintro rfl
    cases hOpen
  by_contra hDeep
  obtain ⟨n, hn⟩ : ∃ n : Nat, (openLevels 0 before).toNat = n + 1 :=
    ⟨(openLevels 0 before - 1).toNat, by omega⟩
  rw [tokenPieces_append, piecesFrom, turn_of_lt (by omega)] at hSplit
  obtain ⟨z, rfl, hEnd⟩ := append_of_no_code (a := []) hCode hRest hNe hSplit
  rw [List.append_nil, tokenPieces, hn, List.replicate_succ] at hAll
  rw [List.nil_append] at hRead
  obtain ⟨_, _, d, h, hBefore, hDedents, rfl⟩ := hAll.exists_append
  obtain ⟨_, _, d', h', hBefore', hBehind, rfl⟩ := hRead.exists_append
  obtain ⟨rfl, rfl, rfl⟩ := hBefore.unique hBefore'
  -- the `DEDENT` says that the last line is no header, so no `INDENT` may follow it
  cases hDedents
  cases z with
  | nil => cases hBehind
  | cons p z =>
    rw [List.cons_append] at hEnd
    obtain ⟨rfl, -⟩ := List.cons.inj hEnd
    cases hBehind

theorem dropReturn_render {ps : List Piece} (h : Plain ps) :
    dropReturn (render ps) = render ps := by
  have hReturn := head_render h
  unfold dropReturn
  split
  · rename_i t hText
    rw [hText] at hReturn
    exact absurd rfl hReturn
  · rfl

/-- The grammar comes to the start of a body behind `INDENT` lines only. -/
theorem not_comesBetween_start {ps qs : List Piece} {p : Piece} (hp : p ≠ .indent)
    (hPlain : Plain (ps ++ [p] ++ qs)) : ¬ ComesBetween (ps ++ [p]) qs .start := by
  intro hComes
  rw [ComesBetween, dropReturn_render (plain_append.mp hPlain).2] at hComes
  obtain ⟨a, rs, hSplit, hText⟩ := comes_start hComes rfl rfl hPlain
  have hEnd : (ps ++ [p]) ++ qs = (a ++ [.indent]) ++ rs := by
    rw [hSplit, List.append_assoc]
    rfl
  obtain ⟨-, hLast⟩ := List.append_inj' (prefix_of_render hEnd hText) rfl
  exact hp (List.singleton_inj.mp hLast)

theorem not_tokenLine {p : Piece} {k : Text} {ps : List Piece}
    (hToken : p = .indent ∧ k = "INDENT".toList ∨ p = .dedent ∧ k = "DEDENT".toList)
    (hPlain : Plain ps) (hHead : ps.head? ≠ some p) : ¬ TokenLine k (dropReturn (render ps)) := by
  rw [dropReturn_render hPlain]
  rintro ⟨t₁, t₂, hText, -⟩
  obtain ⟨ps', rfl, -⟩ := token_of_word hToken hPlain hText
  exact hHead rfl

/-- No token line is added for the comment, no `INDENT` line follows it, and it does not come
between an `INDENT` line and a `DEDENT` line. -/
theorem CommentFits.of_noToken {before after : List Text} {indent : Nat} {ps qs : List Piece}
    (hSplit : tokenPieces (before ++ after) = ps ++ qs) (hNoToken : NoToken before after indent ps)
    (hPlain : Plain (ps ++ qs)) (hIndent : qs.head? ≠ some .indent)
    (hDedent : qs.head? = some .dedent → ∃ u p, ps = u ++ [p] ∧ p ≠ .indent) :
    CommentFits before after indent := by
  have hRest := (plain_append.mp hPlain).2
  refine .noToken hSplit hNoToken (fun _ => not_tokenLine (.inl ⟨rfl, rfl⟩) hRest hIndent)
    fun hStart => not_tokenLine (.inr ⟨rfl, rfl⟩) hRest fun hHead => ?_
  obtain ⟨u, p, rfl, hp⟩ := hDedent hHead
  exact not_comesBetween_start hp hPlain hStart

theorem exists_last_piece {lines : List Text} (hNe : lines ≠ []) :
    ∃ u p, piecesFrom 0 lines = u ++ [p] ∧ p ≠ .indent := by
  obtain ⟨u, l, hLast, -⟩ := exists_last_line hNe 0
  exact ⟨u, .line l, hLast, by simp⟩

theorem fits_of_indent {before rest : List Text} {line : Text} {indent : Nat}
    (hPlain : ∀ l ∈ before ++ line :: rest, PlainLine l)
    (h : indent = indentation line ∨
      indent = indentation (lastLine before) ∧ indentation line ≤ indentation (lastLine before)) :
    CommentFits before (line :: rest) indent := by
  have hPieces := plain_tokenPieces hPlain
  obtain ⟨qs, hSplit⟩ : ∃ qs, tokenPieces (before ++ line :: rest) = piecesFrom 0 before ++
      (turn (indentation (lastLine before)) (indentation line) ++ .line line :: qs) :=
    ⟨_, by rw [tokenPieces_append, piecesFrom, List.append_assoc, List.cons_append]⟩
  rw [hSplit] at hPieces
  by_cases hNext : indent = indentation line
  · rw [← List.append_assoc, ← hNext] at hSplit hPieces
    exact .of_noToken hSplit (.next rfl hNext) hPieces (by simp) (by simp)
  · obtain ⟨hPrevious, hLe⟩ := h.resolve_left hNext
    have hLess : indentation line < indentation (lastLine before) := by omega
    have hNe : before ≠ [] := by
      rintro rfl
      cases hLess
    refine .of_noToken hSplit (.previous hPrevious) hPieces ?_ fun _ => exists_last_piece hNe
    rw [turn_of_gt hLess]
    simp

theorem fits_of_last {before : List Text} {indent : Nat} (hPlain : ∀ l ∈ before, PlainLine l)
    (hOpen : openLevels 0 before > 0) (h : indent ≤ indentation (lastLine before)) :
    CommentFits before [] indent := by
  have hPieces := plain_tokenPieces hPlain
  have hNe : before ≠ [] := by
    rintro rfl
    cases hOpen
  obtain ⟨n, hn⟩ : ∃ n : Nat, (openLevels 0 before).toNat = n + 1 :=
    ⟨(openLevels 0 before - 1).toNat, by omega⟩
  have hSplit : tokenPieces (before ++ []) =
      piecesFrom 0 before ++ [.dedent] ++ List.replicate n .dedent := by
    rw [List.append_nil, tokenPieces, hn, List.replicate_succ, List.append_assoc]
    rfl
  rw [List.append_nil] at hSplit
  rw [hSplit] at hPieces
  rcases Nat.lt_or_eq_of_le h with hLess | hPrevious
  · refine .of_noToken (by rw [List.append_nil, hSplit]) (.closing rfl hLess hOpen) hPieces ?_
      fun _ => ⟨_, .dedent, rfl, by simp⟩
    cases n <;> simp [List.replicate_succ]
  · rw [List.append_assoc] at hSplit hPieces
    exact .of_noToken (by rw [List.append_nil, hSplit]) (.previous hPrevious) hPieces (by simp)
      fun _ => exists_last_piece hNe

/-- A text without comments that gives the same script with the comment. -/
theorem fits_of_same {before after : List Text} {c : Text} {s : Script} (hc : IsComment c)
    (hRead : DistinctEntries {} (render (tokenPieces (before ++ after))) s)
    (hCode : ∀ l ∈ before ++ after, isEmptyLine l = false)
    (hPlain : ∀ l ∈ before ++ after, PlainLine l)
    (hSame : (Reading.script (render (tokenPieces (before ++ c :: after)))).1 = s) :
    CommentFits before after (indentation c) := by
  cases after with
  | cons line rest =>
    exact fits_of_indent hPlain (indent_of_same hRead hPlain hc.plain hCode hc.isEmptyLine hSame)
  | nil =>
    by_cases hOpen : openLevels 0 before > 0
    · have hLast : ∀ l ∈ before, PlainLine l ∧ isEmptyLine l = false := fun l hl =>
        ⟨hPlain l (List.mem_append_left _ hl), hCode l (List.mem_append_left _ hl)⟩
      exact fits_of_last (fun l hl => (hLast l hl).1) hOpen (closes_of_same hRead hPlain hc.plain
        (fun l hl => (hLast l hl).2) hc.isEmptyLine hSame hOpen)
    · refine .trailing ⟨s, ?_⟩ fun l hl => absurd hl List.not_mem_nil
      rw [List.append_nil, tokenPieces, Int.toNat_eq_zero.mpr (by omega), List.replicate_zero,
        List.append_nil] at hRead
      exact hRead.entries

theorem iterate_comments {ps : List Piece} (h : ∀ l, .line l ∈ ps → IsComment l) (s : Script) :
    (Peg.iterate Reading.entry s (render ps)).1 = s := by
  induction ps with
  | nil => rw [render, List.flatMap_nil, Peg.iterate_of_none (Reading.entry_nil s)]
  | cons p ps ih =>
    have hPlain : Plain (p :: ps) := fun l hl => (h l hl).plain
    cases p with
    | line l =>
      have hLine := Reading.lineEnd_comment (h l List.mem_cons_self) (render ps)
      rw [dropReturn_render (plain_cons hPlain), ← render_line] at hLine
      rw [Peg.iterate_of_some Reading.shrinks_entry (Reading.entry_blank hLine)]
      exact ih fun l hl => h l (List.mem_cons_of_mem _ hl)
    | indent => rw [Peg.iterate_of_none (entry_token (by simp) hPlain s)]
    | dedent => rw [Peg.iterate_of_none (entry_token (by simp) hPlain s)]

theorem script_trailing {ps qs : List Piece} {s : Script} (hRead : Entries {} (render ps) s)
    (h : ∀ l, .line l ∈ qs → IsComment l) : (Reading.script (render (ps ++ qs))).1 = s := by
  have hPlain : Plain qs := fun l hl => (h l hl).plain
  rw [Reading.script, render_append, Reading.iterate_entries hRead (head_render hPlain)]
  exact iterate_comments h s

theorem script_of_fits {before after : List Text} {c : Text} (hc : IsComment c)
    (hFits : CommentFits before after (indentation c)) :
    (Reading.script (render (tokenPieces (before ++ c :: after)))).1 =
      (Reading.script (render (tokenPieces (before ++ after)))).1 := by
  cases hFits with
  | @unread qs hOld hNever =>
    rw [hOld, tokenPieces_append, render_append _ qs, render_append (piecesFrom 0 before)]
    refine Reading.script_of_harmless (Q := fun _ => False) ⟨False.elim, False.elim, False.elim⟩
      (render_eq _) fun spot hComes => hNever spot ?_
    rwa [ComesBetween, render_append]
  | @noToken ps qs hOld hNoToken hHeader hStart =>
    obtain ⟨qs', hOld', hNew⟩ := hNoToken.exists_rest
    obtain rfl : qs = qs' := List.append_cancel_left (hOld.symm.trans hOld')
    rw [hOld, hNew, render_append, render_append, render_line]
    refine Reading.script_of_harmless (Reading.harmless_comment hc hHeader hStart) (render_eq ps)
      fun spot hComes => ?_
    rwa [ComesBetween, render_append]
  | trailing hRead hAfter =>
    obtain ⟨s, hEntries⟩ := hRead
    have hComments {lines : List Text} (h : ∀ l ∈ lines, IsComment l) (cur n : Nat) (l : Text)
        (hl : .line l ∈ piecesFrom cur lines ++ List.replicate n .dedent) : IsComment l := by
      rcases List.mem_append.mp hl with hLine | hDedent
      · exact h l (line_of_mem_piecesFrom hLine)
      · simp at hDedent
    rw [tokenPieces_append, tokenPieces_append, script_trailing hEntries (hComments hAfter _ _),
      script_trailing hEntries (hComments (List.forall_mem_cons.mpr ⟨hc, hAfter⟩) _ _)]

/-- A comment line that fits leaves the script as it is. In a text that is read to its end and has
no other comment, one that does not fit changes the script. -/
theorem comment_line_ignored {before after c : Text} (scriptFn : Text)
    (hBefore : before = [] ∨ ∃ u, before = u ++ ['\n']) (hc : IsComment c) :
    (CommentFits (codeLines before) (codeLines after) (indentation c) →
      parseScript scriptFn (before ++ (c ++ '\n' :: after)) =
        parseScript scriptFn (before ++ after)) ∧
    (Uncommented (before ++ after) →
      (parseScript scriptFn (before ++ (c ++ '\n' :: after)) =
          parseScript scriptFn (before ++ after) ↔
        CommentFits (codeLines before) (codeLines after) (indentation c))) := by
  have hScripts : parseScript scriptFn (before ++ (c ++ '\n' :: after)) =
        parseScript scriptFn (before ++ after) ↔
      (Reading.script (render (tokenPieces (codeLines before ++ c :: codeLines after)))).1 =
        (Reading.script (render (tokenPieces (codeLines before ++ codeLines after)))).1 := by
    rw [parseScript_eq_ok, parseScript_eq_ok, indentToTokens_eq, indentToTokens_eq,
      codeLines_append hBefore, codeLines_append hBefore, codeLines_comment hc, Option.some_inj,
      Except.ok.injEq]
  have hLines := codeLines_append hBefore after
  rw [hScripts]
  refine ⟨script_of_fits hc, fun hText => ⟨fun hSame => ?_, script_of_fits hc⟩⟩
  obtain ⟨s, hRead⟩ := hText.read
  rw [indentToTokens_eq, hLines] at hRead
  rw [Reading.script_eq_iff.mpr hRead.entries] at hSame
  exact fits_of_same hc hRead (hLines ▸ hText.code) (hLines ▸ hText.plain) hSame

theorem comment_line_ignored_run :
    parseScript [] ("w while a:\n  b\n".toList ++ ("  # c".toList ++ '\n' :: "  a\n".toList)) =
        parseScript [] ("w while a:\n  b\n".toList ++ "  a\n".toList) ∧
      CommentFits (codeLines "w while a:\n  b\n".toList) (codeLines "  a\n".toList)
        (indentation "  # c".toList) := by
  have hc : IsComment "  # c".toList :=
    ⟨"  ".toList, " c".toList, by decide, List.all_eq_true.mp rfl, rfl⟩
  have hIndent : indentation "  # c".toList = 2 := by decide
  have hBefore : codeLines "w while a:\n  b\n".toList = ["w while a:".toList, "  b".toList] := by
    decide
  have hAfter : codeLines "  a\n".toList = ["  a".toList] := by decide
  have hFits : CommentFits (codeLines "w while a:\n  b\n".toList) (codeLines "  a\n".toList)
      (indentation "  # c".toList) := by
    rw [hBefore, hAfter, hIndent]
    refine @CommentFits.noToken _ _ _ _ [.line "  a".toList, .dedent] (by decide) (.previous rfl)
      (fun _ => ?_) fun _ => ?_
    all_goals
      rintro ⟨t₁, t₂, hText, -⟩
      cases hText
  have hGroup : Group { name := ['w'], control := ['a'], commands := [.mk ['b'] [], .mk ['a'] []] }
      "w while a:\nINDENT\n  b\n  a\nDEDENT\n".toList [] := by
    have hEnd (t : Text) (h : t.head? ≠ some '\r') : Newline ('\n' :: t) t := .lineFeed t h
    have hItems : Items [.mk ['b'] [], .mk ['a'] []] "  b\n  a\nDEDENT\n".toList
        "DEDENT\n".toList :=
      @Items.call _ "  ".toList [] ['b'] "\n  a\nDEDENT\n".toList _ _ (by decide) (.inl rfl)
        (by decide) (by decide) (.mk pad_nil (.newline (hEnd _ (by decide))))
        (@Items.call _ "  ".toList [] ['a'] "\nDEDENT\n".toList _ _ (by decide) (.inl rfl)
          (by decide) (by decide) (.mk pad_nil (.newline (hEnd _ (by decide)))) (.nil _))
    exact @Group.mk ['w'] ['a'] [' '] [' '] [] _ _ _ (by decide) (by decide) (by decide)
      (by decide) (by decide) pad_nil
      (@Block.mk _ "\nINDENT\n  b\n  a\nDEDENT\n".toList "\n  b\n  a\nDEDENT\n".toList _
        "\n".toList _ (.mk pad_nil (.newline (hEnd _ (by decide)))) (hEnd _ (by decide)) (by decide)
        hItems (hEnd _ (by decide)))
  have hText : Uncommented ("w while a:\n  b\n".toList ++ "  a\n".toList) := by
    have hTokens : indentToTokens ("w while a:\n  b\n".toList ++ "  a\n".toList) =
        "w while a:\nINDENT\n  b\n  a\nDEDENT\n".toList := by decide
    refine ⟨?_, by decide, by decide⟩
    rw [hTokens]
    exact ⟨_, .group hGroup (by simp) (.nil _)⟩
  have hFeed : "w while a:\n  b\n".toList = "w while a:\n  b".toList ++ ['\n'] := by decide
  obtain ⟨hSame, hOnly⟩ := comment_line_ignored [] (.inr ⟨_, hFeed⟩) hc
  exact ⟨hSame hFits, (hOnly hText).mp (hSame hFits)⟩

/-- A comment line at the margin of a group: in the body it cuts the group off, behind the header
the group is gone. -/
theorem comment_line_changes_group :
    let calls (s : Script) := s.procs.toList.map fun x => (x.1, x.2.commands.map Statement.call)
    IsComment "# c".toList ∧
    (∃ s, parseScript [] "w while a:\n  a\n  b\n".toList = some (.ok s) ∧
      calls s = [(['w'], [['a'], ['b']])]) ∧
    (∃ s, parseScript [] "w while a:\n  a\n# c\n  b\n".toList = some (.ok s) ∧
      calls s = [(['w'], [['a']])]) ∧
    ∃ s, parseScript [] "w while a:\n# c\n  a\n  b\n".toList = some (.ok s) ∧ calls s = [] := by
  intro calls
  have hRun (text : Text) {found : List (Text × List Text)}
      (h : (match parseScript [] text with
        | some (.ok s) => some (calls s)
        | _ => none) = some found) :
      ∃ s, parseScript [] text = some (.ok s) ∧ calls s = found := by
    split at h
    · rename_i s hScript
      exact ⟨s, hScript, Option.some.inj h⟩
    · cases h
  refine ⟨⟨[], " c".toList, by decide, List.all_eq_true.mp rfl, rfl⟩, hRun _ ?_, hRun _ ?_,
    hRun _ ?_⟩
  · decide +kernel
  · decide +kernel
  · decide +kernel

end Henson.Hwl
