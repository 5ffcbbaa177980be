import Mathlib.Data.List.TakeWhile
import Henson.Hwl.Locality
import Henson.Hwl.CommentLine
import Henson.Hwl.TokenLines

/-!
# Lines of the grammar among the pieces

Where no line has a carriage return or begins like a token line, the lines of the
grammar are the pieces: what begins in a line ends in it, and an `INDENT` or
`DEDENT` that the grammar reads is a token line.
-/

namespace Henson.Hwl

/-- A line that the grammar skips. -/
def isEmptyLine (l : Text) : Bool := (l.dropWhile isPad).head?.all (· = '#')

/-- The line opens a block, if it is read at all: in front of its comment there is a colon, and it
is not the colon of a command line. -/
def isHeader (l : Text) : Bool :=
  (l.takeWhile (· ≠ '#')).contains ':' && !(l.takeWhile (· ≠ '#')).contains '='

/-- A line for the grammar, too, and not a token line. -/
def PlainLine (l : Text) : Prop := (∀ c ∈ l, isNewline c = false) ∧ ¬ StartsWithToken l

instance (t : Text) : Decidable (StartsWithToken t) := inferInstanceAs (Decidable (_ ∨ _))

instance (l : Text) : Decidable (PlainLine l) :=
  have : Decidable (∀ c ∈ l, isNewline c = false) := List.decidableBAll _ l
  inferInstanceAs (Decidable ((∀ c ∈ l, isNewline c = false) ∧ ¬ StartsWithToken l))

def Plain (ps : List Piece) : Prop := ∀ l, .line l ∈ ps → PlainLine l

theorem plain_cons {p : Piece} {ps : List Piece} (h : Plain (p :: ps)) : Plain ps :=
  fun l hl => h l (List.mem_cons_of_mem _ hl)

theorem plain_append {ps qs : List Piece} : Plain (ps ++ qs) ↔ Plain ps ∧ Plain qs := by
  simp only [Plain, List.mem_append, or_imp, forall_and]

theorem split_line {a b x r : Text} (ha : ∀ c ∈ a, isNewline c = false)
    (h : a ++ b = x ++ '\n' :: r) : ∃ y, x = a ++ y ∧ b = y ++ '\n' :: r := by
  rcases List.append_eq_append_iff.mp h with ⟨y, hx, hb⟩ | ⟨y, hx, hr⟩
  · exact ⟨y, hx, hb⟩
  · cases y with
    | nil => exact ⟨[], by simpa using hx.symm, hr.symm⟩
    | cons c y =>
      obtain ⟨rfl, -⟩ := List.cons.inj hr
      have hFeed := ha '\n' (by simp [hx])
      cases hFeed

theorem head_render {ps : List Piece} (h : Plain ps) : (render ps).head? ≠ some '\r' := by
  cases ps with
  | nil => simp [render]
  | cons p ps =>
    cases p with
    | indent => simp [render_indent]
    | dedent => simp [render_dedent]
    | line l =>
      rw [render_line]
      cases l with
      | nil => simp
      | cons c l =>
        have hc := (h _ List.mem_cons_self).1 c List.mem_cons_self
        intro hHead
        obtain rfl : c = '\r' := by simpa using hHead
        cases hc

theorem newline_render {ps : List Piece} (h : Plain ps) {t : Text}
    (hNewline : Newline ('\n' :: render ps) t) : t = render ps := by
  generalize hText : '\n' :: render ps = u at hNewline
  cases hNewline with
  | both t =>
    have hHead : (render ps).head? = some '\r' := by
      rw [(List.cons.inj hText).2]
      rfl
    exact absurd hHead (head_render h)
  | lineFeed t => exact (List.cons.inj hText).2.symm
  | carriageReturn t => cases (List.cons.inj hText).1

/-- The rest of a line: blanks, and perhaps a comment. -/
def EmptyRest (y : Text) : Prop := ∃ w, Pad w ∧ (y = w ∨ ∃ v, y = w ++ '#' :: v)

theorem isNewline_of_isPad {c : Char} (h : isPad c = true) : isNewline c = false := by
  simp only [isPad, Bool.or_eq_true, decide_eq_true_eq] at h
  rcases h with rfl | rfl <;> rfl

theorem Newline.isNewline_head {c : Char} {t t' : Text} (h : Newline (c :: t) t') :
    isNewline c = true := by
  cases h <;> rfl

theorem newline_rest {y t' : Text} {ps : List Piece} (hy : ∀ c ∈ y, isNewline c = false)
    (h : Plain ps) (hNewline : Newline (y ++ '\n' :: render ps) t') : y = [] ∧ t' = render ps := by
  cases y with
  | nil => exact ⟨rfl, newline_render h hNewline⟩
  | cons c y =>
    have hc := hy c List.mem_cons_self
    rw [← Bool.not_eq_true] at hc
    exact absurd hNewline.isNewline_head hc

theorem lineEnd_rest {y t' : Text} {ps : List Piece} (hy : ∀ c ∈ y, isNewline c = false)
    (h : Plain ps) (hLine : LineEnd (y ++ '\n' :: render ps) t') :
    EmptyRest y ∧ t' = render ps := by
  generalize hText : y ++ '\n' :: render ps = u at hLine
  obtain ⟨hw, hEnding⟩ := hLine
  rename_i w t
  obtain ⟨z, rfl, rfl⟩ := split_line (fun c hc => isNewline_of_isPad (hw c hc)) hText.symm
  have hz : ∀ c ∈ z, isNewline c = false := fun c hc => hy c (List.mem_append_right _ hc)
  generalize hRest : z ++ '\n' :: render ps = u at hEnding
  cases hEnding with
  | newline hNewline =>
    rw [← hRest] at hNewline
    obtain ⟨rfl, rfl⟩ := newline_rest hz h hNewline
    exact ⟨⟨w, hw, .inl (List.append_nil w)⟩, rfl⟩
  | @comment v r _ hv hNewline =>
    cases z with
    | nil => cases (List.cons.inj hRest).1
    | cons c z =>
      obtain ⟨rfl, hBehind⟩ := List.cons.inj hRest
      have hvLine : ∀ c ∈ v, isNewline c = false := by
        intro c hc
        have hComment := hv c hc
        simp only [isCommentChar, Bool.and_eq_true, Bool.not_eq_true'] at hComment
        exact hComment.2
      obtain ⟨x, rfl, rfl⟩ := split_line hvLine hBehind.symm
      have hx : ∀ c ∈ x, isNewline c = false := fun c hc =>
        hz c (List.mem_cons_of_mem _ (List.mem_append_right _ hc))
      obtain ⟨rfl, rfl⟩ := newline_rest hx h hNewline
      exact ⟨⟨w, hw, .inr ⟨v, by simp⟩⟩, rfl⟩

theorem EmptyRest.isEmptyLine {y : Text} (h : EmptyRest y) : isEmptyLine y = true := by
  obtain ⟨w, hw, rfl | ⟨v, rfl⟩⟩ := h
  · rw [Hwl.isEmptyLine, List.dropWhile_eq_nil_iff.mpr hw]
    rfl
  · rw [Hwl.isEmptyLine, List.dropWhile_append_of_pos hw]
    rfl

theorem EmptyRest.takeWhile {y : Text} (h : EmptyRest y) : Pad (y.takeWhile (· ≠ '#')) := by
  have hHash {w : Text} (hw : Pad w) : ∀ x ∈ w, decide (x ≠ '#') = true := by
    intro x hx
    have hPad := hw x hx
    rw [decide_eq_true_eq]
    rintro rfl
    cases hPad
  obtain ⟨w, hw, rfl | ⟨v, rfl⟩⟩ := h
  · exact fun c hc => hw c ((List.takeWhile_sublist _).subset hc)
  · rw [List.takeWhile_append_of_pos (hHash hw)]
    simpa using hw

theorem isEmptyLine_of_start {w y : Text} {c : Char} (hw : Pad w) (hc : isBlankStart c = false) :
    isEmptyLine (w ++ c :: y) = false := by
  rw [isBlankStart, Bool.or_eq_false_iff, decide_eq_false_iff_not] at hc
  rw [isEmptyLine, List.dropWhile_append_of_pos hw, List.dropWhile_cons_of_neg (by simp [hc.1])]
  simp [hc.2]

theorem isEmptyLine_of_name {n y : Text} (hn : ValidName n) : isEmptyLine (n ++ y) = false := by
  cases n with
  | nil => cases hn
  | cons c n => exact isEmptyLine_of_start pad_nil (isBlankStart_of_isLetter hn.1)

theorem isHeader_append {u y : Text} (hu : '#' ∉ u) (hy : EmptyRest y) :
    isHeader (u ++ y) = (u.contains ':' && !u.contains '=') := by
  have hAll : ∀ x ∈ u, decide (x ≠ '#') = true := by
    intro x hx
    rw [decide_eq_true_eq]
    rintro rfl
    exact hu hx
  have hRest {c : Char} (hc : isPad c = false) : (y.takeWhile (· ≠ '#')).contains c = false := by
    rw [List.contains_eq_mem, decide_eq_false_iff_not]
    intro hMem
    rw [hy.takeWhile c hMem] at hc
    cases hc
  rw [isHeader, List.takeWhile_append_of_pos hAll]
  simp only [List.contains_eq_mem, List.mem_append, Bool.decide_or] at hRest ⊢
  rw [hRest rfl, hRest rfl, Bool.or_false, Bool.or_false]

/-- The characters of a call, and of a header in front of the colon. -/
def isWordChar (c : Char) : Bool := isPad c || isNameChar c || decide (c = '*')

def Words (v : Text) : Prop := ∀ c ∈ v, isWordChar c = true

instance (v : Text) : Decidable (Words v) := List.decidableBAll (fun c => isWordChar c = true) v

theorem Pad.words {w : Text} (hw : Pad w) : Words w := by
  intro c hc
  rw [isWordChar, hw c hc, Bool.true_or, Bool.true_or]

theorem ValidName.words {n : Text} (hn : ValidName n) : Words n := by
  have hName {c : Char} (hc : isNameChar c = true) : isWordChar c = true := by
    rw [isWordChar, hc, Bool.or_true, Bool.true_or]
  cases n with
  | nil => cases hn
  | cons x n =>
    intro c hc
    rcases List.mem_cons.mp hc with rfl | hc
    · exact hName (by rw [isNameChar, hn.1, Bool.true_or])
    · exact hName (hn.2 c hc)

theorem words_append {v v' : Text} : Words (v ++ v') ↔ Words v ∧ Words v' :=
  List.forall_mem_append

theorem if_words {w w' w'' c : Text} (hw : Pad w) (hw' : Pad w') (hc : ValidName c)
    (hw'' : Pad w'') : Words (w ++ ("if".toList ++ (w' ++ (c ++ w'')))) := by
  simp only [words_append]
  exact ⟨hw.words, by decide, hw'.words, hc.words, hw''.words⟩

theorem group_words {n c w w' w'' : Text} (hn : ValidName n) (hw : Pad w) (hw' : Pad w')
    (hc : ValidName c) (hw'' : Pad w'') :
    Words (n ++ (w ++ ("while".toList ++ (w' ++ (c ++ w''))))) := by
  simp only [words_append]
  exact ⟨hn.words, hw.words, by decide, hw'.words, hc.words, hw''.words⟩

theorem Words.notMem {v : Text} (hv : Words v) {c : Char} (hc : isWordChar c = false) : c ∉ v := by
  intro hMem
  rw [hv c hMem] at hc
  cases hc

theorem Words.line {v : Text} (hv : Words v) : ∀ c ∈ v, isNewline c = false := by
  intro c hc
  rw [← Bool.not_eq_true]
  intro hNewline
  simp only [isNewline, Bool.or_eq_true, decide_eq_true_eq] at hNewline
  rcases hNewline with rfl | rfl
  · exact hv.notMem rfl hc
  · exact hv.notMem rfl hc

theorem Words.not_header {v y : Text} (hv : Words v) (hy : EmptyRest y) :
    isHeader (v ++ y) = false := by
  rw [isHeader_append (hv.notMem rfl) hy]
  simp [hv.notMem (c := ':') rfl]

theorem Words.header {v y : Text} (hv : Words v) (hy : EmptyRest y) :
    isHeader (v ++ [':'] ++ y) = true := by
  rw [isHeader_append (by simp [hv.notMem (c := '#') rfl]) hy]
  simp [hv.notMem (c := '=') rfl]

/-- What begins in a line, and is no token line, begins a line among the pieces. -/
theorem first_line {a b : Text} {ps : List Piece} (hab : a ++ b ≠ [])
    (ha : ∀ c ∈ a, isNewline c = false)
    (hWord : ∀ k ∈ ["INDENT".toList, "DEDENT".toList], ∀ t, a ++ b ≠ k ++ '\n' :: t)
    (h : a ++ b = render ps) :
    ∃ y ps', ps = .line (a ++ y) :: ps' ∧ b = y ++ '\n' :: render ps' := by
  cases ps with
  | nil => exact absurd h hab
  | cons p ps =>
    cases p with
    | indent => exact absurd (h.trans (render_indent ps)) (hWord _ (by simp) _)
    | dedent => exact absurd (h.trans (render_dedent ps)) (hWord _ (by simp) _)
    | line l =>
      rw [render_line] at h
      obtain ⟨y, rfl, rfl⟩ := split_line ha h
      exact ⟨y, ps, rfl, rfl⟩

theorem line_with {a b : Text} {c : Char} {ps : List Piece} (hc : c ∈ a)
    (hToken : c ∉ "INDENT".toList ∧ c ∉ "DEDENT".toList) (ha : ∀ c ∈ a, isNewline c = false)
    (h : a ++ b = render ps) :
    ∃ y ps', ps = .line (a ++ y) :: ps' ∧ b = y ++ '\n' :: render ps' := by
  refine first_line (by simp [List.ne_nil_of_mem hc]) ha ?_ h
  intro k hk t hText
  obtain ⟨y, hy, -⟩ := split_line ha hText
  have hIn : c ∈ k := hy ▸ List.mem_append_left _ hc
  simp only [List.mem_cons, List.not_mem_nil, or_false] at hk
  rcases hk with rfl | rfl
  · exact hToken.1 hIn
  · exact hToken.2 hIn

/-- A word of the tokens comes next, so its token line does. -/
theorem token_of_word {p : Piece} {k t : Text} {ps : List Piece}
    (hToken : p = .indent ∧ k = "INDENT".toList ∨ p = .dedent ∧ k = "DEDENT".toList)
    (hPlain : Plain ps) (h : render ps = k ++ t) :
    ∃ ps', ps = p :: ps' ∧ t = '\n' :: render ps' := by
  have hWord : (∀ c ∈ k, isNewline c = false) ∧ (∀ u, StartsWithToken (k ++ u)) := by
    rcases hToken with ⟨-, rfl⟩ | ⟨-, rfl⟩
    · exact ⟨line_of_all rfl, fun u => .inl (List.prefix_append _ u)⟩
    · exact ⟨line_of_all rfl, fun u => .inr (List.prefix_append _ u)⟩
  cases ps with
  | nil => rcases hToken with ⟨-, rfl⟩ | ⟨-, rfl⟩ <;> cases h
  | cons q ps =>
    cases q with
    | indent =>
      rw [render_indent] at h
      rcases hToken with ⟨rfl, rfl⟩ | ⟨-, rfl⟩
      · exact ⟨ps, rfl, (List.append_cancel_left h).symm⟩
      · cases h
    | dedent =>
      rw [render_dedent] at h
      rcases hToken with ⟨-, rfl⟩ | ⟨rfl, rfl⟩
      · cases h
      · exact ⟨ps, rfl, (List.append_cancel_left h).symm⟩
    | line l =>
      exfalso
      rw [render_line] at h
      obtain ⟨y, rfl, -⟩ := split_line hWord.1 h.symm
      exact (hPlain _ List.mem_cons_self).2 (hWord.2 y)

theorem indent_of_word {ps : List Piece} {t : Text} (hPlain : Plain ps)
    (h : render ps = "INDENT".toList ++ t) :
    ∃ ps', ps = .indent :: ps' ∧ t = '\n' :: render ps' :=
  token_of_word (.inl ⟨rfl, rfl⟩) hPlain h

theorem dedent_of_word {ps : List Piece} {t : Text} (hPlain : Plain ps)
    (h : render ps = "DEDENT".toList ++ t) :
    ∃ ps', ps = .dedent :: ps' ∧ t = '\n' :: render ps' :=
  token_of_word (.inr ⟨rfl, rfl⟩) hPlain h

theorem plain_line_append {a y : Text} {ps : List Piece} (h : Plain (.line (a ++ y) :: ps)) :
    ∀ c ∈ y, isNewline c = false :=
  fun c hc => (h _ List.mem_cons_self).1 c (List.mem_append_right _ hc)

theorem empty_line {ps : List Piece} {t' : Text} (hPlain : Plain ps)
    (h : LineEnd (render ps) t') :
    ∃ l ps', ps = .line l :: ps' ∧ isEmptyLine l = true ∧ t' = render ps' := by
  cases ps with
  | nil => cases Nat.not_lt_zero _ (Reading.shrinks_lineEnd _ _ (Reading.lineEnd_iff.mpr h))
  | cons p ps =>
    cases p with
    | indent => cases h.stopsAt_name 'I' rfl
    | dedent => cases h.stopsAt_name 'D' rfl
    | line l =>
      rw [render_line] at h
      obtain ⟨hEmpty, rfl⟩ := lineEnd_rest (hPlain l List.mem_cons_self).1 (plain_cons hPlain) h
      exact ⟨l, ps, rfl, hEmpty.isEmptyLine, rfl⟩

theorem call_line {w star n t : Text} {ps : List Piece} (hw : Pad w)
    (hStar : star = [] ∨ star = ['*']) (hn : ValidName n)
    (hToken : ¬ StartsWithToken (w ++ (star ++ (n ++ t))))
    (hText : w ++ (star ++ (n ++ t)) = render ps) :
    ∃ v y ps', Words v ∧ isEmptyLine (v ++ y) = false ∧ ps = .line (v ++ y) :: ps' ∧
      t = y ++ '\n' :: render ps' := by
  have hSame : w ++ (star ++ (n ++ t)) = w ++ (star ++ n) ++ t := by simp
  rw [hSame] at hText hToken
  have hWords : Words (w ++ (star ++ n)) := by
    refine words_append.mpr ⟨hw.words, words_append.mpr ⟨?_, hn.words⟩⟩
    rcases hStar with rfl | rfl
    · exact List.forall_mem_nil _
    · exact List.forall_mem_singleton.mpr rfl
  have hCode (y : Text) : isEmptyLine (w ++ (star ++ n) ++ y) = false := by
    cases n with
    | nil => cases hn
    | cons c n =>
      rw [List.append_assoc]
      rcases hStar with rfl | rfl
      · exact isEmptyLine_of_start hw (isBlankStart_of_isLetter hn.1)
      · exact isEmptyLine_of_start hw rfl
  have hNe : w ++ (star ++ n) ++ t ≠ [] := by
    intro hNil
    have hEmpty := hCode t
    rw [hNil] at hEmpty
    cases hEmpty
  have hNoToken : ∀ k ∈ ["INDENT".toList, "DEDENT".toList], ∀ t',
      w ++ (star ++ n) ++ t ≠ k ++ '\n' :: t' := by
    intro k hk t' hStart
    rw [hStart] at hToken
    simp only [List.mem_cons, List.not_mem_nil, or_false] at hk
    rcases hk with rfl | rfl
    · exact hToken (.inl (List.prefix_append _ _))
    · exact hToken (.inr (List.prefix_append _ _))
  obtain ⟨y, ps, rfl, rfl⟩ := first_line hNe hWords.line hNoToken hText
  exact ⟨_, y, ps, hWords, hCode y, rfl, rfl⟩

theorem header_line {v t : Text} {ps : List Piece} (hv : Words v)
    (h : v ++ ':' :: t = render ps) :
    ∃ y ps', ps = .line (v ++ [':'] ++ y) :: ps' ∧ t = y ++ '\n' :: render ps' := by
  refine line_with (c := ':') (by simp) (by decide) ?_ (by simpa using h)
  exact List.forall_mem_append.mpr ⟨hv.line, List.forall_mem_singleton.mpr rfl⟩

theorem if_line {t v : Text} (h : IfHeader t v) {ps : List Piece} (hText : t = render ps) :
    ∃ l y ps', ps = .line (l ++ y) :: ps' ∧ v = y ++ '\n' :: render ps' := by
  cases h with
  | @mk w w' w'' c v hw hw' hc hw'' =>
    obtain ⟨y, ps, rfl, rfl⟩ := header_line (if_words hw hw' hc hw'') (by simpa using hText)
    exact ⟨_, y, ps, rfl, rfl⟩

theorem group_line {t v : Text} (h : GroupHeader t v) {ps : List Piece} (hText : t = render ps) :
    ∃ l y ps', ps = .line (l ++ y) :: ps' ∧ v = y ++ '\n' :: render ps' := by
  cases h with
  | @mk n c w w' w'' v hn _ hw hw' hc hw'' =>
    obtain ⟨y, ps, rfl, rfl⟩ := header_line (group_words hn hw hw' hc hw'') (by simpa using hText)
    exact ⟨_, y, ps, rfl, rfl⟩

theorem plain_piecesFrom {cur : Nat} {lines : List Text} (h : ∀ l ∈ lines, PlainLine l) :
    Plain (piecesFrom cur lines) := fun l hl => h l (line_of_mem_piecesFrom hl)

theorem plain_tokenPieces {lines : List Text} (h : ∀ l ∈ lines, PlainLine l) :
    Plain (tokenPieces lines) :=
  plain_append.mpr ⟨plain_piecesFrom h, fun l hl => by simp at hl⟩

end Henson.Hwl
