import Mathlib.Logic.Basic
import Mathlib.Data.List.Basic
import Henson.Library.Peg
import Henson.Hwl.Syntax
import Henson.Hwl.Reading
import Henson.Hwl.WellFormed
import Henson.Hwl.Indent
import Henson.Hwl.Grammar
import Henson.Hwl.Refinement

/-!
# What the rules read is what is well formed

The repetitions over the lines of a body and over the parts of a script stop at
the first line that is neither. A body that reaches its `DEDENT` line, and a
script that reaches the end of the text, are well formed; and all that is well
formed is read.
-/

namespace Henson.Hwl.Reading

open Peg

theorem callee_append {star n t : Text} (hStar : star = [] ∨ star = ['*']) (hn : ValidName n)
    (ht : StopsAt isNameChar t) : callee (star ++ (n ++ t)) = some t := by
  rw [callee_eq]
  rcases hStar with rfl | rfl
  · cases n with
    | nil => cases hn
    | cons c w =>
      have hc : c ≠ '*' := by
        rintro rfl
        cases hn.1
      have hStar : satisfy (· = '*') (c :: w ++ t) = none := if_neg (by simpa using hc)
      rw [List.nil_append, hStar, Option.getD_none, name_append hn ht]
      rfl
  · have hStar : satisfy (· = '*') ('*' :: (n ++ t)) = some (n ++ t) := rfl
    rw [List.cons_append, List.nil_append, hStar, Option.getD_some, name_append hn ht]
    rfl

theorem consumed_callee {star n t : Text} (hStar : star = [] ∨ star = ['*']) (hn : ValidName n)
    (ht : StopsAt isNameChar t) : consumed callee (star ++ (n ++ t)) = some (star ++ n, t) := by
  have hCallee := callee_append hStar hn ht
  rw [← List.append_assoc] at hCallee ⊢
  exact consumed_append hCallee

theorem callee_split {t t' m : Text} (h : consumed callee t = some (m, t')) :
    ∃ star n, (star = [] ∨ star = ['*']) ∧ ValidName n ∧ m = star ++ n ∧
      t = star ++ (n ++ t') := by
  have hRead := (consumed_eq_some.mp h).1
  rw [callee_eq] at hRead
  obtain ⟨⟨n, u⟩, hName, rfl⟩ := Option.map_eq_some_iff.mp hRead
  obtain ⟨hn, hText, hStop⟩ := name_iff.mp hName
  obtain ⟨star, hStar, hSplit⟩ : ∃ star, (star = [] ∨ star = ['*']) ∧ t = star ++ (n ++ u) := by
    cases hFirst : satisfy (· = '*') t with
    | none => exact ⟨[], Or.inl rfl, by rw [hFirst] at hText; exact hText⟩
    | some v =>
      obtain rfl := satisfy_eq_iff.mp hFirst
      exact ⟨['*'], Or.inr rfl, congrArg ('*' :: ·) (by rw [hFirst] at hText; exact hText)⟩
  subst hSplit
  rw [consumed_callee hStar hn hStop] at h
  obtain ⟨rfl, -⟩ := Prod.mk.inj (Option.some.inj h)
  exact ⟨star, n, hStar, hn, rfl, rfl⟩

theorem call_head {t t' : Text} {s : Statement} (h : call t = some (s, t')) :
    ∃ c u, t = c :: u ∧ (c = '*' ∨ isLetter c = true) := by
  obtain ⟨m, t₁, -, hCallee, -⟩ := call_eq_some.mp h
  obtain ⟨star, n, hStar, hn, -, rfl⟩ := callee_split hCallee
  rcases hStar with rfl | rfl
  · cases n with
    | nil => cases hn
    | cons c w => exact ⟨c, w ++ t₁, rfl, Or.inr hn.1⟩
  · exact ⟨'*', n ++ t₁, rfl, Or.inl rfl⟩

theorem call_padded {t t' : Text} {s : Statement} (h : call (blanks t) = some (s, t')) :
    ∃ w, Pad w ∧ t = w ++ blanks t := by
  obtain ⟨c, u, hText, hc⟩ := call_head h
  have hComment : isCommentChar c = true := by
    rcases hc with rfl | hc
    · rfl
    · exact isCommentChar_of_isLetter hc
  exact blanks_padded rfl (congrArg List.head? hText) hComment

theorem name_padded {t t' n : Text} (h : name (blanks t) = some (n, t')) :
    ∃ w, Pad w ∧ t = w ++ (n ++ t') := by
  obtain ⟨hn, hText, -⟩ := name_iff.mp h
  cases n with
  | nil => cases hn
  | cons c n => exact blanks_padded hText rfl (isCommentChar_of_isLetter hn.1)

theorem call_append {star n t t' : Text} (hStar : star = [] ∨ star = ['*']) (hn : ValidName n)
    (ht : LineEnd t t') : call (star ++ (n ++ t)) = some (.mk (star ++ n) [], t') := by
  refine call_eq_some.mpr ⟨star ++ n, t, rfl, consumed_callee hStar hn ht.stopsAt_name, ?_⟩
  have hNl : nl (blanks t) = some t' := lineEnd_iff.mpr ht
  rw [orElse, hNl]
  rfl

theorem call_eq_none {n t u : Text} {c : Char} (hn : ValidName n) (ht : StopsAt isNameChar t)
    (hBlanks : blanks t = c :: u) (hc : isCommentChar c = true) : call (n ++ t) = none := by
  refine Option.eq_none_iff_forall_ne_some.mpr fun p h => ?_
  obtain ⟨s, t'⟩ := p
  obtain ⟨m, t₁, -, hCallee, hEnd⟩ := call_eq_some.mp h
  have hName := consumed_callee (Or.inl rfl) hn ht
  rw [List.nil_append, List.nil_append, hCallee] at hName
  obtain ⟨-, rfl⟩ := Prod.mk.inj (Option.some.inj hName)
  simp only [isCommentChar, Bool.and_eq_true, decide_eq_true_eq, Bool.not_eq_true'] at hc
  have hEof : eof (c :: u) = none := by
    have hAny : satisfy (· ≠ '\x00') (c :: u) = some u := if_pos (by simpa using hc.1)
    rw [eof, notAhead, hAny]
    rfl
  rw [hBlanks, orElse, nl_eq_none_iff.mpr hc.2, hEof] at hEnd
  cases hEnd

theorem token_eq_none_iff {t : Text} : orElse indent dedent t = none ↔ ¬ StartsWithToken t := by
  have hWord (w : Text) : word w t = none ↔ ¬ w <+: t := by
    constructor
    · rintro hNone ⟨u, rfl⟩
      rw [word_append] at hNone
      cases hNone
    · intro hNot
      refine Option.eq_none_iff_forall_ne_some.mpr fun u h => hNot ⟨u, ?_⟩
      exact (word_eq_some.mp h).symm
  rw [orElse, Option.or_eq_none_iff, indent, dedent, hWord, hWord, StartsWithToken, not_or]

section Items

variable {r : Reader Char (List Statement)} {acc : List Statement}

theorem item_dedent (t : Text) : item r acc ("DEDENT".toList ++ t) = none := by
  refine Option.eq_none_iff_forall_ne_some.mpr fun p h => ?_
  obtain ⟨ss, t'⟩ := p
  rcases item_eq_some.mp h with ⟨s, -, hStatement⟩ | ⟨-, -, hLine⟩
  · exact token_eq_none_iff.mp (statement_eq_some.mp hStatement).1 (Or.inr ⟨t, rfl⟩)
  · have hBlanks : blanks ("DEDENT".toList ++ t) = "DEDENT".toList ++ t :=
      blanks_of_stopsAt (stopsAt_cons rfl)
    have hNl : nl ("DEDENT".toList ++ t) = none := nl_eq_none_iff.mpr rfl
    rw [lineEnd, hBlanks, hNl] at hLine
    cases hLine

theorem item_blank {t t' : Text} (h : LineEnd t t') : item r acc t = some (acc, t') := by
  have hLine := lineEnd_iff.mpr h
  refine item_eq_some.mpr (Or.inr ⟨rfl, ?_, hLine⟩)
  have hNewline := nl_iff.mp hLine
  refine Option.eq_none_iff_forall_ne_some.mpr fun p hStatement => ?_
  obtain ⟨s, t'⟩ := p
  rcases (statement_eq_some.mp hStatement).2 with hCall | ⟨-, hIf⟩
  · obtain ⟨c, u, hText, hc⟩ := call_head hCall
    rw [hText] at hNewline
    rcases hc with rfl | hc
    · cases hNewline
    · cases hNewline <;> cases hc
  · obtain ⟨c, body, t₁, t₂, -, hWord, -⟩ := ifStmt_eq_some.mp hIf
    rw [word_eq_some.mp hWord] at hNewline
    cases hNewline

theorem item_call {w star n t t' : Text} (hw : Pad w) (hStar : star = [] ∨ star = ['*'])
    (hn : ValidName n) (hToken : ¬ StartsWithToken (w ++ (star ++ (n ++ t)))) (ht : LineEnd t t') :
    item r acc (w ++ (star ++ (n ++ t))) = some (acc ++ [.mk (star ++ n) []], t') := by
  have hCall := call_append hStar hn ht
  have hBlanks : blanks (w ++ (star ++ (n ++ t))) = star ++ (n ++ t) := by
    obtain ⟨c, u, hText, hc⟩ := call_head hCall
    rw [hText]
    refine blanks_append_cons hw ?_ u
    rcases hc with rfl | hc
    · rfl
    · exact isBlankStart_of_isLetter hc
  refine item_eq_some.mpr (Or.inl ⟨_, rfl, statement_eq_some.mpr ⟨token_eq_none_iff.mpr hToken, ?_⟩⟩)
  rw [hBlanks]
  exact Or.inl hCall

theorem item_if {w w' w'' c t t' : Text} {body : List Statement} (hw : Pad w) (hw' : Pad w')
    (hc : ValidName c) (hw'' : Pad w'') (hBlock : block r (':' :: t) = some (body, t')) :
    item r acc (w ++ ("if".toList ++ (w' ++ (c ++ (w'' ++ ':' :: t))))) =
      some (acc ++ [.mk c body], t') := by
  have hName : StopsAt isNameChar (w'' ++ ':' :: t) :=
    .append (fun x hx => isNameChar_of_isPad (hw'' x hx)) (stopsAt_cons rfl)
  have hColon : blanks (w'' ++ ':' :: t) = ':' :: t := blanks_append_cons hw'' rfl t
  have hCondition : blanks (w' ++ (c ++ (w'' ++ ':' :: t))) = c ++ (w'' ++ ':' :: t) := by
    cases c with
    | nil => cases hc
    | cons x c => exact blanks_append_cons hw' (isBlankStart_of_isLetter hc.1) _
  have hIf : ifStmt r ("if".toList ++ (w' ++ (c ++ (w'' ++ ':' :: t)))) =
      some (.mk c body, t') := by
    refine ifStmt_eq_some.mpr ⟨c, body, _, w'' ++ ':' :: t, rfl, word_append _ _, ?_, ?_⟩
    · rw [hCondition]
      exact name_append hc hName
    · rw [hColon]
      exact hBlock
  -- the longest name at the start of the line is `if`, or `if` and the condition run together
  have hCall : call ("if".toList ++ (w' ++ (c ++ (w'' ++ ':' :: t)))) = none := by
    cases c with
    | nil => cases hc
    | cons x c =>
      cases w' with
      | nil =>
        have hRun : ValidName ("if".toList ++ x :: c) := by
          refine ⟨rfl, List.forall_mem_cons.mpr ⟨rfl, List.forall_mem_cons.mpr ⟨?_, hc.2⟩⟩⟩
          rw [isNameChar, hc.1]
          rfl
        have hRunCall := call_eq_none hRun hName hColon rfl
        rwa [List.append_assoc] at hRunCall
      | cons p w' =>
        refine call_eq_none (by decide) ?_ hCondition (isCommentChar_of_isLetter hc.1)
        exact stopsAt_cons (isNameChar_of_isPad (hw' p List.mem_cons_self))
  have hBlanks : blanks (w ++ ("if".toList ++ (w' ++ (c ++ (w'' ++ ':' :: t))))) =
      "if".toList ++ (w' ++ (c ++ (w'' ++ ':' :: t))) := blanks_append_cons hw rfl _
  have hToken : ¬ StartsWithToken (w ++ ("if".toList ++ (w' ++ (c ++ (w'' ++ ':' :: t))))) := by
    cases w with
    | nil => rintro (⟨u, hu⟩ | ⟨u, hu⟩) <;> cases (List.cons.inj hu).1
    | cons p w =>
      have hPad := hw p List.mem_cons_self
      rintro (⟨u, hu⟩ | ⟨u, hu⟩) <;> rw [← (List.cons.inj hu).1] at hPad <;> cases hPad
  refine item_eq_some.mpr (Or.inl ⟨_, rfl, statement_eq_some.mpr ⟨token_eq_none_iff.mpr hToken, ?_⟩⟩)
  rw [hBlanks]
  exact Or.inr ⟨hCall, hIf⟩

end Items

theorem statements_eq_some_iff {t t' : Text} {ss : List Statement} :
    statements t = some (ss, t') ↔ iterate (item statements) [] t = (ss, t') ∧ t ≠ t' := by
  rw [statements_eq, items_eq_some]
  constructor
  · rintro ⟨ss₁, t₁, hItem, hIterate⟩
    refine ⟨(iterate_of_some shrinks_item_statements hItem).trans hIterate, ?_⟩
    rintro rfl
    have hLt := shrinks_item_statements _ _ _ _ hItem
    have hLe := length_iterate_le (item statements) ss₁ t₁
    rw [hIterate] at hLe
    dsimp only at hLe
    omega
  · rintro ⟨hIterate, hMoved⟩
    cases hItem : item statements [] t with
    | none =>
      rw [iterate_of_none hItem] at hIterate
      exact absurd (Prod.mk.inj hIterate).2 hMoved
    | some p =>
      exact ⟨p.1, p.2, rfl, (iterate_of_some shrinks_item_statements hItem).symm.trans hIterate⟩

theorem block_of_statements {t t₁ t₂ t₃ t' : Text} {body : List Statement}
    (hLine : LineEnd t ("INDENT".toList ++ t₁)) (hNewline : Newline t₁ t₂)
    (hBody : statements t₂ = some (body, "DEDENT".toList ++ t₃)) (hLast : Newline t₃ t') :
    block statements (':' :: t) = some (body, t') :=
  block_eq_some.mpr ⟨t, _, t₁, t₂, _, t₃, rfl, lineEnd_iff.mpr hLine, word_append _ _,
    nl_iff.mpr hNewline, hBody, word_append _ _, nl_iff.mpr hLast⟩

/-- Well-formed lines up to a `DEDENT` are read. The induction is on the lines, so that the body
of an `if` comes before the lines after it. -/
theorem iterate_of_items {ss : List Statement} {t t' u : Text} (h : Items ss t t')
    (hEnd : t' = "DEDENT".toList ++ u) (acc : List Statement) :
    iterate (item statements) acc t = (acc ++ ss, t') := by
  induction h generalizing acc u with
  | nil t =>
    subst hEnd
    rw [iterate_of_none (item_dedent u), List.append_nil]
  | blank hLine _ ih =>
    rw [iterate_of_some shrinks_item_statements (item_blank hLine)]
    exact ih hEnd acc
  | call hw hStar hn hToken hLine _ ih =>
    rw [iterate_of_some shrinks_item_statements (item_call hw hStar hn hToken hLine), ih hEnd,
      List.append_assoc]
    rfl
  | ite hw hw' hc hw'' hLine hNewline hMoved hBody hLast hRest ihBody ihRest =>
    have hStatements := statements_eq_some_iff.mpr ⟨ihBody rfl [], hMoved⟩
    have hBlock := block_of_statements hLine hNewline hStatements hLast
    rw [iterate_of_some shrinks_item_statements (item_if hw hw' hc hw'' hBlock), ihRest hEnd,
      List.append_assoc]
    rfl

theorem item_eof {r : Reader Char (List Statement)} {acc : List Statement} {t : Text}
    (h : StopsAt (fun c => c ≠ '\x00') t) : item r acc t = none := by
  have hBlanks : blanks t = t := by
    refine blanks_of_stopsAt (h.mono fun c hc => ?_)
    simp only [ne_eq, decide_not, Bool.not_eq_false', decide_eq_true_eq] at hc
    subst hc
    rfl
  refine Option.eq_none_iff_forall_ne_some.mpr fun p hItem => ?_
  obtain ⟨ss, t'⟩ := p
  rcases item_eq_some.mp hItem with ⟨s, -, hStatement⟩ | ⟨-, -, hLine⟩
  · rcases (statement_eq_some.mp hStatement).2 with hCall | ⟨-, hIf⟩
    · obtain ⟨c, u, hText, hc⟩ := call_head hCall
      rw [hBlanks] at hText
      rw [hText] at h
      have hNul := h c rfl
      simp only [ne_eq, decide_not, Bool.not_eq_false', decide_eq_true_eq] at hNul
      subst hNul
      rcases hc with hc | hc <;> cases hc
    · obtain ⟨c, body, t₁, t₂, -, hWord, -⟩ := ifStmt_eq_some.mp hIf
      have hText := word_eq_some.mp hWord
      rw [hBlanks] at hText
      rw [hText] at h
      cases h 'i' rfl
  · have hNewline := nl_iff.mp hLine
    rw [hBlanks] at hNewline
    cases hNewline <;> cases h _ rfl

theorem eof_eq_some {t t' : Text} (h : eof t = some t') :
    t' = t ∧ StopsAt (fun c => c ≠ '\x00') t := by
  obtain ⟨hNone, rfl⟩ := notAhead_eq_some.mp h
  refine ⟨rfl, ?_⟩
  cases t' with
  | nil => exact stopsAt_nil _
  | cons c u =>
    rw [satisfy_cons, ite_eq_right_iff] at hNone
    exact stopsAt_cons (Bool.eq_false_iff.mpr fun hc => by cases hNone hc)

theorem block_head {t t' : Text} {body : List Statement} (h : block statements t = some (body, t')) :
    ∃ u, t = ':' :: u := by
  obtain ⟨t₁, t₂, t₃, t₄, t₅, t₆, hColon, -⟩ := block_eq_some.mp h
  exact ⟨t₁, hColon⟩

theorem block_split {t t' : Text} {body : List Statement}
    (hItems : ∀ u ss v, u.length < t.length →
      iterate (item statements) [] u = (ss, "DEDENT".toList ++ v) →
      Items ss u ("DEDENT".toList ++ v))
    (h : block statements t = some (body, t')) : Block body t t' := by
  obtain ⟨t₁, t₂, t₃, t₄, t₅, t₆, rfl, hLine, hIndent, hNl, hBody, hDedent, hNl'⟩ :=
    block_eq_some.mp h
  have h₁ := shrinks_lineEnd _ _ hLine
  have h₂ := shrinks_word (by decide) _ _ hIndent
  have h₃ := shrinks_nl _ _ hNl
  obtain rfl := word_eq_some.mp hIndent
  obtain rfl := word_eq_some.mp hDedent
  obtain ⟨hIterate, hMoved⟩ := statements_eq_some_iff.mp hBody
  refine .mk (lineEnd_iff.mp hLine) (nl_iff.mp hNl) hMoved ?_ (nl_iff.mp hNl')
  exact hItems t₄ body t₆ (by rw [List.length_cons]; omega) hIterate

theorem items_append {ss ss' : List Statement} {t t' t'' : Text} (h : Items ss t t')
    (h' : Items ss' t' t'') : Items (ss ++ ss') t t'' := by
  induction h with
  | nil => exact h'
  | blank hLine _ ih => exact .blank hLine (ih h')
  | call hw hStar hn hToken hLine _ ih => exact .call hw hStar hn hToken hLine (ih h')
  | ite hw hw' hc hw'' hLine hNewline hMoved hBody hLast _ _ ihRest =>
    exact .ite hw hw' hc hw'' hLine hNewline hMoved hBody hLast (ihRest h')

theorem blanks_in_line (t : Text) : ∃ x, t = x ++ blanks t ∧ '\n' ∉ x := by
  obtain ⟨w, hw, ⟨hText, -⟩ | ⟨cm, hText, hcm, -⟩⟩ := blanks_split t
  · exact ⟨w, hText, fun hMem => by cases hw _ hMem⟩
  · refine ⟨w ++ '#' :: cm, by simpa using hText, fun hMem => ?_⟩
    rcases List.mem_append.mp hMem with hMem | hMem
    · cases hw _ hMem
    · rcases List.mem_cons.mp hMem with hHash | hMem
      · cases hHash
      · cases hcm _ hMem

theorem lineFeed_notMem_name {n : Text} (h : ValidName n) : '\n' ∉ n := by
  cases n with
  | nil => cases h
  | cons c n =>
    intro hMem
    rcases List.mem_cons.mp hMem with rfl | hMem
    · cases h.1
    · cases h.2 _ hMem

theorem items_of_item {acc acc' : List Statement} {t t' : Text}
    (hBlock : ∀ u body u', u.length < t.length → block statements u = some (body, u') →
      Block body u u')
    (h : item statements acc t = some (acc', t')) :
    (∃ ss, acc' = acc ++ ss ∧ Items ss t t') ∨
      StopsAt (fun c => c ≠ '\x00') t' ∧ ∃ x, t = x ++ t' ∧ '\n' ∉ x := by
  rcases item_eq_some.mp h with ⟨s, rfl, hStatement⟩ | ⟨rfl, -, hLine⟩
  · obtain ⟨hToken, hCall | ⟨-, hIf⟩⟩ := statement_eq_some.mp hStatement
    · obtain ⟨m, t₂, rfl, hCallee, hLast⟩ := call_eq_some.mp hCall
      obtain ⟨star, n, hStar, hn, rfl, hText⟩ := callee_split hCallee
      obtain ⟨w, hw, hPad⟩ := call_padded hCall
      rw [hText] at hPad
      rw [hPad] at hToken ⊢
      rcases Option.or_eq_some_iff.mp hLast with hNl | ⟨-, hEof⟩
      · exact .inl ⟨_, rfl, .call hw hStar hn (token_eq_none_iff.mp hToken) (lineEnd_iff.mp hNl)
          (.nil _)⟩
      · obtain ⟨rfl, hStop⟩ := eof_eq_some hEof
        obtain ⟨x, hx, hIn⟩ := blanks_in_line t₂
        refine .inr ⟨hStop, w ++ (star ++ (n ++ x)), by simp [← hx], fun hMem => ?_⟩
        simp only [List.mem_append] at hMem
        rcases hMem with hMem | hMem | hMem | hMem
        · cases hw _ hMem
        · rcases hStar with rfl | rfl
          · cases hMem
          · cases List.mem_singleton.mp hMem
        · exact lineFeed_notMem_name hn hMem
        · exact hIn hMem
    · obtain ⟨c, body, t₂, t₃, rfl, hWord, hName, hRead⟩ := ifStmt_eq_some.mp hIf
      have hBlanks := length_blanks_le t
      have hAfter := length_blanks_le t₂
      have hLength := length_blanks_le t₃
      have hWordLt := shrinks_word (by decide) _ _ hWord
      have hNameLt := length_name_lt hName
      have hBody := hBlock _ _ _ (by omega) hRead
      obtain ⟨w, hw, hPad⟩ := blanks_padded (word_eq_some.mp hWord) rfl rfl
      obtain ⟨hValid, -, -⟩ := name_iff.mp hName
      obtain ⟨w', hw', rfl⟩ := name_padded hName
      obtain ⟨v, hColon⟩ := block_head hRead
      obtain ⟨w'', hw'', rfl⟩ := blanks_padded hColon rfl rfl
      rw [hColon] at hBody
      cases hBody with
      | mk hLine hNewline hMoved hItems hLast =>
        rw [hPad]
        exact .inl ⟨_, rfl, .ite hw hw' hValid hw'' hLine hNewline hMoved hItems hLast (.nil _)⟩
  · exact .inl ⟨[], (List.append_nil _).symm, .blank (lineEnd_iff.mp hLine) (.nil _)⟩

/-- The lines that are read up to a `DEDENT` are well formed. The induction is on the length of
the text: both the body of an `if` and the lines after a line are shorter. -/
theorem items_of_iterate {acc ss : List Statement} {t u : Text}
    (h : iterate (item statements) acc t = (ss, "DEDENT".toList ++ u)) :
    ∃ ss', ss = acc ++ ss' ∧ Items ss' t ("DEDENT".toList ++ u) := by
  induction hLength : t.length using Nat.strongRecOn generalizing acc ss t u with
  | ind n ih =>
    subst hLength
    cases hItem : item statements acc t with
    | none =>
      rw [iterate_of_none hItem] at h
      obtain ⟨rfl, rfl⟩ := Prod.mk.inj h
      exact ⟨[], (List.append_nil _).symm, .nil _⟩
    | some p =>
      obtain ⟨acc', t₁⟩ := p
      have hShorter := shrinks_item_statements _ _ _ _ hItem
      rw [iterate_of_some shrinks_item_statements hItem] at h
      have hBlock (v : Text) (body : List Statement) (v' : Text) (hLt : v.length < t.length)
          (hRead : block statements v = some (body, v')) : Block body v v' := by
        refine block_split (fun v₁ ss₁ v₁' hLt₁ hv => ?_) hRead
        obtain ⟨ss₁', rfl, hItems⟩ := ih v₁.length (Nat.lt_trans hLt₁ hLt) hv rfl
        exact hItems
      rcases items_of_item hBlock hItem with ⟨first, rfl, hFirst⟩ | ⟨hStop, -⟩
      · obtain ⟨rest, rfl, hRest⟩ := ih _ hShorter h rfl
        exact ⟨first ++ rest, List.append_assoc _ _ _, items_append hFirst hRest⟩
      · -- a call at the end of the text is the last line that is read
        rw [iterate_of_none (item_eof hStop)] at h
        rw [(Prod.mk.inj h).2] at hStop
        cases hStop 'D' rfl

theorem block_iff {t t' : Text} {body : List Statement} :
    block statements t = some (body, t') ↔ Block body t t' := by
  constructor
  · refine block_split fun u ss v _ h => ?_
    obtain ⟨ss', rfl, hItems⟩ := items_of_iterate h
    exact hItems
  · rintro ⟨hLine, hNewline, hMoved, hItems, hLast⟩
    exact block_of_statements hLine hNewline
      (statements_eq_some_iff.mpr ⟨iterate_of_items hItems rfl [], hMoved⟩) hLast

theorem procs_iff {t t' : Text} {cf : ControlFlow} :
    procs t = some (cf, t') ↔ Group cf t t' := by
  constructor
  · intro h
    obtain ⟨t₁, t₂, t₃, hName, hWhile, hControl, hBlock⟩ := procs_eq_some.mp h
    obtain ⟨hn, rfl, hStop⟩ := name_iff.mp hName
    obtain ⟨w, hw, rfl⟩ := blanks_padded (word_eq_some.mp hWhile) rfl rfl
    obtain ⟨hc, -, -⟩ := name_iff.mp hControl
    obtain ⟨w', hw', rfl⟩ := name_padded hControl
    obtain ⟨v, hColon⟩ := block_head hBlock
    obtain ⟨w'', hw'', rfl⟩ := blanks_padded hColon rfl rfl
    rw [hColon] at hBlock
    refine .mk hn ?_ hw hw' hc hw'' (block_iff.mp hBlock)
    rintro rfl
    cases hStop 'w' rfl
  · rintro ⟨hn, hMoved, hw, hw', hc, hw'', hBlock⟩
    rename_i n c w w' w'' t body
    obtain ⟨u, rfl⟩ := block_head (block_iff.mpr hBlock)
    have hAfterName :
        StopsAt isNameChar (w ++ ("while".toList ++ (w' ++ (c ++ (w'' ++ ':' :: u))))) := by
      cases w with
      | nil => exact absurd rfl hMoved
      | cons x w => exact stopsAt_cons (isNameChar_of_isPad (hw x List.mem_cons_self))
    have hAfterControl : StopsAt isNameChar (w'' ++ ':' :: u) :=
      .append (fun x hx => isNameChar_of_isPad (hw'' x hx)) (stopsAt_cons rfl)
    have hControl : blanks (w' ++ (c ++ (w'' ++ ':' :: u))) = c ++ (w'' ++ ':' :: u) := by
      cases c with
      | nil => cases hc
      | cons x c => exact blanks_append_cons hw' (isBlankStart_of_isLetter hc.1) _
    have hWhile : blanks (w ++ ("while".toList ++ (w' ++ (c ++ (w'' ++ ':' :: u))))) =
        "while".toList ++ (w' ++ (c ++ (w'' ++ ':' :: u))) := blanks_append_cons hw rfl _
    refine procs_eq_some.mpr ⟨_, w' ++ (c ++ (w'' ++ ':' :: u)), w'' ++ ':' :: u,
      name_append hn hAfterName, ?_, ?_, ?_⟩
    · rw [hWhile]
      exact word_append _ _
    · rw [hControl]
      exact name_append hc hAfterControl
    · rw [blanks_append_cons hw'' rfl]
      exact block_iff.mpr hBlock

theorem entry_nil (s : Script) : entry s [] = none := by
  refine Option.eq_none_iff_forall_ne_some.mpr fun p h => ?_
  exact absurd (shrinks_entry _ _ _ _ h) (Nat.not_lt_zero _)

theorem entry_blank {s : Script} {t t' : Text} (h : LineEnd t t') :
    entry s t = some (s, t') := by
  have hName : name t = none := name_eq_none (h.stopsAt_name.mono fun c hc =>
    (Bool.or_eq_false_iff.mp hc).1)
  refine entry_eq_some.mpr (Or.inr (Or.inr ⟨rfl, ?_, ?_, lineEnd_iff.mpr h⟩))
  · rw [puppet, hName]
    rfl
  · rw [procs, hName]
    rfl

theorem entry_puppet {s : Script} {pc : PuppetCommand} {t t' : Text} (h : PuppetLine pc t t') :
    entry s t = some (s.addPuppet pc, t') :=
  entry_eq_some.mpr (Or.inl ⟨pc, rfl, puppet_iff.mpr h⟩)

theorem entry_group {s : Script} {cf : ControlFlow} {t t' : Text} (h : Group cf t t') :
    entry s t = some (s.addProcs cf, t') := by
  have hProcs := procs_iff.mpr h
  refine entry_eq_some.mpr (Or.inr (Or.inl ⟨cf, rfl, ?_, hProcs⟩))
  refine Option.eq_none_iff_forall_ne_some.mpr fun p hPuppet => ?_
  obtain ⟨pc, u⟩ := p
  obtain ⟨t₁, t₂, t₃, hName, hEq, -⟩ := puppet_eq_some.mp hPuppet
  obtain ⟨u₁, u₂, u₃, hName', hWhile, -⟩ := procs_eq_some.mp hProcs
  rw [hName] at hName'
  obtain ⟨-, rfl⟩ := Prod.mk.inj (Option.some.inj hName')
  rw [hEq] at hWhile
  cases hWhile

theorem iterate_of_entries {s s' : Script} {t : Text} (h : Entries s t s') :
    iterate entry s t = (s', []) := by
  induction h with
  | nil s => exact iterate_of_none (entry_nil s)
  | blank hLine _ ih => rw [iterate_of_some shrinks_entry (entry_blank hLine), ih]
  | puppet hLine _ ih => rw [iterate_of_some shrinks_entry (entry_puppet hLine), ih]
  | group hGroup _ ih => rw [iterate_of_some shrinks_entry (entry_group hGroup), ih]

theorem entries_of_iterate {s s' : Script} {t : Text} (h : iterate entry s t = (s', [])) :
    Entries s t s' := by
  induction hLength : t.length using Nat.strongRecOn generalizing s t with
  | ind n ih =>
    subst hLength
    cases hEntry : entry s t with
    | none =>
      rw [iterate_of_none hEntry] at h
      obtain ⟨rfl, rfl⟩ := Prod.mk.inj h
      exact .nil s
    | some p =>
      obtain ⟨s₁, t₁⟩ := p
      have hShorter := shrinks_entry _ _ _ _ hEntry
      rw [iterate_of_some shrinks_entry hEntry] at h
      have hRest := ih _ hShorter h rfl
      rcases entry_eq_some.mp hEntry with ⟨pc, rfl, hPuppet⟩ | ⟨cf, rfl, -, hProcs⟩ |
        ⟨rfl, -, -, hLine⟩
      · exact .puppet (puppet_iff.mp hPuppet) hRest
      · exact .group (procs_iff.mp hProcs) hRest
      · exact .blank (lineEnd_iff.mp hLine) hRest

theorem script_eq_iff {t : Text} {s : Script} : script t = (s, []) ↔ Entries {} t s :=
  ⟨entries_of_iterate, iterate_of_entries⟩

end Henson.Hwl.Reading

namespace Henson.Hwl

theorem runScript_of_entries {tokens : Text} {s : Script} (h : Entries {} tokens s) :
    ∃ ps, runScript tokens = some (true, s, ps) ∧ ps.pos = tokens.length := by
  obtain ⟨ps, hRun, -, hPos⟩ := runScript_eq tokens
  rw [Reading.script_eq_iff.mpr h] at hRun hPos
  exact ⟨ps, hRun, hPos⟩

/-- `script` matches on every text, so that `main` never reports a script. -/
theorem parseScript_eq_ok (scriptFn content : Text) :
    parseScript scriptFn content = some (.ok (Reading.script (indentToTokens content)).1) := by
  obtain ⟨ps, hRun, -⟩ := runScript_eq (indentToTokens content)
  rw [parseScript, hRun]
  rfl

/-- If `script` matches, it has consumed the whole token text. -/
def AcceptedAsAWhole (tokens : Text) : Prop :=
  ∀ s ps, runScript tokens = some (true, s, ps) → ps.pos = tokens.length

/-- What is accepted is consumed as a whole if and only if the token text is well formed. -/
theorem acceptedAsAWhole_iff (content : Text) :
    AcceptedAsAWhole (indentToTokens content) ↔ WellFormed (indentToTokens content) := by
  obtain ⟨ps, hRun, -, hPos⟩ := runScript_eq (indentToTokens content)
  constructor
  · intro hWhole
    have hEnd := hWhole _ ps hRun
    have hNil : (Reading.script (indentToTokens content)).2 = [] :=
      List.eq_nil_of_length_eq_zero (by omega)
    exact ⟨_, Reading.script_eq_iff.mp (Prod.ext rfl hNil)⟩
  · rintro ⟨s, hEntries⟩ s' ps' hRun'
    obtain ⟨ps₁, hRun₁, hPos₁⟩ := runScript_of_entries hEntries
    rw [hRun₁] at hRun'
    obtain ⟨-, -, rfl⟩ := Prod.mk.inj (Option.some.inj hRun')
    exact hPos₁

/-- A group with a malformed line: `main` runs the script of the one puppet before it, and 31
characters are left. -/
theorem malformed_group_dropped :
    let content := "a = b\ng while a:\n  a b\n".toList
    (∃ s, parseScript "s.hwl".toList content = some (.ok s) ∧
      s.puppets = [⟨"a".toList, "b".toList⟩] ∧ s.procs.isEmpty = true) ∧
      (indentToTokens content).length = 37 ∧ ¬ AcceptedAsAWhole (indentToTokens content) := by
  intro content
  have hRun : (runScript (indentToTokens content)).map
      (fun r => (r.1, r.2.1.puppets, r.2.1.procs.isEmpty, r.2.2.pos)) =
        some (true, [⟨"a".toList, "b".toList⟩], true, 6) := by decide +kernel
  obtain ⟨⟨ok, s, ps⟩, hScript, hEq⟩ := Option.map_eq_some_iff.mp hRun
  simp only [Prod.mk.injEq] at hEq
  obtain ⟨rfl, hPuppets, hProcs, hPos⟩ := hEq
  refine ⟨⟨s, by rw [parseScript, hScript]; rfl, hPuppets, hProcs⟩, by decide, fun hWhole => ?_⟩
  have hEnd := hWhole s ps hScript
  rw [hPos] at hEnd
  exact absurd hEnd (by decide)

end Henson.Hwl
