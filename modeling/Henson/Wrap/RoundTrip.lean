import Henson.Wrap.Printing

/-!
# Parsing a written template

Each word of a template is one identifier of the inner lexer. What the parser does
with the tokens of a template then follows the template: the arguments of a
command up to its braces, and a body up to the command that ends it.
-/

namespace Henson.Wrap

open Peg

theorem inner_of_rule {t t' : Text} {v : Option Token} (h : innerRules t = some (v, t'))
    (hShorter : t'.length < t.length) : inner t = v.toList ++ inner t' := by
  rw [inner, scan_of_some h hShorter]
  rfl

theorem inner_of_append {w next : Text} {v : Option Token} (hw : w ≠ [])
    (h : innerRules (w ++ next) = some (v, next)) : inner (w ++ next) = v.toList ++ inner next :=
  inner_of_rule h (length_lt_append hw next)

theorem inner_nil : inner [] = [] := by
  have hNone : innerRules [] = none := rfl
  rw [inner, scan_of_none hNone]

theorem not_brace {c : Char} {t : Text} (h₁ : c ≠ '{') (h₂ : c ≠ '}') :
    word ['{', '{'] (c :: t) = none ∧ word ['}', '}'] (c :: t) = none :=
  ⟨if_neg (Ne.symm h₁), if_neg (Ne.symm h₂)⟩

theorem innerRules_space {c : Char} {t : Text} (h : isSpace c = true) :
    innerRules (c :: t) = some (none, t.dropWhile isSpace) := by
  have hBrace : c ≠ '{' ∧ c ≠ '}' ∧ c ≠ '"' ∧ c ≠ '\'' := by
    refine ⟨?_, ?_, ?_, ?_⟩ <;> rintro rfl <;> cases h
  obtain ⟨hL, hR⟩ := not_brace (t := t) hBrace.1 hBrace.2.1
  have hQuote : quotedId (c :: t) = none := if_neg (not_or.mpr hBrace.2.2)
  have hWord : several (satisfy fun c => !isSpace c) (c :: t) = none := by
    have hFail : satisfy (fun c => !isSpace c) (c :: t) = none := by simp [satisfy, h]
    rw [several, many_of_none hFail]
    exact if_neg (Nat.lt_irrefl _)
  have hBlank : several (satisfy isSpace) (c :: t) = some (t.dropWhile isSpace) := by
    have hMany : many (satisfy isSpace) (c :: t) = t.dropWhile isSpace := by
      rw [many_satisfy, List.dropWhile_cons_of_pos h]
    rw [several_eq_some]
    refine ⟨?_, hMany⟩
    exact Nat.lt_succ_of_le (List.dropWhile_sublist isSpace).length_le
  rw [innerRules, firstOf_cons_of_none (rule_of_none hL), firstOf_cons_of_none (rule_of_none hR),
    firstOf_cons_of_none (rule_of_none hQuote), firstOf_cons_of_none (rule_of_none hWord)]
  apply firstOf_cons_of_some
  rw [rule, consumed, hBlank]
  rfl

theorem inner_space {c : Char} (h : isSpace c = true) (t : Text) : inner (c :: t) = inner t := by
  have hDrop {d : Char} {t : Text} (hd : isSpace d = true) :
      inner (d :: t) = inner (t.dropWhile isSpace) := by
    rw [inner_of_rule (innerRules_space hd)]
    · rfl
    · exact Nat.lt_succ_of_le (List.dropWhile_sublist isSpace).length_le
  rw [hDrop h]
  cases t with
  | nil => rfl
  | cons d t =>
    cases hd : isSpace d with
    | true => rw [List.dropWhile_cons_of_pos hd, hDrop hd]
    | false => rw [List.dropWhile_cons_of_neg (by simp [hd])]

theorem quoted_end (q : Char) (t : Text) : quoted q (q :: t) = some t := by
  cases t with
  | nil => exact if_pos rfl
  | cons d t => exact if_pos rfl

theorem quoted_cons {q c : Char} (hQuote : c ≠ q) (hSlash : c ≠ '\\') (t : Text) :
    quoted q (c :: t) = quoted q t := by
  cases t with
  | nil => exact if_neg hQuote
  | cons d t => rw [quoted, if_neg hQuote, if_neg hSlash]

theorem quoted_word {w : Text} (h : w.all isWordChar = true) (next : Text) :
    quoted '"' (w ++ '"' :: next) = some next := by
  induction w with
  | nil => exact quoted_end '"' next
  | cons c w ih =>
    obtain ⟨hc, hw⟩ := Bool.and_eq_true_iff.mp h
    have hQuote : c ≠ '"' := by rintro rfl; cases hc
    have hSlash : c ≠ '\\' := by rintro rfl; cases hc
    rw [List.cons_append, quoted_cons hQuote hSlash]
    exact ih hw

theorem inner_spell {w next : Text} (h : IsWord w) (hNext : ∀ c ∈ next.head?, isSpace c = true) :
    inner (spell w ++ next) = .identifier w :: inner next := by
  rw [spell]
  split
  · rename_i hBare
    obtain ⟨hNe, hNoSpace⟩ := Bool.and_eq_true_iff.mp hBare
    obtain ⟨c, w, rfl⟩ := List.exists_cons_of_ne_nil (of_decide_eq_true hNe)
    have hc := List.all_eq_true.mp h.2 c List.mem_cons_self
    have hBrace : c ≠ '{' ∧ c ≠ '}' := ⟨(by rintro rfl; cases hc), (by rintro rfl; cases hc)⟩
    have hDouble := not_brace (t := w ++ next) hBrace.1 hBrace.2
    rw [← List.cons_append] at hDouble
    obtain ⟨hL, hR⟩ := hDouble
    have hQuote : quotedId (c :: w ++ next) = none :=
      if_neg (by rintro (rfl | rfl) <;> cases hc)
    have hWord : several (satisfy fun c => !isSpace c) (c :: w ++ next) = some next := by
      rw [several_eq_some]
      refine ⟨length_lt_append (List.cons_ne_nil c w) next, ?_⟩
      apply many_satisfy_append (List.all_eq_true.mp hNoSpace)
      intro d hd
      rw [hNext d hd]
      rfl
    have hRule : innerRules (c :: w ++ next) = some (some (.identifier (c :: w)), next) := by
      rw [innerRules, firstOf_cons_of_none (rule_of_none hL),
        firstOf_cons_of_none (rule_of_none hR), firstOf_cons_of_none (rule_of_none hQuote)]
      exact firstOf_cons_of_some (rule_append hWord)
    exact inner_of_append (List.cons_ne_nil c w) hRule
  · have hQuoted : quotedId ('"' :: (w ++ ['"']) ++ next) = some next := by
      rw [List.cons_append, List.append_assoc]
      exact quoted_word h.2 next
    have hBody : unquote ('"' :: (w ++ ['"'])) = w := by
      have hLine : '\n' ∉ w := by
        intro hc
        cases List.all_eq_true.mp h.2 '\n' hc
      simp [unquote, hLine]
    have hRule : innerRules ('"' :: (w ++ ['"']) ++ next) = some (some (.identifier w), next) := by
      let make : Text → Option Token := fun value => some (.identifier (unquote value))
      have hRead : rule make quotedId _ = some (make _, next) := rule_append hQuoted
      rw [show make _ = some (.identifier w) from congrArg (some ∘ Token.identifier) hBody] at hRead
      rw [innerRules, firstOf_cons_of_none (rule_of_none rfl),
        firstOf_cons_of_none (rule_of_none rfl)]
      exact firstOf_cons_of_some hRead
    exact inner_of_append (List.cons_ne_nil '"' _) hRule

/-- Text between braces that holds these words, each behind a blank but for a first one. -/
inductive Words : Text → List Text → Prop where
  | nil : Words [] []
  | first {w : Text} (hw : IsWord w) : Words (spell w) [w]
  | snoc {u w : Text} {ws : List Text} (hu : Words u ws) (hw : IsWord w) :
      Words (u ++ ' ' :: spell w) (ws ++ [w])

theorem Words.inner_append {u : Text} {ws : List Text} (h : Words u ws) {next : Text}
    (hNext : ∀ c ∈ next.head?, isSpace c = true) :
    inner (u ++ next) = ws.map Token.identifier ++ inner next := by
  induction h generalizing next with
  | nil => rfl
  | first hw => exact inner_spell hw hNext
  | @snoc u w ws hu hw ih =>
    rw [List.append_assoc, ih (by simp; rfl), List.cons_append, inner_space rfl,
      inner_spell hw hNext, List.map_append, List.append_assoc]
    rfl

theorem Words.inner_eq {u : Text} {ws : List Text} (h : Words u ws) :
    inner u = ws.map Token.identifier := by
  have hAppend : inner (u ++ []) = ws.map Token.identifier ++ inner [] :=
    h.inner_append (by simp)
  rwa [List.append_nil, inner_nil, List.append_nil] at hAppend

theorem Words.inner_blank {u : Text} {ws : List Text} (h : Words u ws) :
    inner (u ++ [' ']) = ws.map Token.identifier := by
  rw [h.inner_append (by simp; rfl), inner_space rfl, inner_nil, List.append_nil]

theorem length_words_le {u : Text} {ws : List Text} (h : inner u = ws.map Token.identifier) :
    ws.length ≤ u.length := by
  have hLength := length_scan_le innerRules u
  rw [show (scan innerRules u).1 = ws.map Token.identifier from h, List.length_map] at hLength
  omega

theorem parseArgs_identifiers (ws : List Text) {fuel : Nat} {ts : List Token}
    {args : List Chunk} {rest : List Token} (h : parseArgs fuel ts = .ok (args, rest)) :
    parseArgs (fuel + ws.length) (ws.map Token.identifier ++ ts) =
      .ok (ws.map Chunk.word ++ args, rest) := by
  induction ws with
  | nil => exact h
  | cons w ws ih =>
    rw [List.map_cons, List.cons_append, List.length_cons, ← Nat.add_assoc, parseArgs, ih]
    rfl

theorem parseArgs_flush {u : Text} {ws : List Text} (hu : inner u = ws.map Token.identifier)
    {ts : List Token} {args : List Chunk} {rest : List Token}
    (h : ∀ fuel, weight ts < fuel → parseArgs fuel ts = .ok (args, rest)) {fuel : Nat}
    (hFuel : weight (flush u ++ ts) < fuel) :
    parseArgs fuel (flush u ++ ts) = .ok (ws.map Chunk.word ++ args, rest) := by
  rw [flush] at hFuel ⊢
  split at hFuel
  · rename_i hNil
    rw [hNil, inner_nil] at hu
    rw [List.map_eq_nil_iff.mp hu.symm, if_pos hNil]
    exact h fuel hFuel
  · rename_i hNe
    have hLength := length_words_le hu
    rw [List.cons_append, weight_cons, Token.weight, List.nil_append] at hFuel
    obtain ⟨k, rfl⟩ : ∃ k, fuel = k + ws.length + 1 := ⟨fuel - ws.length - 1, by omega⟩
    rw [if_neg hNe, List.cons_append, parseArgs, List.nil_append, hu]
    exact parseArgs_identifiers ws (h k (by omega))

theorem argTokens_head {u : Text} {args : List Chunk} (hu : u ≠ []) (h : Chunk.ValidArgs args) :
    ∃ v tail, argTokens u args = .text (u ++ v) :: tail ∧ ∀ c ∈ v.head?, isSpace c = true := by
  fun_induction argTokens u args with
  | case1 u =>
    refine ⟨[], [.rbrace], ?_, by simp⟩
    rw [flush, if_neg hu, List.append_nil]
    rfl
  | case2 u value args ih =>
    obtain ⟨v, tail, hTokens, -⟩ := ih (by simp) h.2
    refine ⟨' ' :: spell value ++ v, tail, ?_, by simp; rfl⟩
    rw [hTokens, List.append_assoc]
  | case3 u name innerArgs children args =>
    rw [flush, if_neg (by simp)]
    exact ⟨[' '], _, rfl, by simp; rfl⟩
  | case4 u value args ih => exact h.1.elim

theorem spell_ne_nil (w : Text) : spell w ≠ [] := by
  rw [spell]
  split
  · rename_i hBare
    exact of_decide_eq_true (Bool.and_eq_true_iff.mp hBare).1
  · exact List.cons_ne_nil _ _

theorem parseCall_of_parseArgs {name : Text} {args : List Chunk} (hName : IsWord name)
    (hArgs : Chunk.ValidArgs args) {accept : Bool}
    (hAccept : accept = true ∨ isBodyCommand name = false) {ts : List Token} {fuel : Nat}
    (h : parseArgs (fuel + 1) (argTokens (spell name) args ++ ts) = .ok (.word name :: args, ts)) :
    parseCall fuel accept (argTokens (spell name) args ++ ts) = .ok ((name, args), ts) := by
  obtain ⟨v, tail, hTokens, hHead⟩ := argTokens_head (spell_ne_nil name) hArgs
  rw [hTokens, List.cons_append] at h ⊢
  rw [parseArgs, inner_spell hName hHead, List.cons_append] at h
  cases fuel with
  | zero => cases h
  | succ fuel =>
    rw [parseArgs] at h
    have hOpen : (!accept && isBodyCommand name) = false := by
      rcases hAccept with hAccept | hAccept <;> simp [hAccept]
    have hPush : pushInner (.text (spell name ++ v) :: (tail ++ ts)) =
        .identifier name :: (inner v ++ (tail ++ ts)) := by
      rw [pushInner, inner_spell hName hHead, List.cons_append]
    simp only [parseCall, hPush, hOpen, Bool.false_eq_true, if_false]
    cases hRest : parseArgs fuel (inner v ++ (tail ++ ts)) with
    | error e =>
      rw [hRest] at h
      cases h
    | ok p =>
      rw [hRest] at h
      cases h
      rfl

theorem parseArgs_argTokens {u : Text} {args : List Chunk} (h : Chunk.ValidArgs args)
    {ws : List Text} (hu : Words u ws) (ts : List Token) {fuel : Nat}
    (hFuel : weight (argTokens u args ++ ts) < fuel) :
    parseArgs fuel (argTokens u args ++ ts) = .ok (ws.map Chunk.word ++ args, ts) := by
  fun_induction argTokens u args generalizing ws ts fuel with
  | case1 u =>
    rw [List.append_assoc] at hFuel ⊢
    apply parseArgs_flush hu.inner_eq _ hFuel
    intro fuel hFuel
    obtain ⟨k, rfl⟩ := Nat.exists_eq_add_of_lt hFuel
    rfl
  | case2 u value args ih =>
    rw [ih h.2 (hu.snoc h.1) ts hFuel, List.map_append, List.append_assoc]
    rfl
  | case3 u name innerArgs children args ihInner ihRest =>
    obtain ⟨⟨hName, hNotBody, hInner, rfl⟩, hArgs⟩ := h
    rw [List.append_assoc, List.cons_append, List.append_assoc] at hFuel ⊢
    apply parseArgs_flush hu.inner_blank _ hFuel
    intro fuel hFuel
    rw [weight_cons, show Token.lbrace.weight = 1 from rfl] at hFuel
    obtain ⟨k, rfl⟩ : ∃ k, fuel = k + 1 := ⟨fuel - 1, by omega⟩
    have hLeft : weight (argTokens [] args ++ ts) ≤
        weight (argTokens (spell name) innerArgs ++ (argTokens [] args ++ ts)) := by
      rw [weight_append (argTokens (spell name) innerArgs)]
      exact Nat.le_add_left _ _
    have hRead : parseArgs (k + 1) (argTokens (spell name) innerArgs ++ (argTokens [] args ++ ts)) =
        .ok (.word name :: innerArgs, argTokens [] args ++ ts) :=
      ihInner hInner (.first hName) _ (by omega)
    have hCall : parseCall k false
        (argTokens (spell name) innerArgs ++ (argTokens [] args ++ ts)) =
        .ok ((name, innerArgs), argTokens [] args ++ ts) :=
      parseCall_of_parseArgs hName hInner (.inr hNotBody) hRead
    have hRest : parseArgs k (argTokens [] args ++ ts) = .ok (args, ts) :=
      ihRest hArgs .nil ts (by omega)
    rw [parseArgs, hCall]
    simp only [Except.bind, bind, hRest]
    rfl
  | case4 u value args ih => exact h.1.elim

theorem parseCall_callTokens {name : Text} {args : List Chunk} (hName : IsWord name)
    (hArgs : Chunk.ValidArgs args) {ts : List Token} {fuel : Nat}
    (hFuel : weight (callTokens name args ++ ts) ≤ fuel + 1) :
    parseCall fuel true (argTokens (spell (written name args).1) (written name args).2 ++ ts) =
      .ok (written name args, ts) := by
  rw [callTokens, List.cons_append, weight_cons, show Token.lbrace.weight = 1 from rfl] at hFuel
  rcases written_eq name args with hSame | ⟨value, -, -, rfl, hIndex⟩
  · rw [hSame] at hFuel ⊢
    dsimp only at hFuel
    have hRead : parseArgs (fuel + 1) (argTokens (spell name) args ++ ts) =
        .ok (.word name :: args, ts) :=
      parseArgs_argTokens hArgs (.first hName) ts (by omega)
    exact parseCall_of_parseArgs hName hArgs (.inl rfl) hRead
  · rw [hIndex] at hFuel ⊢
    dsimp only at hFuel
    have hNone : Chunk.ValidArgs [] := trivial
    have hRead : parseArgs (fuel + 1) (argTokens (spell value) [] ++ ts) = .ok ([.word value], ts) :=
      parseArgs_argTokens hNone (.first hArgs.1) ts (by omega)
    exact parseCall_of_parseArgs hArgs.1 hNone (.inl rfl) hRead

section Commands

variable {name : Text} {args : List Chunk} {endCommand : Option Text} {fuel : Nat}
  {ts ts' rest : List Token} {cs : List Chunk}

theorem parseText_end (hCall : parseCall fuel true ts = .ok ((name, args), ts')) :
    parseText (fuel + 1) (some name) (.lbrace :: ts) = .ok ([], ts') := by
  rw [parseText, hCall]
  exact if_pos rfl

theorem parseText_index (hCall : parseCall fuel true ts = .ok ((name, args), ts'))
    (hOther : endCommand ≠ some name) (hIndex : isIndex name = true)
    (hRest : parseText fuel endCommand ts' = .ok (cs, rest)) :
    parseText (fuel + 1) endCommand (.lbrace :: ts) =
      .ok (.call "args".toList [.word name] [] :: cs, rest) := by
  rw [parseText, hCall]
  simp only [Except.bind, bind, if_neg hOther, hIndex, if_true, hRest]
  rfl

theorem parseText_call (hCall : parseCall fuel true ts = .ok ((name, args), ts'))
    (hOther : endCommand ≠ some name) (hIndex : isIndex name = false)
    (hBody : isBodyCommand name = false)
    (hRest : parseText fuel endCommand ts' = .ok (cs, rest)) :
    parseText (fuel + 1) endCommand (.lbrace :: ts) = .ok (.call name args [] :: cs, rest) := by
  rw [parseText, hCall]
  simp only [Except.bind, bind, if_neg hOther, hIndex, hBody, Bool.false_eq_true, if_false, hRest]
  rfl

theorem parseText_body {children : List Chunk} {behind : List Token}
    (hCall : parseCall fuel true ts = .ok ((name, args), ts')) (hOther : endCommand ≠ some name)
    (hIndex : isIndex name = false) (hBody : isBodyCommand name = true)
    (hChildren : parseText fuel (some (endOf name)) ts' = .ok (children, behind))
    (hRest : parseText fuel endCommand behind = .ok (cs, rest)) :
    parseText (fuel + 1) endCommand (.lbrace :: ts) =
      .ok (.call name args children :: cs, rest) := by
  rw [parseText, hCall]
  simp only [Except.bind, bind, if_neg hOther, hIndex, hBody, Bool.false_eq_true, if_false,
    if_true, hChildren, hRest]
  rfl

end Commands

theorem parseText_endTokens {name : Text} (h : isBodyCommand name = true) {ts : List Token}
    {fuel : Nat} (hFuel : weight (endTokens name ++ ts) < fuel) :
    parseText fuel (some (endOf name)) (endTokens name ++ ts) = .ok ([], ts) := by
  obtain ⟨k, rfl⟩ : ∃ k, fuel = k + 1 := ⟨fuel - 1, by omega⟩
  have hNone : Chunk.ValidArgs [] := trivial
  exact parseText_end (parseCall_callTokens (isWord_endOf h) hNone (Nat.le_of_lt hFuel))

theorem isIndex_endOf {name : Text} (h : isBodyCommand name = true) :
    isIndex (endOf name) = false := by
  have hName : name ∈ bodyCommands := of_decide_eq_true h
  have hAll : bodyCommands.all (fun name => !isIndex (endOf name)) = true := rfl
  simpa using List.all_eq_true.mp hAll name hName

/-- The tokens of a template are read as the template, up to what ends its last body. -/
theorem parseText_chunkTokens {cs : List Chunk} {next : Text} (h : Chunk.AllValid cs next)
    {endCommand : Option Text} (hEnd : Unended endCommand cs) {closing rest : List Token}
    (hClosing : ∀ fuel, weight closing < fuel → parseText fuel endCommand closing = .ok ([], rest))
    {fuel : Nat} (hFuel : weight (chunkTokens cs ++ closing) < fuel) :
    parseText fuel endCommand (chunkTokens cs ++ closing) = .ok (cs, rest) := by
  fun_induction chunkTokens cs generalizing next endCommand closing rest fuel with
  | case1 => exact hClosing fuel hFuel
  | case2 value cs ih =>
    obtain ⟨hPiece, hRest⟩ := h
    rw [List.cons_append, weight_cons, Token.weight] at hFuel
    obtain ⟨k, rfl⟩ : ∃ k, fuel = k + 1 := ⟨fuel - 1, by omega⟩
    rw [List.cons_append, parseText, ih hRest hEnd.tail hClosing (by omega)]
    rfl
  | case3 value cs ih => exact h.1.elim
  | case4 name args children cs ihBody ihRest =>
    obtain ⟨⟨hName, hNoIndex, hArgs, hBody⟩, hRest⟩ := h
    obtain ⟨k, rfl⟩ : ∃ k, fuel = k + 1 := ⟨fuel - 1, by omega⟩
    rw [List.append_assoc, List.append_assoc] at hFuel ⊢
    have hCall := parseCall_callTokens hName hArgs (Nat.le_of_lt hFuel)
    rw [weight_append, callTokens, weight_cons, show Token.lbrace.weight = 1 from rfl] at hFuel
    have hGoOn : weight (chunkTokens cs ++ closing) < k →
        parseText k endCommand (chunkTokens cs ++ closing) = .ok (cs, rest) :=
      fun hLess => ihRest hRest hEnd.tail hClosing hLess
    rcases written_eq name args with hSame | ⟨value, hIndex, rfl, rfl, hValue⟩
    · have hOther : endCommand ≠ some name := fun hEq => (hEnd name hEq).2 _ List.mem_cons_self rfl
      rw [hSame] at hCall
      rw [callTokens, hSame, List.cons_append]
      cases hCommand : isBodyCommand name with
      | true =>
        rw [hCommand, if_pos rfl] at hBody hFuel hCall
        rw [if_pos rfl]
        obtain ⟨hChildren, hNoEnd⟩ := hBody
        rw [List.append_assoc, weight_append, weight_append] at hFuel
        rw [List.append_assoc] at hCall ⊢
        refine parseText_body hCall hOther hNoIndex hCommand
          (ihBody hChildren ?_ (fun fuel => parseText_endTokens hCommand) ?_) (hGoOn (by omega))
        · intro e he
          rw [← Option.some.inj he]
          exact ⟨isIndex_endOf hCommand, hNoEnd⟩
        · rw [weight_append, weight_append]
          omega
      | false =>
        rw [hCommand] at hBody hFuel hCall
        cases hBody
        rw [if_neg Bool.false_ne_true, List.nil_append] at hFuel hCall ⊢
        exact parseText_call hCall hOther hNoIndex hCommand (hGoOn (by omega))
    · have hOther : endCommand ≠ some value := fun hEq =>
        absurd hIndex (by rw [(hEnd value hEq).1]; exact Bool.false_ne_true)
      have hCommand : isBodyCommand "args".toList = false := rfl
      rw [hCommand] at hBody hFuel hCall
      cases hBody
      rw [hValue] at hCall
      rw [if_neg Bool.false_ne_true, List.nil_append] at hFuel hCall
      rw [callTokens, hValue, List.cons_append, hCommand, if_neg Bool.false_ne_true, List.nil_append]
      exact parseText_index hCall hOther hIndex (hGoOn (by omega))

/-- The parser gives back every template from its text. -/
theorem parse_printAll {cs : List Chunk} (h : Chunk.AllValid cs []) :
    parse (Chunk.printAll cs) = .ok cs := by
  have hOuter := outer_printAll h
  rw [outer_nil, List.append_nil, List.append_nil] at hOuter
  have hClosing : ∀ fuel, weight [] < fuel → parseText fuel none [] = .ok ([], []) := by
    intro fuel hFuel
    obtain ⟨k, rfl⟩ : ∃ k, fuel = k + 1 := ⟨fuel - 1, by omega⟩
    rfl
  have hEnd : Unended none cs := by
    intro e he
    cases he
  have hRead := parseText_chunkTokens h hEnd hClosing (Nat.lt_succ_self _)
  rw [List.append_nil] at hRead
  have hTokens : parse (Chunk.printAll cs) = parseTokens (chunkTokens cs) := by rw [parse, hOuter]
  rw [hTokens, parseTokens, hRead]
  rfl

/-- A comment with braces, and a body within a command whose argument is a command. -/
def sampleTemplate : List Chunk :=
  [.text "/*\x7b\x7b*/".toList,
    .call "fn".toList [.word "f".toList, .call "list".toList [.word "a b".toList] []]
      [.call "args".toList [.word "3".toList] [], .text ";\n".toList]]

theorem parse_printAll_sample :
    Chunk.AllValid sampleTemplate [] ∧
      parse (Chunk.printAll sampleTemplate) = .ok sampleTemplate := by
  have hComment : Piece "/*\x7b\x7b*/".toList
      (Chunk.printAll (sampleTemplate.drop 1) ++ []) := by
    have hBody : ¬ ['*', '/'] <:+: ['{', '{'] := by decide
    exact .multiline hBody
  have hText : Piece ";\n".toList
      (Chunk.printAll [] ++ (printEnd "fn".toList ++ (Chunk.printAll [] ++ []))) := by
    have hRun : PlainRun ";\n".toList
        (Chunk.printAll [] ++ (printEnd "fn".toList ++ (Chunk.printAll [] ++ []))) :=
      ⟨rfl, rfl, rfl⟩
    exact .plain (List.cons_ne_nil _ _) hRun
  have hAll : ["f", "list", "a b", "fn", "args", "3"].all
      (fun w => decide (IsWord w.toList)) = true := rfl
  have hWord : ∀ w ∈ ["f", "list", "a b", "fn", "args", "3"], IsWord w.toList :=
    fun w hw => of_decide_eq_true (List.all_eq_true.mp hAll w hw)
  have hArgs : Chunk.ValidArgs
      [.word "f".toList, .call "list".toList [.word "a b".toList] []] :=
    ⟨hWord _ (by simp), ⟨hWord _ (by simp), rfl, ⟨hWord _ (by simp), trivial⟩, rfl⟩, trivial⟩
  have hEnd : ∀ c ∈ [Chunk.call "args".toList [.word "3".toList] [], .text ";\n".toList],
      ¬ c.Ends (endOf "fn".toList) := by
    simp [Chunk.Ends, endOf]
  have hValid : Chunk.AllValid sampleTemplate [] :=
    ⟨hComment, ⟨hWord _ (by simp), rfl, hArgs,
      ⟨⟨hWord _ (by simp), rfl, ⟨hWord _ (by simp), trivial⟩, rfl⟩, hText, trivial⟩, hEnd⟩, trivial⟩
  exact ⟨hValid, parse_printAll hValid⟩

end Henson.Wrap
