import Henson.Library.Delimiter
import Henson.Hwl.Acceptance

/-!
# A comment line among the tokens

Two runs of the parser, on texts that differ behind some line. Up to that line
both do the same, and that is all if the grammar never comes to its end. If the
second text has a comment line more there, then the line is read and nothing
comes of it. It is in the way only between the header of a block and the `INDENT`
behind it, and it fills a block that would be empty.
-/

namespace Henson.Hwl

open Peg

/-- Blanks and a comment, without the line end. -/
def IsComment (c : Text) : Prop :=
  ∃ w v, Pad w ∧ (∀ x ∈ v, isCommentChar x = true) ∧ c = w ++ '#' :: v

/-- `nl` takes a carriage return behind a line feed with it. -/
def dropReturn : Text → Text
  | '\r' :: t => t
  | t => t

/-- A line with the word `w` and nothing else comes next. -/
def TokenLine (w t : Text) : Prop := ∃ t₁ t₂, t = w ++ t₁ ∧ Newline t₁ t₂

inductive IfHeader : Text → Text → Prop
  | mk {w w' w'' c : Text} (t : Text) : Pad w → Pad w' → ValidName c → Pad w'' →
      IfHeader (w ++ ("if".toList ++ (w' ++ (c ++ (w'' ++ ':' :: t))))) t

inductive GroupHeader : Text → Text → Prop
  | mk {n c w w' w'' : Text} (t : Text) : ValidName n → w ≠ [] → Pad w → Pad w' → ValidName c →
      Pad w'' → GroupHeader (n ++ (w ++ ("while".toList ++ (w' ++ (c ++ (w'' ++ ':' :: t)))))) t

/-- What a line stands behind: the header of a block, the `INDENT` line of a block, or whatever
else may come before a line. -/
inductive Spot where
  | line | header | start

mutual
/-- From the text behind the colon of a header the grammar comes to a line at a spot. -/
inductive BlockComes : Text → Spot → Text → Prop
  | header {t u : Text} : LineEnd t u → BlockComes t .header u
  | start {t t₁ u : Text} : LineEnd t ("INDENT".toList ++ t₁) → Newline t₁ u →
      BlockComes t .start u
  | body {t t₁ t₂ u : Text} {s : Spot} : LineEnd t ("INDENT".toList ++ t₁) → Newline t₁ t₂ →
      BodyComes t₂ s u → BlockComes t s u

inductive BodyComes : Text → Spot → Text → Prop
  | line {t u : Text} {ss : List Statement} : Items ss t u → BodyComes t .line u
  | block {t t' v u : Text} {ss : List Statement} {s : Spot} : Items ss t t' → IfHeader t' v →
      BlockComes v s u → BodyComes t s u
end

/-- From the text of a script, or what is left of it, the grammar comes to a line at a spot. -/
inductive Comes : Text → Spot → Text → Prop
  | here (t : Text) : Comes t .line t
  | blank {t t' u : Text} {s : Spot} : LineEnd t t' → Comes t' s u → Comes t s u
  | puppet {t t' u : Text} {s : Spot} {pc : PuppetCommand} : PuppetLine pc t t' → Comes t' s u →
      Comes t s u
  | group {t t' u : Text} {s : Spot} {cf : ControlFlow} : Group cf t t' → Comes t' s u →
      Comes t s u
  | block {t v u : Text} {s : Spot} : GroupHeader t v → BlockComes v s u → Comes t s u

namespace Reading

theorem before_nameChar : Before '\n' nameChar := nameChar_eq ▸ before_satisfy rfl

theorem before_name : ReadsBefore '\n' name := by
  refine Before.consumed fun v => ?_
  rcases (letter_eq ▸ before_satisfy rfl : Before '\n' letter) v with hNone | ⟨u, hSuffix, hSome⟩
  · exact .inl fun x => by rw [andThen, hNone, Option.bind_none]
  · obtain ⟨u', hSuffix', hMany⟩ := before_nameChar.many shrinks_nameChar u
    refine .inr ⟨u', hSuffix'.trans hSuffix, fun x => ?_⟩
    rw [andThen, hSome, Option.bind_some, hMany]

theorem before_comment : Before '\n' comment := by
  refine (before_satisfy rfl).andThen fun v => .inr ?_
  obtain ⟨v', hSuffix, hMany⟩ :=
    Before.many (d := '\n') (commentChar_eq ▸ before_satisfy rfl) shrinks_commentChar v
  exact ⟨v', hSuffix, fun x => congrArg some (hMany x)⟩

theorem before_blanks (v : Text) :
    ∃ v', v' <:+ v ∧ ∀ x, blanks (v ++ '\n' :: x) = v' ++ '\n' :: x :=
  Before.many (Before.orElse (space_eq ▸ before_satisfy rfl) before_comment)
    (shrinks_space.orElse shrinks_comment) v

theorem before_cmdStr : ReadsBefore '\n' cmdStr := by
  refine Before.consumed fun v => .inr ?_
  obtain ⟨v', hSuffix, hMany⟩ :=
    Before.many (d := '\n') (cmdChar_eq ▸ before_satisfy rfl) shrinks_cmdChar v
  exact ⟨v', hSuffix, fun x => congrArg some (hMany x)⟩

theorem before_callee : ReadsBefore '\n' (consumed callee) := by
  refine Before.consumed ((Before.maybe (before_satisfy rfl)).andThen fun v => ?_)
  rcases before_name v with hNone | ⟨n, v', hSuffix, hSome⟩
  · exact .inl fun x => by rw [hNone, Option.map_none]
  · exact .inr ⟨v', hSuffix, fun x => by rw [hSome, Option.map_some]⟩

theorem before_indent : Before '\n' indent := before_word (by decide)

theorem before_dedent : Before '\n' dedent := before_word (by decide)

theorem before_eof : Before '\n' eof := by
  rintro (_ | ⟨c, v⟩)
  · exact .inl fun x => rfl
  · by_cases hNul : c = '\x00'
    · exact .inr ⟨c :: v, List.suffix_rfl, fun x => by simp [eof, notAhead, satisfy, hNul]⟩
    · exact .inl fun x => by simp [eof, notAhead, satisfy, hNul]

theorem newline_dropReturn (t : Text) : Newline ('\n' :: t) (dropReturn t) := by
  unfold dropReturn
  split
  · exact .both _
  · rename_i hOther
    refine .lineFeed t fun hHead => ?_
    obtain ⟨u, rfl⟩ := List.head?_eq_some_iff.mp hHead
    exact hOther u rfl

theorem nl_lineFeed (t : Text) : nl ('\n' :: t) = some (dropReturn t) :=
  nl_iff.mpr (newline_dropReturn t)

theorem nl_before {v : Text} (hv : v ≠ []) : (∀ x, nl (v ++ '\n' :: x) = none) ∨
    ∃ v', v' <:+ v ∧ ∀ x, nl (v ++ '\n' :: x) = some (v' ++ '\n' :: x) := by
  cases v with
  | nil => exact absurd rfl hv
  | cons c v =>
    by_cases hFeed : c = '\n'
    · subst hFeed
      refine .inr ⟨dropReturn v, ?_, fun x => ?_⟩
      · unfold dropReturn
        split
        · exact (List.suffix_cons _ _).trans (List.suffix_cons _ _)
        · exact List.suffix_cons _ _
      · rw [List.cons_append, nl_lineFeed]
        cases v with
        | nil => rfl
        | cons c v =>
          by_cases hReturn : c = '\r'
          · subst hReturn
            rfl
          · simp [dropReturn, hReturn]
    · by_cases hReturn : c = '\r'
      · subst hReturn
        exact .inr ⟨v, List.suffix_cons _ _, fun x => nl_iff.mpr (.carriageReturn _)⟩
      · exact .inl fun x => nl_eq_none_iff.mpr (by simp [isNewline, hFeed, hReturn])

theorem lineEnd_before (v : Text) : (∀ x, lineEnd (v ++ '\n' :: x) = none) ∨
    (∃ v', v' <:+ v ∧ ∀ x, lineEnd (v ++ '\n' :: x) = some (v' ++ '\n' :: x)) ∨
      ∀ x, lineEnd (v ++ '\n' :: x) = some (dropReturn x) := by
  obtain ⟨u, hSuffix, hBlanks⟩ := before_blanks v
  have hLine (x : Text) : lineEnd (v ++ '\n' :: x) = nl (u ++ '\n' :: x) := by
    rw [lineEnd, hBlanks]
  by_cases hu : u = []
  · subst hu
    exact .inr (.inr fun x => (hLine x).trans (nl_lineFeed x))
  · rcases nl_before hu with hNone | ⟨v', hSuffix', hSome⟩
    · exact .inl fun x => (hLine x).trans (hNone x)
    · exact .inr (.inl ⟨v', hSuffix'.trans hSuffix, fun x => (hLine x).trans (hSome x)⟩)

theorem lineEnd_comment {c : Text} (hc : IsComment c) (t : Text) :
    LineEnd (c ++ '\n' :: t) (dropReturn t) := by
  obtain ⟨w, v, hw, hv, rfl⟩ := hc
  rw [List.append_assoc]
  exact .mk hw (.comment hv (newline_dropReturn t))

/-- What follows the header line of a block and its `INDENT` line. -/
def blockBody : Reader Char (List Statement) := fun t => do
  let (body, t) ← statements t
  let t ← dedent t
  let t ← nl t
  return (body, t)

def indentLine : Recognizer Char := andThen indent nl

theorem block_colon (t : Text) :
    block statements (':' :: t) = (lineEnd t).bind fun t => (indentLine t).bind blockBody := by
  simp only [indentLine, andThen, Option.bind_assoc]
  rfl

theorem indentLine_eq_some {t t' : Text} :
    indentLine t = some t' ↔ ∃ t₁, t = "INDENT".toList ++ t₁ ∧ Newline t₁ t' := by
  simp only [indentLine, andThen, Option.bind_eq_some_iff, indent, word_eq_some, nl_iff]

section Runs

variable (after after' : Text)

/-- What is left in both runs: the same or, in front of the place where the texts part, the rest
of a line and what follows. -/
inductive Along : Text → Text → Prop
  | inside (v : Text) : Along (v ++ '\n' :: after) (v ++ '\n' :: after')
  | same (t : Text) : Along t t

/-- The same, or both runs are at this place. -/
inductive Beside : Text → Text → Prop
  | along {t t' : Text} : Along after after' t t' → Beside t t'
  | boundary : Beside (dropReturn after) (dropReturn after')

/-- At the spots in `Q` the runs do the same behind this place: a comment line is all that one
has more, or no block is read there anyway. -/
structure Harmless (Q : Spot → Prop) : Prop where
  line : Q .line → ∃ c, IsComment c ∧ after' = c ++ '\n' :: after
  header : Q .header → indentLine (dropReturn after) = none ∧ indentLine (dropReturn after') = none
  start : Q .start → blockBody (dropReturn after) = blockBody (dropReturn after')

end Runs

section Agreement

variable {after after' : Text} {t t' : Text} {α : Type}

theorem Beside.same (t : Text) : Beside after after' t t := .along (.same t)

theorem agree_of_readsBefore {r : Reader Char α} (hr : ReadsBefore '\n' r)
    (h : Along after after' t t') : Agree (Along after after') (r t) (r t') := by
  cases h with
  | same => exact rel_refl (fun p => ⟨rfl, .same p.2⟩) _
  | inside v =>
    rcases hr v with hNone | ⟨a, u, -, hSome⟩
    · rw [hNone, hNone]
      exact .none
    · rw [hSome, hSome]
      exact .some ⟨rfl, .inside u⟩

theorem rel_of_before {r : Recognizer Char} (hr : Before '\n' r) (h : Along after after' t t') :
    Option.Rel (Along after after') (r t) (r t') := by
  cases h with
  | same => exact rel_refl (fun p => .same p) _
  | inside v =>
    rcases hr v with hNone | ⟨u, -, hSome⟩
    · rw [hNone, hNone]
      exact .none
    · rw [hSome, hSome]
      exact .some (.inside u)

theorem Along.blanks (h : Along after after' t t') :
    Along after after' (blanks t) (blanks t') := by
  cases h with
  | same => exact .same _
  | inside v =>
    obtain ⟨u, -, hBlanks⟩ := before_blanks v
    rw [hBlanks, hBlanks]
    exact .inside u

theorem rel_nl (h : Along after after' t t') :
    Option.Rel (Beside after after') (nl t) (nl t') := by
  cases h with
  | same => exact rel_refl (fun p => .same p) _
  | inside v =>
    by_cases hNil : v = []
    · subst hNil
      rw [List.nil_append, List.nil_append, nl_lineFeed, nl_lineFeed]
      exact .some .boundary
    · rcases nl_before hNil with hNone | ⟨u, -, hSome⟩
      · rw [hNone, hNone]
        exact .none
      · rw [hSome, hSome]
        exact .some (.along (.inside u))

theorem rel_lineEnd (h : Along after after' t t') :
    Option.Rel (Beside after after') (lineEnd t) (lineEnd t') := rel_nl h.blanks

theorem agree_puppet (h : Along after after' t t') :
    Agree (Beside after after') (puppet t) (puppet t') := by
  apply rel_bind (agree_of_readsBefore before_name h)
  rintro ⟨n, t₁⟩ ⟨-, t₁'⟩ - - ⟨rfl, h₁⟩
  refine rel_bind (rel_of_before (before_satisfy rfl) h₁.blanks) fun t₂ t₂' _ _ h₂ => ?_
  apply rel_bind (agree_of_readsBefore before_cmdStr h₂.blanks)
  rintro ⟨w, t₃⟩ ⟨-, t₃'⟩ - - ⟨rfl, h₃⟩
  exact rel_bind (rel_lineEnd h₃) fun _ _ _ _ h₄ => .some ⟨rfl, h₄⟩

theorem agree_call (h : Along after after' t t') :
    Agree (Beside after after') (call t) (call t') := by
  apply rel_bind (agree_of_readsBefore before_callee h)
  rintro ⟨n, t₁⟩ ⟨-, t₁'⟩ - - ⟨rfl, h₁⟩
  have hEof : Option.Rel (Beside after after') (eof (blanks t₁)) (eof (blanks t₁')) :=
    rel_mono (rel_of_before before_eof h₁.blanks) fun _ _ => .along
  exact rel_bind (rel_or (rel_nl h₁.blanks) hEof) fun _ _ _ _ h₂ => .some ⟨rfl, h₂⟩

theorem agree_blockBody (hStatements : Agree (Along after after') (statements t) (statements t')) :
    Agree (Beside after after') (blockBody t) (blockBody t') := by
  apply rel_bind hStatements
  rintro ⟨ss, t₁⟩ ⟨-, t₁'⟩ - - ⟨rfl, h₁⟩
  refine rel_bind (rel_of_before before_dedent h₁) fun t₂ t₂' _ _ h₂ => ?_
  exact rel_bind (rel_nl h₂) fun _ _ _ _ h₃ => .some ⟨rfl, h₃⟩

theorem dropReturn_comment {c : Text} (hc : IsComment c) (x : Text) :
    dropReturn (c ++ x) = c ++ x := by
  obtain ⟨w, v, hw, -, rfl⟩ := hc
  cases w with
  | nil => rfl
  | cons p w =>
    have hPad := hw p List.mem_cons_self
    have hNot : p ≠ '\r' := by
      rintro rfl
      cases hPad
    simp [dropReturn, hNot]

theorem iterate_comment {c : Text} (hc : IsComment c) (after : Text) (ss : List Statement) :
    iterate (item statements) ss (c ++ '\n' :: after) =
      iterate (item statements) ss (dropReturn after) :=
  iterate_of_some shrinks_item_statements (item_blank (lineEnd_comment hc after))

theorem blockBody_comment {c : Text} (hc : IsComment c)
    (hEmpty : ¬ TokenLine "DEDENT".toList (dropReturn after)) :
    blockBody (c ++ '\n' :: after) = blockBody (dropReturn after) := by
  have hComment : statements (c ++ '\n' :: after) =
      some (iterate (item statements) [] (dropReturn after)) := by
    rw [statements_eq, items, item_blank (lineEnd_comment hc after), Option.map_some]
  rw [blockBody, blockBody, hComment, statements_eq, items]
  cases hItem : item statements [] (dropReturn after) with
  | some p => rw [iterate_of_some shrinks_item_statements hItem, Option.map_some]
  | none =>
    have hDedent : (dedent (dropReturn after)).bind nl = none := by
      refine Option.eq_none_iff_forall_ne_some.mpr fun t h => hEmpty ?_
      obtain ⟨t₁, hWord, hNl⟩ := Option.bind_eq_some_iff.mp h
      exact ⟨t₁, t, word_eq_some.mp hWord, nl_iff.mp hNl⟩
    rw [iterate_of_none hItem, Option.map_none]
    exact (Option.bind_assoc _ _ _).symm.trans
      (congrArg (Option.bind · fun t => some ([], t)) hDedent)

theorem indent_comment {c : Text} (hc : IsComment c) (x : Text) : indent (c ++ x) = none := by
  refine Option.eq_none_iff_forall_ne_some.mpr fun t h => ?_
  have hText := word_eq_some.mp h
  obtain ⟨w, v, hw, -, rfl⟩ := hc
  cases w with
  | nil => cases hText
  | cons p w =>
    have hPad := hw p List.mem_cons_self
    rw [List.cons_append] at hText
    obtain ⟨rfl, -⟩ := List.cons.inj hText
    cases hPad

/-- A comment line is harmless unless it comes between a header and its `INDENT` line, or between
an `INDENT` line and a `DEDENT` line. -/
theorem harmless_comment {c : Text} (hc : IsComment c) {Q : Spot → Prop}
    (hHeader : Q .header → ¬ TokenLine "INDENT".toList (dropReturn after))
    (hStart : Q .start → ¬ TokenLine "DEDENT".toList (dropReturn after)) :
    Harmless after (c ++ '\n' :: after) Q where
  line _ := ⟨c, hc, rfl⟩
  header hQ := by
    constructor
    · refine Option.eq_none_iff_forall_ne_some.mpr fun t h => hHeader hQ ?_
      obtain ⟨t₁, hText, hNewline⟩ := indentLine_eq_some.mp h
      exact ⟨t₁, t, hText, hNewline⟩
    · rw [indentLine, andThen, dropReturn_comment hc, indent_comment hc]
      rfl
  start hQ := by rw [dropReturn_comment hc, blockBody_comment hc (hStart hQ)]

theorem bodyComes_of_items {ss : List Statement} {u : Text} {s : Spot} (h : Items ss t t')
    (hComes : BodyComes t' s u) : BodyComes t s u := by
  cases hComes with
  | line hItems => exact .line (items_append h hItems)
  | block hItems hHeader hBlock => exact .block (items_append h hItems) hHeader hBlock

variable {Q : Spot → Prop}

theorem agree_indented (hHarmless : Harmless after after' Q) (v : Text)
    (hStart : ∀ t₁, v ++ '\n' :: after = "INDENT".toList ++ t₁ → Newline t₁ (dropReturn after) →
      Q .start)
    (hStatements : ∀ t₁ u u', v ++ '\n' :: after = "INDENT".toList ++ t₁ → Newline t₁ u →
      Along after after' u u' → Agree (Along after after') (statements u) (statements u')) :
    Agree (Beside after after') ((indentLine (v ++ '\n' :: after)).bind blockBody)
      ((indentLine (v ++ '\n' :: after')).bind blockBody) := by
  rcases before_indent v with hNone | ⟨v₁, -, hWord⟩
  · rw [indentLine, andThen, andThen, hNone, hNone]
    exact .none
  · have hToken : v ++ '\n' :: after = "INDENT".toList ++ (v₁ ++ '\n' :: after) :=
      word_eq_some.mp (hWord after)
    rw [indentLine, andThen, andThen, hWord, hWord, Option.bind_some, Option.bind_some]
    by_cases hNil : v₁ = []
    · -- the `INDENT` line ends in front of the place
      subst hNil
      rw [List.nil_append, List.nil_append, nl_lineFeed, nl_lineFeed, Option.bind_some,
        Option.bind_some, hHarmless.start (hStart _ hToken (newline_dropReturn after))]
      exact rel_refl (fun p => ⟨rfl, .same p.2⟩) _
    · rcases nl_before hNil with hNone | ⟨v₂, -, hSome⟩
      · rw [hNone, hNone]
        exact .none
      · rw [hSome, hSome, Option.bind_some, Option.bind_some]
        exact agree_blockBody (hStatements _ _ _ hToken (nl_iff.mp (hSome after)) (.inside v₂))

theorem block_of_ne_colon {a : Char} (h : a ≠ ':') (t : Text) :
    block statements (a :: t) = none := by
  rw [block, satisfy_cons, if_neg (by simp [h])]
  rfl

theorem agree_block (hHarmless : Harmless after after' Q) (h : Along after after' t t')
    (hComes : ∀ v s, t = ':' :: v → BlockComes v s (dropReturn after) → Q s)
    (hStatements : ∀ u u', u.length < t.length → Along after after' u u' →
      (∀ s, BodyComes u s (dropReturn after) → Q s) →
      Agree (Along after after') (statements u) (statements u')) :
    Agree (Beside after after') (block statements t) (block statements t') := by
  cases h with
  | same => exact rel_refl (fun p => ⟨rfl, .same p.2⟩) _
  | inside v =>
    cases v with
    | nil => exact .none
    | cons a v =>
      by_cases hColon : a = ':'
      · subst hColon
        rw [List.cons_append, List.cons_append, block_colon, block_colon]
        rcases lineEnd_before v with hNone | ⟨v₁, hSuffix, hLine⟩ | hLine
        · rw [hNone, hNone]
          exact .none
        · rw [hLine, hLine, Option.bind_some, Option.bind_some]
          have hHeader := lineEnd_iff.mp (hLine after)
          apply agree_indented hHarmless v₁
          · intro t₁ hToken hNewline
            exact hComes _ _ rfl (.start (hToken ▸ hHeader) hNewline)
          · intro t₁ u u' hToken hNewline hAlong
            refine hStatements u u' ?_ hAlong fun s hBody =>
              hComes _ s rfl (.body (hToken ▸ hHeader) hNewline hBody)
            have hLe := hSuffix.length_le
            have hLine := congrArg List.length hToken
            have hLess := shrinks_nl _ _ (nl_iff.mpr hNewline)
            simp only [List.length_append, List.length_cons] at hLine ⊢
            omega
        · -- the header ends in front of the place
          obtain ⟨hNo, hNo'⟩ := hHarmless.header
            (hComes _ _ rfl (.header (lineEnd_iff.mp (hLine after))))
          rw [hLine, hLine, Option.bind_some, Option.bind_some, hNo, hNo']
          exact .none
      · rw [List.cons_append, List.cons_append, block_of_ne_colon hColon, block_of_ne_colon hColon]
        exact .none

theorem agree_ifStmt (hHarmless : Harmless after after' Q) (h : Along after after' t t')
    (hComes : ∀ v s, IfHeader t v → BlockComes v s (dropReturn after) → Q s)
    (hStatements : ∀ u u', u.length < t.length → Along after after' u u' →
      (∀ s, BodyComes u s (dropReturn after) → Q s) →
      Agree (Along after after') (statements u) (statements u')) :
    Agree (Beside after after') (ifStmt statements t) (ifStmt statements t') := by
  refine rel_bind (rel_of_before (before_word (by decide)) h) fun t₁ t₁' hIf _ h₁ => ?_
  apply rel_bind (agree_of_readsBefore before_name h₁.blanks)
  rintro ⟨n, t₂⟩ ⟨-, t₂'⟩ hName - ⟨rfl, h₂⟩
  have hShorter : (blanks t₂).length < t.length := by
    have hLe₁ := shrinks_word (by decide) _ _ hIf
    have hLe₂ := length_blanks_le t₁
    have hLe₃ := length_name_lt hName
    have hLe₄ := length_blanks_le t₂
    omega
  have hHeader (v : Text) (hColon : blanks t₂ = ':' :: v) : IfHeader t v := by
    obtain ⟨hValid, -, -⟩ := name_iff.mp hName
    obtain ⟨w', hw', rfl⟩ := name_padded hName
    obtain ⟨w'', hw'', rfl⟩ := blanks_padded hColon rfl rfl
    rw [word_eq_some.mp hIf]
    exact .mk (w := []) v pad_nil hw' hValid hw''
  have hBlock := agree_block hHarmless h₂.blanks
    (fun v s hColon => hComes v s (hHeader v hColon))
    fun u u' hu => hStatements u u' (Nat.lt_trans hu hShorter)
  apply rel_bind hBlock
  rintro ⟨body, t₃⟩ ⟨-, t₃'⟩ - - ⟨rfl, h₃⟩
  exact .some ⟨rfl, h₃⟩

theorem ifHeader_of_blanks {v : Text} (h : IfHeader (blanks t) v) : IfHeader t v := by
  generalize hBlanks : blanks t = u at h
  cases h with
  | @mk w w' w'' c v hw hw' hc hw'' =>
    obtain ⟨w₀, hw₀, rfl⟩ : ∃ w₀, Pad w₀ ∧
        t = w₀ ++ (w ++ ("if".toList ++ (w' ++ (c ++ (w'' ++ ':' :: v))))) := by
      cases w with
      | nil => exact blanks_padded hBlanks rfl rfl
      | cons p w =>
        refine blanks_padded hBlanks rfl ?_
        have hPad := hw p List.mem_cons_self
        simp only [isPad, Bool.or_eq_true, decide_eq_true_eq] at hPad
        rcases hPad with rfl | rfl <;> rfl
    rw [← List.append_assoc]
    exact .mk v (List.forall_mem_append.mpr ⟨hw₀, hw⟩) hw' hc hw''

theorem agree_item (hHarmless : Harmless after after' Q) (h : Along after after' t t')
    (hComes : ∀ s, BodyComes t s (dropReturn after) → Q s)
    (hStatements : ∀ u u', u.length < t.length → Along after after' u u' →
      (∀ s, BodyComes u s (dropReturn after) → Q s) →
      Agree (Along after after') (statements u) (statements u')) (ss : List Statement) :
    Agree (Beside after after') (item statements ss t) (item statements ss t') := by
  have hStatement :
      Agree (Beside after after') (statement statements t) (statement statements t') := by
    apply rel_bind (rel_of_before (before_indent.orElse before_dedent).notAhead h)
    intro t₁ t₁' hAhead _ h₁
    obtain ⟨-, rfl⟩ := notAhead_eq_some.mp hAhead
    refine rel_or (agree_call h₁.blanks) (agree_ifStmt hHarmless h₁.blanks ?_ ?_)
    · exact fun v s hHeader hBlock => hComes s (.block (.nil _) (ifHeader_of_blanks hHeader) hBlock)
    · exact fun u u' hu => hStatements u u' (Nat.lt_of_lt_of_le hu (length_blanks_le _))
  refine rel_or (rel_map hStatement ?_) (rel_map (rel_lineEnd h) fun _ _ h => ⟨rfl, h⟩)
  rintro ⟨s, t₁⟩ ⟨-, t₁'⟩ ⟨rfl, h₁⟩
  exact ⟨rfl, h₁⟩

theorem beside_of_stopsAt {v x : Text} (h : Beside after after' t t')
    (hStop : StopsAt (fun c => c ≠ '\x00') t) (hText : v ++ '\n' :: after = x ++ t)
    (hLine : '\n' ∉ x) : Along after after' t t' ∧ StopsAt (fun c => c ≠ '\x00') t' := by
  cases h with
  | along h =>
    refine ⟨h, ?_⟩
    cases h with
    | same => exact hStop
    | inside v =>
      cases v with
      | nil => cases hStop '\n' rfl
      | cons a v => exact stopsAt_cons (hStop a rfl)
  | boundary =>
    -- the line feed before the place would be in the line
    exfalso
    obtain ⟨y, hy⟩ : ∃ y, after = y ++ dropReturn after := by
      unfold dropReturn
      split
      · exact ⟨['\r'], rfl⟩
      · exact ⟨[], rfl⟩
    have hOver : (v ++ '\n' :: y) ++ dropReturn after = x ++ dropReturn after := by
      rw [← hText, List.append_assoc, List.cons_append, ← hy]
    exact hLine (List.append_cancel_right hOver ▸ by simp)

theorem iterate_item (hHarmless : Harmless after after' Q) {n : Nat}
    (hStatements : ∀ u u', u.length < n → Along after after' u u' →
      (∀ s, BodyComes u s (dropReturn after) → Q s) →
      Agree (Along after after') (statements u) (statements u'))
    (h : Beside after after' t t') (hComes : ∀ s, BodyComes t s (dropReturn after) → Q s)
    (hLe : t.length ≤ n) (ss : List Statement) :
    (iterate (item statements) ss t).1 = (iterate (item statements) ss t').1 ∧
      Along after after' (iterate (item statements) ss t).2
        (iterate (item statements) ss t').2 := by
  induction hLength : t.length using Nat.strongRecOn generalizing t t' ss with
  | ind k ih =>
    subst hLength
    cases h with
    | boundary =>
      obtain ⟨c, hc, rfl⟩ := hHarmless.line (hComes .line (.line (.nil _)))
      rw [dropReturn_comment hc, iterate_comment hc]
      exact ⟨rfl, .same _⟩
    | along h =>
      obtain ⟨v⟩ | _ := h
      swap
      · exact ⟨rfl, .same _⟩
      have hItem := agree_item hHarmless (.inside v) hComes
        (fun u u' hu => hStatements u u' (Nat.lt_of_lt_of_le hu hLe)) ss
      generalize hLeft : item statements ss (v ++ '\n' :: after) = x at hItem
      generalize hRight : item statements ss (v ++ '\n' :: after') = y at hItem
      cases hItem with
      | none =>
        rw [iterate_of_none hLeft, iterate_of_none hRight]
        exact ⟨rfl, .inside v⟩
      | @some p q hRound =>
        obtain ⟨ss₁, t₁⟩ := p
        obtain ⟨ss₁', t₁'⟩ := q
        obtain ⟨rfl, h₁⟩ := hRound
        rw [iterate_of_some shrinks_item_statements hLeft,
          iterate_of_some shrinks_item_statements hRight]
        have hShorter := shrinks_item_statements _ _ _ _ hLeft
        rcases items_of_item (fun _ _ _ _ => block_iff.mp) hLeft with
          ⟨_, -, hItems⟩ | ⟨hStop, x, hText, hLine⟩
        · exact ih _ hShorter h₁ (fun s hBody => hComes s (bodyComes_of_items hItems hBody))
            (Nat.le_trans (Nat.le_of_lt hShorter) hLe) ss₁ rfl
        · obtain ⟨hAlong, hStop'⟩ := beside_of_stopsAt h₁ hStop hText hLine
          rw [iterate_of_none (item_eof hStop), iterate_of_none (item_eof hStop')]
          exact ⟨rfl, hAlong⟩

theorem agree_statements (hHarmless : Harmless after after' Q) (h : Along after after' t t')
    (hComes : ∀ s, BodyComes t s (dropReturn after) → Q s) :
    Agree (Along after after') (statements t) (statements t') := by
  induction hLength : t.length using Nat.strongRecOn generalizing t t' with
  | ind n ih =>
    subst hLength
    have hShorter : ∀ u u', u.length < t.length → Along after after' u u' →
        (∀ s, BodyComes u s (dropReturn after) → Q s) →
        Agree (Along after after') (statements u) (statements u') :=
      fun u u' hu hAlong hBody => ih u.length hu hAlong hBody rfl
    have hIterate := iterate_item hHarmless hShorter (.along h) hComes (Nat.le_refl _) []
    have hItem := agree_item hHarmless h hComes hShorter []
    rw [statements_eq, statements_eq, items, items]
    generalize hLeft : item statements [] t = x at hItem
    generalize hRight : item statements [] t' = y at hItem
    cases hItem with
    | none => exact .none
    | @some p q hRound =>
      rw [iterate_of_some shrinks_item_statements hLeft,
        iterate_of_some shrinks_item_statements hRight] at hIterate
      exact .some hIterate

theorem agree_procs (hHarmless : Harmless after after' Q) (h : Along after after' t t')
    (hComes : ∀ v s, GroupHeader t v → BlockComes v s (dropReturn after) → Q s) :
    Agree (Beside after after') (procs t) (procs t') := by
  apply rel_bind (agree_of_readsBefore before_name h)
  rintro ⟨n, t₁⟩ ⟨-, t₁'⟩ hName - ⟨rfl, h₁⟩
  refine rel_bind (rel_of_before (before_word (by decide)) h₁.blanks) fun t₂ t₂' hWhile _ h₂ => ?_
  apply rel_bind (agree_of_readsBefore before_name h₂.blanks)
  rintro ⟨k, t₃⟩ ⟨-, t₃'⟩ hControl - ⟨rfl, h₃⟩
  have hHeader (v : Text) (hColon : blanks t₃ = ':' :: v) : GroupHeader t v := by
    obtain ⟨hn, rfl, hStop⟩ := name_iff.mp hName
    obtain ⟨w, hw, rfl⟩ := blanks_padded (word_eq_some.mp hWhile) rfl rfl
    obtain ⟨hc, -, -⟩ := name_iff.mp hControl
    obtain ⟨w', hw', rfl⟩ := name_padded hControl
    obtain ⟨w'', hw'', rfl⟩ := blanks_padded hColon rfl rfl
    refine .mk v hn ?_ hw hw' hc hw''
    rintro rfl
    cases hStop 'w' rfl
  refine rel_bind (agree_block hHarmless h₃.blanks
    (fun v s hColon => hComes v s (hHeader v hColon))
    fun u u' _ hAlong hBody => agree_statements hHarmless hAlong hBody) ?_
  rintro ⟨body, t₄⟩ ⟨-, t₄'⟩ - - ⟨rfl, h₄⟩
  exact .some ⟨rfl, h₄⟩

theorem agree_entry (hHarmless : Harmless after after' Q) (h : Along after after' t t')
    (hComes : ∀ s, Comes t s (dropReturn after) → Q s) (s : Script) :
    Agree (Beside after after') (entry s t) (entry s t') := by
  have hProcs := agree_procs hHarmless h fun v s hHeader hBlock => hComes s (.block hHeader hBlock)
  refine rel_or (rel_map (agree_puppet h) ?_) (rel_or (rel_map hProcs ?_)
    (rel_map (rel_lineEnd h) fun _ _ h => ⟨rfl, h⟩))
  · rintro ⟨pc, t₁⟩ ⟨-, t₁'⟩ ⟨rfl, h₁⟩
    exact ⟨rfl, h₁⟩
  · rintro ⟨cf, t₁⟩ ⟨-, t₁'⟩ ⟨rfl, h₁⟩
    exact ⟨rfl, h₁⟩

theorem comes_of_entry {s s' : Script} (h : entry s t = some (s', t')) {u : Text} {spot : Spot}
    (hComes : Comes t' spot u) : Comes t spot u := by
  rcases entry_eq_some.mp h with ⟨pc, -, hPuppet⟩ | ⟨cf, -, -, hProcs⟩ | ⟨-, -, -, hLine⟩
  · exact .puppet (puppet_iff.mp hPuppet) hComes
  · exact .group (procs_iff.mp hProcs) hComes
  · exact .blank (lineEnd_iff.mp hLine) hComes

theorem iterate_entry (hHarmless : Harmless after after' Q) (h : Beside after after' t t')
    (hComes : ∀ s, Comes t s (dropReturn after) → Q s) (s : Script) :
    (iterate entry s t').1 = (iterate entry s t).1 := by
  induction hLength : t.length using Nat.strongRecOn generalizing t t' s with
  | ind n ih =>
    subst hLength
    cases h with
    | boundary =>
      obtain ⟨c, hc, rfl⟩ := hHarmless.line (hComes .line (.here _))
      rw [dropReturn_comment hc,
        iterate_of_some shrinks_entry (entry_blank (lineEnd_comment hc after))]
    | along h =>
      have hEntry := agree_entry hHarmless h hComes s
      generalize hLeft : entry s t = x at hEntry
      generalize hRight : entry s t' = y at hEntry
      cases hEntry with
      | none => rw [iterate_of_none hLeft, iterate_of_none hRight]
      | @some p q hRound =>
        obtain ⟨s₁, t₁⟩ := p
        obtain ⟨s₁', t₁'⟩ := q
        obtain ⟨rfl, h₁⟩ := hRound
        rw [iterate_of_some shrinks_entry hLeft, iterate_of_some shrinks_entry hRight]
        exact ih _ (shrinks_entry _ _ _ _ hLeft) h₁
          (fun spot hHere => hComes spot (comes_of_entry hLeft hHere)) s₁ rfl

/-- Behind the line feed that the texts part at, what is there does not matter if the grammar does
not come there, or if it is harmless. -/
theorem script_of_harmless (hHarmless : Harmless after after' Q) {before : Text}
    (hBefore : before = [] ∨ ∃ u, before = u ++ ['\n'])
    (hComes : ∀ s, Comes (before ++ after) s (dropReturn after) → Q s) :
    (script (before ++ after')).1 = (script (before ++ after)).1 := by
  rcases hBefore with rfl | ⟨u, rfl⟩
  · have hLine : Comes after .line (dropReturn after) ∧
        iterate entry {} after = iterate entry {} (dropReturn after) := by
      unfold dropReturn
      split
      · rename_i t
        have hLine : LineEnd ('\r' :: t) t := .mk pad_nil (.newline (.carriageReturn t))
        exact ⟨.blank hLine (.here t), iterate_of_some shrinks_entry (entry_blank hLine)⟩
      · exact ⟨.here _, rfl⟩
    obtain ⟨c, hc, rfl⟩ := hHarmless.line (hComes .line hLine.1)
    rw [script, script, List.nil_append, List.nil_append, hLine.2,
      iterate_of_some shrinks_entry (entry_blank (lineEnd_comment hc after))]
  · rw [List.append_assoc, List.append_assoc]
    rw [List.append_assoc] at hComes
    exact iterate_entry hHarmless (.along (.inside u)) hComes {}

end Agreement

end Reading

end Henson.Hwl
