import Henson.Library.Scanner

/-!
# The lexers of wrap.py

A wrapper file is text with commands in double braces. The outer lexer cuts it at the
braces, but not within comments of C. The inner one takes the text between
two braces as identifiers that blanks or quotes set apart.
-/

namespace Henson.Wrap

open Peg

abbrev Text := List Char

inductive Token where
  | lbrace
  | rbrace
  | text (value : Text)
  | identifier (value : Text)
  deriving DecidableEq

def Token.value : Token → Text
  | lbrace => ['{', '{']
  | rbrace => ['}', '}']
  | text value => value
  | identifier value => value

/-- `({(?!{)|}(?!})|/(?![/*])|[^{}/])`, for the character behind this one. -/
def isPlain (c : Char) (behind : Option Char) : Bool :=
  if c = '{' ∨ c = '}' then behind ≠ some c
  else if c = '/' then behind ≠ some '/' ∧ behind ≠ some '*'
  else true

def plain : Recognizer Char
  | [] => none
  | c :: t => if isPlain c t.head? then some t else none

def isLineBreak (c : Char) : Bool := c = '\n' || c = '\r'

def multilineComment : Recognizer Char :=
  andThen (word ['/', '*']) (lazily (word ['*', '/']))

def singleLineComment : Recognizer Char :=
  andThen (word ['/', '/']) (lazily (ahead (satisfy isLineBreak)))

/-- A rule of a lexer: the token is made of what the expression matches. -/
def rule (make : Text → Option Token) (r : Recognizer Char) : Reader Char (Option Token) := fun t =>
  (consumed r t).map fun p => (make p.1, p.2)

def firstOf : List (Reader Char (Option Token)) → Reader Char (Option Token)
  | [], _ => none
  | r :: rs, t => (r t).or (firstOf rs t)

def outerRules : Reader Char (Option Token) :=
  firstOf [rule (some ∘ .text) multilineComment,
    rule (some ∘ .text) singleLineComment,
    rule (fun _ => some .lbrace) (word ['{', '{']),
    rule (fun _ => some .rbrace) (word ['}', '}']),
    rule (some ∘ .text) fun t => some (many plain t)]

/-- `\s` of a `re.Scanner`, whose flags leave out Unicode. -/
def isSpace (c : Char) : Bool := c = ' ' || 9 ≤ c.toNat && c.toNat ≤ 13

/-- `((?:(?!\1)[^\\]|\\.)*)\1` behind the quote `q`. -/
def quoted (q : Char) : Recognizer Char
  | [] => none
  | [c] => if c = q then some [] else none
  | c :: d :: t =>
    if c = q then some (d :: t)
    else if c = '\\' then if d = '\n' then none else quoted q t
    else quoted q (d :: t)

def quotedId : Recognizer Char
  | [] => none
  | c :: t => if c = '"' ∨ c = '\'' then quoted c t else none

/-- Removes the quotes; the pattern of `quoted_id` does not match beyond a line. -/
def unquote (value : Text) : Text :=
  let body := value.tail.dropLast
  if '\n' ∈ body then value else body

def innerRules : Reader Char (Option Token) :=
  firstOf [rule (fun _ => some .lbrace) (word ['{', '{']),
    rule (fun _ => some .rbrace) (word ['}', '}']),
    rule (fun value => some (.identifier (unquote value))) quotedId,
    rule (some ∘ .identifier) (several (satisfy fun c => !isSpace c)),
    rule (fun _ => none) (several (satisfy isSpace))]

def outer (t : Text) : List Token × Text := scan outerRules t

/-- The tokens of a text between braces; each character belongs to a match. -/
def inner (t : Text) : List Token := (scan innerRules t).1

/-- A run of characters that the braces and the comments behind it end. -/
def PlainRun : Text → Text → Prop
  | [], next => plain next = none
  | c :: s, next => isPlain c (s ++ next).head? = true ∧ PlainRun s next

/-- What the outer lexer makes one token of, in front of `next`. -/
inductive Piece : Text → Text → Prop where
  | plain {s next : Text} (hs : s ≠ []) (hRun : PlainRun s next) : Piece s next
  | multiline {body next : Text} (hBody : ¬ ['*', '/'] <:+: body) :
      Piece (['/', '*'] ++ (body ++ ['*', '/'])) next
  | singleLine {body next : Text} (hBody : ∀ c ∈ body, isLineBreak c = false)
      (hNext : ∃ c ∈ next.head?, isLineBreak c = true) : Piece (['/', '/'] ++ body) next

theorem word_eq_none {w t : Text} : word w t = none ↔ ¬ w <+: t := by
  rw [← Option.not_isSome_iff_eq_none, Option.isSome_iff_exists]
  apply not_congr
  constructor
  · rintro ⟨t', h⟩
    exact ⟨t', (word_eq_some.mp h).symm⟩
  · rintro ⟨t', rfl⟩
    exact ⟨t', word_append w t'⟩

theorem rule_of_none {make : Text → Option Token} {r : Recognizer Char} {t : Text}
    (h : r t = none) : rule make r t = none := by
  rw [rule, consumed, h]
  rfl

theorem rule_append {make : Text → Option Token} {r : Recognizer Char} {w t : Text}
    (h : r (w ++ t) = some t) : rule make r (w ++ t) = some (make w, t) := by
  rw [rule, consumed_append h]
  rfl

theorem firstOf_cons_of_none {r : Reader Char (Option Token)}
    {rs : List (Reader Char (Option Token))} {t : Text} (h : r t = none) :
    firstOf (r :: rs) t = firstOf rs t := by
  rw [firstOf, h, Option.none_or]

theorem firstOf_cons_of_some {r : Reader Char (Option Token)}
    {rs : List (Reader Char (Option Token))} {t : Text} {p : Option Token × Text}
    (h : r t = some p) : firstOf (r :: rs) t = some p := by
  rw [firstOf, h, Option.some_or]

theorem not_double_of_plain {c : Char} {t : Text} (h : isPlain c t.head? = true) :
    word ['/', '*'] (c :: t) = none ∧ word ['/', '/'] (c :: t) = none ∧
      word ['{', '{'] (c :: t) = none ∧ word ['}', '}'] (c :: t) = none := by
  simp only [word_eq_none]
  refine ⟨?_, ?_, ?_, ?_⟩
  all_goals
    rintro ⟨t', hEq⟩
    cases hEq
    cases h

theorem many_plain {s next : Text} (h : PlainRun s next) : many plain (s ++ next) = next := by
  induction s with
  | nil => exact many_of_none h
  | cons c s ih =>
    have hShrinks : Shrinks plain := by
      intro t t' hPlain
      cases t with
      | nil => cases hPlain
      | cons c t =>
        obtain ⟨-, hEq⟩ := Option.ite_none_right_eq_some.mp hPlain
        rw [← Option.some.inj hEq]
        exact Nat.lt_succ_self _
    have hPlain : plain (c :: (s ++ next)) = some (s ++ next) := if_pos h.1
    rw [List.cons_append, many_of_some hShrinks hPlain]
    exact ih h.2

theorem outerRules_piece {s next : Text} (h : Piece s next) :
    outerRules (s ++ next) = some (some (.text s), next) := by
  cases h with
  | plain hs hRun =>
    obtain ⟨c, s, rfl⟩ := List.exists_cons_of_ne_nil hs
    have hDouble := not_double_of_plain hRun.1
    rw [← List.cons_append] at hDouble
    obtain ⟨hStar, hSlash, hLbrace, hRbrace⟩ := hDouble
    have hMulti : multilineComment (c :: s ++ next) = none := by
      rw [multilineComment, andThen, hStar, Option.bind_none]
    have hSingle : singleLineComment (c :: s ++ next) = none := by
      rw [singleLineComment, andThen, hSlash, Option.bind_none]
    rw [outerRules, firstOf_cons_of_none (rule_of_none hMulti),
      firstOf_cons_of_none (rule_of_none hSingle), firstOf_cons_of_none (rule_of_none hLbrace),
      firstOf_cons_of_none (rule_of_none hRbrace)]
    exact firstOf_cons_of_some (rule_append (congrArg some (many_plain hRun)))
  | @multiline body _ hBody =>
    have hComment : multilineComment (['/', '*'] ++ (body ++ ['*', '/']) ++ next) = some next := by
      rw [multilineComment, andThen, List.append_assoc, word_append, Option.bind_some,
        List.append_assoc, lazily_append, lazily_of_some (word_append _ _)]
      intro v hv hSuffix
      rw [word_eq_none]
      rintro ⟨t, hEq⟩
      -- the end of the comment would begin within its body
      cases v with
      | nil => exact hv rfl
      | cons c v =>
        cases v with
        | nil => cases hEq
        | cons d v =>
          cases hEq
          have hStart : ['*', '/'] <:+: '*' :: '/' :: v := ⟨[], v, rfl⟩
          exact hBody (hStart.trans hSuffix.isInfix)
    exact firstOf_cons_of_some (rule_append hComment)
  | @singleLine body _ hBody hNext =>
    have hMulti : multilineComment (['/', '/'] ++ body ++ next) = none := rfl
    have hComment : singleLineComment (['/', '/'] ++ body ++ next) = some next := by
      rw [singleLineComment, andThen, List.append_assoc, word_append, Option.bind_some,
        lazily_append]
      · obtain ⟨c, hHead, hBreak⟩ := hNext
        apply lazily_of_some
        cases next with
        | nil => cases hHead
        | cons d next =>
          obtain rfl := Option.some.inj hHead
          simp [ahead, satisfy, hBreak]
      · intro v hv hSuffix
        cases v with
        | nil => exact absurd rfl hv
        | cons c v =>
          have hc := hBody c (hSuffix.subset List.mem_cons_self)
          simp [ahead, satisfy, hc]
    rw [outerRules, firstOf_cons_of_none (rule_of_none hMulti)]
    exact firstOf_cons_of_some (rule_append hComment)

theorem piece_ne_nil {s next : Text} (h : Piece s next) : s ≠ [] := by
  cases h with
  | plain hs hRun => exact hs
  | multiline hBody => exact List.cons_ne_nil _ _
  | singleLine hBody hNext => exact List.cons_ne_nil _ _

theorem outer_of_rule {w next : Text} {token : Token} (hw : w ≠ [])
    (h : outerRules (w ++ next) = some (some token, next)) :
    outer (w ++ next) = (token :: (outer next).1, (outer next).2) :=
  scan_append hw h

theorem outer_piece {s next : Text} (h : Piece s next) :
    outer (s ++ next) = (.text s :: (outer next).1, (outer next).2) :=
  outer_of_rule (piece_ne_nil h) (outerRules_piece h)

theorem outer_lbrace (t : Text) :
    outer (['{', '{'] ++ t) = (.lbrace :: (outer t).1, (outer t).2) := by
  apply outer_of_rule (List.cons_ne_nil _ _)
  rw [outerRules, firstOf_cons_of_none (rule_of_none rfl), firstOf_cons_of_none (rule_of_none rfl)]
  exact firstOf_cons_of_some (rule_append (word_append ['{', '{'] t))

theorem outer_rbrace (t : Text) :
    outer (['}', '}'] ++ t) = (.rbrace :: (outer t).1, (outer t).2) := by
  apply outer_of_rule (List.cons_ne_nil _ _)
  rw [outerRules, firstOf_cons_of_none (rule_of_none rfl), firstOf_cons_of_none (rule_of_none rfl),
    firstOf_cons_of_none (rule_of_none rfl)]
  exact firstOf_cons_of_some (rule_append (word_append ['}', '}'] t))

theorem outer_nil : outer [] = ([], []) := by
  simp [outer, scan, outerRules, firstOf, rule, consumed, multilineComment, singleLineComment,
    andThen, word]

end Henson.Wrap
