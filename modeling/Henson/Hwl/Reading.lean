import Mathlib.Logic.Basic
import Mathlib.Data.List.Basic
import Henson.Library.Peg
import Henson.Hwl.Syntax

/-!
# HWL as parsing expressions

What each rule of the grammar reads from the text that is left, without cursor,
table and local variables. The statements are a recursion on the length of the
text: the body of an `if` is shorter than the statement.
-/

namespace Henson.Hwl.Reading

open Peg

def nl : Recognizer Char :=
  orElse (word "\n\r".toList) (orElse (satisfy (· = '\n')) (satisfy (· = '\r')))

def eof : Recognizer Char := notAhead (satisfy (· ≠ '\x00'))

def indent : Recognizer Char := word "INDENT".toList

def dedent : Recognizer Char := word "DEDENT".toList

def space : Recognizer Char := orElse (satisfy (· = ' ')) (satisfy (· = '\t'))

def commentChar : Recognizer Char := andThen (notAhead nl) (satisfy (· ≠ '\x00'))

def comment : Recognizer Char :=
  andThen (satisfy (· = '#')) fun t => some (many commentChar t)

/-- What is left after blanks and comments. -/
def blanks (t : Text) : Text := many (orElse space comment) t

def number : Recognizer Char := satisfy fun c => '0' ≤ c ∧ c ≤ '9'

def letter : Recognizer Char :=
  orElse (satisfy fun c => 'a' ≤ c ∧ c ≤ 'z')
    (orElse (satisfy fun c => 'A' ≤ c ∧ c ≤ 'Z') (satisfy (· = '_')))

def nameChar : Recognizer Char := orElse letter (orElse number (satisfy (· = '-')))

def name : Reader Char Text := consumed (andThen letter fun t => some (many nameChar t))

def cmdChar : Recognizer Char :=
  andThen (notAhead (orElse nl (satisfy (· = '#')))) (satisfy (· ≠ '\x00'))

def cmdStr : Reader Char Text := consumed fun t => some (many cmdChar t)

def lineEnd : Recognizer Char := fun t => nl (blanks t)

def puppet : Reader Char PuppetCommand := fun t => do
  let (n, t) ← name t
  let t ← satisfy (· = '=') (blanks t)
  let (c, t) ← cmdStr (blanks t)
  let t ← lineEnd t
  return ({ name := n, command := c }, t)

def callee : Recognizer Char :=
  andThen (maybe (satisfy (· = '*'))) fun t => (name t).map Prod.snd

def call : Reader Char Statement := fun t => do
  let (n, t) ← consumed callee t
  let t ← orElse nl eof (blanks t)
  return (.mk n [], t)

section Statements

variable (statements : Reader Char (List Statement))

/-- From the colon of a header line to the `DEDENT` line. -/
def block : Reader Char (List Statement) := fun t => do
  let t ← satisfy (· = ':') t
  let t ← lineEnd t
  let t ← indent t
  let t ← nl t
  let (body, t) ← statements t
  let t ← dedent t
  let t ← nl t
  return (body, t)

def ifStmt : Reader Char Statement := fun t => do
  let t ← word "if".toList t
  let (c, t) ← name (blanks t)
  let (body, t) ← block statements (blanks t)
  return (.mk c body, t)

def statement : Reader Char Statement := fun t => do
  let t ← notAhead (orElse indent dedent) t
  (call (blanks t)).or (ifStmt statements (blanks t))

/-- One round of the repetition: a statement, or a line without one. -/
def item : Action Char (List Statement) :=
  (assign (fun s ss => ss ++ [s]) (statement statements)).orElse (quiet lineEnd)

def items : Reader Char (List Statement) := fun t =>
  (item statements [] t).map fun p => iterate (item statements) p.1 p.2

end Statements

def statements (t : Text) : Option (List Statement × Text) :=
  items (fun t' => if _h : t'.length < t.length then statements t' else none) t
  termination_by t.length

def procs : Reader Char ControlFlow := fun t => do
  let (n, t) ← name t
  let t ← word "while".toList (blanks t)
  let (c, t) ← name (blanks t)
  let (body, t) ← block statements (blanks t)
  return ({ name := n, control := c, commands := body }, t)

def entry : Action Char Script :=
  (assign (fun pc s => s.addPuppet pc) puppet).orElse
    ((assign (fun cf s => s.addProcs cf) procs).orElse (quiet lineEnd))

def script (t : Text) : Script × Text := iterate entry {} t

def literalChar : Recognizer Char :=
  andThen (notAhead (satisfy (· = '$'))) (satisfy (· ≠ '\x00'))

def literal : Reader Char Text := consumed (several literalChar)

def defaultChar : Recognizer Char :=
  andThen (notAhead (satisfy (· = ')'))) (satisfy (· ≠ '\x00'))

def defaultText : Reader Char Text := consumed fun t => some (many defaultChar t)

def defaultValue : Reader Char Text := fun t => do
  let t ← satisfy (· = '(') t
  let (v, t) ← defaultText t
  let t ← satisfy (· = ')') t
  return (v, t)

/-- A variable's name, and its default value if there is one. -/
def reference : Reader Char (Text × Option Text) := fun t => do
  let t ← satisfy (· = '$') t
  let (n, t) ← name t
  match defaultValue t with
  | some (v, t) => return ((n, some v), t)
  | none => return ((n, none), t)

theorem lineEnd_eq_some {t t' : Text} : lineEnd t = some t' ↔ nl (blanks t) = some t' := Iff.rfl

theorem puppet_eq_some {t t' : Text} {pc : PuppetCommand} :
    puppet t = some (pc, t') ↔ ∃ t₁ t₂ t₃, name t = some (pc.name, t₁) ∧ blanks t₁ = '=' :: t₂ ∧
      cmdStr (blanks t₂) = some (pc.command, t₃) ∧ lineEnd t₃ = some t' := by
  simp only [puppet, Option.bind_eq_bind, Option.bind_eq_some_iff, Prod.exists, satisfy_eq_iff,
    Option.pure_def, Option.some.injEq, Prod.mk.injEq]
  constructor
  · rintro ⟨n, t₁, hName, t₂, hEq, c, t₃, hCmd, t₄, hLine, rfl, rfl⟩
    exact ⟨t₁, t₂, t₃, hName, hEq, hCmd, hLine⟩
  · rintro ⟨t₁, t₂, t₃, hName, hEq, hCmd, hLine⟩
    exact ⟨_, t₁, hName, t₂, hEq, _, t₃, hCmd, t', hLine, rfl, rfl⟩

theorem callee_eq (t : Text) :
    callee t = (name ((satisfy (· = '*') t).getD t)).map Prod.snd := rfl

theorem call_eq_some {t t' : Text} {s : Statement} :
    call t = some (s, t') ↔ ∃ n t₁, s = .mk n [] ∧ consumed callee t = some (n, t₁) ∧
      orElse nl eof (blanks t₁) = some t' := by
  simp only [call, Option.bind_eq_bind, Option.bind_eq_some_iff, Prod.exists, Option.pure_def,
    Option.some.injEq, Prod.mk.injEq]
  constructor
  · rintro ⟨n, t₁, hName, t₂, hEnd, rfl, rfl⟩
    exact ⟨n, t₁, rfl, hName, hEnd⟩
  · rintro ⟨n, t₁, rfl, hName, hEnd⟩
    exact ⟨n, t₁, hName, t', hEnd, rfl, rfl⟩

section Statements

variable {r r' : Reader Char (List Statement)}

theorem block_eq_some {t t' : Text} {body : List Statement} :
    block r t = some (body, t') ↔ ∃ t₁ t₂ t₃ t₄ t₅ t₆, t = ':' :: t₁ ∧ lineEnd t₁ = some t₂ ∧
      indent t₂ = some t₃ ∧ nl t₃ = some t₄ ∧ r t₄ = some (body, t₅) ∧ dedent t₅ = some t₆ ∧
      nl t₆ = some t' := by
  simp only [block, Option.bind_eq_bind, Option.bind_eq_some_iff, Prod.exists, satisfy_eq_iff,
    Option.pure_def, Option.some.injEq, Prod.mk.injEq]
  constructor
  · rintro ⟨t₁, hColon, t₂, hLine, t₃, hIndent, t₄, hNl, ss, t₅, hr, t₆, hDedent, t₇, hNl', rfl, rfl⟩
    exact ⟨t₁, t₂, t₃, t₄, t₅, t₆, hColon, hLine, hIndent, hNl, hr, hDedent, hNl'⟩
  · rintro ⟨t₁, t₂, t₃, t₄, t₅, t₆, hColon, hLine, hIndent, hNl, hr, hDedent, hNl'⟩
    exact ⟨t₁, hColon, t₂, hLine, t₃, hIndent, t₄, hNl, _, t₅, hr, t₆, hDedent, t', hNl', rfl, rfl⟩

theorem ifStmt_eq_some {t t' : Text} {s : Statement} :
    ifStmt r t = some (s, t') ↔ ∃ c body t₁ t₂, s = .mk c body ∧ word "if".toList t = some t₁ ∧
      name (blanks t₁) = some (c, t₂) ∧ block r (blanks t₂) = some (body, t') := by
  simp only [ifStmt, Option.bind_eq_bind, Option.bind_eq_some_iff, Prod.exists, Option.pure_def,
    Option.some.injEq, Prod.mk.injEq]
  constructor
  · rintro ⟨t₁, hIf, c, t₂, hName, body, t₃, hBlock, rfl, rfl⟩
    exact ⟨c, body, t₁, t₂, rfl, hIf, hName, hBlock⟩
  · rintro ⟨c, body, t₁, t₂, rfl, hIf, hName, hBlock⟩
    exact ⟨t₁, hIf, c, t₂, hName, body, t', hBlock, rfl, rfl⟩

theorem statement_eq_some {t t' : Text} {s : Statement} :
    statement r t = some (s, t') ↔ orElse indent dedent t = none ∧
      (call (blanks t) = some (s, t') ∨
        call (blanks t) = none ∧ ifStmt r (blanks t) = some (s, t')) := by
  simp only [statement, Option.bind_eq_bind, Option.bind_eq_some_iff, notAhead_eq_some,
    Option.or_eq_some_iff]
  constructor
  · rintro ⟨u, ⟨hAhead, rfl⟩, h⟩
    exact ⟨hAhead, h⟩
  · rintro ⟨hAhead, h⟩
    exact ⟨t, ⟨hAhead, rfl⟩, h⟩

theorem item_eq_some {ss ss' : List Statement} {t t' : Text} :
    item r ss t = some (ss', t') ↔
      (∃ s, ss' = ss ++ [s] ∧ statement r t = some (s, t')) ∨
        ss' = ss ∧ statement r t = none ∧ lineEnd t = some t' := by
  simp only [item, Action.orElse, Option.or_eq_some_iff, assign, quiet, Option.map_eq_some_iff,
    Option.map_eq_none_iff, Prod.exists, Prod.mk.injEq]
  constructor
  · rintro (⟨s, u, hStatement, rfl, rfl⟩ | ⟨hNone, u, hLine, rfl, rfl⟩)
    · exact Or.inl ⟨s, rfl, hStatement⟩
    · exact Or.inr ⟨rfl, hNone, hLine⟩
  · rintro (⟨s, rfl, hStatement⟩ | ⟨rfl, hNone, hLine⟩)
    · exact Or.inl ⟨s, t', hStatement, rfl, rfl⟩
    · exact Or.inr ⟨hNone, t', hLine, rfl, rfl⟩

theorem items_eq_some {ss : List Statement} {t t' : Text} :
    items r t = some (ss, t') ↔
      ∃ ss₁ t₁, item r [] t = some (ss₁, t₁) ∧ iterate (item r) ss₁ t₁ = (ss, t') := by
  simp only [items, Option.map_eq_some_iff, Prod.exists]

end Statements

theorem procs_eq_some {t t' : Text} {cf : ControlFlow} :
    procs t = some (cf, t') ↔ ∃ t₁ t₂ t₃, name t = some (cf.name, t₁) ∧
      word "while".toList (blanks t₁) = some t₂ ∧ name (blanks t₂) = some (cf.control, t₃) ∧
      block statements (blanks t₃) = some (cf.commands, t') := by
  simp only [procs, Option.bind_eq_bind, Option.bind_eq_some_iff, Prod.exists, Option.pure_def,
    Option.some.injEq, Prod.mk.injEq]
  constructor
  · rintro ⟨n, t₁, hName, t₂, hWhile, c, t₃, hControl, body, t₄, hBlock, rfl, rfl⟩
    exact ⟨t₁, t₂, t₃, hName, hWhile, hControl, hBlock⟩
  · rintro ⟨t₁, t₂, t₃, hName, hWhile, hControl, hBlock⟩
    exact ⟨_, t₁, hName, t₂, hWhile, _, t₃, hControl, _, t', hBlock, rfl, rfl⟩

theorem shrinks_nl : Shrinks nl :=
  (shrinks_word (by decide)).orElse ((shrinks_satisfy _).orElse (shrinks_satisfy _))

theorem shrinks_space : Shrinks space := (shrinks_satisfy _).orElse (shrinks_satisfy _)

theorem shrinks_commentChar : Shrinks commentChar := (shrinks_satisfy _).after_notAhead

theorem shrinks_comment : Shrinks comment :=
  (shrinks_satisfy _).andThen fun t _ h => Option.some.inj h ▸ length_many_le commentChar t

theorem shrinks_letter : Shrinks letter :=
  (shrinks_satisfy _).orElse ((shrinks_satisfy _).orElse (shrinks_satisfy _))

theorem shrinks_nameChar : Shrinks nameChar :=
  shrinks_letter.orElse ((shrinks_satisfy _).orElse (shrinks_satisfy _))

theorem shrinks_cmdChar : Shrinks cmdChar := (shrinks_satisfy _).after_notAhead

theorem length_blanks_le (t : Text) : (blanks t).length ≤ t.length := length_many_le _ t

theorem shrinks_lineEnd : Shrinks lineEnd := fun t t' h =>
  Nat.lt_of_lt_of_le (shrinks_nl _ t' h) (length_blanks_le t)

theorem length_name_lt {t t' n : Text} (h : name t = some (n, t')) : t'.length < t.length := by
  obtain ⟨u, hLetter, hMany⟩ := Option.bind_eq_some_iff.mp (consumed_eq_some.mp h).1
  have hLe := length_many_le nameChar u
  rw [Option.some.inj hMany] at hLe
  exact Nat.lt_of_le_of_lt hLe (shrinks_letter t u hLetter)

theorem length_puppet_lt {t t' : Text} {pc : PuppetCommand} (h : puppet t = some (pc, t')) :
    t'.length < t.length := by
  obtain ⟨t₁, t₂, t₃, hName, hEq, hCmd, hLine⟩ := puppet_eq_some.mp h
  have h₁ := length_name_lt hName
  have h₂ := length_blanks_le t₁
  have h₃ := length_blanks_le t₂
  have h₄ := length_many_le cmdChar (blanks t₂)
  rw [Option.some.inj (consumed_eq_some.mp hCmd).1] at h₄
  have h₅ := shrinks_lineEnd t₃ t' hLine
  rw [hEq, List.length_cons] at h₂
  omega

theorem length_call_lt {t t' : Text} {s : Statement} (h : call t = some (s, t')) :
    t'.length < t.length := by
  obtain ⟨n, t₁, rfl, hCallee, hEnd⟩ := call_eq_some.mp h
  have hRead := (consumed_eq_some.mp hCallee).1
  rw [callee_eq] at hRead
  obtain ⟨⟨w, v⟩, hName, rfl⟩ := Option.map_eq_some_iff.mp hRead
  have hStarred : ((satisfy (· = '*') t).getD t).length ≤ t.length := by
    cases hFirst : satisfy (· = '*') t with
    | none => exact Nat.le_refl _
    | some v => exact Nat.le_of_lt (shrinks_satisfy _ t v hFirst)
  have hNameLt := length_name_lt hName
  have hBlanks := length_blanks_le v
  have hLast : t'.length ≤ (blanks v).length := by
    rcases Option.or_eq_some_iff.mp hEnd with hNl | ⟨-, hEof⟩
    · exact Nat.le_of_lt (shrinks_nl _ _ hNl)
    · exact Nat.le_of_eq (congrArg List.length (notAhead_eq_some.mp hEof).2)
  omega

section Statements

variable {r r' : Reader Char (List Statement)}

theorem length_block_lt (hr : ∀ t ss t', r t = some (ss, t') → t'.length ≤ t.length) {t t' : Text}
    {body : List Statement} (h : block r t = some (body, t')) : t'.length < t.length := by
  obtain ⟨t₁, t₂, t₃, t₄, t₅, t₆, rfl, hLine, hIndent, hNl, hBody, hDedent, hNl'⟩ :=
    block_eq_some.mp h
  have h₁ := shrinks_lineEnd _ _ hLine
  have h₂ := shrinks_word (by decide) _ _ hIndent
  have h₃ := shrinks_nl _ _ hNl
  have h₄ := hr _ _ _ hBody
  have h₅ := shrinks_word (by decide) _ _ hDedent
  have h₆ := shrinks_nl _ _ hNl'
  rw [List.length_cons]
  omega

theorem length_ifStmt_lt (hr : ∀ t ss t', r t = some (ss, t') → t'.length ≤ t.length)
    {t t' : Text} {s : Statement} (h : ifStmt r t = some (s, t')) : t'.length < t.length := by
  obtain ⟨c, body, t₁, t₂, rfl, hIf, hName, hBlock⟩ := ifStmt_eq_some.mp h
  have h₁ := shrinks_word (by decide) _ _ hIf
  have h₂ := length_blanks_le t₁
  have h₃ := length_name_lt hName
  have h₄ := length_blanks_le t₂
  have h₅ := length_block_lt hr hBlock
  omega

theorem length_statement_lt (hr : ∀ t ss t', r t = some (ss, t') → t'.length ≤ t.length)
    {t t' : Text} {s : Statement} (h : statement r t = some (s, t')) : t'.length < t.length := by
  have hBlanks := length_blanks_le t
  rcases (statement_eq_some.mp h).2 with hCall | ⟨-, hIf⟩
  · exact Nat.lt_of_lt_of_le (length_call_lt hCall) hBlanks
  · exact Nat.lt_of_lt_of_le (length_ifStmt_lt hr hIf) hBlanks

theorem shrinks_item (hr : ∀ t ss t', r t = some (ss, t') → t'.length ≤ t.length) :
    (item r).Shrinks := by
  intro ss t ss' t' h
  rcases item_eq_some.mp h with ⟨s, -, hStatement⟩ | ⟨-, -, hLine⟩
  · exact length_statement_lt hr hStatement
  · exact shrinks_lineEnd t t' hLine

theorem length_items_lt (hr : ∀ t ss t', r t = some (ss, t') → t'.length ≤ t.length)
    {t t' : Text} {ss : List Statement} (h : items r t = some (ss, t')) :
    t'.length < t.length := by
  obtain ⟨ss₁, t₁, hItem, hIterate⟩ := items_eq_some.mp h
  have hFirst := shrinks_item hr _ _ _ _ hItem
  have hRest := length_iterate_le (item r) ss₁ t₁
  rw [hIterate] at hRest
  exact Nat.lt_of_le_of_lt hRest hFirst

theorem block_congr {t : Text} (h : ∀ t', t'.length < t.length → r t' = r' t') :
    block r t = block r' t := by
  refine Option.ext fun p => ?_
  obtain ⟨body, t'⟩ := p
  rw [block_eq_some, block_eq_some]
  constructor
  all_goals
    rintro ⟨t₁, t₂, t₃, t₄, t₅, t₆, rfl, hLine, hIndent, hNl, hBody, hRest⟩
    refine ⟨t₁, t₂, t₃, t₄, t₅, t₆, rfl, hLine, hIndent, hNl, ?_, hRest⟩
    have h₁ := shrinks_lineEnd _ _ hLine
    have h₂ := shrinks_word (by decide) _ _ hIndent
    have h₃ := shrinks_nl _ _ hNl
    have hSame := h t₄ (by rw [List.length_cons]; omega)
  · rw [← hSame, hBody]
  · rw [hSame, hBody]

theorem ifStmt_congr {t : Text} (h : ∀ t', t'.length < t.length → r t' = r' t') :
    ifStmt r t = ifStmt r' t := by
  refine Option.ext fun p => ?_
  obtain ⟨s, t'⟩ := p
  rw [ifStmt_eq_some, ifStmt_eq_some]
  constructor
  all_goals
    rintro ⟨c, body, t₁, t₂, rfl, hIf, hName, hBlock⟩
    refine ⟨c, body, t₁, t₂, rfl, hIf, hName, ?_⟩
    have h₁ := shrinks_word (by decide) _ _ hIf
    have h₂ := length_blanks_le t₁
    have h₃ := length_name_lt hName
    have h₄ := length_blanks_le t₂
    have hSame : block r (blanks t₂) = block r' (blanks t₂) :=
      block_congr fun u hu => h u (by omega)
  · rw [← hSame, hBlock]
  · rw [hSame, hBlock]

theorem item_congr {t : Text} (h : ∀ t', t'.length < t.length → r t' = r' t')
    (ss : List Statement) : item r ss t = item r' ss t := by
  have hStatement : statement r t = statement r' t := by
    refine Option.ext fun p => ?_
    obtain ⟨s, t'⟩ := p
    rw [statement_eq_some, statement_eq_some, ifStmt_congr fun u hu =>
      h u (Nat.lt_of_lt_of_le hu (length_blanks_le t))]
  simp only [item, Action.orElse, assign, hStatement]

theorem items_congr {t : Text} (h : ∀ t', t'.length < t.length → r t' = r' t')
    (hr : ∀ t ss t', r' t = some (ss, t') → t'.length ≤ t.length) : items r t = items r' t := by
  rw [items, items, item_congr h]
  cases hItem : item r' [] t with
  | none => rw [Option.map_none, Option.map_none]
  | some p =>
    have hFirst := shrinks_item hr _ _ _ _ hItem
    exact congrArg some (iterate_congr fun ss u hLe =>
      item_congr (fun v hv => h v (by omega)) ss)

end Statements

theorem length_statements_lt {t t' : Text} {ss : List Statement}
    (h : statements t = some (ss, t')) : t'.length < t.length := by
  induction hLength : t.length using Nat.strongRecOn generalizing t ss t' with
  | ind n ih =>
    subst hLength
    rw [statements] at h
    refine length_items_lt (fun u ss' u' hr => ?_) h
    obtain ⟨hShorter, hu⟩ := Option.dite_none_right_eq_some.mp hr
    exact Nat.le_of_lt (ih u.length hShorter hu rfl)

theorem statements_eq (t : Text) : statements t = items statements t := by
  rw [statements]
  exact items_congr (fun t' hShorter => dif_pos hShorter)
    fun u ss u' hu => Nat.le_of_lt (length_statements_lt hu)

theorem shrinks_item_statements : (item statements).Shrinks :=
  shrinks_item fun _ _ _ h => Nat.le_of_lt (length_statements_lt h)

theorem length_procs_lt {t t' : Text} {cf : ControlFlow} (h : procs t = some (cf, t')) :
    t'.length < t.length := by
  obtain ⟨t₁, t₂, t₃, hName, hWhile, hControl, hBlock⟩ := procs_eq_some.mp h
  have h₁ := length_name_lt hName
  have h₂ := length_blanks_le t₁
  have h₃ := shrinks_word (by decide) _ _ hWhile
  have h₄ := length_blanks_le t₂
  have h₅ := length_name_lt hControl
  have h₆ := length_blanks_le t₃
  have h₇ := length_block_lt (fun _ _ _ h => Nat.le_of_lt (length_statements_lt h)) hBlock
  omega

theorem entry_eq_some {s s' : Script} {t t' : Text} :
    entry s t = some (s', t') ↔
      (∃ pc, s' = s.addPuppet pc ∧ puppet t = some (pc, t')) ∨
        (∃ cf, s' = s.addProcs cf ∧ puppet t = none ∧ procs t = some (cf, t')) ∨
          s' = s ∧ puppet t = none ∧ procs t = none ∧ lineEnd t = some t' := by
  simp only [entry, Action.orElse, Option.or_eq_some_iff, assign, quiet, Option.map_eq_some_iff,
    Option.map_eq_none_iff, Prod.exists, Prod.mk.injEq]
  constructor
  · rintro (⟨pc, u, hPuppet, rfl, rfl⟩ | ⟨hPuppet, ⟨cf, u, hProcs, rfl, rfl⟩ |
      ⟨hProcs, u, hLine, rfl, rfl⟩⟩)
    · exact Or.inl ⟨pc, rfl, hPuppet⟩
    · exact Or.inr (Or.inl ⟨cf, rfl, hPuppet, hProcs⟩)
    · exact Or.inr (Or.inr ⟨rfl, hPuppet, hProcs, hLine⟩)
  · rintro (⟨pc, rfl, hPuppet⟩ | ⟨cf, rfl, hPuppet, hProcs⟩ | ⟨rfl, hPuppet, hProcs, hLine⟩)
    · exact Or.inl ⟨pc, t', hPuppet, rfl, rfl⟩
    · exact Or.inr ⟨hPuppet, Or.inl ⟨cf, t', hProcs, rfl, rfl⟩⟩
    · exact Or.inr ⟨hPuppet, Or.inr ⟨hProcs, t', hLine, rfl, rfl⟩⟩

theorem shrinks_entry : entry.Shrinks := by
  intro s t s' t' h
  rcases entry_eq_some.mp h with ⟨pc, -, hPuppet⟩ | ⟨cf, -, -, hProcs⟩ | ⟨-, -, -, hLine⟩
  · exact length_puppet_lt hPuppet
  · exact length_procs_lt hProcs
  · exact shrinks_lineEnd t t' hLine

end Henson.Hwl.Reading
