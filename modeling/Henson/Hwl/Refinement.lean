import Mathlib.Logic.Basic
import Mathlib.Data.List.Basic
import Henson.Library.Peg
import Henson.Parser.Nonterminal
import Henson.Hwl.Grammar
import Henson.Hwl.Reading

/-!
# The HWL parser reads what its grammar says

Every rule of the memoized parser computes its parsing expression, so that a
run of `script` on any text ends, matches, and gives the script and the text
that the parsing expression gives.
-/

namespace Henson.Hwl.Reading

open Peg Henson.Parser

/-- A rule with a value, as the entries of its memoization id. -/
def valued {T : Type} [Held Grammar.Value T] (r : Reader Char T) (t : Text) :
    Option (Option Grammar.Value × Text) :=
  (r t).map fun p => (some (Held.hold p.1), p.2)

def silent (r : Recognizer Char) (t : Text) : Option (Option Grammar.Value × Text) :=
  (r t).map fun t' => (none, t')

def meaning : Meaning Grammar.Value
  | 1 => valued fun t => some (script t)
  | 2 => valued puppet
  | 3 => valued cmdStr
  | 4 => silent fun t => some (many cmdChar t)
  | 5 => valued procs
  | 6 => valued statements
  | 7 => valued (statement statements)
  | 8 => valued call
  | 9 => valued (ifStmt statements)
  | 11 => silent fun t => some (many literalChar t)
  | 12 => silent fun t => (reference t).map Prod.snd
  | 13 => silent fun t => some (many defaultChar t)
  | 14 => valued name
  | 15 => silent fun t => some (many nameChar t)
  | 16 => silent letter
  | 17 => silent number
  | 18 => silent comment
  | 19 => silent fun t => some (many commentChar t)
  | 20 => silent fun t => some (blanks t)
  | 21 => silent fun t => some (blanks t)
  | 22 => silent space
  | 23 => silent nl
  | 24 => silent eof
  | 25 => silent indent
  | 26 => silent dedent
  | _ => fun _ => none

section Characters

variable {Locals : Type}

theorem recognizes_nl : Recognizes meaning (Grammar.nl : Combinator _ Locals) nl :=
  ((Recognizes.literalString _).choice_cons ((Recognizes.literal (by decide)).choice_cons
    (Recognizes.literal (by decide)).choice_one)).memoize fun _ => rfl

theorem recognizes_eof : Recognizes meaning (Grammar.eof : Combinator _ Locals) eof :=
  Recognizes.any.lookNot.memoize fun _ => rfl

theorem recognizes_indent : Recognizes meaning (Grammar.indent : Combinator _ Locals) indent :=
  (Recognizes.literalString _).memoize fun _ => rfl

theorem recognizes_dedent : Recognizes meaning (Grammar.dedent : Combinator _ Locals) dedent :=
  (Recognizes.literalString _).memoize fun _ => rfl

theorem recognizes_space : Recognizes meaning (Grammar.space : Combinator _ Locals) space :=
  ((Recognizes.literal (by decide)).choice_cons
    (Recognizes.literal (by decide)).choice_one).memoize fun _ => rfl

theorem recognizes_comment : Recognizes meaning (Grammar.comment : Combinator _ Locals) comment :=
  ((Recognizes.literal (by decide)).sequence_cons
    ((recognizes_nl.lookNot.sequence_cons Recognizes.any.sequence_one).memoizeMany
      shrinks_commentChar fun _ => rfl).sequence_one).memoize fun _ => rfl

theorem recognizes_blanks :
    Recognizes meaning (Grammar.blanks : Combinator _ Locals) fun t => some (blanks t) :=
  ((recognizes_space.choice_cons recognizes_comment.choice_one).memoizeMany
    (shrinks_space.orElse shrinks_comment) fun _ => rfl).memoize fun _ => rfl

theorem recognizes_lineEnd :
    Recognizes meaning (Combinator.sequence [Grammar.blanks, Grammar.nl] : Combinator _ Locals)
      lineEnd :=
  recognizes_blanks.sequence_cons recognizes_nl.sequence_one

theorem recognizes_number : Recognizes meaning (Grammar.number : Combinator _ Locals) number :=
  (Recognizes.between (by decide)).memoize fun _ => rfl

theorem recognizes_letter : Recognizes meaning (Grammar.letter : Combinator _ Locals) letter :=
  ((Recognizes.between (by decide)).choice_cons ((Recognizes.between (by decide)).choice_cons
    (Recognizes.literal (by decide)).choice_one)).memoize fun _ => rfl

end Characters

theorem reads_name (n : Nat) : Reads meaning n (fun _ => True) Grammar.name name :=
  reads_memoizeValue_psVal
    (Implements.capture (recognizes_letter.sequence_cons
      (((recognizes_letter.choice_cons (recognizes_number.choice_cons
        (Recognizes.literal (by decide)).choice_one)).memoizeMany
          shrinks_nameChar fun _ => rfl).sequence_one)))
    (fun _ _ _ => Option.map_id') fun _ => rfl

theorem reads_cmdStr (n : Nat) : Reads meaning n (fun _ => True) Grammar.cmdStr cmdStr :=
  reads_memoizeValue_psVal
    (Implements.capture (((recognizes_nl.choice_cons
      (Recognizes.literal (by decide)).choice_one).lookNot.sequence_cons
        Recognizes.any.sequence_one).memoizeMany shrinks_cmdChar fun _ => rfl))
    (fun _ _ _ => Option.map_id') fun _ => rfl

theorem reads_puppet (n : Nat) : Reads meaning n (fun _ => True) Grammar.puppet puppet := by
  have hAction (u) : Implements meaning n (fun _ => True) Grammar.PuppetLocals.refPsVal.get
      (Combinator.action u) (update u) := .action u
  refine reads_memoizeValue
    (.assign_cons (Implements.bind (reads_name n) fun _ h => h) (fun _ _ h => h) (fun _ _ => rfl) <|
      .quiet_cons recognizes_blanks <|
      .quiet_cons (Recognizes.literal (by decide)) <|
      .quiet_cons recognizes_blanks <|
      .assign_cons (Implements.bind (reads_cmdStr n) fun _ h => h) (fun _ _ h => h)
        (fun _ _ => rfl) <|
      .quiet_cons recognizes_blanks <|
      .quiet_cons recognizes_nl <|
      .sequence_one (hAction _))
    (fun _ h => h) (fun _ => rfl) (fun v t _ => ?_) fun _ => rfl
  simp only [Action.andThen, assign, quiet, update, puppet, lineEnd, Option.bind_map,
    Function.comp_def, Option.map_bind, Option.map_some, Option.bind_some]
  rfl

theorem reads_call (n : Nat) : Reads meaning n (fun _ => True) Grammar.call call := by
  have hAction (u) : Implements meaning n (fun _ => True) Grammar.CallLocals.refPsVal.get
      (Combinator.action u) (update u) := .action u
  refine reads_memoizeValue
    (.assign_cons (Implements.capture ((Recognizes.literal (by decide)).option.sequence_cons
        (Reads.unbind reads_name trivial).sequence_one)) (fun _ _ h => h) (fun _ _ => rfl) <|
      .quiet_cons recognizes_blanks <|
      .quiet_cons (recognizes_nl.choice_cons recognizes_eof.choice_one) <|
      .sequence_one (hAction _))
    (fun _ h => h) (fun _ => rfl) (fun v t _ => ?_) fun _ => rfl
  simp only [Action.andThen, assign, quiet, update, call, callee, Option.bind_map,
    Function.comp_def, Option.map_bind, Option.map_some, Option.bind_some]
  rfl

section Statements

variable {n : Nat} {stmts : Combinator Grammar.Value (List Statement)}

theorem reads_ifStmt (h : Reads meaning n (fun ss => ss = []) stmts statements) :
    Reads meaning (n + 1) (fun _ => True) (Grammar.ifStmt stmts) (ifStmt statements) := by
  have hName : Implements meaning n (fun l => l.body = []) (fun l => l)
      (Combinator.bind Grammar.IfLocals.refC Grammar.name)
      (assign Grammar.IfLocals.refC.set name) := .bind (reads_name n) fun _ _ => trivial
  have hAction (u) : Implements meaning n (fun _ => True) Grammar.IfLocals.refPsVal.get
      (Combinator.action u) (update u) := .action u
  refine reads_memoizeValue
    (.quiet_cons_of_shrinks (Recognizes.literalString _) (shrinks_word (by decide)) <|
      .quiet_cons recognizes_blanks <|
      .assign_cons hName (fun _ _ h => h) (fun _ _ => rfl) <|
      .quiet_cons recognizes_blanks <|
      .quiet_cons (Recognizes.literal (by decide)) <|
      .quiet_cons recognizes_blanks <|
      .quiet_cons recognizes_nl <|
      .quiet_cons recognizes_indent <|
      .quiet_cons recognizes_nl <|
      .assign_cons (Implements.bind h fun _ h => h) (fun _ _ _ => trivial) (fun _ _ => rfl) <|
      .quiet_cons recognizes_dedent <|
      .quiet_cons recognizes_nl <|
      .sequence_one (hAction _))
    (fun _ _ => rfl) (fun _ => rfl) (fun v t _ => ?_) fun _ => rfl
  simp only [Action.andThen, assign, quiet, update, ifStmt, block, lineEnd, Option.bind_map,
    Function.comp_def, Option.map_bind, Option.map_some, Option.bind_some, Option.bind_eq_bind,
    Option.bind_assoc, Option.pure_def]
  rfl

theorem reads_statement (h : Reads meaning n (fun ss => ss = []) stmts statements) :
    Reads meaning (n + 1) (fun _ => True) (Grammar.statement stmts) (statement statements) := by
  refine reads_memoizeValue_psVal
    (.quiet_cons (recognizes_indent.choice_cons recognizes_dedent.choice_one).lookNot <|
      .quiet_cons recognizes_blanks <|
      .sequence_one (.choice_cons (Implements.bind (reads_call _) fun _ h => h)
        (Implements.bind (reads_ifStmt h) fun _ h => h).choice_one))
    (fun v t _ => ?_) fun _ => rfl
  have hSame (p : Option (Statement × Text)) : p.map (fun p => (p.1, p.2)) = p := Option.map_id'
  simp only [Action.andThen, assign, quiet, statement, Action.orElse, Option.bind_map,
    Function.comp_def, Option.bind_some, Var.psVal, hSame]
  rfl

end Statements

/-- A depth of more than the number of characters that are left is enough. -/
theorem reads_statements (n : Nat) :
    Reads meaning n (fun ss => ss = []) (Grammar.statements n) statements := by
  induction n with
  | zero => exact ⟨fun _ s _ _ _ _ hn => absurd hn (Nat.not_lt_zero _),
      fun _ s _ _ hn => absurd hn (Nat.not_lt_zero _)⟩
  | succ n ih =>
    let round : Action Char Grammar.StatementsLocals :=
      (Action.andThen (assign Grammar.StatementsLocals.refS.set (statement statements))
        (update fun l => { l with psVal := l.psVal ++ [l.s] })).orElse (quiet lineEnd)
    have hRound (l t) : (round l t).map (fun p => (p.1.psVal, p.2)) =
        item statements l.psVal t := by
      simp only [round, item, Action.orElse, Action.andThen, assign, quiet, update]
      cases statement statements t <;> cases lineEnd t <;> rfl
    have hShrinks : round.Shrinks :=
      shrinks_item_statements.of_map Grammar.StatementsLocals.psVal hRound
    have hBody : Implements meaning (n + 1) (fun _ => True) (fun l => l) _ round :=
      .choice_cons (.sequence_action (.bind (reads_statement ih) fun _ h => h) _)
        recognizes_lineEnd.implements.choice_one
    refine reads_memoizeValue (hBody.some hShrinks).of_keep_all (fun _ _ => trivial)
      (fun _ => rfl) (fun v t hv => ?_) fun _ => rfl
    subst hv
    rw [statements_eq, items, ← hRound { psVal := [] }]
    cases round { psVal := [] } t with
    | none => rfl
    | some p =>
      exact congrArg some
        (iterate_map hShrinks Grammar.StatementsLocals.psVal hRound p.1 p.2).symm

theorem reads_procs (n : Nat) : Reads meaning n (fun _ => True) (Grammar.procs n) procs := by
  have hName (x : Var Grammar.ProcsLocals Text) : Implements meaning n (fun l => l.body = [])
      (fun l => l) (Combinator.bind x Grammar.name) (assign x.set name) :=
    .bind (reads_name n) fun _ _ => trivial
  have hAction (u) : Implements meaning n (fun _ => True) Grammar.ProcsLocals.refPsVal.get
      (Combinator.action u) (update u) := .action u
  refine reads_memoizeValue
    (.assign_cons (hName _) (fun _ _ h => h) (fun _ _ => rfl) <|
      .quiet_cons recognizes_blanks <|
      .quiet_cons (Recognizes.literalString _) <|
      .quiet_cons recognizes_blanks <|
      .assign_cons (hName _) (fun _ _ h => h) (fun _ _ => rfl) <|
      .quiet_cons recognizes_blanks <|
      .quiet_cons (Recognizes.literal (by decide)) <|
      .quiet_cons recognizes_blanks <|
      .quiet_cons recognizes_nl <|
      .quiet_cons recognizes_indent <|
      .quiet_cons recognizes_nl <|
      .assign_cons (Implements.bind (reads_statements n) fun _ h => h) (fun _ _ _ => trivial)
        (fun _ _ => rfl) <|
      .quiet_cons recognizes_dedent <|
      .quiet_cons recognizes_nl <|
      .sequence_one (hAction _))
    (fun _ _ => rfl) (fun _ => rfl) (fun v t _ => ?_) fun _ => rfl
  simp only [Action.andThen, assign, quiet, update, procs, block, lineEnd, Option.bind_map,
    Function.comp_def, Option.map_bind, Option.map_some, Option.bind_some, Option.bind_eq_bind,
    Option.bind_assoc, Option.pure_def]
  rfl

theorem reads_script (n : Nat) :
    Reads meaning n (fun s => s = {}) (Grammar.script n) fun t => some (script t) := by
  let round : Action Char Grammar.ScriptLocals :=
    (Action.andThen (assign Grammar.ScriptLocals.refX.set puppet)
      (update fun l => { l with psVal := l.psVal.addPuppet l.x })).orElse
    ((Action.andThen (assign Grammar.ScriptLocals.refP.set procs)
      (update fun l => { l with psVal := l.psVal.addProcs l.p })).orElse (quiet lineEnd))
  have hRound (l t) : (round l t).map (fun p => (p.1.psVal, p.2)) = entry l.psVal t := by
    simp only [round, entry, Action.orElse, Action.andThen, assign, quiet, update]
    cases puppet t <;> cases procs t <;> cases lineEnd t <;> rfl
  have hShrinks : round.Shrinks := shrinks_entry.of_map Grammar.ScriptLocals.psVal hRound
  have hBody : Implements meaning n (fun _ => True) (fun l => l) _ round :=
    .choice_cons (.sequence_action (.bind (reads_puppet n) fun _ h => h) _)
      (.choice_cons (.sequence_action (.bind (reads_procs n) fun _ h => h) _)
        recognizes_lineEnd.implements.choice_one)
  refine reads_memoizeValue (hBody.many hShrinks) (fun _ _ => trivial)
    (fun _ => rfl) (fun v t hv => ?_) fun _ => rfl
  subst hv
  exact congrArg some
    (iterate_map hShrinks Grammar.ScriptLocals.psVal hRound { psVal := {} } t).symm

end Henson.Hwl.Reading

namespace Henson.Hwl

open Henson.Parser

/-- A run of `script` on any text ends and matches. It gives the script that the parsing
expression gives, and stops where that does. -/
theorem runScript_eq (tokens : Text) :
    ∃ s, runScript tokens = some (true, (Reading.script tokens).1, s) ∧ s.text = tokens ∧
      s.pos + (Reading.script tokens).2.length = tokens.length := by
  obtain ⟨s, hRun, hLeads⟩ := (Reading.reads_script (tokens.length + 1)).success {}
    { text := tokens } (Reading.script tokens).1 (Reading.script tokens).2 rfl
    (sound_initial tokens) (Nat.lt_succ_self _) rfl
  have hEnd := hLeads.sound.pos_le
  have hLength := congrArg List.length hLeads.rest_eq
  rw [length_rest, hLeads.text_eq] at hLength
  rw [hLeads.text_eq] at hEnd
  dsimp only at hLength hEnd
  exact ⟨s, hRun, hLeads.text_eq, by omega⟩

end Henson.Hwl
