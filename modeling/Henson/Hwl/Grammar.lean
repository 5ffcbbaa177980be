import Mathlib.Logic.Basic
import Mathlib.Data.List.Basic
import Henson.Hwl.Syntax
import Henson.Hwl.Indent
import Henson.Parser.Combinators

/-!
# The rules of the HWL parser

Each rule is the combinator that the parser generator wrote for it, with its
memoization ids and its local variables. The rules for statements call each
other, at most to the depth that is given. Commands and their variables are
parsed by a run of their own.
-/

namespace Henson.Hwl.Grammar

open Henson.Parser Henson.Parser.Combinator

inductive Value where
  | text (v : Text)
  | puppet (v : PuppetCommand)
  | controlFlow (v : ControlFlow)
  | statement (v : Statement)
  | statements (v : List Statement)
  | script (v : Script)
  | var (v : Variable)
  | command (v : Command)

instance : Held Value Text where
  hold := .text
  held
    | .text v => some v
    | _ => none
  held_hold _ := rfl

instance : Held Value PuppetCommand where
  hold := .puppet
  held
    | .puppet v => some v
    | _ => none
  held_hold _ := rfl

instance : Held Value ControlFlow where
  hold := .controlFlow
  held
    | .controlFlow v => some v
    | _ => none
  held_hold _ := rfl

instance : Held Value Statement where
  hold := .statement
  held
    | .statement v => some v
    | _ => none
  held_hold _ := rfl

instance : Held Value (List Statement) where
  hold := .statements
  held
    | .statements v => some v
    | _ => none
  held_hold _ := rfl

instance : Held Value Script where
  hold := .script
  held
    | .script v => some v
    | _ => none
  held_hold _ := rfl

instance : Held Value Variable where
  hold := .var
  held
    | .var v => some v
    | _ => none
  held_hold _ := rfl

instance : Held Value Command where
  hold := .command
  held
    | .command v => some v
    | _ => none
  held_hold _ := rfl

section Characters

variable {Locals : Type}

def nl : Combinator Value Locals :=
  memoize 23 (choice [literalString "\n\r".toList, literal '\n', literal '\r'])

def eof : Combinator Value Locals := memoize 24 (lookNot any)

def indent : Combinator Value Locals := memoize 25 (literalString "INDENT".toList)

def dedent : Combinator Value Locals := memoize 26 (literalString "DEDENT".toList)

def space : Combinator Value Locals := memoize 22 (choice [literal ' ', literal '\t'])

def comment : Combinator Value Locals :=
  memoize 18 (sequence [literal '#', memoizeMany 19 (sequence [lookNot nl, any])])

def blanks : Combinator Value Locals := memoize 20 (memoizeMany 21 (choice [space, comment]))

def number : Combinator Value Locals := memoize 17 (between '0' '9')

def letter : Combinator Value Locals :=
  memoize 16 (choice [between 'a' 'z', between 'A' 'Z', literal '_'])

end Characters

def name : Combinator Value Text :=
  memoizeValue 14 Var.psVal (capture Var.psVal
    (sequence [letter, memoizeMany 15 (choice [letter, number, literal '-'])]))

def cmdStr : Combinator Value Text :=
  memoizeValue 3 Var.psVal (capture Var.psVal
    (memoizeMany 4 (sequence [lookNot (choice [nl, literal '#']), any])))

structure PuppetLocals where
  psVal : PuppetCommand := {}
  c : Text := []
  n : Text := []

namespace PuppetLocals

def refPsVal : Var PuppetLocals PuppetCommand :=
  ⟨psVal, fun v l => { l with psVal := v }, fun _ _ => rfl, fun _ => rfl⟩

def refC : Var PuppetLocals Text := ⟨c, fun v l => { l with c := v }, fun _ _ => rfl, fun _ => rfl⟩

def refN : Var PuppetLocals Text := ⟨n, fun v l => { l with n := v }, fun _ _ => rfl, fun _ => rfl⟩

end PuppetLocals

def puppet : Combinator Value PuppetCommand :=
  withLocals (fun psVal => { psVal := psVal }) PuppetLocals.refPsVal
    (memoizeValue 2 PuppetLocals.refPsVal (sequence [
      Combinator.bind PuppetLocals.refN name,
      blanks,
      literal '=',
      blanks,
      Combinator.bind PuppetLocals.refC cmdStr,
      blanks,
      nl,
      action fun l => { l with psVal := { name := l.n, command := l.c } }]))

structure CallLocals where
  psVal : Statement := default
  n : Text := []

namespace CallLocals

def refPsVal : Var CallLocals Statement :=
  ⟨psVal, fun v l => { l with psVal := v }, fun _ _ => rfl, fun _ => rfl⟩

def refN : Var CallLocals Text := ⟨n, fun v l => { l with n := v }, fun _ _ => rfl, fun _ => rfl⟩

end CallLocals

def call : Combinator Value Statement :=
  withLocals (fun psVal => { psVal := psVal }) CallLocals.refPsVal
    (memoizeValue 8 CallLocals.refPsVal (sequence [
      capture CallLocals.refN (sequence [option (literal '*'), unbind name]),
      blanks,
      choice [nl, eof],
      action fun l => { l with psVal := .mk l.n [] }]))

structure IfLocals where
  psVal : Statement := default
  body : List Statement := []
  c : Text := []

namespace IfLocals

def refPsVal : Var IfLocals Statement :=
  ⟨psVal, fun v l => { l with psVal := v }, fun _ _ => rfl, fun _ => rfl⟩

def refBody : Var IfLocals (List Statement) :=
  ⟨body, fun v l => { l with body := v }, fun _ _ => rfl, fun _ => rfl⟩

def refC : Var IfLocals Text := ⟨c, fun v l => { l with c := v }, fun _ _ => rfl, fun _ => rfl⟩

end IfLocals

def ifStmt (statements : Combinator Value (List Statement)) : Combinator Value Statement :=
  withLocals (fun psVal => { psVal := psVal }) IfLocals.refPsVal
    (memoizeValue 9 IfLocals.refPsVal (sequence [
      literalString "if".toList,
      blanks,
      Combinator.bind IfLocals.refC name,
      blanks,
      literal ':',
      blanks,
      nl,
      indent,
      nl,
      Combinator.bind IfLocals.refBody statements,
      dedent,
      nl,
      action fun l => { l with psVal := .mk l.c l.body }]))

def statement (statements : Combinator Value (List Statement)) : Combinator Value Statement :=
  memoizeValue 7 Var.psVal (sequence [
    lookNot (choice [indent, dedent]),
    blanks,
    choice [Combinator.bind Var.psVal call, Combinator.bind Var.psVal (ifStmt statements)]])

structure StatementsLocals where
  psVal : List Statement := []
  s : Statement := default

namespace StatementsLocals

def refPsVal : Var StatementsLocals (List Statement) :=
  ⟨psVal, fun v l => { l with psVal := v }, fun _ _ => rfl, fun _ => rfl⟩

def refS : Var StatementsLocals Statement :=
  ⟨s, fun v l => { l with s := v }, fun _ _ => rfl, fun _ => rfl⟩

end StatementsLocals

/-- The recursion has no bound in the source: `depth` is one. -/
def statements : Nat → Combinator Value (List Statement)
  | 0 => fun _ _ => none
  | depth + 1 =>
    withLocals (fun psVal => { psVal := psVal }) StatementsLocals.refPsVal
      (memoizeValue 6 StatementsLocals.refPsVal (Combinator.some (choice [
        sequence [
          Combinator.bind StatementsLocals.refS (statement (statements depth)),
          action fun l => { l with psVal := l.psVal ++ [l.s] }],
        sequence [blanks, nl]])))

structure ProcsLocals where
  psVal : ControlFlow := {}
  body : List Statement := []
  c : Text := []
  n : Text := []

namespace ProcsLocals

def refPsVal : Var ProcsLocals ControlFlow :=
  ⟨psVal, fun v l => { l with psVal := v }, fun _ _ => rfl, fun _ => rfl⟩

def refBody : Var ProcsLocals (List Statement) :=
  ⟨body, fun v l => { l with body := v }, fun _ _ => rfl, fun _ => rfl⟩

def refC : Var ProcsLocals Text := ⟨c, fun v l => { l with c := v }, fun _ _ => rfl, fun _ => rfl⟩

def refN : Var ProcsLocals Text := ⟨n, fun v l => { l with n := v }, fun _ _ => rfl, fun _ => rfl⟩

end ProcsLocals

def procs (depth : Nat) : Combinator Value ControlFlow :=
  withLocals (fun psVal => { psVal := psVal }) ProcsLocals.refPsVal
    (memoizeValue 5 ProcsLocals.refPsVal (sequence [
      Combinator.bind ProcsLocals.refN name,
      blanks,
      literalString "while".toList,
      blanks,
      Combinator.bind ProcsLocals.refC name,
      blanks,
      literal ':',
      blanks,
      nl,
      indent,
      nl,
      Combinator.bind ProcsLocals.refBody (statements depth),
      dedent,
      nl,
      action fun l => { l with psVal := { name := l.n, control := l.c, commands := l.body } }]))

structure ScriptLocals where
  psVal : Script := {}
  p : ControlFlow := {}
  x : PuppetCommand := {}

namespace ScriptLocals

def refPsVal : Var ScriptLocals Script :=
  ⟨psVal, fun v l => { l with psVal := v }, fun _ _ => rfl, fun _ => rfl⟩

def refP : Var ScriptLocals ControlFlow :=
  ⟨p, fun v l => { l with p := v }, fun _ _ => rfl, fun _ => rfl⟩

def refX : Var ScriptLocals PuppetCommand :=
  ⟨x, fun v l => { l with x := v }, fun _ _ => rfl, fun _ => rfl⟩

end ScriptLocals

def script (depth : Nat) : Combinator Value Script :=
  withLocals (fun psVal => { psVal := psVal }) ScriptLocals.refPsVal
    (memoizeValue 1 ScriptLocals.refPsVal (many (choice [
      sequence [
        Combinator.bind ScriptLocals.refX puppet,
        action fun l => { l with psVal := l.psVal.addPuppet l.x }],
      sequence [
        Combinator.bind ScriptLocals.refP (procs depth),
        action fun l => { l with psVal := l.psVal.addProcs l.p }],
      sequence [blanks, nl]])))

structure VariableLocals where
  psVal : Variable := {}
  n : Text := []
  v : Text := []

namespace VariableLocals

def refPsVal : Var VariableLocals Variable :=
  ⟨psVal, fun v l => { l with psVal := v }, fun _ _ => rfl, fun _ => rfl⟩

def refN : Var VariableLocals Text :=
  ⟨n, fun v l => { l with n := v }, fun _ _ => rfl, fun _ => rfl⟩

def refV : Var VariableLocals Text :=
  ⟨v, fun v l => { l with v := v }, fun _ _ => rfl, fun _ => rfl⟩

end VariableLocals

def defaultValue : Combinator Value VariableLocals :=
  sequence [
    literal '(',
    capture VariableLocals.refV (memoizeMany 13 (sequence [lookNot (literal ')'), any])),
    literal ')',
    action fun l => { l with psVal := { l.psVal with value := l.v } }]

def commandVariable : Combinator Value Variable :=
  withLocals (fun psVal => { psVal := psVal }) VariableLocals.refPsVal
    (memoizeValue 12 VariableLocals.refPsVal (sequence [
      literal '$',
      Combinator.bind VariableLocals.refN name,
      option defaultValue,
      action fun l => { l with psVal := { l.psVal with name := l.n } }]))

structure CommandLocals where
  psVal : Command := {}
  s : Text := []
  v : Variable := {}

namespace CommandLocals

def refPsVal : Var CommandLocals Command :=
  ⟨psVal, fun v l => { l with psVal := v }, fun _ _ => rfl, fun _ => rfl⟩

def refS : Var CommandLocals Text := ⟨s, fun v l => { l with s := v }, fun _ _ => rfl, fun _ => rfl⟩

def refV : Var CommandLocals Variable :=
  ⟨v, fun v l => { l with v := v }, fun _ _ => rfl, fun _ => rfl⟩

end CommandLocals

def commandRound : Combinator Value CommandLocals :=
  choice [
    sequence [
      capture CommandLocals.refS (memoizeSome 11 (sequence [lookNot (literal '$'), any])),
      action fun l => { l with psVal := l.psVal.addString l.s }],
    sequence [
      Combinator.bind CommandLocals.refV commandVariable,
      action fun l => { l with psVal := l.psVal.addVariable l.v }]]

def command : Combinator Value Command :=
  withLocals (fun psVal => { psVal := psVal }) CommandLocals.refPsVal
    (memoizeValue 10 CommandLocals.refPsVal (Combinator.some commandRound))

end Henson.Hwl.Grammar

namespace Henson.Hwl

def runCommand (text : Text) : Option (Bool × Command × Henson.Parser.State Grammar.Value) :=
  Grammar.command {} { text := text }

/-- What `main` makes of a puppet's command: the command line to launch, or what it reports. -/
def expandCommand (varmap : Std.ExtTreeMap Text Text compare) (command : Text) :
    Option (Except Text Text) := do
  let (result, cmd, _) ← runCommand command
  if !result then return .error ("Couldn't parse command: ".toList ++ command)
  else
    let cmdExpanded ← cmd.generate varmap
    return .ok cmdExpanded

/-- A run of `script` from the start of a token text: whether it matched, the script, and the
state of the parser. -/
def runScript (tokens : Text) : Option (Bool × Script × Henson.Parser.State Grammar.Value) :=
  Grammar.script (tokens.length + 1) {} { text := tokens }

/-- What `main` makes of the text of a script file: the script, or what it reports. -/
def parseScript (scriptFn content : Text) : Option (Except Text Script) := do
  let (result, script, _) ← runScript (indentToTokens content)
  if result then return .ok script
  else return .error ("Couldn't parse script: ".toList ++ scriptFn)

end Henson.Hwl
