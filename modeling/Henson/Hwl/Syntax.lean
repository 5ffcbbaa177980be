import Mathlib.Logic.Basic
import Mathlib.Data.List.Basic

/-!
# HWL scripts

The values that the parser of henson's scripting language builds: named command
lines, and groups of ranks with the calls that each of their ranks cycles
through; and those that the parser of command lines builds. A text is its list
of characters.
-/

namespace Henson.Hwl

abbrev Text := List Char

/-- A call, starred if the puppet is to be revisited, and the statements that run after it if
the puppet's `main` has returned 0. -/
inductive Statement where
  | mk (call : Text) (body : List Statement)

namespace Statement

def call : Statement → Text
  | mk call _ => call

def body : Statement → List Statement
  | mk _ body => body

end Statement

instance : Inhabited Statement := ⟨.mk [] []⟩

structure ControlFlow where
  name : Text := []
  commands : List Statement := []
  control : Text := []

structure PuppetCommand where
  name : Text := []
  command : Text := []
  deriving DecidableEq

structure Variable where
  name : Text := []
  value : Text := []

/-- The strings and variables of a command line, and their order: an index is one of a variable
if it is marked. -/
structure Command where
  strings : List Text := []
  vars : List Variable := []
  indices : List (Nat × Bool) := []

namespace Command

def addString (c : Command) (s : Text) : Command :=
  let strings := c.strings ++ [s]
  { c with strings := strings, indices := c.indices ++ [(strings.length - 1, false)] }

def addVariable (c : Command) (v : Variable) : Command :=
  let vars := c.vars ++ [v]
  { c with vars := vars, indices := c.indices ++ [(vars.length - 1, true)] }

/-- The text for `varmap`; `none` for an index without a string or variable. -/
def generate (c : Command) (varmap : Std.ExtTreeMap Text Text compare) : Option Text :=
  c.indices.foldlM (fun result x => do
    if x.2 then
      let var ← c.vars[x.1]?
      return result ++ (varmap[var.name]?).getD var.value
    else
      let s ← c.strings[x.1]?
      return result ++ s) []

end Command

@[ext]
structure Script where
  puppets : List PuppetCommand := []
  procs : Std.ExtTreeMap Text ControlFlow compare := ∅

namespace Script

def addPuppet (s : Script) (pc : PuppetCommand) : Script := { s with puppets := s.puppets ++ [pc] }

/-- `emplace`: a group whose name is there already is dropped. -/
def addProcs (s : Script) (cf : ControlFlow) : Script :=
  { s with procs := s.procs.insertIfNew cf.name cf }

theorem getElem?_addProcs {s : Script} {cf : ControlFlow} (h : s.procs[cf.name]? = none)
    (n : Text) : (s.addProcs cf).procs[n]? = if cf.name = n then some cf else s.procs[n]? := by
  have hAbsent : cf.name ∉ s.procs := by
    rw [Std.ExtTreeMap.mem_iff_isSome_getElem?, h]
    exact Bool.false_ne_true
  simp [addProcs, Std.ExtTreeMap.getElem?_insertIfNew, hAbsent]

end Script

end Henson.Hwl
