import Mathlib.Logic.Basic
import Mathlib.Data.List.Basic

/-!
# Parser combinators

The state and the combinators of the generated parsers. A combinator is a
function of the parser state and of the local variables that it captures by
reference. It returns whether it matched. It may fail with the state and the
variables changed, and only some combinators put the position back. A loop
whose rounds match nothing never ends: it has no result.
-/

namespace Henson.Parser

variable {Value Locals T : Type}

structure Memo (Value : Type) where
  success : Bool := false
  stop : Nat := 0
  result : Option Value := none

/-- The text, the cursor, and the table by position and memoization id. -/
structure State (Value : Type) where
  text : List Char
  pos : Nat := 0
  memoTable : Nat → Nat → Option (Memo Value) := fun _ _ => none

namespace State

/-- The character at the cursor, or NUL at the end of the text. -/
def current (s : State Value) : Char := s.text.getD s.pos '\x00'

def setPosn (s : State Value) (p : Nat) : State Value := { s with pos := p }

def advance (s : State Value) (n : Nat) : State Value := s.setPosn (min (s.pos + n) s.text.length)

def string (s : State Value) (p n : Nat) : List Char := (s.text.drop p).take n

def memo (s : State Value) (key : Nat) : Option (Memo Value) := s.memoTable s.pos key

def setMemo (s : State Value) (p key : Nat) (m : Memo Value) : State Value :=
  { s with memoTable := fun p' key' => if p' = p ∧ key' = key then some m else s.memoTable p' key' }

end State

/-- A captured variable of type `T` among the local variables. -/
structure Var (Locals T : Type) where
  get : Locals → T
  set : T → Locals → Locals
  get_set : ∀ v l, get (set v l) = v
  set_get : ∀ l, set (get l) l = l

/-- The variable of a nonterminal without further local variables. -/
def Var.psVal : Var T T where
  get v := v
  set v _ := v
  get_set _ _ := rfl
  set_get _ := rfl

/-- The types whose values the dynamically typed `memo::any` can hold. -/
class Held (Value T : Type) where
  hold : T → Value
  held : Value → Option T
  held_hold : ∀ v, held (hold v) = some v

abbrev Combinator (Value Locals : Type) :=
  Locals → State Value → Option (Bool × Locals × State Value)

namespace Combinator

def literal (c : Char) : Combinator Value Locals := fun l s =>
  if s.current = c then some (true, l, s.advance 1) else some (false, l, s)

def literalString (w : List Char) : Combinator Value Locals := fun l s =>
  if s.string s.pos w.length = w then some (true, l, s.advance w.length) else some (false, l, s)

def any : Combinator Value Locals := fun l s =>
  if s.current = '\x00' then some (false, l, s) else some (true, l, s.advance 1)

def between (first last : Char) : Combinator Value Locals := fun l s =>
  if s.current < first ∨ last < s.current then some (false, l, s) else some (true, l, s.advance 1)

def chain : List (Combinator Value Locals) → Combinator Value Locals
  | [] => fun l s => some (true, l, s)
  | f :: fs => fun l s => do
    let (ok, l, s) ← f l s
    if ok then chain fs l s else return (false, l, s)

def sequence (fs : List (Combinator Value Locals)) : Combinator Value Locals := fun l s => do
  let (ok, l, s') ← chain fs l s
  return (ok, l, if ok then s' else s'.setPosn s.pos)

def choice : List (Combinator Value Locals) → Combinator Value Locals
  | [] => fun l s => some (false, l, s)
  | f :: fs => fun l s => do
    let (ok, l, s) ← f l s
    if ok then return (true, l, s) else choice fs l s

/-- `while (f(ps));`, for at most `rounds` rounds. -/
def loop (f : Combinator Value Locals) : Nat → Combinator Value Locals
  | 0 => fun _ _ => none
  | rounds + 1 => fun l s => do
    let (ok, l, s) ← f l s
    if ok then loop f rounds l s else return (true, l, s)

/-- More rounds than the text has characters left are rounds that match nothing. -/
def rounds (s : State Value) : Nat := s.text.length - s.pos + 1

def many (f : Combinator Value Locals) : Combinator Value Locals := fun l s => loop f (rounds s) l s

protected def some (f : Combinator Value Locals) : Combinator Value Locals := fun l s => do
  let (ok, l, s) ← f l s
  if ok then loop f (rounds s) l s else return (false, l, s)

def option (f : Combinator Value Locals) : Combinator Value Locals := fun l s => do
  let (_, l, s) ← f l s
  return (true, l, s)

def lookNot (f : Combinator Value Locals) : Combinator Value Locals := fun l s => do
  let (ok, l, s') ← f l s
  return (!ok, l, if ok then s'.setPosn s.pos else s')

protected def bind (x : Var Locals T) (f : Combinator Value T) : Combinator Value Locals :=
  fun l s => do
    let (ok, v, s) ← f (x.get l) s
    return (ok, x.set v l, s)

def unbind [Inhabited T] (f : Combinator Value T) : Combinator Value Locals := fun l s => do
  let (ok, _, s) ← f default s
  return (ok, l, s)

def memoize (key : Nat) (f : Combinator Value Locals) : Combinator Value Locals := fun l s =>
  match s.memo key with
  | some m => some (m.success, l, if m.success then s.setPosn m.stop else s)
  | none => do
    let (ok, l, s') ← f l s
    return (ok, l, s'.setMemo s.pos key { success := ok, stop := s'.pos })

/-- `memo::any::bind`: a value of another type is not assigned. -/
def bindHeld [Held Value T] (x : Var Locals T) (result : Option Value) (l : Locals) : Locals :=
  match result.bind Held.held with
  | some v => x.set v l
  | none => l

/-- The `memoize` that also binds: the table keeps the value of the variable. -/
def memoizeValue [Held Value T] (key : Nat) (x : Var Locals T) (f : Combinator Value Locals) :
    Combinator Value Locals := fun l s =>
  match s.memo key with
  | some m =>
    if m.success then some (true, bindHeld x m.result l, s.setPosn m.stop)
    else some (false, l, s)
  | none => do
    let (ok, l, s') ← f l s
    return (ok, l, s'.setMemo s.pos key
      { success := ok, stop := s'.pos
        result := if ok then some (Held.hold (x.get l)) else none })

/-- The recursion of a memoized repetition, for at most `rounds` levels. -/
def manyMemoized (key : Nat) (f : Combinator Value Locals) :
    Nat → Locals → State Value → Option (Memo Value × Locals × State Value)
  | 0, _, _ => none
  | rounds + 1, l, s =>
    match s.memo key with
    | some m => some (m, l, if m.stop > s.pos then s.setPosn m.stop else s)
    | none => do
      let (ok, l, s') ← f l s
      let (m, l, s') ← if ok then manyMemoized key f rounds l s' else some ({}, l, s')
      let m := { m with success := true, stop := s'.pos }
      return (m, l, s'.setMemo s.pos key m)

def memoizeMany (key : Nat) (f : Combinator Value Locals) : Combinator Value Locals := fun l s => do
  let (_, l, s) ← manyMemoized key f (rounds s) l s
  return (true, l, s)

def memoizeSome (key : Nat) (f : Combinator Value Locals) : Combinator Value Locals := fun l s => do
  let (_, l, s') ← manyMemoized key f (rounds s) l s
  return (decide (s'.pos > s.pos), l, s')

def capture (x : Var Locals (List Char)) (f : Combinator Value Locals) :
    Combinator Value Locals := fun l s => do
  let (ok, l, s') ← f l s
  return (ok, if ok then x.set (s'.string s.pos (s'.pos - s.pos)) l else l, s')

def action (f : Locals → Locals) : Combinator Value Locals := fun l s => some (true, f l, s)

/-- The body of a nonterminal: its variable `x` starts as the caller's, the others afresh. -/
def withLocals (locals : T → Locals) (x : Var Locals T) (f : Combinator Value Locals) :
    Combinator Value T := fun v s => do
  let (ok, l, s) ← f (locals v) s
  return (ok, x.get l, s)

end Combinator

end Henson.Parser
