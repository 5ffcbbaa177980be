import Mathlib.Data.Finset.Basic
import Henson.Parser.Combinators
import Henson.Library.TransitionSystem

/-!
# The parser state as a reader of a stream

The state reads its stream as late as it can, one character ahead of the cursor, and
keeps what it has read. It counts lines and columns while it advances. A step of a
parser is one call of the state, with the answer that it gets.
-/

namespace Henson.Parser

open TransitionSystem

variable {Value : Type}

/-- `posn`, which compares by its index. -/
@[ext]
structure Posn where
  index : Nat := 0
  line : Nat := 0
  col : Nat := 0
  deriving DecidableEq

structure ParseError where
  pos : Posn := {}
  expected : Finset (List Char) := ∅
  messages : Finset (List Char) := ∅

def ParseError.merge (e o : ParseError) : ParseError :=
  if o.pos.index < e.pos.index then e
  else if e.pos.index < o.pos.index then o
  else { e with expected := e.expected ∪ o.expected, messages := e.messages ∪ o.messages }

/-- `memo`, with the position where a match ends. -/
structure StreamMemo (Value : Type) where
  success : Bool := false
  stop : Posn := {}
  result : Option Value := none

structure Forgotten where
  req : Posn
  avail : Posn

/-- `state`: what the stream still holds, the stored characters, the starts of their lines, the
cursor, and the position of the first stored character. -/
structure Stream (Value : Type) where
  unread : List Char
  str : List Char := []
  lines : List Nat := [0]
  pos : Posn := {}
  off : Posn := {}
  memoTable : List (Nat → Option (StreamMemo Value)) := []
  err : ParseError := {}

/-- The starts of the lines that begin behind a newline of `w`, which starts at `i`. -/
def newlines (i : Nat) : List Char → List Nat
  | [] => []
  | c :: w => if c = '\n' then (i + 1) :: newlines (i + 1) w else newlines (i + 1) w

namespace Stream

def read (s : Stream Value) : Bool × Stream Value :=
  match s.unread with
  | [] => (false, s)
  | c :: rest =>
    (true, { s with
      unread := rest
      lines := if c = '\n' then s.lines ++ [s.off.index + s.str.length + 1] else s.lines
      str := s.str ++ [c] })

def readMany (s : Stream Value) (n : Nat) : Nat × Stream Value :=
  let r := s.unread.take n
  (r.length, { s with
    unread := s.unread.drop n
    lines := s.lines ++ newlines (s.off.index + s.str.length) r
    str := s.str ++ r })

def ofText (text : List Char) : Stream Value := (read { unread := text }).2

/-- `operator()` -/
def current (s : Stream Value) : Char := s.str.getD (s.pos.index - s.off.index) '\x00'

def setPosn (s : Stream Value) (p : Posn) : Except Forgotten (Stream Value) :=
  if p.index < s.off.index then .error ⟨p, s.off⟩ else .ok { s with pos := p }

/-- `operator ++` -/
def next (s : Stream Value) : Stream Value :=
  let i := s.pos.index - s.off.index
  if s.str.length ≤ i then s
  else
    let s := { s with pos.index := s.pos.index + 1 }
    let (more, s) := if i + 1 = s.str.length then s.read else (true, s)
    if !more then { s with pos.col := s.pos.col + 1 }
    else
      let j := s.pos.line - s.off.line
      if j = s.lines.length - 1 ∨ s.pos.index < s.lines.getD (j + 1) 0 then
        { s with pos.col := s.pos.col + 1 }
      else { s with pos := { s.pos with line := s.pos.line + 1, col := 0 } }

/-- The loop of `operator +=` over the starts of the next lines. -/
def countLines (index : Nat) : List Nat → Nat → Nat
  | [], ln => ln
  | l :: ls, ln => if l ≤ index then countLines index ls (ln + 1) else ln

/-- The end of `operator +=`. -/
def moveTo (s : Stream Value) (index : Nat) : Stream Value :=
  let line := countLines index (s.lines.drop (s.pos.line - s.off.line + 1)) s.pos.line
  { s with pos := { index, line, col := index - s.lines.getD (line - s.off.line) 0 } }

/-- `operator +=` -/
def skip (s : Stream Value) (n : Nat) : Stream Value :=
  let i := s.pos.index - s.off.index
  if s.str.length ≤ i + n then
    if s.str.length ≤ i then s
    else
      let nn := i + n + 1 - s.str.length
      let (r, s) := s.readMany nn
      s.moveTo (s.pos.index + if r < nn then s.str.length - i else n)
  else s.moveTo (s.pos.index + n)

/-- `string`, by `range` -/
def string (s : Stream Value) (p : Posn) (n : Nat) : Except Forgotten (List Char × Stream Value) :=
  if p.index < s.off.index then .error ⟨p, s.off⟩
  else
    let ib := p.index - s.off.index
    let ie := ib + n
    let s := if s.str.length < ie then (s.readMany (ie - s.str.length)).2 else s
    .ok ((s.str.drop ib).take n, s)

def memo (s : Stream Value) (key : Nat) : Option (StreamMemo Value) :=
  (s.memoTable[s.pos.index - s.off.index]?).bind (· key)

/-- `set_memo`, which fills the table up to the position. -/
def setMemo (s : Stream Value) (p : Posn) (key : Nat) (m : StreamMemo Value) :
    Bool × Stream Value :=
  if p.index < s.off.index then (false, s)
  else
    let i := p.index - s.off.index
    let table := s.memoTable ++ List.replicate (i + 1 - s.memoTable.length) fun _ => none
    (true, { s with
      memoTable := table.modify i fun row => Function.update row key (some m) })

def expect (s : Stream Value) (w : List Char) : Stream Value :=
  { s with err := s.err.merge { pos := s.pos, expected := {w} } }

def message (s : Stream Value) (w : List Char) : Stream Value :=
  { s with err := s.err.merge { pos := s.pos, messages := {w} } }

def fail (s : Stream Value) : Stream Value := { s with err := s.err.merge { pos := s.pos } }

def matchesChar (s : Stream Value) (c : Char) : Bool × Stream Value :=
  if s.current = c then (true, s.next) else (false, s)

def matchesString (s : Stream Value) (w : List Char) : Except Forgotten (Bool × Stream Value) := do
  let (v, s) ← s.string s.pos w.length
  return if v = w then (true, s.skip w.length) else (false, s)

def matchesAny (s : Stream Value) : Bool × Stream Value :=
  if s.current = '\x00' then (false, s) else (true, s.next)

def matchesIn (s : Stream Value) (first last : Char) : Bool × Stream Value :=
  if s.current < first ∨ last < s.current then (false, s) else (true, s.next)

end Stream

/-- A call of the state with its answer. A parser keeps positions in numbered variables. -/
inductive Call (Value : Type) where
  | current (c : Char)
  | matchesChar (c : Char) (ok : Bool)
  | matchesString (w : List Char) (ok : Bool)
  | matchesAny (ok : Bool)
  | matchesIn (first last : Char) (ok : Bool)
  | posn (x index : Nat)
  | setPosn (x : Nat)
  | string (x n : Nat) (w : List Char)
  | memo (key x : Nat) (found : Option (Bool × Nat × Option Value))
  | setMemo (x key : Nat) (success : Bool) (stop : Nat) (result : Option Value)
  | expect (w : List Char)
  | message (w : List Char)
  | fail
  deriving DecidableEq

section Machines

variable [DecidableEq Value]

/-- The answer is the one that the label says. -/
def answers {α S : Type} [DecidableEq α] (x : α × S) (answer : α) : Option S :=
  if x.1 = answer then some x.2 else none

def Stream.step (p : Stream Value × (Nat → Posn)) :
    Call Value → Option (Stream Value × (Nat → Posn))
  | .current c => answers (p.1.current, p) c
  | .matchesChar c ok => (answers (p.1.matchesChar c) ok).map (·, p.2)
  | .matchesString w ok =>
    match p.1.matchesString w with
    | .ok r => (answers r ok).map (·, p.2)
    | .error _ => none
  | .matchesAny ok => (answers p.1.matchesAny ok).map (·, p.2)
  | .matchesIn first last ok => (answers (p.1.matchesIn first last) ok).map (·, p.2)
  | .posn x index => answers (p.1.pos.index, (p.1, Function.update p.2 x p.1.pos)) index
  | .setPosn x =>
    match p.1.setPosn (p.2 x) with
    | .ok s => some (s, p.2)
    | .error _ => none
  | .string x n w =>
    match p.1.string (p.2 x) n with
    | .ok r => (answers r w).map (·, p.2)
    | .error _ => none
  | .memo key x found =>
    match p.1.memo key with
    | none => answers (none, p) found
    | some m =>
      answers (some (m.success, m.stop.index, m.result), (p.1, Function.update p.2 x m.stop)) found
  | .setMemo x key success stop result =>
    (answers (p.1.setMemo (p.2 x) key { success, stop := p.2 stop, result }) true).map (·, p.2)
  | .expect w => some (p.1.expect w, p.2)
  | .message w => some (p.1.message w, p.2)
  | .fail => some (p.1.fail, p.2)

def streamMachine (text : List Char) : Machine (Stream Value × (Nat → Posn)) (Call Value) where
  initial := (Stream.ofText text, fun _ => {})
  step := Stream.step

/-- The same calls of a state that has the whole text. -/
def State.step (p : State Value × (Nat → Nat)) :
    Call Value → Option (State Value × (Nat → Nat))
  | .current c => answers (p.1.current, p) c
  | .matchesChar c ok => do
    let (r, (), s) ← Combinator.literal c () p.1
    answers (r, (s, p.2)) ok
  | .matchesString w ok => do
    let (r, (), s) ← Combinator.literalString w () p.1
    answers (r, (s, p.2)) ok
  | .matchesAny ok => do
    let (r, (), s) ← Combinator.any () p.1
    answers (r, (s, p.2)) ok
  | .matchesIn first last ok => do
    let (r, (), s) ← Combinator.between first last () p.1
    answers (r, (s, p.2)) ok
  | .posn x index => answers (p.1.pos, (p.1, Function.update p.2 x p.1.pos)) index
  | .setPosn x => some (p.1.setPosn (p.2 x), p.2)
  | .string x n w => answers (p.1.string (p.2 x) n, p) w
  | .memo key x found =>
    match p.1.memo key with
    | none => answers (none, p) found
    | some m =>
      answers (some (m.success, m.stop, m.result), (p.1, Function.update p.2 x m.stop)) found
  | .setMemo x key success stop result =>
    some (p.1.setMemo (p.2 x) key { success, stop := p.2 stop, result }, p.2)
  | .expect _ => some p
  | .message _ => some p
  | .fail => some p

def stateMachine (text : List Char) : Machine (State Value × (Nat → Nat)) (Call Value) where
  initial := ({ text }, fun _ => 0)
  step := State.step

end Machines

end Henson.Parser
