import Henson.Wrap.Lexer

/-!
# The parser of wrap.py

The parser reads the tokens of the outer lexer. Within braces it replaces a text by the
tokens that the inner lexer makes of it, and goes on with these. A command with
a body takes what follows, up to the command that ends it or the end of the file.
-/

namespace Henson.Wrap

open Peg

/-- Text, or a command with arguments, which are words and commands, and a body. -/
inductive Chunk where
  | text (value : Text)
  | word (value : Text)
  | call (name : Text) (args children : List Chunk)

/-- How the generator ends without a result. A crash is an exception that nothing catches. -/
inductive Failure where
  | unlexable (rest : Text)
  | syntaxError (message : Text)
  | crash
  | outOfFuel
  deriving DecidableEq

def Token.str (token : Token) : Text :=
  ['\''] ++ token.value.flatMap (fun c => if c = '\n' then ['\\', 'n'] else [c]) ++ ['\'']

def unexpectedToken (token : Token) : Failure :=
  .syntaxError ("Unexpected token: ".toList ++ token.str ++ ['.'])

def bodyCommands : List Text :=
  ["foreachfn".toList, "fn".toList, "forallfn".toList, "fnall".toList]

def isBodyCommand (name : Text) : Bool := name ∈ bodyCommands

def digitsValue (n : Nat) : Text → Option Nat
  | [] => some n
  | '_' :: d :: t => if d.isDigit then digitsValue (10 * n + (d.toNat - 48)) t else none
  | d :: t => if d.isDigit then digitsValue (10 * n + (d.toNat - 48)) t else none

def unsignedValue : Text → Option Nat
  | [] => none
  | d :: t => if d.isDigit then digitsValue (d.toNat - 48) t else none

/-- `int` of an ASCII string with at most 4300 digits: blanks around it, a sign, digits with single
underscores between. -/
def intOf (s : Text) : Option Int :=
  match ((s.dropWhile isSpace).reverse.dropWhile isSpace).reverse with
  | '-' :: t => (unsignedValue t).map fun n => -(n : Int)
  | '+' :: t => (unsignedValue t).map Int.ofNat
  | t => (unsignedValue t).map Int.ofNat

def isIndex (s : Text) : Bool := (intOf s).isSome

def endOf (name : Text) : Text := "end".toList ++ name

/-- Text within braces is replaced by what the inner lexer makes of it. -/
def pushInner : List Token → List Token
  | .text value :: rest => inner value ++ rest
  | tokens => tokens

mutual

/-- `Parser.macro`, behind the braces that open it: the name and the arguments. -/
def parseCall : Nat → Bool → List Token → Except Failure ((Text × List Chunk) × List Token)
  | 0, _, _ => .error .outOfFuel
  | fuel + 1, acceptBodyCommands, tokens =>
    match pushInner tokens with
    | .identifier name :: rest =>
      if !acceptBodyCommands && isBodyCommand name then
        .error (.syntaxError ("Cannot use body macros in expression context: '".toList ++ name ++
          ['\'']))
      else
        (parseArgs fuel rest).map fun p => ((name, p.1), p.2)
    | token :: _ => .error (unexpectedToken token)
    -- `accept` asks for the type of a token that is not there
    | [] => .error .crash

/-- The loop of `Parser.macro`. -/
def parseArgs : Nat → List Token → Except Failure (List Chunk × List Token)
  | 0, _ => .error .outOfFuel
  | _ + 1, [] => .error .crash
  | fuel + 1, .lbrace :: rest => do
    let ((name, innerArgs), rest) ← parseCall fuel false rest
    let (args, rest) ← parseArgs fuel rest
    return (.call name innerArgs [] :: args, rest)
  | fuel + 1, .identifier value :: rest => do
    let (args, rest) ← parseArgs fuel rest
    return (.word value :: args, rest)
  | fuel + 1, .text value :: rest => parseArgs fuel (inner value ++ rest)
  | _ + 1, .rbrace :: rest => return ([], rest)

end

/-- `Parser.text`. A body that the end of the file ends is accepted. -/
def parseText : Nat → Option Text → List Token → Except Failure (List Chunk × List Token)
  | 0, _, _ => .error .outOfFuel
  | _ + 1, _, [] => return ([], [])
  | fuel + 1, endCommand, .text value :: rest => do
    let (chunks, rest) ← parseText fuel endCommand rest
    return (.text value :: chunks, rest)
  | fuel + 1, endCommand, .lbrace :: rest => do
    let ((name, args), rest) ← parseCall fuel true rest
    if endCommand = some name then return ([], rest)
    else if isIndex name then
      -- the arguments of an index are dropped
      let (chunks, rest) ← parseText fuel endCommand rest
      return (.call "args".toList [.word name] [] :: chunks, rest)
    else if isBodyCommand name then
      let (children, rest) ← parseText fuel (some (endOf name)) rest
      let (chunks, rest) ← parseText fuel endCommand rest
      return (.call name args children :: chunks, rest)
    else
      let (chunks, rest) ← parseText fuel endCommand rest
      return (.call name args [] :: chunks, rest)
  | _ + 1, _, token :: _ => throw (unexpectedToken token)

/-- How many steps a parser makes of a token at most. -/
def Token.weight : Token → Nat
  | text value => value.length + 1
  | _ => 1

def weight : List Token → Nat
  | [] => 0
  | t :: ts => t.weight + weight ts

def parseTokens (tokens : List Token) : Except Failure (List Chunk) :=
  (parseText (weight tokens + 1) none tokens).map Prod.fst

def parse (content : Text) : Except Failure (List Chunk) :=
  match outer content with
  | (tokens, []) => parseTokens tokens
  | (_, rest) => .error (.unlexable rest)

theorem weight_cons (t : Token) (ts : List Token) : weight (t :: ts) = t.weight + weight ts := rfl

theorem weight_append (ts ts' : List Token) : weight (ts ++ ts') = weight ts + weight ts' := by
  induction ts with
  | nil => exact (Nat.zero_add _).symm
  | cons t ts ih => rw [List.cons_append, weight_cons, weight_cons, ih, Nat.add_assoc]

theorem Token.weight_pos (t : Token) : 1 ≤ t.weight := by
  cases t with
  | text value => exact Nat.le_add_left _ _
  | _ => exact Nat.le_refl _

theorem weight_rule {make : Text → Option Token} {r : Recognizer Char} {t t' : Text}
    {token : Token} (hMake : ∀ value token, make value = some token → token.weight = 1)
    (h : rule make r t = some (some token, t')) : token.weight = 1 := by
  obtain ⟨q, -, hEq⟩ := Option.map_eq_some_iff.mp h
  exact hMake q.1 token (Prod.mk.inj hEq).1

theorem weight_innerRules {t t' : Text} {token : Token}
    (h : innerRules t = some (some token, t')) : token.weight = 1 := by
  simp only [innerRules, firstOf, Option.or_eq_some_iff, Option.or_none] at h
  rcases h with h | ⟨-, h | ⟨-, h | ⟨-, h | ⟨-, h⟩⟩⟩⟩
  all_goals
    apply weight_rule _ h
    intro value token hEq
    cases hEq
  all_goals rfl

theorem weight_of_ones {ts : List Token} (h : ∀ token ∈ ts, token.weight = 1) :
    weight ts = ts.length := by
  induction ts with
  | nil => rfl
  | cons token ts ih =>
    obtain ⟨hToken, hRest⟩ := List.forall_mem_cons.mp h
    rw [weight_cons, hToken, ih hRest, List.length_cons, Nat.add_comm]

theorem weight_inner_le (t : Text) : weight (inner t) ≤ t.length := by
  have hOne : ∀ token ∈ inner t, token.weight = 1 :=
    forall_mem_scan (fun _ _ _ h => weight_innerRules h) t
  have hLength := length_scan_le innerRules t
  rw [weight_of_ones hOne, inner]
  omega

theorem weight_pushInner_le (ts : List Token) : weight (pushInner ts) ≤ weight ts := by
  fun_cases pushInner ts with
  | case1 value rest =>
    have hInner := weight_inner_le value
    rw [weight_append, weight_cons, Token.weight]
    omega
  | case2 => exact Nat.le_refl _

/-- Reading that does not run out of fuel and does not add tokens. -/
structure Settles {α : Type} (ts : List Token) (r : Except Failure (α × List Token)) : Prop where
  fuel : r ≠ .error .outOfFuel
  shorter : ∀ x rest, r = .ok (x, rest) → weight rest ≤ weight ts

theorem settles_error {α : Type} {ts : List Token} {e : Failure} (h : e ≠ .outOfFuel) :
    Settles ts (.error e : Except Failure (α × List Token)) := by
  constructor
  · intro hEq
    exact h (Except.error.inj hEq)
  · intro x rest hEq
    cases hEq

theorem settles_ok {α : Type} {ts rest : List Token} (x : α) (h : weight rest ≤ weight ts) :
    Settles ts (.ok (x, rest)) := by
  constructor
  · intro hEq
    cases hEq
  · intro y rest' hEq
    cases hEq
    exact h

theorem Settles.bind {α β : Type} {ts ts' : List Token} {r : Except Failure (α × List Token)}
    {f : α × List Token → Except Failure (β × List Token)} (h : Settles ts' r)
    (hf : ∀ x rest, weight rest ≤ weight ts' → Settles ts (f (x, rest))) : Settles ts (r >>= f) := by
  cases r with
  | error e =>
    apply settles_error
    rintro rfl
    exact h.fuel rfl
  | ok p => exact hf p.1 p.2 (h.shorter p.1 p.2 rfl)

theorem Settles.of_le {α : Type} {ts ts' : List Token} {r : Except Failure (α × List Token)}
    (h : Settles ts' r) (hLess : weight ts' ≤ weight ts) : Settles ts r :=
  ⟨h.fuel, fun x rest hEq => Nat.le_trans (h.shorter x rest hEq) hLess⟩

theorem Settles.map {α β : Type} {ts ts' : List Token} {r : Except Failure (α × List Token)}
    {f : α → β} (h : Settles ts' r) (hLess : weight ts' ≤ weight ts) :
    Settles ts (r.map fun p => (f p.1, p.2)) := by
  cases r with
  | error e =>
    apply settles_error
    rintro rfl
    exact h.fuel rfl
  | ok p => exact settles_ok _ (Nat.le_trans (h.shorter p.1 p.2 rfl) hLess)

theorem settles_unexpectedToken {α : Type} (ts : List Token) (token : Token) :
    Settles ts (.error (unexpectedToken token) : Except Failure (α × List Token)) := by
  apply settles_error
  rw [unexpectedToken]
  intro hEq
  cases hEq

theorem parseArgs_settles {fuel : Nat} {ts : List Token} (h : weight ts < fuel) :
    (∀ accept, Settles ts (parseCall fuel accept ts)) ∧ Settles ts (parseArgs fuel ts) := by
  induction fuel generalizing ts with
  | zero => omega
  | succ fuel ih =>
    constructor
    · intro accept
      have hPush := weight_pushInner_le ts
      rw [parseCall]
      split
      · rename_i name rest hTokens
        rw [hTokens, weight_cons, show (Token.identifier name).weight = 1 from rfl] at hPush
        split
        · exact settles_error (by simp)
        · apply Settles.map (ih (by omega)).2
          omega
      · exact settles_unexpectedToken ts _
      · exact settles_error (by simp)
    · cases ts with
      | nil => exact settles_error (by simp)
      | cons token rest =>
        rw [weight_cons] at h
        have hPos := token.weight_pos
        have hRest : weight rest ≤ weight (token :: rest) := by rw [weight_cons]; omega
        cases token with
        | lbrace =>
          apply Settles.bind ((ih (by omega)).1 false)
          intro call rest' hShorter
          apply Settles.bind (ih (by omega)).2
          intro args rest'' hShorter'
          exact settles_ok _ (by omega)
        | rbrace => exact settles_ok _ hRest
        | identifier value =>
          apply Settles.bind (ih (by omega)).2
          intro args rest' hShorter
          exact settles_ok _ (by omega)
        | text value =>
          have hInner := weight_inner_le value
          rw [Token.weight] at h hPos
          have hLess : weight (inner value ++ rest) ≤ value.length + weight rest := by
            rw [weight_append]
            omega
          apply Settles.of_le (ih (by omega)).2
          rw [weight_cons, Token.weight]
          omega

theorem parseText_settles {fuel : Nat} {endCommand : Option Text} {ts : List Token}
    (h : weight ts < fuel) : Settles ts (parseText fuel endCommand ts) := by
  induction fuel generalizing endCommand ts with
  | zero => omega
  | succ fuel ih =>
    cases ts with
    | nil => exact settles_ok _ (Nat.le_refl _)
    | cons token rest =>
      rw [weight_cons] at h
      have hPos := token.weight_pos
      have hRest : weight rest ≤ weight (token :: rest) := by rw [weight_cons]; omega
      cases token with
      | rbrace => exact settles_unexpectedToken _ _
      | identifier value => exact settles_unexpectedToken _ _
      | text value =>
        apply Settles.bind (ih (by omega))
        intro chunks rest' hShorter
        exact settles_ok _ (by omega)
      | lbrace =>
        apply Settles.bind ((parseArgs_settles (by omega)).1 true)
        intro call rest' hShorter
        dsimp only
        split
        · exact settles_ok _ (by omega)
        split
        · apply Settles.bind (ih (by omega))
          intro chunks rest'' hShorter'
          exact settles_ok _ (by dsimp only; omega)
        split
        · apply Settles.bind (ih (by omega))
          intro children rest'' hShorter'
          apply Settles.bind (ih (by dsimp only; omega))
          intro chunks rest''' hShorter''
          dsimp only at hShorter'' ⊢
          exact settles_ok _ (by omega)
        · apply Settles.bind (ih (by omega))
          intro chunks rest'' hShorter'
          exact settles_ok _ (by dsimp only; omega)

/-- Every content is parsed, or rejected as the source rejects it. -/
theorem parse_ends (content : Text) : parse content ≠ .error .outOfFuel := by
  rw [parse]
  split
  · rename_i tokens hTokens
    rw [parseTokens]
    have hSettles : Settles tokens (parseText (weight tokens + 1) none tokens) :=
      parseText_settles (Nat.lt_succ_self _)
    intro hEq
    cases hRead : parseText (weight tokens + 1) none tokens with
    | error e =>
      rw [hRead] at hEq
      cases hEq
      exact hSettles.fuel hRead
    | ok p =>
      rw [hRead] at hEq
      cases hEq
  · intro hEq
    cases hEq

end Henson.Wrap
