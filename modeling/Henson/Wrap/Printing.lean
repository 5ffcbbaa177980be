import Henson.Wrap.Parser

/-!
# Templates and their text

A template is written out with double braces around each command, and with quotes
around a word that blanks would cut. The parser gives back the template from
its text, whatever nesting of commands, bodies and comments it has.
-/

namespace Henson.Wrap

open Peg

def isWordChar (c : Char) : Bool :=
  c.toNat < 128 && c ∉ ['{', '}', '/', '"', '\'', '\\', '\n']

/-- An ASCII word; `int` takes no more than 4300 digits. -/
def IsWord (w : Text) : Prop := w.length ≤ 4300 ∧ w.all isWordChar = true

instance (w : Text) : Decidable (IsWord w) :=
  inferInstanceAs (Decidable (w.length ≤ 4300 ∧ w.all isWordChar = true))

def isBare (w : Text) : Bool := w ≠ [] && w.all fun c => !isSpace c

def spell (w : Text) : Text := if isBare w then w else '"' :: (w ++ ['"'])

mutual

def Chunk.printArg : Chunk → Text
  | text value => value
  | word value => spell value
  | call name args _ => ['{', '{'] ++ (spell name ++ Chunk.printArgs args)

def Chunk.printArgs : List Chunk → Text
  | [] => ['}', '}']
  | arg :: args => ' ' :: (arg.printArg ++ Chunk.printArgs args)

end

/-- The name and the arguments that are written: an index stands for its command. -/
def written (name : Text) (args : List Chunk) : Text × List Chunk :=
  match args with
  | [.word value] =>
    if name = "args".toList ∧ isIndex value = true then (value, []) else (name, args)
  | _ => (name, args)

def printCall (name : Text) (args : List Chunk) : Text :=
  let (name, args) := written name args
  ['{', '{'] ++ (spell name ++ Chunk.printArgs args)

def printEnd (name : Text) : Text := printCall (endOf name) []

mutual

def Chunk.print : Chunk → Text
  | text value => value
  | word _ => []
  | call name args children =>
    printCall name args ++
      if isBodyCommand name then Chunk.printAll children ++ printEnd name else []

def Chunk.printAll : List Chunk → Text
  | [] => []
  | c :: cs => c.print ++ Chunk.printAll cs

end

mutual

def Chunk.ValidArg : Chunk → Prop
  | text _ => False
  | word value => IsWord value
  | call name args children =>
    IsWord name ∧ isBodyCommand name = false ∧ Chunk.ValidArgs args ∧ children = []

def Chunk.ValidArgs : List Chunk → Prop
  | [] => True
  | arg :: args => arg.ValidArg ∧ Chunk.ValidArgs args

end

/-- A command that is not taken for the end of a body. -/
def Chunk.Ends (endCommand : Text) : Chunk → Prop
  | call name _ _ => name = endCommand
  | _ => False

/-- No command among the chunks ends the body that they are in. -/
def Unended (endCommand : Option Text) (cs : List Chunk) : Prop :=
  ∀ e ∈ endCommand, isIndex e = false ∧ ∀ c ∈ cs, ¬ c.Ends e

theorem Unended.tail {endCommand : Option Text} {c : Chunk} {cs : List Chunk}
    (h : Unended endCommand (c :: cs)) : Unended endCommand cs := by
  intro e he
  obtain ⟨hIndex, hEnds⟩ := h e he
  exact ⟨hIndex, fun c hc => hEnds c (List.mem_cons_of_mem _ hc)⟩

mutual

/-- A chunk in front of the text `next`. Only the commands that take a body have one. -/
def Chunk.Valid : Chunk → Text → Prop
  | text value, next => Piece value next
  | word _, _ => False
  | call name args children, next =>
    IsWord name ∧ isIndex name = false ∧ Chunk.ValidArgs args ∧
      if isBodyCommand name then
        Chunk.AllValid children (printEnd name ++ next) ∧
          ∀ c ∈ children, ¬ c.Ends (endOf name)
      else children = []

def Chunk.AllValid : List Chunk → Text → Prop
  | [], _ => True
  | c :: cs, next => c.Valid (Chunk.printAll cs ++ next) ∧ Chunk.AllValid cs next

end

def flush (u : Text) : List Token := if u = [] then [] else [.text u]

/-- The tokens of arguments behind the text `u` and of the closing braces. -/
def argTokens (u : Text) : List Chunk → List Token
  | [] => flush u ++ [.rbrace]
  | .word value :: args => argTokens (u ++ ' ' :: spell value) args
  | .call name innerArgs _ :: args =>
    flush (u ++ [' ']) ++ .lbrace :: (argTokens (spell name) innerArgs ++ argTokens [] args)
  | .text _ :: args => argTokens u args

def callTokens (name : Text) (args : List Chunk) : List Token :=
  .lbrace :: argTokens (spell (written name args).1) (written name args).2

def endTokens (name : Text) : List Token := .lbrace :: argTokens (spell (endOf name)) []

def chunkTokens : List Chunk → List Token
  | [] => []
  | .text value :: cs => .text value :: chunkTokens cs
  | .word _ :: cs => chunkTokens cs
  | .call name args children :: cs =>
    callTokens name args ++
      ((if isBodyCommand name then chunkTokens children ++ endTokens name else []) ++
        chunkTokens cs)

/-- Text between braces that only a brace ends. -/
def IsInterior (u : Text) : Prop := ∀ c ∈ u, c ≠ '{' ∧ c ≠ '}' ∧ c ≠ '/'

theorem IsInterior.append {u v : Text} (hu : IsInterior u) (hv : IsInterior v) :
    IsInterior (u ++ v) := by
  intro c hc
  rcases List.mem_append.mp hc with hc | hc
  · exact hu c hc
  · exact hv c hc

theorem isInterior_spell {w : Text} (h : IsWord w) : IsInterior (spell w) := by
  have hWord : IsInterior w := by
    intro c hc
    have hChar := List.all_eq_true.mp h.2 c hc
    simp only [isWordChar, List.mem_cons, not_or, Bool.and_eq_true, decide_eq_true_eq] at hChar
    exact ⟨hChar.2.1, hChar.2.2.1, hChar.2.2.2.1⟩
  have hQuote : IsInterior ['"'] := by
    intro c hc
    rw [List.mem_singleton.mp hc]
    decide
  rw [spell]
  split
  · exact hWord
  · exact hQuote.append (hWord.append hQuote)

theorem isInterior_blank : IsInterior [' '] := by
  intro c hc
  rw [List.mem_singleton.mp hc]
  decide

theorem plainRun_interior {u next : Text} (hu : IsInterior u) (hNext : plain next = none) :
    PlainRun u next := by
  induction u with
  | nil => exact hNext
  | cons c u ih =>
    obtain ⟨hChar, hRest⟩ := List.forall_mem_cons.mp hu
    exact ⟨by simp [isPlain, hChar.1, hChar.2.1, hChar.2.2], ih hRest⟩

theorem outer_interior {u next : Text} (hu : IsInterior u) (hNext : plain next = none) :
    outer (u ++ next) = (flush u ++ (outer next).1, (outer next).2) := by
  rw [flush]
  split
  · rename_i hNil
    rw [hNil]
    rfl
  · rename_i hNe
    exact outer_piece (.plain hNe (plainRun_interior hu hNext))

theorem outer_printArgs {u : Text} {args : List Chunk} (hu : IsInterior u)
    (h : Chunk.ValidArgs args) (next : Text) :
    outer (u ++ (Chunk.printArgs args ++ next)) =
      (argTokens u args ++ (outer next).1, (outer next).2) := by
  fun_induction argTokens u args generalizing next with
  | case1 u =>
    rw [Chunk.printArgs, outer_interior hu rfl, outer_rbrace, List.append_assoc]
    rfl
  | case2 u value args ih =>
    have hWord := (isInterior_blank.append (isInterior_spell h.1))
    have hRest := ih (hu.append hWord) h.2 next
    rw [Chunk.printArgs, Chunk.printArg]
    simpa using hRest
  | case3 u name innerArgs children args ihInner ihRest =>
    obtain ⟨⟨hName, -, hInner, -⟩, hArgs⟩ := h
    have hSplit : u ++ (Chunk.printArgs (.call name innerArgs children :: args) ++ next) =
        (u ++ [' ']) ++ (['{', '{'] ++ (spell name ++ (Chunk.printArgs innerArgs ++
          ([] ++ (Chunk.printArgs args ++ next))))) := by
      simp [Chunk.printArgs, Chunk.printArg]
    rw [hSplit, outer_interior (hu.append isInterior_blank) rfl, outer_lbrace,
      ihInner (isInterior_spell hName) hInner, ihRest (by simp [IsInterior]) hArgs]
    simp
  | case4 u value args ih => exact h.1.elim

theorem written_eq (name : Text) (args : List Chunk) :
    written name args = (name, args) ∨
      ∃ value, isIndex value = true ∧ name = "args".toList ∧ args = [.word value] ∧
        written name args = (value, []) := by
  fun_cases written name args with
  | case1 value h => exact .inr ⟨value, h.2, h.1, rfl, rfl⟩
  | case2 value h => exact .inl rfl
  | case3 => exact .inl rfl

theorem outer_printCall {name : Text} {args : List Chunk} (hName : IsWord name)
    (hArgs : Chunk.ValidArgs args) (next : Text) :
    outer (printCall name args ++ next) =
      (callTokens name args ++ (outer next).1, (outer next).2) := by
  have hWritten : IsWord (written name args).1 ∧ Chunk.ValidArgs (written name args).2 := by
    rcases written_eq name args with hSame | ⟨value, -, -, rfl, hIndex⟩
    · rw [hSame]
      exact ⟨hName, hArgs⟩
    · rw [hIndex]
      exact ⟨hArgs.1, trivial⟩
  have hTokens := outer_printArgs (isInterior_spell hWritten.1) hWritten.2 next
  rw [printCall, List.append_assoc, List.append_assoc, outer_lbrace, hTokens]
  rfl

theorem isWord_endOf {name : Text} (h : isBodyCommand name = true) : IsWord (endOf name) := by
  have hName : name ∈ bodyCommands := of_decide_eq_true h
  have hAll : bodyCommands.all (fun name => decide (IsWord (endOf name))) = true := rfl
  exact of_decide_eq_true (List.all_eq_true.mp hAll name hName)

theorem outer_printEnd {name : Text} (h : isBodyCommand name = true) (next : Text) :
    outer (printEnd name ++ next) = (endTokens name ++ (outer next).1, (outer next).2) := by
  have hNone : Chunk.ValidArgs [] := trivial
  exact outer_printCall (isWord_endOf h) hNone next

theorem outer_printAll {cs : List Chunk} {next : Text} (h : Chunk.AllValid cs next) :
    outer (Chunk.printAll cs ++ next) = (chunkTokens cs ++ (outer next).1, (outer next).2) := by
  fun_induction chunkTokens cs generalizing next with
  | case1 => rfl
  | case2 value cs ih =>
    obtain ⟨hPiece, hRest⟩ := h
    rw [Chunk.printAll, Chunk.print, List.append_assoc, outer_piece hPiece, ih hRest]
    rfl
  | case3 value cs ih => exact h.1.elim
  | case4 name args children cs ihBody ihRest =>
    obtain ⟨⟨hName, -, hArgs, hBody⟩, hRest⟩ := h
    rw [Chunk.printAll, Chunk.print, List.append_assoc, List.append_assoc,
      outer_printCall hName hArgs]
    split at hBody
    · rename_i hCommand
      obtain ⟨hChildren, -⟩ := hBody
      rw [if_pos hCommand, if_pos hCommand, List.append_assoc, ihBody hChildren,
        outer_printEnd hCommand, ihRest hRest]
      simp
    · rename_i hCommand
      rw [if_neg hCommand, if_neg hCommand, List.nil_append, ihRest hRest]
      simp

end Henson.Wrap
