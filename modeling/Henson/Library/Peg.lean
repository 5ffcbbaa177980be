import Mathlib.Logic.Basic
import Mathlib.Data.List.Basic

/-!
# Parsing expressions as functions

A parsing expression takes the text that is left and returns what is left after
a match. Readers return a value as well, and actions change local variables. A
repetition stops at the first round that fails, or that matches nothing.
-/

universe u v w

namespace Peg

abbrev Recognizer (Token : Type u) := List Token → Option (List Token)

abbrev Reader (Token : Type u) (α : Type v) := List Token → Option (α × List Token)

/-- A parsing expression that also changes local variables. -/
abbrev Action (Token : Type u) (Locals : Type v) :=
  Locals → List Token → Option (Locals × List Token)

section Operations

variable {Token : Type u} {α : Type v} {Locals : Type w}

def satisfy (p : Token → Bool) : Recognizer Token
  | [] => none
  | c :: t => if p c then some t else none

def word [DecidableEq Token] : List Token → Recognizer Token
  | [], t => some t
  | _ :: _, [] => none
  | a :: w, c :: t => if a = c then word w t else none

def andThen (r r' : Recognizer Token) : Recognizer Token := fun t => (r t).bind r'

def orElse (r r' : Recognizer Token) : Recognizer Token := fun t => (r t).or (r' t)

def maybe (r : Recognizer Token) : Recognizer Token := fun t => some ((r t).getD t)

def notAhead (r : Recognizer Token) : Recognizer Token := fun t =>
  if (r t).isSome then none else some t

def many (r : Recognizer Token) (t : List Token) : List Token :=
  match r t with
  | none => t
  | some t' => if t'.length < t.length then many r t' else t
  termination_by t.length

def several (r : Recognizer Token) : Recognizer Token := fun t =>
  if (many r t).length < t.length then some (many r t) else none

def consumed (r : Recognizer Token) : Reader Token (List Token) := fun t =>
  (r t).map fun t' => (t.take (t.length - t'.length), t')

def quiet (r : Recognizer Token) : Action Token Locals := fun l t => (r t).map fun t' => (l, t')

def assign (set : α → Locals → Locals) (r : Reader Token α) : Action Token Locals := fun l t =>
  (r t).map fun p => (set p.1 l, p.2)

def update (f : Locals → Locals) : Action Token Locals := fun l t => some (f l, t)

def Action.andThen (g g' : Action Token Locals) : Action Token Locals := fun l t =>
  (g l t).bind fun p => g' p.1 p.2

def Action.orElse (g g' : Action Token Locals) : Action Token Locals := fun l t =>
  (g l t).or (g' l t)

/-- The local variables and what is left after as many matches as there are. -/
def iterate (g : Action Token Locals) (l : Locals) (t : List Token) : Locals × List Token :=
  match g l t with
  | none => (l, t)
  | some (l', t') => if t'.length < t.length then iterate g l' t' else (l, t)
  termination_by t.length

end Operations

section Lemmas

variable {Token : Type u} {Locals : Type v} {Locals' : Type w}

def Shrinks (r : Recognizer Token) : Prop := ∀ t t', r t = some t' → t'.length < t.length

def Action.Shrinks (g : Action Token Locals) : Prop :=
  ∀ l t l' t', g l t = some (l', t') → t'.length < t.length

theorem satisfy_cons (p : Token → Bool) (c : Token) (t : List Token) :
    satisfy p (c :: t) = if p c then some t else none := rfl

theorem satisfy_eq_some {p : Token → Bool} {t t' : List Token} :
    satisfy p t = some t' ↔ ∃ c, p c = true ∧ t = c :: t' := by
  cases t with
  | nil => simp [satisfy]
  | cons c t => simp [satisfy]

theorem satisfy_eq_iff [DecidableEq Token] {c : Token} {t t' : List Token} :
    satisfy (· = c) t = some t' ↔ t = c :: t' := by
  simp [satisfy_eq_some]

theorem orElse_satisfy (p q : Token → Bool) :
    orElse (satisfy p) (satisfy q) = satisfy fun c => p c || q c := by
  funext t
  cases t with
  | nil => rfl
  | cons c t => cases hp : p c <;> simp [orElse, satisfy, hp]

theorem shrinks_satisfy (p : Token → Bool) : Shrinks (satisfy p) := by
  intro t t' h
  obtain ⟨c, -, rfl⟩ := satisfy_eq_some.mp h
  exact Nat.lt_succ_self _

theorem word_eq_some [DecidableEq Token] {w t t' : List Token} :
    word w t = some t' ↔ t = w ++ t' := by
  induction w generalizing t with
  | nil => exact Option.some_inj
  | cons a w ih =>
    cases t with
    | nil => simp [word]
    | cons c t =>
      rw [word, Option.ite_none_right_eq_some, ih, List.cons_append, List.cons.injEq, eq_comm (a := c)]

theorem consumed_eq_some {r : Recognizer Token} {w t t' : List Token} :
    consumed r t = some (w, t') ↔ r t = some t' ∧ t.take (t.length - t'.length) = w := by
  rw [consumed, Option.map_eq_some_iff]
  constructor
  · rintro ⟨u, hr, hEq⟩
    obtain ⟨hTake, rfl⟩ := Prod.mk.inj hEq
    exact ⟨hr, hTake⟩
  · rintro ⟨hr, hTake⟩
    exact ⟨t', hr, by rw [hTake]⟩

theorem word_append [DecidableEq Token] (w t : List Token) : word w (w ++ t) = some t :=
  word_eq_some.mpr rfl

theorem shrinks_word [DecidableEq Token] {w : List Token} (h : w ≠ []) : Shrinks (word w) := by
  intro t t' hWord
  rw [word_eq_some.mp hWord, List.length_append]
  have hPos := List.length_pos_iff.mpr h
  omega

theorem Shrinks.orElse {r r' : Recognizer Token} (hr : Shrinks r) (hr' : Shrinks r') :
    Shrinks (orElse r r') := by
  intro t t' h
  rcases Option.or_eq_some_iff.mp h with h | ⟨-, h⟩
  · exact hr t t' h
  · exact hr' t t' h

theorem Shrinks.andThen {r r' : Recognizer Token} (hr : Shrinks r)
    (hr' : ∀ t t', r' t = some t' → t'.length ≤ t.length) : Shrinks (andThen r r') := by
  intro t t' h
  obtain ⟨u, hFirst, hSecond⟩ := Option.bind_eq_some_iff.mp h
  exact Nat.lt_of_le_of_lt (hr' u t' hSecond) (hr t u hFirst)

theorem notAhead_eq_some {r : Recognizer Token} {t t' : List Token} :
    notAhead r t = some t' ↔ r t = none ∧ t' = t := by
  rw [notAhead, Option.ite_none_left_eq_some, Option.not_isSome_iff_eq_none, Option.some.injEq,
    eq_comm (a := t)]

theorem Shrinks.after_notAhead {r r' : Recognizer Token} (hr' : Shrinks r') :
    Shrinks (Peg.andThen (notAhead r) r') := by
  intro t t' h
  obtain ⟨u, hFirst, hSecond⟩ := Option.bind_eq_some_iff.mp h
  obtain ⟨-, rfl⟩ := notAhead_eq_some.mp hFirst
  exact hr' u t' hSecond

theorem notAhead_satisfy {r : Recognizer Token} {p q : Token → Bool}
    (h : ∀ c t, r (c :: t) = none ↔ q c = true) :
    Peg.andThen (notAhead r) (satisfy p) = satisfy fun c => p c && q c := by
  funext t
  cases t with
  | nil => cases hr : r [] <;> simp [Peg.andThen, notAhead, hr, satisfy]
  | cons c t =>
    cases hr : r (c :: t) with
    | none =>
      have hq := (h c t).mp hr
      simp [Peg.andThen, notAhead, hr, satisfy, hq]
    | some t' =>
      have hq : q c = false := by
        cases hq : q c with
        | false => rfl
        | true => rw [(h c t).mpr hq] at hr; cases hr
      simp [Peg.andThen, notAhead, hr, satisfy, hq]

theorem many_of_none {r : Recognizer Token} {t : List Token} (h : r t = none) : many r t = t := by
  rw [many, h]

theorem many_of_some {r : Recognizer Token} (hr : Shrinks r) {t t' : List Token}
    (h : r t = some t') : many r t = many r t' := by
  rw [many, h]
  exact if_pos (hr t t' h)

theorem length_many_le (r : Recognizer Token) (t : List Token) :
    (many r t).length ≤ t.length := by
  fun_induction many r t with
  | case1 => exact Nat.le_refl _
  | case2 t t' _ hShorter ih => exact Nat.le_trans ih (Nat.le_of_lt hShorter)
  | case3 => exact Nat.le_refl _

theorem several_eq_some {r : Recognizer Token} {t t' : List Token} :
    several r t = some t' ↔ t'.length < t.length ∧ many r t = t' := by
  rw [several, Option.ite_none_right_eq_some, Option.some.injEq]
  constructor
  · rintro ⟨hLess, rfl⟩
    exact ⟨hLess, rfl⟩
  · rintro ⟨hLess, rfl⟩
    exact ⟨hLess, rfl⟩

theorem many_satisfy (p : Token → Bool) (t : List Token) :
    many (satisfy p) t = t.dropWhile p := by
  induction t with
  | nil => exact many_of_none rfl
  | cons c t ih =>
    rw [List.dropWhile_cons]
    split
    · rename_i hc
      have hMatch : satisfy p (c :: t) = some t := if_pos hc
      rw [many_of_some (shrinks_satisfy p) hMatch, ih]
    · rename_i hc
      have hFail : satisfy p (c :: t) = none := if_neg hc
      exact many_of_none hFail

theorem many_satisfy_append {p : Token → Bool} {w t : List Token} (hw : ∀ c ∈ w, p c = true)
    (ht : ∀ c ∈ t.head?, p c = false) : many (satisfy p) (w ++ t) = t := by
  rw [many_satisfy]
  induction w with
  | nil =>
    cases t with
    | nil => rfl
    | cons c t => simp [ht c rfl]
  | cons c w ih =>
    obtain ⟨hc, hw⟩ := List.forall_mem_cons.mp hw
    rw [List.cons_append, List.dropWhile_cons_of_pos hc, ih hw]

theorem many_satisfy_split (p : Token → Bool) (t : List Token) :
    ∃ w, t = w ++ many (satisfy p) t ∧ (∀ c ∈ w, p c = true) ∧
      ∀ c ∈ (many (satisfy p) t).head?, p c = false := by
  rw [many_satisfy]
  refine ⟨t.takeWhile p, List.takeWhile_append_dropWhile.symm, fun c hc => ?_, fun c hc => ?_⟩
  · exact List.all_eq_true.mp List.all_takeWhile c hc
  · have hNot := List.head?_dropWhile_not p t
    rw [hc] at hNot
    simpa using hNot

theorem consumed_append {r : Recognizer Token} {w t : List Token} (h : r (w ++ t) = some t) :
    consumed r (w ++ t) = some (w, t) := by
  rw [consumed_eq_some]
  refine ⟨h, ?_⟩
  rw [List.length_append, Nat.add_sub_cancel, List.take_left]

theorem consumed_many_iff {p : Token → Bool} {w t t' : List Token} :
    consumed (fun t => some (many (satisfy p) t)) t = some (w, t') ↔
      t = w ++ t' ∧ (∀ c ∈ w, p c = true) ∧ ∀ c ∈ t'.head?, p c = false := by
  constructor
  · intro h
    obtain ⟨hRead, hTake⟩ := consumed_eq_some.mp h
    obtain ⟨v, hSplit, hv, hStop⟩ := many_satisfy_split p t
    rw [Option.some.inj hRead] at hSplit hStop
    obtain rfl : v = w := by
      rw [← hTake, hSplit, List.length_append, Nat.add_sub_cancel, List.take_left]
    exact ⟨hSplit, hv, hStop⟩
  · rintro ⟨rfl, hw, hStop⟩
    exact consumed_append (congrArg some (many_satisfy_append hw hStop))

theorem consumed_several_iff {p : Token → Bool} {w t t' : List Token} :
    consumed (several (satisfy p)) t = some (w, t') ↔
      w ≠ [] ∧ t = w ++ t' ∧ (∀ c ∈ w, p c = true) ∧ ∀ c ∈ t'.head?, p c = false := by
  rw [consumed_eq_some, several_eq_some, and_assoc, ← consumed_many_iff, consumed_eq_some,
    Option.some.injEq]
  constructor
  · rintro ⟨hLess, hMany, rfl⟩
    refine ⟨fun hNil => ?_, hMany, rfl⟩
    have hLength := congrArg List.length hNil
    rw [List.length_take, List.length_nil] at hLength
    omega
  · rintro ⟨hNe, hMany, rfl⟩
    refine ⟨?_, hMany, rfl⟩
    have hPos := List.length_pos_iff.mpr hNe
    rw [List.length_take] at hPos
    omega

theorem iterate_of_none {g : Action Token Locals} {l : Locals} {t : List Token}
    (h : g l t = none) : iterate g l t = (l, t) := by
  rw [iterate, h]

theorem iterate_of_some {g : Action Token Locals} (hg : g.Shrinks) {l l' : Locals}
    {t t' : List Token} (h : g l t = some (l', t')) : iterate g l t = iterate g l' t' := by
  rw [iterate, h]
  exact if_pos (hg l t l' t' h)

theorem length_iterate_le (g : Action Token Locals) (l : Locals) (t : List Token) :
    (iterate g l t).2.length ≤ t.length := by
  fun_induction iterate g l t with
  | case1 => exact Nat.le_refl _
  | case2 l t l' t' _ hShorter ih => exact Nat.le_trans ih (Nat.le_of_lt hShorter)
  | case3 => exact Nat.le_refl _

theorem iterate_invariant {g : Action Token Locals} {I : Locals → Prop}
    (hStep : ∀ l t l' t', I l → g l t = some (l', t') → I l') {l : Locals} (h : I l)
    (t : List Token) : I (iterate g l t).1 := by
  fun_induction iterate g l t with
  | case1 => exact h
  | case2 l t l' t' hRound _ ih => exact ih (hStep l t l' t' h hRound)
  | case3 => exact h

theorem iterate_congr {g g' : Action Token Locals} {l : Locals} {t : List Token}
    (h : ∀ l t', t'.length ≤ t.length → g l t' = g' l t') : iterate g l t = iterate g' l t := by
  fun_induction iterate g l t with
  | case1 l t hg => exact (iterate_of_none ((h l t (Nat.le_refl _)).symm.trans hg)).symm
  | case2 l t l' t' hg hShorter ih =>
    have hRound : iterate g' l t = iterate g' l' t' := by
      rw [iterate, ← h l t (Nat.le_refl _), hg]
      exact if_pos hShorter
    exact (ih fun l₁ t₁ hLe => h l₁ t₁ (by omega)).trans hRound.symm
  | case3 l t l' t' hg hNot =>
    rw [iterate, ← h l t (Nat.le_refl _), hg]
    exact (if_neg hNot).symm

theorem iterate_map {g : Action Token Locals} {g' : Action Token Locals'} (hg : g.Shrinks)
    (proj : Locals → Locals')
    (h : ∀ l t, (g l t).map (fun p => (proj p.1, p.2)) = g' (proj l) t)
    (l : Locals) (t : List Token) :
    iterate g' (proj l) t = (proj (iterate g l t).1, (iterate g l t).2) := by
  fun_induction iterate g l t with
  | case1 l t hg' =>
    have hStep := h l t
    rw [hg'] at hStep
    exact iterate_of_none hStep.symm
  | case2 l t l' t' hg' hShorter ih =>
    have hStep := h l t
    rw [hg'] at hStep
    rw [iterate, ← hStep]
    exact (if_pos hShorter).trans ih
  | case3 l t l' t' hg' hNot => exact absurd (hg l t l' t' hg') hNot

theorem Action.Shrinks.of_map {g : Action Token Locals} {g' : Action Token Locals'}
    (hg' : g'.Shrinks) (proj : Locals → Locals')
    (h : ∀ l t, (g l t).map (fun p => (proj p.1, p.2)) = g' (proj l) t) : g.Shrinks := by
  intro l t l' t' hg
  apply hg' (proj l) t (proj l') t'
  rw [← h, hg]
  rfl

end Lemmas

end Peg
