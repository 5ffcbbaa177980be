import Mathlib.Logic.Basic

/-!
# Functions that return, throw or have no meaning

A function of a language with exceptions and undefined behaviour, as a value
that is missing where the behaviour is undefined. What a sequence of such
functions returns is what its parts return, and it is defined if they are.
-/

universe u

abbrev Throwing (ε α : Type u) := ExceptT ε Option α

namespace Throwing

variable {ε α β σ : Type u}

def Returns (x : Throwing ε α) (a : α) : Prop := x.run = some (.ok a)

def undefinedIfNone (x : Option α) : Throwing ε α := ExceptT.lift x

theorem returns_pure {a b : α} : Returns (pure a : Throwing ε α) b ↔ a = b := by
  simp [Returns]

theorem not_returns_throw {e : ε} {a : α} : ¬ Returns (throw e : Throwing ε α) a := by
  simp [Returns]

theorem returns_bind {x : Throwing ε α} {f : α → Throwing ε β} {b : β} :
    Returns (x >>= f) b ↔ ∃ a, Returns x a ∧ Returns (f a) b := by
  rw [Returns, ExceptT.run_bind]
  constructor
  · intro h
    obtain ⟨r, hr, hf⟩ := Option.bind_eq_some_iff.mp h
    cases r with
    | ok a => exact ⟨a, hr, hf⟩
    | error e => cases hf
  · rintro ⟨a, ha, hb⟩
    rw [show x.run = some (.ok a) from ha]
    exact hb

theorem returns_liftExcept {x : Except ε α} {a : α} :
    Returns (liftExcept x : Throwing ε α) a ↔ x = .ok a := by
  cases x <;> simp [Returns, liftExcept]

theorem returns_undefinedIfNone {x : Option α} {a : α} :
    Returns (undefinedIfNone x : Throwing ε α) a ↔ x = some a := by
  cases x <;> simp [Returns, undefinedIfNone]

theorem returns_adapt {ε' : Type u} {x : Throwing ε α} {f : ε → ε'} {a : α} :
    Returns (x.adapt f : Throwing ε' α) a ↔ Returns x a := by
  constructor
  · intro h
    have hMap : x.run.map (Except.mapError f) = some (.ok a) := h
    obtain ⟨r, hr, hOk⟩ := Option.map_eq_some_iff.mp hMap
    cases r with
    | ok a' => exact hr.trans (congrArg some (congrArg Except.ok (Except.ok.inj hOk)))
    | error e => cases hOk
  · intro h
    have hMap : x.run.map (Except.mapError f) = some (.ok a) :=
      Option.map_eq_some_iff.mpr ⟨_, h, rfl⟩
    exact hMap

theorem returns_foldlM_cons {f : σ → α → Throwing ε σ} {s s' : σ} {x : α} {l : List α} :
    Returns ((x :: l).foldlM f s) s' ↔ ∃ t, Returns (f s x) t ∧ Returns (l.foldlM f t) s' := by
  rw [List.foldlM_cons, returns_bind]

def Defined (x : Throwing ε α) : Prop := x.run ≠ none

theorem defined_pure (a : α) : Defined (pure a : Throwing ε α) := Option.some_ne_none _

theorem defined_liftExcept (x : Except ε α) : Defined (liftExcept x : Throwing ε α) := by
  cases x <;> exact Option.some_ne_none _

theorem defined_undefinedIfNone {x : Option α} :
    Defined (undefinedIfNone x : Throwing ε α) ↔ x ≠ none := by
  cases x <;> simp [Defined, undefinedIfNone]

theorem defined_bind {x : Throwing ε α} {f : α → Throwing ε β} :
    Defined (x >>= f) ↔ Defined x ∧ ∀ a, Returns x a → Defined (f a) := by
  rw [Defined, ExceptT.run_bind]
  cases h : x.run with
  | none => simp [Defined, h]
  | some r =>
    cases r with
    | ok a => simp [Defined, Returns, h]
    | error e => simp [Defined, Returns, h]

theorem defined_foldlM {f : σ → α → Throwing ε σ} (hStep : ∀ s x, Defined (f s x)) (l : List α)
    (s : σ) : Defined (l.foldlM f s) := by
  induction l generalizing s with
  | nil => exact defined_pure s
  | cons x l ih =>
    rw [List.foldlM_cons]
    exact defined_bind.mpr ⟨hStep s x, fun t _ => ih t⟩

end Throwing
