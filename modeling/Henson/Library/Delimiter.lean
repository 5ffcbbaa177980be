import Mathlib.Data.List.Infix
import Henson.Library.Peg

/-!
# Reading in front of a delimiter

An expression that never reads a delimiter matches or fails in front of one
whatever comes behind it. Sequences, choices and repetitions of such expressions
are of this kind again.
-/

universe u v

namespace Peg

variable {Token : Type u} {α : Type v} {d : Token}

def Before (d : Token) (r : Recognizer Token) : Prop :=
  ∀ v, (∀ x, r (v ++ d :: x) = none) ∨ ∃ v', v' <:+ v ∧ ∀ x, r (v ++ d :: x) = some (v' ++ d :: x)

def ReadsBefore (d : Token) (r : Reader Token α) : Prop :=
  ∀ v, (∀ x, r (v ++ d :: x) = none) ∨
    ∃ a v', v' <:+ v ∧ ∀ x, r (v ++ d :: x) = some (a, v' ++ d :: x)

theorem before_satisfy {p : Token → Bool} (h : p d = false) : Before d (satisfy p) := by
  intro v
  cases v with
  | nil => exact .inl fun x => if_neg (by simp [h])
  | cons c v =>
    cases hc : p c with
    | true => exact .inr ⟨v, List.suffix_cons c v, fun x => if_pos hc⟩
    | false => exact .inl fun x => if_neg (by simp [hc])

theorem before_word [DecidableEq Token] {w : List Token} (h : d ∉ w) : Before d (word w) := by
  induction w with
  | nil => exact fun v => .inr ⟨v, List.suffix_rfl, fun x => rfl⟩
  | cons a w ih =>
    rw [List.mem_cons, not_or] at h
    rintro (_ | ⟨c, v⟩)
    · exact .inl fun x => if_neg (Ne.symm h.1)
    · by_cases hSame : a = c
      · have hWord (x : List Token) : word (a :: w) (c :: v ++ d :: x) = word w (v ++ d :: x) :=
          if_pos hSame
        rcases ih h.2 v with hNone | ⟨v', hSuffix, hSome⟩
        · exact .inl fun x => (hWord x).trans (hNone x)
        · exact .inr ⟨v', hSuffix.trans (List.suffix_cons c v), fun x => (hWord x).trans (hSome x)⟩
      · exact .inl fun x => if_neg hSame

theorem Before.andThen {r r' : Recognizer Token} (h : Before d r) (h' : Before d r') :
    Before d (andThen r r') := by
  intro v
  rcases h v with hNone | ⟨v', hSuffix, hSome⟩
  · exact .inl fun x => by rw [Peg.andThen, hNone, Option.bind_none]
  · have hNext (x : List Token) : Peg.andThen r r' (v ++ d :: x) = r' (v' ++ d :: x) := by
      rw [Peg.andThen, hSome, Option.bind_some]
    rcases h' v' with hNone' | ⟨v'', hSuffix', hSome'⟩
    · exact .inl fun x => (hNext x).trans (hNone' x)
    · exact .inr ⟨v'', hSuffix'.trans hSuffix, fun x => (hNext x).trans (hSome' x)⟩

theorem Before.orElse {r r' : Recognizer Token} (h : Before d r) (h' : Before d r') :
    Before d (orElse r r') := by
  intro v
  rcases h v with hNone | ⟨v', hSuffix, hSome⟩
  · have hNext (x : List Token) : Peg.orElse r r' (v ++ d :: x) = r' (v ++ d :: x) := by
      rw [Peg.orElse, hNone, Option.none_or]
    rcases h' v with hNone' | ⟨v', hSuffix', hSome'⟩
    · exact .inl fun x => (hNext x).trans (hNone' x)
    · exact .inr ⟨v', hSuffix', fun x => (hNext x).trans (hSome' x)⟩
  · exact .inr ⟨v', hSuffix, fun x => by rw [Peg.orElse, hSome, Option.some_or]⟩

theorem Before.notAhead {r : Recognizer Token} (h : Before d r) : Before d (notAhead r) := by
  intro v
  rcases h v with hNone | ⟨v', -, hSome⟩
  · exact .inr ⟨v, List.suffix_rfl, fun x => by simp [Peg.notAhead, hNone]⟩
  · exact .inl fun x => by simp [Peg.notAhead, hSome]

theorem Before.maybe {r : Recognizer Token} (h : Before d r) : Before d (maybe r) := by
  intro v
  rcases h v with hNone | ⟨v', hSuffix, hSome⟩
  · exact .inr ⟨v, List.suffix_rfl, fun x => by simp [Peg.maybe, hNone]⟩
  · exact .inr ⟨v', hSuffix, fun x => by simp [Peg.maybe, hSome]⟩

theorem Before.many {r : Recognizer Token} (h : Before d r) (hr : Shrinks r) (v : List Token) :
    ∃ v', v' <:+ v ∧ ∀ x, many r (v ++ d :: x) = v' ++ d :: x := by
  induction hLength : v.length using Nat.strongRecOn generalizing v with
  | ind n ih =>
    subst hLength
    rcases h v with hNone | ⟨v', hSuffix, hSome⟩
    · exact ⟨v, List.suffix_rfl, fun x => many_of_none (hNone x)⟩
    · have hShorter := hr _ _ (hSome [])
      simp only [List.length_append, List.length_cons] at hShorter
      obtain ⟨v'', hSuffix', hMany⟩ := ih v'.length (by omega) v' rfl
      exact ⟨v'', hSuffix'.trans hSuffix, fun x => (many_of_some hr (hSome x)).trans (hMany x)⟩

theorem Before.consumed {r : Recognizer Token} (h : Before d r) : ReadsBefore d (consumed r) := by
  intro v
  rcases h v with hNone | ⟨v', hSuffix, hSome⟩
  · exact .inl fun x => by rw [Peg.consumed, hNone, Option.map_none]
  · refine .inr ⟨v.take (v.length - v'.length), v', hSuffix, fun x => ?_⟩
    have hLe := hSuffix.length_le
    rw [consumed_eq_some]
    refine ⟨hSome x, ?_⟩
    rw [List.length_append, List.length_append, Nat.add_sub_add_right,
      List.take_append_of_le_length (Nat.sub_le _ _)]

theorem rel_bind {β γ δ ε : Type*} {R : β → γ → Prop} {S : δ → ε → Prop} {x : Option β}
    {y : Option γ} {f : β → Option δ} {g : γ → Option ε} (h : Option.Rel R x y)
    (hNext : ∀ a b, x = some a → y = some b → R a b → Option.Rel S (f a) (g b)) :
    Option.Rel S (x.bind f) (y.bind g) := by
  cases h with
  | none => exact .none
  | some hab => exact hNext _ _ rfl rfl hab

theorem rel_or {β γ : Type*} {R : β → γ → Prop} {x x' : Option β} {y y' : Option γ}
    (h : Option.Rel R x y) (h' : Option.Rel R x' y') : Option.Rel R (x.or x') (y.or y') := by
  cases h with
  | none => rwa [Option.none_or, Option.none_or]
  | some hab => exact .some hab

theorem rel_map {β γ δ ε : Type*} {R : β → γ → Prop} {S : δ → ε → Prop} {x : Option β}
    {y : Option γ} {f : β → δ} {g : γ → ε} (h : Option.Rel R x y)
    (hNext : ∀ a b, R a b → S (f a) (g b)) : Option.Rel S (x.map f) (y.map g) := by
  cases h with
  | none => exact .none
  | some hab => exact .some (hNext _ _ hab)

theorem rel_mono {β γ : Type*} {R S : β → γ → Prop} {x : Option β} {y : Option γ}
    (h : Option.Rel R x y) (hMono : ∀ a b, R a b → S a b) : Option.Rel S x y := by
  cases h with
  | none => exact .none
  | some hab => exact .some (hMono _ _ hab)

theorem rel_refl {β : Type*} {R : β → β → Prop} (h : ∀ a, R a a) (x : Option β) :
    Option.Rel R x x := by
  cases x with
  | none => exact .none
  | some a => exact .some (h a)

/-- Both runs fail, or they read the same value and leave texts in the relation `R`. -/
def Agree (R : List Token → List Token → Prop) (x y : Option (α × List Token)) : Prop :=
  Option.Rel (fun p q => p.1 = q.1 ∧ R p.2 q.2) x y

end Peg
