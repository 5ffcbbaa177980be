import Mathlib.Logic.Basic
import Mathlib.Data.List.Basic
import Mathlib.Tactic.SplitIfs
import Henson.Library.Peg
import Henson.Parser.Combinators
import Henson.Parser.Packrat

/-!
# Nonterminals with variables

The combinators that bind, capture and assign variables, the repetitions over
them, and a memoized nonterminal as a whole. An alternative may start from the
variables that a failed one has left, so choices and repetitions are over
combinators that keep every variable when they fail.
-/

namespace Henson.Parser

open Peg Combinator

variable {Value Locals T K : Type} {M : Meaning Value} {n : Nat} {I J : Locals → Prop}
variable {keep : Locals → K} {c : Combinator Value Locals} {g g' : Action Char Locals}

theorem Recognizes.implements {r : Recognizer Char} (h : Recognizes M c r) :
    Implements M n I keep c (quiet r) where
  success l s l' t _ hs _ hq := by
    obtain ⟨t', hr, hEq⟩ := Option.map_eq_some_iff.mp hq
    obtain ⟨rfl, rfl⟩ := Prod.mk.inj hEq
    exact h.success l s t' hs hr
  failure l s _ hs _ hq := by
    obtain ⟨s', hc, hLeads⟩ := h.failure l s hs (Option.map_eq_none_iff.mp hq)
    exact ⟨l, s', hc, rfl, hLeads⟩

namespace Implements

theorem of_keep_all (h : Implements M n I (fun l => l) c g) : Implements M n I keep c g where
  success := h.success
  failure l s hI hs hn hg := by
    obtain ⟨l', s', hc, hKeep, hLeads⟩ := h.failure l s hI hs hn hg
    exact ⟨l', s', hc, congrArg keep hKeep, hLeads⟩

theorem action (u : Locals → Locals) :
    Implements M n I keep (action u : Combinator Value Locals) (update u) where
  success l s l' t _ hs _ hu := by
    obtain ⟨rfl, rfl⟩ := Prod.mk.inj (Option.some.inj hu)
    exact ⟨s, rfl, Leads.refl hs⟩
  failure l s _ _ _ hu := by cases hu

theorem bind {x : Var Locals T} {P : T → Prop} {f : Combinator Value T} {r : Reader Char T}
    (h : Reads M n P f r) (hP : ∀ l, I l → P (x.get l)) :
    Implements M n I (fun l => l) (Combinator.bind x f) (assign x.set r) where
  success l s l' t hI hs hn ha := by
    obtain ⟨⟨v, t'⟩, hr, hEq⟩ := Option.map_eq_some_iff.mp ha
    obtain ⟨rfl, rfl⟩ := Prod.mk.inj hEq
    obtain ⟨s', hf, hLeads⟩ := h.success (x.get l) s v t' (hP l hI) hs hn (by rw [assign, hr]; rfl)
    exact ⟨s', by simp [Combinator.bind, hf], hLeads⟩
  failure l s hI hs hn ha := by
    have hr : r s.rest = none := Option.map_eq_none_iff.mp ha
    obtain ⟨v, s', hf, hKeep, hLeads⟩ :=
      h.failure (x.get l) s (hP l hI) hs hn (Option.map_eq_none_iff.mpr hr)
    refine ⟨x.set v l, s', by simp [Combinator.bind, hf], ?_, hLeads⟩
    rw [hKeep]
    exact x.set_get l

theorem capture {x : Var Locals (List Char)} {r : Recognizer Char} (h : Recognizes M c r) :
    Implements M n I (fun l => l) (capture x c) (assign x.set (consumed r)) where
  success l s l' t _ hs _ ha := by
    obtain ⟨⟨v, t'⟩, hv, hEq⟩ := Option.map_eq_some_iff.mp ha
    obtain ⟨rfl, rfl⟩ := Prod.mk.inj hEq
    obtain ⟨t, hr, hEq⟩ := Option.map_eq_some_iff.mp hv
    obtain ⟨rfl, rfl⟩ := Prod.mk.inj hEq
    obtain ⟨s', hc, hLeads⟩ := h.success l s t hs hr
    have hString : s'.string s.pos (s'.pos - s.pos) =
        s.rest.take (s.rest.length - t.length) := by
      have hEnd := hLeads.sound.pos_le
      have hStart := hLeads.pos_le
      rw [hLeads.text_eq] at hEnd
      rw [State.string, hLeads.text_eq, ← hLeads.rest_eq, length_rest, length_rest, hLeads.text_eq]
      exact congrArg (List.take · s.rest) (by omega)
    exact ⟨s', by simp [Combinator.capture, hc, hString], hLeads⟩
  failure l s _ hs _ ha := by
    have hr : r s.rest = none := Option.map_eq_none_iff.mp (Option.map_eq_none_iff.mp ha)
    obtain ⟨s', hc, hLeads⟩ := h.failure l s hs hr
    exact ⟨l, s', by simp [Combinator.capture, hc], rfl, hLeads⟩

theorem sequence_one (h : Implements M n I keep c g) :
    Implements M n I keep (sequence [c]) g where
  success l s l' t hI hs hn hg := by
    obtain ⟨s', hc, hLeads⟩ := h.success l s l' t hI hs hn hg
    exact ⟨s', by simp [Combinator.sequence, chain, hc], hLeads⟩
  failure l s hI hs hn hg := by
    obtain ⟨l', s', hc, hKeep, hLeads⟩ := h.failure l s hI hs hn hg
    exact ⟨l', _, sequence_of_false hc, hKeep, hLeads.back hs⟩

theorem sequence_cons {m : Nat} {fs : List (Combinator Value Locals)}
    (h : Implements M n I keep c g)
    (hNext : ∀ l t l' t', I l → g l t = some (l', t') → J l' ∧ keep l' = keep l)
    (hBound : ∀ l t l' t', g l t = some (l', t') → t'.length ≤ t.length → t.length < n →
      t'.length < m)
    (h' : Implements M m J keep (sequence fs) g') :
    Implements M n I keep (sequence (c :: fs)) (g.andThen g') where
  success l s l' t hI hs hn hg := by
    obtain ⟨⟨l₁, t₁⟩, hFirst, hSecond⟩ := Option.bind_eq_some_iff.mp hg
    obtain ⟨s₁, hc, hLeads⟩ := h.success l s l₁ t₁ hI hs hn hFirst
    have hm := hBound _ _ _ _ hFirst hLeads.length_le hn
    rw [← hLeads.rest_eq] at hSecond hm
    obtain ⟨s₂, hc', hLeads'⟩ :=
      h'.success l₁ s₁ l' t (hNext _ _ _ _ hI hFirst).1 hLeads.sound hm hSecond
    exact ⟨s₂, sequence_of_true hc hc', hLeads.trans hLeads'⟩
  failure l s hI hs hn hg := by
    cases hFirst : g l s.rest with
    | none =>
      obtain ⟨l₁, s₁, hc, hKeep, hLeads⟩ := h.failure l s hI hs hn hFirst
      exact ⟨l₁, _, sequence_of_false hc, hKeep, hLeads.back hs⟩
    | some p =>
      obtain ⟨l₁, t₁⟩ := p
      obtain ⟨s₁, hc, hLeads⟩ := h.success l s l₁ t₁ hI hs hn hFirst
      obtain ⟨hJ, hKeep⟩ := hNext _ _ _ _ hI hFirst
      have hm := hBound _ _ _ _ hFirst hLeads.length_le hn
      rw [Action.andThen, hFirst] at hg
      change g' l₁ t₁ = none at hg
      rw [← hLeads.rest_eq] at hg hm
      obtain ⟨l₂, s₂, hc', hKeep', hLeads'⟩ := h'.failure l₁ s₁ hJ hLeads.sound hm hg
      exact ⟨l₂, _, sequence_of_true hc hc', hKeep'.trans hKeep, (hLeads.trans hLeads').back hs⟩

theorem quiet_cons {r : Recognizer Char} {fs : List (Combinator Value Locals)}
    (h : Recognizes M c r) (h' : Implements M n I keep (sequence fs) g') :
    Implements M n I keep (sequence (c :: fs)) (Action.andThen (quiet r) g') := by
  refine sequence_cons h.implements (fun l t l' t' hI hq => ?_)
    (fun _ _ _ _ _ hLe hn => Nat.lt_of_le_of_lt hLe hn) h'
  obtain ⟨u, -, hEq⟩ := Option.map_eq_some_iff.mp hq
  obtain ⟨rfl, rfl⟩ := Prod.mk.inj hEq
  exact ⟨hI, rfl⟩

theorem quiet_cons_of_shrinks {r : Recognizer Char} {fs : List (Combinator Value Locals)}
    (h : Recognizes M c r) (hr : Shrinks r) (h' : Implements M n I keep (sequence fs) g') :
    Implements M (n + 1) I keep (sequence (c :: fs)) (Action.andThen (quiet r) g') := by
  refine sequence_cons h.implements (fun l t l' t' hI hq => ?_) (fun l t l' t' hq _ hn => ?_) h'
  · obtain ⟨u, -, hEq⟩ := Option.map_eq_some_iff.mp hq
    obtain ⟨rfl, rfl⟩ := Prod.mk.inj hEq
    exact ⟨hI, rfl⟩
  · obtain ⟨u, hu, hEq⟩ := Option.map_eq_some_iff.mp hq
    obtain ⟨rfl, rfl⟩ := Prod.mk.inj hEq
    have hLt := hr t u hu
    omega

theorem assign_cons {x : Var Locals T} {r : Reader Char T}
    {fs : List (Combinator Value Locals)}
    (h : Implements M n I (fun l => l) c (assign x.set r)) (hJ : ∀ v l, I l → J (x.set v l))
    (hKeep : ∀ v l, keep (x.set v l) = keep l)
    (h' : Implements M n J keep (sequence fs) g') :
    Implements M n I keep (sequence (c :: fs)) (Action.andThen (assign x.set r) g') := by
  refine sequence_cons h.of_keep_all (fun l t l' t' hI ha => ?_)
    (fun _ _ _ _ _ hLe hn => Nat.lt_of_le_of_lt hLe hn) h'
  obtain ⟨p, -, hEq⟩ := Option.map_eq_some_iff.mp ha
  obtain ⟨rfl, rfl⟩ := Prod.mk.inj hEq
  exact ⟨hJ _ _ hI, hKeep _ _⟩

theorem sequence_action (h : Implements M n I (fun l => l) c g) (u : Locals → Locals) :
    Implements M n I (fun l => l) (sequence [c, Combinator.action u]) (g.andThen (update u)) where
  success l s l' t hI hs hn hg := by
    obtain ⟨⟨l₁, t₁⟩, hFirst, hUpdate⟩ := Option.bind_eq_some_iff.mp hg
    obtain ⟨rfl, rfl⟩ := Prod.mk.inj (Option.some.inj hUpdate)
    obtain ⟨s₁, hc, hLeads⟩ := h.success l s l₁ _ hI hs hn hFirst
    exact ⟨s₁, by simp [Combinator.sequence, chain, hc, Combinator.action], hLeads⟩
  failure l s hI hs hn hg := by
    have hFirst : g l s.rest = none := by
      cases hg' : g l s.rest with
      | none => rfl
      | some p => simp [Action.andThen, hg', update] at hg
    obtain ⟨l₁, s₁, hc, hKeep, hLeads⟩ := h.failure l s hI hs hn hFirst
    exact ⟨l₁, _, sequence_of_false hc, hKeep, hLeads.back hs⟩

theorem choice_one (h : Implements M n I keep c g) : Implements M n I keep (choice [c]) g where
  success l s l' t hI hs hn hg := by
    obtain ⟨s', hc, hLeads⟩ := h.success l s l' t hI hs hn hg
    exact ⟨s', choice_of_true hc, hLeads⟩
  failure l s hI hs hn hg := by
    obtain ⟨l', s', hc, hKeep, hLeads⟩ := h.failure l s hI hs hn hg
    exact ⟨l', s', choice_of_false hc, hKeep, hLeads⟩

theorem choice_cons {fs : List (Combinator Value Locals)}
    (h : Implements M n I (fun l => l) c g) (h' : Implements M n I keep (choice fs) g') :
    Implements M n I keep (choice (c :: fs)) (g.orElse g') where
  success l s l' t hI hs hn hg := by
    cases hFirst : g l s.rest with
    | some p =>
      rw [Action.orElse, hFirst] at hg
      obtain rfl := Option.some.inj hg
      obtain ⟨s₁, hc, hLeads⟩ := h.success l s l' t hI hs hn hFirst
      exact ⟨s₁, choice_of_true hc, hLeads⟩
    | none =>
      obtain ⟨l₁, s₁, hc, hKeep, hLeads⟩ := h.failure l s hI hs hn hFirst
      obtain rfl : l₁ = l := hKeep
      rw [Action.orElse, hFirst] at hg
      change g' l₁ s.rest = some (l', t) at hg
      rw [← hLeads.rest_eq] at hg hn
      obtain ⟨s₂, hc', hLeads'⟩ := h'.success l₁ s₁ l' t hI hLeads.sound hn hg
      exact ⟨s₂, (choice_of_false hc).trans hc', hLeads.trans hLeads'⟩
  failure l s hI hs hn hg := by
    obtain ⟨hFirst, hSecond⟩ := Option.or_eq_none_iff.mp hg
    obtain ⟨l₁, s₁, hc, hKeep, hLeads⟩ := h.failure l s hI hs hn hFirst
    obtain rfl : l₁ = l := hKeep
    rw [← hLeads.rest_eq] at hSecond hn
    obtain ⟨l₂, s₂, hc', hKeep', hLeads'⟩ := h'.failure l₁ s₁ hI hLeads.sound hn hSecond
    exact ⟨l₂, s₂, (choice_of_false hc).trans hc', hKeep', hLeads.rest_eq ▸ hLeads.trans hLeads'⟩

/-- The loop ends, since every round takes a character. -/
theorem loop_spec (h : Implements M n (fun _ => True) (fun l => l) c g) (hg : g.Shrinks)
    (rounds : Nat) (l : Locals) (s : State Value) (hs : s.Sound M) (hn : s.rest.length < n)
    (hRounds : s.rest.length < rounds) :
    ∃ s', loop c rounds l s = some (true, (iterate g l s.rest).1, s') ∧
      Leads M s s' (iterate g l s.rest).2 := by
  induction rounds generalizing l s with
  | zero => cases hRounds
  | succ rounds ih =>
    cases hFirst : g l s.rest with
    | none =>
      obtain ⟨l₁, s₁, hc, hKeep, hLeads⟩ := h.failure l s trivial hs hn hFirst
      obtain rfl : l₁ = l := hKeep
      rw [iterate_of_none hFirst]
      exact ⟨s₁, loop_of_false hc, hLeads⟩
    | some p =>
      obtain ⟨l₁, t₁⟩ := p
      obtain ⟨s₁, hc, hLeads⟩ := h.success l s l₁ t₁ trivial hs hn hFirst
      have hShorter := hg _ _ _ _ hFirst
      rw [iterate_of_some hg hFirst, ← hLeads.rest_eq]
      rw [← hLeads.rest_eq] at hShorter
      obtain ⟨s₂, hLoop, hLeads'⟩ := ih l₁ s₁ hLeads.sound (by omega) (by omega)
      exact ⟨s₂, (loop_of_true hc).trans hLoop, hLeads.trans hLeads'⟩

theorem many (h : Implements M n (fun _ => True) (fun l => l) c g) (hg : g.Shrinks) :
    Implements M n (fun _ => True) keep (many c) (fun l t => some (iterate g l t)) where
  success l s l' t _ hs hn hMany := by
    obtain ⟨s', hLoop, hLeads⟩ := loop_spec h hg (rounds s) l s hs hn
      (by rw [length_rest, rounds]; exact Nat.lt_succ_self _)
    rw [Option.some.inj hMany] at hLoop hLeads
    exact ⟨s', hLoop, hLeads⟩
  failure l s _ _ _ hMany := by cases hMany

theorem some (h : Implements M n (fun _ => True) (fun l => l) c g) (hg : g.Shrinks) :
    Implements M n (fun _ => True) (fun l => l) (Combinator.some c)
      (fun l t => (g l t).map fun p => iterate g p.1 p.2) where
  success l s l' t _ hs hn hSome := by
    obtain ⟨⟨l₁, t₁⟩, hFirst, hIterate⟩ := Option.map_eq_some_iff.mp hSome
    obtain ⟨s₁, hc, hLeads⟩ := h.success l s l₁ t₁ trivial hs hn hFirst
    have hBound := hLeads.length_le
    rw [← hLeads.rest_eq] at hBound
    obtain ⟨s', hLoop, hLeads'⟩ := loop_spec h hg (rounds s₁) l₁ s₁ hLeads.sound
      (Nat.lt_of_le_of_lt hBound hn) (by rw [length_rest, rounds]; exact Nat.lt_succ_self _)
    rw [hLeads.rest_eq, hIterate] at hLoop hLeads'
    exact ⟨s', by simp [Combinator.some, hc, hLoop], hLeads.trans hLeads'⟩
  failure l s _ hs hn hSome := by
    obtain ⟨l₁, s₁, hc, hKeep, hLeads⟩ :=
      h.failure l s trivial hs hn (Option.map_eq_none_iff.mp hSome)
    exact ⟨l₁, s₁, by simp [Combinator.some, hc], hKeep, hLeads⟩

end Implements

theorem run_memoizeValue [Held Value T] {key : Nat} {x : Var Locals T} (locals : T → Locals) (v : T)
    {ok : Bool} {l : Locals} {s s' : State Value} (hMemo : s.memo key = none)
    (hRun : c (locals v) s = Option.some (ok, l, s')) :
    ∃ m, withLocals locals x (memoizeValue key x c) v s =
      Option.some (ok, x.get l, s'.setMemo s.pos key m) := by
  refine ⟨{ success := ok, stop := s'.pos
            result := if ok then Option.some (Held.hold (x.get l)) else none }, ?_⟩
  simp [withLocals, memoizeValue, hMemo, hRun]

/-- A memoized body reads what it computes without the table: an entry has the value that the
body would give, and a fresh value is what the body gave. -/
theorem reads_memoizeValue [Held Value T] {key : Nat} {x : Var Locals T} {locals : T → Locals}
    {P : T → Prop} {r : Reader Char T} (hBody : Implements M n I x.get c g)
    (hLocals : ∀ v, P v → I (locals v)) (hGet : ∀ v, x.get (locals v) = v)
    (hRead : ∀ v t, P v → (g (locals v) t).map (fun p => (x.get p.1, p.2)) = r t)
    (hM : ∀ t, M key t = (r t).map fun p => (some (Held.hold p.1), p.2)) :
    Reads M n P (withLocals locals x (memoizeValue key x c)) r where
  success v s v' t hP hs hn ha := by
    obtain ⟨p, hr, hEq⟩ := Option.map_eq_some_iff.mp ha
    obtain ⟨rfl, rfl⟩ := Prod.mk.inj hEq
    have hKey : M key s.rest = some (some (Held.hold p.1), p.2) := by rw [hM, hr]; rfl
    cases hMemo : s.memo key with
    | some m =>
      obtain ⟨hSuccess, hResult, -, hLeads⟩ := leads_memo hs hMemo hKey
      have hValue := hResult _ rfl
      exact ⟨_, by simp [withLocals, memoizeValue, hMemo, hSuccess, bindHeld, hValue,
        Held.held_hold, x.get_set], hLeads⟩
    | none =>
      have hBodyRead := hRead v s.rest hP
      rw [hr] at hBodyRead
      obtain ⟨⟨l', t'⟩, hg, hEq⟩ := Option.map_eq_some_iff.mp hBodyRead
      obtain ⟨s', hc, hLeads⟩ := hBody.success (locals v) s l' t' (hLocals v hP) hs hn hg
      obtain rfl := hEq
      have hAgrees : Agrees M s.text s.pos key
          { success := true, stop := s'.pos, result := Option.some (Held.hold (x.get l')) } :=
        hLeads.agrees hKey fun _ h => h
      exact ⟨_, by simp [withLocals, memoizeValue, hMemo, hc], hLeads.setMemo hAgrees⟩
  failure v s hP hs hn ha := by
    have hr : r s.rest = none := Option.map_eq_none_iff.mp ha
    have hKey : M key s.rest = none := by rw [hM, hr]; rfl
    cases hMemo : s.memo key with
    | some m =>
      have hSuccess := success_memo_of_none hs hMemo hKey
      exact ⟨v, s, by simp [withLocals, memoizeValue, hMemo, hSuccess, hGet], rfl, Leads.refl hs⟩
    | none =>
      have hBodyRead := hRead v s.rest hP
      rw [hr] at hBodyRead
      obtain ⟨l', s', hc, hKeep, hLeads⟩ := hBody.failure (locals v) s (hLocals v hP) hs hn
        (Option.map_eq_none_iff.mp hBodyRead)
      have hAgrees : Agrees M s.text s.pos key { success := false, stop := s'.pos } :=
        agrees_failure hKey
      exact ⟨v, _, by simp [withLocals, memoizeValue, hMemo, hc, hKeep, hGet], rfl,
        hLeads.setMemo hAgrees⟩

theorem withLocals_psVal (f : Combinator Value T) :
    withLocals (fun v => v) Var.psVal f = f := by
  funext v s
  cases h : f v s <;> simp [withLocals, Var.psVal, h]

theorem reads_memoizeValue_psVal [Held Value T] {key : Nat} {P : T → Prop}
    {c : Combinator Value T} {g : Action Char T} {r : Reader Char T}
    (hBody : Implements M n P (fun v => v) c g) (hRead : ∀ v t, P v → g v t = r t)
    (hM : ∀ t, M key t = (r t).map fun p => (some (Held.hold p.1), p.2)) :
    Reads M n P (memoizeValue key Var.psVal c) r := by
  rw [← withLocals_psVal (memoizeValue key Var.psVal c)]
  refine reads_memoizeValue hBody (fun _ h => h) (fun _ => rfl) (fun v t hP => ?_) hM
  rw [← hRead v t hP]
  exact Option.map_id'

theorem Reads.unbind [Inhabited T] {P : T → Prop} {f : Combinator Value T} {r : Reader Char T}
    (h : ∀ n, Reads M n P f r) (hP : P default) :
    Recognizes M (unbind f : Combinator Value Locals) (fun t => (r t).map Prod.snd) where
  success l s t hs hr := by
    obtain ⟨⟨v, t'⟩, hRead, rfl⟩ := Option.map_eq_some_iff.mp hr
    obtain ⟨s', hf, hLeads⟩ := (h _).success default s v t' hP hs (Nat.lt_succ_self _)
      (by rw [assign, hRead]; rfl)
    exact ⟨s', by simp [Combinator.unbind, hf], hLeads⟩
  failure l s hs hr := by
    have hRead : r s.rest = none := Option.map_eq_none_iff.mp hr
    obtain ⟨v, s', hf, -, hLeads⟩ := (h _).failure default s hP hs (Nat.lt_succ_self _)
      (Option.map_eq_none_iff.mpr hRead)
    exact ⟨s', by simp [Combinator.unbind, hf], hLeads⟩

end Henson.Parser
