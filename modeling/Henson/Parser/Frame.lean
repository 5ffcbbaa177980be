import Henson.Parser.Nonterminal

/-!
# Memoization ids that a combinator leaves alone

What a memoized rule gives may depend on the variables it starts from, if it does
not assign all of them. Its entries then say nothing about another run of it. No
such entry is read as long as the rule is only run where none of its entries is.
-/

namespace Henson.Parser

open Peg Combinator

variable {Value Locals T : Type} {key : Nat}

def Leaves (key : Nat) (c : Combinator Value Locals) : Prop :=
  ∀ l s ok l' s', c l s = some (ok, l', s') → ∀ p, s'.memoTable p key = s.memoTable p key

namespace Leaves

variable {c : Combinator Value Locals} {fs : List (Combinator Value Locals)}

theorem literal (a : Char) : Leaves key (Combinator.literal a : Combinator Value Locals) := by
  intro l s ok l' s' h p
  rw [Combinator.literal] at h
  split at h <;> cases h <;> rfl

theorem any : Leaves key (Combinator.any : Combinator Value Locals) := by
  intro l s ok l' s' h p
  rw [Combinator.any] at h
  split at h <;> cases h <;> rfl

theorem between (a b : Char) :
    Leaves key (Combinator.between a b : Combinator Value Locals) := by
  intro l s ok l' s' h p
  rw [Combinator.between] at h
  split at h <;> cases h <;> rfl

theorem action (u : Locals → Locals) :
    Leaves key (Combinator.action u : Combinator Value Locals) := by
  intro l s ok l' s' h p
  cases h
  rfl

theorem chain (h : ∀ f ∈ fs, Leaves key f) : Leaves key (Combinator.chain fs) := by
  induction fs with
  | nil =>
    intro l s ok l' s' hRun p
    cases hRun
    rfl
  | cons f fs ih =>
    obtain ⟨hf, hfs⟩ := List.forall_mem_cons.mp h
    intro l s ok l' s' hRun p
    obtain ⟨⟨ok₁, l₁, s₁⟩, hFirst, hRest⟩ := Option.bind_eq_some_iff.mp hRun
    have hTable := hf _ _ _ _ _ hFirst p
    cases ok₁ with
    | true => exact (ih hfs _ _ _ _ _ hRest p).trans hTable
    | false =>
      cases hRest
      exact hTable

theorem sequence (h : ∀ f ∈ fs, Leaves key f) : Leaves key (Combinator.sequence fs) := by
  intro l s ok l' s' hRun p
  obtain ⟨⟨ok₁, l₁, s₁⟩, hChain, hEq⟩ := Option.bind_eq_some_iff.mp hRun
  have hTable := chain h _ _ _ _ _ hChain p
  cases ok₁ <;> cases hEq <;> exact hTable

theorem choice (h : ∀ f ∈ fs, Leaves key f) : Leaves key (Combinator.choice fs) := by
  induction fs with
  | nil =>
    intro l s ok l' s' hRun p
    cases hRun
    rfl
  | cons f fs ih =>
    obtain ⟨hf, hfs⟩ := List.forall_mem_cons.mp h
    intro l s ok l' s' hRun p
    obtain ⟨⟨ok₁, l₁, s₁⟩, hFirst, hRest⟩ := Option.bind_eq_some_iff.mp hRun
    have hTable := hf _ _ _ _ _ hFirst p
    cases ok₁ with
    | true =>
      cases hRest
      exact hTable
    | false => exact (ih hfs _ _ _ _ _ hRest p).trans hTable

theorem option (h : Leaves key c) : Leaves key (Combinator.option c) := by
  intro l s ok l' s' hRun p
  obtain ⟨⟨ok₁, l₁, s₁⟩, hc, hEq⟩ := Option.bind_eq_some_iff.mp hRun
  cases hEq
  exact h _ _ _ _ _ hc p

theorem lookNot (h : Leaves key c) : Leaves key (Combinator.lookNot c) := by
  intro l s ok l' s' hRun p
  obtain ⟨⟨ok₁, l₁, s₁⟩, hc, hEq⟩ := Option.bind_eq_some_iff.mp hRun
  have hTable := h _ _ _ _ _ hc p
  cases ok₁ <;> cases hEq <;> exact hTable

theorem bind {x : Var Locals T} {f : Combinator Value T} (h : Leaves key f) :
    Leaves key (Combinator.bind x f) := by
  intro l s ok l' s' hRun p
  obtain ⟨⟨ok₁, v, s₁⟩, hf, hEq⟩ := Option.bind_eq_some_iff.mp hRun
  cases hEq
  exact h _ _ _ _ _ hf p

theorem capture {x : Var Locals (List Char)} (h : Leaves key c) :
    Leaves key (Combinator.capture x c) := by
  intro l s ok l' s' hRun p
  obtain ⟨⟨ok₁, l₁, s₁⟩, hc, hEq⟩ := Option.bind_eq_some_iff.mp hRun
  cases hEq
  exact h _ _ _ _ _ hc p

theorem memoTable_setMemo {s : State Value} {p q key' : Nat} {m : Memo Value} (hKey : key ≠ key') :
    (s.setMemo q key' m).memoTable p key = s.memoTable p key :=
  if_neg fun h => hKey h.2

theorem memoize {key' : Nat} (hKey : key ≠ key') (h : Leaves key c) :
    Leaves key (Combinator.memoize key' c) := by
  intro l s ok l' s' hRun p
  rw [Combinator.memoize] at hRun
  split at hRun
  · cases hRun
    split <;> rfl
  · obtain ⟨⟨ok₁, l₁, s₁⟩, hc, hEq⟩ := Option.bind_eq_some_iff.mp hRun
    cases hEq
    exact (memoTable_setMemo hKey).trans (h _ _ _ _ _ hc p)

theorem memoizeValue [Held Value T] {x : Var Locals T} {key' : Nat} (hKey : key ≠ key')
    (h : Leaves key c) : Leaves key (Combinator.memoizeValue key' x c) := by
  intro l s ok l' s' hRun p
  rw [Combinator.memoizeValue] at hRun
  split at hRun
  · split at hRun <;> cases hRun <;> rfl
  · obtain ⟨⟨ok₁, l₁, s₁⟩, hc, hEq⟩ := Option.bind_eq_some_iff.mp hRun
    cases hEq
    exact (memoTable_setMemo hKey).trans (h _ _ _ _ _ hc p)

theorem manyMemoized {key' : Nat} (hKey : key ≠ key') (h : Leaves key c) {rounds : Nat}
    {l l' : Locals} {s s' : State Value} {m : Memo Value}
    (hRun : Combinator.manyMemoized key' c rounds l s = some (m, l', s')) (p : Nat) :
    s'.memoTable p key = s.memoTable p key := by
  induction rounds generalizing l s l' s' m with
  | zero => cases hRun
  | succ rounds ih =>
    rw [Combinator.manyMemoized] at hRun
    split at hRun
    · cases hRun
      split <;> rfl
    · obtain ⟨⟨ok₁, l₁, s₁⟩, hc, hRest⟩ := Option.bind_eq_some_iff.mp hRun
      have hTable := h _ _ _ _ _ hc p
      cases ok₁ with
      | true =>
        obtain ⟨⟨m₂, l₂, s₂⟩, hMany, hEq⟩ := Option.bind_eq_some_iff.mp hRest
        cases hEq
        exact (memoTable_setMemo hKey).trans ((ih hMany).trans hTable)
      | false =>
        cases hRest
        exact (memoTable_setMemo hKey).trans hTable

theorem memoizeMany {key' : Nat} (hKey : key ≠ key') (h : Leaves key c) :
    Leaves key (Combinator.memoizeMany key' c) := by
  intro l s ok l' s' hRun p
  obtain ⟨⟨m, l₁, s₁⟩, hMany, hEq⟩ := Option.bind_eq_some_iff.mp hRun
  cases hEq
  exact manyMemoized hKey h hMany p

theorem memoizeSome {key' : Nat} (hKey : key ≠ key') (h : Leaves key c) :
    Leaves key (Combinator.memoizeSome key' c) := by
  intro l s ok l' s' hRun p
  obtain ⟨⟨m, l₁, s₁⟩, hMany, hEq⟩ := Option.bind_eq_some_iff.mp hRun
  cases hEq
  exact manyMemoized hKey h hMany p

end Leaves

/-- No entry of `key` from the cursor on. -/
def State.Fresh (key : Nat) (s : State Value) : Prop :=
  ∀ p, s.pos ≤ p → s.memoTable p key = none

theorem fresh_initial (text : List Char) : ({ text := text } : State Value).Fresh key :=
  fun _ _ => rfl

theorem State.Fresh.of_leaves {c : Combinator Value Locals} {ok : Bool} {l l' : Locals}
    {s s' : State Value} (hFresh : s.Fresh key) (h : Leaves key c)
    (hRun : c l s = some (ok, l', s')) (hPos : s.pos ≤ s'.pos) : s'.Fresh key := by
  intro p hp
  rw [h _ _ _ _ _ hRun p]
  exact hFresh p (Nat.le_trans hPos hp)

/-- From a state without an entry of `key` ahead, the combinator does what `g` does. -/
structure ImplementsFresh (M : Meaning Value) (key : Nat) (c : Combinator Value Locals)
    (g : Action Char Locals) : Prop where
  success : ∀ l s l' t, s.Sound M → s.Fresh key → g l s.rest = some (l', t) →
    ∃ s', c l s = some (true, l', s') ∧ Leads M s s' t ∧ s'.Fresh key
  failure : ∀ l s, s.Sound M → s.Fresh key → g l s.rest = none →
    ∃ s', c l s = some (false, l, s') ∧ Leads M s s' s.rest

namespace ImplementsFresh

variable {M : Meaning Value} {c : Combinator Value Locals} {g g' : Action Char Locals}
  {fs : List (Combinator Value Locals)}

theorem choice_one (h : ImplementsFresh M key c g) : ImplementsFresh M key (choice [c]) g where
  success l s l' t hs hFresh hg := by
    obtain ⟨s', hc, hLeads⟩ := h.success l s l' t hs hFresh hg
    exact ⟨s', choice_of_true hc, hLeads⟩
  failure l s hs hFresh hg := by
    obtain ⟨s', hc, hLeads⟩ := h.failure l s hs hFresh hg
    exact ⟨s', choice_of_false hc, hLeads⟩

theorem choice_cons (h : ∀ n, Implements M n (fun _ => True) (fun l => l) c g)
    (hLeaves : Leaves key c) (h' : ImplementsFresh M key (choice fs) g') :
    ImplementsFresh M key (choice (c :: fs)) (g.orElse g') where
  success l s l' t hs hFresh hg := by
    cases hFirst : g l s.rest with
    | some p =>
      rw [Action.orElse, hFirst] at hg
      obtain rfl := Option.some.inj hg
      obtain ⟨s₁, hc, hLeads⟩ :=
        (h _).success l s l' t trivial hs (Nat.lt_succ_self _) hFirst
      exact ⟨s₁, choice_of_true hc, hLeads, hFresh.of_leaves hLeaves hc hLeads.pos_le⟩
    | none =>
      obtain ⟨l₁, s₁, hc, hKeep, hLeads⟩ :=
        (h _).failure l s trivial hs (Nat.lt_succ_self _) hFirst
      obtain rfl : l₁ = l := hKeep
      rw [Action.orElse, hFirst] at hg
      change g' l₁ s.rest = some (l', t) at hg
      rw [← hLeads.rest_eq] at hg
      obtain ⟨s₂, hc', hLeads', hFresh'⟩ := h'.success l₁ s₁ l' t hLeads.sound
        (hFresh.of_leaves hLeaves hc hLeads.pos_le) hg
      exact ⟨s₂, (choice_of_false hc).trans hc', hLeads.trans hLeads', hFresh'⟩
  failure l s hs hFresh hg := by
    obtain ⟨hFirst, hSecond⟩ := Option.or_eq_none_iff.mp hg
    obtain ⟨l₁, s₁, hc, hKeep, hLeads⟩ :=
      (h _).failure l s trivial hs (Nat.lt_succ_self _) hFirst
    obtain rfl : l₁ = l := hKeep
    rw [← hLeads.rest_eq] at hSecond
    obtain ⟨s₂, hc', hLeads'⟩ := h'.failure l₁ s₁ hLeads.sound
      (hFresh.of_leaves hLeaves hc hLeads.pos_le) hSecond
    exact ⟨s₂, (choice_of_false hc).trans hc', hLeads.rest_eq ▸ hLeads.trans hLeads'⟩

/-- A semantic action after a combinator never fails, so no variable is lost. -/
theorem sequence_action (h : ImplementsFresh M key c g) (u : Locals → Locals) :
    ImplementsFresh M key (Combinator.sequence [c, Combinator.action u]) (g.andThen (update u)) where
  success l s l' t hs hFresh hg := by
    obtain ⟨⟨l₁, t₁⟩, hFirst, hEq⟩ := Option.bind_eq_some_iff.mp hg
    obtain ⟨rfl, rfl⟩ := Prod.mk.inj (Option.some.inj hEq)
    obtain ⟨s', hc, hLeads, hFresh'⟩ := h.success l s l₁ t₁ hs hFresh hFirst
    refine ⟨s', ?_, hLeads, hFresh'⟩
    simp [Combinator.sequence, Combinator.chain, hc, Combinator.action]
  failure l s hs hFresh hg := by
    have hFirst : g l s.rest = none := by
      cases hFirst : g l s.rest with
      | none => rfl
      | some p =>
        rw [Action.andThen, hFirst] at hg
        cases hg
    obtain ⟨s', hc, hLeads⟩ := h.failure l s hs hFresh hFirst
    exact ⟨_, sequence_of_false hc, hLeads.back hs⟩

theorem bind {x : Var Locals T} {f : Combinator Value T} {r : Action Char T}
    (h : ImplementsFresh M key f r) :
    ImplementsFresh M key (Combinator.bind x f)
      (fun l t => (r (x.get l) t).map fun p => (x.set p.1 l, p.2)) where
  success l s l' t hs hFresh hg := by
    obtain ⟨⟨v, t'⟩, hr, hEq⟩ := Option.map_eq_some_iff.mp hg
    obtain ⟨rfl, rfl⟩ := Prod.mk.inj hEq
    obtain ⟨s', hf, hLeads⟩ := h.success (x.get l) s v t' hs hFresh hr
    exact ⟨s', by simp [Combinator.bind, hf], hLeads⟩
  failure l s hs hFresh hg := by
    obtain ⟨s', hf, hLeads⟩ :=
      h.failure (x.get l) s hs hFresh (Option.map_eq_none_iff.mp hg)
    exact ⟨s', by simp [Combinator.bind, hf, x.set_get], hLeads⟩

/-- A rule that is memoized under `key` itself. Its entries keep no value that is relied on. -/
theorem memoizeValue [Held Value T] {x : Var Locals T} {locals : T → Locals}
    (hBody : ∀ n, Implements M n (fun _ => True) x.get c g) (hLeaves : Leaves key c)
    (hShrinks : ∀ v t l' t', g (locals v) t = some (l', t') → t'.length < t.length)
    (hGet : ∀ v, x.get (locals v) = v)
    (hM : ∀ v t, M key t = (g (locals v) t).map fun p => (none, p.2)) :
    ImplementsFresh M key (withLocals locals x (Combinator.memoizeValue key x c))
      (fun v t => (g (locals v) t).map fun p => (x.get p.1, p.2)) where
  success v s v' t hs hFresh hg := by
    obtain ⟨⟨l', t'⟩, hRead, hEq⟩ := Option.map_eq_some_iff.mp hg
    obtain ⟨rfl, rfl⟩ := Prod.mk.inj hEq
    have hMemo : s.memo key = none := hFresh s.pos (Nat.le_refl _)
    have hKey : M key s.rest = some (none, t') := by rw [hM v, hRead]; rfl
    obtain ⟨s', hc, hLeads⟩ :=
      (hBody _).success (locals v) s l' t' trivial hs (Nat.lt_succ_self _) hRead
    have hAgrees : Agrees M s.text s.pos key
        { success := true, stop := s'.pos, result := some (Held.hold (x.get l')) } :=
      hLeads.agrees hKey fun _ h => by cases h
    refine ⟨_, by simp [withLocals, Combinator.memoizeValue, hMemo, hc], hLeads.setMemo hAgrees, ?_⟩
    -- the new entry is behind the cursor
    have hShorter := hShrinks v _ _ _ hRead
    have hRest := congrArg List.length hLeads.rest_eq
    rw [length_rest, hLeads.text_eq] at hRest
    rw [length_rest] at hShorter
    intro p hp
    have hNe : ¬ (p = s.pos ∧ key = key) := fun hSame => by
      change s'.pos ≤ p at hp
      omega
    apply (if_neg hNe).trans
    exact hFresh.of_leaves hLeaves hc hLeads.pos_le p hp
  failure v s hs hFresh hg := by
    have hRead : g (locals v) s.rest = none := Option.map_eq_none_iff.mp hg
    have hMemo : s.memo key = none := hFresh s.pos (Nat.le_refl _)
    have hKey : M key s.rest = none := by rw [hM v, hRead]; rfl
    obtain ⟨l', s', hc, hKeep, hLeads⟩ :=
      (hBody _).failure (locals v) s trivial hs (Nat.lt_succ_self _) hRead
    have hAgrees : Agrees M s.text s.pos key { success := false, stop := s'.pos } :=
      agrees_failure hKey
    exact ⟨_, by simp [withLocals, Combinator.memoizeValue, hMemo, hc, hKeep, hGet],
      hLeads.setMemo hAgrees⟩

theorem loop_spec (h : ImplementsFresh M key c g) (hg : g.Shrinks) (rounds : Nat) (l : Locals)
    (s : State Value) (hs : s.Sound M) (hFresh : s.Fresh key) (hRounds : s.rest.length < rounds) :
    ∃ s', loop c rounds l s = some (true, (iterate g l s.rest).1, s') ∧
      Leads M s s' (iterate g l s.rest).2 := by
  induction rounds generalizing l s with
  | zero => cases hRounds
  | succ rounds ih =>
    cases hFirst : g l s.rest with
    | none =>
      obtain ⟨s₁, hc, hLeads⟩ := h.failure l s hs hFresh hFirst
      rw [iterate_of_none hFirst]
      exact ⟨s₁, loop_of_false hc, hLeads⟩
    | some p =>
      obtain ⟨l₁, t₁⟩ := p
      obtain ⟨s₁, hc, hLeads, hFresh₁⟩ := h.success l s l₁ t₁ hs hFresh hFirst
      have hShorter := hg _ _ _ _ hFirst
      rw [iterate_of_some hg hFirst, ← hLeads.rest_eq]
      rw [← hLeads.rest_eq] at hShorter
      obtain ⟨s₂, hLoop, hLeads'⟩ := ih l₁ s₁ hLeads.sound hFresh₁ (by omega)
      exact ⟨s₂, (loop_of_true hc).trans hLoop, hLeads.trans hLeads'⟩

theorem some (h : ImplementsFresh M key c g) (hg : g.Shrinks) (l : Locals) (s : State Value)
    (hs : s.Sound M) (hFresh : s.Fresh key) :
    match g l s.rest with
    | none => ∃ s', Combinator.some c l s = some (false, l, s') ∧ Leads M s s' s.rest
    | some (l₁, t₁) => ∃ s', Combinator.some c l s = some (true, (iterate g l₁ t₁).1, s') ∧
        Leads M s s' (iterate g l₁ t₁).2 := by
  cases hFirst : g l s.rest with
  | none =>
    obtain ⟨s', hc, hLeads⟩ := h.failure l s hs hFresh hFirst
    exact ⟨s', by simp [Combinator.some, hc], hLeads⟩
  | some p =>
    obtain ⟨l₁, t₁⟩ := p
    obtain ⟨s₁, hc, hLeads, hFresh₁⟩ := h.success l s l₁ t₁ hs hFresh hFirst
    obtain ⟨s', hLoop, hLeads'⟩ := h.loop_spec hg (rounds s₁) l₁ s₁ hLeads.sound hFresh₁
      (by rw [length_rest, rounds]; exact Nat.lt_succ_self _)
    rw [hLeads.rest_eq] at hLoop hLeads'
    exact ⟨s', by simp [Combinator.some, hc, hLoop], hLeads.trans hLeads'⟩

end ImplementsFresh

end Henson.Parser
