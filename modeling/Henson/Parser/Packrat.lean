import Mathlib.Logic.Basic
import Mathlib.Data.List.Basic
import Mathlib.Tactic.SplitIfs
import Henson.Library.Peg
import Henson.Parser.Combinators

/-!
# Memoized parsers compute parsing expressions

A table is sound if each of its entries is what the parsing expression of its
id gives at its position. Every combinator keeps the table sound, and from a
sound table it gives what the parsing expressions of its parts say: memoization
and backtracking do not show. Local variables are exact after a match. After a
failure only `keep` of them is.
-/

namespace Henson.Parser

open Peg Combinator

variable {Value Locals T K : Type}

/-- What the entries of each memoization id stand for: the value if one is bound, and the text
that is left. -/
abbrev Meaning (Value : Type) := Nat → List Char → Option (Option Value × List Char)

def State.rest (s : State Value) : List Char := s.text.drop s.pos

def Agrees (M : Meaning Value) (text : List Char) (p key : Nat) (m : Memo Value) : Prop :=
  match M key (text.drop p) with
  | some (v, t) => m.success = true ∧ (∀ x, v = some x → m.result = some x) ∧
      p ≤ m.stop ∧ m.stop ≤ text.length ∧ text.drop m.stop = t
  | none => m.success = false

structure State.Sound (M : Meaning Value) (s : State Value) : Prop where
  pos_le : s.pos ≤ s.text.length
  agrees : ∀ p key m, s.memoTable p key = some m → Agrees M s.text p key m

/-- From `s` the parser has come to `s'`, with `t` left. -/
structure Leads (M : Meaning Value) (s s' : State Value) (t : List Char) : Prop where
  sound : s'.Sound M
  text_eq : s'.text = s.text
  pos_le : s.pos ≤ s'.pos
  rest_eq : s'.rest = t

/-- A combinator that leaves the variables alone and matches what `r` matches. -/
structure Recognizes (M : Meaning Value) (c : Combinator Value Locals) (r : Recognizer Char) :
    Prop where
  success : ∀ l s t, s.Sound M → r s.rest = some t →
    ∃ s', c l s = some (true, l, s') ∧ Leads M s s' t
  failure : ∀ l s, s.Sound M → r s.rest = none →
    ∃ s', c l s = some (false, l, s') ∧ Leads M s s' s.rest

/-- From variables with `I` and fewer than `n` characters left, the combinator does what `g`
does. -/
structure Implements (M : Meaning Value) (n : Nat) (I : Locals → Prop) (keep : Locals → K)
    (c : Combinator Value Locals) (g : Action Char Locals) : Prop where
  success : ∀ l s l' t, I l → s.Sound M → s.rest.length < n → g l s.rest = some (l', t) →
    ∃ s', c l s = some (true, l', s') ∧ Leads M s s' t
  failure : ∀ l s, I l → s.Sound M → s.rest.length < n → g l s.rest = none →
    ∃ l' s', c l s = some (false, l', s') ∧ keep l' = keep l ∧ Leads M s s' s.rest

/-- A nonterminal with a variable: it reads what `r` reads if the variable starts with `I`. -/
def Reads (M : Meaning Value) (n : Nat) (I : T → Prop) (c : Combinator Value T)
    (r : Reader Char T) : Prop :=
  Implements M n I (fun v => v) c (assign (fun v _ => v) r)

section States

variable {M : Meaning Value}

theorem length_rest (s : State Value) : s.rest.length = s.text.length - s.pos := List.length_drop

theorem current_of_nil {s : State Value} (h : s.rest = []) : s.current = '\x00' := by
  rw [State.current, List.getD_eq_getElem?_getD,
    List.getElem?_eq_none (List.drop_eq_nil_iff.mp h)]
  rfl

theorem current_of_cons {s : State Value} {c : Char} {t : List Char} (h : s.rest = c :: t) :
    s.current = c := by
  have hGet : s.text[s.pos]? = some c := by
    rw [← List.head?_drop]
    exact congrArg List.head? h
  rw [State.current, List.getD_eq_getElem?_getD, hGet]
  rfl

theorem State.Sound.setPosn {s : State Value} (h : s.Sound M) {p : Nat}
    (hp : p ≤ s.text.length) : (s.setPosn p).Sound M :=
  ⟨hp, h.agrees⟩

theorem State.Sound.setMemo {s : State Value} (h : s.Sound M) {p key : Nat} {m : Memo Value}
    (hm : Agrees M s.text p key m) : (s.setMemo p key m).Sound M where
  pos_le := h.pos_le
  agrees p' key' m' h' := by
    simp only [State.setMemo] at h' ⊢
    split at h'
    · rename_i hSame
      obtain ⟨rfl, rfl⟩ := hSame
      obtain rfl := Option.some.inj h'
      exact hm
    · exact h.agrees p' key' m' h'

theorem Leads.refl {s : State Value} (h : s.Sound M) : Leads M s s s.rest :=
  ⟨h, rfl, Nat.le_refl _, rfl⟩

theorem Leads.trans {s s' s'' : State Value} {t t' : List Char} (h : Leads M s s' t)
    (h' : Leads M s' s'' t') : Leads M s s'' t' :=
  ⟨h'.sound, h'.text_eq.trans h.text_eq, Nat.le_trans h.pos_le h'.pos_le, h'.rest_eq⟩

theorem Leads.length_le {s s' : State Value} {t : List Char} (h : Leads M s s' t) :
    t.length ≤ s.rest.length := by
  have hPos := h.pos_le
  rw [← h.rest_eq, length_rest, length_rest, h.text_eq]
  omega

theorem Leads.back {s s' : State Value} {t : List Char} (h : Leads M s s' t)
    (hs : s.Sound M) : Leads M s (s'.setPosn s.pos) s.rest where
  sound := h.sound.setPosn (h.text_eq ▸ hs.pos_le)
  text_eq := h.text_eq
  pos_le := Nat.le_refl _
  rest_eq := congrArg (List.drop s.pos) h.text_eq

theorem Leads.setMemo {s s' : State Value} {t : List Char} (h : Leads M s s' t) {p key : Nat}
    {m : Memo Value} (hm : Agrees M s.text p key m) : Leads M s (s'.setMemo p key m) t where
  sound := h.sound.setMemo (h.text_eq ▸ hm)
  text_eq := h.text_eq
  pos_le := h.pos_le
  rest_eq := h.rest_eq

theorem leads_advance {s : State Value} (hs : s.Sound M) {n : Nat} {w t : List Char}
    (h : s.rest = w ++ t) (hn : n = w.length) : Leads M s (s.advance n) t := by
  have hLength := congrArg List.length h
  rw [length_rest, List.length_append] at hLength
  have hEnd : min (s.pos + n) s.text.length = s.pos + n := by
    have hPos := hs.pos_le
    omega
  refine ⟨hs.setPosn (Nat.min_le_right _ _), rfl, ?_, ?_⟩
  · have hPos := hs.pos_le
    change s.pos ≤ min (s.pos + n) s.text.length
    omega
  · change s.text.drop (min (s.pos + n) s.text.length) = t
    rw [hEnd, ← List.drop_drop]
    change s.rest.drop n = t
    rw [h, hn, List.drop_left]

theorem leads_memo {s : State Value} (hs : s.Sound M) {key : Nat} {m : Memo Value}
    (hMemo : s.memo key = some m) {v : Option Value} {t : List Char}
    (hM : M key s.rest = some (v, t)) :
    m.success = true ∧ (∀ x, v = some x → m.result = some x) ∧ s.pos ≤ m.stop ∧
      Leads M s (s.setPosn m.stop) t := by
  have hAgrees := hs.agrees s.pos key m hMemo
  rw [Agrees] at hAgrees
  change M key (s.text.drop s.pos) = _ at hM
  rw [hM] at hAgrees
  obtain ⟨hSuccess, hResult, hLe, hStop, hRest⟩ := hAgrees
  exact ⟨hSuccess, hResult, hLe, hs.setPosn hStop, rfl, hLe, hRest⟩

theorem success_memo_of_none {s : State Value} (hs : s.Sound M) {key : Nat} {m : Memo Value}
    (hMemo : s.memo key = some m) (hM : M key s.rest = none) : m.success = false := by
  have hAgrees := hs.agrees s.pos key m hMemo
  rw [Agrees] at hAgrees
  change M key (s.text.drop s.pos) = _ at hM
  rwa [hM] at hAgrees

theorem Leads.agrees {s s' : State Value} {t : List Char} (h : Leads M s s' t) {key : Nat}
    {v result : Option Value} (hM : M key s.rest = some (v, t))
    (hResult : ∀ x, v = some x → result = some x) :
    Agrees M s.text s.pos key { success := true, stop := s'.pos, result := result } := by
  have hStop := h.sound.pos_le
  rw [h.text_eq] at hStop
  have hRest := h.rest_eq
  rw [State.rest, h.text_eq] at hRest
  rw [Agrees]
  change M key (s.text.drop s.pos) = _ at hM
  rw [hM]
  exact ⟨rfl, hResult, h.pos_le, hStop, hRest⟩

theorem agrees_failure {s : State Value} {key stop : Nat} {result : Option Value}
    (hM : M key s.rest = none) :
    Agrees M s.text s.pos key { success := false, stop := stop, result := result } := by
  rw [Agrees]
  change M key (s.text.drop s.pos) = _ at hM
  rw [hM]

theorem sound_initial (text : List Char) : ({ text := text } : State Value).Sound M :=
  ⟨Nat.zero_le _, fun _ _ _ h => by cases h⟩

end States

section Steps

variable {f : Combinator Value Locals} {fs : List (Combinator Value Locals)}
variable {l l' l'' : Locals} {s s' s'' : State Value}

theorem sequence_of_true {ok : Bool} (h : f l s = some (true, l', s'))
    (h' : sequence fs l' s' = some (ok, l'', s'')) :
    sequence (f :: fs) l s = some (ok, l'', if ok then s'' else s''.setPosn s.pos) := by
  obtain ⟨⟨ok', l₁, s₁⟩, hChain, hEq⟩ := Option.bind_eq_some_iff.mp h'
  simp only [Option.pure_def, Option.some.injEq, Prod.mk.injEq] at hEq
  obtain ⟨rfl, rfl, rfl⟩ := hEq
  cases ok' <;> simp [Combinator.sequence, chain, h, hChain, State.setPosn]

theorem sequence_of_false (h : f l s = some (false, l', s')) :
    sequence (f :: fs) l s = some (false, l', s'.setPosn s.pos) := by
  simp [Combinator.sequence, chain, h]

theorem choice_of_true (h : f l s = some (true, l', s')) :
    choice (f :: fs) l s = some (true, l', s') := by
  simp [choice, h]

theorem choice_of_false (h : f l s = some (false, l', s')) :
    choice (f :: fs) l s = choice fs l' s' := by
  simp [choice, h]

theorem loop_of_true {rounds : Nat} (h : f l s = some (true, l', s')) :
    loop f (rounds + 1) l s = loop f rounds l' s' := by
  simp [loop, h]

theorem loop_of_false {rounds : Nat} (h : f l s = some (false, l', s')) :
    loop f (rounds + 1) l s = some (true, l', s') := by
  simp [loop, h]

end Steps

namespace Recognizes

variable {M : Meaning Value} {c c' : Combinator Value Locals} {r r' : Recognizer Char}

theorem literal {a : Char} (ha : a ≠ '\x00') :
    Recognizes M (literal a : Combinator Value Locals) (satisfy (· = a)) where
  success l s t hs h := by
    cases hRest : s.rest with
    | nil => rw [hRest] at h; cases h
    | cons b u =>
      simp only [hRest, satisfy_cons, decide_eq_true_eq, Option.ite_none_right_eq_some,
        Option.some.injEq] at h
      obtain ⟨rfl, rfl⟩ := h
      exact ⟨_, if_pos (current_of_cons hRest), leads_advance hs (w := [b]) hRest rfl⟩
  failure l s hs h := by
    refine ⟨s, if_neg ?_, Leads.refl hs⟩
    cases hRest : s.rest with
    | nil => rw [current_of_nil hRest]; exact ha.symm
    | cons b u =>
      rw [current_of_cons hRest]
      intro hb
      simp [hRest, satisfy_cons, hb] at h

theorem any : Recognizes M (any : Combinator Value Locals) (satisfy (· ≠ '\x00')) where
  success l s t hs h := by
    cases hRest : s.rest with
    | nil => rw [hRest] at h; cases h
    | cons b u =>
      simp only [hRest, satisfy_cons, decide_eq_true_eq, Option.ite_none_right_eq_some,
        Option.some.injEq] at h
      obtain ⟨hb, rfl⟩ := h
      rw [← current_of_cons hRest] at hb
      exact ⟨_, if_neg hb, leads_advance hs (w := [b]) hRest rfl⟩
  failure l s hs h := by
    refine ⟨s, if_pos ?_, Leads.refl hs⟩
    cases hRest : s.rest with
    | nil => exact current_of_nil hRest
    | cons b u =>
      rw [current_of_cons hRest]
      simpa [hRest, satisfy_cons] using h

theorem between {a b : Char} (ha : '\x00' < a) :
    Recognizes M (between a b : Combinator Value Locals) (satisfy fun c => a ≤ c ∧ c ≤ b) where
  success l s t hs h := by
    cases hRest : s.rest with
    | nil => rw [hRest] at h; cases h
    | cons c u =>
      simp only [hRest, satisfy_cons, decide_eq_true_eq, Option.ite_none_right_eq_some,
        Option.some.injEq] at h
      obtain ⟨⟨hFirst, hLast⟩, rfl⟩ := h
      rw [← current_of_cons hRest] at hFirst hLast
      refine ⟨_, if_neg ?_, leads_advance hs (w := [c]) hRest rfl⟩
      rintro (hLt | hLt)
      · exact Char.not_lt.mpr hFirst hLt
      · exact Char.not_lt.mpr hLast hLt
  failure l s hs h := by
    refine ⟨s, if_pos ?_, Leads.refl hs⟩
    cases hRest : s.rest with
    | nil => rw [current_of_nil hRest]; exact Or.inl ha
    | cons c u =>
      rw [current_of_cons hRest]
      by_cases hFirst : c < a
      · exact Or.inl hFirst
      · refine Or.inr (Char.not_le.mp fun hLast => ?_)
        simp [hRest, satisfy_cons, Char.not_lt.mp hFirst, hLast] at h

theorem literalString (w : List Char) :
    Recognizes M (literalString w : Combinator Value Locals) (word w) where
  success l s t hs h := by
    have hRest := word_eq_some.mp h
    refine ⟨_, if_pos ?_, leads_advance hs hRest rfl⟩
    change s.rest.take w.length = w
    rw [hRest, List.take_left]
  failure l s hs h := by
    refine ⟨s, if_neg fun hTake => ?_, Leads.refl hs⟩
    change s.rest.take w.length = w at hTake
    have hRest : s.rest = w ++ s.rest.drop w.length := by
      conv_lhs => rw [← List.take_append_drop w.length s.rest, hTake]
    rw [word_eq_some.mpr hRest] at h
    cases h

theorem sequence_one (h : Recognizes M c r) : Recognizes M (sequence [c]) r where
  success l s t hs hr := by
    obtain ⟨s', hc, hLeads⟩ := h.success l s t hs hr
    exact ⟨s', by simp [Combinator.sequence, chain, hc], hLeads⟩
  failure l s hs hr := by
    obtain ⟨s', hc, hLeads⟩ := h.failure l s hs hr
    exact ⟨_, sequence_of_false hc, hLeads.back hs⟩

theorem sequence_cons {fs : List (Combinator Value Locals)} (h : Recognizes M c r)
    (h' : Recognizes M (sequence fs) r') : Recognizes M (sequence (c :: fs)) (andThen r r') where
  success l s t hs hr := by
    obtain ⟨t₁, hr, hr'⟩ := Option.bind_eq_some_iff.mp hr
    obtain ⟨s₁, hc, hLeads⟩ := h.success l s t₁ hs hr
    rw [← hLeads.rest_eq] at hr'
    obtain ⟨s₂, hc', hLeads'⟩ := h'.success l s₁ t hLeads.sound hr'
    exact ⟨s₂, sequence_of_true hc hc', hLeads.trans hLeads'⟩
  failure l s hs hr := by
    cases hFirst : r s.rest with
    | none =>
      obtain ⟨s₁, hc, hLeads⟩ := h.failure l s hs hFirst
      exact ⟨_, sequence_of_false hc, hLeads.back hs⟩
    | some t₁ =>
      obtain ⟨s₁, hc, hLeads⟩ := h.success l s t₁ hs hFirst
      rw [andThen, hFirst] at hr
      change r' t₁ = none at hr
      rw [← hLeads.rest_eq] at hr
      obtain ⟨s₂, hc', hLeads'⟩ := h'.failure l s₁ hLeads.sound hr
      exact ⟨_, sequence_of_true hc hc', (hLeads.trans hLeads').back hs⟩

theorem choice_one (h : Recognizes M c r) : Recognizes M (choice [c]) r where
  success l s t hs hr := by
    obtain ⟨s', hc, hLeads⟩ := h.success l s t hs hr
    exact ⟨s', choice_of_true hc, hLeads⟩
  failure l s hs hr := by
    obtain ⟨s', hc, hLeads⟩ := h.failure l s hs hr
    exact ⟨s', choice_of_false hc, hLeads⟩

theorem choice_cons {fs : List (Combinator Value Locals)} (h : Recognizes M c r)
    (h' : Recognizes M (choice fs) r') : Recognizes M (choice (c :: fs)) (orElse r r') where
  success l s t hs hr := by
    cases hFirst : r s.rest with
    | some t₁ =>
      rw [orElse, hFirst] at hr
      obtain rfl := Option.some.inj hr
      obtain ⟨s₁, hc, hLeads⟩ := h.success l s t₁ hs hFirst
      exact ⟨s₁, choice_of_true hc, hLeads⟩
    | none =>
      obtain ⟨s₁, hc, hLeads⟩ := h.failure l s hs hFirst
      rw [orElse, hFirst] at hr
      change r' s.rest = some t at hr
      rw [← hLeads.rest_eq] at hr
      obtain ⟨s₂, hc', hLeads'⟩ := h'.success l s₁ t hLeads.sound hr
      exact ⟨s₂, (choice_of_false hc).trans hc', hLeads.trans hLeads'⟩
  failure l s hs hr := by
    obtain ⟨hFirst, hSecond⟩ := Option.or_eq_none_iff.mp hr
    obtain ⟨s₁, hc, hLeads⟩ := h.failure l s hs hFirst
    rw [← hLeads.rest_eq] at hSecond
    obtain ⟨s₂, hc', hLeads'⟩ := h'.failure l s₁ hLeads.sound hSecond
    exact ⟨s₂, (choice_of_false hc).trans hc', hLeads.rest_eq ▸ hLeads.trans hLeads'⟩

theorem option (h : Recognizes M c r) : Recognizes M (option c) (maybe r) where
  success l s t hs hr := by
    cases hFirst : r s.rest with
    | some t₁ =>
      obtain ⟨s', hc, hLeads⟩ := h.success l s t₁ hs hFirst
      simp only [maybe, hFirst, Option.getD_some, Option.some.injEq] at hr
      exact ⟨s', by simp [Combinator.option, hc], hr ▸ hLeads⟩
    | none =>
      obtain ⟨s', hc, hLeads⟩ := h.failure l s hs hFirst
      simp only [maybe, hFirst, Option.getD_none, Option.some.injEq] at hr
      exact ⟨s', by simp [Combinator.option, hc], hr ▸ hLeads⟩
  failure l s hs hr := by cases hr

theorem lookNot (h : Recognizes M c r) : Recognizes M (lookNot c) (notAhead r) where
  success l s t hs hr := by
    simp only [notAhead, Option.ite_none_left_eq_some, Option.not_isSome_iff_eq_none,
      Option.some.injEq] at hr
    obtain ⟨hNone, rfl⟩ := hr
    obtain ⟨s', hc, hLeads⟩ := h.failure l s hs hNone
    exact ⟨s', by simp [Combinator.lookNot, hc], hLeads⟩
  failure l s hs hr := by
    simp only [notAhead, ite_eq_left_iff, reduceCtorEq, imp_false, Bool.not_eq_true,
      Bool.not_eq_false] at hr
    obtain ⟨t, hSome⟩ := Option.isSome_iff_exists.mp hr
    obtain ⟨s', hc, hLeads⟩ := h.success l s t hs hSome
    exact ⟨_, by simp [Combinator.lookNot, hc], hLeads.back hs⟩

theorem memoize {key : Nat} (h : Recognizes M c r)
    (hM : ∀ t, M key t = (r t).map fun t' => (none, t')) : Recognizes M (memoize key c) r where
  success l s t hs hr := by
    have hKey : M key s.rest = some (none, t) := by rw [hM, hr]; rfl
    cases hMemo : s.memo key with
    | some m =>
      obtain ⟨hSuccess, -, -, hLeads⟩ := leads_memo hs hMemo hKey
      exact ⟨_, by simp [Combinator.memoize, hMemo, hSuccess], hLeads⟩
    | none =>
      obtain ⟨s', hc, hLeads⟩ := h.success l s t hs hr
      have hAgrees : Agrees M s.text s.pos key { success := true, stop := s'.pos } :=
        hLeads.agrees hKey fun _ h => by cases h
      exact ⟨_, by simp [Combinator.memoize, hMemo, hc], hLeads.setMemo hAgrees⟩
  failure l s hs hr := by
    have hKey : M key s.rest = none := by rw [hM, hr]; rfl
    cases hMemo : s.memo key with
    | some m =>
      have hSuccess := success_memo_of_none hs hMemo hKey
      exact ⟨s, by simp [Combinator.memoize, hMemo, hSuccess], Leads.refl hs⟩
    | none =>
      obtain ⟨s', hc, hLeads⟩ := h.failure l s hs hr
      have hAgrees : Agrees M s.text s.pos key { success := false, stop := s'.pos } :=
        agrees_failure hKey
      exact ⟨_, by simp [Combinator.memoize, hMemo, hc], hLeads.setMemo hAgrees⟩

theorem manyMemoized_spec {key : Nat} (h : Recognizes M c r) (hr : Shrinks r)
    (hM : ∀ t, M key t = some (none, Peg.many r t)) (rounds : Nat) (l : Locals) (s : State Value)
    (hs : s.Sound M) (hRounds : s.rest.length < rounds) :
    ∃ m s', manyMemoized key c rounds l s = some (m, l, s') ∧
      Leads M s s' (Peg.many r s.rest) := by
  induction rounds generalizing s with
  | zero => cases hRounds
  | succ rounds ih =>
    cases hMemo : s.memo key with
    | some m =>
      obtain ⟨-, -, hLe, hLeads⟩ := leads_memo hs hMemo (hM _)
      have hState : (if m.stop > s.pos then s.setPosn m.stop else s) = s.setPosn m.stop := by
        split
        · rfl
        · have hStop : m.stop = s.pos := by omega
          rw [hStop]
          rfl
      exact ⟨m, _, by simp [manyMemoized, hMemo, hState], hLeads⟩
    | none =>
      cases hFirst : r s.rest with
      | none =>
        obtain ⟨s₁, hc, hLeads⟩ := h.failure l s hs hFirst
        have hKey := hM s.rest
        rw [many_of_none hFirst] at hKey ⊢
        have hAgrees : Agrees M s.text s.pos key { success := true, stop := s₁.pos } :=
          hLeads.agrees hKey fun _ h => by cases h
        exact ⟨{ success := true, stop := s₁.pos }, _, by simp [manyMemoized, hMemo, hc],
          hLeads.setMemo hAgrees⟩
      | some t =>
        obtain ⟨s₁, hc, hLeads⟩ := h.success l s t hs hFirst
        have hShorter := hr _ _ hFirst
        rw [← hLeads.rest_eq] at hShorter
        obtain ⟨m, s₂, hMany, hLeads'⟩ := ih s₁ hLeads.sound (by omega)
        have hKey := hM s.rest
        rw [many_of_some hr hFirst] at hKey ⊢
        rw [hLeads.rest_eq] at hLeads'
        have hAgrees : Agrees M s.text s.pos key
            { success := true, stop := s₂.pos, result := m.result } :=
          (hLeads.trans hLeads').agrees hKey fun _ h => by cases h
        exact ⟨{ m with success := true, stop := s₂.pos }, _,
          by simp [manyMemoized, hMemo, hc, hMany], (hLeads.trans hLeads').setMemo hAgrees⟩

theorem memoizeMany {key : Nat} (h : Recognizes M c r) (hr : Shrinks r)
    (hM : ∀ t, M key t = some (none, Peg.many r t)) :
    Recognizes M (memoizeMany key c) (fun t => some (Peg.many r t)) where
  success l s t hs hMany := by
    obtain rfl := Option.some.inj hMany
    obtain ⟨m, s', hc, hLeads⟩ := manyMemoized_spec h hr hM (rounds s) l s hs
      (by rw [length_rest, rounds]; exact Nat.lt_succ_self _)
    exact ⟨s', by simp [Combinator.memoizeMany, hc], hLeads⟩
  failure l s hs hMany := by cases hMany

theorem memoizeSome {key : Nat} (h : Recognizes M c r) (hr : Shrinks r)
    (hM : ∀ t, M key t = some (none, Peg.many r t)) :
    Recognizes M (memoizeSome key c) (several r) where
  success l s t hs hMany := by
    obtain ⟨hLess, rfl⟩ := several_eq_some.mp hMany
    obtain ⟨m, s', hc, hLeads⟩ := manyMemoized_spec h hr hM (rounds s) l s hs
      (by rw [length_rest, rounds]; exact Nat.lt_succ_self _)
    have hMoved : s'.pos > s.pos := by
      rw [← hLeads.rest_eq, length_rest, length_rest, hLeads.text_eq] at hLess
      omega
    exact ⟨s', by simp [Combinator.memoizeSome, hc, hMoved], hLeads⟩
  failure l s hs hMany := by
    obtain ⟨m, s', hc, hLeads⟩ := manyMemoized_spec h hr hM (rounds s) l s hs
      (by rw [length_rest, rounds]; exact Nat.lt_succ_self _)
    have hNone : ¬ (Peg.many r s.rest).length < s.rest.length := fun hLess => by
      rw [several, if_pos hLess] at hMany
      cases hMany
    have hSame : s'.pos = s.pos := by
      have hStart := hLeads.pos_le
      have hEnd := hLeads.sound.pos_le
      rw [← hLeads.rest_eq, length_rest, length_rest, hLeads.text_eq] at hNone
      rw [hLeads.text_eq] at hEnd
      omega
    have hRest : s'.rest = s.rest := by rw [State.rest, State.rest, hSame, hLeads.text_eq]
    exact ⟨s', by simp [Combinator.memoizeSome, hc, hSame],
      hLeads.sound, hLeads.text_eq, hLeads.pos_le, hRest⟩

end Recognizes

end Henson.Parser
