import Henson.Library.Peg

/-!
# Scanners

A scanner cuts a text into tokens with one reader, which may also pass over
text without a token. It stops where the reader fails or reads nothing. For lazy
repetition, the shortest text is taken behind which an expression matches.
-/

universe u v

namespace Peg

variable {Token : Type u} {α : Type v}

/-- Any tokens, as few as possible, and then a match. -/
def lazily (r : Recognizer Token) : Recognizer Token
  | [] => r []
  | c :: t => (r (c :: t)).or (lazily r t)

def ahead (r : Recognizer Token) : Recognizer Token := fun t => if (r t).isSome then some t else none

def scan (r : Reader Token (Option α)) (t : List Token) : List α × List Token :=
  match r t with
  | none => ([], t)
  | some (v, t') =>
    if t'.length < t.length then (v.toList ++ (scan r t').1, (scan r t').2) else ([], t)
  termination_by t.length

theorem lazily_append {r : Recognizer Token} {w t : List Token}
    (h : ∀ v, v ≠ [] → v <:+ w → r (v ++ t) = none) : lazily r (w ++ t) = lazily r t := by
  induction w with
  | nil => rfl
  | cons c w ih =>
    have hFail := h (c :: w) (List.cons_ne_nil c w) List.suffix_rfl
    rw [List.cons_append, lazily, ← List.cons_append, hFail, Option.none_or]
    exact ih fun v hv hSuffix => h v hv (hSuffix.trans (List.suffix_cons c w))

theorem lazily_of_some {r : Recognizer Token} {t t' : List Token} (h : r t = some t') :
    lazily r t = some t' := by
  cases t with
  | nil => exact h
  | cons c t => rw [lazily, h, Option.some_or]

theorem scan_of_none {r : Reader Token (Option α)} {t : List Token} (h : r t = none) :
    scan r t = ([], t) := by
  rw [scan, h]

theorem scan_of_some {r : Reader Token (Option α)} {t t' : List Token} {v : Option α}
    (h : r t = some (v, t')) (hShorter : t'.length < t.length) :
    scan r t = (v.toList ++ (scan r t').1, (scan r t').2) := by
  rw [scan, h]
  exact if_pos hShorter

theorem length_lt_append {w : List Token} (h : w ≠ []) (t : List Token) :
    t.length < (w ++ t).length := by
  rw [List.length_append]
  exact Nat.lt_add_of_pos_left (List.length_pos_iff.mpr h)

theorem scan_append {r : Reader Token (Option α)} {w t : List Token} {v : Option α} (hw : w ≠ [])
    (h : r (w ++ t) = some (v, t)) :
    scan r (w ++ t) = (v.toList ++ (scan r t).1, (scan r t).2) :=
  scan_of_some h (length_lt_append hw t)

theorem length_scan_le (r : Reader Token (Option α)) (t : List Token) :
    (scan r t).1.length + (scan r t).2.length ≤ t.length := by
  fun_induction scan r t with
  | case1 t h => simp
  | case2 t v t' h hShorter ih =>
    have hValue : v.toList.length ≤ 1 := by cases v <;> simp
    simp only [List.length_append]
    omega
  | case3 t v t' h hNot => simp

theorem forall_mem_scan {r : Reader Token (Option α)} {P : α → Prop}
    (h : ∀ t a t', r t = some (some a, t') → P a) (t : List Token) : ∀ a ∈ (scan r t).1, P a := by
  fun_induction scan r t with
  | case1 t hRead => simp
  | case2 t v t' hRead hShorter ih =>
    intro a ha
    rcases List.mem_append.mp ha with ha | ha
    · rw [Option.mem_toList.mp ha] at hRead
      exact h t a t' hRead
    · exact ih a ha
  | case3 t v t' hRead hNot => simp

end Peg
