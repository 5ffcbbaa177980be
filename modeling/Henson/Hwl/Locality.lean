import Henson.Hwl.Acceptance

/-!
# What stands behind a line

A rule of the grammar that has come to the end of a line has not looked further. So what it has
read stays the same when the text behind is replaced by another one.
-/

namespace Henson.Hwl

/-- A text that may stand for another one behind a line feed. -/
def Replaces (v t : Text) : Prop := v.head? = some '\r' → t.head? = some '\r'

theorem Replaces.append {v t : Text} (h : Replaces v t) (u : Text) :
    Replaces (u ++ v) (u ++ t) := by
  cases u with
  | nil => exact h
  | cons c u => exact id

/-- The part `u` of a text is read in front of `t`, and of whatever replaces that. -/
def ReadAs (R : Text → Text → Prop) (t t' : Text) : Prop :=
  ∃ u, t = u ++ t' ∧ (∃ c ∈ u, isNewline c = true) ∧ ∀ v, Replaces v t' → R (u ++ v) v

theorem Newline.local {t t' : Text} (h : Newline t t') : ReadAs Newline t t' := by
  cases h with
  | both t => exact ⟨['\n', '\r'], rfl, ⟨'\n', by simp, rfl⟩, fun v _ => .both v⟩
  | lineFeed t hHead =>
    exact ⟨['\n'], rfl, ⟨'\n', by simp, rfl⟩, fun v hv => .lineFeed v fun h => hHead (hv h)⟩
  | carriageReturn t => exact ⟨['\r'], rfl, ⟨'\r', by simp, rfl⟩, fun v _ => .carriageReturn v⟩

theorem Ending.local {t t' : Text} (h : Ending t t') : ReadAs Ending t t' := by
  cases h with
  | newline h =>
    obtain ⟨u, rfl, hFeed, hAny⟩ := h.local
    exact ⟨u, rfl, hFeed, fun v hv => .newline (hAny v hv)⟩
  | @comment w t t' hw h =>
    obtain ⟨u, rfl, ⟨c, hc, hFeed⟩, hAny⟩ := h.local
    refine ⟨'#' :: (w ++ u), by simp, ⟨c, by simp [hc], hFeed⟩, fun v hv => ?_⟩
    rw [List.cons_append, List.append_assoc]
    exact .comment hw (hAny v hv)

theorem LineEnd.local {t t' : Text} (h : LineEnd t t') : ReadAs LineEnd t t' := by
  obtain ⟨hw, h⟩ := h
  rename_i w t
  obtain ⟨u, rfl, ⟨c, hc, hFeed⟩, hAny⟩ := h.local
  refine ⟨w ++ u, by simp, ⟨c, by simp [hc], hFeed⟩, fun v hv => ?_⟩
  rw [List.append_assoc]
  exact .mk hw (hAny v hv)

theorem PuppetLine.local {pc : PuppetCommand} {t t' : Text} (h : PuppetLine pc t t') :
    ReadAs (PuppetLine pc) t t' := by
  obtain ⟨hn, hw, hw', hc, hStop, h⟩ := h
  rename_i n w w' c t
  obtain ⟨u, rfl, ⟨x, hx, hFeed⟩, hAny⟩ := h.local
  refine ⟨n ++ (w ++ '=' :: (w' ++ (c ++ u))), by simp, ⟨x, by simp [hx], hFeed⟩, fun v hv => ?_⟩
  simp only [List.append_assoc, List.cons_append]
  exact .mk hn hw hw' hc hStop (hAny v hv)

theorem line_of_all {w : Text} (h : w.all (fun c => !isNewline c) = true) :
    ∀ c ∈ w, isNewline c = false := by
  intro c hc
  simpa using List.all_eq_true.mp h c hc

theorem startsWithToken_append {u : Text} (hFeed : ∃ c ∈ u, isNewline c = true) (t : Text) :
    StartsWithToken (u ++ t) ↔ StartsWithToken u := by
  have hWord (k : Text) (hk : ∀ c ∈ k, isNewline c = false) : k <+: u ++ t ↔ k <+: u := by
    refine ⟨fun h => ?_, fun h => h.trans (List.prefix_append u t)⟩
    rcases List.prefix_or_prefix_of_prefix h (List.prefix_append u t) with hIn | hOver
    · exact hIn
    · obtain ⟨c, hc, hNewline⟩ := hFeed
      rw [hk c (hOver.subset hc)] at hNewline
      cases hNewline
  exact or_congr (hWord _ (line_of_all rfl)) (hWord _ (line_of_all rfl))

theorem Items.local {ss : List Statement} {t t' : Text} (h : Items ss t t') :
    ∃ u, t = u ++ t' ∧ ∀ v, Replaces v t' → Items ss (u ++ v) v := by
  induction h with
  | nil t => exact ⟨[], rfl, fun v _ => .nil v⟩
  | blank hLine _ ih =>
    obtain ⟨u, rfl, hAny⟩ := ih
    obtain ⟨x, rfl, -, hLine⟩ := hLine.local
    refine ⟨x ++ u, by simp, fun v hv => ?_⟩
    rw [List.append_assoc]
    exact .blank (hLine _ (hv.append u)) (hAny v hv)
  | @call ss w star n t t' t'' hw hStar hn hToken hLine _ ih =>
    obtain ⟨u, rfl, hAny⟩ := ih
    obtain ⟨x, rfl, ⟨c, hc, hFeed⟩, hLine⟩ := hLine.local
    refine ⟨w ++ (star ++ (n ++ (x ++ u))), by simp, fun v hv => ?_⟩
    have hFirst : ∃ c ∈ w ++ (star ++ (n ++ x)), isNewline c = true := ⟨c, by simp [hc], hFeed⟩
    have hText (r : Text) : w ++ (star ++ (n ++ (x ++ r))) = w ++ (star ++ (n ++ x)) ++ r := by
      simp
    rw [hText, startsWithToken_append hFirst] at hToken
    simp only [List.append_assoc]
    refine .call hw hStar hn ?_ (hLine _ (hv.append u)) (hAny v hv)
    rw [hText, startsWithToken_append hFirst]
    exact hToken
  | @ite ss body w w' w'' c t t₁ t₂ t₃ t' t'' hw hw' hc hw'' hLine hNewline hMoved _ hLast _ ihBody
      ihRest =>
    obtain ⟨u₄, rfl, hRest⟩ := ihRest
    obtain ⟨u₃, rfl, -, hLast⟩ := hLast.local
    obtain ⟨u₂, rfl, hBody⟩ := ihBody
    obtain ⟨u₁, rfl, -, hNewline⟩ := hNewline.local
    obtain ⟨u₀, rfl, -, hLine⟩ := hLine.local
    refine ⟨w ++ ("if".toList ++ (w' ++ (c ++ (w'' ++ ':' :: (u₀ ++ ("INDENT".toList ++ (u₁ ++
      (u₂ ++ ("DEDENT".toList ++ (u₃ ++ u₄)))))))))), by simp, fun v hv => ?_⟩
    simp only [List.append_assoc, List.cons_append]
    have h₄ := hv.append u₄
    have h₃ := (h₄.append u₃).append "DEDENT".toList
    have h₂ := h₃.append u₂
    refine .ite hw hw' hc hw'' (hLine _ ((h₂.append u₁).append _)) (hNewline _ h₂) ?_
      (hBody _ h₃) (hLast _ h₄) (hRest v hv)
    intro hSame
    rw [List.append_left_eq_self] at hSame
    exact hMoved (by rw [hSame]; rfl)

theorem Group.local {cf : ControlFlow} {t t' : Text} (h : Group cf t t') :
    ReadAs (Group cf) t t' := by
  obtain ⟨hn, hMoved, hw, hw', hc, hw'', hBlock⟩ := h
  rename_i n c w w' w'' t body
  obtain ⟨hLine, hNewline, hSome, hBody, hLast⟩ := hBlock
  obtain ⟨u₃, rfl, ⟨x, hx, hFeed⟩, hLast⟩ := hLast.local
  obtain ⟨u₂, rfl, hItems⟩ := hBody.local
  obtain ⟨u₁, rfl, -, hNewline⟩ := hNewline.local
  obtain ⟨u₀, rfl, -, hLine⟩ := hLine.local
  refine ⟨n ++ (w ++ ("while".toList ++ (w' ++ (c ++ (w'' ++ ':' :: (u₀ ++ ("INDENT".toList ++
    (u₁ ++ (u₂ ++ ("DEDENT".toList ++ u₃)))))))))), by simp, ⟨x, by simp [hx], hFeed⟩,
    fun v hv => ?_⟩
  simp only [List.append_assoc, List.cons_append]
  have h₃ := (hv.append u₃).append "DEDENT".toList
  have h₂ := h₃.append u₂
  refine .mk hn hMoved hw hw' hc hw'' (.mk (hLine _ ((h₂.append u₁).append _)) (hNewline _ h₂) ?_
    (hItems _ h₃) (hLast _ hv))
  intro hSame
  rw [List.append_left_eq_self] at hSame
  exact hSome (by rw [hSame]; rfl)

namespace Reading

open Peg

/-- A whole text is read in front of anything. -/
theorem iterate_entries {s s' : Script} {t : Text} (h : Entries s t s') {v : Text}
    (hv : v.head? ≠ some '\r') : iterate entry s (t ++ v) = iterate entry s' v := by
  have hReplaces (t : Text) : Replaces (t ++ v) t := by
    cases t with
    | nil => exact fun hHead => absurd hHead hv
    | cons c t => exact id
  induction h with
  | nil s => rfl
  | blank hLine _ ih =>
    obtain ⟨u, rfl, -, hAny⟩ := hLine.local
    rw [List.append_assoc, ← ih]
    exact iterate_of_some shrinks_entry (entry_blank (hAny _ (hReplaces _)))
  | puppet hPuppet _ ih =>
    obtain ⟨u, rfl, -, hAny⟩ := hPuppet.local
    rw [List.append_assoc, ← ih]
    exact iterate_of_some shrinks_entry (entry_puppet (hAny _ (hReplaces _)))
  | group hGroup _ ih =>
    obtain ⟨u, rfl, -, hAny⟩ := hGroup.local
    rw [List.append_assoc, ← ih]
    exact iterate_of_some shrinks_entry (entry_group (hAny _ (hReplaces _)))

end Reading

end Henson.Hwl
