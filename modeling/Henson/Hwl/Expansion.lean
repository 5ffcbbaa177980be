import Henson.Hwl.Command

/-!
# The expansion of a command line

A reference without a default value has the default value that the shared variable
has from an earlier reference. What a command expands to is what its text says
exactly if no such value leaks. A command line may also be cut off where the text
goes on with neither a literal nor a reference.
-/

namespace Henson.Hwl

open Peg Henson.Parser Reading

section Expansion

variable (varmap : Std.ExtTreeMap Text Text compare)

def Fragment.expand : Fragment → Text
  | .literal s => s
  | .reference n value => (varmap[n]?).getD (value.getD [])

/-- Every reference has its value, its own default value or nothing. -/
def expand (fs : List Fragment) : Text := fs.flatMap (Fragment.expand varmap)

/-- What the shared variable makes of it. -/
def expandFrom : Text → List Fragment → Text
  | _, [] => []
  | d, .literal s :: fs => s ++ expandFrom d fs
  | d, .reference n value :: fs =>
    (varmap[n]?).getD (value.getD d) ++ expandFrom (value.getD d) fs

def Fragment.value : Fragment → Option Text
  | .literal _ => none
  | .reference _ value => value

def lastDefault (fs : List Fragment) : Text := ((fs.filterMap Fragment.value).getLast?).getD []

/-- No reference that has neither a value nor a default value comes after a default value. -/
def NoLeak (fs : List Fragment) : Prop :=
  ∀ pre n post, fs = pre ++ .reference n none :: post → varmap[n]? = none → lastDefault pre = []

end Expansion

/-- The indices are those of the strings and variables. -/
def Command.Indexed (c : Command) : Prop :=
  ∀ x ∈ c.indices, x.1 < if x.2 then c.vars.length else c.strings.length

section Generate

variable (varmap : Std.ExtTreeMap Text Text compare) {c c' : Command}

def Command.part (c : Command) (x : Nat × Bool) : Option Text :=
  if x.2 then (c.vars[x.1]?).map fun var => (varmap[var.name]?).getD var.value
  else c.strings[x.1]?

theorem Command.generate_eq (c : Command) :
    c.generate varmap =
      c.indices.foldlM (fun result x => (c.part varmap x).map (result ++ ·)) [] := by
  rw [generate]
  refine congrArg (fun f => c.indices.foldlM f []) (funext fun result => funext fun x => ?_)
  rw [part]
  split
  · cases c.vars[x.1]? <;> rfl
  · cases c.strings[x.1]? <;> rfl

variable {varmap}

theorem foldlM_part_congr {l : List (Nat × Bool)}
    (h : ∀ x ∈ l, c'.part varmap x = c.part varmap x) (result : Text) :
    l.foldlM (fun result x => (c'.part varmap x).map (result ++ ·)) result =
      l.foldlM (fun result x => (c.part varmap x).map (result ++ ·)) result := by
  induction l generalizing result with
  | nil => rfl
  | cons x l ih =>
    obtain ⟨hx, hl⟩ := List.forall_mem_cons.mp h
    rw [List.foldlM_cons, List.foldlM_cons, hx]
    exact congrArg ((c.part varmap x).map (result ++ ·) >>= ·) (funext (ih hl))

theorem Command.generate_concat {x : Nat × Bool} {text : Text}
    (hIndices : c'.indices = c.indices ++ [x])
    (hParts : ∀ y ∈ c.indices, c'.part varmap y = c.part varmap y)
    (hText : c'.part varmap x = some text) :
    c'.generate varmap = (c.generate varmap).map (· ++ text) := by
  rw [generate_eq, generate_eq, hIndices, List.foldlM_append, foldlM_part_congr hParts]
  cases (c.indices.foldlM (fun result x => (c.part varmap x).map (result ++ ·)) [] :
      Option Text) with
  | none => rfl
  | some result => simp [hText]

variable (varmap)

theorem Command.Indexed.addString (h : c.Indexed) (s : Text) :
    (c.addString s).Indexed ∧
      (c.addString s).generate varmap = (c.generate varmap).map (· ++ s) := by
  constructor
  · intro x hx
    rcases List.mem_append.mp hx with hx | hx
    · apply Nat.lt_of_lt_of_le (h x hx)
      split
      · exact Nat.le_refl _
      · exact List.length_append ▸ Nat.le_add_right _ _
    · obtain rfl := List.mem_singleton.mp hx
      simp [Command.addString]
  · refine generate_concat rfl (fun x hx => ?_) ?_
    · have hOld := h x hx
      simp only [part, Command.addString]
      split
      · rfl
      · rename_i hString
        rw [if_neg hString] at hOld
        exact List.getElem?_append_left hOld
    · simp [part, Command.addString]

theorem Command.Indexed.addVariable (h : c.Indexed) (v : Variable) :
    (c.addVariable v).Indexed ∧
      (c.addVariable v).generate varmap =
        (c.generate varmap).map (· ++ (varmap[v.name]?).getD v.value) := by
  constructor
  · intro x hx
    rcases List.mem_append.mp hx with hx | hx
    · apply Nat.lt_of_lt_of_le (h x hx)
      split
      · exact List.length_append ▸ Nat.le_add_right _ _
      · exact Nat.le_refl _
    · obtain rfl := List.mem_singleton.mp hx
      simp [Command.addVariable]
  · refine generate_concat rfl (fun x hx => ?_) ?_
    · have hOld := h x hx
      simp only [part, Command.addVariable]
      split
      · rename_i hVar
        rw [if_pos hVar] at hOld
        rw [List.getElem?_append_left hOld]
      · rfl
    · simp [part, Command.addVariable]

theorem generate_foldl_addFragment (h : c.Indexed) (d : Text) (fs : List Fragment) :
    (fs.foldl Command.addFragment (c, d)).1.generate varmap =
      (c.generate varmap).map (· ++ expandFrom varmap d fs) := by
  induction fs generalizing c d with
  | nil => simp [expandFrom]
  | cons f fs ih =>
    cases f with
    | literal s =>
      obtain ⟨hIndexed, hGenerate⟩ := h.addString varmap s
      rw [List.foldl_cons, Command.addFragment, ih hIndexed, hGenerate, Option.map_map]
      simp [expandFrom, Function.comp_def]
    | reference n value =>
      obtain ⟨hIndexed, hGenerate⟩ := h.addVariable varmap ⟨n, value.getD d⟩
      rw [List.foldl_cons, Command.addFragment, ih hIndexed, hGenerate, Option.map_map]
      simp [expandFrom, Function.comp_def]

theorem generate_ofFragments (fs : List Fragment) :
    (Command.ofFragments fs).generate varmap = some (expandFrom varmap [] fs) := by
  have hEmpty : Command.Indexed {} := fun x hx => by cases hx
  rw [Command.ofFragments, generate_foldl_addFragment varmap hEmpty]
  rfl

theorem expandCommand_eq (command : Text) :
    expandCommand varmap command = some (if (fragment command).isSome then
      .ok (expandFrom varmap [] (fragments command).1)
      else .error ("Couldn't parse command: ".toList ++ command)) := by
  obtain ⟨s, hRun, -⟩ := runCommand_eq command
  simp only [expandCommand, hRun, Option.bind_eq_bind, Option.bind_some, generate_ofFragments]
  cases (fragment command).isSome <;> rfl

end Generate

section Leaks

variable (varmap : Std.ExtTreeMap Text Text compare)

/-- Nothing leaks from the default value `d` or from a later one. -/
def LeakFree : Text → List Fragment → Prop
  | _, [] => True
  | d, .literal _ :: fs => LeakFree d fs
  | d, .reference n value :: fs =>
    (value = none → varmap[n]? = none → d = []) ∧ LeakFree (value.getD d) fs

theorem length_reference_le (n d : Text) (value : Option Text) :
    ((varmap[n]?).getD (value.getD [])).length ≤ ((varmap[n]?).getD (value.getD d)).length := by
  cases varmap[n]? <;> cases value <;> simp

theorem length_expand_le (d : Text) (fs : List Fragment) :
    (expand varmap fs).length ≤ (expandFrom varmap d fs).length := by
  induction fs generalizing d with
  | nil => exact Nat.le_refl _
  | cons f fs ih =>
    rw [expand, List.flatMap_cons, List.length_append]
    cases f with
    | literal s =>
      rw [expandFrom, List.length_append]
      exact Nat.add_le_add_left (ih d) _
    | reference n value =>
      rw [expandFrom, List.length_append, Fragment.expand]
      exact Nat.add_le_add (length_reference_le varmap n d value) (ih _)

variable {varmap}

theorem expandFrom_of_leakFree {d : Text} {fs : List Fragment} (h : LeakFree varmap d fs) :
    expandFrom varmap d fs = expand varmap fs := by
  induction fs generalizing d with
  | nil => rfl
  | cons f fs ih =>
    rw [expand, List.flatMap_cons]
    cases f with
    | literal s => exact congrArg (s ++ ·) (ih h)
    | reference n value =>
      rw [expandFrom, ih h.2, Fragment.expand]
      apply congrArg (· ++ expand varmap fs)
      cases hSupplied : varmap[n]? with
      | some w => rfl
      | none =>
        cases value with
        | some w => rfl
        | none => exact h.1 rfl hSupplied

/-- A leak only makes the text longer, so none can make up for another. -/
theorem leakFree_of_eq {d : Text} {fs : List Fragment}
    (h : (expandFrom varmap d fs).length = (expand varmap fs).length) : LeakFree varmap d fs := by
  induction fs generalizing d with
  | nil => trivial
  | cons f fs ih =>
    rw [expand, List.flatMap_cons, List.length_append] at h
    cases f with
    | literal s =>
      rw [expandFrom, List.length_append] at h
      exact ih (Nat.add_left_cancel h)
    | reference n value =>
      rw [expandFrom, List.length_append, Fragment.expand] at h
      have hRest := length_expand_le varmap (value.getD d) fs
      rw [expand] at hRest
      constructor
      · rintro rfl hSupplied
        rw [hSupplied] at h
        simp only [Option.getD_none, List.length_nil] at h hRest
        exact List.length_eq_zero_iff.mp (by omega)
      · have hHead := length_reference_le varmap n d value
        apply ih
        rw [expand]
        omega

theorem leakFree_iff {d : Text} {fs : List Fragment} :
    LeakFree varmap d fs ↔ ∀ pre n post, fs = pre ++ .reference n none :: post →
      varmap[n]? = none → ((pre.filterMap Fragment.value).getLast?).getD d = [] := by
  induction fs generalizing d with
  | nil => simp [LeakFree]
  | cons f fs ih =>
    have hShift (pre : List Fragment) : (((f :: pre).filterMap Fragment.value).getLast?).getD d =
        ((pre.filterMap Fragment.value).getLast?).getD (f.value.getD d) := by
      cases hValue : f.value <;> simp [hValue, List.getLast?_cons]
    have hSplits : (∀ pre n post, f :: fs = pre ++ .reference n none :: post →
          varmap[n]? = none → ((pre.filterMap Fragment.value).getLast?).getD d = []) ↔
        (∀ n, f = .reference n none → varmap[n]? = none → d = []) ∧
          LeakFree varmap (f.value.getD d) fs := by
      rw [ih]
      constructor
      · intro hAll
        constructor
        · rintro n rfl hNone
          exact hAll [] n fs rfl hNone
        · rintro pre n post rfl hNone
          rw [← hShift]
          exact hAll (f :: pre) n post rfl hNone
      · rintro ⟨hHead, hRest⟩ pre n post hEq hNone
        cases pre with
        | nil =>
          obtain ⟨rfl, -⟩ := List.cons.inj hEq
          exact hHead n rfl hNone
        | cons f' pre =>
          obtain ⟨rfl, rfl⟩ := List.cons.inj hEq
          rw [hShift]
          exact hRest pre n post rfl hNone
    rw [hSplits]
    cases f with
    | literal s => simp [LeakFree, Fragment.value]
    | reference n value => simp [LeakFree, Fragment.value]

theorem expandFrom_eq_iff (fs : List Fragment) :
    expandFrom varmap [] fs = expand varmap fs ↔ NoLeak varmap fs := by
  have hLeak : LeakFree varmap [] fs ↔ NoLeak varmap fs := leakFree_iff
  rw [← hLeak]
  constructor
  · exact fun h => leakFree_of_eq (congrArg List.length h)
  · exact expandFrom_of_leakFree

end Leaks

def isLiteralChar (c : Char) : Bool := decide (c ≠ '\x00') && decide (c ≠ '$')

def isDefaultChar (c : Char) : Bool := decide (c ≠ '\x00') && decide (c ≠ ')')

def StartsWithDefault (t : Text) : Prop :=
  ∃ v t', t = '(' :: (v ++ ')' :: t') ∧ ∀ c ∈ v, isDefaultChar c = true

/-- The texts that are sequences of literals and references. A literal and a name reach as far as
they can, and a default value belongs to the name before it; NUL is the end of a text. -/
inductive Spelled : Text → List Fragment → Prop
  | nil : Spelled [] []
  | literal {s t : Text} {fs : List Fragment} : s ≠ [] → (∀ c ∈ s, isLiteralChar c = true) →
      StopsAt isLiteralChar t → Spelled t fs → Spelled (s ++ t) (.literal s :: fs)
  | reference {n t : Text} {fs : List Fragment} : ValidName n → StopsAt isNameChar t →
      ¬ StartsWithDefault t → Spelled t fs → Spelled ('$' :: (n ++ t)) (.reference n none :: fs)
  | withDefault {n v t : Text} {fs : List Fragment} : ValidName n →
      (∀ c ∈ v, isDefaultChar c = true) → Spelled t fs →
      Spelled ('$' :: (n ++ '(' :: (v ++ ')' :: t))) (.reference n (some v) :: fs)

namespace Reading

theorem literalChar_eq : literalChar = satisfy isLiteralChar := by
  refine notAhead_satisfy fun c t => ?_
  by_cases hc : c = '$' <;> simp [satisfy_cons, hc]

theorem defaultChar_eq : defaultChar = satisfy isDefaultChar := by
  refine notAhead_satisfy fun c t => ?_
  by_cases hc : c = ')' <;> simp [satisfy_cons, hc]

theorem literal_iff {t t' s : Text} :
    literal t = some (s, t') ↔ s ≠ [] ∧ t = s ++ t' ∧ (∀ c ∈ s, isLiteralChar c = true) ∧
      StopsAt isLiteralChar t' := by
  rw [literal, literalChar_eq]
  exact consumed_several_iff

theorem defaultValue_iff {t t' v : Text} :
    defaultValue t = some (v, t') ↔
      t = '(' :: (v ++ ')' :: t') ∧ ∀ c ∈ v, isDefaultChar c = true := by
  simp only [defaultValue, defaultText, defaultChar_eq, Option.bind_eq_bind,
    Option.bind_eq_some_iff, satisfy_eq_iff, Prod.exists, consumed_many_iff, Option.pure_def,
    Option.some.injEq, Prod.mk.injEq]
  constructor
  · rintro ⟨t₁, rfl, w, t₂, ⟨rfl, hw, -⟩, t₃, rfl, rfl, rfl⟩
    exact ⟨rfl, hw⟩
  · rintro ⟨rfl, hv⟩
    refine ⟨_, rfl, v, ')' :: t', ⟨rfl, hv, fun c hc => ?_⟩, t', rfl, rfl, rfl⟩
    cases hc
    rfl

theorem defaultValue_eq_none_iff {t : Text} :
    defaultValue t = none ↔ ¬ StartsWithDefault t := by
  rw [Option.eq_none_iff_forall_ne_some]
  constructor
  · rintro hNone ⟨v, t', hText, hv⟩
    exact hNone (v, t') (defaultValue_iff.mpr ⟨hText, hv⟩)
  · rintro hNot ⟨v, t'⟩ hValue
    exact hNot ⟨v, t', defaultValue_iff.mp hValue⟩

theorem literal_eq_none {t : Text} (h : StopsAt isLiteralChar t) : literal t = none := by
  refine Option.eq_none_iff_forall_ne_some.mpr fun p hLiteral => ?_
  obtain ⟨s, t'⟩ := p
  obtain ⟨hNe, rfl, hs, -⟩ := literal_iff.mp hLiteral
  cases s with
  | nil => exact hNe rfl
  | cons c s =>
    have hc := hs c List.mem_cons_self
    rw [h c rfl] at hc
    cases hc

theorem fragment_iff {t t' : Text} {f : Fragment} :
    fragment t = some (f, t') ↔
      match f with
      | .literal s => s ≠ [] ∧ t = s ++ t' ∧ (∀ c ∈ s, isLiteralChar c = true) ∧
          StopsAt isLiteralChar t'
      | .reference n none => ValidName n ∧ t = '$' :: (n ++ t') ∧ StopsAt isNameChar t' ∧
          ¬ StartsWithDefault t'
      | .reference n (some v) => ValidName n ∧ t = '$' :: (n ++ '(' :: (v ++ ')' :: t')) ∧
          ∀ c ∈ v, isDefaultChar c = true := by
  have hDollar (u : Text) : literal ('$' :: u) = none := literal_eq_none (stopsAt_cons rfl)
  rw [fragment, Option.or_eq_some_iff]
  constructor
  · rintro (hLiteral | ⟨-, hReference⟩)
    · obtain ⟨⟨s, u⟩, hRead, hEq⟩ := Option.map_eq_some_iff.mp hLiteral
      obtain ⟨rfl, rfl⟩ := Prod.mk.inj hEq
      exact literal_iff.mp hRead
    · obtain ⟨⟨⟨n, d⟩, u⟩, hRead, hEq⟩ := Option.map_eq_some_iff.mp hReference
      obtain ⟨rfl, rfl⟩ := Prod.mk.inj hEq
      obtain ⟨t₁, t₂, rfl, hName, hRest⟩ := reference_eq_some.mp hRead
      obtain ⟨hn, rfl, hStop⟩ := name_iff.mp hName
      rcases hRest with ⟨v, rfl, hValue⟩ | ⟨rfl, hValue, rfl⟩
      · obtain ⟨rfl, hv⟩ := defaultValue_iff.mp hValue
        exact ⟨hn, rfl, hv⟩
      · exact ⟨hn, rfl, hStop, defaultValue_eq_none_iff.mp hValue⟩
  · intro h
    cases f with
    | literal s => exact .inl (Option.map_eq_some_iff.mpr ⟨_, literal_iff.mpr h, rfl⟩)
    | reference n d =>
      cases d with
      | none =>
        obtain ⟨hn, rfl, hStop, hNot⟩ := h
        have hRead := reference_eq_some.mpr ⟨_, _, rfl, name_append hn hStop,
          .inr ⟨rfl, defaultValue_eq_none_iff.mpr hNot, rfl⟩⟩
        exact .inr ⟨by rw [hDollar]; rfl, by rw [hRead]; rfl⟩
      | some v =>
        obtain ⟨hn, rfl, hv⟩ := h
        have hStop : StopsAt isNameChar ('(' :: (v ++ ')' :: t')) := stopsAt_cons rfl
        have hRead := reference_eq_some.mpr ⟨_, _, rfl, name_append hn hStop,
          .inl ⟨v, rfl, defaultValue_iff.mpr ⟨rfl, hv⟩⟩⟩
        exact .inr ⟨by rw [hDollar]; rfl, by rw [hRead]; rfl⟩

theorem fragments_of_none {t : Text} (h : fragment t = none) : fragments t = ([], t) :=
  iterate_of_none (Option.map_eq_none_iff.mpr h)

theorem fragments_of_some {t t' : Text} {f : Fragment} (h : fragment t = some (f, t')) :
    fragments t = (f :: (fragments t').1, (fragments t').2) := by
  have hRound : assign (fun f fs => fs ++ [f]) fragment [] t = some ([f], t') := by
    rw [assign, h]
    rfl
  have hPrefix (fs : List Fragment) (u : Text) :
      (assign (fun f fs => fs ++ [f]) fragment fs u).map (fun p => (f :: p.1, p.2)) =
        assign (fun f fs => fs ++ [f]) fragment (f :: fs) u := by
    simp only [assign, Option.map_map]
    rfl
  rw [fragments, iterate_of_some (shrinks_assign_fragment _) hRound]
  exact iterate_map (shrinks_assign_fragment _) (f :: ·) hPrefix [] t'

theorem spelled_of_fragment {t t' : Text} {f : Fragment} {fs : List Fragment}
    (h : fragment t = some (f, t')) (hRest : Spelled t' fs) : Spelled t (f :: fs) := by
  have hText := fragment_iff.mp h
  cases f with
  | literal s =>
    obtain ⟨hNe, rfl, hs, hStop⟩ := hText
    exact .literal hNe hs hStop hRest
  | reference n d =>
    cases d with
    | none =>
      obtain ⟨hn, rfl, hStop, hNot⟩ := hText
      exact .reference hn hStop hNot hRest
    | some v =>
      obtain ⟨hn, rfl, hv⟩ := hText
      exact .withDefault hn hv hRest

theorem fragments_of_spelled {t : Text} {fs : List Fragment} (h : Spelled t fs) :
    fragments t = (fs, []) := by
  induction h with
  | nil => exact fragments_of_none rfl
  | @literal s t fs hNe hs hStop _ ih =>
    have hFragment : fragment (s ++ t) = some (.literal s, t) :=
      fragment_iff.mpr ⟨hNe, rfl, hs, hStop⟩
    rw [fragments_of_some hFragment, ih]
  | @reference n t fs hn hStop hNot _ ih =>
    have hFragment : fragment ('$' :: (n ++ t)) = some (.reference n none, t) :=
      fragment_iff.mpr ⟨hn, rfl, hStop, hNot⟩
    rw [fragments_of_some hFragment, ih]
  | @withDefault n v t fs hn hv _ ih =>
    have hFragment : fragment ('$' :: (n ++ '(' :: (v ++ ')' :: t))) =
        some (.reference n (some v), t) := fragment_iff.mpr ⟨hn, rfl, hv⟩
    rw [fragments_of_some hFragment, ih]

theorem spelled_of_fragments {t : Text} {fs : List Fragment} (h : fragments t = (fs, [])) :
    Spelled t fs := by
  induction hLength : t.length using Nat.strongRecOn generalizing t fs with
  | ind n ih =>
    cases hFirst : fragment t with
    | none =>
      rw [fragments_of_none hFirst] at h
      obtain ⟨rfl, rfl⟩ := Prod.mk.inj h
      exact .nil
    | some p =>
      obtain ⟨f, t'⟩ := p
      rw [fragments_of_some hFirst] at h
      obtain ⟨rfl, hRest⟩ := Prod.mk.inj h
      have hShorter := shrinks_fragment t t' f hFirst
      exact spelled_of_fragment hFirst
        (ih t'.length (by omega) (Prod.ext rfl hRest) rfl)

def StartsWithFragment (t : Text) : Prop :=
  (∃ c u, t = c :: u ∧ isLiteralChar c = true) ∨ ∃ c u, t = '$' :: c :: u ∧ isLetter c = true

theorem isSome_fragment_iff {t : Text} : (fragment t).isSome = true ↔ StartsWithFragment t := by
  constructor
  · intro h
    obtain ⟨⟨f, t'⟩, hFragment⟩ := Option.isSome_iff_exists.mp h
    have hText := fragment_iff.mp hFragment
    have hName {n u : Text} (hn : ValidName n) : StartsWithFragment ('$' :: (n ++ u)) := by
      cases n with
      | nil => cases hn
      | cons c n => exact .inr ⟨c, n ++ u, rfl, hn.1⟩
    cases f with
    | literal s =>
      obtain ⟨hNe, rfl, hs, -⟩ := hText
      cases s with
      | nil => exact absurd rfl hNe
      | cons c s => exact .inl ⟨c, s ++ t', rfl, hs c List.mem_cons_self⟩
    | reference n d =>
      cases d with
      | none =>
        obtain ⟨hn, rfl, -⟩ := hText
        exact hName hn
      | some v =>
        obtain ⟨hn, rfl, -⟩ := hText
        exact hName hn
  · rintro (⟨c, u, rfl, hc⟩ | ⟨c, u, rfl, hc⟩)
    · obtain ⟨s, hSplit, hs, hStop⟩ := many_satisfy_split isLiteralChar (c :: u)
      have hNe : s ≠ [] := by
        rintro rfl
        rw [← List.nil_append (many _ _), ← hSplit] at hStop
        rw [hStop c rfl] at hc
        cases hc
      rw [fragment, literal_iff.mpr ⟨hNe, hSplit, hs, hStop⟩]
      rfl
    · obtain ⟨s, hSplit, hs, hStop⟩ := many_satisfy_split isNameChar u
      have hRead : name (c :: u) = some (c :: s, many (satisfy isNameChar) u) :=
        name_iff.mpr ⟨⟨hc, hs⟩, congrArg (c :: ·) hSplit, hStop⟩
      obtain ⟨d, t', hReference⟩ : ∃ d t', reference ('$' :: c :: u) = some ((c :: s, d), t') := by
        cases hValue : defaultValue (many (satisfy isNameChar) u) with
        | none => exact ⟨none, _, reference_eq_some.mpr ⟨_, _, rfl, hRead, .inr ⟨rfl, hValue, rfl⟩⟩⟩
        | some q =>
          exact ⟨some q.1, q.2, reference_eq_some.mpr ⟨_, _, rfl, hRead, .inl ⟨_, rfl, hValue⟩⟩⟩
      rw [fragment, literal_eq_none (stopsAt_cons rfl), hReference]
      rfl

end Reading

theorem isSome_fragment_of_spelled {t : Text} {fs : List Fragment} (h : Spelled t fs) :
    (fragment t).isSome = !fs.isEmpty := by
  have hAll := fragments_of_spelled h
  cases hFirst : fragment t with
  | none =>
    rw [fragments_of_none hFirst] at hAll
    rw [← (Prod.mk.inj hAll).1]
    rfl
  | some p =>
    rw [fragments_of_some hFirst] at hAll
    rw [← (Prod.mk.inj hAll).1]
    rfl

/-- `command` matches a text of fragments, if there are any, and the command expands to what its
text says exactly if no default value leaks. -/
theorem generate_eq_expand_iff (varmap : Std.ExtTreeMap Text Text compare) {text : Text}
    {fs : List Fragment} (h : Spelled text fs) :
    ∃ cmd s, runCommand text = some (!fs.isEmpty, cmd, s) ∧
      (cmd.generate varmap = some (expand varmap fs) ↔ NoLeak varmap fs) := by
  obtain ⟨s, hRun, -⟩ := runCommand_eq text
  rw [fragments_of_spelled h, isSome_fragment_of_spelled h] at hRun
  refine ⟨_, s, hRun, ?_⟩
  rw [generate_ofFragments, Option.some.injEq]
  exact expandFrom_eq_iff fs

theorem generate_eq_expand_iff_run :
    ∃ cmd s, runCommand "x $a(1)".toList = some (true, cmd, s) ∧
      cmd.generate ∅ = some "x 1".toList := by
  have hText : Spelled "x $a(1)".toList [.literal "x ".toList, .reference ['a'] (some ['1'])] :=
    .literal (s := "x ".toList) (t := "$a(1)".toList) (by decide) (List.all_eq_true.mp rfl)
      (stopsAt_cons rfl) (.withDefault (n := ['a']) (v := ['1']) (by decide)
        (List.all_eq_true.mp rfl) .nil)
  obtain ⟨cmd, s, hRun, hGenerate⟩ := generate_eq_expand_iff ∅ hText
  refine ⟨cmd, s, hRun, hGenerate.mpr fun pre n post hEq _ => ?_⟩
  have hMem : Fragment.reference n none ∈ pre ++ .reference n none :: post := by simp
  simp [← hEq] at hMem

/-- The reference without a default value has that of the reference before it. -/
theorem default_leaks :
    Spelled "$a(1)$b".toList [.reference ['a'] (some ['1']), .reference ['b'] none] ∧
      (runCommand "$a(1)$b".toList).bind (fun p => p.2.1.generate ∅) = some "11".toList ∧
      expand ∅ [.reference ['a'] (some ['1']), .reference ['b'] none] = "1".toList := by
  refine ⟨?_, by decide +kernel, by decide +kernel⟩
  have hNot : ¬ StartsWithDefault [] := by
    rintro ⟨v, t', hEq, -⟩
    cases hEq
  exact .withDefault (n := ['a']) (v := ['1']) (by decide) (List.all_eq_true.mp rfl)
    (.reference (n := ['b']) (by decide) (stopsAt_nil _) hNot .nil)

/-- If `command` matches, then it has read the whole text, exactly if the text is a sequence of
fragments or does not begin with one (and then `command` does not match). -/
theorem consumed_iff (text : Text) :
    ∃ ok cmd s, runCommand text = some (ok, cmd, s) ∧
      ((ok = true → s.pos = text.length) ↔
        (∃ fs, Spelled text fs) ∨ ¬ StartsWithFragment text) := by
  obtain ⟨s, hRun, hEnd⟩ := runCommand_eq text
  refine ⟨_, _, s, hRun, ?_⟩
  rw [isSome_fragment_iff]
  have hWhole : s.pos = text.length ↔ ∃ fs, Spelled text fs := by
    constructor
    · intro hPos
      have hNil : (fragments text).2 = [] := List.length_eq_zero_iff.mp (by omega)
      exact ⟨_, spelled_of_fragments (Prod.ext rfl hNil)⟩
    · rintro ⟨fs, hSpelled⟩
      rw [fragments_of_spelled hSpelled] at hEnd
      exact hEnd
  rw [hWhole, or_comm, imp_iff_not_or]

/-- The command `a $5` is launched as `a `. -/
theorem command_truncated :
    (runCommand "a $5".toList).map (fun p => (p.1, p.2.2.pos, p.2.1.generate ∅)) =
        some (true, 2, some "a ".toList) ∧
      2 ≠ "a $5".toList.length := by
  exact ⟨by decide +kernel, by decide⟩

end Henson.Hwl
