import Henson.Parser.Frame
import Henson.Hwl.Refinement
import Henson.Hwl.WellFormed

/-!
# Command lines

What a run of the parser makes of a command line, fragment by fragment. The rule
for a variable assigns a default value only if there is one, to a variable that
all references share. Its memo entries depend on that, and are never read.
-/

namespace Henson.Hwl

open Peg Henson.Parser Reading

namespace Reading

section Variables

variable {Locals : Type}

theorem shrinks_literalChar : Shrinks literalChar := (shrinks_satisfy _).after_notAhead

theorem shrinks_defaultChar : Shrinks defaultChar := (shrinks_satisfy _).after_notAhead

theorem recognizes_literalChar :
    Recognizes meaning (Combinator.sequence [Combinator.lookNot (Combinator.literal '$'),
      Combinator.any] : Combinator _ Locals) literalChar :=
  (Recognizes.literal (by decide)).lookNot.sequence_cons Recognizes.any.sequence_one

theorem recognizes_defaultChar :
    Recognizes meaning (Combinator.sequence [Combinator.lookNot (Combinator.literal ')'),
      Combinator.any] : Combinator _ Locals) defaultChar :=
  (Recognizes.literal (by decide)).lookNot.sequence_cons Recognizes.any.sequence_one

/-- What `option defaultValue` does to the local variables, also where the closing parenthesis is
missing. -/
def optionalDefault : Action Char Grammar.VariableLocals := fun l t =>
  match satisfy (· = '(') t with
  | none => some (l, t)
  | some t₁ =>
    let v := t₁.take (t₁.length - (many defaultChar t₁).length)
    match satisfy (· = ')') (many defaultChar t₁) with
    | none => some ({ l with v := v }, t)
    | some t₂ => some ({ l with v := v, psVal := { l.psVal with value := v } }, t₂)

theorem option_of_run {c : Combinator Grammar.Value Locals} {ok : Bool} {l l' : Locals}
    {s s' : State Grammar.Value} (h : c l s = some (ok, l', s')) :
    Combinator.option c l s = some (true, l', s') := by
  simp [Combinator.option, h]

theorem implements_optionalDefault {K : Type} {keep : Grammar.VariableLocals → K} (n : Nat) :
    Implements meaning n (fun _ => True) keep (Combinator.option Grammar.defaultValue)
      optionalDefault where
  success l s l' t _ hs _ hg := by
    have hOpen : Recognizes meaning (Combinator.literal '(' : Combinator _ Grammar.VariableLocals)
      _ := .literal (by decide)
    have hClose : Recognizes meaning (Combinator.literal ')' : Combinator _ Grammar.VariableLocals)
      _ := .literal (by decide)
    have hText (n) : Implements meaning n (fun _ => True) (fun l => l)
        (Combinator.capture Grammar.VariableLocals.refV (Combinator.memoizeMany 13
          (Combinator.sequence [Combinator.lookNot (Combinator.literal ')'), Combinator.any])))
        (assign Grammar.VariableLocals.refV.set defaultText) :=
      .capture (recognizes_defaultChar.memoizeMany shrinks_defaultChar fun _ => rfl)
    rw [optionalDefault] at hg
    cases hFirst : satisfy (· = '(') s.rest with
    | none =>
      rw [hFirst] at hg
      obtain ⟨rfl, rfl⟩ := Prod.mk.inj (Option.some.inj hg)
      obtain ⟨s₁, hc, hLeads⟩ := hOpen.failure l s hs hFirst
      exact ⟨_, option_of_run (sequence_of_false hc), hLeads.back hs⟩
    | some t₁ =>
      rw [hFirst] at hg
      obtain ⟨s₁, hc₁, hLeads₁⟩ := hOpen.success l s t₁ hs hFirst
      obtain ⟨s₂, hc₂, hLeads₂⟩ :=
        (hText _).success l s₁ _ _ trivial hLeads₁.sound (Nat.lt_succ_self _) rfl
      rw [hLeads₁.rest_eq] at hc₂ hLeads₂
      have hLeads := hLeads₁.trans hLeads₂
      cases hSecond : satisfy (· = ')') (many defaultChar t₁) with
      | none =>
        simp only [hSecond] at hg
        obtain ⟨rfl, rfl⟩ := Prod.mk.inj (Option.some.inj hg)
        obtain ⟨s₃, hc₃, hLeads₃⟩ := hClose.failure _ s₂ hLeads₂.sound (hLeads₂.rest_eq ▸ hSecond)
        exact ⟨_, option_of_run (sequence_of_true hc₁ (sequence_of_true hc₂
          (sequence_of_false hc₃))), (hLeads.trans hLeads₃).back hs⟩
      | some t₂ =>
        simp only [hSecond] at hg
        obtain ⟨rfl, rfl⟩ := Prod.mk.inj (Option.some.inj hg)
        obtain ⟨s₃, hc₃, hLeads₃⟩ :=
          hClose.success _ s₂ t₂ hLeads₂.sound (hLeads₂.rest_eq ▸ hSecond)
        exact ⟨_, option_of_run (sequence_of_true hc₁ (sequence_of_true hc₂
          (sequence_of_true hc₃ rfl))), hLeads.trans hLeads₃⟩
  failure l s _ _ _ hg := by
    rw [optionalDefault] at hg
    split at hg
    · cases hg
    · split at hg <;> cases hg

def variableAction : Action Char Grammar.VariableLocals :=
  (quiet (satisfy (· = '$'))).andThen ((assign Grammar.VariableLocals.refN.set name).andThen
    (optionalDefault.andThen (update fun l => { l with psVal := { l.psVal with name := l.n } })))

theorem optionalDefault_eq (l : Grammar.VariableLocals) (t : Text) :
    ∃ l' t', optionalDefault l t = some (l', t') ∧ l'.n = l.n ∧
      match defaultValue t with
      | some (v, t₁) => l'.psVal.value = v ∧ t' = t₁
      | none => l'.psVal.value = l.psVal.value ∧ t' = t := by
  simp only [optionalDefault, defaultValue, defaultText, consumed, Option.bind_eq_bind]
  cases satisfy (· = '(') t with
  | none => exact ⟨_, _, rfl, rfl, rfl, rfl⟩
  | some t₁ =>
    simp only [Option.bind_some, Option.map_some]
    cases satisfy (· = ')') (many defaultChar t₁) with
    | none => exact ⟨_, _, rfl, rfl, rfl, rfl⟩
    | some t₂ => exact ⟨_, _, rfl, rfl, rfl, rfl⟩

theorem variableAction_eq (v : Variable) (t : Text) :
    (variableAction { psVal := v } t).map (fun p => (p.1.psVal, p.2)) =
      (reference t).map fun p => (⟨p.1.1, p.1.2.getD v.value⟩, p.2) := by
  cases hDollar : satisfy (· = '$') t with
  | none => simp [variableAction, reference, Action.andThen, quiet, hDollar]
  | some t₁ =>
    cases hRead : name t₁ with
    | none => simp [variableAction, reference, Action.andThen, quiet, assign, hDollar, hRead]
    | some p =>
      obtain ⟨n, t₂⟩ := p
      obtain ⟨l', t', hOptional, hName, hDefault⟩ := optionalDefault_eq { psVal := v, n := n } t₂
      have hSet : Grammar.VariableLocals.refN.set n { psVal := v } = { psVal := v, n := n } := rfl
      have hRule : variableAction { psVal := v } t =
          some ({ l' with psVal := { l'.psVal with name := l'.n } }, t') := by
        simp [variableAction, Action.andThen, quiet, assign, update, hDollar, hRead, hSet, hOptional]
      rw [hRule, Option.map_some]
      cases hValue : defaultValue t₂ with
      | none =>
        rw [hValue] at hDefault
        simp [reference, hDollar, hRead, hValue, hName, hDefault.1, hDefault.2]
      | some q =>
        obtain ⟨w, t₃⟩ := q
        rw [hValue] at hDefault
        simp [reference, hDollar, hRead, hValue, hName, hDefault.1, hDefault.2]

theorem length_defaultValue_le {t t' v : Text} (h : defaultValue t = some (v, t')) :
    t'.length ≤ t.length := by
  simp only [defaultValue, Option.bind_eq_bind, Option.bind_eq_some_iff, Prod.exists,
    Option.pure_def, Option.some.injEq, Prod.mk.injEq] at h
  obtain ⟨t₁, hOpen, w, t₂, hText, t₃, hClose, -, rfl⟩ := h
  have h₁ := shrinks_satisfy _ _ _ hOpen
  have h₂ := length_many_le defaultChar t₁
  have h₃ := shrinks_satisfy _ _ _ hClose
  rw [Option.some.inj (consumed_eq_some.mp hText).1] at h₂
  omega

theorem reference_eq_some {t t' n : Text} {d : Option Text} :
    reference t = some ((n, d), t') ↔ ∃ t₁ t₂, t = '$' :: t₁ ∧ name t₁ = some (n, t₂) ∧
      ((∃ v, d = some v ∧ defaultValue t₂ = some (v, t')) ∨
        d = none ∧ defaultValue t₂ = none ∧ t' = t₂) := by
  simp only [reference, Option.bind_eq_bind, Option.bind_eq_some_iff, satisfy_eq_iff, Prod.exists]
  refine exists_congr fun t₁ => ?_
  constructor
  · rintro ⟨hDollar, m, t₂, hName, h⟩
    refine ⟨t₂, hDollar, ?_⟩
    cases hValue : defaultValue t₂ with
    | none =>
      rw [hValue] at h
      obtain ⟨hSame, rfl⟩ := Prod.mk.inj (Option.some.inj h)
      obtain ⟨rfl, rfl⟩ := Prod.mk.inj hSame
      exact ⟨hName, .inr ⟨rfl, rfl, rfl⟩⟩
    | some q =>
      obtain ⟨v, t₃⟩ := q
      rw [hValue] at h
      obtain ⟨hSame, rfl⟩ := Prod.mk.inj (Option.some.inj h)
      obtain ⟨rfl, rfl⟩ := Prod.mk.inj hSame
      exact ⟨hName, .inl ⟨v, rfl, rfl⟩⟩
  · rintro ⟨t₂, hDollar, hName, ⟨v, rfl, hValue⟩ | ⟨rfl, hValue, rfl⟩⟩
    · exact ⟨hDollar, n, t₂, hName, by rw [hValue]; rfl⟩
    · exact ⟨hDollar, n, t', hName, by rw [hValue]; rfl⟩

theorem length_reference_lt {t t' : Text} {p : Text × Option Text}
    (h : reference t = some (p, t')) : t'.length < t.length := by
  obtain ⟨n, d⟩ := p
  obtain ⟨t₁, t₂, rfl, hName, hRest⟩ := reference_eq_some.mp h
  have hShorter := length_name_lt hName
  rw [List.length_cons]
  obtain ⟨v, -, hValue⟩ | ⟨-, -, rfl⟩ := hRest
  · have hLe := length_defaultValue_le hValue
    omega
  · omega

theorem shrinks_variableAction (v : Variable) (t : Text) (l' : Grammar.VariableLocals) (t' : Text)
    (h : variableAction { psVal := v } t = some (l', t')) : t'.length < t.length := by
  have hRead := variableAction_eq v t
  rw [h] at hRead
  obtain ⟨p, hReference, hEq⟩ := Option.map_eq_some_iff.mp hRead.symm
  obtain ⟨-, rfl⟩ := Prod.mk.inj hEq
  exact length_reference_lt hReference

theorem leaves_name : Leaves 12 Grammar.name := by
  have hLetter : Leaves 12 (Grammar.letter : Combinator Grammar.Value Text) :=
    .memoize (by decide) (.choice (by simp [Leaves.between, Leaves.literal]))
  have hNumber : Leaves 12 (Grammar.number : Combinator Grammar.Value Text) :=
    .memoize (by decide) (.between _ _)
  have hRest : Leaves 12 (Combinator.memoizeMany 15
      (Combinator.choice [Grammar.letter, Grammar.number, Combinator.literal '-']) :
        Combinator Grammar.Value Text) :=
    .memoizeMany (by decide) (.choice (by simp [hLetter, hNumber, Leaves.literal]))
  exact .memoizeValue (by decide) (.capture (.sequence (by simp [hLetter, hRest])))

theorem leaves_upTo (a : Char) :
    Leaves 12 (Combinator.sequence [Combinator.lookNot (Combinator.literal a), Combinator.any] :
      Combinator Grammar.Value Locals) := by
  have hNot : Leaves 12 (Combinator.lookNot (Combinator.literal a) :
      Combinator Grammar.Value Locals) := .lookNot (.literal a)
  exact .sequence (by simp [hNot, Leaves.any])

theorem leaves_optionalDefault : Leaves 12 (Combinator.option Grammar.defaultValue) := by
  have hText : Leaves 12 (Combinator.capture Grammar.VariableLocals.refV (Combinator.memoizeMany 13
      (Combinator.sequence [Combinator.lookNot (Combinator.literal ')'), Combinator.any]) :
        Combinator Grammar.Value Grammar.VariableLocals)) :=
    .capture (.memoizeMany (by decide) (leaves_upTo _))
  exact .option (.sequence (by simp [hText, Leaves.literal, Leaves.action]))

theorem implements_variable :
    ImplementsFresh meaning 12 Grammar.commandVariable fun v t =>
      (reference t).map fun p => (⟨p.1.1, p.1.2.getD v.value⟩, p.2) := by
  have hName (n) : Implements meaning n (fun _ => True) (fun l => l)
      (Combinator.bind Grammar.VariableLocals.refN Grammar.name)
      (assign Grammar.VariableLocals.refN.set name) := .bind (reads_name n) fun _ h => h
  have hLeaves : Leaves 12 (Combinator.bind Grammar.VariableLocals.refN Grammar.name) :=
    .bind leaves_name
  have hBody (n) : Implements meaning n (fun _ => True) Grammar.VariableLocals.refPsVal.get _
      variableAction :=
    .quiet_cons (Recognizes.literal (by decide)) <|
      .assign_cons (hName n) (fun _ _ h => h) (fun _ _ => rfl) <|
      .of_keep_all (.sequence_action (implements_optionalDefault n) _)
  have hMeaning (v : Variable) (t : Text) : meaning 12 t =
      (variableAction { psVal := v } t).map fun p => (none, p.2) := by
    have hRead := congrArg (Option.map fun p => ((none : Option Grammar.Value), p.2))
      (variableAction_eq v t)
    rw [Option.map_map, Option.map_map] at hRead
    change ((reference t).map Prod.snd).map _ = _
    rw [Option.map_map]
    exact hRead.symm
  have hRule : ImplementsFresh meaning 12 Grammar.commandVariable fun v t =>
      (variableAction { psVal := v } t).map fun p => (p.1.psVal, p.2) :=
    .memoizeValue hBody
      (.sequence (by simp [hLeaves, leaves_optionalDefault, Leaves.literal, Leaves.action]))
      shrinks_variableAction (fun _ => rfl) hMeaning
  simpa only [variableAction_eq] using hRule

end Variables

end Reading

inductive Fragment where
  | literal (s : Text)
  | reference (name : Text) (value : Option Text)
  deriving DecidableEq

/-- The command so far, and the default value that the shared variable has. -/
def Command.addFragment : Command × Text → Fragment → Command × Text
  | (c, d), .literal s => (c.addString s, d)
  | (c, d), .reference n value => (c.addVariable ⟨n, value.getD d⟩, value.getD d)

def Command.ofFragments (fs : List Fragment) : Command := (fs.foldl addFragment ({}, [])).1

namespace Reading

def fragment : Reader Char Fragment := fun t =>
  ((literal t).map fun p => (.literal p.1, p.2)).or
    ((reference t).map fun p => (.reference p.1.1 p.1.2, p.2))

def fragments (t : Text) : List Fragment × Text :=
  iterate (assign (fun f fs => fs ++ [f]) fragment) [] t

def round : Action Char Grammar.CommandLocals :=
  ((assign Grammar.CommandLocals.refS.set literal).andThen
    (update fun l => { l with psVal := l.psVal.addString l.s })).orElse
  (Action.andThen
    (fun l t => ((reference t).map fun p => (⟨p.1.1, p.1.2.getD l.v.value⟩, p.2)).map fun p =>
      (Grammar.CommandLocals.refV.set p.1 l, p.2))
    (update fun l => { l with psVal := l.psVal.addVariable l.v }))

theorem implements_round : ImplementsFresh meaning 12 Grammar.commandRound round := by
  have hLiteral (n) : Implements meaning n (fun _ => True) (fun l => l)
      (Combinator.capture Grammar.CommandLocals.refS (Combinator.memoizeSome 11
        (Combinator.sequence [Combinator.lookNot (Combinator.literal '$'), Combinator.any])))
      (assign Grammar.CommandLocals.refS.set literal) :=
    .capture (recognizes_literalChar.memoizeSome shrinks_literalChar fun _ => rfl)
  have hLeaves : Leaves 12 (Combinator.capture Grammar.CommandLocals.refS
      (Combinator.memoizeSome 11 (Combinator.sequence [Combinator.lookNot (Combinator.literal '$'),
        Combinator.any]) : Combinator Grammar.Value Grammar.CommandLocals)) :=
    .capture (.memoizeSome (by decide) (leaves_upTo _))
  exact .choice_cons (fun n => .sequence_action (hLiteral n) _)
    (.sequence (by simp [hLeaves, Leaves.action]))
    (.choice_one (.sequence_action (.bind implements_variable) _))

/-- What a round keeps: the command, and the default value of the shared variable. -/
def kept (l : Grammar.CommandLocals) : Command × Text := (l.psVal, l.v.value)

theorem round_kept (l : Grammar.CommandLocals) (t : Text) :
    (round l t).map (fun p => (kept p.1, p.2)) =
      assign (fun f c => Command.addFragment c f) fragment (kept l) t := by
  simp only [round, Action.orElse, Action.andThen, assign, update, fragment]
  cases literal t with
  | some p => rfl
  | none =>
    cases reference t with
    | none => rfl
    | some p => rfl

theorem shrinks_fragment (t t' : Text) (f : Fragment) (h : fragment t = some (f, t')) :
    t'.length < t.length := by
  rcases Option.or_eq_some_iff.mp h with hLiteral | ⟨-, hReference⟩
  · obtain ⟨⟨s, t₁⟩, hRead, hEq⟩ := Option.map_eq_some_iff.mp hLiteral
    obtain ⟨-, rfl⟩ := Prod.mk.inj hEq
    exact (several_eq_some.mp (consumed_eq_some.mp hRead).1).1
  · obtain ⟨p, hRead, hEq⟩ := Option.map_eq_some_iff.mp hReference
    obtain ⟨-, rfl⟩ := Prod.mk.inj hEq
    exact length_reference_lt hRead

theorem shrinks_assign_fragment {Locals : Type} (set : Fragment → Locals → Locals) :
    (assign set fragment).Shrinks := by
  intro l t l' t' h
  obtain ⟨⟨f, t₁⟩, hRead, hEq⟩ := Option.map_eq_some_iff.mp h
  obtain ⟨-, rfl⟩ := Prod.mk.inj hEq
  exact shrinks_fragment t t₁ f hRead

theorem shrinks_round : round.Shrinks :=
  Action.Shrinks.of_map (shrinks_assign_fragment fun f c => Command.addFragment c f) kept round_kept

theorem iterate_round (t : Text) :
    (iterate round {} t).1.psVal = Command.ofFragments (fragments t).1 ∧
      (iterate round {} t).2 = (fragments t).2 := by
  let build (fs : List Fragment) : Command × Text := fs.foldl Command.addFragment ({}, [])
  have hBuild (fs : List Fragment) (t : Text) :
      (assign (fun f fs => fs ++ [f]) fragment fs t).map (fun p => (build p.1, p.2)) =
        assign (fun f c => Command.addFragment c f) fragment (build fs) t := by
    simp only [assign, Option.map_map]
    refine congrArg (Option.map · (fragment t)) (funext fun p => ?_)
    simp [build]
  have hKept := iterate_map shrinks_round kept round_kept {} t
  have hBuilt := iterate_map (shrinks_assign_fragment _) build hBuild [] t
  have hSame := hKept.symm.trans hBuilt
  obtain ⟨hCommand, hRest⟩ := Prod.mk.inj hSame
  exact ⟨congrArg Prod.fst hCommand, hRest⟩

theorem round_eq_none {t : Text} : round {} t = none ↔ fragment t = none := by
  rw [← Option.map_eq_none_iff (f := fun p => (kept p.1, p.2)), round_kept, assign,
    Option.map_eq_none_iff]

end Reading

theorem run_command {ok : Bool} {l : Grammar.CommandLocals} {text : Text}
    {s : State Grammar.Value}
    (h : Combinator.some Grammar.commandRound {} { text := text } = some (ok, l, s)) :
    ∃ m, runCommand text = some (ok, l.psVal, s.setMemo 0 10 m) :=
  run_memoizeValue (x := Grammar.CommandLocals.refPsVal)
    (fun psVal => ({ psVal := psVal } : Grammar.CommandLocals)) {} rfl h

/-- A run of `command` matches exactly if the text begins with a fragment, gives the command of
all fragments up to the first place where none begins, and stops there. -/
theorem runCommand_eq (text : Text) :
    ∃ s, runCommand text =
        some ((fragment text).isSome, Command.ofFragments (fragments text).1, s) ∧
      s.pos + (fragments text).2.length = text.length := by
  have hSome := implements_round.some shrinks_round {} { text := text } (sound_initial text)
    (fresh_initial text)
  have hRest : State.rest ({ text := text } : State Grammar.Value) = text := rfl
  rw [hRest] at hSome
  obtain ⟨hCommand, hLeft⟩ := iterate_round text
  have hEnd {s : State Grammar.Value} {t : Text} (hLeads : Leads meaning { text := text } s t) :
      s.pos + t.length = text.length := by
    have hText : s.text = text := hLeads.text_eq
    have hPos := hLeads.sound.pos_le
    have hLength := congrArg List.length hLeads.rest_eq
    rw [length_rest, hText] at hLength
    rw [hText] at hPos
    omega
  cases hFirst : round {} text with
  | none =>
    rw [hFirst] at hSome
    obtain ⟨s, hRun, hLeads⟩ := hSome
    obtain ⟨m, hCommandRun⟩ := run_command hRun
    rw [iterate_of_none hFirst] at hCommand hLeft
    have hStop := hEnd hLeads
    rw [← hCommand, ← hLeft, round_eq_none.mp hFirst]
    exact ⟨_, hCommandRun, hStop⟩
  | some p =>
    obtain ⟨l, t⟩ := p
    rw [hFirst] at hSome
    obtain ⟨s, hRun, hLeads⟩ := hSome
    obtain ⟨m, hCommandRun⟩ := run_command hRun
    rw [iterate_of_some shrinks_round hFirst] at hCommand hLeft
    have hMatch : (fragment text).isSome = true := by
      cases hFragment : fragment text with
      | none => rw [round_eq_none.mpr hFragment] at hFirst; cases hFirst
      | some f => rfl
    have hStop := hEnd hLeads
    rw [← hCommand, ← hLeft, hMatch]
    exact ⟨_, hCommandRun, hStop⟩

end Henson.Hwl
