import Henson.Hwl.Grammar
import Henson.Hwl.SmallStep

/-!
# Which puppets are loaded

`main` loads the puppets that the script defines and the group uses. The executor
looks puppets up under the names that the group calls, and `operator[]` gives it a
null puppet for any other name.
-/

namespace Henson.Hwl

open TransitionSystem

mutual
def Statement.uses (n : Text) : Statement → Bool
  | .mk call body => call == n || call == '*' :: n || Statement.bodyUses n body

def Statement.bodyUses (n : Text) : List Statement → Bool
  | [] => false
  | s :: rest => s.uses n || Statement.bodyUses n rest
end

def ControlFlow.uses (control : ControlFlow) (n : Text) : Bool :=
  Statement.bodyUses n control.commands

/-- The `puppets` map, with the command that each puppet was made from. -/
abbrev Puppets := Std.ExtTreeMap Text Text compare

/-- `main` from the puppets of the script to the map. A command of a puppet in use that does
not parse is reported. -/
def loadPuppets (commandParses : Text → Bool) (control : ControlFlow) :
    List PuppetCommand → Puppets → Except Text Puppets
  | [], puppets => .ok puppets
  | p :: rest, puppets =>
    if !control.uses p.name then loadPuppets commandParses control rest puppets
    else if commandParses p.command then
      loadPuppets commandParses control rest (puppets.insert p.name p.command)
    else .error ("Couldn't parse command: ".toList ++ p.command)

/-- The loop with the puppets that were loaded: a step that needs another puppet does not
happen, since it would dereference a null pointer. -/
def puppetMachine (b : Behaviours) (control : ControlFlow) (puppets : Puppets) :
    Machine Config Unit :=
  (configMachine b control).restrict fun c _ => ∀ sight ∈ c.sight, sight.name ∈ puppets

/-- `statement` without the star. -/
def calledName : Text → Text
  | '*' :: name => name
  | name => name

mutual
def Statement.names : Statement → List Text
  | .mk call body => calledName call :: Statement.bodyNames body

def Statement.bodyNames : List Statement → List Text
  | [] => []
  | s :: rest => s.names ++ Statement.bodyNames rest
end

def ControlFlow.names (control : ControlFlow) : List Text := Statement.bodyNames control.commands

@[simp] theorem Statement.bodyNames_append (l l' : List Statement) :
    Statement.bodyNames (l ++ l') = Statement.bodyNames l ++ Statement.bodyNames l' := by
  induction l with
  | nil => simp [Statement.bodyNames]
  | cons s l ih => simp [Statement.bodyNames, ih]

theorem listRevisit_fst (e : Executor) (call : Text) :
    (e.listRevisit call).1 = calledName call := by
  cases call with
  | nil => rfl
  | cons c name =>
    by_cases hStar : c = '*'
    · subst hStar
      rfl
    · simp [Executor.listRevisit, calledName, hStar]

theorem call_of_calledName {call name : Text} (h : calledName call = name) :
    call = name ∨ call = '*' :: name := by
  unfold calledName at h
  split at h
  · exact .inr (h ▸ rfl)
  · exact .inl h

mutual
theorem Statement.uses_of_mem_names {s : Statement} {name : Text} (h : name ∈ s.names) :
    s.uses name = true := by
  cases s with
  | mk call body =>
    simp only [Statement.uses, Bool.or_eq_true, beq_iff_eq]
    rcases List.mem_cons.mp h with hCall | hBody
    · exact .inl (call_of_calledName hCall.symm)
    · exact .inr (Statement.bodyUses_of_mem_bodyNames hBody)

theorem Statement.bodyUses_of_mem_bodyNames {l : List Statement} {name : Text}
    (h : name ∈ Statement.bodyNames l) : Statement.bodyUses name l = true := by
  cases l with
  | nil => cases h
  | cons s l =>
    simp only [Statement.bodyUses, Bool.or_eq_true]
    rcases List.mem_append.mp h with hHead | hTail
    · exact .inl (Statement.uses_of_mem_names hHead)
    · exact .inr (Statement.bodyUses_of_mem_bodyNames hTail)
end

theorem mem_loadPuppets {commandParses : Text → Bool} {control : ControlFlow}
    {l : List PuppetCommand} {puppets puppets' : Puppets}
    (h : loadPuppets commandParses control l puppets = .ok puppets') (name : Text) :
    name ∈ puppets' ↔
      name ∈ puppets ∨ control.uses name = true ∧ ∃ p ∈ l, p.name = name := by
  induction l generalizing puppets with
  | nil =>
    obtain rfl := Except.ok.inj h
    simp
  | cons p rest ih =>
    rw [loadPuppets] at h
    split at h
    · rename_i hUnused
      rw [ih h]
      have hNot : control.uses p.name ≠ true := by simpa using hUnused
      constructor
      · rintro (hOld | ⟨hUses, q, hq, hName⟩)
        · exact .inl hOld
        · exact .inr ⟨hUses, q, List.mem_cons_of_mem _ hq, hName⟩
      · rintro (hOld | ⟨hUses, q, hq, hName⟩)
        · exact .inl hOld
        · rcases List.mem_cons.mp hq with rfl | hq
          · exact absurd (hName ▸ hUses) hNot
          · exact .inr ⟨hUses, q, hq, hName⟩
    · split at h
      · rename_i hUsed _
        rw [ih h, Std.ExtTreeMap.mem_insert, Std.LawfulEqCmp.compare_eq_iff_eq]
        have hUses : control.uses p.name = true := by simpa using hUsed
        constructor
        · rintro ((rfl | hOld) | ⟨hUses, q, hq, hName⟩)
          · exact .inr ⟨hUses, p, List.mem_cons_self, rfl⟩
          · exact .inl hOld
          · exact .inr ⟨hUses, q, List.mem_cons_of_mem _ hq, hName⟩
        · rintro (hOld | ⟨hUses, q, hq, hName⟩)
          · exact .inl (.inr hOld)
          · rcases List.mem_cons.mp hq with rfl | hq
            · exact .inl (.inl hName)
            · exact .inr ⟨hUses, q, hq, hName⟩
      · cases h

/-- Every name that is still to be looked up is one that the group calls. -/
structure Called (control : ControlFlow) (c : Config) : Prop where
  statements : ∀ todo, c.remaining = .statements todo →
    ∀ name ∈ Statement.bodyNames todo, name ∈ control.names
  revisiting : ∀ names, c.remaining = .revisiting names → ∀ name ∈ names, name ∈ control.names
  revisit : ∀ name ∈ c.executor.revisit, name ∈ control.names

namespace Called

variable {b : Behaviours} {control : ControlFlow}

theorem revisit_listRevisit {e : Executor} {call : Text}
    (h : ∀ name ∈ e.revisit, name ∈ control.names) (hCall : calledName call ∈ control.names) :
    ∀ name ∈ (e.listRevisit call).2.revisit, name ∈ control.names := by
  unfold Executor.listRevisit
  split
  · intro name hName
    rcases List.mem_append.mp hName with hOld | hNew
    · exact h name hOld
    · exact List.mem_singleton.mp hNew ▸ hCall
  · exact h

theorem bodyNames_bodyToRun {e : Executor} {name n : Text} {body : List Statement}
    (h : n ∈ Statement.bodyNames (Config.bodyToRun e name body)) :
    n ∈ Statement.bodyNames body := by
  rw [Config.bodyToRun] at h
  split at h
  · cases h
  · split at h
    · exact h
    · cases h

theorem initial (control : ControlFlow) :
    Called control { remaining := .statements control.commands } where
  statements todo hTodo name hName := by
    obtain rfl := Remaining.statements.inj hTodo
    exact hName
  revisiting _ hNames := by cases hNames
  revisit _ hName := by cases hName

theorem step {c c' : Config} (h : Called control c) (hStep : c.step b control = some c') :
    Called control c' := by
  obtain ⟨-, ⟨call, body, rest, hTodo, rfl⟩ | ⟨-, rfl⟩ | ⟨name, names, hRevisiting, rfl⟩ |
    ⟨-, rfl⟩⟩ := Config.step_cases hStep
  · have hNames := h.statements _ hTodo
    simp only [Statement.bodyNames, Statement.names] at hNames
    refine ⟨?_, fun _ hNot => (by cases hNot), ?_⟩
    · intro todo hNew name hName
      obtain rfl := Remaining.statements.inj hNew
      rw [Statement.bodyNames_append] at hName
      rcases List.mem_append.mp hName with hBody | hRest
      · exact hNames name (by simp [bodyNames_bodyToRun hBody])
      · exact hNames name (by simp [hRest])
    · rw [Executor.revisit_exec]
      exact revisit_listRevisit h.revisit (hNames _ (by simp))
  · refine ⟨fun _ hNot => (by cases hNot), ?_, h.revisit⟩
    intro names hNames
    obtain rfl := Remaining.revisiting.inj hNames
    exact h.revisit
  · refine ⟨fun _ hNot => (by cases hNot), ?_, h.revisit⟩
    intro names' hNames n hn
    obtain rfl := Remaining.revisiting.inj hNames
    exact h.revisiting _ hRevisiting n (List.mem_cons_of_mem _ hn)
  · refine ⟨fun todo hTodo => ?_, fun _ hNot => (by cases hNot), fun _ hName => by cases hName⟩
    obtain rfl := Remaining.statements.inj hTodo
    exact fun name hName => hName

theorem of_reachable {c : Config} (h : (configMachine b control).Reachable c) :
    Called control c :=
  h.invariant (I := Called control) (initial control) fun _ _ _ hInv hStep => hInv.step hStep

theorem name_sight {c : Config} (h : Called control c) {sight : Sight}
    (hSight : c.sight = some sight) : sight.name ∈ control.names := by
  simp only [Config.sight] at hSight
  split at hSight
  · rename_i call body rest hTodo
    obtain rfl := Option.some.inj hSight
    dsimp only
    rw [listRevisit_fst]
    exact h.statements _ hTodo _ (by simp [Statement.bodyNames, Statement.names])
  · rename_i name names hNames
    obtain rfl := Option.some.inj hSight
    exact h.revisiting _ hNames _ List.mem_cons_self
  · cases hSight

end Called

def allReturn : Behaviours := fun _ _ => .returns 0

theorem result_exec {b : Behaviours} (control : ControlFlow) {e : Executor} {name : Text}
    {result : Int32} (h : b name (e.puppets name).resumptions = .returns result) :
    ((e.exec b control name).puppets name).result = result := by
  simp only [Executor.exec]
  split <;> split <;>
    simp [Executor.proceed, Executor.setPuppet, Puppet.signalStop, Puppet.proceed, h]

theorem bodyToRun_of_returns {b : Behaviours} (control : ControlFlow) {e : Executor} {name : Text}
    (h : b name (e.puppets name).resumptions = .returns 0) (body : List Statement) :
    Config.bodyToRun (e.exec b control name) name body = body := by
  rw [Config.bodyToRun, if_pos (result_exec control h)]
  split
  · rename_i hEmpty
    exact (List.isEmpty_iff.mp hEmpty).symm
  · rfl

theorem sight_statement (e : Executor) (i : Nat) (call : Text) (body rest : List Statement) :
    ∃ flag, Config.sight ⟨e, .statements (.mk call body :: rest), i, false⟩ =
      some ⟨calledName call, .statement, flag⟩ :=
  ⟨_, by rw [← listRevisit_fst e call]; rfl⟩

section Visits

variable {control : ControlFlow} {puppets : Puppets}

mutual
theorem visits_statement
    (hLoaded : ∀ c sight, (puppetMachine allReturn control puppets).Reachable c →
      c.sight = some sight → sight.name ∈ puppets)
    (s : Statement) (e : Executor) (i : Nat) (rest : List Statement)
    (hReach : (puppetMachine allReturn control puppets).Reachable
      ⟨e, .statements (s :: rest), i, false⟩) :
    (∀ name ∈ s.names, name ∈ puppets) ∧ ∃ e',
      (puppetMachine allReturn control puppets).Reachable ⟨e', .statements rest, i, false⟩ := by
  cases s with
  | mk call body =>
    obtain ⟨flag, hSight⟩ := sight_statement e i call body rest
    have hHere : calledName call ∈ puppets := hLoaded _ _ hReach hSight
    have hStep := @step_statement allReturn control e i call body rest
    rw [bodyToRun_of_returns control rfl] at hStep
    have hNext := hReach.step () (Machine.restrict_step_eq_some.mpr
      ⟨fun sight hSight => hLoaded _ _ hReach hSight, hStep⟩)
    obtain ⟨hBody, hRest⟩ := visits_statements hLoaded body _ i rest hNext
    refine ⟨fun name hName => ?_, hRest⟩
    rcases List.mem_cons.mp hName with rfl | hName
    · exact hHere
    · exact hBody name hName

theorem visits_statements
    (hLoaded : ∀ c sight, (puppetMachine allReturn control puppets).Reachable c →
      c.sight = some sight → sight.name ∈ puppets)
    (l : List Statement) (e : Executor) (i : Nat) (rest : List Statement)
    (hReach : (puppetMachine allReturn control puppets).Reachable
      ⟨e, .statements (l ++ rest), i, false⟩) :
    (∀ name ∈ Statement.bodyNames l, name ∈ puppets) ∧ ∃ e',
      (puppetMachine allReturn control puppets).Reachable ⟨e', .statements rest, i, false⟩ := by
  cases l with
  | nil => exact ⟨fun _ hName => (by cases hName), e, hReach⟩
  | cons s l =>
    obtain ⟨hHead, e', hReach'⟩ := visits_statement hLoaded s e i (l ++ rest) hReach
    obtain ⟨hTail, hRest⟩ := visits_statements hLoaded l e' i rest hReach'
    refine ⟨fun name hName => ?_, hRest⟩
    rcases List.mem_append.mp hName with hName | hName
    · exact hHead name hName
    · exact hTail name hName
end

end Visits

/-- For a group whose puppets were loaded, the executor only touches loaded puppets, whatever
the puppets do, exactly if every name that the group calls is a puppet of the script. -/
theorem touched_puppets_loaded_iff (commandParses : Text → Bool) (script : Script)
    (control : ControlFlow) {puppets : Puppets}
    (h : loadPuppets commandParses control script.puppets ∅ = .ok puppets) :
    (∀ b c sight, (puppetMachine b control puppets).Reachable c → c.sight = some sight →
      sight.name ∈ puppets) ↔
    ∀ name ∈ control.names, ∃ p ∈ script.puppets, p.name = name := by
  have hMem := mem_loadPuppets h
  constructor
  · intro hLoaded name hName
    have hStart : (puppetMachine allReturn control puppets).Reachable
        ⟨{}, .statements (control.commands ++ []), 0, false⟩ := by
      rw [List.append_nil]
      exact .initial
    have hVisited := (visits_statements (hLoaded allReturn) control.commands {} 0 [] hStart).1
    exact (((hMem name).mp (hVisited name hName)).resolve_left (by simp)).2
  · intro hDefined b c sight hReach hSight
    have hName := (Called.of_reachable hReach.of_restrict).name_sight hSight
    exact (hMem _).mpr (.inr ⟨Statement.bodyUses_of_mem_bodyNames hName, hDefined _ hName⟩)

theorem touched_puppets_loaded_iff_run :
    ∃ puppets : Puppets, ['a'] ∈ puppets ∧
      ∀ b c sight,
        (puppetMachine b ⟨['w'], [.mk ['*', 'a'] []], ['a']⟩ puppets).Reachable c →
        c.sight = some sight → sight.name ∈ puppets := by
  let control : ControlFlow := ⟨['w'], [.mk ['*', 'a'] []], ['a']⟩
  let script : Script := { puppets := [⟨['b'], ['y']⟩, ⟨['a'], ['x']⟩] }
  have hLoad : loadPuppets (fun _ => true) control script.puppets ∅ =
      .ok ((∅ : Puppets).insert ['a'] ['x']) := rfl
  refine ⟨_, by simp, (touched_puppets_loaded_iff (fun _ => true) script control hLoad).mpr ?_⟩
  intro name hName
  obtain rfl : name = ['a'] := by
    simpa [control, ControlFlow.names, Statement.bodyNames, Statement.names, calledName] using hName
  exact ⟨⟨['a'], ['x']⟩, by simp [script], rfl⟩

/-- The group calls its control puppet, and the script does not define it. -/
theorem undefined_puppet_is_touched :
    ∃ (script : Script) (control : ControlFlow) (puppets : Puppets) (c : Config) (sight : Sight),
      parseScript [] "w while a:\n a\n".toList = some (.ok script) ∧
      script.procs[['w']]? = some control ∧
      loadPuppets (fun _ => true) control script.puppets ∅ = .ok puppets ∧
      (puppetMachine allReturn control puppets).Reachable c ∧ c.sight = some sight ∧
      sight.name ∉ puppets := by
  have hParse : (match parseScript [] "w while a:\n a\n".toList with
      | some (.ok script) => (script.procs[['w']]?).map fun control =>
        (script.puppets, control.commands.map fun s => (s.call, s.body.length))
      | _ => none) = some ([], [(['a'], 0)]) := by decide +kernel
  split at hParse
  · rename_i script hScript
    obtain ⟨control, hControl, hFacts⟩ := Option.map_eq_some_iff.mp hParse
    obtain ⟨hPuppets, hCommands⟩ := Prod.mk.inj hFacts
    obtain ⟨⟨call, body⟩, hStatement, hCall⟩ := List.map_eq_singleton_iff.mp hCommands
    obtain ⟨flag, hSight⟩ := sight_statement {} 0 call body []
    rw [← hStatement] at hSight
    refine ⟨script, control, ∅, _, _, hScript, hControl, ?_, .initial, hSight, by simp⟩
    rw [hPuppets]
    rfl
  · cases hParse

end Henson.Hwl
