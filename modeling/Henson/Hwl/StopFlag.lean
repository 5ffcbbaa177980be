import Mathlib.Data.List.Induction
import Henson.Hwl.Loading
import Henson.Library.ListSplit

/-!
# The stop flag after the control puppet has returned

`exec` raises a puppet's stop flag before it resumes the puppet; the revisit loop
does not. The flag stays up. `henson_stop` reads a flag through a pointer that is
static in the puppet's library, so that of several puppets in one library it
finds the flag of the one that was loaded last. After the control puppet has
returned, a puppet's flag is up and seen exactly if a statement resumes the
puppet, now or since then, and the pointer leads to a flag that is up.
-/

namespace Henson.Hwl

open TransitionSystem

/-- The flags of all puppets when the next step resumes one. -/
def Config.flags (c : Config) : Text → Bool :=
  match c.remaining with
  | .statements (.mk call _ :: _) =>
    let (name, e) := c.executor.listRevisit call
    fun n => ((e.signal name).puppets n).stop
  | _ => fun n => (c.executor.puppets n).stop

/-- What `main` leaves behind when it has loaded the puppets: the library of each, and the puppet
to whose flag the static pointer of a library leads, unless that puppet is gone. -/
structure Libraries (Library : Type) where
  library : Text → Option Library := fun _ => none
  stop : Library → Option Text := fun _ => none

namespace Libraries

variable {Library : Type}

section Load

variable [DecidableEq Library]

/-- `puppets[name] = PuppetUniquePtr(new h::Puppet(..))`: `load` calls `henson_set_stop(&stop_)` in
the library, and a puppet that had this name is destroyed with its flag. -/
def load (l : Libraries Library) (name : Text) (lib : Library) : Libraries Library where
  library n := if n = name then some lib else l.library n
  stop lib' :=
    if lib' = lib then some name
    else if l.stop lib' = some name then none
    else l.stop lib'

/-- The loop of `main` over the puppets of the script; `dlopen` is the library that a command
leads to. -/
def loadAll (dlopen : Text → Library) (control : ControlFlow) (puppets : List PuppetCommand) :
    Libraries Library :=
  (puppets.filter fun p => control.uses p.name).foldl
    (fun l p => l.load p.name (dlopen p.command)) {}

end Load

/-- The puppet to whose flag `henson_stop` is led in the puppet `name`. -/
def owner (l : Libraries Library) (name : Text) : Option Text := (l.library name).bind l.stop

/-- `henson_stop()` in the puppet `name`; nothing is known where it reads a destroyed flag. -/
def hensonStop (l : Libraries Library) (flags : Text → Bool) (name : Text) : Option Bool :=
  (l.owner name).map flags

end Libraries

/-- A statement has resumed `name` after the control puppet returned to a statement. -/
def ControlFlow.Signalled (control : ControlFlow) (log : List Resumption) (name : Text) : Prop :=
  ∃ pre r post, log = pre ++ r :: post ∧ pre.any control.Stopped = true ∧
    r.site = .statement ∧ r.name = name

section Signalled

variable {control : ControlFlow} {log : List Resumption} {name : Text}

theorem ControlFlow.Signalled.append (h : control.Signalled log name) (rs : List Resumption) :
    control.Signalled (log ++ rs) name := by
  obtain ⟨pre, r, post, rfl, hStopped, hSite, hName⟩ := h
  exact ⟨pre, r, post ++ rs, by simp, hStopped, hSite, hName⟩

theorem ControlFlow.signalled_concat {r : Resumption} :
    control.Signalled (log ++ [r]) name ↔ control.Signalled log name ∨
      log.any control.Stopped = true ∧ r.site = .statement ∧ r.name = name := by
  constructor
  · rintro ⟨pre, x, post, hEq, hStopped, hSite, hName⟩
    rcases ListSplit.concat_eq_append_cons.mp hEq with ⟨rfl, rfl, -⟩ | ⟨post', -, rfl⟩
    · exact .inr ⟨hStopped, hSite, hName⟩
    · exact .inl ⟨pre, x, post', rfl, hStopped, hSite, hName⟩
  · rintro (hOld | ⟨hStopped, hSite, hName⟩)
    · exact hOld.append [r]
    · exact ⟨log, r, [], rfl, hStopped, hSite, hName⟩

theorem ControlFlow.Signalled.stopped (h : control.Signalled log name) :
    log.any control.Stopped = true := by
  obtain ⟨pre, r, post, rfl, hStopped, -, -⟩ := h
  rw [List.any_append, hStopped, Bool.true_or]

end Signalled

/-- The executor's and the puppets' flags are what the log says. -/
structure Flagged (control : ControlFlow) (e : Executor) : Prop where
  stop : e.stop = e.log.any control.Stopped
  flag : ∀ name, (e.puppets name).stop = true ↔ control.Signalled e.log name

namespace Flagged

variable {b : Behaviours} {control : ControlFlow} {e : Executor}

theorem listRevisit (h : Flagged control e) (call : Text) :
    Flagged control (e.listRevisit call).2 := by
  rw [Executor.listRevisit_snd]
  exact ⟨h.stop, h.flag⟩

theorem stop_proceed (p : Puppet) (o : Outcome) : (p.proceed o).stop = p.stop := by
  cases o <;> rfl

theorem stop_signal (e : Executor) (name n : Text) :
    ((e.signal name).puppets n).stop = ((e.puppets n).stop || (e.stop && decide (n = name))) := by
  cases hStop : e.stop with
  | false => simp [Executor.signal, hStop]
  | true =>
    by_cases hName : n = name
    · simp [Executor.signal, hStop, Executor.setPuppet, Puppet.signalStop, hName]
    · simp [Executor.signal, hStop, Executor.setPuppet, hName]

theorem stop_proceed_executor (e : Executor) (site : Site) (name n : Text) :
    ((e.proceed b site name).puppets n).stop = (e.puppets n).stop := by
  by_cases hName : n = name
  · simp [Executor.proceed, Executor.setPuppet, hName, stop_proceed]
  · simp [Executor.proceed, Executor.setPuppet, hName]

theorem stop_puppet_exec (e : Executor) (name n : Text) :
    ((e.exec b control name).puppets n).stop = ((e.signal name).puppets n).stop := by
  rw [Executor.puppets_exec, stop_proceed_executor]

theorem exec (h : Flagged control e) (name : Text) : Flagged control (e.exec b control name) where
  stop := (Executor.Advances.exec (b := b) e name).stop h.stop
  flag n := by
    rw [stop_puppet_exec, stop_signal, Executor.log_exec, ControlFlow.signalled_concat,
      Bool.or_eq_true, Bool.and_eq_true, decide_eq_true_eq, h.flag n, h.stop, eq_comm (a := n)]
    simp only [true_and]

theorem proceed_revisit (h : Flagged control e) (name : Text) :
    Flagged control (e.proceed b .revisit name) where
  stop := (@Executor.Advances.revisit b control e name).stop h.stop
  flag n := by
    have hLog : (e.proceed b .revisit name).log =
        e.log ++ [⟨name, .revisit, b name (e.puppets name).resumptions⟩] := rfl
    rw [stop_proceed_executor, hLog, ControlFlow.signalled_concat, h.flag n]
    simp

theorem step {c c' : Config} (h : Flagged control c.executor)
    (hStep : c.step b control = some c') : Flagged control c'.executor :=
  Config.step_executor (fun _ call h => h.listRevisit call) (fun _ name h => h.exec name)
    (fun _ name h => h.proceed_revisit name) (fun _ h => ⟨h.stop, h.flag⟩) h hStep

end Flagged

theorem flagged_of_reachable {b : Behaviours} {control : ControlFlow} {c : Config}
    (h : (configMachine b control).Reachable c) : Flagged control c.executor := by
  refine h.invariant (I := fun c => Flagged control c.executor) ⟨rfl, fun name => ?_⟩ ?_
  · apply iff_of_false Bool.false_ne_true
    rintro ⟨pre, r, post, hEq, -⟩
    exact List.append_ne_nil_of_right_ne_nil _ (List.cons_ne_nil _ _) hEq.symm
  · exact fun _ _ _ hInv hStep => hInv.step hStep

theorem Libraries.stop_load {Library : Type} [DecidableEq Library] (l : Libraries Library)
    (name : Text) (lib lib' : Library) :
    (l.load name lib).stop lib' =
      if lib' = lib then some name
      else if l.stop lib' = some name then none
      else l.stop lib' := rfl

theorem Libraries.library_foldl {Library : Type} [DecidableEq Library] {dlopen : Text → Library}
    {commandParses : Text → Bool} {control : ControlFlow} {puppets : List PuppetCommand}
    {m loaded : Puppets} {l : Libraries Library} (hSame : ∀ n, l.library n = m[n]?.map dlopen)
    (hLoad : loadPuppets commandParses control puppets m = .ok loaded) (name : Text) :
    ((puppets.filter fun p => control.uses p.name).foldl
      (fun l p => l.load p.name (dlopen p.command)) l).library name = loaded[name]?.map dlopen := by
  induction puppets generalizing l m with
  | nil =>
    obtain rfl := Except.ok.inj hLoad
    exact hSame name
  | cons p rest ih =>
    rw [loadPuppets] at hLoad
    split at hLoad
    · rename_i hUnused
      rw [List.filter_cons_of_neg (by simpa using hUnused)]
      exact ih hSame hLoad
    · rename_i hUsed
      split at hLoad
      · rw [List.filter_cons_of_pos (by simpa using hUsed), List.foldl_cons]
        refine ih (fun n => ?_) hLoad
        by_cases hName : p.name = n
        · subst hName
          simp [load]
        · simp [load, Std.ExtTreeMap.getElem?_insert, hName, Ne.symm hName, hSame n]
      · cases hLoad

/-- The puppets that `main` has loaded are those of its map, each in the library of its command. -/
theorem Libraries.library_loadAll {Library : Type} [DecidableEq Library] {dlopen : Text → Library}
    {commandParses : Text → Bool} {control : ControlFlow} {puppets : List PuppetCommand}
    {loaded : Puppets} (h : loadPuppets commandParses control puppets ∅ = .ok loaded)
    (name : Text) :
    (loadAll dlopen control puppets).library name = loaded[name]?.map dlopen :=
  library_foldl (by simp) h name

/-- A library's pointer leads to the puppet that was loaded from it last, if no later one took its
name. -/
theorem Libraries.stop_loadAll {Library : Type} [DecidableEq Library] {dlopen : Text → Library}
    {control : ControlFlow} {puppets : List PuppetCommand} {lib : Library} {name : Text} :
    (loadAll dlopen control puppets).stop lib = some name ↔
      ∃ pre p post, (puppets.filter fun p => control.uses p.name) = pre ++ p :: post ∧
        p.name = name ∧ dlopen p.command = lib ∧
        ∀ q ∈ post, dlopen q.command ≠ lib ∧ q.name ≠ name := by
  rw [loadAll]
  induction puppets.filter fun p => control.uses p.name using List.reverseRecOn with
  | nil => simp
  | append_singleton used p ih =>
    rw [List.foldl_concat, stop_load]
    constructor
    · intro h
      split_ifs at h with hLib hGone
      · exact ⟨used, p, [], rfl, Option.some.inj h, hLib.symm, by simp⟩
      · obtain ⟨pre, q, post, rfl, hName, hLib', hLater⟩ := ih.mp h
        refine ⟨pre, q, post ++ [p], by simp, hName, hLib', fun r hr => ?_⟩
        rcases List.mem_append.mp hr with hr | hr
        · exact hLater r hr
        · obtain rfl := List.mem_singleton.mp hr
          exact ⟨Ne.symm hLib, fun hSame => hGone (hSame ▸ h)⟩
    · rintro ⟨pre, q, post, hUsed, hName, hLib, hLater⟩
      rcases ListSplit.concat_eq_append_cons.mp hUsed with ⟨-, rfl, rfl⟩ | ⟨post', rfl, rfl⟩
      · rw [if_pos hLib.symm, hName]
      · obtain ⟨hOther, hKept⟩ := hLater p (by simp)
        have hOld := ih.mpr ⟨pre, q, post', rfl, hName, hLib, fun r hr =>
          hLater r (List.mem_append_left _ hr)⟩
        rw [if_neg (Ne.symm hOther), hOld, if_neg fun hSame => hKept (Option.some.inj hSame).symm]

/-- The flags when a puppet is resumed are those of the statements so far, and the puppet's own
also if a statement resumes it after the control puppet has returned. -/
theorem Flagged.flags {control : ControlFlow} {c : Config} (h : Flagged control c.executor)
    {sight : Sight} (hSight : c.sight = some sight) (n : Text) :
    c.flags n = true ↔ control.Signalled c.executor.log n ∨
      c.executor.log.any control.Stopped = true ∧ sight.site = .statement ∧ n = sight.name := by
  simp only [Config.sight] at hSight
  split at hSight
  · rename_i call body rest hTodo
    obtain rfl := Option.some.inj hSight
    have hListed := h.listRevisit call
    simp only [Config.flags, hTodo]
    rw [stop_signal, Bool.or_eq_true, Bool.and_eq_true, decide_eq_true_eq, hListed.flag,
      hListed.stop, Executor.log_listRevisit]
    simp
  · rename_i hRevisiting
    obtain rfl := Option.some.inj hSight
    simp only [Config.flags, hRevisiting]
    rw [h.flag]
    simp
  · cases hSight

theorem Config.flag_sight {c : Config} {sight : Sight} (hSight : c.sight = some sight) :
    sight.flag = c.flags sight.name := by
  simp only [Config.sight] at hSight
  split at hSight
  · rename_i hTodo
    obtain rfl := Option.some.inj hSight
    simp only [flags, hTodo]
  · rename_i hRevisiting
    obtain rfl := Option.some.inj hSight
    simp only [flags, hRevisiting]
  · cases hSight

/-- A puppet is resumed with its stop flag up and `henson_stop` true exactly if the control puppet
has returned to a statement, a statement resumes this puppet, now or since then, and the pointer
of its library leads to its own flag or to that of another puppet resumed so. -/
theorem stop_seen_iff_resumed_by_statement {Library : Type} [DecidableEq Library]
    (dlopen : Text → Library) (puppets : List PuppetCommand) (b : Behaviours)
    (control : ControlFlow) {c : Config} (h : (configMachine b control).Reachable c)
    {sight : Sight} (hSight : c.sight = some sight) :
    (sight.flag = true ∧
      (Libraries.loadAll dlopen control puppets).hensonStop c.flags sight.name = some true) ↔
    c.executor.log.any control.Stopped = true ∧
      (sight.site = .statement ∨ control.Signalled c.executor.log sight.name) ∧
      ∃ owner, (Libraries.loadAll dlopen control puppets).owner sight.name = some owner ∧
        (owner = sight.name ∨ control.Signalled c.executor.log owner) := by
  have hFlags := (flagged_of_reachable h).flags hSight
  rw [Config.flag_sight hSight, hFlags, Libraries.hensonStop, Option.map_eq_some_iff]
  constructor
  · rintro ⟨hOwn, owner, hOwner, hSeen⟩
    rw [hFlags] at hSeen
    refine ⟨?_, ?_, owner, hOwner, ?_⟩
    · exact hOwn.elim ControlFlow.Signalled.stopped And.left
    · exact hOwn.elim .inr fun hHere => .inl hHere.2.1
    · exact hSeen.elim .inr fun hHere => .inl hHere.2.2
  · rintro ⟨hStopped, hResumed, owner, hOwner, hLed⟩
    have hOwn : control.Signalled c.executor.log sight.name ∨
        c.executor.log.any control.Stopped = true ∧ sight.site = .statement ∧
          sight.name = sight.name :=
      hResumed.elim (fun hSite => .inr ⟨hStopped, hSite, rfl⟩) .inl
    refine ⟨hOwn, owner, hOwner, ?_⟩
    rw [hFlags]
    rcases hLed with rfl | hSignalled
    · exact hOwn
    · exact .inl hSignalled

theorem stop_seen_iff_resumed_by_statement_run :
    ∃ c : Config, c.sight = some ⟨['b'], .statement, true⟩ ∧
      c.executor.log.any (ControlFlow.Stopped ⟨['w'], [.mk ['a'] [], .mk ['b'] []], ['a']⟩) =
        true := by
  let control : ControlFlow := ⟨['w'], [.mk ['a'] [], .mk ['b'] []], ['a']⟩
  let b : Behaviours := fun _ _ => .returns 0
  let puppets : List PuppetCommand := [⟨['a'], ['x']⟩, ⟨['b'], ['y']⟩]
  have hRun : ((configMachine b control).run [()] { remaining := .statements control.commands }).map
      (fun c => (c.sight, (Libraries.loadAll id control puppets).hensonStop c.flags ['b'])) =
      some (some ⟨['b'], .statement, true⟩, some true) := by decide
  obtain ⟨c, hc, hFacts⟩ := Option.map_eq_some_iff.mp hRun
  obtain ⟨hSight, hSeen⟩ := Prod.mk.inj hFacts
  have hReach := Machine.reachable_of_run [()] .initial hc
  exact ⟨c, hSight,
    ((stop_seen_iff_resumed_by_statement id puppets b control hReach hSight).mp ⟨rfl, hSeen⟩).1⟩

/-- Two puppets of one library: the flag of the first is up, and `henson_stop` reads that of the
second, which no statement has resumed yet. -/
theorem first_of_library_misses_stop :
    ∃ (control : ControlFlow) (b : Behaviours) (puppets : List PuppetCommand) (c : Config),
      (configMachine b control).Reachable c ∧ c.sight = some ⟨['a'], .statement, true⟩ ∧
      (Libraries.loadAll id control puppets).hensonStop c.flags ['a'] = some false := by
  let control : ControlFlow := ⟨['w'], [.mk ['c'] [], .mk ['a'] [], .mk ['b'] []], ['c']⟩
  let b : Behaviours := fun _ _ => .returns 0
  let puppets : List PuppetCommand := [⟨['c'], ['y']⟩, ⟨['a'], ['x']⟩, ⟨['b'], ['x']⟩]
  have hRun : ((configMachine b control).run [()] { remaining := .statements control.commands }).map
      (fun c => (c.sight, (Libraries.loadAll id control puppets).hensonStop c.flags ['a'])) =
      some (some ⟨['a'], .statement, true⟩, some false) := by decide
  obtain ⟨c, hc, hFacts⟩ := Option.map_eq_some_iff.mp hRun
  obtain ⟨hSight, hSeen⟩ := Prod.mk.inj hFacts
  exact ⟨control, b, puppets, c, Machine.reachable_of_run [()] .initial hc, hSight, hSeen⟩

/-- The starred puppet is called before the control puppet returns, and then revisited. -/
theorem revisited_puppet_misses_stop :
    ¬ ∀ (puppets : List PuppetCommand) (b : Behaviours) (control : ControlFlow) (c : Config)
      (sight : Sight), (configMachine b control).Reachable c → c.sight = some sight →
      c.executor.log.any control.Ended = true → sight.flag = true ∧
        (Libraries.loadAll id control puppets).hensonStop c.flags sight.name = some true := by
  intro hAlways
  let control : ControlFlow := ⟨['w'], [.mk ['*', 'a'] [], .mk ['c'] []], ['c']⟩
  let b : Behaviours := fun name _ => if name = ['c'] then .returns 0 else .yields
  have hRun : ((configMachine b control).run [(), (), ()]
      { remaining := .statements control.commands }).map
      (fun c => (c.sight, c.executor.log.any control.Ended)) =
      some (some ⟨['a'], .revisit, false⟩, true) := by decide
  obtain ⟨c, hc, hFacts⟩ := Option.map_eq_some_iff.mp hRun
  obtain ⟨hSight, hEnded⟩ := Prod.mk.inj hFacts
  have hReach := Machine.reachable_of_run [(), (), ()] .initial hc
  let puppets : List PuppetCommand := [⟨['a'], ['x']⟩, ⟨['c'], ['y']⟩]
  exact Bool.false_ne_true (hAlways puppets b control c _ hReach hSight hEnded).1

end Henson.Hwl
