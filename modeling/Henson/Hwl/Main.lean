import Henson.Hwl.Acceptance
import Henson.Hwl.Stopping
import Henson.Procs.ParseProcs

/-!
# `main` of `henson-hwl`, up to its loop

The groups of the script and those of the `-p` options share the ranks. A rank
whose group is not in the script gets a control flow without calls, since
`operator[]` makes one. Nothing compares the control puppet of a group with the
calls of its body either.
-/

namespace Henson.Hwl

open MachineInt Throwing ProcMap

abbrev Variables := Std.ExtTreeMap Text Text compare

/-- A name of the script as a name of the processor map. -/
def toStdString (name : Text) : StdString := ⟨name.map fun c => UInt8.ofNat c.toNat⟩

def ofStdString (name : StdString) : Text := name.bytes.map fun c => Char.ofNat c.toNat

def parseVariables : List Text → Variables → Except Text Variables
  | [], varmap => .ok varmap
  | var :: rest, varmap =>
    match var.dropWhile (· ≠ '=') with
    | [] => .error ("Can't parse ".toList ++ var)
    | _ :: varValue => parseVariables rest (varmap.insert (var.takeWhile (· ≠ '=')) varValue)

def commandParses (varmap : Variables) (command : Text) : Bool :=
  match expandCommand varmap command with
  | some (.ok _) => true
  | _ => false

def Script.groupNames (script : Script) : List StdString :=
  script.procs.toList.map fun x => toStdString x.1

structure Launch where
  group : StdString
  control : ControlFlow
  puppets : Puppets

/-- `main` on one rank of a world, from the text of the script, the `-p` options and the other
arguments to the puppets that it loads. -/
def setup (commSplit : Nat → Int32 → List Nat) (scriptFn content : Text)
    (procsSizes : List StdString) (vars : List Text) (rank size : Int32) :
    Throwing Text Launch := do
  let script ← ExceptT.mk (parseScript scriptFn content)
  let procs ← (parseProcs procsSizes size script.groupNames).adapt String.toList
  let procmap ← liftExcept ((extend commSplit rank size procs).mapError String.toList)
  let varmap ← liftExcept (parseVariables vars ∅)
  let (group, _) ← undefinedIfNone procs[procmap.color]?
  let control := (script.procs[ofStdString group]?).getD {}
  let puppets ← liftExcept (loadPuppets (commandParses varmap) control script.puppets ∅)
  return { group, control, puppets }

/-- The group that a rank falls to: behind it, as many blocks end as there are groups before. -/
def groupOfRank (procs : Vector) (rank : Int32) : Option StdString :=
  (procs[(blockEnds 0 procs).countP (· ≤ rank)]?).map Prod.fst

def HasRanks (procs : Vector) (size : Int32) (name : StdString) : Prop :=
  ∃ rank, 0 ≤ rank ∧ rank < size ∧ groupOfRank procs rank = some name

/-- The rank runs a group of the script that calls its control puppet, and whatever the puppets
have done, they can still end the loop. -/
structure Launch.Stoppable (script : Script) (launch : Launch) : Prop where
  defined : script.procs[ofStdString launch.group]? = some launch.control
  called : launch.control.control ∈ launch.control.names
  canStop : ∀ b c, (puppetMachine b launch.control launch.puppets).Reachable c →
    CanStop b launch.control launch.puppets c

/-- What the options and the script have to agree on, for the groups that get ranks. -/
structure StoppableGroups (script : Script) (procsSizes : List StdString) (size : Int32) :
    Prop where
  named : ∀ name, name ∈ bareNames procsSizes ∨ name ∈ (explicitSizes procsSizes).map Prod.fst →
    HasRanks (requestedSizes procsSizes script.groupNames size) size name →
    name ∈ script.groupNames
  called : ∀ (name : Text) (control : ControlFlow), script.procs[name]? = some control →
    HasRanks (requestedSizes procsSizes script.groupNames size) size (toStdString name) →
    control.control ∈ control.names
  loaded : ∀ (name : Text) (control : ControlFlow), script.procs[name]? = some control →
    HasRanks (requestedSizes procsSizes script.groupNames size) size (toStdString name) →
    ∀ n ∈ control.names, ∃ p ∈ script.puppets, p.name = n

theorem toStdString_ofStdString (name : StdString) : toStdString (ofStdString name) = name := by
  have hByte (c : Byte) : UInt8.ofNat (Char.ofNat c.toNat).toNat = c := by
    have hValid : c.toNat.isValidChar := .inl (Nat.lt_trans c.toNat_lt (by decide))
    have hChar : (Char.ofNat c.toNat).toNat = c.toNat := by
      rw [Char.ofNat, dif_pos hValid]
      rfl
    rw [hChar]
    exact UInt8.ofNat_toNat
  rw [toStdString, ofStdString, List.map_map]
  exact congrArg StdString.mk ((List.map_congr_left fun c _ => hByte c).trans (List.map_id _))

theorem toNat_lt_of_isNameChar {c : Char} (h : isNameChar c = true) : c.toNat < 256 := by
  simp only [isNameChar, isLetter, Bool.or_eq_true, decide_eq_true_eq] at h
  have hLe (d : Char) : c ≤ d → c.toNat ≤ d.toNat := fun hcd => UInt32.le_iff_toNat_le.mp hcd
  rcases h with (⟨-, hc⟩ | ⟨-, hc⟩ | rfl) | ⟨-, hc⟩ | rfl
  · exact Nat.lt_of_le_of_lt (hLe 'z' hc) (by decide)
  · exact Nat.lt_of_le_of_lt (hLe 'Z' hc) (by decide)
  · decide
  · exact Nat.lt_of_le_of_lt (hLe '9' hc) (by decide)
  · decide

theorem ofStdString_toStdString {name : Text} (h : ValidName name) :
    ofStdString (toStdString name) = name := by
  have hChars : ∀ c ∈ name, c.toNat < 256 := by
    cases name with
    | nil => cases h
    | cons c rest =>
      rintro x (_ | ⟨_, hx⟩)
      · exact toNat_lt_of_isNameChar (by rw [isNameChar, h.1, Bool.true_or])
      · exact toNat_lt_of_isNameChar (h.2 x hx)
  rw [ofStdString, toStdString, List.map_map]
  refine (List.map_congr_left fun c hc => ?_).trans (List.map_id _)
  have hByte : (UInt8.ofNat c.toNat).toNat = c.toNat :=
    UInt8.toNat_ofNat_of_lt' (hChars c hc)
  rw [Function.comp_apply, hByte, Char.ofNat_toNat]
  rfl

theorem validName_of_parseScript {scriptFn content : Text} {script : Script}
    (h : parseScript scriptFn content = some (.ok script)) {name : Text} {control : ControlFlow}
    (hGroup : script.procs[name]? = some control) : ValidName name := by
  rw [parseScript_eq_ok] at h
  obtain rfl := Except.ok.inj (Option.some.inj h)
  refine Peg.iterate_invariant
    (I := fun s : Script => s.procs[name]? = some control → ValidName name)
    (fun s t s' t' hOld hEntry => ?_) (fun hNone => by simp at hNone) _ hGroup
  rcases Reading.entry_eq_some.mp hEntry with ⟨pc, rfl, -⟩ | ⟨cf, rfl, -, hProcs⟩ | ⟨rfl, -⟩
  · exact hOld
  · obtain ⟨hName⟩ := Reading.procs_iff.mp hProcs
    rw [Script.addProcs, Std.ExtTreeMap.getElem?_insertIfNew]
    split
    · rename_i hSame
      intro _
      obtain rfl := Std.LawfulEqCmp.compare_eq_iff_eq.mp hSame.1
      exact hName
    · exact hOld
  · exact hOld

theorem mem_groupNames {script : Script} {name : StdString} :
    name ∈ script.groupNames ↔
      ∃ (n : Text) (control : ControlFlow), script.procs[n]? = some control ∧
        toStdString n = name := by
  simp only [Script.groupNames, List.mem_map, Prod.exists,
    Std.ExtTreeMap.mem_toList_iff_getElem?_eq_some]

theorem returns_setup {commSplit : Nat → Int32 → List Nat} {scriptFn content : Text}
    {procsSizes : List StdString} {vars : List Text} {rank size : Int32} {script : Script}
    {launch : Launch} (hScript : parseScript scriptFn content = some (.ok script))
    (h : Returns (setup commSplit scriptFn content procsSizes vars rank size) launch) :
    groupOfRank (requestedSizes procsSizes script.groupNames size) rank = some launch.group ∧
      launch.control = (script.procs[ofStdString launch.group]?).getD {} ∧
      ∃ commandParses,
        loadPuppets commandParses launch.control script.puppets ∅ = .ok launch.puppets := by
  obtain ⟨script', hParse, h⟩ := returns_bind.mp h
  obtain rfl : script' = script := Except.ok.inj (Option.some.inj (hParse.symm.trans hScript))
  obtain ⟨procs, hProcs, h⟩ := returns_bind.mp h
  obtain ⟨procmap, hMap, h⟩ := returns_bind.mp h
  obtain ⟨varmap, -, h⟩ := returns_bind.mp h
  obtain ⟨⟨group, n⟩, hGroup, h⟩ := returns_bind.mp h
  obtain ⟨puppets, hPuppets, h⟩ := returns_bind.mp h
  obtain rfl := returns_pure.mp h
  refine ⟨?_, rfl, _, returns_liftExcept.mp hPuppets⟩
  obtain rfl := eq_requestedSizes (returns_adapt.mp hProcs)
  have hColor : procmap.color = (blockEnds 0
      (requestedSizes procsSizes script'.groupNames size)).countP (· ≤ rank) := by
    have hExtend := returns_liftExcept.mp hMap
    rw [extend] at hExtend
    split at hExtend
    · cases hExtend
    · obtain rfl := Except.ok.inj hExtend
      exact (color_split rank _ {}).trans (Nat.zero_add _)
  rw [groupOfRank, ← hColor, returns_undefinedIfNone.mp hGroup]
  rfl

theorem named_of_groupOfRank {procsSizes groups : List StdString} {rank size : Int32}
    {name : StdString}
    (h : groupOfRank (requestedSizes procsSizes groups size) rank = some name) :
    (name ∈ bareNames procsSizes ∨ name ∈ (explicitSizes procsSizes).map Prod.fst) ∨
      name ∈ groups := by
  obtain ⟨x, hx, rfl⟩ := Option.map_eq_some_iff.mp h
  rcases List.mem_append.mp (List.mem_of_getElem? hx) with hExplicit | hOpen
  · exact .inl (.inr (List.mem_map_of_mem hExplicit))
  · obtain ⟨name, hName, rfl⟩ := List.mem_map.mp hOpen
    rw [mem_openNames, openGroups, List.mem_toFinset, List.mem_append, List.mem_filter] at hName
    rcases hName with hBare | ⟨hGroup, -⟩
    · exact .inl (.inl hBare)
    · exact .inr hGroup

/-- Every rank of a world for which `main` reports nothing runs a group of the script and can
always end its loop, exactly if the groups with ranks are the script's, call their control puppets
and call only puppets of the script. -/
theorem every_rank_stoppable_iff {commSplit : Int32 → Nat → Int32 → List Nat}
    {scriptFn content : Text} {procsSizes : List StdString} {vars : List Text} {size : Int32}
    {script : Script} {launch : Int32 → Launch}
    (hScript : parseScript scriptFn content = some (.ok script))
    (hSetup : ∀ rank, 0 ≤ rank → rank < size →
      Returns (setup (commSplit rank) scriptFn content procsSizes vars rank size) (launch rank)) :
    (∀ rank, 0 ≤ rank → rank < size → (launch rank).Stoppable script) ↔
      StoppableGroups script procsSizes size := by
  have hPlaced := fun rank h0 h1 => returns_setup hScript (hSetup rank h0 h1)
  constructor
  · intro hStoppable
    have hOwn : ∀ (name : Text) (control : ControlFlow), script.procs[name]? = some control →
        HasRanks (requestedSizes procsSizes script.groupNames size) size (toStdString name) →
        ∃ launch : Launch, launch.Stoppable script ∧ launch.control = control ∧
          ∃ commandParses,
            loadPuppets commandParses control script.puppets ∅ = .ok launch.puppets := by
      rintro name control hControl ⟨rank, h0, h1, hRank⟩
      obtain ⟨hGroup, -, hLoad⟩ := hPlaced rank h0 h1
      have hName : (launch rank).group = toStdString name :=
        Option.some.inj (hGroup.symm.trans hRank)
      have hHere := (hStoppable rank h0 h1).defined
      rw [hName, ofStdString_toStdString (validName_of_parseScript hScript hControl),
        hControl] at hHere
      obtain rfl := Option.some.inj hHere
      exact ⟨launch rank, hStoppable rank h0 h1, rfl, hLoad⟩
    constructor
    · rintro name - ⟨rank, h0, h1, hRank⟩
      have hName : (launch rank).group = name :=
        Option.some.inj ((hPlaced rank h0 h1).1.symm.trans hRank)
      have hHere := (hStoppable rank h0 h1).defined
      exact mem_groupNames.mpr ⟨_, _, hHere, hName ▸ toStdString_ofStdString _⟩
    · intro name control hControl hRanks
      obtain ⟨launch, hLaunch, rfl, -⟩ := hOwn name control hControl hRanks
      exact hLaunch.called
    · intro name control hControl hRanks n hn
      obtain ⟨launch, hLaunch, rfl, _, hLoad⟩ := hOwn name control hControl hRanks
      have hLoaded := ((canStop_iff _ _).mp hLaunch.canStop).2 n hn
      exact (((mem_loadPuppets hLoad n).mp hLoaded).resolve_left (by simp)).2
  · intro hGroups rank h0 h1
    obtain ⟨hGroup, hControl, _, hLoad⟩ := hPlaced rank h0 h1
    have hRanks : HasRanks (requestedSizes procsSizes script.groupNames size) size
        (launch rank).group := ⟨rank, h0, h1, hGroup⟩
    have hMem : (launch rank).group ∈ script.groupNames := by
      rcases named_of_groupOfRank hGroup with hOption | hOwn
      · exact hGroups.named _ hOption hRanks
      · exact hOwn
    obtain ⟨name, control, hDefined, hName⟩ := mem_groupNames.mp hMem
    have hSame : ofStdString (launch rank).group = name := by
      rw [← hName]
      exact ofStdString_toStdString (validName_of_parseScript hScript hDefined)
    rw [hSame, hDefined, Option.getD_some] at hControl
    have hHere : script.procs[ofStdString (launch rank).group]? = some (launch rank).control := by
      rw [hSame, hControl, hDefined]
    rw [← hName] at hRanks
    have hCalled := hGroups.called name control hDefined hRanks
    rw [← hControl] at hCalled hDefined
    refine ⟨hHere, hCalled, (canStop_iff _ _).mpr ⟨hCalled, fun n hn => ?_⟩⟩
    refine (mem_loadPuppets hLoad n).mpr (.inr ⟨Statement.bodyUses_of_mem_bodyNames hn, ?_⟩)
    exact hGroups.loaded name _ hDefined hRanks n hn

namespace TwoGroups

def content : Text := "a = b\nv while a:\n *a\nw while a:\n a\n".toList

def options : List StdString := [⟨[118, 61, 49]⟩]

def setupAt (rank : Int32) := setup (fun color _ => [color]) [] content options [] rank 2

theorem rank_eq {rank : Int32} (h0 : 0 ≤ rank) (h1 : rank < 2) : rank = 0 ∨ rank = 1 := by
  rw [Int32.le_iff_toInt_le] at h0
  rw [Int32.lt_iff_toInt_lt] at h1
  rw [← Int32.toInt_inj, ← Int32.toInt_inj]
  simp at h0 h1 ⊢
  omega

theorem returns_setupAt {rank : Int32} (h0 : 0 ≤ rank) (h1 : rank < 2) :
    ∃ launch, Returns (setupAt rank) launch ∧
      launch.group = if rank = 0 then ⟨[118]⟩ else ⟨[119]⟩ := by
  have hGroups : (match (setupAt rank).run with
      | some (.ok launch) => some launch.group
      | _ => none) = some (if rank = 0 then ⟨[118]⟩ else ⟨[119]⟩) := by
    rcases rank_eq h0 h1 with rfl | rfl
    · decide +kernel
    · decide +kernel
  split at hGroups
  · rename_i launch hLaunch
    exact ⟨launch, hLaunch, Option.some.inj hGroups⟩
  · cases hGroups

theorem exists_launch : ∃ launch : Int32 → Launch, ∀ rank, 0 ≤ rank → rank < 2 →
    Returns (setupAt rank) (launch rank) ∧
      (launch rank).group = if rank = 0 then ⟨[118]⟩ else ⟨[119]⟩ := by
  have hEvery (rank : Int32) : ∃ launch, 0 ≤ rank → rank < 2 → Returns (setupAt rank) launch ∧
      launch.group = if rank = 0 then ⟨[118]⟩ else ⟨[119]⟩ := by
    by_cases h : 0 ≤ rank ∧ rank < 2
    · obtain ⟨launch, hLaunch⟩ := returns_setupAt h.1 h.2
      exact ⟨launch, fun _ _ => hLaunch⟩
    · obtain ⟨launch, -⟩ := @returns_setupAt 0 (by decide) (by decide)
      exact ⟨launch, fun h0 h1 => absurd ⟨h0, h1⟩ h⟩
  choose launch hLaunch using hEvery
  exact ⟨launch, hLaunch⟩

def script : Script := (Reading.script (indentToTokens content)).1

theorem script_eq : (script.procs.toList.map fun x => (x.2.control, x.2.names), script.puppets,
    script.groupNames) = ([(['a'], [['a']]), (['a'], [['a']])], [⟨['a'], ['b']⟩],
      [⟨[118]⟩, ⟨[119]⟩]) := by decide +kernel

theorem control_eq {name : Text} {control : ControlFlow} (h : script.procs[name]? = some control) :
    control.control = ['a'] ∧ control.names = [['a']] := by
  have hMem := List.mem_map_of_mem (f := fun x => (x.2.control, x.2.names))
    (Std.ExtTreeMap.mem_toList_iff_getElem?_eq_some.mpr h)
  rw [(Prod.mk.inj script_eq).1] at hMem
  simpa using hMem

end TwoGroups

/-- Two ranks; the option gives the group `v` one of them, and the other is left for `w`. -/
theorem every_rank_stoppable_iff_run :
    ∃ (script : Script) (launch : Int32 → Launch), (launch 0).group = ⟨[118]⟩ ∧
      (launch 1).group = ⟨[119]⟩ ∧ ∀ rank, 0 ≤ rank → rank < 2 → (launch rank).Stoppable script := by
  obtain ⟨launch, hLaunch⟩ := TwoGroups.exists_launch
  obtain ⟨-, hRest⟩ := Prod.mk.inj TwoGroups.script_eq
  obtain ⟨hPuppets, hNames⟩ := Prod.mk.inj hRest
  refine ⟨TwoGroups.script, launch, (hLaunch 0 (by decide) (by decide)).2,
    (hLaunch 1 (by decide) (by decide)).2, ?_⟩
  refine (@every_rank_stoppable_iff (fun _ color _ => [color]) [] TwoGroups.content
    TwoGroups.options [] 2 TwoGroups.script launch (parseScript_eq_ok [] TwoGroups.content)
    fun rank h0 h1 => (hLaunch rank h0 h1).1).mpr ⟨?_, ?_, ?_⟩
  · rintro name hNamed -
    have hOptions : bareNames TwoGroups.options = [] ∧
        (explicitSizes TwoGroups.options).map Prod.fst = [⟨[118]⟩] := by decide +kernel
    rw [hOptions.1, hOptions.2] at hNamed
    rw [hNames]
    exact List.mem_cons.mpr (.inl (by simpa using hNamed))
  · intro name control hControl _
    obtain ⟨hSame, hCalls⟩ := TwoGroups.control_eq hControl
    rw [hSame, hCalls]
    exact List.mem_singleton_self _
  · intro name control hControl _ n hn
    rw [(TwoGroups.control_eq hControl).2, List.mem_singleton] at hn
    exact ⟨⟨['a'], ['b']⟩, by simp [hPuppets], hn.symm⟩

/-- One rank, and the script defines `w`. With the option `-p x=1` the rank runs a group without
calls; if `w` is to run while `c` does, no call ever ends the loop. -/
theorem accepted_scripts_never_stop :
    let content (control : Char) := "a = b\nw while ".toList ++ control :: ":\n a\n".toList
    let setupFor (control : Char) (options : List StdString) :=
      setup (fun _ _ => [0]) [] (content control) options [] 0 1
    (∃ launch, Returns (setupFor 'a' [⟨[120, 61, 49]⟩]) launch ∧ launch.group = ⟨[120]⟩ ∧
      (∀ script, parseScript [] (content 'a') = some (.ok script) →
        script.procs[ofStdString launch.group]? = none) ∧
      ∀ b c, (puppetMachine b launch.control launch.puppets).Reachable c →
        c.executor.stop = false) ∧
    ∃ launch, Returns (setupFor 'c' []) launch ∧ launch.group = ⟨[119]⟩ ∧
      launch.control.control = ['c'] ∧ launch.control.names = [['a']] ∧
      ∀ b c, (puppetMachine b launch.control launch.puppets).Reachable c →
        c.executor.stop = false := by
  intro content setupFor
  have hNever {launch : Launch} {control : Text} {names : List Text} (hNot : control ∉ names)
      (hControl : launch.control.control = control) (hNames : launch.control.names = names) :
      ∀ b c, (puppetMachine b launch.control launch.puppets).Reachable c →
        c.executor.stop = false := by
    subst hControl hNames
    exact fun b c hReach => not_stop_of_not_called hNot hReach.of_restrict
  have hRun (control : Char) (options : List StdString) {g : StdString} {k : Text}
      {ns : List Text}
      (h : (match (setupFor control options).run with
        | some (.ok launch) => some (launch.group, launch.control.control, launch.control.names)
        | _ => none) = some (g, k, ns)) :
      ∃ launch, Returns (setupFor control options) launch ∧ launch.group = g ∧
        launch.control.control = k ∧ launch.control.names = ns := by
    split at h
    · rename_i launch hLaunch
      simp only [Option.some.injEq, Prod.mk.injEq] at h
      exact ⟨launch, hLaunch, h⟩
    · cases h
  obtain ⟨launch, hLaunch, hGroup, hControl, hNames⟩ :=
    @hRun 'a' [⟨[120, 61, 49]⟩] ⟨[120]⟩ [] [] (by decide +kernel)
  obtain ⟨launch', hLaunch', hGroup', hControl', hNames'⟩ :=
    @hRun 'c' [] ⟨[119]⟩ ['c'] [['a']] (by decide +kernel)
  refine ⟨⟨launch, hLaunch, hGroup, fun script hScript => ?_, hNever (by simp) hControl hNames⟩,
    launch', hLaunch', hGroup', hControl', hNames', hNever (by decide) hControl' hNames'⟩
  rw [parseScript_eq_ok] at hScript
  obtain rfl := Except.ok.inj (Option.some.inj hScript)
  rw [hGroup]
  have hNone : ((Reading.script (indentToTokens (content 'a'))).1.procs[ofStdString ⟨[120]⟩]?).map
      ControlFlow.control = none := by decide +kernel
  exact Option.map_eq_none_iff.mp hNone

end Henson.Hwl
