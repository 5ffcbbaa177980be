import Mathlib.Logic.Basic
import Mathlib.Data.List.Basic
import Henson.Hwl.Syntax
import Henson.Hwl.Grammar
import Henson.Hwl.WellFormed
import Henson.Hwl.Acceptance

/-!
# Printing scripts

A script as a token text: a line for each puppet, then the groups in the order
of their names, each with a header line and its statements between an `INDENT`
and a `DEDENT` line. The blanks before a statement are free, as long as there
are some. The parser gets every valid script back.
-/

namespace Henson.Hwl

mutual

/-- The leading blanks of a statement are `pad []`, and those of the statements in its body are
found under their index. -/
def Statement.print (pad : List Nat → Text) : Statement → Text
  | .mk call [] => pad [] ++ call ++ ['\n']
  | .mk call (s :: body) =>
    pad [] ++ "if ".toList ++ call ++ ":\nINDENT\n".toList ++ Statement.printAll pad 0 (s :: body) ++
      "DEDENT\n".toList

def Statement.printAll (pad : List Nat → Text) (k : Nat) : List Statement → Text
  | [] => []
  | s :: body => Statement.print (fun path => pad (k :: path)) s ++ Statement.printAll pad (k + 1) body

end

def PuppetCommand.print (pc : PuppetCommand) : Text :=
  pc.name ++ " = ".toList ++ pc.command ++ ['\n']

def ControlFlow.print (pad : List Nat → Text) (cf : ControlFlow) : Text :=
  cf.name ++ " while ".toList ++ cf.control ++ ":\nINDENT\n".toList ++
    Statement.printAll pad 0 cf.commands ++ "DEDENT\n".toList

/-- `pad` has the leading blanks for the statements of each group. -/
def Script.print (pad : Text → List Nat → Text) (s : Script) : Text :=
  s.puppets.flatMap PuppetCommand.print ++ s.procs.toList.flatMap fun p => p.2.print (pad p.1)

inductive Statement.Valid : Statement → Prop
  | call {star n : Text} : (star = [] ∨ star = ['*']) → ValidName n → Valid (.mk (star ++ n) [])
  | ite {c : Text} {body : List Statement} : ValidName c → body ≠ [] → (∀ s ∈ body, Valid s) →
      Valid (.mk c body)

structure PuppetCommand.Valid (pc : PuppetCommand) : Prop where
  name : ValidName pc.name
  command : ∀ c ∈ pc.command, isCommandChar c = true
  start : StopsAt isPad pc.command

structure ControlFlow.Valid (cf : ControlFlow) : Prop where
  name : ValidName cf.name
  control : ValidName cf.control
  commands_ne_nil : cf.commands ≠ []
  commands : ∀ s ∈ cf.commands, s.Valid

structure Script.Valid (s : Script) : Prop where
  puppets : ∀ pc ∈ s.puppets, pc.Valid
  procs_name : ∀ (n : Text) (cf : ControlFlow), s.procs[n]? = some cf → cf.name = n
  procs : ∀ (n : Text) (cf : ControlFlow), s.procs[n]? = some cf → cf.Valid

def LeadingBlanks (pad : List Nat → Text) : Prop := ∀ path, pad path ≠ [] ∧ Pad (pad path)

theorem newline_cons {t : Text} (h : StopsAt (· = '\r') t) : Newline ('\n' :: t) t :=
  .lineFeed t fun hHead => by cases h '\r' hHead

theorem lineEnd_cons {t : Text} (h : StopsAt (· = '\r') t) : LineEnd ('\n' :: t) t :=
  .mk pad_nil (.newline (newline_cons h))

theorem StopsAt.of_validName {p : Char → Bool} {n t : Text} (hn : ValidName n)
    (hp : ∀ c, isLetter c = true → p c = false) : StopsAt p (n ++ t) := by
  cases n with
  | nil => cases hn
  | cons c n => exact stopsAt_cons (hp c hn.1)

theorem not_return_of_isLetter {c : Char} (h : isLetter c = true) : decide (c = '\r') = false := by
  apply decide_eq_false
  rintro rfl
  cases h

theorem exists_cons_of_leadingBlanks {pad : List Nat → Text} (hPad : LeadingBlanks pad)
    (path : List Nat) (t : Text) : ∃ c u, pad path ++ t = c :: u ∧ isPad c = true := by
  obtain ⟨hMoved, hBlank⟩ := hPad path
  cases h : pad path with
  | nil => exact absurd h hMoved
  | cons c w =>
    rw [h] at hBlank
    exact ⟨c, w ++ t, rfl, hBlank c List.mem_cons_self⟩

theorem not_startsWithToken_of_isPad {c : Char} {t : Text} (h : isPad c = true) :
    ¬ StartsWithToken (c :: t) := by
  rintro (⟨u, hu⟩ | ⟨u, hu⟩) <;> obtain ⟨rfl, -⟩ := List.cons.inj hu <;> cases h

theorem printAll_head {pad : List Nat → Text} (hPad : LeadingBlanks pad) (k : Nat) {s : Statement}
    (ss : List Statement) (t : Text) :
    ∃ c u, Statement.printAll pad k (s :: ss) ++ t = c :: u ∧ isPad c = true := by
  have hHead := exists_cons_of_leadingBlanks (fun path => hPad (k :: path)) []
  cases s with
  | mk call body =>
    cases body with
    | nil => simpa [Statement.printAll, Statement.print] using hHead _
    | cons s body => simpa [Statement.printAll, Statement.print] using hHead _

theorem stopsAt_return_of_isPad {c : Char} {t : Text} (h : isPad c = true) :
    StopsAt (· = '\r') (c :: t) := by
  refine stopsAt_cons (decide_eq_false ?_)
  rintro rfl
  cases h

def Printed (s : Statement) : Prop :=
  ∀ (pad : List Nat → Text) (ss : List Statement) (t t' : Text), LeadingBlanks pad →
    StopsAt (· = '\r') t → Items ss t t' → Items (s :: ss) (s.print pad ++ t) t'

theorem items_printAll {ss : List Statement} (hPrinted : ∀ s ∈ ss, Printed s)
    {pad : List Nat → Text} (hPad : LeadingBlanks pad) (k : Nat) {t : Text}
    (ht : StopsAt (· = '\r') t) : Items ss (Statement.printAll pad k ss ++ t) t := by
  induction ss generalizing k with
  | nil => exact .nil t
  | cons s ss ih =>
    obtain ⟨hs, hss⟩ := List.forall_mem_cons.mp hPrinted
    rw [Statement.printAll, List.append_assoc]
    refine hs _ _ _ _ (fun path => hPad (k :: path)) ?_ (ih hss (k + 1))
    cases ss with
    | nil => exact ht
    | cons s' ss =>
      obtain ⟨c, u, hText, hc⟩ := printAll_head hPad (k + 1) (s := s') ss t
      rw [hText]
      exact stopsAt_return_of_isPad hc

theorem block_printAll {ss : List Statement} (hMoved : ss ≠ []) (hPrinted : ∀ s ∈ ss, Printed s)
    {pad : List Nat → Text} (hPad : LeadingBlanks pad) {t : Text} (ht : StopsAt (· = '\r') t) :
    Block ss (':' :: ("\nINDENT\n".toList ++
      (Statement.printAll pad 0 ss ++ ("DEDENT\n".toList ++ t)))) t := by
  cases ss with
  | nil => exact absurd rfl hMoved
  | cons s ss =>
    have hLines := items_printAll hPrinted hPad 0 (t := "DEDENT".toList ++ '\n' :: t)
      (stopsAt_cons rfl)
    obtain ⟨c, u, hText, hc⟩ := printAll_head hPad 0 (s := s) ss ("DEDENT".toList ++ '\n' :: t)
    have hNewline := newline_cons (stopsAt_return_of_isPad hc (t := u))
    rw [← hText] at hNewline
    have hNotDedent : Statement.printAll pad 0 (s :: ss) ++ ("DEDENT".toList ++ '\n' :: t) ≠
        "DEDENT".toList ++ '\n' :: t := by
      rw [hText]
      intro h
      obtain ⟨rfl, -⟩ := List.cons.inj h
      cases hc
    exact .mk (lineEnd_cons (t := "INDENT".toList ++ _) (stopsAt_cons rfl)) hNewline hNotDedent
      hLines (newline_cons ht)

theorem Items.of_block {ss body : List Statement} {w w' w'' c t t' t'' : Text} (hw : Pad w)
    (hw' : Pad w') (hc : ValidName c) (hw'' : Pad w'') (hBlock : Block body (':' :: t) t')
    (hRest : Items ss t' t'') :
    Items (.mk c body :: ss) (w ++ ("if".toList ++ (w' ++ (c ++ (w'' ++ ':' :: t))))) t'' := by
  cases hBlock with
  | mk hLine hNewline hMoved hItems hLast =>
    exact .ite hw hw' hc hw'' hLine hNewline hMoved hItems hLast hRest

/-- The induction is on the statement: the body of an `if` is a printed list of statements. -/
theorem printed_of_valid {s : Statement} (h : s.Valid) : Printed s := by
  induction h with
  | call hStar hn =>
    rename_i star n
    intro pad ss t t' hPad ht hItems
    obtain ⟨c, u, hText, hc⟩ := exists_cons_of_leadingBlanks hPad [] (star ++ (n ++ '\n' :: t))
    have hToken : ¬ StartsWithToken (pad [] ++ (star ++ (n ++ '\n' :: t))) := by
      rw [hText]
      exact not_startsWithToken_of_isPad hc
    have hCall := Items.call (hPad []).2 hStar hn hToken (lineEnd_cons ht) hItems
    simpa [Statement.print] using hCall
  | ite hc hMoved hBody ih =>
    rename_i c body
    intro pad ss t t' hPad ht hItems
    have hBlock := block_printAll hMoved ih hPad ht
    have hSpace : Pad [' '] := by decide
    have hIf := Items.of_block (hPad []).2 hSpace hc pad_nil hBlock hItems
    cases body with
    | nil => exact absurd rfl hMoved
    | cons s body => simpa [Statement.print] using hIf

theorem puppetLine_print {pc : PuppetCommand} (h : pc.Valid) {t : Text}
    (ht : StopsAt (· = '\r') t) : PuppetLine pc (pc.print ++ t) t := by
  have hSpace : Pad [' '] := by decide
  have hLine := PuppetLine.mk h.name hSpace hSpace h.command h.start (.newline (newline_cons ht))
  simpa [PuppetCommand.print] using hLine

theorem group_print {cf : ControlFlow} (h : cf.Valid) {pad : List Nat → Text}
    (hPad : LeadingBlanks pad) {t : Text} (ht : StopsAt (· = '\r') t) :
    Group cf (cf.print pad ++ t) t := by
  have hSpace : Pad [' '] := by decide
  have hBlock := block_printAll h.commands_ne_nil (fun s hs => printed_of_valid (h.commands s hs))
    hPad ht
  have hGroup := Group.mk h.name (List.cons_ne_nil ' ' []) hSpace hSpace h.control pad_nil hBlock
  simpa [ControlFlow.print] using hGroup

theorem stopsAt_flatMap {α : Type} {l : List α} {print : α → Text} {p : Char → Bool}
    (hHead : ∀ x ∈ l, ∀ t, StopsAt p (print x ++ t)) {t : Text} (ht : StopsAt p t) :
    StopsAt p (l.flatMap print ++ t) := by
  cases l with
  | nil => exact ht
  | cons x l =>
    rw [List.flatMap_cons, List.append_assoc]
    exact hHead x List.mem_cons_self _

theorem entries_flatMap {α : Type} (l : List α) (print : α → Text) (add : Script → α → Script)
    (hHead : ∀ x ∈ l, ∀ t, StopsAt (· = '\r') (print x ++ t))
    (hEntry : ∀ x ∈ l, ∀ s s' t, StopsAt (· = '\r') t → Entries (add s x) t s' →
      Entries s (print x ++ t) s')
    {s s' : Script} {t : Text} (ht : StopsAt (· = '\r') t) (h : Entries (l.foldl add s) t s') :
    Entries s (l.flatMap print ++ t) s' := by
  induction l generalizing s with
  | nil => exact h
  | cons x l ih =>
    obtain ⟨hHeadX, hHead⟩ := List.forall_mem_cons.mp hHead
    obtain ⟨hEntryX, hEntry⟩ := List.forall_mem_cons.mp hEntry
    rw [List.flatMap_cons, List.append_assoc]
    exact hEntryX _ _ _ (stopsAt_flatMap hHead ht) (ih hHead hEntry h)

theorem foldl_addPuppet (l : List PuppetCommand) (s : Script) :
    l.foldl Script.addPuppet s = { s with puppets := s.puppets ++ l } := by
  induction l generalizing s with
  | nil => simp
  | cons pc l ih => simp [ih, Script.addPuppet]

theorem puppets_foldl_addProcs (l : List (Text × ControlFlow)) (s : Script) :
    (l.foldl (fun s p => s.addProcs p.2) s).puppets = s.puppets := by
  induction l generalizing s with
  | nil => rfl
  | cons p l ih => exact ih _

theorem procs_foldl_addProcs {l : List (Text × ControlFlow)} {s : Script}
    (hName : ∀ p ∈ l, p.2.name = p.1) (hDistinct : l.Pairwise fun p q => p.1 ≠ q.1)
    (hNew : ∀ p ∈ l, s.procs[p.1]? = none) (n : Text) (cf : ControlFlow) :
    (l.foldl (fun s p => s.addProcs p.2) s).procs[n]? = some cf ↔
      s.procs[n]? = some cf ∨ (n, cf) ∈ l := by
  induction l generalizing s with
  | nil => simp
  | cons p l ih =>
    obtain ⟨hNameP, hName⟩ := List.forall_mem_cons.mp hName
    obtain ⟨hDistinctP, hDistinct⟩ := List.pairwise_cons.mp hDistinct
    obtain ⟨hNewP, hNew⟩ := List.forall_mem_cons.mp hNew
    have hAdded (k : Text) : (s.addProcs p.2).procs[k]? =
        if p.1 = k then some p.2 else s.procs[k]? := by
      rw [← hNameP] at hNewP ⊢
      exact Script.getElem?_addProcs hNewP k
    rw [List.foldl_cons, ih hName hDistinct (fun q hq => ?_), hAdded, List.mem_cons]
    · by_cases hSame : p.1 = n
      · subst hSame
        rw [if_pos rfl, hNewP]
        simp [Prod.ext_iff, eq_comm (a := cf)]
      · rw [if_neg hSame]
        have hOther : (n, cf) ≠ p := fun h => hSame (congrArg Prod.fst h).symm
        simp [hOther]
    · rw [hAdded, if_neg (hDistinctP q hq)]
      exact hNew q hq

theorem entries_print {s : Script} (hValid : s.Valid) {pad : Text → List Nat → Text}
    (hPad : ∀ n, LeadingBlanks (pad n)) : Entries {} (s.print pad) s := by
  have hGroup (p) (hp : p ∈ s.procs.toList) : p.2.name = p.1 ∧ p.2.Valid := by
    have hGet := Std.ExtTreeMap.mem_toList_iff_getElem?_eq_some.mp hp
    exact ⟨hValid.procs_name _ _ hGet, hValid.procs _ _ hGet⟩
  have hAll : s.procs.toList.foldl (fun s p => s.addProcs p.2) { puppets := s.puppets } = s := by
    refine Script.ext (puppets_foldl_addProcs _ _) ?_
    refine Std.ExtTreeMap.ext_getElem? fun n => Option.ext fun cf => ?_
    rw [procs_foldl_addProcs (fun p hp => (hGroup p hp).1) ?_ (fun p _ => by simp)]
    · simp [Std.ExtTreeMap.mem_toList_iff_getElem?_eq_some]
    · exact Std.ExtTreeMap.distinct_keys_toList.imp fun hNe hEq => hNe (by simp [hEq])
  have hHead {n t : Text} (hn : ValidName n) : StopsAt (· = '\r') (n ++ t) :=
    .of_validName hn fun c => not_return_of_isLetter
  have hGroupHead (p) (hp : p ∈ s.procs.toList) (t) :
      StopsAt (· = '\r') (p.2.print (pad p.1) ++ t) := by
    simp only [ControlFlow.print, List.append_assoc]
    exact hHead (hGroup p hp).2.name
  have hLast : Entries
      (s.procs.toList.foldl (fun s p => s.addProcs p.2) { puppets := s.puppets }) [] s := by
    rw [hAll]
    exact .nil s
  have hGroups := entries_flatMap _ _ (fun s p => s.addProcs p.2) hGroupHead
    (fun p hp s s' t ht h => .group (group_print (hGroup p hp).2 (hPad p.1) ht) h)
    (stopsAt_nil _) hLast
  have hStart := stopsAt_flatMap hGroupHead (stopsAt_nil _)
  rw [List.append_nil] at hGroups hStart
  refine entries_flatMap s.puppets PuppetCommand.print Script.addPuppet (fun pc hpc t => ?_)
    (fun pc hpc s s' t ht h => .puppet (puppetLine_print (hValid.puppets pc hpc) ht) h) hStart ?_
  · simp only [PuppetCommand.print, List.append_assoc]
    exact hHead (hValid.puppets pc hpc).name
  · rw [foldl_addPuppet]
    exact hGroups

/-- The parser gets every valid script back, and has consumed all of the printed text. -/
theorem runScript_print (s : Script) (hValid : s.Valid) (pad : Text → List Nat → Text)
    (hPad : ∀ n, LeadingBlanks (pad n)) :
    ∃ ps, runScript (s.print pad) = some (true, s, ps) ∧ ps.pos = (s.print pad).length :=
  runScript_of_entries (entries_print hValid hPad)

theorem runScript_print_run :
    let body : List Statement :=
      [.mk "*if".toList [], .mk "if".toList [.mk "a".toList [.mk "ifb".toList []], .mk "a".toList []]]
    let s : Script :=
      ({ puppets := [⟨"while".toList, "./a.so $n".toList⟩] } : Script).addProcs
        { name := "while".toList, control := "a".toList, commands := body }
    let pad : Text → List Nat → Text := fun _ path => '\t' :: List.replicate path.length ' '
    ∃ ps, runScript (s.print pad) = some (true, s, ps) ∧ ps.pos = (s.print pad).length := by
  intro body s pad
  have hBody : ∀ st ∈ body, st.Valid := by
    have hCall (n : Text) (hn : ValidName n) : (Statement.mk n []).Valid := .call (Or.inl rfl) hn
    have hNested : (Statement.mk "a".toList [.mk "ifb".toList []]).Valid :=
      .ite (by decide) (List.cons_ne_nil _ _)
        (List.forall_mem_singleton.mpr (hCall "ifb".toList (by decide)))
    have hIf : (Statement.mk "if".toList
        [.mk "a".toList [.mk "ifb".toList []], .mk "a".toList []]).Valid :=
      .ite (by decide) (List.cons_ne_nil _ _) (List.forall_mem_cons.mpr ⟨hNested,
        List.forall_mem_singleton.mpr (hCall "a".toList (by decide))⟩)
    have hStarred : (Statement.mk "*if".toList []).Valid :=
      .call (n := "if".toList) (Or.inr rfl) (by decide)
    exact List.forall_mem_cons.mpr ⟨hStarred, List.forall_mem_singleton.mpr hIf⟩
  have hProcs (n : Text) (cf : ControlFlow) (h : s.procs[n]? = some cf) :
      "while".toList = n ∧ { name := "while".toList, control := "a".toList, commands := body } = cf := by
    simpa [s, Script.addProcs, Std.ExtTreeMap.getElem?_insertIfNew] using h
  refine runScript_print s ⟨?_, ?_, ?_⟩ pad fun n path => ⟨List.cons_ne_nil _ _, ?_⟩
  · exact List.forall_mem_singleton.mpr ⟨by decide, List.all_eq_true.mp rfl, stopsAt_cons rfl⟩
  · intro n cf h
    obtain ⟨rfl, rfl⟩ := hProcs n cf h
    rfl
  · intro n cf h
    obtain ⟨rfl, rfl⟩ := hProcs n cf h
    exact ⟨by decide, by decide, List.cons_ne_nil _ _, hBody⟩
  · refine List.forall_mem_cons.mpr ⟨rfl, fun c hc => ?_⟩
    obtain rfl := List.eq_of_mem_replicate hc
    rfl

end Henson.Hwl
