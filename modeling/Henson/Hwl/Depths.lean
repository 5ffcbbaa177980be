import Mathlib.Data.List.Perm.Subperm
import Henson.Hwl.Pieces

/-!
# The depths of the lines

What the grammar has read of the lines and token lines, seen from the outside:
how deep each line stands, with an `INDENT` line behind every header of a block
and nowhere else. A script says how many lines there were, and how deep.
-/

namespace Henson.Hwl

/-- The pieces lead from one depth to another. The flag says that the line before was a header; the
depths are those of the lines that are not skipped. -/
inductive Walk : Nat → Bool → List Piece → List Nat → Nat → Bool → Prop
  | nil (d : Nat) (h : Bool) : Walk d h [] [] d h
  | indent {d d' : Nat} {h' : Bool} {ps : List Piece} {L : List Nat} :
      Walk (d + 1) false ps L d' h' → Walk d true (.indent :: ps) L d' h'
  | dedent {d d' : Nat} {h' : Bool} {ps : List Piece} {L : List Nat} :
      Walk d false ps L d' h' → Walk (d + 1) false (.dedent :: ps) L d' h'
  | empty {d d' : Nat} {h' : Bool} {l : Text} {ps : List Piece} {L : List Nat} :
      isEmptyLine l = true → Walk d false ps L d' h' → Walk d false (.line l :: ps) L d' h'
  | line {d d' : Nat} {h' : Bool} {l : Text} {ps : List Piece} {L : List Nat} :
      isEmptyLine l = false → Walk d (isHeader l) ps L d' h' →
      Walk d false (.line l :: ps) (d :: L) d' h'

mutual

def Statement.depths (d : Nat) : Statement → List Nat
  | .mk _ body => d :: Statement.bodyDepths (d + 1) body

def Statement.bodyDepths (d : Nat) : List Statement → List Nat
  | [] => []
  | s :: ss => s.depths d ++ Statement.bodyDepths d ss

end

/-- The depths of the lines that a script was read from. -/
def Script.depths (s : Script) : List Nat :=
  s.puppets.map (fun _ => 0) ++
    s.procs.toList.flatMap fun p => 0 :: Statement.bodyDepths 1 p.2.commands

section Walks

variable {d d' d'' k : Nat} {h h' h'' : Bool} {ps qs : List Piece} {L L' : List Nat} {l : Text}

theorem Walk.append (hp : Walk d h ps L d' h') (hq : Walk d' h' qs L' d'' h'') :
    Walk d h (ps ++ qs) (L ++ L') d'' h'' := by
  induction hp with
  | nil => exact hq
  | indent _ ih => exact .indent (ih hq)
  | dedent _ ih => exact .dedent (ih hq)
  | empty hEmpty _ ih => exact .empty hEmpty (ih hq)
  | line hLine _ ih => exact .line hLine (ih hq)

theorem Walk.exists_append (hpq : Walk d h (ps ++ qs) L d'' h'') :
    ∃ L₁ L₂ d' h', Walk d h ps L₁ d' h' ∧ Walk d' h' qs L₂ d'' h'' ∧ L = L₁ ++ L₂ := by
  induction ps generalizing d h L with
  | nil => exact ⟨[], L, d, h, .nil d h, hpq, rfl⟩
  | cons p ps ih =>
    rw [List.cons_append] at hpq
    cases hpq with
    | indent hWalk =>
      obtain ⟨L₁, L₂, d', h', hp, hq, rfl⟩ := ih hWalk
      exact ⟨L₁, L₂, d', h', .indent hp, hq, rfl⟩
    | dedent hWalk =>
      obtain ⟨L₁, L₂, d', h', hp, hq, rfl⟩ := ih hWalk
      exact ⟨L₁, L₂, d', h', .dedent hp, hq, rfl⟩
    | empty hEmpty hWalk =>
      obtain ⟨L₁, L₂, d', h', hp, hq, rfl⟩ := ih hWalk
      exact ⟨L₁, L₂, d', h', .empty hEmpty hp, hq, rfl⟩
    | line hLine hWalk =>
      obtain ⟨L₁, L₂, d', h', hp, hq, rfl⟩ := ih hWalk
      exact ⟨d :: L₁, L₂, d', h', .line hLine hp, hq, rfl⟩

theorem Walk.unique (hp : Walk d h ps L d' h') (hp' : Walk d h ps L' d'' h'') :
    L = L' ∧ d' = d'' ∧ h' = h'' := by
  induction hp generalizing L' with
  | nil =>
    cases hp'
    exact ⟨rfl, rfl, rfl⟩
  | indent _ ih =>
    cases hp' with
    | indent hWalk => exact ih hWalk
  | dedent _ ih =>
    cases hp' with
    | dedent hWalk => exact ih hWalk
  | empty hEmpty _ ih =>
    cases hp' with
    | empty _ hWalk => exact ih hWalk
    | line hLine _ => cases hEmpty.symm.trans hLine
  | line hLine _ ih =>
    cases hp' with
    | empty hEmpty _ => cases hEmpty.symm.trans hLine
    | line _ hWalk =>
      obtain ⟨rfl, hEnd⟩ := ih hWalk
      exact ⟨rfl, hEnd⟩

theorem Walk.raise (k : Nat) (hp : Walk d h ps L d' h') :
    Walk (d + k) h ps (L.map (· + k)) (d' + k) h' := by
  induction hp with
  | nil => exact .nil _ _
  | @indent d _ _ _ _ _ ih =>
    rw [Nat.add_right_comm] at ih
    exact .indent ih
  | @dedent d _ _ _ _ _ ih =>
    rw [Nat.add_right_comm]
    exact .dedent ih
  | empty hEmpty _ ih => exact .empty hEmpty ih
  | line hLine _ ih => exact .line hLine ih

/-- The pieces that are lines and are not skipped. -/
def isCode : Piece → Bool
  | .line l => !isEmptyLine l
  | _ => false

theorem Walk.length_eq (hp : Walk d h ps L d' h') : L.length = ps.countP isCode := by
  induction hp with
  | nil => rfl
  | indent _ ih => exact ih
  | dedent _ ih => exact ih
  | empty hEmpty _ ih => simpa [isCode, hEmpty] using ih
  | line hLine _ ih => simpa [isCode, hLine] using ih

end Walks

theorem countP_turn (cur indent : Nat) : (turn cur indent).countP isCode = 0 := by
  rw [turn]
  split_ifs <;> rfl

theorem countP_piecesFrom (cur : Nat) (lines : List Text) :
    (piecesFrom cur lines).countP isCode = lines.countP fun l => !isEmptyLine l := by
  induction lines generalizing cur with
  | nil => rfl
  | cons line lines ih =>
    rw [piecesFrom, List.countP_append, countP_turn, List.countP_cons, List.countP_cons, ih]
    simp [isCode]

theorem countP_dedents (n : Nat) : (List.replicate n Piece.dedent).countP isCode = 0 := by
  simp [isCode]

theorem countP_tokenPieces (lines : List Text) :
    (tokenPieces lines).countP isCode = lines.countP fun l => !isEmptyLine l := by
  rw [tokenPieces, List.countP_append, countP_piecesFrom, countP_dedents, Nat.add_zero]

/-- What has been read, seen among the pieces: a part of them that leads from depth `d` back to it,
past lines of these depths. -/
def ReadsAs (depths : Nat → List Nat) (ps : List Piece) (t' : Text) : Prop :=
  ∃ qs rs, ps = qs ++ rs ∧ t' = render rs ∧ ∀ d, Walk d false qs (depths d) d false

/-- From the line end of a header to the end of its block. -/
theorem walk_block {v y : Text} {ps : List Piece} {t₁ t₂ t₃ t' : Text} {body : List Statement}
    (hPlain : Plain (.line (v ++ [':'] ++ y) :: ps)) (hWords : Words v)
    (hCode : isEmptyLine (v ++ [':'] ++ y) = false)
    (hLine : LineEnd (y ++ '\n' :: render ps) ("INDENT".toList ++ t₁)) (hNewline : Newline t₁ t₂)
    (hBody : ∀ ps, t₂ = render ps → Plain ps →
      ReadsAs (Statement.bodyDepths · body) ps ("DEDENT".toList ++ t₃))
    (hLast : Newline t₃ t') :
    ReadsAs (fun d => d :: Statement.bodyDepths (d + 1) body)
      (.line (v ++ [':'] ++ y) :: ps) t' := by
  obtain ⟨hy, hIndent⟩ := lineEnd_rest (plain_line_append hPlain) (plain_cons hPlain) hLine
  obtain ⟨ps₁, rfl, rfl⟩ := indent_of_word (plain_cons hPlain) hIndent.symm
  have hPlain₁ : Plain ps₁ := plain_cons (plain_cons hPlain)
  obtain ⟨qs, rs, rfl, hDedent, hWalk⟩ := hBody ps₁ (newline_render hPlain₁ hNewline) hPlain₁
  have hPlain₂ : Plain rs := (plain_append.mp hPlain₁).2
  obtain ⟨rs, rfl, rfl⟩ := dedent_of_word hPlain₂ hDedent.symm
  refine ⟨.line (v ++ [':'] ++ y) :: .indent :: (qs ++ [.dedent]), rs, by simp,
    newline_render (plain_cons hPlain₂) hLast, fun d => .line hCode ?_⟩
  rw [hWords.header hy]
  exact .indent (by simpa using (hWalk (d + 1)).append (.dedent (.nil d false)))

theorem ReadsAs.append {f g : Nat → List Nat} {ps : List Piece} {t t' : Text}
    (h : ReadsAs f ps t) (hPlain : Plain ps)
    (hRest : ∀ rs, t = render rs → Plain rs → ReadsAs g rs t') :
    ReadsAs (fun d => f d ++ g d) ps t' := by
  obtain ⟨qs, rs, rfl, hText, hWalk⟩ := h
  obtain ⟨qs', rs', rfl, hText', hWalk'⟩ := hRest rs hText (plain_append.mp hPlain).2
  exact ⟨qs ++ qs', rs', (List.append_assoc ..).symm, hText', fun d => (hWalk d).append (hWalk' d)⟩

theorem walk_items {ss : List Statement} {t t' : Text} (h : Items ss t t') {ps : List Piece}
    (hText : t = render ps) (hPlain : Plain ps) :
    ReadsAs (Statement.bodyDepths · ss) ps t' := by
  induction h generalizing ps with
  | nil t => exact ⟨[], ps, rfl, hText, fun d => .nil d false⟩
  | blank hLine _ ih =>
    subst hText
    obtain ⟨l, ps, rfl, hEmpty, rfl⟩ := empty_line hPlain hLine
    obtain ⟨qs, rs, rfl, hRest, hWalk⟩ := ih rfl (plain_cons hPlain)
    exact ⟨.line l :: qs, rs, rfl, hRest, fun d => .empty hEmpty (hWalk d)⟩
  | @call ss w star n t t' t'' hw hStar hn hToken hLine _ ih =>
    obtain ⟨v, y, ps, hWords, hCode, rfl, rfl⟩ := call_line hw hStar hn hToken hText
    obtain ⟨hy, rfl⟩ := lineEnd_rest (plain_line_append hPlain) (plain_cons hPlain) hLine
    obtain ⟨qs, rs, rfl, hRest, hWalk⟩ := ih rfl (plain_cons hPlain)
    refine ⟨.line (v ++ y) :: qs, rs, rfl, hRest, fun d => .line hCode ?_⟩
    rw [hWords.not_header hy]
    exact hWalk d
  | @ite ss body w w' w'' c t t₁ t₂ t₃ t' t'' hw hw' hc hw'' hLine hNewline hMoved _ hLast _ ihBody
      ihRest =>
    have hWords := if_words hw hw' hc hw''
    obtain ⟨y, ps, rfl, rfl⟩ := header_line hWords (by simpa using hText)
    have hBlock := walk_block hPlain hWords ?_ hLine hNewline (fun _ => ihBody) hLast
    · exact hBlock.append hPlain fun _ => ihRest
    · rw [List.append_assoc, List.append_assoc]
      exact isEmptyLine_of_start hw rfl

theorem walk_group {cf : ControlFlow} {t t' : Text} (h : Group cf t t') {ps : List Piece}
    (hText : t = render ps) (hPlain : Plain ps) :
    ReadsAs (fun d => d :: Statement.bodyDepths (d + 1) cf.commands) ps t' := by
  obtain ⟨hn, -, hw, hw', hc, hw'', hBlock⟩ := h
  rename_i n c w w' w'' t body
  obtain ⟨hLine, hNewline, -, hBody, hLast⟩ := hBlock
  have hWords := group_words hn hw hw' hc hw''
  obtain ⟨y, ps, rfl, rfl⟩ := header_line hWords (by simpa using hText)
  refine walk_block hPlain hWords ?_ hLine hNewline (fun _ => walk_items hBody) hLast
  rw [List.append_assoc, List.append_assoc]
  exact isEmptyLine_of_name hn

theorem walk_puppet {pc : PuppetCommand} {t t' : Text} (h : PuppetLine pc t t') {ps : List Piece}
    (hText : t = render ps) (hPlain : Plain ps) : ReadsAs (fun d => [d]) ps t' := by
  obtain ⟨hn, hw, hw', hc, -, hEnding⟩ := h
  rename_i n w w' c t
  have hCommand : ∀ x ∈ c, isNewline x = false ∧ x ≠ '#' := by
    intro x hx
    have hChar := hc x hx
    simp only [isCommandChar, Bool.and_eq_true, Bool.not_eq_true', Bool.or_eq_false_iff,
      decide_eq_false_iff_not] at hChar
    exact hChar.2
  have hFirst : ∀ x ∈ n ++ (w ++ '=' :: (w' ++ c)), isNewline x = false := by
    simp only [List.forall_mem_append, List.forall_mem_cons]
    exact ⟨hn.words.line, hw.words.line, rfl, hw'.words.line, fun x hx => (hCommand x hx).1⟩
  have hHash : '#' ∉ n ++ (w ++ '=' :: (w' ++ c)) := by
    simp only [List.mem_append, List.mem_cons, not_or]
    exact ⟨hn.words.notMem rfl, hw.words.notMem rfl, by decide, hw'.words.notMem rfl,
      fun hMem => (hCommand _ hMem).2 rfl⟩
  obtain ⟨y, ps, rfl, rfl⟩ := line_with (c := '=') (by simp) (by decide) hFirst
    (by simpa using hText)
  obtain ⟨hy, rfl⟩ := lineEnd_rest (plain_line_append hPlain) (plain_cons hPlain)
    (LineEnd.mk (w := []) pad_nil hEnding)
  refine ⟨[.line _], ps, rfl, rfl, fun d => .line ?_ ?_⟩
  · rw [List.append_assoc]
    exact isEmptyLine_of_name hn
  · have hNo : isHeader (n ++ (w ++ '=' :: (w' ++ c)) ++ y) = false := by
      rw [isHeader_append hHash hy]
      simp
    rw [hNo]
    exact .nil d false

theorem addProcs_of_some {s : Script} {cf cf' : ControlFlow} (h : s.procs[cf.name]? = some cf') :
    s.addProcs cf = s := by
  refine Script.ext rfl (Std.ExtTreeMap.ext_getElem? fun n => ?_)
  have hMem : cf.name ∈ s.procs := by
    rw [Std.ExtTreeMap.mem_iff_isSome_getElem?, h]
    rfl
  simp [Script.addProcs, Std.ExtTreeMap.getElem?_insertIfNew, hMem]

theorem toList_addProcs {s : Script} {cf : ControlFlow} (h : s.procs[cf.name]? = none) :
    (s.addProcs cf).procs.toList.Perm ((cf.name, cf) :: s.procs.toList) := by
  have hNodup (m : Std.ExtTreeMap Text ControlFlow compare) : m.toList.Nodup :=
    Std.ExtTreeMap.distinct_keys_toList.imp fun hNe hEq => hNe (by simp [hEq])
  have hMem {m : Std.ExtTreeMap Text ControlFlow compare} {p : Text × ControlFlow} :
      p ∈ m.toList ↔ m[p.1]? = some p.2 := Std.ExtTreeMap.mem_toList_iff_getElem?_eq_some
  refine (List.perm_ext_iff_of_nodup (hNodup _) (List.nodup_cons.mpr ⟨?_, hNodup _⟩)).mpr ?_
  · rw [hMem, h]
    simp
  · rintro ⟨n, cf'⟩
    rw [List.mem_cons, hMem, hMem, Script.getElem?_addProcs h]
    by_cases hName : cf.name = n
    · subst hName
      simp [h, eq_comm (a := cf')]
    · simp [hName, Ne.symm hName]

theorem depths_addProcs {s : Script} {cf : ControlFlow} (h : s.procs[cf.name]? = none) :
    (s.addProcs cf).depths.Perm (s.depths ++ 0 :: Statement.bodyDepths 1 cf.commands) := by
  have hGroups := (toList_addProcs h).flatMap_right fun p =>
    0 :: Statement.bodyDepths 1 p.2.commands
  rw [Script.depths, Script.depths, List.append_assoc]
  exact (hGroups.trans List.perm_append_comm).append_left _

theorem depths_addPuppet (s : Script) (pc : PuppetCommand) :
    (s.addPuppet pc).depths.Perm (s.depths ++ [0]) := by
  rw [Script.depths, Script.depths, Script.addPuppet, List.map_append, List.append_assoc,
    List.append_assoc]
  exact List.perm_append_comm.append_left _

/-- A whole text in which every group has a name of its own. -/
inductive DistinctEntries : Script → Text → Script → Prop
  | nil (s : Script) : DistinctEntries s [] s
  | blank {s s' : Script} {t t' : Text} : LineEnd t t' → DistinctEntries s t' s' →
      DistinctEntries s t s'
  | puppet {s s' : Script} {pc : PuppetCommand} {t t' : Text} : PuppetLine pc t t' →
      DistinctEntries (s.addPuppet pc) t' s' → DistinctEntries s t s'
  | group {s s' : Script} {cf : ControlFlow} {t t' : Text} : Group cf t t' →
      s.procs[cf.name]? = none → DistinctEntries (s.addProcs cf) t' s' → DistinctEntries s t s'

theorem DistinctEntries.entries {s s' : Script} {t : Text} (h : DistinctEntries s t s') :
    Entries s t s' := by
  induction h with
  | nil s => exact .nil s
  | blank hLine _ ih => exact .blank hLine ih
  | puppet hPuppet _ ih => exact .puppet hPuppet ih
  | group hGroup _ _ ih => exact .group hGroup ih

/-- The script has all lines of a text whose groups have names of their own. -/
theorem walk_distinct {s s' : Script} {t : Text} (h : DistinctEntries s t s') {ps : List Piece}
    (hText : t = render ps) (hPlain : Plain ps) :
    ∃ L, Walk 0 false ps L 0 false ∧ s'.depths.Perm (s.depths ++ L) := by
  induction h generalizing ps with
  | nil s =>
    obtain rfl := render_eq_nil hText.symm
    exact ⟨[], .nil 0 false, by simp⟩
  | blank hLine _ ih =>
    subst hText
    obtain ⟨l, ps, rfl, hEmpty, rfl⟩ := empty_line hPlain hLine
    obtain ⟨L, hWalk, hPerm⟩ := ih rfl (plain_cons hPlain)
    exact ⟨L, .empty hEmpty hWalk, hPerm⟩
  | @puppet s _ pc _ _ hPuppet _ ih =>
    obtain ⟨qs, rs, rfl, hRest, hWalk⟩ := walk_puppet hPuppet hText hPlain
    obtain ⟨L, hWalk', hPerm⟩ := ih hRest (plain_append.mp hPlain).2
    refine ⟨[0] ++ L, (hWalk 0).append hWalk', hPerm.trans ?_⟩
    rw [← List.append_assoc]
    exact (depths_addPuppet s pc).append_right L
  | @group s _ cf _ _ hGroup hNew _ ih =>
    obtain ⟨qs, rs, rfl, hRest, hWalk⟩ := walk_group hGroup hText hPlain
    obtain ⟨L, hWalk', hPerm⟩ := ih hRest (plain_append.mp hPlain).2
    refine ⟨0 :: Statement.bodyDepths 1 cf.commands ++ L, (hWalk 0).append hWalk', hPerm.trans ?_⟩
    rw [← List.append_assoc]
    exact (depths_addProcs hNew).append_right L

/-- One round adds no more lines to the script than it reads. -/
theorem walk_entry {s s' : Script} {t t' : Text} (h : Reading.entry s t = some (s', t'))
    {ps : List Piece} (hText : t = render ps) (hPlain : Plain ps) :
    ∃ qs rs L, ps = qs ++ rs ∧ t' = render rs ∧ Walk 0 false qs L 0 false ∧
      s'.depths.Subperm (s.depths ++ L) := by
  rcases Reading.entry_eq_some.mp h with
    ⟨pc, rfl, hPuppet⟩ | ⟨cf, rfl, -, hProcs⟩ | ⟨rfl, -, -, hLine⟩
  · obtain ⟨qs, rs, rfl, hRest, hWalk⟩ := walk_puppet (Reading.puppet_iff.mp hPuppet) hText hPlain
    exact ⟨qs, rs, [0], rfl, hRest, hWalk 0, (depths_addPuppet s pc).subperm⟩
  · obtain ⟨qs, rs, rfl, hRest, hWalk⟩ := walk_group (Reading.procs_iff.mp hProcs) hText hPlain
    refine ⟨qs, rs, _, rfl, hRest, hWalk 0, ?_⟩
    cases hOld : s.procs[cf.name]? with
    | none => exact (depths_addProcs hOld).subperm
    | some cf' =>
      rw [addProcs_of_some hOld]
      exact (List.sublist_append_left _ _).subperm
  · subst hText
    obtain ⟨l, ps, rfl, hEmpty, hRest⟩ := empty_line hPlain (Reading.lineEnd_iff.mp hLine)
    exact ⟨[.line l], ps, [], rfl, hRest, .empty hEmpty (.nil 0 false),
      (List.append_nil _).symm ▸ .refl _⟩

/-- A script has no more lines than have been read. -/
theorem walk_iterate {s s' : Script} {t t' : Text}
    (h : Peg.iterate Reading.entry s t = (s', t')) {ps : List Piece} (hText : t = render ps)
    (hPlain : Plain ps) :
    ∃ qs rs L, ps = qs ++ rs ∧ Walk 0 false qs L 0 false ∧ s'.depths.Subperm (s.depths ++ L) := by
  induction hLength : t.length using Nat.strongRecOn generalizing s t ps with
  | ind n ih =>
    subst hLength
    cases hEntry : Reading.entry s t with
    | none =>
      rw [Peg.iterate_of_none hEntry] at h
      obtain ⟨rfl, -⟩ := Prod.mk.inj h
      exact ⟨[], ps, [], rfl, .nil 0 false, (List.append_nil _).symm ▸ .refl _⟩
    | some p =>
      obtain ⟨s₁, t₁⟩ := p
      rw [Peg.iterate_of_some Reading.shrinks_entry hEntry] at h
      obtain ⟨qs, rs, L, rfl, hRest, hWalk, hFirst⟩ := walk_entry hEntry hText hPlain
      obtain ⟨qs', rs', L', rfl, hWalk', hLater⟩ := ih _ (Reading.shrinks_entry _ _ _ _ hEntry) h
        hRest (plain_append.mp hPlain).2 rfl
      refine ⟨qs ++ qs', rs', L ++ L', (List.append_assoc ..).symm, hWalk.append hWalk',
        hLater.trans ?_⟩
      rw [← List.append_assoc]
      exact (List.subperm_append_right L').mpr hFirst

/-- A token line begins neither a puppet's line nor a group. -/
theorem entry_token {p : Piece} (hp : ∀ l, p ≠ .line l) {ps : List Piece}
    (hPlain : Plain (p :: ps)) (s : Script) : Reading.entry s (render (p :: ps)) = none := by
  refine Option.eq_none_iff_forall_ne_some.mpr ?_
  rintro ⟨s', t'⟩ hEntry
  have hShorter := Reading.shrinks_entry _ _ _ _ hEntry
  obtain ⟨qs, rs, L, hSplit, rfl, hWalk, -⟩ := walk_entry hEntry rfl hPlain
  cases qs with
  | nil =>
    rw [hSplit] at hShorter
    exact Nat.lt_irrefl _ hShorter
  | cons q qs =>
    obtain ⟨rfl, -⟩ := List.cons.inj hSplit
    cases hWalk with
    | empty => exact hp _ rfl
    | line => exact hp _ rfl

theorem depths_empty_script : Script.depths {} = [] := by
  simp [Script.depths]

/-- If a text gives the script of another one with as many lines, then it has been read past its
last line, and the lines are as deep. -/
theorem walk_of_same {ps ps' : List Piece} {s : Script} (hOld : DistinctEntries {} (render ps) s)
    (hPlain : Plain ps) (hPlain' : Plain ps') (hCount : ps'.countP isCode = ps.countP isCode)
    (hSame : (Reading.script (render ps')).1 = s) :
    ∃ L L' qs rs, Walk 0 false ps L 0 false ∧ ps' = qs ++ rs ∧ Walk 0 false qs L' 0 false ∧
      rs.countP isCode = 0 ∧ L'.Perm L := by
  obtain ⟨L, hWalk, hAll⟩ := walk_distinct hOld rfl hPlain
  have hNew : Peg.iterate Reading.entry {} (render ps') =
      (s, (Reading.script (render ps')).2) := Prod.ext hSame rfl
  obtain ⟨qs, rs, L', rfl, hWalk', hMost⟩ := walk_iterate hNew rfl hPlain'
  rw [depths_empty_script, List.nil_append] at hAll hMost
  have hLe := hMost.length_le
  have hLength := hAll.length_eq
  have hCode := hWalk.length_eq
  have hCode' := hWalk'.length_eq
  rw [List.countP_append] at hCount
  exact ⟨L, L', qs, rs, hWalk, rfl, hWalk', by omega,
    ((hMost.perm_of_length_le (by omega)).symm.trans hAll)⟩

theorem Walk.no_code {d d' : Nat} {h h' : Bool} {ps : List Piece} {L : List Nat}
    (hp : Walk d h ps L d' h') (hCode : ps.countP isCode = 0) : L = [] := by
  rw [← List.length_eq_zero_iff, hp.length_eq, hCode]

theorem eq_zero_of_perm_raised {k : Nat} {L : List Nat} (hNe : L ≠ [])
    (hPerm : (L.map (· + k)).Perm L) : k = 0 := by
  obtain ⟨m, hm⟩ := Option.isSome_iff_exists.mp (List.isSome_max?_of_ne_nil hNe)
  obtain ⟨hMem, hMax⟩ := List.max?_eq_some_iff.mp hm
  have hRaised : m + k ∈ L := hPerm.subset (List.mem_map_of_mem hMem)
  have hLe := hMax _ hRaised
  omega

/-- Lines that are as deep in two places begin at the same depth. -/
theorem Walk.depth_eq {d d' e e' : Nat} {h g g' : Bool} {ps : List Piece} {L L' : List Nat}
    (hp : Walk d h ps L e g) (hp' : Walk d' h ps L' e' g') (hNe : L ≠ [])
    (hPerm : L'.Perm L) : d = d' := by
  rcases Nat.le_total d d' with hLe | hLe
  · obtain ⟨k, rfl⟩ := Nat.exists_eq_add_of_le hLe
    obtain ⟨rfl, -⟩ := hp'.unique (hp.raise k)
    rw [eq_zero_of_perm_raised hNe hPerm]
    rfl
  · obtain ⟨k, rfl⟩ := Nat.exists_eq_add_of_le hLe
    obtain ⟨rfl, -⟩ := hp.unique (hp'.raise k)
    rw [eq_zero_of_perm_raised (fun hNil => hNe (by rw [hNil]; rfl)) hPerm.symm]
    rfl

theorem exists_last_line {lines : List Text} (hNe : lines ≠ []) (cur : Nat) :
    ∃ u l, piecesFrom cur lines = u ++ [.line l] ∧ l ∈ lines := by
  obtain ⟨first, l, rfl⟩ := (List.eq_nil_or_concat lines).resolve_left hNe
  refine ⟨piecesFrom cur first ++ turn (indentAfter cur first) (indentation l), l, ?_, by simp⟩
  rw [List.concat_eq_append, piecesFrom_append, List.append_assoc]
  rfl

/-- What has no code line left has been read past the last one. -/
theorem append_of_no_code {lines : List Text} (hCode : ∀ l ∈ lines, isEmptyLine l = false)
    {cur : Nat} {a v qs rs : List Piece} (hRest : rs.countP isCode = 0) (hNe : lines ≠ [])
    (h : a ++ (piecesFrom cur lines ++ v) = qs ++ rs) :
    ∃ z, qs = a ++ (piecesFrom cur lines ++ z) ∧ v = z ++ rs := by
  obtain ⟨u, l, hLast, hl⟩ := exists_last_line hNe cur
  have hText : (a ++ (u ++ [.line l])) ++ v = qs ++ rs := by
    rw [← h, hLast, List.append_assoc]
  rcases List.append_eq_append_iff.mp hText with ⟨z, hqs, hv⟩ | ⟨z, hu, hrs⟩
  · exact ⟨z, by rw [hqs, hLast, List.append_assoc], hv⟩
  · rcases List.eq_nil_or_concat z with rfl | ⟨z, x, rfl⟩
    · refine ⟨[], ?_, hrs.symm⟩
      rw [List.append_nil] at hu
      rw [← hu, hLast, List.append_nil]
    · exfalso
      rw [List.concat_eq_append, ← List.append_assoc, ← List.append_assoc] at hu
      obtain ⟨-, hx⟩ := List.append_inj' hu rfl
      rw [List.countP_eq_zero] at hRest
      refine hRest (.line l) ?_ ?_
      · rw [hrs, ← List.singleton_inj.mp hx]
        simp
      · rw [isCode, hCode l hl]
        rfl

/-- Two walks that differ in what leads to a line and in what follows the last line, and pass the
same depths: the line is as deep in both. -/
theorem Walk.between {d₀ d₁ d₁' : Nat} {h₀ h₁ h₁' : Bool} {a m m' x v v' : List Piece} {l : Text}
    {L L' : List Nat} (hCode : isEmptyLine l = false)
    (hOld : Walk d₀ h₀ (a ++ (m ++ (.line l :: x ++ v))) L d₁ h₁)
    (hNew : Walk d₀ h₀ (a ++ (m' ++ (.line l :: x ++ v'))) L' d₁' h₁')
    (hm : m.countP isCode = 0) (hm' : m'.countP isCode = 0) (hv : v.countP isCode = 0)
    (hv' : v'.countP isCode = 0) (hPerm : L'.Perm L) :
    ∃ d h e, Walk d h m [] e false ∧ Walk d h m' [] e false := by
  obtain ⟨_, _, d, h, hBefore, hRest, rfl⟩ := hOld.exists_append
  obtain ⟨_, _, e, g, hMove, hBehind, rfl⟩ := hRest.exists_append
  obtain ⟨_, _, _, _, hLines, hLast, rfl⟩ := hBehind.exists_append
  obtain ⟨_, _, _, _, hBefore', hRest', rfl⟩ := hNew.exists_append
  obtain ⟨_, _, e', g', hMove', hBehind', rfl⟩ := hRest'.exists_append
  obtain ⟨_, _, _, _, hLines', hLast', rfl⟩ := hBehind'.exists_append
  obtain ⟨rfl, rfl, rfl⟩ := hBefore.unique hBefore'
  obtain rfl := hLast.no_code hv
  obtain rfl := hLast'.no_code hv'
  obtain rfl := hMove.no_code hm
  obtain rfl := hMove'.no_code hm'
  have hSame := (List.perm_append_left_iff _).mp hPerm
  rw [List.nil_append, List.nil_append, List.append_nil, List.append_nil] at hSame
  obtain rfl : g = false := by cases hLines <;> rfl
  obtain rfl : g' = false := by cases hLines' <;> rfl
  have hPos : 0 < (Piece.line l :: x).countP isCode := by simp [isCode, hCode]
  rw [← hLines.length_eq] at hPos
  obtain rfl := hLines.depth_eq hLines' (List.ne_nil_of_length_pos hPos) hSame
  exact ⟨d, h, e, hMove, hMove'⟩

end Henson.Hwl
