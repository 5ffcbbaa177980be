import Henson.Library.ListSplit
import Henson.Hwl.TokenLines

/-!
# Texts with carriage returns

A script whose lines end in a carriage return and a line feed. The pair is no line end of the
grammar: the carriage return is one, and the line feed behind it is an empty line. Between the
parts of a script that does no harm; between the header of a block and its `INDENT` it does, so
that no group is read any more.
-/

namespace Henson.Hwl

def crlf (txt : Text) : Text := txt.flatMap fun c => if c = '\n' then ['\r', '\n'] else [c]

/-- There are only puppet lines and lines with nothing but blanks and a comment between. -/
inductive PlainLines : Text → Text → Prop
  | here (t : Text) : PlainLines t t
  | puppet {pc : PuppetCommand} {t t' t'' : Text} : PuppetLine pc t t' → PlainLines t' t'' →
      PlainLines t t''
  | blank {t t' t'' : Text} : LineEnd t t' → PlainLines t' t'' → PlainLines t t''

def ReachesGroup (tokens : Text) : Prop := ∃ cf t t', PlainLines tokens t ∧ Group cf t t'

theorem Newline.head {t t' : Text} (h : Newline t t') : ∃ c ∈ t.head?, isNewline c = true := by
  cases h with
  | both => exact ⟨'\n', rfl, rfl⟩
  | lineFeed => exact ⟨'\n', rfl, rfl⟩
  | carriageReturn => exact ⟨'\r', rfl, rfl⟩

theorem Newline.unique {t t₁ t₂ : Text} (h₁ : Newline t t₁) (h₂ : Newline t t₂) : t₁ = t₂ :=
  Option.some.inj ((Reading.nl_iff.mpr h₁).symm.trans (Reading.nl_iff.mpr h₂))

def WithinLine (v : Text) : Prop := ∀ c ∈ v, isNewline c = false

/-- The part is one line, and any line end would do for it. -/
def OneLine (R : Text → Text → Prop) : Prop :=
  ∀ t t', R t t' → ∃ v u, t = v ++ u ∧ WithinLine v ∧ Newline u t' ∧
    ∀ y y', Newline y y' → R (v ++ y) y'

theorem OneLine.line {R : Text → Text → Prop} (h : OneLine R) {v u u' t' : Text}
    (hv : WithinLine v) (hu : Newline u u') (hR : R (v ++ u) t') :
    t' = u' ∧ ∀ y y', Newline y y' → R (v ++ y) y' := by
  obtain ⟨v₁, u₁, hText, hv₁, hu₁, hOther⟩ := h _ _ hR
  obtain ⟨rfl, rfl⟩ := ListSplit.append_unique hText hv hv₁ hu.head hu₁.head
  exact ⟨hu₁.unique hu, hOther⟩

theorem withinLine_append {v w : Text} (hv : WithinLine v) (hw : WithinLine w) :
    WithinLine (v ++ w) :=
  fun c hc => (List.mem_append.mp hc).elim (hv c) (hw c)

theorem withinLine_cons {c : Char} {v : Text} (hc : isNewline c = false) (hv : WithinLine v) :
    WithinLine (c :: v) :=
  List.forall_mem_cons.mpr ⟨hc, hv⟩

theorem withinLine_of_all {v : Text} (h : (v.all fun c => !isNewline c) = true) :
    WithinLine v := by
  intro c hc
  simpa using List.all_eq_true.mp h c hc

theorem Pad.withinLine {w : Text} (h : Pad w) : WithinLine w := by
  intro c hc
  have hPad := h c hc
  simp only [isPad, Bool.or_eq_true, decide_eq_true_eq] at hPad
  obtain rfl | rfl := hPad
  · rfl
  · rfl

theorem withinLine_comment {w : Text} (h : ∀ c ∈ w, isCommentChar c = true) : WithinLine w := by
  intro c hc
  have hComment := h c hc
  simp only [isCommentChar, Bool.and_eq_true, Bool.not_eq_true'] at hComment
  exact hComment.2

theorem ValidName.withinLine {n : Text} (h : ValidName n) : WithinLine n := by
  have hLetter : ∀ c, isLetter c = true → isNewline c = false := by
    intro c hc
    exact withinLine_comment (w := [c]) (by simpa using isCommentChar_of_isLetter hc) c (by simp)
  have hName : ∀ c, isNameChar c = true → isNewline c = false := by
    intro c hc
    by_contra hNewline
    rw [Bool.not_eq_false, isNewline, Bool.or_eq_true, decide_eq_true_eq, decide_eq_true_eq]
      at hNewline
    obtain rfl | rfl := hNewline
    · cases hc
    · cases hc
  cases n with
  | nil => cases h
  | cons c n => exact withinLine_cons (hLetter c h.1) fun x hx => hName x (h.2 x hx)

theorem oneLine_ending : OneLine Ending := by
  intro t t' h
  cases h with
  | newline hNewline =>
    exact ⟨[], t, rfl, List.forall_mem_nil _, hNewline, fun _ _ hOther => .newline hOther⟩
  | @comment w u _ hw hNewline =>
    exact ⟨'#' :: w, u, rfl, withinLine_cons rfl (withinLine_comment hw), hNewline,
      fun _ _ hOther => .comment hw hOther⟩

theorem oneLine_lineEnd : OneLine LineEnd := by
  rintro _ t' ⟨hw, hEnding⟩
  obtain ⟨v, u, rfl, hv, hu, hOther⟩ := oneLine_ending _ _ hEnding
  refine ⟨_, u, (List.append_assoc ..).symm, withinLine_append hw.withinLine hv, hu, ?_⟩
  intro y y' hy
  rw [List.append_assoc]
  exact .mk hw (hOther y y' hy)

theorem oneLine_puppet (pc : PuppetCommand) : OneLine (PuppetLine pc) := by
  rintro _ t' ⟨hn, hw, hw', hc, hStop, hEnding⟩
  rename_i n w w' c t
  obtain ⟨v, u, rfl, hv, hu, hOther⟩ := oneLine_ending _ _ hEnding
  refine ⟨n ++ (w ++ '=' :: (w' ++ (c ++ v))), u, by simp, ?_, hu, ?_⟩
  · apply withinLine_append hn.withinLine
    apply withinLine_append hw.withinLine
    apply withinLine_cons rfl
    apply withinLine_append hw'.withinLine
    exact withinLine_append
      (withinLine_comment fun x hx => isCommentChar_of_isCommandChar (hc x hx)) hv
  · intro y y' hy
    have hLine := PuppetLine.mk hn hw hw' hc hStop (hOther y y' hy)
    simpa using hLine

theorem line_cases {v : Text} (hv : WithinLine v) :
    (∃ pc, ∀ y y', Newline y y' → PuppetLine pc (v ++ y) y') ∨
      (∀ y y', Newline y y' → LineEnd (v ++ y) y') ∨
        ∀ y y', Newline y y' →
          (∀ pc t', ¬ PuppetLine pc (v ++ y) t') ∧ ∀ t', ¬ LineEnd (v ++ y) t' := by
  by_cases hPuppet : ∃ pc y y' t', Newline y y' ∧ PuppetLine pc (v ++ y) t'
  · obtain ⟨pc, y, y', t', hy, hLine⟩ := hPuppet
    exact .inl ⟨pc, ((oneLine_puppet pc).line hv hy hLine).2⟩
  · refine .inr ?_
    by_cases hBlank : ∃ y y' t', Newline y y' ∧ LineEnd (v ++ y) t'
    · obtain ⟨y, y', t', hy, hLine⟩ := hBlank
      exact .inl (oneLine_lineEnd.line hv hy hLine).2
    · refine .inr fun y y' hy => ⟨fun pc t' hLine => ?_, fun t' hLine => ?_⟩
      · exact hPuppet ⟨pc, y, y', t', hy, hLine⟩
      · exact hBlank ⟨y, y', t', hy, hLine⟩

/-- The code lines but the last of them may end in a carriage return and a line feed. No line
with a colon that does not is followed by an `INDENT`. -/
inductive Recoded : Text → Text → Prop
  | nil : Recoded [] []
  | same {v x x' : Text} : WithinLine v → (':' ∈ v → ¬ "INDENT".toList <+: x') → Recoded x x' →
      Recoded (v ++ '\n' :: x) (v ++ '\n' :: x')
  | recoded {v x x' : Text} : v ≠ [] → WithinLine v → Recoded x x' →
      Recoded (v ++ '\n' :: x) (v ++ '\r' :: '\n' :: x')

theorem WithinLine.head {v : Text} (hv : WithinLine v) (hNil : v ≠ []) (t : Text) :
    (v ++ t).head? ≠ some '\r' := by
  cases v with
  | nil => exact absurd rfl hNil
  | cons c v =>
    intro hHead
    have hc := hv c List.mem_cons_self
    rw [Option.some.inj hHead] at hc
    cases hc

theorem WithinLine.head_lineFeed {v : Text} (hv : WithinLine v) (t : Text) :
    (v ++ '\n' :: t).head? ≠ some '\r' := by
  by_cases hNil : v = []
  · subst hNil
    intro hHead
    cases hHead
  · exact hv.head hNil _

theorem Recoded.head {t t' : Text} (h : Recoded t t') :
    t.head? ≠ some '\r' ∧ t'.head? ≠ some '\r' := by
  cases h with
  | nil =>
    constructor
    · intro hHead
      cases hHead
    · intro hHead
      cases hHead
  | same hv => exact ⟨hv.head_lineFeed _, hv.head_lineFeed _⟩
  | recoded hNil hv => exact ⟨hv.head_lineFeed _, hv.head hNil _⟩

theorem header_of_group {cf : ControlFlow} {t t' : Text} (h : Group cf t t') :
    ∃ v u t₁, t = v ++ u ∧ WithinLine v ∧ ':' ∈ v ∧ Newline u ("INDENT".toList ++ t₁) := by
  obtain ⟨hn, -, hw, hw', hc, hw'', hBlock⟩ := h
  rename_i n c w w' w'' body t
  obtain ⟨hLine, -⟩ := hBlock
  obtain ⟨v, u, rfl, hv, hu, -⟩ := oneLine_lineEnd _ _ hLine
  refine ⟨n ++ (w ++ ("while".toList ++ (w' ++ (c ++ (w'' ++ ':' :: v))))), u, _, by simp, ?_,
    by simp, hu⟩
  apply withinLine_append hn.withinLine
  apply withinLine_append hw.withinLine
  apply withinLine_append (withinLine_of_all (v := "while".toList) rfl)
  apply withinLine_append hw'.withinLine
  apply withinLine_append hc.withinLine
  apply withinLine_append hw''.withinLine
  exact withinLine_cons rfl hv

theorem Recoded.not_group {t t' t'' : Text} (h : Recoded t t') (cf : ControlFlow) :
    ¬ Group cf t' t'' := by
  intro hGroup
  obtain ⟨v, u, t₁, hText, hv, hColon, hu⟩ := header_of_group hGroup
  cases h with
  | nil =>
    rw [eq_comm, List.append_eq_nil_iff] at hText
    rw [hText.1] at hColon
    cases hColon
  | @same w x x' hw hIndent hRest =>
    obtain ⟨rfl, rfl⟩ := ListSplit.append_unique hText hw hv ⟨'\n', rfl, rfl⟩ hu.head
    have hEnd := hu.unique (.lineFeed x' hRest.head.2)
    exact hIndent hColon ⟨t₁, hEnd⟩
  | @recoded w x x' _ hw _ =>
    obtain ⟨rfl, rfl⟩ := ListSplit.append_unique hText hw hv ⟨'\r', rfl, rfl⟩ hu.head
    have hEnd := hu.unique (.carriageReturn ('\n' :: x'))
    cases hEnd

namespace Reading

open Peg

theorem entry_eq_none {s : Script} {t : Text} (hPuppet : ∀ pc t', ¬ PuppetLine pc t t')
    (hGroup : ∀ cf t', ¬ Group cf t t') (hLine : ∀ t', ¬ LineEnd t t') : entry s t = none := by
  refine Option.eq_none_iff_forall_ne_some.mpr fun p h => ?_
  obtain ⟨s', t'⟩ := p
  obtain ⟨pc, -, hRead⟩ | ⟨cf, -, -, hRead⟩ | ⟨-, -, -, hRead⟩ := entry_eq_some.mp h
  · exact hPuppet pc t' (puppet_iff.mp hRead)
  · exact hGroup cf t' (procs_iff.mp hRead)
  · exact hLine t' (lineEnd_iff.mp hRead)

def addPuppets (s : Script) (pcs : List PuppetCommand) : Script := pcs.foldl Script.addPuppet s

theorem procs_addPuppets (s : Script) (pcs : List PuppetCommand) :
    (addPuppets s pcs).procs = s.procs := by
  induction pcs generalizing s with
  | nil => rfl
  | cons pc pcs ih => exact ih (s.addPuppet pc)

theorem lineEnd_lineFeed {t : Text} (h : t.head? ≠ some '\r') : LineEnd ('\n' :: t) t :=
  .mk pad_nil (.newline (.lineFeed t h))

theorem puppets_of_line {v y y' x x' : Text} {pcs : List PuppetCommand} (hv : WithinLine v)
    (hy : Newline y x) (hy' : Newline y' x') (hGroup : ∀ cf t, ¬ Group cf (v ++ y') t)
    (hNew : ∀ s, (iterate entry s x').1 = addPuppets s pcs)
    (hOld : ¬ ReachesGroup x → ∀ s, (iterate entry s x).1 = addPuppets s pcs) :
    ∃ pcs, (∀ s, (iterate entry s (v ++ y')).1 = addPuppets s pcs) ∧
      (¬ ReachesGroup (v ++ y) → ∀ s, (iterate entry s (v ++ y)).1 = addPuppets s pcs) := by
  obtain ⟨pc, hPuppet⟩ | hBlank | hNeither := line_cases hv
  · refine ⟨pc :: pcs, fun s => ?_, fun hReach s => ?_⟩
    · rw [iterate_of_some shrinks_entry (entry_puppet (hPuppet y' x' hy'))]
      exact hNew (s.addPuppet pc)
    · rw [iterate_of_some shrinks_entry (entry_puppet (hPuppet y x hy))]
      apply hOld
      rintro ⟨cf, t, t', hLines, hFirst⟩
      exact hReach ⟨cf, t, t', .puppet (hPuppet y x hy) hLines, hFirst⟩
  · refine ⟨pcs, fun s => ?_, fun hReach s => ?_⟩
    · rw [iterate_of_some shrinks_entry (entry_blank (hBlank y' x' hy'))]
      exact hNew s
    · rw [iterate_of_some shrinks_entry (entry_blank (hBlank y x hy))]
      apply hOld
      rintro ⟨cf, t, t', hLines, hFirst⟩
      exact hReach ⟨cf, t, t', .blank (hBlank y x hy) hLines, hFirst⟩
  · refine ⟨[], fun s => ?_, fun hReach s => ?_⟩
    · obtain ⟨hPuppet, hLine⟩ := hNeither y' x' hy'
      rw [iterate_of_none (entry_eq_none hPuppet hGroup hLine)]
      rfl
    · obtain ⟨hPuppet, hLine⟩ := hNeither y x hy
      have hNoGroup : ∀ cf t', ¬ Group cf (v ++ y) t' :=
        fun cf t' hFirst => hReach ⟨cf, _, t', .here _, hFirst⟩
      rw [iterate_of_none (entry_eq_none hPuppet hNoGroup hLine)]
      rfl

/-- Both texts give the same puppets, as long as the one without carriage returns gives no group.
The induction goes line by line; the new text never gives a group. -/
theorem puppets_of_recoded {t t' : Text} (h : Recoded t t') :
    ∃ pcs, (∀ s, (iterate entry s t').1 = addPuppets s pcs) ∧
      (¬ ReachesGroup t → ∀ s, (iterate entry s t).1 = addPuppets s pcs) := by
  induction h with
  | nil =>
    have hEnd (s : Script) : (iterate entry s []).1 = addPuppets s [] := by
      rw [iterate_of_none (entry_nil s)]
      rfl
    exact ⟨[], hEnd, fun _ => hEnd⟩
  | @same v x x' hv hIndent hRest ih =>
    obtain ⟨pcs, hNew, hOld⟩ := ih
    have hGroup (cf : ControlFlow) (t : Text) : ¬ Group cf (v ++ '\n' :: x') t :=
      (Recoded.same hv hIndent hRest).not_group cf
    exact puppets_of_line hv (.lineFeed x hRest.head.1) (.lineFeed x' hRest.head.2) hGroup hNew hOld
  | @recoded v x x' hNil hv hRest ih =>
    obtain ⟨pcs, hNew, hOld⟩ := ih
    have hGroup (cf : ControlFlow) (t : Text) : ¬ Group cf (v ++ '\r' :: '\n' :: x') t :=
      (Recoded.recoded hNil hv hRest).not_group cf
    apply puppets_of_line hv (.lineFeed x hRest.head.1) (.carriageReturn ('\n' :: x')) hGroup _ hOld
    -- the line feed behind the carriage return is read as an empty line
    intro s
    rw [iterate_of_some shrinks_entry (entry_blank (lineEnd_lineFeed hRest.head.2))]
    exact hNew s

theorem mem_addProcs (s : Script) (cf : ControlFlow) : cf.name ∈ (s.addProcs cf).procs :=
  Std.ExtTreeMap.mem_insertIfNew_self

theorem mem_of_entry {name : Text} {s s' : Script} {t t' : Text} (h : name ∈ s.procs)
    (hEntry : entry s t = some (s', t')) : name ∈ s'.procs := by
  obtain ⟨pc, rfl, -⟩ | ⟨cf, rfl, -⟩ | ⟨rfl, -⟩ := entry_eq_some.mp hEntry
  · exact h
  · exact Std.ExtTreeMap.mem_insertIfNew.mpr (.inr h)
  · exact h

theorem mem_of_plainLines {cf : ControlFlow} {t t₁ t₂ : Text} (h : PlainLines t t₁)
    (hGroup : Group cf t₁ t₂) (s : Script) : cf.name ∈ (iterate entry s t).1.procs := by
  induction h generalizing s with
  | here t =>
    rw [iterate_of_some shrinks_entry (entry_group hGroup)]
    exact iterate_invariant (I := fun s : Script => cf.name ∈ s.procs)
      (fun _ _ _ _ => mem_of_entry) (mem_addProcs s cf) t₂
  | puppet hLine _ ih =>
    rw [iterate_of_some shrinks_entry (entry_puppet hLine)]
    exact ih hGroup _
  | blank hLine _ ih =>
    rw [iterate_of_some shrinks_entry (entry_blank hLine)]
    exact ih hGroup _

theorem script_eq_iff_of_recoded {t t' : Text} (h : Recoded t t') :
    (script t').1 = (script t).1 ↔ ¬ ReachesGroup t := by
  obtain ⟨pcs, hNew, hOld⟩ := puppets_of_recoded h
  constructor
  · rintro hSame ⟨cf, t₁, t₂, hLines, hGroup⟩
    have hMem : cf.name ∈ (script t).1.procs := mem_of_plainLines hLines hGroup {}
    have hEmpty : (script t').1.procs = ∅ :=
      (congrArg Script.procs (hNew {})).trans (procs_addPuppets {} pcs)
    rw [← hSame, hEmpty] at hMem
    exact Std.ExtTreeMap.not_mem_empty hMem
  · intro hNot
    exact (hNew {}).trans (hOld hNot {}).symm

end Reading

def addReturn (line : Text) : Text := line ++ ['\r']

theorem exists_lines (txt : Text) : ∃ (lines : List Text) (last : Text),
    txt = lines.flatMap (· ++ ['\n']) ++ last ∧ (∀ line ∈ lines, '\n' ∉ line) ∧ '\n' ∉ last := by
  induction txt with
  | nil => exact ⟨[], [], rfl, List.forall_mem_nil _, List.not_mem_nil⟩
  | cons c txt ih =>
    obtain ⟨lines, last, rfl, hLines, hLast⟩ := ih
    by_cases hFeed : c = '\n'
    · subst hFeed
      exact ⟨[] :: lines, last, rfl, List.forall_mem_cons.mpr ⟨List.not_mem_nil, hLines⟩, hLast⟩
    · cases lines with
      | nil =>
        have hNot := List.not_mem_cons_of_ne_of_not_mem (Ne.symm hFeed) hLast
        exact ⟨[], c :: last, rfl, hLines, hNot⟩
      | cons line lines =>
        obtain ⟨hLine, hLines⟩ := List.forall_mem_cons.mp hLines
        refine ⟨(c :: line) :: lines, last, rfl, List.forall_mem_cons.mpr ⟨?_, hLines⟩, hLast⟩
        exact List.not_mem_cons_of_ne_of_not_mem (Ne.symm hFeed) hLine

theorem getlines_lines {lines : List Text} (h : ∀ line ∈ lines, '\n' ∉ line) (t : Text) :
    getlines (lines.flatMap (· ++ ['\n']) ++ t) = lines ++ getlines t := by
  induction lines with
  | nil => rfl
  | cons line lines ih =>
    obtain ⟨hLine, hLines⟩ := List.forall_mem_cons.mp h
    rw [List.flatMap_cons, List.append_assoc, List.append_assoc, List.singleton_append,
      getlines_line hLine, ih hLines, List.cons_append]

theorem crlf_of_notMem {line : Text} (h : '\n' ∉ line) : crlf line = line := by
  induction line with
  | nil => rfl
  | cons c line ih =>
    rw [List.mem_cons, not_or] at h
    rw [crlf, List.flatMap_cons, if_neg (Ne.symm h.1)]
    exact congrArg (c :: ·) (ih h.2)

theorem crlf_append (t t' : Text) : crlf (t ++ t') = crlf t ++ crlf t' := List.flatMap_append

theorem crlf_lines {lines : List Text} (h : ∀ line ∈ lines, '\n' ∉ line) (t : Text) :
    crlf (lines.flatMap (· ++ ['\n']) ++ t) =
      (lines.map addReturn).flatMap (· ++ ['\n']) ++ crlf t := by
  induction lines with
  | nil => rfl
  | cons line lines ih =>
    obtain ⟨hLine, hLines⟩ := List.forall_mem_cons.mp h
    have hEnd : crlf ['\n'] = ['\r', '\n'] := rfl
    rw [List.flatMap_cons, List.append_assoc, crlf_append, crlf_append, crlf_of_notMem hLine, hEnd,
      ih hLines]
    simp [addReturn]

theorem indentation_addReturn {line : Text} (h : isBlank line = false) :
    indentation (addReturn line) = indentation line := by
  have hCode : (line.takeWhile isSpace).length ≠ line.length := of_decide_eq_false h
  rw [indentation, addReturn, List.takeWhile_append, if_neg hCode]
  rfl

theorem isBlank_addReturn (line : Text) : isBlank (addReturn line) = isBlank line := by
  cases hBlank : isBlank line with
  | true =>
    have hAll : (line.takeWhile isSpace).length = line.length := of_decide_eq_true hBlank
    have hReturn : ['\r'].takeWhile isSpace = ['\r'] := rfl
    apply decide_eq_true
    rw [indentation, addReturn, List.takeWhile_append, if_pos hAll, hReturn]
  | false =>
    have hCode : indentation line ≠ line.length := of_decide_eq_false hBlank
    have hLe : indentation line ≤ line.length := (List.takeWhile_prefix _).length_le
    apply decide_eq_false
    rw [indentation_addReturn hBlank, addReturn, List.length_append, List.length_singleton]
    omega

theorem length_getlines_le {t : Text} (h : '\n' ∉ t) : (getlines t).length ≤ 1 := by
  induction t with
  | nil => exact Nat.zero_le 1
  | cons c t ih =>
    rw [List.mem_cons, not_or] at h
    have hRest := ih h.2
    rw [getlines, if_neg (Ne.symm h.1)]
    cases hLines : getlines t with
    | nil => exact Nat.le_refl 1
    | cons line lines =>
      rw [hLines] at hRest
      exact hRest

theorem mem_of_mem_getlines {t line : Text} {c : Char} (hLine : line ∈ getlines t)
    (hc : c ∈ line) : c ∈ t := by
  induction t generalizing line with
  | nil => cases hLine
  | cons d t ih =>
    rw [getlines] at hLine
    split_ifs at hLine with hFeed
    · obtain rfl | hLine := List.mem_cons.mp hLine
      · cases hc
      · exact List.mem_cons_of_mem d (ih hLine hc)
    · cases hLines : getlines t with
      | nil =>
        rw [hLines] at hLine
        obtain rfl := List.mem_singleton.mp hLine
        exact List.mem_cons.mpr (.inl (List.mem_singleton.mp hc))
      | cons first lines =>
        rw [hLines] at hLine ih
        obtain rfl | hLine := List.mem_cons.mp hLine
        · obtain rfl | hc := List.mem_cons.mp hc
          · exact List.mem_cons_self
          · exact List.mem_cons_of_mem d (ih List.mem_cons_self hc)
        · exact List.mem_cons_of_mem d (ih (List.mem_cons_of_mem first hLine) hc)

theorem withinLine_of_mem_codeLines {txt line : Text} (h : '\r' ∉ txt)
    (hLine : line ∈ codeLines txt) : WithinLine line := by
  intro c hc
  have hFeed := lineFeed_notMem_codeLine hLine
  have hText : c ∈ txt := mem_of_mem_getlines (List.mem_filter.mp hLine).1 hc
  have hNotFeed : c ≠ '\n' := fun hSame => hFeed (hSame ▸ hc)
  have hNotReturn : c ≠ '\r' := fun hSame => h (hSame ▸ hText)
  simp [isNewline, hNotFeed, hNotReturn]

theorem exists_codeLines (txt : Text) : ∃ code tail : List Text,
    codeLines txt = code ++ tail ∧ codeLines (crlf txt) = code.map addReturn ++ tail ∧
      tail.length ≤ 1 ∧ ∀ line ∈ code, isBlank line = false := by
  obtain ⟨lines, last, rfl, hLines, hLast⟩ := exists_lines txt
  have hReturns : ∀ line ∈ lines.map addReturn, '\n' ∉ line := by
    intro line hLine
    obtain ⟨line, hMem, rfl⟩ := List.mem_map.mp hLine
    simpa [addReturn] using hLines line hMem
  refine ⟨lines.filter fun line => !isBlank line, codeLines last, ?_, ?_, ?_, ?_⟩
  · rw [codeLines, getlines_lines hLines, List.filter_append, codeLines]
  · rw [codeLines, crlf_lines hLines, getlines_lines hReturns, List.filter_append, List.filter_map,
      crlf_of_notMem hLast, codeLines]
    simp only [Function.comp_def, isBlank_addReturn]
  · exact Nat.le_trans (List.length_filter_le _ _) (length_getlines_le hLast)
  · intro line hLine
    simpa using (List.mem_filter.mp hLine).2

theorem openLevels_addReturn {code : List Text} (h : ∀ line ∈ code, isBlank line = false)
    (tail : List Text) (cur : Nat) :
    openLevels cur (code.map addReturn ++ tail) = openLevels cur (code ++ tail) := by
  induction code generalizing cur with
  | nil => rfl
  | cons line code ih =>
    obtain ⟨hLine, hCode⟩ := List.forall_mem_cons.mp h
    rw [List.map_cons, List.cons_append, List.cons_append, openLevels, openLevels,
      indentation_addReturn hLine, ih hCode]

theorem recoded_turn {ps ps' : List Piece} (h : Recoded (render ps) (render ps'))
    (cur indent : Nat) :
    Recoded (render (turn cur indent ++ ps)) (render (turn cur indent ++ ps')) := by
  have hIndent : WithinLine "INDENT".toList := withinLine_of_all rfl
  have hDedent : WithinLine "DEDENT".toList := withinLine_of_all rfl
  rw [turn]
  split_ifs
  · exact .same hIndent (fun hColon => absurd hColon (by decide)) h
  · exact .same hDedent (fun hColon => absurd hColon (by decide)) h
  · exact h

theorem recoded_dedents (n : Nat) :
    Recoded (render (List.replicate n .dedent)) (render (List.replicate n .dedent)) := by
  induction n with
  | zero => exact .nil
  | succ n ih => exact recoded_turn ih 1 0

theorem not_indent_dedents (n : Nat) : ¬ "INDENT".toList <+: render (List.replicate n .dedent) := by
  cases n with
  | zero =>
    intro hPrefix
    cases List.prefix_nil.mp hPrefix
  | succ n =>
    rintro ⟨t, hText⟩
    cases (List.cons.inj hText).1

theorem recoded_pieces {code tail : List Text} (hCode : ∀ line ∈ code, isBlank line = false)
    (hTail : tail.length ≤ 1) (hWithin : ∀ line ∈ code ++ tail, WithinLine line) (cur n : Nat) :
    Recoded (render (piecesFrom cur (code ++ tail) ++ List.replicate n .dedent))
      (render (piecesFrom cur (code.map addReturn ++ tail) ++ List.replicate n .dedent)) := by
  induction code generalizing cur with
  | nil =>
    cases tail with
    | nil => exact recoded_dedents n
    | cons last rest =>
      obtain rfl : rest = [] := List.eq_nil_of_length_eq_zero (by simpa using hTail)
      rw [List.map_nil, List.nil_append, piecesFrom, piecesFrom, List.append_assoc]
      apply recoded_turn
      rw [List.singleton_append, render_line]
      exact .same (hWithin last (by simp)) (fun _ => not_indent_dedents n) (recoded_dedents n)
  | cons line code ih =>
    obtain ⟨hLine, hCode⟩ := List.forall_mem_cons.mp hCode
    obtain ⟨hHead, hWithin⟩ := List.forall_mem_cons.mp hWithin
    have hNil : line ≠ [] := by
      rintro rfl
      cases hLine
    rw [List.map_cons, List.cons_append, List.cons_append, piecesFrom, piecesFrom,
      indentation_addReturn hLine, List.append_assoc, List.append_assoc]
    apply recoded_turn
    rw [List.cons_append, List.cons_append, render_line, render_line, addReturn, List.append_assoc]
    exact .recoded hNil hHead (ih hCode hWithin (indentation line))

theorem recoded_tokens {txt : Text} (h : '\r' ∉ txt) :
    Recoded (indentToTokens txt) (indentToTokens (crlf txt)) := by
  obtain ⟨code, tail, hLines, hLines', hTail, hCode⟩ := exists_codeLines txt
  have hWithin : ∀ line ∈ code ++ tail, WithinLine line := fun line hLine =>
    withinLine_of_mem_codeLines h (hLines ▸ hLine)
  have hPieces := recoded_pieces hCode hTail hWithin 0 (openLevels 0 (code ++ tail)).toNat
  rw [indentToTokens, indentToTokens, indentPieces_eq, indentPieces_eq, hLines, hLines',
    tokenPieces, tokenPieces, openLevels_addReturn hCode]
  exact hPieces

/-- For every text without carriage returns: with a carriage return in front of each line feed
`main` gets the same script if and only if the puppet lines, blank lines and comments at the
start of the token text do not lead to a complete group. -/
theorem crlf_unchanged_iff {txt : Text} (h : '\r' ∉ txt) (scriptFn : Text) :
    parseScript scriptFn (crlf txt) = parseScript scriptFn txt ↔
      ¬ ReachesGroup (indentToTokens txt) := by
  rw [parseScript_eq_ok, parseScript_eq_ok, Option.some_inj, Except.ok.injEq]
  exact Reading.script_eq_iff_of_recoded (recoded_tokens h)

theorem procs_of_run {content : Text} {b : Bool}
    (h : (runScript (indentToTokens content)).map (fun r => r.2.1.procs.isEmpty) = some b) :
    (Reading.script (indentToTokens content)).1.procs.isEmpty = b := by
  obtain ⟨ps, hRun, -⟩ := runScript_eq (indentToTokens content)
  rw [hRun] at h
  exact Option.some.inj h

theorem crlf_unchanged_iff_run :
    parseScript "s.hwl".toList (crlf "a = b\n# c\n".toList) =
      parseScript "s.hwl".toList "a = b\n# c\n".toList := by
  apply (crlf_unchanged_iff (by decide) _).mpr
  rintro ⟨cf, t, t', hLines, hGroup⟩
  have hEmpty := @procs_of_run "a = b\n# c\n".toList true (by decide +kernel)
  have hMem : cf.name ∈ (Reading.script (indentToTokens "a = b\n# c\n".toList)).1.procs :=
    Reading.mem_of_plainLines hLines hGroup {}
  rw [Std.ExtTreeMap.isEmpty_iff.mp hEmpty] at hMem
  exact Std.ExtTreeMap.not_mem_empty hMem

/-- A group is there with line feeds and not with carriage returns. -/
theorem crlf_loses_group :
    let txt := "g while a:\n  a\n".toList
    '\r' ∉ txt ∧ crlf txt = "g while a:\r\n  a\r\n".toList ∧
      (∃ s, parseScript "s.hwl".toList txt = some (.ok s) ∧ s.procs.isEmpty = false) ∧
      (∃ s, parseScript "s.hwl".toList (crlf txt) = some (.ok s) ∧ s.procs.isEmpty = true) ∧
      parseScript "s.hwl".toList (crlf txt) ≠ parseScript "s.hwl".toList txt := by
  intro txt
  have hOld := @procs_of_run txt false (by decide +kernel)
  have hNew := @procs_of_run (crlf txt) true (by decide +kernel)
  refine ⟨by decide, by decide, ⟨_, parseScript_eq_ok _ _, hOld⟩, ⟨_, parseScript_eq_ok _ _, hNew⟩,
    fun hSame => ?_⟩
  rw [parseScript_eq_ok, parseScript_eq_ok, Option.some_inj, Except.ok.injEq] at hSame
  rw [hSame, hOld] at hNew
  cases hNew

end Henson.Hwl
