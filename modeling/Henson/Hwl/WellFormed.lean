import Mathlib.Logic.Basic
import Mathlib.Data.List.Basic
import Henson.Library.Peg
import Henson.Hwl.Syntax
import Henson.Hwl.Reading

/-!
# Well-formed token texts

Which token texts are scripts, said without a parser: a sequence of puppet
lines, complete groups and lines with nothing but blanks and a comment. Each
notion relates a text to what is left of it after one such part. Reading
succeeds on a part exactly if the part is well formed.
-/

namespace Henson.Hwl

def isPad (c : Char) : Bool := c = ' ' || c = '\t'

def isLetter (c : Char) : Bool :=
  decide ('a' ≤ c ∧ c ≤ 'z') || (decide ('A' ≤ c ∧ c ≤ 'Z') || decide (c = '_'))

def isNameChar (c : Char) : Bool :=
  isLetter c || (decide ('0' ≤ c ∧ c ≤ '9') || decide (c = '-'))

def isNewline (c : Char) : Bool := c = '\n' || c = '\r'

def isCommentChar (c : Char) : Bool := decide (c ≠ '\x00') && !isNewline c

def isCommandChar (c : Char) : Bool := decide (c ≠ '\x00') && !(isNewline c || decide (c = '#'))

def ValidName : Text → Prop
  | [] => False
  | c :: w => isLetter c = true ∧ ∀ x ∈ w, isNameChar x = true

instance (n : Text) : Decidable (ValidName n) :=
  match n with
  | [] => inferInstanceAs (Decidable False)
  | c :: w =>
    have : Decidable (∀ x ∈ w, isNameChar x = true) := List.decidableBAll _ w
    inferInstanceAs (Decidable (isLetter c = true ∧ ∀ x ∈ w, isNameChar x = true))

def isBlankStart (c : Char) : Bool := isPad c || decide (c = '#')

def Pad (w : Text) : Prop := ∀ c ∈ w, isPad c = true

instance (w : Text) : Decidable (Pad w) := List.decidableBAll (fun c => isPad c = true) w

def StopsAt (p : Char → Bool) (t : Text) : Prop := ∀ c ∈ t.head?, p c = false

inductive Newline : Text → Text → Prop
  | both (t : Text) : Newline ('\n' :: '\r' :: t) t
  | lineFeed (t : Text) : t.head? ≠ some '\r' → Newline ('\n' :: t) t
  | carriageReturn (t : Text) : Newline ('\r' :: t) t

inductive Ending : Text → Text → Prop
  | newline {t t' : Text} : Newline t t' → Ending t t'
  | comment {w t t' : Text} : (∀ c ∈ w, isCommentChar c = true) → Newline t t' →
      Ending ('#' :: (w ++ t)) t'

inductive LineEnd : Text → Text → Prop
  | mk {w t t' : Text} : Pad w → Ending t t' → LineEnd (w ++ t) t'

inductive PuppetLine : PuppetCommand → Text → Text → Prop
  | mk {n w w' c t t' : Text} : ValidName n → Pad w → Pad w' →
      (∀ x ∈ c, isCommandChar x = true) → StopsAt isPad c → Ending t t' →
      PuppetLine { name := n, command := c } (n ++ (w ++ '=' :: (w' ++ (c ++ t)))) t'

def StartsWithToken (t : Text) : Prop := "INDENT".toList <+: t ∨ "DEDENT".toList <+: t

inductive Items : List Statement → Text → Text → Prop
  | nil (t : Text) : Items [] t t
  | blank {ss : List Statement} {t t' t'' : Text} : LineEnd t t' → Items ss t' t'' → Items ss t t''
  | call {ss : List Statement} {w star n t t' t'' : Text} : Pad w → (star = [] ∨ star = ['*']) →
      ValidName n → ¬ StartsWithToken (w ++ (star ++ (n ++ t))) → LineEnd t t' → Items ss t' t'' →
      Items (.mk (star ++ n) [] :: ss) (w ++ (star ++ (n ++ t))) t''
  | ite {ss body : List Statement} {w w' w'' c t t₁ t₂ t₃ t' t'' : Text} :
      Pad w → Pad w' → ValidName c → Pad w'' → LineEnd t ("INDENT".toList ++ t₁) →
      Newline t₁ t₂ → t₂ ≠ "DEDENT".toList ++ t₃ → Items body t₂ ("DEDENT".toList ++ t₃) →
      Newline t₃ t' → Items ss t' t'' →
      Items (.mk c body :: ss) (w ++ ("if".toList ++ (w' ++ (c ++ (w'' ++ ':' :: t))))) t''

/-- From the colon of a header line to the `DEDENT` line, with at least one line between. -/
inductive Block : List Statement → Text → Text → Prop
  | mk {body : List Statement} {t t₁ t₂ t₃ t' : Text} : LineEnd t ("INDENT".toList ++ t₁) →
      Newline t₁ t₂ → t₂ ≠ "DEDENT".toList ++ t₃ → Items body t₂ ("DEDENT".toList ++ t₃) →
      Newline t₃ t' → Block body (':' :: t) t'

inductive Group : ControlFlow → Text → Text → Prop
  | mk {n c w w' w'' t t' : Text} {body : List Statement} : ValidName n → w ≠ [] → Pad w →
      Pad w' → ValidName c → Pad w'' → Block body t t' →
      Group { name := n, control := c, commands := body }
        (n ++ (w ++ ("while".toList ++ (w' ++ (c ++ (w'' ++ t)))))) t'

/-- A whole text, which adds its puppets and groups to a script. -/
inductive Entries : Script → Text → Script → Prop
  | nil (s : Script) : Entries s [] s
  | blank {s s' : Script} {t t' : Text} : LineEnd t t' → Entries s t' s' → Entries s t s'
  | puppet {s s' : Script} {pc : PuppetCommand} {t t' : Text} : PuppetLine pc t t' →
      Entries (s.addPuppet pc) t' s' → Entries s t s'
  | group {s s' : Script} {cf : ControlFlow} {t t' : Text} : Group cf t t' →
      Entries (s.addProcs cf) t' s' → Entries s t s'

def WellFormed (tokens : Text) : Prop := ∃ s, Entries {} tokens s

namespace Reading

open Peg

theorem space_eq : space = satisfy isPad := orElse_satisfy _ _

theorem letter_eq : letter = satisfy isLetter := by
  rw [letter, orElse_satisfy, orElse_satisfy]
  rfl

theorem nameChar_eq : nameChar = satisfy isNameChar := by
  rw [nameChar, letter_eq, number, orElse_satisfy, orElse_satisfy]
  rfl

theorem nl_iff {t t' : Text} : nl t = some t' ↔ Newline t t' := by
  simp only [nl, orElse, Option.or_eq_some_iff, word_eq_some, satisfy_eq_iff]
  constructor
  · rintro (rfl | ⟨hBoth, rfl | ⟨-, rfl⟩⟩)
    · exact .both t'
    · refine .lineFeed t' fun hHead => ?_
      obtain ⟨u, rfl⟩ := List.head?_eq_some_iff.mp hHead
      cases hBoth
    · exact .carriageReturn t'
  · rintro (_ | ⟨_, hHead⟩ | _)
    · exact Or.inl rfl
    · refine Or.inr ⟨?_, Or.inl rfl⟩
      cases t' with
      | nil => rfl
      | cons c u =>
        have hc : '\r' ≠ c := fun h => hHead (h ▸ rfl)
        exact if_neg hc
    · exact Or.inr ⟨rfl, Or.inr ⟨rfl, rfl⟩⟩

theorem nl_eq_none_iff {c : Char} {t : Text} : nl (c :: t) = none ↔ isNewline c = false := by
  constructor
  · intro hNone
    have hNot (t') : ¬ Newline (c :: t) t' := fun h => by
      rw [nl_iff.mpr h] at hNone
      cases hNone
    by_cases hFeed : c = '\n'
    · subst hFeed
      by_cases hHead : t.head? = some '\r'
      · obtain ⟨u, rfl⟩ := List.head?_eq_some_iff.mp hHead
        exact absurd (.both u) (hNot u)
      · exact absurd (.lineFeed t hHead) (hNot t)
    · by_cases hReturn : c = '\r'
      · subst hReturn
        exact absurd (.carriageReturn t) (hNot t)
      · simp [isNewline, hFeed, hReturn]
  · intro hc
    refine Option.eq_none_iff_forall_ne_some.mpr fun t' h => ?_
    cases nl_iff.mp h <;> cases hc

theorem commentChar_eq : commentChar = satisfy isCommentChar :=
  notAhead_satisfy fun c t => by rw [nl_eq_none_iff, Bool.not_eq_true']

theorem cmdChar_eq : cmdChar = satisfy isCommandChar := by
  refine notAhead_satisfy fun c t => ?_
  rw [orElse, Option.or_eq_none_iff, nl_eq_none_iff, Bool.not_eq_true', Bool.or_eq_false_iff]
  simp [satisfy]

end Reading

theorem pad_nil : Pad [] := List.forall_mem_nil _

theorem stopsAt_nil (p : Char → Bool) : StopsAt p [] := fun _ h => by cases h

theorem stopsAt_cons {p : Char → Bool} {c : Char} {t : Text} (h : p c = false) :
    StopsAt p (c :: t) := by
  intro x hx
  obtain rfl := Option.some.inj hx
  exact h

theorem StopsAt.append {p : Char → Bool} {w t : Text} (hw : ∀ c ∈ w, p c = false)
    (ht : StopsAt p t) : StopsAt p (w ++ t) := by
  cases w with
  | nil => exact ht
  | cons c w => exact stopsAt_cons (hw c List.mem_cons_self)

theorem StopsAt.mono {p q : Char → Bool} {t : Text} (h : ∀ c, p c = false → q c = false)
    (ht : StopsAt p t) : StopsAt q t :=
  fun c hc => h c (ht c hc)

theorem isNameChar_of_isPad {c : Char} (h : isPad c = true) : isNameChar c = false := by
  simp only [isPad, Bool.or_eq_true, decide_eq_true_eq] at h
  rcases h with rfl | rfl <;> rfl

theorem isCommandChar_of_isPad {c : Char} (h : isPad c = true) : isCommandChar c = true := by
  simp only [isPad, Bool.or_eq_true, decide_eq_true_eq] at h
  rcases h with rfl | rfl <;> rfl

theorem isCommentChar_of_isLetter {c : Char} (h : isLetter c = true) : isCommentChar c = true := by
  by_cases hc : c = '\x00' ∨ c = '\n' ∨ c = '\r'
  · rcases hc with rfl | rfl | rfl <;> cases h
  · simp only [not_or] at hc
    simp [isCommentChar, isNewline, hc]

theorem isBlankStart_of_isLetter {c : Char} (h : isLetter c = true) : isBlankStart c = false := by
  by_cases hc : c = ' ' ∨ c = '\t' ∨ c = '#'
  · rcases hc with rfl | rfl | rfl <;> cases h
  · simp only [not_or] at hc
    simp [isBlankStart, isPad, hc]

theorem isBlankStart_of_not_isCommentChar {c : Char} (h : isCommentChar c = false) :
    isBlankStart c = false := by
  simp only [isCommentChar, isNewline, Bool.and_eq_false_iff, decide_eq_false_iff_not,
    Decidable.not_not, Bool.not_eq_false', Bool.or_eq_true, decide_eq_true_eq] at h
  rcases h with rfl | rfl | rfl <;> rfl

theorem isCommentChar_of_isCommandChar {c : Char} (h : isCommandChar c = true) :
    isCommentChar c = true := by
  simp only [isCommandChar, isCommentChar, Bool.and_eq_true, Bool.not_eq_true',
    Bool.or_eq_false_iff] at h ⊢
  exact ⟨h.1, h.2.1⟩

theorem Newline.stopsAt {t t' : Text} (h : Newline t t') {p : Char → Bool}
    (hFeed : p '\n' = false) (hReturn : p '\r' = false) : StopsAt p t := by
  cases h with
  | both => exact stopsAt_cons hFeed
  | lineFeed => exact stopsAt_cons hFeed
  | carriageReturn => exact stopsAt_cons hReturn

theorem Ending.stopsAt {t t' : Text} (h : Ending t t') {p : Char → Bool}
    (hFeed : p '\n' = false) (hReturn : p '\r' = false) (hComment : p '#' = false) :
    StopsAt p t := by
  cases h with
  | newline hNewline => exact hNewline.stopsAt hFeed hReturn
  | comment => exact stopsAt_cons hComment

theorem LineEnd.ending {t t' : Text} (h : LineEnd t t') (hStop : StopsAt isCommandChar t) :
    Ending t t' := by
  cases h with
  | mk hw hEnding =>
    rename_i w u
    cases w with
    | nil => exact hEnding
    | cons c w =>
      have hc := isCommandChar_of_isPad (hw c List.mem_cons_self)
      rw [hStop c rfl] at hc
      cases hc

theorem LineEnd.stopsAt_name {t t' : Text} (h : LineEnd t t') : StopsAt isNameChar t := by
  obtain ⟨hPad, hEnding⟩ := h
  exact .append (fun c hc => isNameChar_of_isPad (hPad c hc)) (hEnding.stopsAt rfl rfl rfl)

namespace Reading

open Peg

theorem blanks_append {w : Text} (hw : Pad w) (t : Text) : blanks (w ++ t) = blanks t := by
  induction w with
  | nil => rfl
  | cons c w ih =>
    obtain ⟨hc, hw⟩ := List.forall_mem_cons.mp hw
    have hSpace : orElse space comment (c :: (w ++ t)) = some (w ++ t) := by
      rw [orElse, space_eq, satisfy_cons, if_pos hc]
      rfl
    exact (many_of_some (shrinks_space.orElse shrinks_comment) hSpace).trans (ih hw)

theorem blanks_of_stopsAt {t : Text} (h : StopsAt isBlankStart t) : blanks t = t := by
  refine many_of_none (Option.or_eq_none_iff.mpr ?_)
  cases t with
  | nil => exact ⟨rfl, rfl⟩
  | cons c t =>
    have hc := h c rfl
    simp only [isBlankStart, Bool.or_eq_false_iff, decide_eq_false_iff_not] at hc
    rw [space_eq, satisfy_cons, hc.1]
    refine ⟨rfl, ?_⟩
    rw [comment, andThen, satisfy_cons, decide_eq_false hc.2]
    rfl

theorem blanks_comment {w t : Text} (hw : ∀ c ∈ w, isCommentChar c = true)
    (ht : StopsAt isCommentChar t) : blanks ('#' :: (w ++ t)) = t := by
  have hComment : orElse space comment ('#' :: (w ++ t)) = some t := by
    have hMany : many commentChar (w ++ t) = t := by
      rw [commentChar_eq]
      exact many_satisfy_append hw ht
    exact congrArg some hMany
  apply (many_of_some (shrinks_space.orElse shrinks_comment) hComment).trans
  exact blanks_of_stopsAt (ht.mono fun _ => isBlankStart_of_not_isCommentChar)

theorem blanks_append_cons {w : Text} (hw : Pad w) {c : Char} (hc : isBlankStart c = false)
    (t : Text) : blanks (w ++ c :: t) = c :: t :=
  (blanks_append hw _).trans (blanks_of_stopsAt (stopsAt_cons hc))

theorem blanks_split (t : Text) :
    ∃ w, Pad w ∧ (t = w ++ blanks t ∧ StopsAt isBlankStart (blanks t) ∨
      ∃ cm, t = w ++ '#' :: (cm ++ blanks t) ∧ (∀ c ∈ cm, isCommentChar c = true) ∧
        StopsAt isCommentChar (blanks t)) := by
  induction t with
  | nil =>
    have hNil : blanks [] = [] := blanks_of_stopsAt (stopsAt_nil _)
    rw [hNil]
    exact ⟨[], pad_nil, Or.inl ⟨rfl, stopsAt_nil _⟩⟩
  | cons c t ih =>
    by_cases hPad : isPad c = true
    · have hBlanks : blanks (c :: t) = blanks t :=
        blanks_append (List.forall_mem_singleton.mpr hPad) t
      obtain ⟨w, hw, h⟩ := ih
      refine ⟨c :: w, List.forall_mem_cons.mpr ⟨hPad, hw⟩, ?_⟩
      rw [hBlanks]
      rcases h with ⟨hText, hStop⟩ | ⟨cm, hText, hRest⟩
      · exact Or.inl ⟨congrArg (c :: ·) hText, hStop⟩
      · exact Or.inr ⟨cm, congrArg (c :: ·) hText, hRest⟩
    · refine ⟨[], pad_nil, ?_⟩
      by_cases hHash : c = '#'
      · subst hHash
        obtain ⟨cm, hText, hcm, hStop⟩ := many_satisfy_split isCommentChar t
        have hBlanks : blanks ('#' :: t) = many (satisfy isCommentChar) t := by
          conv_lhs => rw [hText]
          exact blanks_comment hcm hStop
        rw [hBlanks]
        exact Or.inr ⟨cm, congrArg ('#' :: ·) hText, hcm, hStop⟩
      · have hStart : StopsAt isBlankStart (c :: t) :=
          stopsAt_cons (by simp [isBlankStart, hPad, hHash])
        rw [blanks_of_stopsAt hStart]
        exact Or.inl ⟨rfl, hStart⟩

theorem blanks_padded {t t' : Text} (h : blanks t = t') {c : Char} (hHead : t'.head? = some c)
    (hc : isCommentChar c = true) : ∃ w, Pad w ∧ t = w ++ t' := by
  obtain ⟨w, hw, ⟨hText, -⟩ | ⟨cm, -, -, hStop⟩⟩ := blanks_split t
  · exact ⟨w, hw, h ▸ hText⟩
  · rw [h] at hStop
    rw [hStop c hHead] at hc
    cases hc

theorem nl_blanks_of_ending {t t' : Text} (h : Ending t t') : nl (blanks t) = some t' := by
  cases h with
  | newline hNewline =>
    rw [blanks_of_stopsAt (hNewline.stopsAt rfl rfl)]
    exact nl_iff.mpr hNewline
  | comment hw hNewline =>
    rw [blanks_comment hw (hNewline.stopsAt rfl rfl)]
    exact nl_iff.mpr hNewline

theorem lineEnd_iff {t t' : Text} : lineEnd t = some t' ↔ LineEnd t t' := by
  constructor
  · intro h
    have hNewline := nl_iff.mp (lineEnd_eq_some.mp h)
    obtain ⟨w, hw, ⟨hText, -⟩ | ⟨cm, hText, hcm, -⟩⟩ := blanks_split t
    · rw [hText]
      exact .mk hw (.newline hNewline)
    · rw [hText]
      exact .mk hw (.comment hcm hNewline)
  · rintro ⟨hw, hEnding⟩
    rw [lineEnd, blanks_append hw]
    exact nl_blanks_of_ending hEnding

theorem name_iff {t t' n : Text} :
    name t = some (n, t') ↔ ValidName n ∧ t = n ++ t' ∧ StopsAt isNameChar t' := by
  have hText (u) : andThen letter (fun t => some (many nameChar t)) u =
      (satisfy isLetter u).bind fun t => some (many (satisfy isNameChar) t) := by
    rw [← letter_eq, ← nameChar_eq]
    rfl
  constructor
  · intro h
    obtain ⟨hRead, hTake⟩ := consumed_eq_some.mp h
    rw [hText] at hRead
    obtain ⟨u, hLetter, hMany⟩ := Option.bind_eq_some_iff.mp hRead
    obtain ⟨c, hc, rfl⟩ := satisfy_eq_some.mp hLetter
    obtain ⟨w, hSplit, hw, hStop⟩ := many_satisfy_split isNameChar u
    rw [Option.some.inj hMany] at hSplit hStop
    have hLength : (c :: u).length - t'.length = (c :: w).length := by
      rw [hSplit]
      simp only [List.length_cons, List.length_append]
      omega
    obtain rfl : c :: w = n := by
      rw [← hTake, hLength, hSplit]
      exact List.take_left.symm
    exact ⟨⟨hc, hw⟩, congrArg (c :: ·) hSplit, hStop⟩
  · rintro ⟨hValid, rfl, hStop⟩
    apply consumed_append
    cases n with
    | nil => cases hValid
    | cons c w =>
      obtain ⟨hc, hw⟩ := hValid
      rw [hText, List.cons_append, satisfy_cons, if_pos hc]
      exact congrArg some (many_satisfy_append hw hStop)

theorem name_append {n t : Text} (hn : ValidName n) (ht : StopsAt isNameChar t) :
    name (n ++ t) = some (n, t) :=
  name_iff.mpr ⟨hn, rfl, ht⟩

theorem name_eq_none {t : Text} (h : StopsAt isLetter t) : name t = none := by
  refine Option.eq_none_iff_forall_ne_some.mpr fun p hName => ?_
  obtain ⟨n, t'⟩ := p
  obtain ⟨hn, rfl, -⟩ := name_iff.mp hName
  cases n with
  | nil => cases hn
  | cons c n =>
    have hc := hn.1
    rw [h c rfl] at hc
    cases hc

theorem cmdStr_iff {t t' w : Text} :
    cmdStr t = some (w, t') ↔
      t = w ++ t' ∧ (∀ c ∈ w, isCommandChar c = true) ∧ StopsAt isCommandChar t' := by
  rw [cmdStr, cmdChar_eq]
  exact consumed_many_iff

/-- Whether the blanks before a command contain a comment does not matter: the command is empty
then. -/
theorem command_iff {t t' c : Text} :
    (∃ u, cmdStr (blanks t) = some (c, u) ∧ lineEnd u = some t') ↔
      ∃ w u, Pad w ∧ t = w ++ (c ++ u) ∧ (∀ x ∈ c, isCommandChar x = true) ∧ StopsAt isPad c ∧
        Ending u t' := by
  constructor
  · rintro ⟨u, hCmd, hLine⟩
    obtain ⟨hText, hCommand, hStop⟩ := cmdStr_iff.mp hCmd
    obtain ⟨w, hw, hSplit⟩ := blanks_split t
    rw [hText] at hSplit
    rcases hSplit with ⟨hSplit, hStart⟩ | ⟨cm, hSplit, hcm, hStart⟩
    · refine ⟨w, u, hw, hSplit, hCommand, ?_, (lineEnd_iff.mp hLine).ending hStop⟩
      cases c with
      | nil => exact stopsAt_nil _
      | cons x c => exact stopsAt_cons (Bool.or_eq_false_iff.mp (hStart x rfl)).1
    · cases c with
      | nil =>
        rw [List.nil_append] at hStart
        refine ⟨w, _, hw, hSplit, hCommand, stopsAt_nil _, .comment hcm (nl_iff.mp ?_)⟩
        rwa [lineEnd, blanks_of_stopsAt
          (hStart.mono fun _ => isBlankStart_of_not_isCommentChar)] at hLine
      | cons x c =>
        have hComment := isCommentChar_of_isCommandChar (hCommand x List.mem_cons_self)
        rw [hStart x rfl] at hComment
        cases hComment
  · rintro ⟨w, u, hw, rfl, hCommand, hPad, hEnding⟩
    rw [blanks_append hw]
    cases c with
    | nil =>
      cases hEnding with
      | newline hNewline =>
        have hStart : StopsAt isBlankStart u := hNewline.stopsAt rfl rfl
        refine ⟨u, cmdStr_iff.mpr ⟨blanks_of_stopsAt hStart, hCommand, ?_⟩,
          nl_blanks_of_ending (.newline hNewline)⟩
        exact hNewline.stopsAt rfl rfl
      | comment hcm hNewline =>
        have hBlanks := blanks_comment hcm (hNewline.stopsAt rfl rfl)
        refine ⟨_, cmdStr_iff.mpr ⟨hBlanks, hCommand, ?_⟩,
          nl_blanks_of_ending (.newline hNewline)⟩
        exact hNewline.stopsAt rfl rfl
    | cons x c =>
      have hx := hCommand x List.mem_cons_self
      have hStart : isBlankStart x = false := by
        simp only [isCommandChar, Bool.and_eq_true, Bool.not_eq_true', Bool.or_eq_false_iff] at hx
        exact Bool.or_eq_false_iff.mpr ⟨hPad x rfl, hx.2.2⟩
      refine ⟨u, cmdStr_iff.mpr ⟨blanks_of_stopsAt (stopsAt_cons hStart), hCommand, ?_⟩,
        nl_blanks_of_ending hEnding⟩
      exact hEnding.stopsAt rfl rfl rfl

theorem puppet_iff {t t' : Text} {pc : PuppetCommand} :
    puppet t = some (pc, t') ↔ PuppetLine pc t t' := by
  constructor
  · intro h
    obtain ⟨t₁, t₂, t₃, hName, hEq, hCmd, hLine⟩ := puppet_eq_some.mp h
    obtain ⟨hValid, rfl, -⟩ := name_iff.mp hName
    obtain ⟨w, hw, rfl⟩ := blanks_padded hEq rfl rfl
    obtain ⟨w', u, hw', rfl, hCommand, hPad, hEnding⟩ := command_iff.mp ⟨t₃, hCmd, hLine⟩
    exact .mk hValid hw hw' hCommand hPad hEnding
  · rintro ⟨hValid, hw, hw', hCommand, hPad, hEnding⟩
    obtain ⟨u, hCmd, hLine⟩ := command_iff.mpr ⟨_, _, hw', rfl, hCommand, hPad, hEnding⟩
    refine puppet_eq_some.mpr ⟨_, _, u, name_append hValid ?_, blanks_append_cons hw rfl _,
      hCmd, hLine⟩
    exact .append (fun x hx => isNameChar_of_isPad (hw x hx)) (stopsAt_cons rfl)

end Reading

end Henson.Hwl
