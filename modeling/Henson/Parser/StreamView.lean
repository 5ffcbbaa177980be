import Henson.Parser.Position

/-!
# Reading late changes nothing

A parser gets from the state that reads a stream the answers that it gets from a state
with the whole text. So the combinators may be read on texts. And the error that the
state keeps is the one furthest in the text, with all that was expected there.
-/

namespace Henson.Parser

open TransitionSystem

variable {Value : Type}

def StreamMemo.view (m : StreamMemo Value) : Memo Value :=
  { success := m.success, stop := m.stop.index, result := m.result }

/-- The whole text, with the cursor and the table of the state. -/
def Stream.view (s : Stream Value) : State Value where
  text := s.str ++ s.unread
  pos := s.pos.index
  memoTable p key := ((s.memoTable[p]?).bind (· key)).map StreamMemo.view

namespace Stream

variable {s s' : Stream Value} {text : List Char}

theorem Tracks.view_text (hs : s.Tracks text) : s.view.text = text := hs.text

theorem Tracks.current (hs : s.Tracks text) : s.current = s.view.current := by
  rw [Stream.current, State.current, hs.off, Nat.sub_zero]
  change s.str.getD s.pos.index _ = (s.str ++ s.unread).getD s.pos.index _
  rcases Nat.lt_or_ge s.pos.index s.str.length with hLt | hEnd
  · rw [List.getD_append _ _ _ _ hLt]
  · rw [hs.pos.ahead (Nat.le_antisymm hs.pos.le hEnd), List.append_nil]

theorem Moves.view {i : Nat} (hs : s.Tracks text) (h : Moves text s s' i) :
    s'.view = s.view.setPosn (min i text.length) := by
  simp only [Stream.view, State.setPosn, h.index, h.memoTable, h.tracks.text, hs.text]

theorem Moves.view_advance {n : Nat} (hs : s.Tracks text)
    (h : Moves text s s' (s.pos.index + n)) : s'.view = s.view.advance n := by
  rw [h.view hs, State.advance, hs.view_text]
  rfl

theorem Reads.view {r : List Char} (h : Reads s s' r) : s'.view = s.view := by
  simp only [Stream.view, h.str, h.unread, h.pos, h.memoTable, List.append_assoc]

theorem Tracks.matchesChar (hs : s.Tracks text) (c : Char) :
    Combinator.literal c () s.view = some ((s.matchesChar c).1, (), (s.matchesChar c).2.view) := by
  rw [Combinator.literal, ← hs.current, Stream.matchesChar]
  split
  · rw [hs.next.view_advance hs]
  · rfl

theorem Tracks.matchesAny (hs : s.Tracks text) :
    Combinator.any () s.view = some (s.matchesAny.1, (), s.matchesAny.2.view) := by
  rw [Combinator.any, ← hs.current, Stream.matchesAny]
  split
  · rfl
  · rw [hs.next.view_advance hs]

theorem Tracks.matchesIn (hs : s.Tracks text) (first last : Char) :
    Combinator.between first last () s.view =
      some ((s.matchesIn first last).1, (), (s.matchesIn first last).2.view) := by
  rw [Combinator.between, ← hs.current, Stream.matchesIn]
  split
  · rfl
  · rw [hs.next.view_advance hs]

/-- A call that goes on with the same text, and forgets no position. -/
structure Keeps (text : List Char) (s s' : Stream Value) : Prop where
  tracks : s'.Tracks text
  seen : ∀ p, s.Seen p → s'.Seen p
  err : s'.err = s.err

theorem Moves.keeps {i : Nat} (h : Moves text s s' i) : Keeps text s s' :=
  ⟨h.tracks, h.seen, h.err⟩

theorem Reads.keeps {r : List Char} (hs : s.Tracks text) (h : Reads s s' r) : Keeps text s s' :=
  ⟨h.tracks hs, fun _ => h.seen, h.err⟩

theorem Keeps.refl (hs : s.Tracks text) : Keeps text s s := ⟨hs, fun _ h => h, rfl⟩

theorem Tracks.matchesString (hs : s.Tracks text) (w : List Char) :
    ∃ ok s', s.matchesString w = .ok (ok, s') ∧ Keeps text s s' ∧
      Combinator.literalString w () s.view = some (ok, (), s'.view) := by
  obtain ⟨t, r, hString, hReads⟩ := hs.string s.pos w.length
  have ht := hReads.tracks hs
  have hView : s.view.string s.view.pos w.length = (text.drop s.pos.index).take w.length := by
    rw [State.string, hs.view_text]
    rfl
  rw [Combinator.literalString, hView, Stream.matchesString, hString]
  by_cases hMatch : (text.drop s.pos.index).take w.length = w
  · have hMoves : Moves text s (t.skip w.length) (s.pos.index + w.length) :=
      .of_reads hReads (ht.skip w.length) (by rw [hReads.pos])
    refine ⟨true, t.skip w.length, ?_, hMoves.keeps, ?_⟩
    · change Except.ok (if _ then _ else _) = _
      rw [if_pos hMatch]
    · rw [if_pos hMatch, hMoves.view_advance hs]
  · refine ⟨false, t, ?_, hReads.keeps hs, ?_⟩
    · change Except.ok (if _ then _ else _) = _
      rw [if_neg hMatch]
    · rw [if_neg hMatch, hReads.view]

theorem Tracks.lookup (hs : s.Tracks text) (key : Nat) :
    (s.memo key).map StreamMemo.view = s.view.memo key ∧
      ∀ m, s.memo key = some m → s.Seen m.stop := by
  have hOff : s.pos.index - s.off.index = s.pos.index := by
    rw [hs.off, Nat.sub_zero]
  refine ⟨by rw [Stream.memo, hOff]; rfl, fun m hm => ?_⟩
  rw [Stream.memo, hOff] at hm
  obtain ⟨row, hRow, hKey⟩ := Option.bind_eq_some_iff.mp hm
  exact hs.memo row (List.mem_of_getElem? hRow) key m hKey

theorem Tracks.setMemo (hs : s.Tracks text) (p : Posn) (key : Nat) (m : StreamMemo Value)
    (hm : s.Seen m.stop) : (s.setMemo p key m).1 = true ∧ Keeps text s (s.setMemo p key m).2 ∧
      (s.setMemo p key m).2.view = s.view.setMemo p.index key m.view := by
  have hNotForgotten : ¬ p.index < s.off.index := by
    rw [hs.off]
    exact Nat.not_lt_zero _
  have hOff : p.index - s.off.index = p.index := by
    rw [hs.off, Nat.sub_zero]
  simp only [Stream.setMemo, hNotForgotten, if_false, hOff]
  generalize hTable : s.memoTable ++ List.replicate (p.index + 1 - s.memoTable.length)
    (fun _ => none) = table
  have hOld (i : Nat) (key' : Nat) :
      (table[i]?).bind (· key') = (s.memoTable[i]?).bind (· key') := by
    rw [← hTable, List.getElem?_append]
    split
    · rfl
    · next hOutside =>
      rw [List.getElem?_eq_none (Nat.le_of_not_lt hOutside), List.getElem?_replicate]
      split <;> rfl
  have hLength : p.index < table.length := by
    rw [← hTable, List.length_append, List.length_replicate]
    omega
  have hRow : table[p.index]? = some table[p.index] := List.getElem?_eq_getElem hLength
  have hNew (i : Nat) (key' : Nat) :
      ((table.modify p.index fun row => Function.update row key (some m))[i]?).bind (· key') =
        if i = p.index ∧ key' = key then some m else (s.memoTable[i]?).bind (· key') := by
    rw [← hOld, List.getElem?_modify]
    by_cases hi : p.index = i
    · subst hi
      rw [hRow]
      by_cases hKey : key' = key <;> simp [hKey]
    · have hi' : ¬ (i = p.index ∧ key' = key) := fun h => hi h.1.symm
      rw [if_neg hi']
      simp [hi]
  refine ⟨trivial, ⟨?_, fun _ h => h.congr rfl rfl, rfl⟩, ?_⟩
  · refine hs.congr rfl rfl rfl rfl hs.pos (fun row hMem key' m' hm' => ?_) hs.err
    obtain ⟨i, hi⟩ := List.mem_iff_getElem?.mp hMem
    have hEntry := hNew i key'
    rw [hi, Option.bind_some, hm'] at hEntry
    split at hEntry
    · rw [Option.some.inj hEntry]
      exact hm
    · obtain ⟨row', hRow', hKey'⟩ := Option.bind_eq_some_iff.mp hEntry.symm
      exact hs.memo row' (List.mem_of_getElem? hRow') key' m' hKey'
  · simp only [Stream.view, State.setMemo, hNew]
    congr 1
    funext i key'
    split <;> rfl

theorem Tracks.withErr (hs : s.Tracks text) (e : ParseError) (he : s.Seen e.pos) :
    ({ s with err := s.err.merge e } : Stream Value).Tracks text := by
  refine hs.congr rfl rfl rfl rfl hs.pos hs.memo ?_
  change s.Seen (s.err.merge e).pos
  rw [ParseError.merge]
  split
  · exact hs.err
  · split
    · exact he
    · exact hs.err

end Stream

/-- What `expect`, `message` and `fail` record. -/
inductive Complaint where
  | expected (w : List Char)
  | message (w : List Char)
  | unexplained

def Complaint.error (pos : Posn) : Complaint → ParseError
  | .expected w => { pos, expected := {w} }
  | .message w => { pos, messages := {w} }
  | .unexplained => { pos }

def Call.complaint : Call Value → Option Complaint
  | .expect w => some (.expected w)
  | .message w => some (.message w)
  | .fail => some .unexplained
  | _ => none

def recordComplaint (p : Stream Value × (Nat → Posn)) (a : Call Value)
    (history : List (Nat × Complaint)) : List (Nat × Complaint) :=
  match a.complaint with
  | some c => (p.1.pos.index, c) :: history
  | none => history

section Machines

variable {text : List Char}

/-- The state tracks the text, and the variables of the parser hold positions that it has shown. -/
structure Holds (text : List Char) (p : Stream Value × (Nat → Posn)) : Prop where
  tracks : p.1.Tracks text
  seen : ∀ x, p.1.Seen (p.2 x)

def view (p : Stream Value × (Nat → Posn)) : State Value × (Nat → Nat) :=
  (p.1.view, fun x => (p.2 x).index)

variable {p p' : Stream Value × (Nat → Posn)} {a : Call Value}

theorem Holds.keeps {s' : Stream Value} (h : Holds text p) (hKeeps : p.1.Keeps text s') :
    Holds text (s', p.2) :=
  ⟨hKeeps.tracks, fun x => hKeeps.seen _ (h.seen x)⟩

theorem Holds.update (h : Holds text p) (x : Nat) {q : Posn} (hq : p.1.Seen q) :
    Holds text (p.1, Function.update p.2 x q) := by
  refine ⟨h.tracks, fun y => ?_⟩
  change p.1.Seen (Function.update p.2 x q y)
  by_cases hy : y = x
  · rw [hy, Function.update_self]
    exact hq
  · rw [Function.update_of_ne hy]
    exact h.seen y

theorem view_update (p : Stream Value × (Nat → Posn)) (x : Nat) (q : Posn) :
    view (p.1, Function.update p.2 x q) = (p.1.view, Function.update (view p).2 x q.index) := by
  refine Prod.ext rfl (funext fun y => ?_)
  change (Function.update p.2 x q y).index = Function.update (view p).2 x q.index y
  by_cases hy : y = x
  · rw [hy, Function.update_self, Function.update_self]
  · rw [Function.update_of_ne hy, Function.update_of_ne hy]
    rfl

theorem answers_eq_some {α S : Type} [DecidableEq α] {x : α × S} {answer : α} {s : S} :
    answers x answer = some s ↔ x.1 = answer ∧ x.2 = s := by
  rw [answers]
  split <;> simp [*]

theorem map_answers {α S T : Type} [DecidableEq α] (x : α × S) (answer : α) (f : S → T) :
    (answers x answer).map f = answers (x.1, f x.2) answer := by
  unfold answers
  split <;> rfl

/-- The state after a call goes on tracking the text, and its error is merged with the complaint. -/
structure Goes (text : List Char) (p : Stream Value × (Nat → Posn)) (a : Call Value)
    (p' : Stream Value × (Nat → Posn)) : Prop where
  holds : Holds text p'
  err : p'.1.err = (a.complaint.elim p.1.err fun c => p.1.err.merge (c.error p.1.pos))

theorem Goes.stays {p p' : Stream Value × (Nat → Posn)} {a : Call Value}
    (h : Holds text p' ∧ p'.1.err = p.1.err) (hNone : a.complaint = none := by rfl) :
    Goes text p a p' :=
  ⟨h.1, by rw [hNone, h.2]; rfl⟩

theorem Holds.complain (h : Holds text p) (c : Complaint) :
    Holds text ({ p.1 with err := p.1.err.merge (c.error p.1.pos) }, p.2) := by
  have hPos : (c.error p.1.pos).pos = p.1.pos := by
    cases c <;> rfl
  exact ⟨h.tracks.withErr _ (by rw [hPos]; exact h.tracks.pos), fun x => (h.seen x).congr rfl rfl⟩

theorem Holds.answer {s : Stream Value} {xs : Nat → Posn} (h : Holds text (s, xs))
    {r : Bool × Stream Value} (hKeeps : s.Keeps text r.2) (ok : Bool) :
    ((answers r ok).map (·, xs)).map view = answers (r.1, (r.2.view, (view (s, xs)).2)) ok ∧
      ∀ p', (answers r ok).map (·, xs) = some p' → Holds text p' ∧ p'.1.err = s.err := by
  constructor
  · rw [map_answers, map_answers]
    rfl
  · intro p' hp'
    obtain ⟨s', hs', rfl⟩ := Option.map_eq_some_iff.mp hp'
    obtain ⟨-, rfl⟩ := answers_eq_some.mp hs'
    exact ⟨h.keeps hKeeps, hKeeps.err⟩

theorem Holds.look {α : Type} [DecidableEq α] {q : Stream Value × (Nat → Posn)}
    (hq : Holds text q) (x answer : α) :
    (answers (x, q) answer).map view = answers (x, view q) answer ∧
      ∀ p', answers (x, q) answer = some p' → Holds text p' ∧ p'.1.err = q.1.err := by
  refine ⟨map_answers _ _ _, fun p' hp' => ?_⟩
  obtain ⟨-, rfl⟩ := answers_eq_some.mp hp'
  exact ⟨hq, rfl⟩

/-- One call: the same answers, and the state goes on tracking the text. -/
theorem Holds.step [DecidableEq Value] (h : Holds text p) (a : Call Value) :
    (Stream.step p a).map view = State.step (view p) a ∧
      ∀ p', Stream.step p a = some p' → Goes text p a p' := by
  obtain ⟨s, xs⟩ := p
  have hs := h.tracks
  cases a with
  | current c =>
    obtain ⟨hView, hHolds⟩ := h.look s.current c
    exact ⟨hView.trans (by rw [hs.current]; rfl), fun p' hp' => .stays (hHolds p' hp')⟩
  | matchesChar c ok =>
    have hKeeps : s.Keeps text (s.matchesChar c).2 := by
      rw [Stream.matchesChar]
      split
      · exact hs.next.keeps
      · exact .refl hs
    obtain ⟨hView, hHolds⟩ := h.answer hKeeps ok
    refine ⟨hView.trans ?_, fun p' hp' => .stays (hHolds p' hp')⟩
    simp only [State.step, view, hs.matchesChar c]
    rfl
  | matchesString w ok =>
    obtain ⟨ok', s', hMatch, hKeeps, hCombinator⟩ := hs.matchesString w
    obtain ⟨hView, hHolds⟩ := h.answer (r := (ok', s')) hKeeps ok
    simp only [Stream.step, hMatch]
    refine ⟨hView.trans ?_, fun p' hp' => .stays (hHolds p' hp')⟩
    simp only [State.step, view, hCombinator]
    rfl
  | matchesAny ok =>
    have hKeeps : s.Keeps text s.matchesAny.2 := by
      rw [Stream.matchesAny]
      split
      · exact .refl hs
      · exact hs.next.keeps
    obtain ⟨hView, hHolds⟩ := h.answer hKeeps ok
    refine ⟨hView.trans ?_, fun p' hp' => .stays (hHolds p' hp')⟩
    simp only [State.step, view, hs.matchesAny]
    rfl
  | matchesIn first last ok =>
    have hKeeps : s.Keeps text (s.matchesIn first last).2 := by
      rw [Stream.matchesIn]
      split
      · exact .refl hs
      · exact hs.next.keeps
    obtain ⟨hView, hHolds⟩ := h.answer hKeeps ok
    refine ⟨hView.trans ?_, fun p' hp' => .stays (hHolds p' hp')⟩
    simp only [State.step, view, hs.matchesIn first last]
    rfl
  | posn x index =>
    obtain ⟨hView, hHolds⟩ := (h.update x hs.pos).look s.pos.index index
    rw [view_update] at hView
    exact ⟨hView, fun p' hp' => .stays (hHolds p' hp')⟩
  | setPosn x =>
    have hNotForgotten : ¬ (xs x).index < s.off.index := by
      rw [hs.off]
      exact Nat.not_lt_zero _
    simp only [Stream.step, Stream.setPosn, hNotForgotten, if_false]
    refine ⟨rfl, ?_⟩
    rintro p' ⟨⟩
    exact ⟨h.keeps ⟨hs.withPos (h.seen x), fun _ hq => hq.congr rfl rfl, rfl⟩, rfl⟩
  | string x n w =>
    obtain ⟨t, r, hString, hReads⟩ := hs.string (xs x) n
    have hText : (view (s, xs)).1.string ((view (s, xs)).2 x) n =
        (text.drop (xs x).index).take n := by
      rw [State.string]
      change (List.drop _ s.view.text).take n = _
      rw [hs.view_text]
      rfl
    simp only [Stream.step, hString, State.step, hText]
    constructor
    · rw [map_answers, map_answers, view, view, hReads.view]
    · intro p' hp'
      obtain ⟨s', hs', rfl⟩ := Option.map_eq_some_iff.mp hp'
      obtain ⟨-, rfl⟩ := answers_eq_some.mp hs'
      exact ⟨h.keeps (hReads.keeps hs), hReads.err⟩
  | memo key x found =>
    obtain ⟨hLookup, hSeen⟩ := hs.lookup key
    change (_ : Option _) = (view (s, xs)).1.memo key at hLookup
    simp only [Stream.step, State.step, ← hLookup]
    cases hMemo : s.memo key with
    | none =>
      obtain ⟨hView, hHolds⟩ := h.look none found
      exact ⟨hView, fun p' hp' => .stays (hHolds p' hp')⟩
    | some m =>
      obtain ⟨hView, hHolds⟩ := (h.update x (hSeen m hMemo)).look
        (some (m.success, m.stop.index, m.result)) found
      rw [view_update] at hView
      exact ⟨hView, fun p' hp' => .stays (hHolds p' hp')⟩
  | setMemo x key success stop result =>
    obtain ⟨hDone, hKeeps, hView⟩ := hs.setMemo (xs x) key { success, stop := xs stop, result }
      (h.seen stop)
    simp only [Stream.step, State.step, answers, hDone, if_true, Option.map_some]
    refine ⟨by rw [view, hView]; rfl, ?_⟩
    rintro p' ⟨⟩
    exact .stays ⟨h.keeps hKeeps, hKeeps.err⟩
  | expect w =>
    refine ⟨rfl, ?_⟩
    rintro p' ⟨⟩
    exact ⟨h.complain (.expected w), rfl⟩
  | message w =>
    refine ⟨rfl, ?_⟩
    rintro p' ⟨⟩
    exact ⟨h.complain (.message w), rfl⟩
  | fail =>
    refine ⟨rfl, ?_⟩
    rintro p' ⟨⟩
    exact ⟨h.complain .unexplained, rfl⟩

variable [DecidableEq Value]

theorem holds_of_reachable {p : Stream Value × (Nat → Posn)}
    (h : (streamMachine text).Reachable p) : Holds text p := by
  refine h.invariant ⟨Stream.tracks_ofText text, fun _ => ?_⟩ fun p a p' hp hStep =>
    ((hp.step a).2 p' hStep).holds
  exact (Stream.tracks_ofText text).seen_default

theorem stream_mirrors_text (text : List Char) :
    (streamMachine text : Machine (Stream Value × (Nat → Posn)) (Call Value)).Mirrors
      (stateMachine text) view where
  initial := by
    have hs : (Stream.ofText text : Stream Value).Tracks text := Stream.tracks_ofText text
    have hTable : (Stream.ofText text : Stream Value).memoTable = [] := by
      cases text <;> rfl
    have hPos : (Stream.ofText text : Stream Value).pos = {} := by
      cases text <;> rfl
    refine Prod.ext ?_ rfl
    change (Stream.ofText text).view = _
    simp only [Stream.view, hs.text, hTable, hPos]
    rfl
  step p a hReach := ((holds_of_reachable hReach).step a).1

/-- With every parser, the state that reads the stream gives the answers that the whole text gives,
and throws nothing. -/
theorem stream_run_eq (text : List Char) (calls : List (Call Value)) :
    ((streamMachine text).run calls (streamMachine text).initial).map view =
      (stateMachine text).run calls (stateMachine text).initial := by
  rw [(stream_mirrors_text text).run .initial, (stream_mirrors_text text).initial]

/-- A position with the line and the column of its place, or the place that `operator ++` gives
behind a newline at the end. -/
def Placed (text : List Char) (p : Posn) : Prop :=
  p = posnAt (text.take p.index) ∨ ∃ w, text = w ++ ['\n'] ∧ p = pastEnd w

omit [DecidableEq Value] in
theorem Stream.Seen.placed {s : Stream Value} (hs : s.Tracks text) {q : Posn} (h : s.Seen q) :
    Placed text q := by
  rcases h.located with hAt | ⟨hNil, w, c, hStr, hPast⟩
  · left
    rwa [← hs.text, List.take_append_of_le_length h.le]
  · have hText : text = w ++ [c] := by
      rw [← hs.text, hNil, List.append_nil, hStr]
    by_cases hc : c = '\n'
    · exact .inr ⟨w, hc ▸ hText, hPast⟩
    · left
      have hAfter : posnAt (w ++ [c]) = pastEnd w := by
        rw [posnAt_concat, Posn.after, if_neg hc, posnAt_index]
        rfl
      rw [hText, List.take_of_length_le, hAfter, hPast]
      rw [hPast, List.length_append]
      exact Nat.le_refl _

/-- In every state of every parser: the cursor, the positions that the parser keeps, and the place
of the error. -/
theorem placed_of_reachable {p : Stream Value × (Nat → Posn)}
    (h : (streamMachine text).Reachable p) :
    Placed text p.1.pos ∧ (∀ x, Placed text (p.2 x)) ∧
      (∀ row ∈ p.1.memoTable, ∀ key m, row key = some m → Placed text m.stop) ∧
      Placed text p.1.err.pos := by
  obtain ⟨hs, hSeen⟩ := holds_of_reachable h
  exact ⟨hs.pos.placed hs, fun x => (hSeen x).placed hs,
    fun row hRow key m hm => (hs.memo row hRow key m hm).placed hs, hs.err.placed hs⟩

def sampleCalls : List (Call Nat) :=
  [.expect ['x'], .matchesChar '\n' true, .expect ['y'], .message ['z'], .fail]

def sampleParse : (Stream Nat × (Nat → Posn)) × List (Nat × Complaint) :=
  let M := (streamMachine ['\n', 'b']).withHistory [] recordComplaint
  (M.run sampleCalls M.initial).getD M.initial

theorem sampleParse_reachable :
    ((streamMachine ['\n', 'b']).withHistory [] recordComplaint).Reachable sampleParse := by
  rw [sampleParse]
  cases hRun : ((streamMachine ['\n', 'b']).withHistory [] recordComplaint).run sampleCalls
    ((streamMachine ['\n', 'b']).withHistory [] recordComplaint).initial with
  | none => exact .initial
  | some p => exact Machine.reachable_of_run _ .initial hRun

theorem placed_of_reachable_sample : Placed ['\n', 'b'] ⟨1, 1, 0⟩ :=
  (placed_of_reachable sampleParse_reachable.of_withHistory).1

example : ((Stream.ofText ['\n'] : Stream Nat).next).pos = ⟨1, 0, 1⟩ ∧
    ((Stream.ofText ['\n'] : Stream Nat).skip 1).pos = ⟨1, 1, 0⟩ := by decide

end Machines

section Errors

/-- The error is at the furthest of the places, and has what was complained of there. -/
structure Furthest (err : ParseError) (history : List (Nat × Complaint)) : Prop where
  le : ∀ r ∈ history, r.1 ≤ err.pos.index
  reached : history ≠ [] → ∃ r ∈ history, r.1 = err.pos.index
  start : history = [] → err.pos.index = 0
  expected : ∀ w, w ∈ err.expected ↔ (err.pos.index, Complaint.expected w) ∈ history
  messages : ∀ w, w ∈ err.messages ↔ (err.pos.index, Complaint.message w) ∈ history

theorem Complaint.mem_expected {c : Complaint} {pos : Posn} {w : List Char} :
    w ∈ (c.error pos).expected ↔ c = .expected w := by
  cases c <;> simp [error, eq_comm]

theorem Complaint.mem_messages {c : Complaint} {pos : Posn} {w : List Char} :
    w ∈ (c.error pos).messages ↔ c = .message w := by
  cases c <;> simp [error, eq_comm]

theorem Furthest.merge {err : ParseError} {history : List (Nat × Complaint)}
    (h : Furthest err history) (pos : Posn) (c : Complaint) :
    Furthest (err.merge (c.error pos)) ((pos.index, c) :: history) := by
  have hPos : (c.error pos).pos = pos := by
    cases c <;> rfl
  rw [ParseError.merge, hPos]
  split
  · -- a complaint before the error
    next hBefore =>
    have hNe : err.pos.index ≠ pos.index := Nat.ne_of_gt hBefore
    refine ⟨?_, fun _ => ?_, nofun, fun w => ?_, fun w => ?_⟩
    · rintro r (_ | ⟨_, hr⟩)
      · exact Nat.le_of_lt hBefore
      · exact h.le r hr
    · have hSome : history ≠ [] := fun hNil => by
        rw [h.start hNil] at hBefore
        exact Nat.not_lt_zero _ hBefore
      obtain ⟨r, hr, hIndex⟩ := h.reached hSome
      exact ⟨r, List.mem_cons_of_mem _ hr, hIndex⟩
    · simp [h.expected, hNe]
    · simp [h.messages, hNe]
  split
  · -- a complaint behind it
    next hBehind =>
    have hNew (c' : Complaint) : (pos.index, c') ∉ history := fun hr =>
      Nat.not_le_of_gt hBehind (h.le _ hr)
    refine ⟨?_, fun _ => ⟨(pos.index, c), List.mem_cons_self, by rw [hPos]⟩, nofun, fun w => ?_,
      fun w => ?_⟩
    · rw [hPos]
      rintro r (_ | ⟨_, hr⟩)
      · exact Nat.le_refl _
      · exact Nat.le_of_lt (Nat.lt_of_le_of_lt (h.le r hr) hBehind)
    · rw [Complaint.mem_expected, hPos]
      simp [hNew, eq_comm]
    · rw [Complaint.mem_messages, hPos]
      simp [hNew, eq_comm]
  · -- a complaint at the same place
    have hEq : err.pos.index = pos.index := by omega
    refine ⟨?_, fun _ => ⟨_, List.mem_cons_self, hEq.symm⟩, nofun, fun w => ?_, fun w => ?_⟩
    · rintro r (_ | ⟨_, hr⟩)
      · exact Nat.le_of_eq hEq.symm
      · exact h.le r hr
    · simp [Complaint.mem_expected, h.expected, hEq, or_comm, eq_comm]
    · simp [Complaint.mem_messages, h.messages, hEq, or_comm, eq_comm]

/-- The error is the furthest complaint, on every run of every parser. -/
theorem err_furthest [DecidableEq Value] {text : List Char}
    {q : (Stream Value × (Nat → Posn)) × List (Nat × Complaint)}
    (h : ((streamMachine text).withHistory [] recordComplaint).Reachable q) :
    Furthest q.1.1.err q.2 := by
  refine h.invariant_of_reachable (I := fun q => Furthest q.1.1.err q.2) ?_ ?_
  · have hErr : (Stream.ofText text : Stream Value).err = {} := by
      cases text <;> rfl
    change Furthest (Stream.ofText text).err []
    rw [hErr]
    exact ⟨nofun, fun h => absurd rfl h, fun _ => rfl, fun w => by simp, fun w => by simp⟩
  · intro q a q' hReach hFurthest hStep
    obtain ⟨hCall, hRecord⟩ := Machine.withHistory_step_eq_some.mp hStep
    have hErr := (((holds_of_reachable hReach.of_withHistory).step a).2 _ hCall).err
    rw [hErr, ← hRecord, recordComplaint]
    cases a.complaint with
    | none => exact hFurthest
    | some c => exact hFurthest.merge q.1.1.pos c

theorem err_furthest_sample : Furthest sampleParse.1.1.err
    [(1, .unexplained), (1, .message ['z']), (1, .expected ['y']), (0, .expected ['x'])] :=
  err_furthest sampleParse_reachable

end Errors

end Henson.Parser
