import Mathlib.Data.Finset.Max
import Henson.Tools.AsyncSafety

/-!
# The asynchronous mode does not deadlock

In a state without a step every rank waits for another one. A sender that the
broadcasts of its group hold waits in the end for a receiver, and of the receivers
one that has published least cannot wait, unless everyone has returned: all that
is needed for its next step has happened in the other group.
-/

namespace Henson.Tools.Async

open TransitionSystem

def State.Finished (x : Exchange) (s : State) : Prop :=
  (∀ rank < x.senders, (s.senders rank).phase = .returned ∧ (s.senders rank).free = true) ∧
    ∀ rank < x.receivers, (s.receivers rank).phase = .returned ∧
      (s.receivers rank).inBcast = false

def State.Stuck (x : Exchange) (s : State) : Prop := ∀ a, s.step x a = none

theorem drained_of_arrive {α : Type} {c : FifoChannel α} (hArrive : c.arrive = none)
    (hReceive : c.receive = none) : c.Drained := by
  simp only [FifoChannel.arrive, dite_eq_right_iff, reduceCtorEq, imp_false] at hArrive
  simp only [FifoChannel.receive, dite_eq_right_iff, reduceCtorEq, imp_false] at hReceive
  have hReceived := c.received_le
  have hArrived := c.arrived_le
  rw [FifoChannel.Drained]
  omega

theorem receive_eq_none_of_probe {α : Type} {c : FifoChannel α} (h : c.probe = false) :
    c.receive = none := by
  have hLe : ¬ c.received < c.arrived := of_decide_eq_false h
  simp [FifoChannel.receive, hLe]

theorem SenderInv.root {x : Exchange} {rank : Nat} {sender : Sender} {flags : List Bool}
    (h : SenderInv x rank sender flags) (hPhase : sender.phase ≠ .top ∧ sender.phase ≠ .sending ∧
      sender.phase ≠ .returned) : rank = 0 := by
  obtain ⟨hTop, hSending, hReturned⟩ := hPhase
  refine Classical.byContradiction fun hZero => ?_
  rcases h.follower hZero with hPhase | hPhase | hPhase
  · exact hTop hPhase
  · exact hSending hPhase
  · exact hReturned hPhase

namespace State.Stuck

variable {x : Exchange} {s : State}

theorem data (hStuck : s.Stuck x) (source target : Nat) :
    (s.data source target).arrive = none := by
  have hArrive := hStuck (.arrive source target)
  cases hData : (s.data source target).arrive with
  | none => rfl
  | some c => simp [State.step, hData] at hArrive

theorem request (hStuck : s.Stuck x) : s.request.arrive = none := by
  have hArrive := hStuck .arriveRequest
  cases hRequest : s.request.arrive with
  | none => rfl
  | some c => simp [State.step, hRequest] at hArrive

theorem stop (hStuck : s.Stuck x) : s.stop.arrive = none := by
  have hArrive := hStuck .arriveStop
  cases hStop : s.stop.arrive with
  | none => rfl
  | some c => simp [State.step, hStop] at hArrive

theorem sender (hStuck : s.Stuck x) (rank : Nat) :
    ((s.senders rank).inBcast = true ∧
        ∃ r < x.senders, (s.senders r).bcasts < (s.senders rank).bcasts) ∨
      (∃ target, (s.senders rank).waiting = some target ∧ ¬ (s.data rank target).Drained) ∨
      (s.senders rank).free = true := by
  cases hHeld : (s.senders rank).inBcast with
  | true =>
    have hReturn := hStuck (.bcastReadyReturn rank)
    simp only [State.step, hHeld, true_and, ite_eq_right_iff, reduceCtorEq, imp_false,
      not_forall, not_le, exists_prop] at hReturn
    exact .inl ⟨rfl, hReturn⟩
  | false =>
    cases hWaiting : (s.senders rank).waiting with
    | some target =>
      have hReturn := hStuck (.sendReturn rank)
      simp only [State.step, hWaiting] at hReturn
      refine .inr (.inl ⟨target, rfl, fun hDrained => ?_⟩)
      simp [hDrained] at hReturn
    | none => exact .inr (.inr (by simp [Sender.free, hHeld, hWaiting]))

theorem free_sender (hStuck : s.Stuck x) (h : Inv x s) {rank : Nat} (hRank : rank < x.senders)
    (hFree : (s.senders rank).free = true) :
    (s.senders rank).bcasts = s.ready.length ∧
      (((s.senders rank).phase = .top ∧ (rank = 0 → s.request.Drained) ∧
          (rank ≠ 0 → (s.senders rank).bcasts ≠ x.rounds)) ∨
        (rank = 0 ∧ (s.senders rank).phase = .stopping ∧ ¬ s.stop.Drained) ∨
        (s.senders rank).phase = .returned) := by
  have hSender := h.sender rank
  have hCaught : (s.senders rank).bcasts = x.rounds →
      (s.senders rank).bcasts = s.ready.length := fun hRounds => by
    have hRoot := (h.sender 0).le_rounds
    have hLe := hSender.bcasts_le
    have hLength := h.sendRoot
    omega
  cases hPhase : (s.senders rank).phase with
  | top =>
    by_cases hZero : rank = 0
    · subst hZero
      refine ⟨h.sendRoot, .inl ⟨rfl, fun _ => ?_, absurd rfl⟩⟩
      have hProbe := hStuck .iprobeRequest
      have hTake := hStuck .recvRequest
      have hRounds : ¬ (s.senders 0).bcasts < x.rounds := fun hLt => by
        simp only [State.step, hFree, hPhase, hLt, and_self, if_true] at hProbe
        split at hProbe
        · cases hProbe
        · cases hProbe
      have hLast : (s.senders 0).bcasts = x.rounds := by
        have hLe := hSender.le_rounds
        omega
      cases hReceive : s.request.receive with
      | none => exact drained_of_arrive hStuck.request hReceive
      | some p => simp [State.step, hReceive, hFree, hPhase, hLast] at hTake
    · have hFlag := hStuck (.bcastReady rank true)
      have hStop := hStuck (.stopRound rank)
      have hRounds : (s.senders rank).bcasts ≠ x.rounds := fun hLast => by
        simp [State.step, hZero, hRank, hFree, hPhase, hLast] at hStop
      have hLt : (s.senders rank).bcasts < x.rounds :=
        Nat.lt_of_le_of_ne hSender.le_rounds hRounds
      refine ⟨Nat.le_antisymm hSender.bcasts_le (Nat.ge_of_not_lt fun hBehind => ?_),
        .inl ⟨rfl, fun hRoot => absurd hRoot hZero, fun _ => hRounds⟩⟩
      simp [State.step, hZero, hRank, hFree, hPhase, hLt, hBehind] at hFlag
  | checked flag =>
    obtain rfl := hSender.root (by simp [hPhase])
    have hFlag := hStuck (.bcastReady 0 true)
    simp [State.step, hPhase] at hFlag
  | sending =>
    have hSend := hStuck (.send rank true)
    have hNext := hSender.next hPhase
    simp [State.step, hNext, hFree, hPhase] at hSend
  | unblocked =>
    obtain rfl := hSender.root (by simp [hPhase])
    have hSend := hStuck (.sendStop true)
    simp [State.step, hPhase] at hSend
  | stopping =>
    obtain rfl := hSender.root (by simp [hPhase])
    refine ⟨h.sendRoot, .inr (.inl ⟨rfl, rfl, fun hDrained => ?_⟩)⟩
    have hReturn := hStuck .sendStopReturn
    simp [State.step, hPhase, hDrained] at hReturn
  | returned =>
    have hLast := hSender.last (by rw [hPhase]; decide) (by rw [hPhase]; decide)
      (by simp [hPhase])
    exact ⟨hCaught hLast, .inr (.inr rfl)⟩

/-- A sender that is behind its group's broadcasts waits for a receiver, or another one that is
no further does. -/
theorem exists_waiting (hStuck : s.Stuck x) (h : Inv x s) {rank : Nat} (hRank : rank < x.senders)
    (hBehind : (s.senders rank).bcasts < s.ready.length) :
    ∃ r < x.senders, (s.senders r).bcasts ≤ (s.senders rank).bcasts ∧
      ∃ target, (s.senders r).waiting = some target ∧ ¬ (s.data r target).Drained := by
  induction hBcasts : (s.senders rank).bcasts using Nat.strong_induction_on generalizing rank with
  | h n ih =>
    rcases hStuck.sender rank with ⟨-, r, hr, hLess⟩ | hWaiting | hFree
    · obtain ⟨r', hr', hLe, hWaiting⟩ := ih _ (hBcasts ▸ hLess) hr (hLess.trans hBehind) rfl
      exact ⟨r', hr', by omega, hWaiting⟩
    · exact ⟨rank, hRank, hBcasts.le, hWaiting⟩
    · have hCaught := (hStuck.free_sender h hRank hFree).1
      omega

theorem held_receiver (hStuck : s.Stuck x) {rank : Nat}
    (hHeld : (s.receivers rank).inBcast = true) :
    ∃ r < x.receivers, (s.receivers r).bcasts < (s.receivers rank).bcasts := by
  have hReturn := hStuck (.bcastStopReturn rank)
  simp only [State.step, hHeld, true_and, ite_eq_right_iff, reduceCtorEq, imp_false,
    not_forall, not_le, exists_prop] at hReturn
  exact hReturn

theorem unstarted_receiver (hStuck : s.Stuck x) (h : Inv x s) {rank : Nat}
    (hRank : rank < x.receivers) (hStarted : (s.receivers rank).phase.view.started = 0) :
    (s.receivers rank).bcasts = s.stops.length := by
  by_cases hZero : rank = 0
  · exact hZero ▸ h.receiveRoot
  · have hReceiver := h.receiver rank
    have hTop : (s.receivers rank).phase = .top := by
      rcases hReceiver.follower hZero with hTop | hReceiving | hReturned
      · exact hTop
      · rw [hReceiving] at hStarted
        cases hStarted
      · rw [hReturned] at hStarted
        cases hStarted
    refine Nat.le_antisymm hReceiver.bcasts_le (Nat.ge_of_not_lt fun hBehind => ?_)
    have hFlag := hStuck (.bcastStop rank true)
    simp [State.step, hZero, hRank, hTop, hBehind] at hFlag

theorem receiving_receiver (hStuck : s.Stuck x) (h : Inv x s) {rank : Nat}
    (hPhase : (s.receivers rank).phase = .receiving) (hFree : (s.receivers rank).inBcast = false) :
    ∃ source, (x.receiveRanks rank)[(s.receivers rank).buffers.length]? = some source ∧
      (s.data source rank).Drained := by
  have hPublish := hStuck (.publish rank)
  have hReceive := hStuck (.receive rank)
  have hBuffers : (s.receivers rank).buffers.length ≤ (x.receiveRanks rank).length := by
    have hView : (s.receivers rank).buffers = (x.roundMessages rank
        (s.receivers rank).published.length).take (s.receivers rank).buffers.length :=
      (h.receiver rank).view.buffers
    rw [hView, List.length_take, Exchange.roundMessages, List.length_map]
    exact Nat.min_le_right _ _
  have hMore : (s.receivers rank).buffers.length ≠ (x.receiveRanks rank).length := fun hFull => by
    simp [State.step, hPhase, hFree, hFull] at hPublish
  have hLt := Nat.lt_of_le_of_ne hBuffers hMore
  refine ⟨_, List.getElem?_eq_getElem hLt, ?_⟩
  cases hData : (s.data (x.receiveRanks rank)[(s.receivers rank).buffers.length] rank).receive with
  | none => exact drained_of_arrive (hStuck.data _ _) hData
  | some p => simp [State.step, hPhase, hFree, hLt, hData] at hReceive

theorem root_receiver (hStuck : s.Stuck x) (hStarted : (s.receivers 0).phase.view.started = 0) :
    ((s.receivers 0).phase = .requesting ∧ ¬ s.request.Drained) ∨
      ((s.receivers 0).phase = .requested ∧ (s.data 0 0).Drained ∧ s.stop.Drained) := by
  cases hPhase : (s.receivers 0).phase with
  | top =>
    have hSend := hStuck (.sendRequest true)
    simp [State.step, hPhase] at hSend
  | requesting =>
    refine .inl ⟨rfl, fun hDrained => ?_⟩
    have hReturn := hStuck .sendRequestReturn
    simp [State.step, hPhase, hDrained] at hReturn
  | requested =>
    have hProbe := hStuck .probe
    simp only [State.step, hPhase, true_and, ite_eq_right_iff, reduceCtorEq, imp_false,
      Bool.not_eq_true, Bool.or_eq_false_iff] at hProbe
    exact .inr ⟨rfl, drained_of_arrive (hStuck.data 0 0) (receive_eq_none_of_probe hProbe.1),
      drained_of_arrive hStuck.stop (receive_eq_none_of_probe hProbe.2)⟩
  | probed =>
    have hProbe := hStuck .iprobeStop
    simp only [State.step, hPhase, if_true] at hProbe
    split at hProbe
    · cases hProbe
    · cases hProbe
  | checked stop =>
    have hFlag := hStuck (.bcastStop 0 true)
    simp [State.step, hPhase] at hFlag
  | receiving =>
    rw [hPhase] at hStarted
    cases hStarted
  | returned =>
    rw [hPhase] at hStarted
    cases hStarted

end State.Stuck

namespace Inv

variable {x : Exchange} {s : State}

theorem round_ge (h : Inv x s) (rank : Nat) :
    (s.ready.take ((s.senders rank).bcasts - 1)).count true ≤ (s.senders rank).round := by
  have hSender := h.sender rank
  have hPrefix : (s.ready.take ((s.senders rank).bcasts - 1)).count true ≤
      (s.ready.take (s.senders rank).bcasts).count true :=
    count_take_le (Nat.sub_le _ 1)
  cases hPhase : (s.senders rank).phase with
  | sending => exact (hSender.current hPhase).ge
  | _ =>
    have hRounds := hSender.rounds
    rw [hPhase] at hRounds
    rw [← hRounds] at hPrefix
    exact hPrefix

theorem undrained (h : Inv x s) {source target : Nat} (hTarget : target ∈ x.sendRanks source)
    (hNot : ¬ (s.data source target).Drained) :
    (s.receivers target).published.length < (s.data source target).sent.length := by
  have hReceived := h.received_ge (x.mem_sendRanks_iff.mp hTarget)
  have hReceivedLe := (s.data source target).received_le
  have hArrivedLe := (s.data source target).arrived_le
  rw [FifoChannel.Drained] at hNot
  omega

theorem unstarted (h : Inv x s) {rank : Nat}
    (hLe : (s.receivers rank).bcasts ≤ (s.receivers rank).published.length) :
    (s.receivers rank).phase.view.started = 0 := by
  have hBcasts : (s.receivers rank).bcasts = (s.receivers rank).published.length +
      (s.receivers rank).phase.view.started := (h.receiver rank).view.bcasts
  omega

theorem sent_of_caught (h : Inv x s) {source target : Nat}
    (hCaught : (s.senders source).bcasts = s.ready.length)
    (hPhase : (s.senders source).phase ≠ .sending) (hTarget : target ∈ x.sendRanks source) :
    (s.data source target).sent.length = s.ready.count true := by
  obtain ⟨k, hk⟩ := List.mem_iff_getElem?.mp hTarget
  have hRounds := (h.sender source).rounds
  have hNext := (h.sender source).idle hPhase
  have hBegun : (s.senders source).phase.begun = 0 := by
    cases hOld : (s.senders source).phase with
    | sending => exact absurd hOld hPhase
    | _ => rfl
  rw [hCaught, List.take_length, hBegun, Nat.add_zero] at hRounds
  rw [h.sent_eq hk, hNext, if_neg (Nat.not_lt_zero k), hRounds]
  rfl

end Inv

def State.Level (x : Exchange) (s : State) (m : Nat) : Prop :=
  ∀ rank < x.receivers, m ≤ (s.receivers rank).published.length

namespace State.Stuck

variable {x : Exchange} {s : State} {m : Nat}

theorem lt_of_waiting (h : Inv x s) (hLevel : s.Level x m) {rank target : Nat}
    (hRank : rank < x.senders) (hWaiting : (s.senders rank).waiting = some target)
    (hNot : ¬ (s.data rank target).Drained) :
    m < (s.ready.take (s.senders rank).bcasts).count true := by
  have hTarget := (h.sender rank).waiting target hWaiting
  calc m ≤ (s.receivers target).published.length :=
        hLevel target (x.lt_of_mem_sendRanks hRank hTarget)
    _ < (s.data rank target).sent.length := h.undrained hTarget hNot
    _ ≤ (s.ready.take (s.senders rank).bcasts).count true := h.sent_le hTarget

theorem lt_of_held (hStuck : s.Stuck x) (h : Inv x s) (hLevel : s.Level x m) {rank : Nat}
    (hHeld : ∃ r < x.senders, (s.senders r).bcasts < (s.senders rank).bcasts) :
    m < (s.senders rank).round := by
  obtain ⟨r, hr, hLess⟩ := hHeld
  have hBehind : (s.senders r).bcasts < s.ready.length :=
    hLess.trans_le (h.sender rank).bcasts_le
  obtain ⟨r', hr', hLe, target, hWaiting, hNot⟩ := hStuck.exists_waiting h hr hBehind
  have hPrefix : (s.ready.take (s.senders r').bcasts).count true ≤
      (s.ready.take ((s.senders rank).bcasts - 1)).count true :=
    count_take_le (by omega)
  calc m < (s.ready.take (s.senders r').bcasts).count true :=
        lt_of_waiting h hLevel hr' hWaiting hNot
    _ ≤ (s.ready.take ((s.senders rank).bcasts - 1)).count true := hPrefix
    _ ≤ (s.senders rank).round := h.round_ge rank

theorem started_of_behind (hStuck : s.Stuck x) (h : Inv x s) (hLevel : s.Level x m)
    (hStops : m < s.stops.length) {rank : Nat} (hRank : rank < x.receivers)
    (hPublished : (s.receivers rank).published.length = m) :
    (s.receivers rank).inBcast = false ∧
      ((s.receivers rank).phase = .receiving ∨ (s.receivers rank).phase = .returned) := by
  have hUnstarted : ∀ {r}, r < x.receivers → ¬ (s.receivers r).bcasts ≤ m := fun {r} hr hLe => by
    have hStarted := h.unstarted (hLe.trans (hLevel r hr))
    have hCaught := hStuck.unstarted_receiver h hr hStarted
    omega
  have hBcasts : (s.receivers rank).bcasts = (s.receivers rank).published.length +
      (s.receivers rank).phase.view.started := (h.receiver rank).view.bcasts
  constructor
  · refine Bool.eq_false_of_not_eq_true fun hHeld => ?_
    obtain ⟨r, hr, hLess⟩ := hStuck.held_receiver hHeld
    have hPhase : (s.receivers rank).phase.view.started ≤ 1 := by
      cases (s.receivers rank).phase.view <;> simp [Tools.ReceivePhase.started]
    exact hUnstarted hr (by omega)
  · have hNot := hUnstarted hRank
    cases hPhase : (s.receivers rank).phase with
    | receiving => exact .inl rfl
    | returned => exact .inr rfl
    | _ =>
      rw [hPhase] at hBcasts
      exact absurd (hBcasts.trans hPublished).le hNot

theorem not_receiving (hStuck : s.Stuck x) (h : Inv x s) (hLevel : s.Level x m)
    (hStops : s.stops[m]? = some false) {rank : Nat} (hRank : rank < x.receivers)
    (hPublished : (s.receivers rank).published.length = m) :
    (s.receivers rank).phase ≠ .receiving := by
  intro hPhase
  have hFree := (hStuck.started_of_behind h hLevel (List.getElem?_eq_some_iff.mp hStops).1 hRank
    hPublished).1
  obtain ⟨source, hSource, hDrained⟩ := hStuck.receiving_receiver h hPhase hFree
  have hReceived : (s.data source rank).received = m := by
    have hCount : (s.data source rank).received = (s.receivers rank).published.length +
        if (s.receivers rank).buffers.length < (s.receivers rank).buffers.length then 1 else 0 :=
      (h.channel source rank).received _ hSource
    rw [hCount, if_neg (Nat.lt_irrefl _), hPublished, Nat.add_zero]
  have hSent : (s.data source rank).sent.length = m := hDrained.symm.trans hReceived
  have hPartner := List.mem_of_getElem? hSource
  have hTarget := x.mem_sendRanks_iff.mpr hPartner
  have hLt := x.lt_of_mem_receiveRanks hRank hPartner
  obtain ⟨k, hk⟩ := List.mem_iff_getElem?.mp hTarget
  have hRound := h.sent_eq hk
  have hAnnounced := h.root.going m hStops
  rcases hStuck.sender source with ⟨-, hHeld⟩ | ⟨target, hWaiting, hNot⟩ | hFreeSender
  · have hAhead := hStuck.lt_of_held h hLevel hHeld
    omega
  · -- the sender waits for another partner, which then is behind as well
    have hOther := (h.sender source).waiting target hWaiting
    have hNe : target ≠ rank := fun hEq => hNot (hEq ▸ hDrained)
    have hUndrained := h.undrained hOther hNot
    obtain ⟨k', hk'⟩ := List.mem_iff_getElem?.mp hOther
    have hRound' := h.sent_eq hk'
    have hTargetLt := x.lt_of_mem_sendRanks hLt hOther
    have hTargetLevel := hLevel target hTargetLt
    have hTargetPublished : (s.receivers target).published.length = m := by
      split at hRound'
      · omega
      · omega
    obtain ⟨hTargetFree, hStarted⟩ := hStuck.started_of_behind h hLevel
      (List.getElem?_eq_some_iff.mp hStops).1 hTargetLt hTargetPublished
    rcases hStarted with hReceiving | hReturned
    · obtain ⟨source', hSource', hDrained'⟩ :=
        hStuck.receiving_receiver h hReceiving hTargetFree
      have hSole := List.mem_of_getElem? hSource'
      rw [x.receiveRanks_of_ne hTarget hOther hNe, List.mem_singleton] at hSole
      exact hNot (hSole ▸ hDrained')
    · exact hNot (h.drained_of_returned hReturned source)
  · obtain ⟨hCaught, hPhases⟩ := hStuck.free_sender h hLt hFreeSender
    have hAll := h.sent_of_caught hCaught (by
      rcases hPhases with ⟨hTop, -⟩ | ⟨-, hStopping, -⟩ | hReturned
      · rw [hTop]
        decide
      · rw [hStopping]
        decide
      · rw [hReturned]
        decide) hTarget
    omega

theorem drained_of_requesting (hStuck : s.Stuck x) (h : Inv x s) (hLevel : s.Level x m)
    (hPublished : (s.receivers 0).published.length = m)
    (hPhase : (s.receivers 0).phase = .requesting) : s.request.Drained := by
  by_contra hNot
  have hRoot := h.root
  rw [hPhase] at hRoot
  have hAsked : s.request.sent.length = (s.receivers 0).published.length + 1 := hRoot.asked
  have hTaken := hRoot.taken
  have hOrder := s.request.received_le
  have hArrived := s.request.arrived_le
  have hNone : ¬ m < s.ready.count true := fun hLt => by
    rw [FifoChannel.Drained] at hNot
    omega
  rcases hStuck.sender 0 with ⟨-, hHeld⟩ | ⟨target, hWaiting, hUndrained⟩ | hFree
  · have hHeld := hStuck.lt_of_held h hLevel hHeld
    have hRounds := (h.sender 0).rounds_le
    omega
  · have hAhead := lt_of_waiting h hLevel x.senders_pos hWaiting hUndrained
    exact hNone (hAhead.trans_le (List.Sublist.count_le true (List.take_sublist _ s.ready)))
  · rcases (hStuck.free_sender h x.senders_pos hFree).2 with
      ⟨-, hRequest, -⟩ | ⟨-, hStopping, -⟩ | hReturned
    · exact hNot (hRequest rfl)
    · rw [hStopping] at hRoot
      exact hNot (hRoot.done (h.published_le 0) rfl).2
    · rw [hReturned] at hRoot
      exact hNot (hRoot.done (h.published_le 0) rfl).2

theorem not_drained_of_requested (hStuck : s.Stuck x) (h : Inv x s) (hLevel : s.Level x m)
    (hPublished : (s.receivers 0).published.length = m)
    (hPhase : (s.receivers 0).phase = .requested) (hDrained : (s.data 0 0).Drained) :
    ¬ s.stop.Drained := by
  intro hStopDrained
  have hZero : 0 ∈ x.receiveRanks 0 := List.mem_of_getElem? x.receiveRanks_zero
  have hRoot := h.root
  rw [hPhase] at hRoot
  have hIdle : (s.receivers 0).buffers = [] := by
    apply (h.receiver 0).view.idle
    change (s.receivers 0).phase.view ≠ .receiving
    rw [hPhase]
    decide
  have hReceived : (s.data 0 0).received = m := by
    have hCount : (s.data 0 0).received = (s.receivers 0).published.length +
        if 0 < (s.receivers 0).buffers.length then 1 else 0 :=
      (h.channel 0 0).received 0 x.receiveRanks_zero
    rw [hCount, hIdle, List.length_nil, if_neg (Nat.lt_irrefl _), hPublished, Nat.add_zero]
  have hSent : (s.data 0 0).sent.length = m := hDrained.symm.trans hReceived
  have hRound := h.sent_eq x.sendRanks_zero
  rcases hStuck.sender 0 with ⟨-, hHeld⟩ | ⟨target, hWaiting, hUndrained⟩ | hFree
  · have hHeld := hStuck.lt_of_held h hLevel hHeld
    omega
  · -- the sends of a round begin with receiver 0
    have hOther := (h.sender 0).waiting target hWaiting
    obtain ⟨k, hk⟩ := List.mem_iff_getElem?.mp hOther
    have hRound' := h.sent_eq hk
    have hLower := hLevel target (x.lt_of_mem_sendRanks x.senders_pos hOther)
    have hUpper := h.undrained hOther hUndrained
    split at hRound'
    · rw [if_pos (by omega)] at hRound
      omega
    · omega
  · obtain ⟨hCaught, hPhases⟩ := hStuck.free_sender h x.senders_pos hFree
    rcases hPhases with ⟨hTop, hRequest, -⟩ | ⟨-, -, hNot⟩ | hReturned
    · have hAll := h.sent_of_caught hCaught (by rw [hTop]; decide) (x.mem_sendRanks_iff.mpr hZero)
      rw [hTop] at hRoot
      have hAsked : s.request.sent.length = (s.receivers 0).published.length + 1 := hRoot.asked
      have hTaken : s.request.received = s.ready.count true := hRoot.taken
      have hRequest : s.request.received = s.request.sent.length := hRequest rfl
      omega
    · exact hNot hStopDrained
    · rw [hReturned] at hRoot
      have hStopSent : s.stop.sent.length = 1 := hRoot.stopSent
      have hStopSeen : s.stop.received = 0 := hRoot.stopSeen
      have hStopDrained : s.stop.received = s.stop.sent.length := hStopDrained
      omega

theorem lt_length_stops (hStuck : s.Stuck x) (h : Inv x s) (hLevel : s.Level x m) :
    m < s.stops.length := by
  refine Nat.lt_of_not_ge fun hStops => ?_
  have hBcasts := h.receiveRoot
  have hPublishedLe : (s.receivers 0).published.length ≤ (s.receivers 0).bcasts := by
    rw [show (s.receivers 0).bcasts = _ from (h.receiver 0).view.bcasts]
    exact Nat.le_add_right _ _
  have hPublished : (s.receivers 0).published.length = m := by
    have hLower := hLevel 0 x.receivers_pos
    omega
  have hBehind : (s.receivers 0).bcasts ≤ (s.receivers 0).published.length := by omega
  rcases hStuck.root_receiver (h.unstarted hBehind) with
    ⟨hPhase, hNot⟩ | ⟨hPhase, hDrained, hStopDrained⟩
  · exact hNot (hStuck.drained_of_requesting h hLevel hPublished hPhase)
  · exact hStuck.not_drained_of_requested h hLevel hPublished hPhase hDrained hStopDrained

theorem senders_returned (hStuck : s.Stuck x) (h : Inv x s)
    (hReceivers : ∀ rank < x.receivers, (s.receivers rank).phase = .returned) {rank : Nat}
    (hRank : rank < x.senders) :
    (s.senders rank).phase = .returned ∧ (s.senders rank).free = true := by
  have hDrained : ∀ {r target}, r < x.senders → (s.senders r).waiting = some target →
      (s.data r target).Drained := fun {r target} hr hWaiting =>
    h.drained_of_returned (hReceivers target
      (x.lt_of_mem_sendRanks hr ((h.sender r).waiting target hWaiting))) r
  have hReturned := hReceivers 0 x.receivers_pos
  have hStopSent := (h.announced_of_returned hReturned).2
  have hStop : s.stop.Drained := by
    have hSeen := h.root.stopSeen
    have hLength := h.root.stopSent
    rw [hReturned] at hSeen
    exact hSeen.trans (hStopSent.symm.trans hLength.symm)
  rcases hStuck.sender rank with ⟨-, r, hr, hLess⟩ | ⟨target, hWaiting, hNot⟩ | hFree
  · have hBehind := hLess.trans_le (h.sender rank).bcasts_le
    obtain ⟨r', hr', -, target, hWaiting, hNot⟩ := hStuck.exists_waiting h hr hBehind
    exact absurd (hDrained hr' hWaiting) hNot
  · exact absurd (hDrained hRank hWaiting) hNot
  · refine ⟨?_, hFree⟩
    obtain ⟨hCaught, hPhases⟩ := hStuck.free_sender h hRank hFree
    rcases hPhases with ⟨hTop, -, hRounds⟩ | ⟨-, -, hNot⟩ | hReturned
    · by_cases hZero : rank = 0
      · subst hZero
        rw [hTop] at hStopSent
        cases hStopSent
      · have hLast := (h.sender 0).last (fun hPhase => by rw [hPhase] at hStopSent; cases hStopSent)
          (fun hPhase => by rw [hPhase] at hStopSent; cases hStopSent)
          (fun flag hPhase => by rw [hPhase] at hStopSent; cases hStopSent)
        exact absurd (hCaught.trans (h.sendRoot.symm.trans hLast)) (hRounds hZero)
    · exact absurd hStop hNot
    · exact hReturned

/-- A state without a step is the one where both groups have finished. -/
theorem finished (hStuck : s.Stuck x) (h : Inv x s) : s.Finished x := by
  obtain ⟨least, hLeast, hMin⟩ := Finset.exists_min_image (Finset.range x.receivers)
    (fun rank => (s.receivers rank).published.length) ⟨0, Finset.mem_range.mpr x.receivers_pos⟩
  have hLeast := Finset.mem_range.mp hLeast
  have hLevel : s.Level x (s.receivers least).published.length :=
    fun rank hRank => hMin rank (Finset.mem_range.mpr hRank)
  have hStops := hStuck.lt_length_stops h hLevel
  cases hFlag : s.stops[(s.receivers least).published.length]? with
  | none => exact absurd hStops (List.getElem?_eq_none_iff.mp hFlag).not_gt
  | some flag =>
    cases flag with
    | false =>
      have hNot := hStuck.not_receiving h hLevel hFlag hLeast rfl
      have hReturned := ((hStuck.started_of_behind h hLevel hStops hLeast rfl).2).resolve_left hNot
      have hPublished := (h.announced_of_returned hReturned).1
      have hGoing := h.root.going _ hFlag
      omega
    | true =>
      have hAll := (h.root.stopping _ hFlag).1
      have hReceivers : ∀ rank < x.receivers, (s.receivers rank).phase = .returned ∧
          (s.receivers rank).inBcast = false := fun rank hRank => by
        have hLower := hLevel rank hRank
        have hUpper := h.published_le rank
        have hPublished : (s.receivers rank).published.length =
            (s.receivers least).published.length := by omega
        obtain ⟨hFree, hPhase⟩ := hStuck.started_of_behind h hLevel hStops hRank hPublished
        refine ⟨hPhase.resolve_left fun hReceiving => ?_, hFree⟩
        have hGoing := (h.receiver rank).receiving hReceiving
        rw [hPublished, hFlag] at hGoing
        cases hGoing
      exact ⟨fun rank hRank => hStuck.senders_returned h (fun r hr => (hReceivers r hr).1) hRank,
        hReceivers⟩

end State.Stuck

theorem Inv.outstanding_le {x : Exchange} {s : State} (h : Inv x s) :
    s.request.sent.length ≤ s.request.received + 1 := by
  have hAsked := h.root.asked
  have hTaken := h.root.taken
  have hPublished := h.published_le 0
  have hPhase : (s.receivers 0).phase.asked ≤ 1 := by
    cases (s.receivers 0).phase <;> simp [ReceivePhase.asked]
  omega

theorem Inv.round_lt {x : Exchange} {s : State} (h : Inv x s) {source target : Nat} {m : Message}
    (hm : m ∈ (s.data source target).sent) : m.round < s.ready.count true := by
  have hSent := (h.channel source target).sent
  by_cases hTarget : target ∈ x.sendRanks source
  · have hLength := h.sent_le hTarget
    have hCount : (s.ready.take (s.senders source).bcasts).count true ≤ s.ready.count true :=
      List.Sublist.count_le _ (List.take_sublist _ _)
    rw [hSent] at hm
    obtain ⟨round, hRound, rfl⟩ := List.mem_map.mp hm
    exact (List.mem_range.mp hRound).trans_le (hLength.trans hCount)
  · rw [h.quiet source target hTarget] at hm
    cases hm

theorem Logged.count {s : State} {log : List Event} (h : Logged s log) :
    log.count .requestTaken = s.ready.count true + (s.senders 0).phase.taken := by
  have hRounds : ∀ n, (dataRounds n).count .requestTaken = n := fun n => by
    induction n with
    | zero => rfl
    | succ n ih =>
      rw [dataRounds_succ, List.count_append, ih]
      rfl
  rw [h, List.count_append, hRounds]
  cases (s.senders 0).phase with
  | checked flag => cases flag <;> rfl
  | _ => rfl

/-- The asynchronous protocol in every reachable state: one request at most is outstanding; the
requests that were taken are one for each data round, before it, and one before the stop; no
message belongs to a round to come; and someone can step until both groups have finished. -/
theorem protocol_safe (x : Exchange) {s : State} {log : List Event}
    (h : (loggedMachine x).Reachable (s, log)) :
    s.request.sent.length ≤ s.request.received + 1 ∧
    (log.count .requestTaken = s.request.received ∧
      (∃ tail, log = dataRounds (s.ready.count true) ++ tail ∧
        tail <+: [.requestTaken, .stopSent]) ∧
      ∀ source target, ∀ m ∈ (s.data source target).sent, m.round < s.ready.count true) ∧
    (s.stop.sent ≠ [] → s.request.Drained) ∧
    (∀ rank, (s.receivers rank).phase = .returned → (∀ source, (s.data source rank).Drained) ∧
      (s.receivers rank).published =
        (List.range (s.ready.count true)).map (x.roundMessages rank)) ∧
    (s.Finished x ∨ ∃ a s', s.step x a = some s') := by
  have hInv := inv_of_reachable h.of_withHistory
  have hLogged := logged_of_reachable h
  refine ⟨hInv.outstanding_le, ⟨hLogged.count.trans hInv.root.taken.symm, ⟨_, hLogged, ?_⟩,
    fun _ _ _ hm => hInv.round_lt hm⟩, fun hSent => ?_, fun rank hReturned => ?_, ?_⟩
  · cases (s.senders 0).phase with
    | checked flag => cases flag <;> decide
    | _ => decide
  · have hLength := hInv.root.stopSent
    have hStopSent : (s.senders 0).phase.stopSent = 1 := by
      have hPos := List.length_pos_iff.mpr hSent
      cases hPhase : (s.senders 0).phase with
      | stopping => rfl
      | returned => rfl
      | _ =>
        rw [hPhase] at hLength
        exact absurd hLength hPos.ne'
    exact (hInv.root.done (hInv.published_le 0) hStopSent).2
  · have hPublished : (s.receivers rank).published =
        (List.range (s.receivers rank).published.length).map (x.roundMessages rank) :=
      (hInv.receiver rank).view.published
    refine ⟨hInv.drained_of_returned hReturned, ?_⟩
    rw [hPublished, (hInv.announced_of_returned hReturned).1]
  · by_cases hStuck : s.Stuck x
    · exact .inl (hStuck.finished hInv)
    · obtain ⟨a, ha⟩ := not_forall.mp hStuck
      exact .inr ⟨a, Option.ne_none_iff_exists'.mp ha⟩

/-- Two rounds of a sender, the first without a request, with two receivers. -/
theorem protocol_safe_run :
    ∃ s : State, s.request.Drained ∧ (s.receivers 1).published = [[⟨0, 1, 0⟩]] := by
  let x : Exchange := ⟨1, 2, 2, by decide, by decide, .inl (by decide)⟩
  let actions : List Action :=
    [.iprobeRequest, .bcastReady 0 false, .sendRequest false, .arriveRequest, .iprobeRequest,
      .sendRequestReturn, .bcastReady 0 true, .bcastReadyReturn 0, .send 0 true, .send 0 false,
      .arrive 0 0, .probe, .iprobeStop, .bcastStop 0 false, .receive 0, .publish 0,
      .bcastStop 1 false, .arrive 0 1, .receive 1, .publish 1, .sendReturn 0, .sendRequest true,
      .arriveRequest, .recvRequest, .sendStop false, .arriveStop, .probe, .iprobeStop,
      .bcastStop 0 true, .sendStopReturn, .bcastStop 1 false, .bcastStopReturn 0]
  have hRun : ((loggedMachine x).run actions (State.new, [])).map (fun p =>
      ((p.1.receivers 1).phase, p.1.stop.sent.length, p.1.ready)) =
      some (.returned, 1, [false, true]) := by decide
  obtain ⟨⟨s, log⟩, hs, hFacts⟩ := Option.map_eq_some_iff.mp hRun
  simp only [Prod.mk.injEq] at hFacts
  obtain ⟨hReturned, hStop, hReady⟩ := hFacts
  obtain ⟨-, -, hDrained, hReceived, -⟩ :=
    protocol_safe x (Machine.reachable_of_run actions .initial hs)
  refine ⟨s, hDrained (List.length_pos_iff.mp (by omega)), ?_⟩
  rw [(hReceived 1 hReturned).2, hReady]
  decide

end Henson.Tools.Async
