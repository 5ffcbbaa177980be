import Henson.Tools.AsyncInvariant

/-!
# Safety of the asynchronous mode

Every step keeps the invariant. What was announced, requested and stopped then
follows in every reachable state.
-/

namespace Henson.Tools.Async

open TransitionSystem

namespace Inv

variable {x : Exchange} {s : State}

theorem sent_le (h : Inv x s) {source target : Nat} (hTarget : target ∈ x.sendRanks source) :
    (s.data source target).sent.length ≤ (s.ready.take (s.senders source).bcasts).count true := by
  obtain ⟨k, hk⟩ := List.mem_iff_getElem?.mp hTarget
  have hSender := h.sender source
  have hSent : (s.data source target).sent.length =
      (s.senders source).round + if k < (s.senders source).next then 1 else 0 :=
    (h.channel source target).sent_length k hk
  rw [hSent, ← hSender.rounds]
  split
  · cases hPhase : (s.senders source).phase with
    | sending => exact Nat.le_refl _
    | _ =>
      have hNext := hSender.idle fun hSending => by rw [hPhase] at hSending; cases hSending
      omega
  · exact Nat.le_add_right _ _

theorem received_ge (h : Inv x s) {source target : Nat} (hSource : source ∈ x.receiveRanks target) :
    (s.receivers target).published.length ≤ (s.data source target).received := by
  obtain ⟨k, hk⟩ := List.mem_iff_getElem?.mp hSource
  have hReceived : (s.data source target).received = (s.receivers target).published.length +
      if k < (s.receivers target).buffers.length then 1 else 0 :=
    (h.channel source target).received k hk
  omega

theorem published_le (h : Inv x s) (rank : Nat) :
    (s.receivers rank).published.length ≤ s.ready.count true := by
  obtain ⟨source, hSource⟩ := List.exists_mem_of_length_pos (x.receiveRanks_pos rank)
  have hCount : ((s.ready.take (s.senders source).bcasts).count true) ≤ s.ready.count true :=
    List.Sublist.count_le _ (List.take_sublist _ _)
  calc (s.receivers rank).published.length
      ≤ (s.data source rank).received := h.received_ge hSource
    _ ≤ (s.data source rank).arrived := (s.data source rank).received_le
    _ ≤ (s.data source rank).sent.length := (s.data source rank).arrived_le
    _ ≤ (s.ready.take (s.senders source).bcasts).count true :=
      h.sent_le (x.mem_sendRanks_iff.mpr hSource)
    _ ≤ s.ready.count true := hCount

theorem published_lt (h : Inv x s) (hPhase : (s.receivers 0).phase = .probed)
    (hStop : s.stop.receive = none) :
    (s.receivers 0).published.length < s.ready.count true := by
  have hProbe := (h.root.probed hPhase).resolve_right (FifoChannel.not_probe_of_receive hStop)
  have hLt : (s.data 0 0).received < (s.data 0 0).arrived := of_decide_eq_true hProbe
  have hZero : 0 ∈ x.receiveRanks 0 := List.mem_of_getElem? x.receiveRanks_zero
  have hReceived := h.received_ge hZero
  have hArrived := (s.data 0 0).arrived_le
  have hSent := h.sent_le (x.mem_sendRanks_iff.mpr hZero)
  rw [h.sendRoot, List.take_length] at hSent
  omega

theorem new (x : Exchange) : Inv x State.new := by
  have hReceiver := fun rank => (Tools.Inv.new x).receiver rank
  refine ⟨(Tools.Inv.new x).channel, fun _ _ _ => rfl, fun rank => ?_, fun rank => ?_, rfl, rfl, ?_⟩
  · exact ⟨rfl, nofun, fun _ => rfl, nofun, Nat.le_refl _, Nat.zero_le _, nofun, fun _ => .inl rfl,
      fun hTop _ _ => absurd rfl hTop, nofun⟩
  · exact ⟨hReceiver rank, Nat.le_refl _, nofun, fun _ => .inl rfl⟩
  · exact ⟨rfl, rfl, rfl, rfl, nofun, nofun, nofun, nofun⟩

theorem rootSender (h : Inv x s) {sender : Sender} {request stop : FifoChannel Unit}
    {ready : List Bool} (hRound : sender.round = (s.senders 0).round)
    (hNext : sender.next = (s.senders 0).next) (hSender : SenderInv x 0 sender ready)
    (hOthers : ∀ rank, SenderInv x rank (s.senders rank) ready)
    (hBcasts : sender.bcasts = ready.length)
    (hRoot : RootInv sender.phase (s.receivers 0).phase (s.receivers 0).published.length
      (s.data 0 0) request stop ready s.stops) :
    Inv x { s.setSender 0 sender with request := request, stop := stop, ready := ready } where
  channel source target := by
    by_cases hRank : source = 0
    · subst hRank
      have hChannel : ChannelInv x 0 target sender.view (s.receivers target).view
          (s.data 0 target) := (h.channel 0 target).congr hRound hNext rfl rfl rfl rfl
      simpa [State.setSender] using hChannel
    · simpa [State.setSender, hRank] using h.channel source target
  quiet := h.quiet
  sender rank := by
    by_cases hRank : rank = 0
    · subst hRank
      simpa [State.setSender] using hSender
    · simpa [State.setSender, hRank] using hOthers rank
  receiver := h.receiver
  sendRoot := by simpa [State.setSender] using hBcasts
  receiveRoot := h.receiveRoot
  root := by simpa [State.setSender] using hRoot

theorem setSender (h : Inv x s) {rank : Nat} {sender : Sender}
    (hRound : sender.round = (s.senders rank).round) (hNext : sender.next = (s.senders rank).next)
    (hSender : SenderInv x rank sender s.ready)
    (hRoot : rank = 0 → sender.bcasts = (s.senders 0).bcasts ∧ sender.phase = (s.senders 0).phase) :
    Inv x (s.setSender rank sender) := by
  by_cases hRank : rank = 0
  · subst hRank
    obtain ⟨hBcasts, hPhase⟩ := hRoot rfl
    exact h.rootSender hRound hNext hSender h.sender (hBcasts.trans h.sendRoot) (hPhase ▸ h.root)
  · have hZero : (0 : Nat) ≠ rank := Ne.symm hRank
    refine ⟨fun source target => ?_, h.quiet, fun r => ?_, h.receiver, ?_, h.receiveRoot, ?_⟩
    · by_cases hSource : source = rank
      · subst hSource
        have hChannel : ChannelInv x source target sender.view (s.receivers target).view
            (s.data source target) := (h.channel source target).congr hRound hNext rfl rfl rfl rfl
        simpa [State.setSender] using hChannel
      · simpa [State.setSender, hSource] using h.channel source target
    · by_cases hr : r = rank
      · subst hr
        simpa [State.setSender] using hSender
      · simpa [State.setSender, hr] using h.sender r
    · simpa [State.setSender, hZero] using h.sendRoot
    · simpa [State.setSender, hZero] using h.root

theorem rootReceiver (h : Inv x s) {receiver : Receiver} {request stop : FifoChannel Unit}
    {stops : List Bool} (hPublished : receiver.published = (s.receivers 0).published)
    (hBuffers : receiver.buffers = (s.receivers 0).buffers)
    (hReceiver : ReceiverInv x 0 receiver stops)
    (hOthers : ∀ rank, ReceiverInv x rank (s.receivers rank) stops)
    (hBcasts : receiver.bcasts = stops.length)
    (hRoot : RootInv (s.senders 0).phase receiver.phase (s.receivers 0).published.length
      (s.data 0 0) request stop s.ready stops) :
    Inv x { s.setReceiver 0 receiver with request := request, stop := stop, stops := stops } where
  channel source target := by
    by_cases hRank : target = 0
    · subst hRank
      have hChannel : ChannelInv x source 0 (s.senders source).view receiver.view
          (s.data source 0) := (h.channel source 0).congr rfl rfl hPublished hBuffers rfl rfl
      simpa [State.setReceiver] using hChannel
    · simpa [State.setReceiver, hRank] using h.channel source target
  quiet := h.quiet
  sender := h.sender
  receiver rank := by
    by_cases hRank : rank = 0
    · subst hRank
      simpa [State.setReceiver] using hReceiver
    · simpa [State.setReceiver, hRank] using hOthers rank
  sendRoot := h.sendRoot
  receiveRoot := by simpa [State.setReceiver] using hBcasts
  root := by
    rw [← hPublished] at hRoot
    simpa [State.setReceiver] using hRoot

theorem setReceiver (h : Inv x s) {rank : Nat} {receiver : Receiver}
    (hPublished : receiver.published = (s.receivers rank).published)
    (hBuffers : receiver.buffers = (s.receivers rank).buffers)
    (hReceiver : ReceiverInv x rank receiver s.stops)
    (hRoot : rank = 0 →
      receiver.bcasts = (s.receivers 0).bcasts ∧ receiver.phase = (s.receivers 0).phase) :
    Inv x (s.setReceiver rank receiver) := by
  by_cases hRank : rank = 0
  · subst hRank
    obtain ⟨hBcasts, hPhase⟩ := hRoot rfl
    exact h.rootReceiver hPublished hBuffers hReceiver h.receiver (hBcasts.trans h.receiveRoot)
      (hPhase ▸ h.root)
  · have hZero : (0 : Nat) ≠ rank := Ne.symm hRank
    refine ⟨fun source target => ?_, h.quiet, h.sender, fun r => ?_, h.sendRoot, ?_, ?_⟩
    · by_cases hTarget : target = rank
      · subst hTarget
        have hChannel : ChannelInv x source target (s.senders source).view receiver.view
            (s.data source target) :=
          (h.channel source target).congr rfl rfl hPublished hBuffers rfl rfl
        simpa [State.setReceiver] using hChannel
      · simpa [State.setReceiver, hTarget] using h.channel source target
    · by_cases hr : r = rank
      · subst hr
        simpa [State.setReceiver] using hReceiver
      · simpa [State.setReceiver, hr] using h.receiver r
    · simpa [State.setReceiver, hZero] using h.receiveRoot
    · simpa [State.setReceiver, hZero] using h.root

theorem senderPhase (h : Inv x s) {phase : SendPhase} {request stop : FifoChannel Unit}
    (hOld : (s.senders 0).phase ≠ .sending) (hBegun : phase.begun = (s.senders 0).phase.begun)
    (hChecked : ∀ flag, phase = .checked flag → (s.senders 0).bcasts < x.rounds)
    (hLast : phase ≠ .top → (∀ flag, phase ≠ .checked flag) → (s.senders 0).bcasts = x.rounds)
    (hRoot : RootInv phase (s.receivers 0).phase (s.receivers 0).published.length
      (s.data 0 0) request stop s.ready s.stops) :
    Inv x { s.setSender 0 { s.senders 0 with phase := phase } with
      request := request, stop := stop } :=
  h.rootSender rfl rfl ((h.sender 0).phase hOld hBegun (absurd rfl) hChecked hLast) h.sender
    h.sendRoot hRoot

theorem senderLast (h : Inv x s) {phase : SendPhase} {request stop : FifoChannel Unit}
    (hOld : (s.senders 0).phase ≠ .sending) (hBegun : phase.begun = (s.senders 0).phase.begun)
    (hChecked : ∀ flag, phase ≠ .checked flag) (hRounds : (s.senders 0).bcasts = x.rounds)
    (hRoot : RootInv phase (s.receivers 0).phase (s.receivers 0).published.length
      (s.data 0 0) request stop s.ready s.stops) :
    Inv x { s.setSender 0 { s.senders 0 with phase := phase } with
      request := request, stop := stop } :=
  h.senderPhase hOld hBegun (fun flag hFlag => absurd hFlag (hChecked flag))
    (fun _ _ => hRounds) hRoot

theorem receiverPhase (h : Inv x s) {phase : ReceivePhase} {request stop : FifoChannel Unit}
    (hOld : (s.receivers 0).phase.view.started = 0) (hNew : phase.view.started = 0)
    (hRoot : RootInv (s.senders 0).phase phase (s.receivers 0).published.length
      (s.data 0 0) request stop s.ready s.stops) :
    Inv x { s.setReceiver 0 { s.receivers 0 with phase := phase } with
      request := request, stop := stop } :=
  h.rootReceiver rfl rfl ((h.receiver 0).phase hOld hNew) h.receiver h.receiveRoot hRoot

theorem bcastReady (h : Inv x s) {flag : Bool} (hPhase : (s.senders 0).phase = .checked flag)
    (held : Bool) : Inv x { s.setSender 0 ((s.senders 0).ready flag held) with
      ready := s.ready ++ [flag] } := by
  have hRoot := h.root
  rw [hPhase] at hRoot
  have hOld := h.sender 0
  have hFlag : (s.ready ++ [flag])[(s.senders 0).bcasts]? = some flag := by
    rw [h.sendRoot, List.getElem?_concat_length]
  have hSender := (hOld.extend [flag]).ready (hOld.idle (by rw [hPhase]; exact nofun))
    (by rw [hPhase]; rfl) (hOld.checked flag hPhase) hFlag held
  refine h.rootSender rfl rfl hSender (fun r => (h.sender r).extend [flag]) ?_ hRoot.bcastReady
  rw [List.length_append, ← h.sendRoot]
  rfl

theorem bcastStop (h : Inv x s) {flag : Bool} (hPhase : (s.receivers 0).phase = .checked flag)
    (held : Bool) : Inv x { s.setReceiver 0 ((s.receivers 0).stopFlag flag held) with
      stops := s.stops ++ [flag] } := by
  have hRoot := h.root
  rw [hPhase] at hRoot
  have hStarted : (s.receivers 0).phase.view.started = 0 := by rw [hPhase]; rfl
  have hFlag : (s.stops ++ [flag])[(s.receivers 0).bcasts]? = some flag := by
    rw [h.receiveRoot, List.getElem?_concat_length]
  have hIndex : s.stops.length = (s.receivers 0).published.length := by
    have hBcasts := (h.receiver 0).view.bcasts
    rw [← h.receiveRoot]
    exact hBcasts.trans (congrArg _ hStarted)
  refine h.rootReceiver rfl rfl (((h.receiver 0).extend flag).stopFlag hStarted hFlag held)
    (fun r => (h.receiver r).extend flag) ?_ (hRoot.bcastStop (h.published_le 0) hIndex)
  rw [List.length_append, ← h.receiveRoot]
  rfl

theorem send (h : Inv x s) {rank target : Nat} (buffered : Bool)
    (hTarget : (x.sendRanks rank)[(s.senders rank).next]? = some target)
    (hPhase : (s.senders rank).phase = .sending) :
    Inv x ((s.setData rank target ((s.data rank target).send
      ⟨rank, target, (s.senders rank).round⟩)).setSender rank
        ((s.senders rank).advance (x.sendRanks rank).length target buffered)) where
  channel source target' := by
    by_cases hRank : source = rank
    · subst hRank
      by_cases hSame : target' = target
      · subst hSame
        have hSend : ChannelInv x source target' ((s.senders source).advance
            (x.sendRanks source).length target' buffered).view (s.receivers target').view
            ((s.data source target').send ⟨source, target', (s.senders source).round⟩) :=
          (h.channel source target').send hTarget buffered
        simpa [State.setSender, State.setData] using hSend
      · have hSend := (h.channel source target').send_other hTarget hSame buffered
        rw [← Sender.view_advance] at hSend
        simpa [State.setSender, State.setData, hSame] using hSend
    · simpa [State.setSender, State.setData, hRank] using h.channel source target'
  quiet source target' hNot := by
    by_cases hSame : source = rank ∧ target' = target
    · obtain ⟨rfl, rfl⟩ := hSame
      exact absurd (List.mem_of_getElem? hTarget) hNot
    · simpa [State.setSender, State.setData, hSame] using h.quiet source target' hNot
  sender r := by
    by_cases hRank : r = rank
    · subst hRank
      simpa [State.setSender, State.setData] using (h.sender r).advance hPhase hTarget buffered
    · simpa [State.setSender, State.setData, hRank] using h.sender r
  receiver := h.receiver
  sendRoot := by
    by_cases hRank : 0 = rank
    · subst hRank
      simpa [State.setSender, State.setData, Sender.advance] using h.sendRoot
    · simpa [State.setSender, State.setData, hRank] using h.sendRoot
  receiveRoot := h.receiveRoot
  root := by
    have hRoot := h.root
    have hChannel : ((s.setData rank target ((s.data rank target).send
        ⟨rank, target, (s.senders rank).round⟩)).data 0 0).probe = (s.data 0 0).probe := by
      by_cases hZero : 0 = rank ∧ 0 = target
      · obtain ⟨rfl, rfl⟩ := hZero
        simp [State.setData, FifoChannel.send, FifoChannel.probe]
      · simp [State.setData, hZero]
    have hData := hRoot.channels (fun _ hProbe => hChannel.trans hProbe) ⟨rfl, rfl⟩ ⟨rfl, rfl⟩ id
    by_cases hRank : 0 = rank
    · subst hRank
      rw [hPhase] at hData
      simp only [State.setSender, if_true, Sender.advance]
      split
      · exact ⟨hData.asked, hData.taken, hData.stopSent, hData.stopSeen, hData.probed,
          hData.checked, hData.going, hData.stopping⟩
      · exact hData
    · simpa [State.setSender, hRank] using hData

theorem receive (h : Inv x s) {rank source : Nat} {m : Message} {c : FifoChannel Message}
    (hSource : (x.receiveRanks rank)[(s.receivers rank).buffers.length]? = some source)
    (hPhase : (s.receivers rank).phase = .receiving)
    (hReceive : (s.data source rank).receive = some (m, c)) :
    Inv x ((s.setData source rank c).setReceiver rank
      { s.receivers rank with buffers := (s.receivers rank).buffers ++ [m] }) where
  channel source' target := by
    obtain ⟨-, hSent, hReceived⟩ := FifoChannel.receive_eq_some hReceive
    by_cases hRank : target = rank
    · subst hRank
      by_cases hSame : source' = source
      · subst hSame
        have hNext := (h.channel source' target).receive hSource hSent hReceived m
        simpa [State.setReceiver, State.setData, Receiver.view] using hNext
      · have hNext := (h.channel source' target).receive_other hSource hSame m
        simpa [State.setReceiver, State.setData, Receiver.view, hSame] using hNext
    · simpa [State.setReceiver, State.setData, hRank] using h.channel source' target
  quiet source' target hNot := by
    obtain ⟨-, hSent, -⟩ := FifoChannel.receive_eq_some hReceive
    have hOld := h.quiet source' target hNot
    by_cases hSame : source' = source ∧ target = rank
    · obtain ⟨rfl, rfl⟩ := hSame
      simpa [State.setReceiver, State.setData, hSent] using hOld
    · simpa [State.setReceiver, State.setData, hSame] using hOld
  sender := h.sender
  receiver r := by
    by_cases hRank : r = rank
    · subst hRank
      obtain ⟨hm, -, -⟩ := FifoChannel.receive_eq_some hReceive
      have hMessage := (h.channel source r).message hSource hm
      have hReceiver := (h.receiver r).receive hPhase hSource
      rw [hMessage]
      simpa [State.setReceiver, State.setData, Receiver.view] using hReceiver
    · simpa [State.setReceiver, State.setData, hRank] using h.receiver r
  sendRoot := h.sendRoot
  receiveRoot := by
    by_cases hRank : 0 = rank
    · subst hRank
      simpa [State.setReceiver, State.setData] using h.receiveRoot
    · simpa [State.setReceiver, State.setData, hRank] using h.receiveRoot
  root := by
    by_cases hRank : 0 = rank
    · subst hRank
      have hProbe : (s.receivers 0).phase = .probed → (s.data 0 0).probe = true →
          ((s.setData source 0 c).data 0 0).probe = true := fun hProbed => by
        rw [hPhase] at hProbed
        cases hProbed
      have hRoot := h.root.channels hProbe ⟨rfl, rfl⟩ ⟨rfl, rfl⟩ id
      simpa [State.setReceiver] using hRoot
    · simpa [State.setReceiver, State.setData, hRank] using h.root

theorem publish (h : Inv x s) {rank : Nat} (hPhase : (s.receivers rank).phase = .receiving)
    (hFull : (s.receivers rank).buffers.length = (x.receiveRanks rank).length) :
    Inv x (s.setReceiver rank { s.receivers rank with
      phase := .top
      buffers := []
      published := (s.receivers rank).published ++ [(s.receivers rank).buffers] }) where
  channel source target := by
    by_cases hRank : target = rank
    · subst hRank
      simpa [State.setReceiver, Receiver.view, ReceivePhase.view] using
        (h.channel source target).publish hFull
    · simpa [State.setReceiver, hRank] using h.channel source target
  quiet := h.quiet
  sender := h.sender
  receiver r := by
    by_cases hRank : r = rank
    · subst hRank
      simpa [State.setReceiver] using (h.receiver r).publish hPhase hFull
    · simpa [State.setReceiver, hRank] using h.receiver r
  sendRoot := h.sendRoot
  receiveRoot := by
    by_cases hRank : 0 = rank
    · subst hRank
      simpa [State.setReceiver] using h.receiveRoot
    · simpa [State.setReceiver, hRank] using h.receiveRoot
  root := by
    by_cases hRank : 0 = rank
    · subst hRank
      have hRoot := h.root
      rw [hPhase] at hRoot
      have hAsked : s.request.sent.length =
          ((s.receivers 0).published ++ [(s.receivers 0).buffers]).length := by
        rw [List.length_append]
        exact hRoot.asked
      simp only [State.setReceiver, if_true]
      exact ⟨hAsked, hRoot.taken, hRoot.stopSent, hRoot.stopSeen, nofun, nofun, hRoot.going,
        hRoot.stopping⟩
    · simpa [State.setReceiver, hRank] using h.root

theorem arrive (h : Inv x s) {source target : Nat} {c : FifoChannel Message}
    (hArrive : (s.data source target).arrive = some c) : Inv x (s.setData source target c) := by
  have hSent := FifoChannel.sent_arrive hArrive
  have hReceived := FifoChannel.received_arrive hArrive
  refine ⟨fun j i => ?_, fun j i hNot => ?_, h.sender, h.receiver, h.sendRoot, h.receiveRoot, ?_⟩
  · by_cases hChannel : j = source ∧ i = target
    · obtain ⟨rfl, rfl⟩ := hChannel
      simpa [State.setData] using (h.channel j i).congr rfl rfl rfl rfl hSent hReceived
    · simpa [State.setData, hChannel] using h.channel j i
  · have hOld := h.quiet j i hNot
    by_cases hChannel : j = source ∧ i = target
    · obtain ⟨rfl, rfl⟩ := hChannel
      simpa [State.setData, hSent] using hOld
    · simpa [State.setData, hChannel] using hOld
  · refine h.root.channels (fun _ hProbe => ?_) ⟨rfl, rfl⟩ ⟨rfl, rfl⟩ id
    by_cases hChannel : 0 = source ∧ 0 = target
    · obtain ⟨rfl, rfl⟩ := hChannel
      simpa [State.setData] using FifoChannel.probe_arrive hArrive hProbe
    · simpa [State.setData, hChannel] using hProbe

end Inv

theorem Inv.step {x : Exchange} {s s' : State} {a : Action} (h : Inv x s)
    (hStep : s.step x a = some s') : Inv x s' := by
  have hRoot := h.root
  cases a with
  | iprobeRequest =>
    simp only [State.step, Option.ite_none_right_eq_some] at hStep
    obtain ⟨⟨-, hPhase, hRounds⟩, hProbe⟩ := hStep
    rw [hPhase] at hRoot
    have hOld : (s.senders 0).phase ≠ .sending := by rw [hPhase]; decide
    split at hProbe
    · rename_i request hReceive
      obtain rfl := Option.some.inj hProbe
      exact h.senderPhase hOld (by rw [hPhase]; rfl) (fun _ _ => hRounds)
        (fun _ hFlags => absurd rfl (hFlags true)) (hRoot.takeRequest hReceive).1
    · obtain rfl := Option.some.inj hProbe
      exact h.senderPhase hOld (by rw [hPhase]; rfl) (fun _ _ => hRounds)
        (fun _ hFlags => absurd rfl (hFlags false)) (hRoot.sender rfl rfl)
  | bcastReady rank held =>
    simp only [State.step] at hStep
    split at hStep
    · rename_i hRank
      subst hRank
      split at hStep
      · rename_i flag hPhase
        obtain rfl := Option.some.inj hStep
        exact h.bcastReady hPhase held
      · cases hStep
    · rename_i hRank
      simp only [Option.ite_none_right_eq_some] at hStep
      obtain ⟨⟨-, -, hPhase, hRounds⟩, hTake⟩ := hStep
      obtain ⟨flag, hFlag, hSet⟩ := Option.bind_eq_some_iff.mp hTake
      obtain rfl := Option.some.inj hSet
      have hOld := h.sender rank
      have hSender := hOld.ready (hOld.idle (by rw [hPhase]; decide)) (by rw [hPhase]; rfl) hRounds
        hFlag held
      exact h.setSender rfl rfl hSender fun hZero => absurd hZero hRank
  | bcastReadyReturn rank =>
    simp only [State.step, Option.ite_none_right_eq_some, Option.some.injEq] at hStep
    obtain ⟨-, rfl⟩ := hStep
    exact h.setSender rfl rfl ((h.sender rank).unblock false) fun hZero => by
      subst hZero
      exact ⟨rfl, rfl⟩
  | send rank buffered =>
    obtain ⟨target, hTarget, hSend⟩ := Option.bind_eq_some_iff.mp hStep
    simp only [Option.ite_none_right_eq_some, Option.pure_def, Option.some.injEq] at hSend
    obtain ⟨⟨-, hPhase⟩, rfl⟩ := hSend
    exact h.send buffered hTarget hPhase
  | sendReturn rank =>
    obtain ⟨target, -, hReturn⟩ := Option.bind_eq_some_iff.mp hStep
    simp only [Option.ite_none_right_eq_some, Option.pure_def, Option.some.injEq] at hReturn
    obtain ⟨-, rfl⟩ := hReturn
    exact h.setSender rfl rfl (h.sender rank).sendReturn fun hZero => by
      subst hZero
      exact ⟨rfl, rfl⟩
  | recvRequest =>
    obtain ⟨⟨⟨⟩, request⟩, hReceive, hTake⟩ := Option.bind_eq_some_iff.mp hStep
    simp only [Option.ite_none_right_eq_some, Option.pure_def, Option.some.injEq] at hTake
    obtain ⟨⟨-, hPhase, hRounds⟩, rfl⟩ := hTake
    rw [hPhase] at hRoot
    exact h.senderLast (by rw [hPhase]; decide) (by rw [hPhase]; rfl) nofun hRounds
      (hRoot.takeRequest hReceive).2
  | sendStop buffered =>
    simp only [State.step, Option.ite_none_right_eq_some, Option.some.injEq] at hStep
    obtain ⟨hPhase, rfl⟩ := hStep
    rw [hPhase] at hRoot
    have hOld : (s.senders 0).phase ≠ .sending := by rw [hPhase]; decide
    have hRounds : (s.senders 0).bcasts = x.rounds :=
      (h.sender 0).last (by rw [hPhase]; decide) hOld (by rw [hPhase]; exact nofun)
    cases buffered with
    | false =>
      exact h.senderLast hOld (by rw [hPhase]; rfl) nofun hRounds (hRoot.sendStop rfl rfl)
    | true =>
      exact h.senderLast hOld (by rw [hPhase]; rfl) nofun hRounds (hRoot.sendStop rfl rfl)
  | sendStopReturn =>
    simp only [State.step, Option.ite_none_right_eq_some, Option.some.injEq] at hStep
    obtain ⟨⟨hPhase, -⟩, rfl⟩ := hStep
    rw [hPhase] at hRoot
    have hOld : (s.senders 0).phase ≠ .sending := by rw [hPhase]; decide
    have hRounds : (s.senders 0).bcasts = x.rounds :=
      (h.sender 0).last (by rw [hPhase]; decide) hOld (by rw [hPhase]; exact nofun)
    exact h.senderLast hOld (by rw [hPhase]; rfl) nofun hRounds (hRoot.sender rfl rfl)
  | stopRound rank =>
    simp only [State.step, Option.ite_none_right_eq_some, Option.some.injEq] at hStep
    obtain ⟨⟨hRank, -, -, hPhase, hRounds⟩, rfl⟩ := hStep
    have hSender : SenderInv x rank { s.senders rank with phase := .returned } s.ready :=
      (h.sender rank).phase (by rw [hPhase]; decide) (by rw [hPhase]; rfl) (fun _ => rfl) nofun
        fun _ _ => hRounds
    exact h.setSender rfl rfl hSender fun hZero => absurd hZero hRank
  | arrive source target =>
    obtain ⟨c, hArrive, hSet⟩ := Option.bind_eq_some_iff.mp hStep
    obtain rfl := Option.some.inj hSet
    exact h.arrive hArrive
  | arriveRequest =>
    obtain ⟨c, hArrive, hSet⟩ := Option.bind_eq_some_iff.mp hStep
    obtain rfl := Option.some.inj hSet
    have hChannel :=
      And.intro (FifoChannel.sent_arrive hArrive) (FifoChannel.received_arrive hArrive)
    exact ⟨h.channel, h.quiet, h.sender, h.receiver, h.sendRoot, h.receiveRoot,
      hRoot.channels (fun _ => id) hChannel ⟨rfl, rfl⟩ id⟩
  | arriveStop =>
    obtain ⟨c, hArrive, hSet⟩ := Option.bind_eq_some_iff.mp hStep
    obtain rfl := Option.some.inj hSet
    have hChannel :=
      And.intro (FifoChannel.sent_arrive hArrive) (FifoChannel.received_arrive hArrive)
    exact ⟨h.channel, h.quiet, h.sender, h.receiver, h.sendRoot, h.receiveRoot,
      hRoot.channels (fun _ => id) ⟨rfl, rfl⟩ hChannel (FifoChannel.probe_arrive hArrive)⟩
  | sendRequest buffered =>
    simp only [State.step, Option.ite_none_right_eq_some, Option.some.injEq] at hStep
    obtain ⟨hPhase, rfl⟩ := hStep
    rw [hPhase] at hRoot
    have hStarted : (s.receivers 0).phase.view.started = 0 := by rw [hPhase]; rfl
    cases buffered with
    | false => exact h.receiverPhase hStarted rfl (hRoot.sendRequest rfl rfl nofun nofun)
    | true => exact h.receiverPhase hStarted rfl (hRoot.sendRequest rfl rfl nofun nofun)
  | sendRequestReturn =>
    simp only [State.step, Option.ite_none_right_eq_some, Option.some.injEq] at hStep
    obtain ⟨⟨hPhase, -⟩, rfl⟩ := hStep
    rw [hPhase] at hRoot
    exact h.receiverPhase (by rw [hPhase]; rfl) rfl (hRoot.receiver rfl rfl nofun nofun)
  | probe =>
    simp only [State.step, Option.ite_none_right_eq_some, Option.some.injEq] at hStep
    obtain ⟨⟨hPhase, hProbe⟩, rfl⟩ := hStep
    rw [hPhase] at hRoot
    have hFound := (Bool.or_eq_true _ _).mp hProbe
    exact h.receiverPhase (by rw [hPhase]; rfl) rfl
      (hRoot.receiver rfl rfl (fun _ => hFound) nofun)
  | iprobeStop =>
    simp only [State.step, Option.ite_none_right_eq_some] at hStep
    obtain ⟨hPhase, hProbe⟩ := hStep
    rw [hPhase] at hRoot
    split at hProbe
    · rename_i stop hReceive
      obtain rfl := Option.some.inj hProbe
      exact h.receiverPhase (by rw [hPhase]; rfl) rfl (hRoot.takeStop hReceive)
    · rename_i hReceive
      obtain rfl := Option.some.inj hProbe
      have hMore := h.published_lt hPhase hReceive
      exact h.receiverPhase (by rw [hPhase]; rfl) rfl
        (hRoot.receiver rfl rfl nofun fun _ => hMore)
  | bcastStop rank held =>
    simp only [State.step] at hStep
    split at hStep
    · rename_i hRank
      subst hRank
      split at hStep
      · rename_i flag hPhase
        obtain rfl := Option.some.inj hStep
        exact h.bcastStop hPhase held
      · cases hStep
    · rename_i hRank
      simp only [Option.ite_none_right_eq_some] at hStep
      obtain ⟨⟨-, hPhase⟩, hTake⟩ := hStep
      obtain ⟨flag, hFlag, hSet⟩ := Option.bind_eq_some_iff.mp hTake
      obtain rfl := Option.some.inj hSet
      exact h.setReceiver rfl rfl ((h.receiver rank).stopFlag (by rw [hPhase]; rfl) hFlag held)
        fun hZero => absurd hZero hRank
  | bcastStopReturn rank =>
    simp only [State.step, Option.ite_none_right_eq_some, Option.some.injEq] at hStep
    obtain ⟨-, rfl⟩ := hStep
    exact h.setReceiver rfl rfl (h.receiver rank).release fun hZero => by
      subst hZero
      exact ⟨rfl, rfl⟩
  | receive rank =>
    obtain ⟨source, hSource, hReceive⟩ := Option.bind_eq_some_iff.mp hStep
    simp only [Option.ite_none_right_eq_some] at hReceive
    obtain ⟨⟨-, hPhase⟩, hReceive⟩ := hReceive
    obtain ⟨⟨m, c⟩, hMessage, hSet⟩ := Option.bind_eq_some_iff.mp hReceive
    obtain rfl := Option.some.inj hSet
    exact h.receive hSource hPhase hMessage
  | publish rank =>
    simp only [State.step, Option.ite_none_right_eq_some, Option.some.injEq] at hStep
    obtain ⟨⟨-, hPhase, hFull⟩, rfl⟩ := hStep
    exact h.publish hPhase hFull

namespace Inv

variable {x : Exchange} {s : State}

theorem sent_eq (h : Inv x s) {source target k : Nat}
    (hk : (x.sendRanks source)[k]? = some target) :
    (s.data source target).sent.length =
      (s.senders source).round + if k < (s.senders source).next then 1 else 0 :=
  (h.channel source target).sent_length k hk

/-- A receiver that returned has the messages of all announced rounds. -/
theorem announced_of_returned (h : Inv x s) {rank : Nat}
    (hReturned : (s.receivers rank).phase = .returned) :
    (s.receivers rank).published.length = s.ready.count true ∧
      (s.senders 0).phase.stopSent = 1 :=
  h.root.stopping _ ((h.receiver rank).view.returned (congrArg ReceivePhase.view hReturned))

/-- Nothing is left on the channels to a receiver that returned. -/
theorem drained_of_returned (h : Inv x s) {rank : Nat}
    (hReturned : (s.receivers rank).phase = .returned) (source : Nat) :
    (s.data source rank).Drained := by
  have hReceivedLe := (s.data source rank).received_le
  have hArrivedLe := (s.data source rank).arrived_le
  rw [FifoChannel.Drained]
  by_cases hTarget : rank ∈ x.sendRanks source
  · have hReceived := h.received_ge (x.mem_sendRanks_iff.mp hTarget)
    have hSent := h.sent_le hTarget
    have hCount : (s.ready.take (s.senders source).bcasts).count true ≤ s.ready.count true :=
      List.Sublist.count_le _ (List.take_sublist _ _)
    have hPublished := (h.announced_of_returned hReturned).1
    omega
  · have hQuiet := h.quiet source rank hTarget
    rw [hQuiet, List.length_nil] at hArrivedLe ⊢
    omega

end Inv

theorem inv_of_reachable {x : Exchange} {s : State} (h : (asyncMachine x).Reachable s) : Inv x s :=
  h.invariant (Inv.new x) fun _ _ _ hInv hStep => hInv.step hStep

inductive Event where
  | requestTaken | dataRound | stopSent
  deriving DecidableEq

/-- The events of a step. A data round begins when its flag is broadcast. -/
def State.record (s : State) (a : Action) (log : List Event) : List Event :=
  match a with
  | .iprobeRequest => if s.request.probe then log ++ [.requestTaken] else log
  | .recvRequest => log ++ [.requestTaken]
  | .bcastReady rank _ =>
    if rank = 0 ∧ (s.senders 0).phase = .checked true then log ++ [.dataRound] else log
  | .sendStop _ => log ++ [.stopSent]
  | _ => log

abbrev loggedMachine (x : Exchange) : Machine (State × List Event) Action :=
  (asyncMachine x).withHistory [] State.record

/-- `n` data rounds, each after a request of its own. -/
def dataRounds (n : Nat) : List Event := (List.replicate n [.requestTaken, .dataRound]).flatten

/-- What follows the data rounds. -/
def SendPhase.tail : SendPhase → List Event
  | .checked true | .unblocked => [.requestTaken]
  | .stopping | .returned => [.requestTaken, .stopSent]
  | .top | .checked false | .sending => []

def Logged (s : State) (log : List Event) : Prop :=
  log = dataRounds (s.ready.count true) ++ (s.senders 0).phase.tail

theorem Logged.congr {s s' : State} {log : List Event} (h : Logged s log)
    (hReady : s'.ready = s.ready)
    (hTail : (s'.senders 0).phase.tail = (s.senders 0).phase.tail) : Logged s' log := by
  rw [Logged, hReady, hTail]
  exact h

theorem Logged.setSender {s : State} {log : List Event} (h : Logged s log) {rank : Nat}
    {sender : Sender} (hTail : sender.phase.tail = (s.senders rank).phase.tail) :
    Logged (s.setSender rank sender) log := by
  refine h.congr rfl ?_
  by_cases hRank : 0 = rank
  · subst hRank
    simpa [State.setSender] using hTail
  · simp [State.setSender, hRank]

theorem dataRounds_succ (n : Nat) :
    dataRounds (n + 1) = dataRounds n ++ [.requestTaken, .dataRound] := by
  rw [dataRounds, List.replicate_succ', List.flatten_append]
  rfl

theorem Logged.step {x : Exchange} {s s' : State} {a : Action} {log : List Event}
    (h : Logged s log) (hStep : s.step x a = some s') : Logged s' (s.record a log) := by
  cases a with
  | iprobeRequest =>
    simp only [State.step, Option.ite_none_right_eq_some] at hStep
    obtain ⟨⟨-, hPhase, -⟩, hProbe⟩ := hStep
    rw [Logged, hPhase] at h
    split at hProbe
    · rename_i request hReceive
      obtain rfl := Option.some.inj hProbe
      rw [State.record, if_pos (FifoChannel.probe_of_receive hReceive), h, List.append_assoc]
      rfl
    · rename_i hReceive
      obtain rfl := Option.some.inj hProbe
      rw [State.record, if_neg (FifoChannel.not_probe_of_receive hReceive)]
      exact h
  | bcastReady rank held =>
    simp only [State.step] at hStep
    split at hStep
    · rename_i hRank
      subst hRank
      split at hStep
      · rename_i flag hPhase
        obtain rfl := Option.some.inj hStep
        rw [Logged, hPhase] at h
        cases flag with
        | false =>
          rw [State.record, if_neg (by simp [hPhase]), h]
          simp [Logged, State.setSender, Sender.ready, SendPhase.tail]
        | true =>
          rw [State.record, if_pos ⟨rfl, hPhase⟩, h]
          simp [Logged, State.setSender, Sender.ready, SendPhase.tail, dataRounds_succ]
      · cases hStep
    · rename_i hRank
      simp only [Option.ite_none_right_eq_some] at hStep
      obtain ⟨⟨-, -, hPhase, -⟩, hTake⟩ := hStep
      obtain ⟨flag, hFlag, hSet⟩ := Option.bind_eq_some_iff.mp hTake
      obtain rfl := Option.some.inj hSet
      rw [State.record, if_neg fun hRoot => hRank hRoot.1]
      apply h.setSender
      rw [hPhase]
      cases flag with
      | false => rfl
      | true => rfl
  | bcastReadyReturn rank =>
    simp only [State.step, Option.ite_none_right_eq_some, Option.some.injEq] at hStep
    obtain ⟨-, rfl⟩ := hStep
    exact h.setSender rfl
  | send rank buffered =>
    obtain ⟨target, hTarget, hSend⟩ := Option.bind_eq_some_iff.mp hStep
    simp only [Option.ite_none_right_eq_some, Option.pure_def, Option.some.injEq] at hSend
    obtain ⟨⟨-, hPhase⟩, rfl⟩ := hSend
    have hData : Logged (s.setData rank target ((s.data rank target).send
        ⟨rank, target, (s.senders rank).round⟩)) log := h.congr rfl rfl
    apply hData.setSender
    rw [State.setData_senders, hPhase, Sender.advance]
    split
    · rfl
    · rfl
  | sendReturn rank =>
    obtain ⟨target, -, hReturn⟩ := Option.bind_eq_some_iff.mp hStep
    simp only [Option.ite_none_right_eq_some, Option.pure_def, Option.some.injEq] at hReturn
    obtain ⟨-, rfl⟩ := hReturn
    exact h.setSender rfl
  | recvRequest =>
    obtain ⟨⟨⟨⟩, request⟩, hReceive, hTake⟩ := Option.bind_eq_some_iff.mp hStep
    simp only [Option.ite_none_right_eq_some, Option.pure_def, Option.some.injEq] at hTake
    obtain ⟨⟨-, hPhase, -⟩, rfl⟩ := hTake
    rw [Logged, hPhase] at h
    rw [State.record, h, List.append_assoc]
    rfl
  | sendStop buffered =>
    simp only [State.step, Option.ite_none_right_eq_some, Option.some.injEq] at hStep
    obtain ⟨hPhase, rfl⟩ := hStep
    rw [Logged, hPhase] at h
    rw [State.record, h, List.append_assoc]
    cases buffered with
    | false => rfl
    | true => rfl
  | sendStopReturn =>
    simp only [State.step, Option.ite_none_right_eq_some, Option.some.injEq] at hStep
    obtain ⟨⟨hPhase, -⟩, rfl⟩ := hStep
    apply h.setSender
    rw [hPhase]
    rfl
  | stopRound rank =>
    simp only [State.step, Option.ite_none_right_eq_some, Option.some.injEq] at hStep
    obtain ⟨⟨hRank, -⟩, rfl⟩ := hStep
    refine h.congr rfl ?_
    simp [State.setSender, Ne.symm hRank]
  | arrive source target =>
    obtain ⟨c, -, hSet⟩ := Option.bind_eq_some_iff.mp hStep
    obtain rfl := Option.some.inj hSet
    exact h.congr rfl rfl
  | arriveRequest =>
    obtain ⟨c, -, hSet⟩ := Option.bind_eq_some_iff.mp hStep
    obtain rfl := Option.some.inj hSet
    exact h.congr rfl rfl
  | arriveStop =>
    obtain ⟨c, -, hSet⟩ := Option.bind_eq_some_iff.mp hStep
    obtain rfl := Option.some.inj hSet
    exact h.congr rfl rfl
  | sendRequest buffered =>
    simp only [State.step, Option.ite_none_right_eq_some, Option.some.injEq] at hStep
    obtain ⟨-, rfl⟩ := hStep
    exact h.congr rfl rfl
  | sendRequestReturn =>
    simp only [State.step, Option.ite_none_right_eq_some, Option.some.injEq] at hStep
    obtain ⟨-, rfl⟩ := hStep
    exact h.congr rfl rfl
  | probe =>
    simp only [State.step, Option.ite_none_right_eq_some, Option.some.injEq] at hStep
    obtain ⟨-, rfl⟩ := hStep
    exact h.congr rfl rfl
  | iprobeStop =>
    simp only [State.step, Option.ite_none_right_eq_some] at hStep
    obtain ⟨-, hProbe⟩ := hStep
    split at hProbe
    · obtain rfl := Option.some.inj hProbe
      exact h.congr rfl rfl
    · obtain rfl := Option.some.inj hProbe
      exact h.congr rfl rfl
  | bcastStop rank held =>
    simp only [State.step] at hStep
    split at hStep
    · split at hStep
      · obtain rfl := Option.some.inj hStep
        exact h.congr rfl rfl
      · cases hStep
    · simp only [Option.ite_none_right_eq_some] at hStep
      obtain ⟨flag, -, hSet⟩ := Option.bind_eq_some_iff.mp hStep.2
      obtain rfl := Option.some.inj hSet
      exact h.congr rfl rfl
  | bcastStopReturn rank =>
    simp only [State.step, Option.ite_none_right_eq_some, Option.some.injEq] at hStep
    obtain ⟨-, rfl⟩ := hStep
    exact h.congr rfl rfl
  | receive rank =>
    obtain ⟨source, -, hReceive⟩ := Option.bind_eq_some_iff.mp hStep
    simp only [Option.ite_none_right_eq_some] at hReceive
    obtain ⟨p, -, hSet⟩ := Option.bind_eq_some_iff.mp hReceive.2
    obtain rfl := Option.some.inj hSet
    exact h.congr rfl rfl
  | publish rank =>
    simp only [State.step, Option.ite_none_right_eq_some, Option.some.injEq] at hStep
    obtain ⟨-, rfl⟩ := hStep
    exact h.congr rfl rfl

theorem logged_of_reachable {x : Exchange} {s : State} {log : List Event}
    (h : (loggedMachine x).Reachable (s, log)) : Logged s log := by
  have hInitial : Logged State.new [] := rfl
  refine Machine.Reachable.invariant (M := loggedMachine x)
    (I := fun p : State × List Event => Logged p.1 p.2) hInitial ?_ h
  intro p a p' hLogged hStep
  obtain ⟨hStep, hRecord⟩ := Machine.withHistory_step_eq_some.mp hStep
  exact hRecord ▸ hLogged.step hStep

end Henson.Tools.Async
