import Henson.Tools.Async
import Henson.Tools.Shutdown

/-!
# The invariant of the asynchronous mode

The two ranks 0 count the requests, the announced data rounds and the iterations of
the receive loop against each other. Every other rank follows the broadcasts of its
rank 0 and meets its partners on the data channels, which carry the messages of the
announced rounds in their order.
-/

namespace Henson.Tools.Async

open TransitionSystem

namespace SendPhase

/-- A data round that has begun and is not counted yet. -/
def begun : SendPhase → Nat
  | .sending => 1
  | _ => 0

/-- A request that was taken for no announced round. -/
def taken : SendPhase → Nat
  | .checked flag => flag.toNat
  | .unblocked | .stopping | .returned => 1
  | .top | .sending => 0

def stopSent : SendPhase → Nat
  | .stopping | .returned => 1
  | _ => 0

theorem ne_sending {phase phase' : SendPhase} (h : phase'.begun = phase.begun)
    (hPhase : phase ≠ .sending) : phase' ≠ .sending := by
  rintro rfl
  cases phase with
  | sending => exact hPhase rfl
  | _ => cases h

end SendPhase

namespace ReceivePhase

/-- The request of an iteration that is not counted yet. -/
def asked : ReceivePhase → Nat
  | .top => 0
  | _ => 1

def stopSeen : ReceivePhase → Nat
  | .checked stop => stop.toNat
  | .returned => 1
  | _ => 0

def view : ReceivePhase → Tools.ReceivePhase
  | .top | .requesting | .requested => .top
  | .probed | .checked _ => .probed
  | .receiving => .receiving
  | .returned => .returned

end ReceivePhase

/-- The part of a rank that the data channels see. -/
def Sender.view (sender : Sender) : Tools.Sender where
  round := sender.round
  next := sender.next
  waiting := sender.waiting

def Receiver.view (receiver : Receiver) : Tools.Receiver where
  phase := receiver.phase.view
  bcasts := receiver.bcasts
  buffers := receiver.buffers
  published := receiver.published

theorem Sender.view_advance (sender : Sender) (partners target : Nat) (buffered : Bool) :
    (sender.advance partners target buffered).view =
      sender.view.advance partners target buffered := rfl

structure SenderInv (x : Exchange) (rank : Nat) (sender : Sender) (ready : List Bool) : Prop where
  rounds : sender.round + sender.phase.begun = (ready.take sender.bcasts).count true
  current : sender.phase = .sending →
    sender.round = (ready.take (sender.bcasts - 1)).count true
  idle : sender.phase ≠ .sending → sender.next = 0
  next : sender.phase = .sending → sender.next < (x.sendRanks rank).length
  bcasts_le : sender.bcasts ≤ ready.length
  le_rounds : sender.bcasts ≤ x.rounds
  checked : ∀ flag, sender.phase = .checked flag → sender.bcasts < x.rounds
  follower : rank ≠ 0 → sender.phase = .top ∨ sender.phase = .sending ∨ sender.phase = .returned
  last : sender.phase ≠ .top → sender.phase ≠ .sending → (∀ flag, sender.phase ≠ .checked flag) →
    sender.bcasts = x.rounds
  waiting : ∀ target, sender.waiting = some target → target ∈ x.sendRanks rank

structure ReceiverInv (x : Exchange) (rank : Nat) (receiver : Receiver) (stops : List Bool) :
    Prop where
  view : Tools.ReceiverInv x rank receiver.view stops
  bcasts_le : receiver.bcasts ≤ stops.length
  receiving : receiver.phase = .receiving → stops[receiver.published.length]? = some false
  follower : rank ≠ 0 →
    receiver.phase = .top ∨ receiver.phase = .receiving ∨ receiver.phase = .returned

/-- What the two ranks 0 know of each other: `sent` and `received` are their phases, `published`
the iterations that the receiver has completed. -/
structure RootInv (sent : SendPhase) (received : ReceivePhase) (published : Nat)
    (c : FifoChannel Message) (request stop : FifoChannel Unit) (ready stops : List Bool) :
    Prop where
  asked : request.sent.length = published + received.asked
  taken : request.received = ready.count true + sent.taken
  stopSent : stop.sent.length = sent.stopSent
  stopSeen : stop.received = received.stopSeen
  probed : received = .probed → c.probe = true ∨ stop.probe = true
  checked : received = .checked false → published < ready.count true
  going : ∀ k, stops[k]? = some false → k < ready.count true
  stopping : ∀ k, stops[k]? = some true → k = ready.count true ∧ sent.stopSent = 1

structure Inv (x : Exchange) (s : State) : Prop where
  channel : ∀ source target, ChannelInv x source target (s.senders source).view
    (s.receivers target).view (s.data source target)
  quiet : ∀ source target, target ∉ x.sendRanks source → (s.data source target).sent = []
  sender : ∀ rank, SenderInv x rank (s.senders rank) s.ready
  receiver : ∀ rank, ReceiverInv x rank (s.receivers rank) s.stops
  sendRoot : (s.senders 0).bcasts = s.ready.length
  receiveRoot : (s.receivers 0).bcasts = s.stops.length
  root : RootInv (s.senders 0).phase (s.receivers 0).phase (s.receivers 0).published.length
    (s.data 0 0) s.request s.stop s.ready s.stops

section Components

variable {x : Exchange} {rank : Nat} {sender : Sender} {receiver : Receiver} {flags : List Bool}

theorem count_take_le {l : List Bool} {i j : Nat} (h : i ≤ j) :
    (l.take i).count true ≤ (l.take j).count true :=
  (List.take_sublist_take_left h).count_le true

theorem SenderInv.extend (h : SenderInv x rank sender flags) (more : List Bool) :
    SenderInv x rank sender (flags ++ more) where
  rounds := by rw [List.take_append_of_le_length h.bcasts_le, h.rounds]
  current hPhase := by
    have hLe := (Nat.sub_le _ 1).trans h.bcasts_le
    rw [List.take_append_of_le_length hLe, h.current hPhase]
  idle := h.idle
  next := h.next
  bcasts_le := by
    rw [List.length_append]
    exact h.bcasts_le.trans (Nat.le_add_right _ _)
  le_rounds := h.le_rounds
  checked := h.checked
  follower := h.follower
  last := h.last
  waiting := h.waiting

theorem SenderInv.rounds_le (h : SenderInv x rank sender flags) :
    sender.round + sender.phase.begun ≤ flags.count true := by
  rw [h.rounds]
  exact List.Sublist.count_le _ (List.take_sublist _ _)

theorem SenderInv.ready (h : SenderInv x rank sender flags) (hNext : sender.next = 0)
    (hBegun : sender.phase.begun = 0) (hRounds : sender.bcasts < x.rounds) {flag : Bool}
    (hFlag : flags[sender.bcasts]? = some flag) (held : Bool) :
    SenderInv x rank (sender.ready flag held) flags where
  rounds := by
    have hOld := h.rounds
    rw [hBegun, Nat.add_zero] at hOld
    have hTake : flags.take (sender.bcasts + 1) = flags.take sender.bcasts ++ [flag] := by
      rw [List.take_add_one, hFlag]
      rfl
    simp only [Sender.ready, hTake, List.count_append, ← hOld]
    cases flag with
    | false => rfl
    | true => rfl
  current _ := by
    have hOld := h.rounds
    rw [hBegun, Nat.add_zero] at hOld
    exact hOld
  idle _ := hNext
  next _ := by
    simp only [Sender.ready, hNext]
    exact x.sendRanks_pos rank
  bcasts_le := (List.getElem?_eq_some_iff.mp hFlag).1
  le_rounds := hRounds
  checked flag' hPhase := by
    cases flag with
    | false => cases hPhase
    | true => cases hPhase
  follower _ := by
    cases flag with
    | false => exact .inl rfl
    | true => exact .inr (.inl rfl)
  last hTop hSending _ := by
    cases flag with
    | false => exact absurd rfl hTop
    | true => exact absurd rfl hSending
  waiting := h.waiting

theorem SenderInv.advance (h : SenderInv x rank sender flags) (hPhase : sender.phase = .sending)
    {target : Nat} (hTarget : (x.sendRanks rank)[sender.next]? = some target) (buffered : Bool) :
    SenderInv x rank (sender.advance (x.sendRanks rank).length target buffered) flags where
  rounds := by
    have hOld := h.rounds
    rw [hPhase] at hOld
    rw [← show _ = (flags.take (sender.advance _ target buffered).bcasts).count true from hOld]
    simp only [Sender.advance]
    split
    · rfl
    · rfl
  current hSending := by
    have hOld := h.current hPhase
    simp only [Sender.advance] at hSending ⊢
    split at hSending
    · cases hSending
    · rename_i hMore
      rw [if_neg hMore]
      exact hOld
  idle hIdle := by
    simp only [Sender.advance] at hIdle ⊢
    split at hIdle
    · rename_i hLast
      rw [if_pos hLast]
    · exact absurd rfl hIdle
  next hSending := by
    have hNext := h.next hPhase
    simp only [Sender.advance] at hSending ⊢
    split at hSending
    · cases hSending
    · rename_i hMore
      rw [if_neg hMore]
      omega
  bcasts_le := h.bcasts_le
  le_rounds := h.le_rounds
  checked flag hChecked := by
    simp only [Sender.advance] at hChecked
    split at hChecked
    · cases hChecked
    · cases hChecked
  follower _ := by
    simp only [Sender.advance]
    split
    · exact .inl rfl
    · exact .inr (.inl rfl)
  last hTop hSending _ := by
    simp only [Sender.advance] at hTop hSending
    split at hTop
    · exact absurd rfl hTop
    · rename_i hMore
      rw [if_neg hMore] at hSending
      exact absurd rfl hSending
  waiting target' hWaiting := by
    simp only [Sender.advance] at hWaiting
    split at hWaiting
    · cases hWaiting
    · obtain rfl := Option.some.inj hWaiting
      exact List.mem_of_getElem? hTarget

theorem SenderInv.phase (h : SenderInv x rank sender flags) {phase : SendPhase}
    (hOld : sender.phase ≠ .sending) (hBegun : phase.begun = sender.phase.begun)
    (hFollower : rank ≠ 0 → phase = .returned)
    (hChecked : ∀ flag, phase = .checked flag → sender.bcasts < x.rounds)
    (hLast : phase ≠ .top → (∀ flag, phase ≠ .checked flag) → sender.bcasts = x.rounds) :
    SenderInv x rank { sender with phase := phase } flags where
  rounds := hBegun ▸ h.rounds
  current hSending := absurd hSending (SendPhase.ne_sending hBegun hOld)
  idle _ := h.idle hOld
  next hSending := absurd hSending (SendPhase.ne_sending hBegun hOld)
  bcasts_le := h.bcasts_le
  le_rounds := h.le_rounds
  checked := hChecked
  follower hRank := .inr (.inr (hFollower hRank))
  last hTop _ hFlags := hLast hTop hFlags
  waiting := h.waiting

theorem SenderInv.unblock (h : SenderInv x rank sender flags) (inBcast : Bool) :
    SenderInv x rank { sender with inBcast := inBcast } flags :=
  ⟨h.rounds, h.current, h.idle, h.next, h.bcasts_le, h.le_rounds, h.checked, h.follower, h.last,
    h.waiting⟩

theorem SenderInv.sendReturn (h : SenderInv x rank sender flags) :
    SenderInv x rank { sender with waiting := none } flags :=
  ⟨h.rounds, h.current, h.idle, h.next, h.bcasts_le, h.le_rounds, h.checked, h.follower, h.last,
    fun _ hWaiting => by cases hWaiting⟩

theorem ReceiverInv.extend (h : ReceiverInv x rank receiver flags) (flag : Bool) :
    ReceiverInv x rank receiver (flags ++ [flag]) where
  view := h.view.flag flag
  bcasts_le := by
    rw [List.length_append]
    exact h.bcasts_le.trans (Nat.le_add_right _ _)
  receiving hPhase := by
    have hOld := h.receiving hPhase
    rw [List.getElem?_append_left (List.getElem?_eq_some_iff.mp hOld).1, hOld]
  follower := h.follower

theorem ReceiverInv.stopFlag (h : ReceiverInv x rank receiver flags) {flag : Bool}
    (hPhase : receiver.phase.view.started = 0) (hFlag : flags[receiver.bcasts]? = some flag)
    (held : Bool) : ReceiverInv x rank (receiver.stopFlag flag held) flags where
  view := by
    have hView := h.view.bcast hPhase hFlag
    cases flag with
    | false => exact hView
    | true => exact hView
  bcasts_le := (List.getElem?_eq_some_iff.mp hFlag).1
  receiving hReceiving := by
    have hBcasts : receiver.bcasts = receiver.published.length + receiver.phase.view.started :=
      h.view.bcasts
    rw [hPhase, Nat.add_zero] at hBcasts
    cases flag with
    | false => exact hBcasts ▸ hFlag
    | true => cases hReceiving
  follower _ := by
    cases flag with
    | false => exact .inr (.inl rfl)
    | true => exact .inr (.inr rfl)

theorem ReceiverInv.phase (h : ReceiverInv x 0 receiver flags) {phase : ReceivePhase}
    (hOld : receiver.phase.view.started = 0) (hNew : phase.view.started = 0) :
    ReceiverInv x 0 { receiver with phase := phase } flags where
  view := by
    refine ⟨h.view.buffers, h.view.published, fun _ => h.view.idle fun hReceiving => ?_, ?_,
      fun hReturned => ?_⟩
    · have hReceiving : receiver.phase.view = .receiving := hReceiving
      rw [hReceiving] at hOld
      cases hOld
    · have hBcasts : receiver.bcasts = receiver.published.length + receiver.phase.view.started :=
        h.view.bcasts
      rw [hOld] at hBcasts
      exact hBcasts.trans (congrArg (receiver.published.length + ·) hNew.symm)
    · have hReturned : phase.view = .returned := hReturned
      rw [hReturned] at hNew
      cases hNew
  bcasts_le := h.bcasts_le
  receiving hReceiving := by
    have hReceiving : phase = .receiving := hReceiving
    rw [hReceiving] at hNew
    cases hNew
  follower hRank := absurd rfl hRank

theorem ReceiverInv.release (h : ReceiverInv x rank receiver flags) :
    ReceiverInv x rank { receiver with inBcast := false } flags :=
  ⟨h.view, h.bcasts_le, h.receiving, h.follower⟩

theorem ReceiverInv.receive (h : ReceiverInv x rank receiver flags)
    (hPhase : receiver.phase = .receiving) {source : Nat}
    (hSource : (x.receiveRanks rank)[receiver.buffers.length]? = some source) :
    ReceiverInv x rank { receiver with
      buffers := receiver.buffers ++ [⟨source, rank, receiver.published.length⟩] } flags where
  view := h.view.receive (congrArg ReceivePhase.view hPhase) hSource
  bcasts_le := h.bcasts_le
  receiving := h.receiving
  follower := h.follower

theorem ReceiverInv.publish (h : ReceiverInv x rank receiver flags)
    (hPhase : receiver.phase = .receiving)
    (hFull : receiver.buffers.length = (x.receiveRanks rank).length) :
    ReceiverInv x rank { receiver with
      phase := .top
      buffers := []
      published := receiver.published ++ [receiver.buffers] } flags where
  view := h.view.publish (congrArg ReceivePhase.view hPhase) hFull
  bcasts_le := h.bcasts_le
  receiving hReceiving := by cases hReceiving
  follower _ := .inl rfl

end Components

namespace RootInv

variable {sent : SendPhase} {received : ReceivePhase} {published : Nat} {c : FifoChannel Message}
  {request stop : FifoChannel Unit} {ready stops : List Bool}

theorem sender (h : RootInv sent received published c request stop ready stops)
    {sent' : SendPhase} (hTaken : sent'.taken = sent.taken)
    (hStop : sent'.stopSent = sent.stopSent) :
    RootInv sent' received published c request stop ready stops where
  asked := h.asked
  taken := hTaken ▸ h.taken
  stopSent := hStop ▸ h.stopSent
  stopSeen := h.stopSeen
  probed := h.probed
  checked := h.checked
  going := h.going
  stopping k hk := hStop ▸ h.stopping k hk

theorem receiver (h : RootInv sent received published c request stop ready stops)
    {received' : ReceivePhase} (hAsked : received'.asked = received.asked)
    (hSeen : received'.stopSeen = received.stopSeen)
    (hProbed : received' = .probed → c.probe = true ∨ stop.probe = true)
    (hChecked : received' = .checked false → published < ready.count true) :
    RootInv sent received' published c request stop ready stops where
  asked := hAsked ▸ h.asked
  taken := h.taken
  stopSent := h.stopSent
  stopSeen := hSeen ▸ h.stopSeen
  probed := hProbed
  checked := hChecked
  going := h.going
  stopping := h.stopping

theorem takeStop (h : RootInv sent .probed published c request stop ready stops)
    {stop' : FifoChannel Unit} (hReceive : stop.receive = some ((), stop')) :
    RootInv sent (.checked true) published c request stop' ready stops where
  asked := h.asked
  taken := h.taken
  stopSent := (FifoChannel.receive_eq_some hReceive).2.1 ▸ h.stopSent
  stopSeen := by
    rw [(FifoChannel.receive_eq_some hReceive).2.2, h.stopSeen]
    rfl
  probed := nofun
  checked := nofun
  going := h.going
  stopping := h.stopping

theorem takeRequest (h : RootInv .top received published c request stop ready stops)
    {request' : FifoChannel Unit} (hReceive : request.receive = some ((), request')) :
    RootInv (.checked true) received published c request' stop ready stops ∧
      RootInv .unblocked received published c request' stop ready stops := by
  obtain ⟨-, hSent, hReceived⟩ := FifoChannel.receive_eq_some hReceive
  have hAsked : request'.sent.length = published + received.asked := hSent ▸ h.asked
  have hTaken : request'.received = ready.count true + 1 := by
    rw [hReceived, h.taken]
    rfl
  exact ⟨⟨hAsked, hTaken, h.stopSent, h.stopSeen, h.probed, h.checked, h.going, h.stopping⟩,
    ⟨hAsked, hTaken, h.stopSent, h.stopSeen, h.probed, h.checked, h.going, h.stopping⟩⟩

theorem bcastReady {flag : Bool}
    (h : RootInv (.checked flag) received published c request stop ready stops) :
    RootInv (if flag then .sending else .top) received published c request stop
      (ready ++ [flag]) stops := by
  have hCount : (ready ++ [flag]).count true = ready.count true + flag.toNat := by
    rw [List.count_append]
    cases flag with
    | false => rfl
    | true => rfl
  have hTaken : request.received = (ready ++ [flag]).count true := hCount ▸ h.taken
  have hStopping : ∀ k, stops[k]? ≠ some true := fun k hk => by
    obtain ⟨-, hSent⟩ := h.stopping k hk
    cases hSent
  refine ⟨h.asked, ?_, ?_, h.stopSeen, h.probed, fun hChecked => ?_, fun k hk => ?_,
    fun k hk => absurd hk (hStopping k)⟩
  · cases flag with
    | false => exact hTaken
    | true => exact hTaken
  · cases flag with
    | false => exact h.stopSent
    | true => exact h.stopSent
  · have hOld := h.checked hChecked
    omega
  · have hOld := h.going k hk
    omega

theorem sendStop (h : RootInv .unblocked received published c request stop ready stops)
    {sent : SendPhase} (hTaken : sent.taken = 1) (hStop : sent.stopSent = 1) :
    RootInv sent received published c request (stop.send ()) ready stops where
  asked := h.asked
  taken := hTaken.symm ▸ h.taken
  stopSent := by
    have hOld := h.stopSent
    simp only [FifoChannel.send, List.length_append, List.length_singleton, hStop, hOld]
    rfl
  stopSeen := h.stopSeen
  probed := h.probed
  checked := h.checked
  going := h.going
  stopping k hk := by
    obtain ⟨-, hSent⟩ := h.stopping k hk
    cases hSent

theorem sendRequest (h : RootInv sent .top published c request stop ready stops)
    {received : ReceivePhase} (hAsked : received.asked = 1) (hSeen : received.stopSeen = 0)
    (hProbed : received ≠ .probed) (hChecked : received ≠ .checked false) :
    RootInv sent received published c (request.send ()) stop ready stops where
  asked := by
    have hOld := h.asked
    simp only [FifoChannel.send, List.length_append, List.length_singleton, hAsked, hOld]
    rfl
  taken := h.taken
  stopSent := h.stopSent
  stopSeen := hSeen.symm ▸ h.stopSeen
  probed hPhase := absurd hPhase hProbed
  checked hPhase := absurd hPhase hChecked
  going := h.going
  stopping := h.stopping

theorem channels (h : RootInv sent received published c request stop ready stops)
    {c' : FifoChannel Message} {request' stop' : FifoChannel Unit}
    (hData : received = .probed → c.probe = true → c'.probe = true)
    (hRequest : request'.sent = request.sent ∧ request'.received = request.received)
    (hStop : stop'.sent = stop.sent ∧ stop'.received = stop.received)
    (hProbe : stop.probe = true → stop'.probe = true) :
    RootInv sent received published c' request' stop' ready stops where
  asked := hRequest.1 ▸ h.asked
  taken := hRequest.2 ▸ h.taken
  stopSent := hStop.1 ▸ h.stopSent
  stopSeen := hStop.2 ▸ h.stopSeen
  probed hPhase := (h.probed hPhase).imp (hData hPhase) hProbe
  checked := h.checked
  going := h.going
  stopping := h.stopping

theorem done (h : RootInv sent received published c request stop ready stops)
    (hLe : published ≤ ready.count true) (hSent : sent.stopSent = 1) :
    published = ready.count true ∧ request.Drained := by
  have hTaken : sent.taken = 1 := by
    cases sent with
    | stopping => rfl
    | returned => rfl
    | _ => cases hSent
  have hAsked := h.asked
  have hReceived := h.taken
  have hOrder := request.received_le
  have hArrived := request.arrived_le
  have hPhase : received.asked ≤ 1 := by
    cases received with
    | top => exact Nat.zero_le 1
    | _ => exact Nat.le_refl 1
  refine ⟨by omega, ?_⟩
  rw [FifoChannel.Drained]
  omega

theorem bcastStop {flag : Bool}
    (h : RootInv sent (.checked flag) published c request stop ready stops)
    (hLe : published ≤ ready.count true) (hIndex : stops.length = published) :
    RootInv sent (if flag then .returned else .receiving) published c request stop ready
      (stops ++ [flag]) := by
  have hNew : ∀ {k value}, (stops ++ [flag])[k]? = some value → stops[k]? = some value ∨
      k = published ∧ flag = value := fun {k value} hk => by
    rcases Nat.lt_or_ge k stops.length with hLt | hGe
    · rw [List.getElem?_append_left hLt] at hk
      exact .inl hk
    · have hLength := (List.getElem?_eq_some_iff.mp hk).1
      rw [List.length_append, List.length_singleton] at hLength
      obtain rfl : k = stops.length := by omega
      rw [List.getElem?_concat_length, Option.some.injEq] at hk
      exact .inr ⟨hIndex, hk⟩
  refine ⟨?_, h.taken, h.stopSent, ?_, fun hPhase => ?_, fun hPhase => ?_, fun k hk => ?_,
    fun k hk => ?_⟩
  · cases flag with
    | false => exact h.asked
    | true => exact h.asked
  · cases flag with
    | false => exact h.stopSeen
    | true => exact h.stopSeen
  · cases flag with
    | false => cases hPhase
    | true => cases hPhase
  · cases flag with
    | false => cases hPhase
    | true => cases hPhase
  · rcases hNew hk with hOld | ⟨rfl, rfl⟩
    · exact h.going k hOld
    · exact h.checked rfl
  · rcases hNew hk with hOld | ⟨rfl, rfl⟩
    · exact h.stopping k hOld
    · have hSeen : stop.received = 1 := h.stopSeen
      have hOrder := stop.received_le
      have hArrived := stop.arrived_le
      have hLength := h.stopSent
      have hSent : sent.stopSent = 1 := by
        cases hPhase : sent with
        | stopping => rfl
        | returned => rfl
        | _ =>
          rw [hPhase] at hLength
          simp only [SendPhase.stopSent] at hLength
          omega
      exact ⟨(h.done hLe hSent).1, hSent⟩

end RootInv

end Henson.Tools.Async
