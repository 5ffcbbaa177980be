import Mathlib.Data.List.Nodup
import Mathlib.Data.List.Range
import Henson.Tools.SendReceive

/-!
# Shutdown of the send and receive tools

Partners agree on each other. On every channel a round's message is the message
at that index, so what a receiver has published is counted by its rounds alone.
A run loses nothing as long as rank 0 of the receivers sees the stop message
only after it has received everything its partner, rank 0 of the senders, sent.
-/

namespace Henson.Tools

open TransitionSystem

theorem partnerRanks_of_dvd_left {size remoteSize : Nat} (hSize : 0 < size)
    (h : remoteSize ∣ size) (rank : Nat) :
    partnerRanks size remoteSize rank = some [rank / (size / remoteSize)] := by
  have hLe := Nat.le_of_dvd hSize h
  simp [partnerRanks, hLe, Nat.mod_eq_zero_of_dvd h]

theorem partnerRanks_of_dvd_right {size remoteSize : Nat} (h : size ∣ remoteSize)
    (hLt : size < remoteSize) (rank : Nat) :
    partnerRanks size remoteSize rank =
      some ((List.range (remoteSize / size)).map fun i => rank * (remoteSize / size) + i) := by
  have hNot : ¬ size ≥ remoteSize := by omega
  simp [partnerRanks, hNot, Nat.mod_eq_zero_of_dvd h]

theorem partnerRanks_zero {size remoteSize : Nat} (hSize : 0 < size) (hRemote : 0 < remoteSize)
    (h : size ∣ remoteSize ∨ remoteSize ∣ size) :
    ((partnerRanks size remoteSize 0).getD [])[0]? = some 0 := by
  by_cases hLt : size < remoteSize
  · have hDvd : size ∣ remoteSize :=
      h.resolve_right fun hDvd => by have := Nat.le_of_dvd hSize hDvd; omega
    have hFraction := Nat.div_pos hLt.le hSize
    rw [partnerRanks_of_dvd_right hDvd hLt]
    simp [hFraction]
  · have hDvd : remoteSize ∣ size := by
      rcases h with hDvd | hDvd
      · have hLe := Nat.le_of_dvd hRemote hDvd
        obtain rfl := Nat.le_antisymm hLe (not_lt.mp hLt)
        exact hDvd
      · exact hDvd
    rw [partnerRanks_of_dvd_left hSize hDvd]
    simp

theorem nodup_partnerRanks (size remoteSize rank : Nat) :
    ((partnerRanks size remoteSize rank).getD []).Nodup := by
  rw [partnerRanks]
  split_ifs
  · simp
  · simp
  · simp
  · exact List.nodup_range.map fun i j hij => Nat.add_left_cancel hij

theorem mem_partnerRanks_of_dvd_left {size remoteSize : Nat} (hSize : 0 < size)
    (h : remoteSize ∣ size) {rank rank' : Nat} :
    rank' ∈ (partnerRanks size remoteSize rank).getD [] ↔
      rank / (size / remoteSize) = rank' := by
  rw [partnerRanks_of_dvd_left hSize h, Option.getD_some, List.mem_singleton, eq_comm]

theorem mem_partnerRanks_of_dvd_right {size remoteSize : Nat} (hSize : 0 < size)
    (hRemote : 0 < remoteSize) (h : size ∣ remoteSize) {rank rank' : Nat} :
    rank' ∈ (partnerRanks size remoteSize rank).getD [] ↔
      rank' / (remoteSize / size) = rank := by
  rcases Nat.lt_or_eq_of_le (Nat.le_of_dvd hRemote h) with hLt | rfl
  · have hFraction := Nat.div_pos hLt.le hSize
    rw [partnerRanks_of_dvd_right h hLt, Option.getD_some, List.mem_map]
    constructor
    · rintro ⟨i, hi, rfl⟩
      rw [Nat.add_comm, Nat.add_mul_div_right _ _ hFraction,
        Nat.div_eq_of_lt (List.mem_range.mp hi), Nat.zero_add]
    · rintro rfl
      refine ⟨rank' % (remoteSize / size), List.mem_range.mpr (Nat.mod_lt _ hFraction), ?_⟩
      rw [Nat.mul_comm]
      exact Nat.div_add_mod _ _
  · rw [mem_partnerRanks_of_dvd_left hSize h, Nat.div_self hSize, Nat.div_one, Nat.div_one, eq_comm]

theorem mem_partnerRanks_comm {size remoteSize : Nat} (hSize : 0 < size)
    (hRemote : 0 < remoteSize) (h : size ∣ remoteSize ∨ remoteSize ∣ size) {rank rank' : Nat} :
    rank' ∈ (partnerRanks size remoteSize rank).getD [] ↔
      rank ∈ (partnerRanks remoteSize size rank').getD [] := by
  rcases h with hDvd | hDvd
  · rw [mem_partnerRanks_of_dvd_right hSize hRemote hDvd,
      mem_partnerRanks_of_dvd_left hRemote hDvd]
  · rw [mem_partnerRanks_of_dvd_left hSize hDvd,
      mem_partnerRanks_of_dvd_right hRemote hSize hDvd]

namespace Exchange

theorem mem_sendRanks_iff (x : Exchange) {sender receiver : Nat} :
    receiver ∈ x.sendRanks sender ↔ sender ∈ x.receiveRanks receiver :=
  mem_partnerRanks_comm x.senders_pos x.receivers_pos x.divides

theorem sendRanks_zero (x : Exchange) : (x.sendRanks 0)[0]? = some 0 :=
  partnerRanks_zero x.senders_pos x.receivers_pos x.divides

theorem receiveRanks_zero (x : Exchange) : (x.receiveRanks 0)[0]? = some 0 :=
  partnerRanks_zero x.receivers_pos x.senders_pos x.divides.symm

theorem ranks_cases (x : Exchange) :
    (∃ k, 0 < k ∧ x.senders = x.receivers * k ∧ (∀ rank, x.sendRanks rank = [rank / k]) ∧
        ∀ rank, x.receiveRanks rank = (List.range k).map (rank * k + ·)) ∨
      ∃ k, 0 < k ∧ x.senders < x.receivers ∧ x.receivers = x.senders * k ∧
        (∀ rank, x.sendRanks rank = (List.range k).map (rank * k + ·)) ∧
        ∀ rank, x.receiveRanks rank = [rank / k] := by
  rcases Nat.lt_or_ge x.senders x.receivers with hLt | hGe
  · have hDvd : x.senders ∣ x.receivers :=
      x.divides.resolve_right fun h => by have := Nat.le_of_dvd x.senders_pos h; omega
    refine .inr ⟨x.receivers / x.senders, Nat.div_pos hLt.le x.senders_pos, hLt,
      (Nat.mul_div_cancel' hDvd).symm, fun rank => ?_, fun rank => ?_⟩
    · rw [sendRanks, partnerRanks_of_dvd_right hDvd hLt]
      rfl
    · rw [receiveRanks, partnerRanks_of_dvd_left x.receivers_pos hDvd]
      rfl
  · have hDvd : x.receivers ∣ x.senders := by
      rcases x.divides with h | h
      · obtain hEq := Nat.le_antisymm (Nat.le_of_dvd x.receivers_pos h) hGe
        exact hEq ▸ Nat.dvd_refl x.senders
      · exact h
    refine .inl ⟨x.senders / x.receivers, Nat.div_pos hGe x.receivers_pos,
      (Nat.mul_div_cancel' hDvd).symm, fun rank => ?_, fun rank => ?_⟩
    · rw [sendRanks, partnerRanks_of_dvd_left x.senders_pos hDvd]
      rfl
    · rcases Nat.lt_or_eq_of_le hGe with hLt | hEq
      · rw [receiveRanks, partnerRanks_of_dvd_right hDvd hLt]
        rfl
      · rw [receiveRanks, hEq, partnerRanks_of_dvd_left x.senders_pos (Nat.dvd_refl _),
          Nat.div_self x.senders_pos]
        simp

theorem sendRanks_pos (x : Exchange) (rank : Nat) : 0 < (x.sendRanks rank).length := by
  rcases x.ranks_cases with ⟨k, hk, -, hSend, -⟩ | ⟨k, hk, -, -, hSend, -⟩
  · rw [hSend]
    exact Nat.one_pos
  · rw [hSend, List.length_map, List.length_range]
    exact hk

theorem receiveRanks_pos (x : Exchange) (rank : Nat) : 0 < (x.receiveRanks rank).length := by
  rcases x.ranks_cases with ⟨k, hk, -, -, hReceive⟩ | ⟨k, -, -, -, -, hReceive⟩
  · rw [hReceive, List.length_map, List.length_range]
    exact hk
  · rw [hReceive]
    exact Nat.one_pos

theorem lt_of_mem_block {size k rank partner : Nat} (hRank : rank < size)
    (h : partner ∈ (List.range k).map (rank * k + ·)) : partner < size * k := by
  obtain ⟨i, hi, rfl⟩ := List.mem_map.mp h
  have hi := List.mem_range.mp hi
  calc rank * k + i < rank * k + k := by omega
    _ = (rank + 1) * k := (Nat.succ_mul rank k).symm
    _ ≤ size * k := Nat.mul_le_mul_right k hRank

theorem lt_of_mem_receiveRanks (x : Exchange) {q s : Nat} (hq : q < x.receivers)
    (hs : s ∈ x.receiveRanks q) : s < x.senders := by
  rcases x.ranks_cases with ⟨k, hk, hSize, -, hReceive⟩ | ⟨k, hk, -, hSize, -, hReceive⟩
  · rw [hReceive] at hs
    exact hSize ▸ lt_of_mem_block hq hs
  · rw [hReceive, List.mem_singleton] at hs
    rw [hs]
    exact Nat.div_lt_of_lt_mul (by rw [Nat.mul_comm, ← hSize]; exact hq)

theorem lt_of_mem_sendRanks (x : Exchange) {s q : Nat} (hs : s < x.senders)
    (hq : q ∈ x.sendRanks s) : q < x.receivers := by
  rcases x.ranks_cases with ⟨k, hk, hSize, hSend, -⟩ | ⟨k, hk, -, hSize, hSend, -⟩
  · rw [hSend, List.mem_singleton] at hq
    rw [hq]
    exact Nat.div_lt_of_lt_mul (by rw [Nat.mul_comm, ← hSize]; exact hs)
  · rw [hSend] at hq
    exact hSize ▸ lt_of_mem_block hs hq

theorem receiveRanks_of_ne (x : Exchange) {s q q' : Nat} (hq : q ∈ x.sendRanks s)
    (hq' : q' ∈ x.sendRanks s) (hNe : q' ≠ q) : x.receiveRanks q' = [s] := by
  rcases x.ranks_cases with ⟨k, -, -, hSend, -⟩ | ⟨k, -, -, -, -, hReceive⟩
  · rw [hSend, List.mem_singleton] at hq hq'
    exact absurd (hq'.trans hq.symm) hNe
  · have hs := x.mem_sendRanks_iff.mp hq'
    rw [hReceive, List.mem_singleton] at hs
    rw [hReceive, hs]

/-- What a receiver publishes in a round, if nothing is lost. -/
def roundMessages (x : Exchange) (receiver round : Nat) : List Message :=
  (x.receiveRanks receiver).map fun sender => ⟨sender, receiver, round⟩

end Exchange

/-- A channel carries one message a round; both ends count the rounds. -/
structure ChannelInv (x : Exchange) (source target : Nat) (sender : Sender) (receiver : Receiver)
    (c : FifoChannel Message) : Prop where
  sent : c.sent = (List.range c.sent.length).map fun round => ⟨source, target, round⟩
  sent_length : ∀ k, (x.sendRanks source)[k]? = some target →
    c.sent.length = sender.round + if k < sender.next then 1 else 0
  received : ∀ k, (x.receiveRanks target)[k]? = some source →
    c.received = receiver.published.length + if k < receiver.buffers.length then 1 else 0

structure SenderInv (x : Exchange) (sender : Sender) : Prop where
  next : sender.round = x.rounds → sender.next = 0
  stopped : sender.stopped = true → sender.round = x.rounds

def ReceivePhase.started : ReceivePhase → Nat
  | .top | .probed => 0
  | .receiving | .returned => 1

structure ReceiverInv (x : Exchange) (rank : Nat) (receiver : Receiver) (flags : List Bool) :
    Prop where
  buffers : receiver.buffers =
    (x.roundMessages rank receiver.published.length).take receiver.buffers.length
  published : receiver.published =
    (List.range receiver.published.length).map (x.roundMessages rank)
  idle : receiver.phase ≠ .receiving → receiver.buffers = []
  bcasts : receiver.bcasts = receiver.published.length + receiver.phase.started
  returned : receiver.phase = .returned → flags[receiver.published.length]? = some true

structure Inv (x : Exchange) (s : State) : Prop where
  channel : ∀ source target,
    ChannelInv x source target (s.senders source) (s.receivers target) (s.data source target)
  sender : ∀ rank, SenderInv x (s.senders rank)
  receiver : ∀ rank, ReceiverInv x rank (s.receivers rank) s.flags
  root : (s.receivers 0).bcasts = s.flags.length
  stop : s.stop.sent ≠ [] → (s.senders 0).stopped = true
  last : ∀ k, s.flags[k]? = some true → k = x.rounds

section Components

variable {x : Exchange} {source target rank : Nat} {sender : Sender} {receiver : Receiver}
  {c : FifoChannel Message} {flags : List Bool}

theorem index_unique {l : List Nat} (hNodup : l.Nodup) {k k' r : Nat} (h : l[k]? = some r)
    (h' : l[k']? = some r) : k = k' := by
  obtain ⟨hk, hr⟩ := List.getElem?_eq_some_iff.mp h
  obtain ⟨hk', hr'⟩ := List.getElem?_eq_some_iff.mp h'
  exact (hNodup.getElem_inj_iff).mp (hr.trans hr'.symm)

theorem Exchange.nodup_sendRanks (x : Exchange) (rank : Nat) : (x.sendRanks rank).Nodup :=
  nodup_partnerRanks _ _ _

theorem Exchange.nodup_receiveRanks (x : Exchange) (rank : Nat) : (x.receiveRanks rank).Nodup :=
  nodup_partnerRanks _ _ _

theorem Sender.advance_count (sender : Sender) {partners k : Nat} (hk : k < partners)
    (waiting : Nat) (buffered : Bool) :
    (sender.advance partners waiting buffered).round +
        (if k < (sender.advance partners waiting buffered).next then 1 else 0) =
      sender.round + (if k < sender.next then 1 else 0) + if k = sender.next then 1 else 0 := by
  simp only [Sender.advance]
  split_ifs <;> omega

theorem ChannelInv.send (h : ChannelInv x source target sender receiver c)
    (hTarget : (x.sendRanks source)[sender.next]? = some target) (buffered : Bool) :
    ChannelInv x source target (sender.advance (x.sendRanks source).length target buffered) receiver
      (c.send ⟨source, target, sender.round⟩) where
  sent := by
    have hLength := h.sent_length sender.next hTarget
    rw [if_neg (Nat.lt_irrefl _), Nat.add_zero] at hLength
    have hOld := h.sent
    rw [hLength] at hOld
    simp only [FifoChannel.send, List.length_append, List.length_singleton, List.range_succ,
      List.map_append, List.map_singleton, hLength, ← hOld]
  sent_length k hk := by
    obtain rfl := index_unique (x.nodup_sendRanks source) hTarget hk
    have hNext := (List.getElem?_eq_some_iff.mp hTarget).1
    rw [sender.advance_count hNext, ← h.sent_length _ hk, if_pos rfl]
    simp [FifoChannel.send]
  received := h.received

theorem ChannelInv.send_other (h : ChannelInv x source target sender receiver c) {target' : Nat}
    (hTarget : (x.sendRanks source)[sender.next]? = some target') (hNe : target ≠ target')
    (buffered : Bool) :
    ChannelInv x source target (sender.advance (x.sendRanks source).length target' buffered)
      receiver c where
  sent := h.sent
  sent_length k hk := by
    have hOther : k ≠ sender.next := by
      rintro rfl
      exact hNe (Option.some.inj (hk.symm.trans hTarget))
    rw [sender.advance_count (List.getElem?_eq_some_iff.mp hk).1, ← h.sent_length k hk, if_neg hOther,
      Nat.add_zero]
  received := h.received

theorem ChannelInv.message (h : ChannelInv x source target sender receiver c)
    (hSource : (x.receiveRanks target)[receiver.buffers.length]? = some source) {m : Message}
    (hm : c.sent[c.received]? = some m) : m = ⟨source, target, receiver.published.length⟩ := by
  have hReceived := h.received _ hSource
  rw [if_neg (Nat.lt_irrefl _), Nat.add_zero] at hReceived
  rw [h.sent, hReceived] at hm
  simp only [List.getElem?_map, Option.map_eq_some_iff] at hm
  obtain ⟨round, hRound, rfl⟩ := hm
  rw [(List.getElem?_eq_some_iff.mp hRound).2.symm.trans (List.getElem_range _)]

theorem ChannelInv.receive (h : ChannelInv x source target sender receiver c)
    (hSource : (x.receiveRanks target)[receiver.buffers.length]? = some source)
    {c' : FifoChannel Message} (hSent : c'.sent = c.sent)
    (hReceived : c'.received = c.received + 1) (m : Message) :
    ChannelInv x source target sender { receiver with buffers := receiver.buffers ++ [m] } c' where
  sent := hSent ▸ h.sent
  sent_length := hSent ▸ h.sent_length
  received k hk := by
    obtain rfl := index_unique (x.nodup_receiveRanks target) hSource hk
    rw [hReceived, h.received _ hk]
    simp

theorem ChannelInv.receive_other (h : ChannelInv x source target sender receiver c) {source' : Nat}
    (hSource : (x.receiveRanks target)[receiver.buffers.length]? = some source')
    (hNe : source ≠ source') (m : Message) :
    ChannelInv x source target sender { receiver with buffers := receiver.buffers ++ [m] } c where
  sent := h.sent
  sent_length := h.sent_length
  received k hk := by
    have hOther : k ≠ receiver.buffers.length := by
      rintro rfl
      exact hNe (Option.some.inj (hk.symm.trans hSource))
    have hIff : k < receiver.buffers.length + 1 ↔ k < receiver.buffers.length := by omega
    rw [h.received k hk]
    simp [hIff]

theorem ChannelInv.publish (h : ChannelInv x source target sender receiver c)
    (hFull : receiver.buffers.length = (x.receiveRanks target).length) :
    ChannelInv x source target sender { receiver with
      phase := .top
      buffers := []
      published := receiver.published ++ [receiver.buffers] } c where
  sent := h.sent
  sent_length := h.sent_length
  received k hk := by
    have hLt := (List.getElem?_eq_some_iff.mp hk).1
    rw [h.received k hk, if_pos (hFull ▸ hLt)]
    simp

theorem ChannelInv.congr (h : ChannelInv x source target sender receiver c) {sender' : Sender}
    {receiver' : Receiver} {c' : FifoChannel Message} (hRound : sender'.round = sender.round)
    (hNext : sender'.next = sender.next) (hPublished : receiver'.published = receiver.published)
    (hBuffers : receiver'.buffers = receiver.buffers) (hSent : c'.sent = c.sent)
    (hReceived : c'.received = c.received) : ChannelInv x source target sender' receiver' c' where
  sent := hSent ▸ h.sent
  sent_length := by rw [hSent, hRound, hNext]; exact h.sent_length
  received := by rw [hReceived, hPublished, hBuffers]; exact h.received

theorem SenderInv.advance (h : SenderInv x sender) (hRound : sender.round < x.rounds)
    (partners target : Nat) (buffered : Bool) :
    SenderInv x (sender.advance partners target buffered) where
  next hDone := by
    simp only [Sender.advance] at hDone ⊢
    split_ifs at hDone ⊢
    · rfl
    · omega
  stopped hStopped := absurd (h.stopped hStopped) hRound.ne

theorem ReceiverInv.flag (h : ReceiverInv x rank receiver flags) (flag : Bool) :
    ReceiverInv x rank receiver (flags ++ [flag]) where
  buffers := h.buffers
  published := h.published
  idle := h.idle
  bcasts := h.bcasts
  returned hPhase := by
    have hOld := h.returned hPhase
    rw [List.getElem?_append_left (List.getElem?_eq_some_iff.mp hOld).1, hOld]

theorem ReceiverInv.bcast (h : ReceiverInv x rank receiver flags) {flag : Bool}
    (hPhase : receiver.phase.started = 0) (hFlag : flags[receiver.bcasts]? = some flag) :
    ReceiverInv x rank { receiver with
      phase := if flag then .returned else .receiving
      bcasts := receiver.bcasts + 1 } flags where
  buffers := h.buffers
  published := h.published
  idle _ := by
    refine h.idle fun hReceiving => ?_
    rw [hReceiving] at hPhase
    cases hPhase
  bcasts := by
    have hOld := h.bcasts
    rw [hPhase] at hOld
    cases flag <;> exact congrArg (· + 1) hOld
  returned hReturned := by
    have hOld := h.bcasts
    rw [hPhase, Nat.add_zero] at hOld
    cases flag with
    | false => cases hReturned
    | true => exact hOld ▸ hFlag

theorem ReceiverInv.receive (h : ReceiverInv x rank receiver flags)
    (hPhase : receiver.phase = .receiving)
    (hSource : (x.receiveRanks rank)[receiver.buffers.length]? = some source) :
    ReceiverInv x rank { receiver with
      buffers := receiver.buffers ++ [⟨source, rank, receiver.published.length⟩] } flags where
  buffers := by
    have hNext : (x.roundMessages rank receiver.published.length)[receiver.buffers.length]? =
        some ⟨source, rank, receiver.published.length⟩ := by
      simp [Exchange.roundMessages, hSource]
    rw [List.length_append, List.length_singleton, List.take_add_one, hNext, ← h.buffers]
    rfl
  published := h.published
  idle hIdle := absurd hPhase hIdle
  bcasts := h.bcasts
  returned hReturned := by
    rw [hPhase] at hReturned
    cases hReturned

theorem ReceiverInv.publish (h : ReceiverInv x rank receiver flags)
    (hPhase : receiver.phase = .receiving)
    (hFull : receiver.buffers.length = (x.receiveRanks rank).length) :
    ReceiverInv x rank { receiver with
      phase := .top
      buffers := []
      published := receiver.published ++ [receiver.buffers] } flags where
  buffers := rfl
  published := by
    have hBuffers := h.buffers
    rw [List.take_of_length_le (by simp [Exchange.roundMessages, hFull])] at hBuffers
    simp only [List.length_append, List.length_singleton, List.range_succ, List.map_append,
      List.map_singleton, ← h.published, ← hBuffers]
  idle _ := rfl
  bcasts := by
    rw [h.bcasts, hPhase, List.length_append, List.length_singleton]
    rfl
  returned hReturned := by cases hReturned

end Components

namespace Inv

variable {x : Exchange} {s : State}

theorem new (x : Exchange) : Inv x State.new where
  channel source target := ⟨rfl, fun k _ => rfl, fun k _ => rfl⟩
  sender rank := ⟨fun _ => rfl, fun hStopped => by cases hStopped⟩
  receiver rank := ⟨rfl, rfl, fun _ => rfl, rfl, fun hReturned => by cases hReturned⟩
  root := rfl
  stop hStop := absurd rfl hStop
  last k hLast := by cases hLast

theorem sent_zero (h : Inv x s) (hStop : (s.senders 0).stopped = true) :
    (s.data 0 0).sent.length = x.rounds := by
  have hRound := (h.sender 0).stopped hStop
  rw [(h.channel 0 0).sent_length 0 x.sendRanks_zero, (h.sender 0).next hRound, hRound]
  simp

theorem received_zero (h : Inv x s) (hPhase : (s.receivers 0).phase ≠ .receiving) :
    (s.data 0 0).received = (s.receivers 0).published.length := by
  rw [(h.channel 0 0).received 0 x.receiveRanks_zero, ((h.receiver 0).idle hPhase)]
  simp

theorem setSender (h : Inv x s) {rank : Nat} {sender : Sender}
    (hRound : sender.round = (s.senders rank).round) (hNext : sender.next = (s.senders rank).next)
    (hStopped : (s.senders rank).stopped = true → sender.stopped = true)
    (hSender : SenderInv x sender) : Inv x (s.setSender rank sender) where
  channel source target := by
    by_cases hRank : source = rank
    · subst hRank
      simpa [State.setSender] using (h.channel source target).congr hRound hNext rfl rfl rfl rfl
    · simpa [State.setSender, hRank] using h.channel source target
  sender r := by
    by_cases hRank : r = rank
    · simpa [State.setSender, hRank] using hSender
    · simpa [State.setSender, hRank] using h.sender r
  receiver := h.receiver
  root := h.root
  stop hStop := by
    have hOld := h.stop hStop
    by_cases hRank : 0 = rank
    · subst hRank
      simpa [State.setSender] using hStopped hOld
    · simpa [State.setSender, hRank] using hOld
  last := h.last

theorem setReceiver (h : Inv x s) {rank : Nat} {receiver : Receiver}
    (hPublished : receiver.published = (s.receivers rank).published)
    (hBuffers : receiver.buffers = (s.receivers rank).buffers)
    (hReceiver : ReceiverInv x rank receiver s.flags)
    (hRoot : rank = 0 → receiver.bcasts = s.flags.length) : Inv x (s.setReceiver rank receiver) where
  channel source target := by
    by_cases hRank : target = rank
    · subst hRank
      simpa [State.setReceiver] using
        (h.channel source target).congr rfl rfl hPublished hBuffers rfl rfl
    · simpa [State.setReceiver, hRank] using h.channel source target
  sender := h.sender
  receiver r := by
    by_cases hRank : r = rank
    · simpa [State.setReceiver, hRank] using hReceiver
    · simpa [State.setReceiver, hRank] using h.receiver r
  root := by
    by_cases hRank : 0 = rank
    · subst hRank
      simpa [State.setReceiver] using hRoot rfl
    · simpa [State.setReceiver, hRank] using h.root
  stop := h.stop
  last := h.last

theorem send (h : Inv x s) {rank target : Nat} (buffered : Bool)
    (hTarget : (x.sendRanks rank)[(s.senders rank).next]? = some target)
    (hRound : (s.senders rank).round < x.rounds) :
    Inv x ((s.setData rank target ((s.data rank target).send
      ⟨rank, target, (s.senders rank).round⟩)).setSender rank
        ((s.senders rank).advance (x.sendRanks rank).length target buffered)) where
  channel source target' := by
    by_cases hRank : source = rank
    · subst hRank
      by_cases hSame : target' = target
      · subst hSame
        simpa [State.setSender, State.setData] using
          (h.channel source target').send hTarget buffered
      · simpa [State.setSender, State.setData, hSame] using
          (h.channel source target').send_other hTarget hSame buffered
    · simpa [State.setSender, State.setData, hRank] using h.channel source target'
  sender r := by
    by_cases hRank : r = rank
    · subst hRank
      simpa [State.setSender] using (h.sender r).advance hRound _ target buffered
    · simpa [State.setSender, State.setData, hRank] using h.sender r
  receiver := h.receiver
  root := h.root
  stop hStop := by
    have hOld := h.stop hStop
    by_cases hRank : 0 = rank
    · subst hRank
      simpa [State.setSender, Sender.advance] using hOld
    · simpa [State.setSender, State.setData, hRank] using hOld
  last := h.last

theorem receive (h : Inv x s) {rank source : Nat} {m : Message} {c : FifoChannel Message}
    (hSource : (x.receiveRanks rank)[(s.receivers rank).buffers.length]? = some source)
    (hPhase : (s.receivers rank).phase = .receiving)
    (hReceive : (s.data source rank).receive = some (m, c)) :
    Inv x ((s.setData source rank c).setReceiver rank
      { s.receivers rank with buffers := (s.receivers rank).buffers ++ [m] }) where
  channel source' target := by
    obtain ⟨-, hSent, hReceived⟩ := FifoChannel.receive_eq_some hReceive
    by_cases hRank : target = rank
    · subst hRank
      by_cases hSame : source' = source
      · subst hSame
        simpa [State.setReceiver, State.setData] using
          (h.channel source' target).receive hSource hSent hReceived m
      · simpa [State.setReceiver, State.setData, hSame] using
          (h.channel source' target).receive_other hSource hSame m
    · simpa [State.setReceiver, State.setData, hRank] using h.channel source' target
  sender := h.sender
  receiver r := by
    by_cases hRank : r = rank
    · subst hRank
      obtain ⟨hm, -, -⟩ := FifoChannel.receive_eq_some hReceive
      obtain rfl := (h.channel source r).message hSource hm
      simpa [State.setReceiver, State.setData] using (h.receiver r).receive hPhase hSource
    · simpa [State.setReceiver, State.setData, hRank] using h.receiver r
  root := by
    by_cases hRank : 0 = rank
    · subst hRank
      simpa [State.setReceiver, State.setData] using h.root
    · simpa [State.setReceiver, State.setData, hRank] using h.root
  stop := h.stop
  last := h.last

theorem publish (h : Inv x s) {rank : Nat} (hPhase : (s.receivers rank).phase = .receiving)
    (hFull : (s.receivers rank).buffers.length = (x.receiveRanks rank).length) :
    Inv x (s.setReceiver rank { s.receivers rank with
      phase := .top
      buffers := []
      published := (s.receivers rank).published ++ [(s.receivers rank).buffers] }) where
  channel source target := by
    by_cases hRank : target = rank
    · subst hRank
      simpa [State.setReceiver] using (h.channel source target).publish hFull
    · simpa [State.setReceiver, hRank] using h.channel source target
  sender := h.sender
  receiver r := by
    by_cases hRank : r = rank
    · subst hRank
      simpa [State.setReceiver] using (h.receiver r).publish hPhase hFull
    · simpa [State.setReceiver, hRank] using h.receiver r
  root := by
    by_cases hRank : 0 = rank
    · subst hRank
      simpa [State.setReceiver] using h.root
    · simpa [State.setReceiver, hRank] using h.root
  stop := h.stop
  last := h.last

theorem check (h : Inv x s) (hPhase : (s.receivers 0).phase = .probed) (flag : Bool)
    {stop : FifoChannel Unit} (hStop : stop.sent = s.stop.sent)
    (hFlag : flag = true → (s.receivers 0).published.length = x.rounds) :
    Inv x { s.setReceiver 0 { s.receivers 0 with
      phase := if flag then .returned else .receiving
      bcasts := (s.receivers 0).bcasts + 1 } with
        stop := stop, flags := s.flags ++ [flag] } where
  channel source target := by
    by_cases hRank : target = 0
    · subst hRank
      refine (h.channel source 0).congr rfl rfl ?_ ?_ rfl rfl <;> simp [State.setReceiver]
    · simpa [State.setReceiver, hRank] using h.channel source target
  sender := h.sender
  receiver r := by
    by_cases hRank : r = 0
    · subst hRank
      have hNext : (s.flags ++ [flag])[(s.receivers 0).bcasts]? = some flag := by
        rw [h.root, List.getElem?_concat_length]
      simpa [State.setReceiver] using
        ((h.receiver 0).flag flag).bcast (by rw [hPhase]; rfl) hNext
    · simpa [State.setReceiver, hRank] using (h.receiver r).flag flag
  root := by simp [State.setReceiver, h.root]
  stop hSent := h.stop (hStop ▸ hSent)
  last k hk := by
    rcases Nat.lt_or_ge k s.flags.length with hLt | hGe
    · rw [List.getElem?_append_left hLt] at hk
      exact h.last k hk
    · have hLength := (List.getElem?_eq_some_iff.mp hk).1
      rw [List.length_append, List.length_singleton] at hLength
      obtain rfl : k = s.flags.length := by omega
      rw [List.getElem?_concat_length, Option.some.injEq] at hk
      rw [← hFlag hk, ← h.root, (h.receiver 0).bcasts, hPhase]
      rfl

end Inv

/-- At every stop check of rank 0 that finds the stop message, rank 0 of the senders has no data
message to it that is still unreceived. -/
def StopComesLast (s : State) : Action → Prop
  | .iprobe => s.stop.probe = true → (s.data 0 0).Drained
  | _ => True

instance (s : State) (a : Action) : Decidable (StopComesLast s a) :=
  match a with
  | .iprobe => inferInstanceAs (Decidable (_ → _))
  | .send .. | .sendReturn _ | .stopRound _ | .arrive .. | .arriveStop | .probe | .bcast _
  | .receive _ | .publish _ => inferInstanceAs (Decidable True)

theorem Inv.step {x : Exchange} {s s' : State} {a : Action} (h : Inv x s)
    (hLast : StopComesLast s a) (hStep : s.step x a = some s') : Inv x s' := by
  cases a with
  | send rank buffered =>
    obtain ⟨target, hTarget, hSend⟩ := Option.bind_eq_some_iff.mp hStep
    simp only [Option.ite_none_right_eq_some, Option.pure_def, Option.some.injEq] at hSend
    obtain ⟨⟨-, -, hRound⟩, rfl⟩ := hSend
    exact h.send buffered hTarget hRound
  | sendReturn rank =>
    obtain ⟨target, -, hReturn⟩ := Option.bind_eq_some_iff.mp hStep
    simp only [Option.ite_none_right_eq_some, Option.pure_def, Option.some.injEq] at hReturn
    obtain ⟨-, rfl⟩ := hReturn
    exact h.setSender rfl rfl id ⟨(h.sender rank).next, (h.sender rank).stopped⟩
  | stopRound rank =>
    simp only [State.step, Option.ite_none_right_eq_some, Option.some.injEq] at hStep
    obtain ⟨⟨-, -, hRound, -⟩, rfl⟩ := hStep
    have hStopped : Inv x (s.setSender rank { s.senders rank with stopped := true }) :=
      h.setSender rfl rfl (fun _ => rfl) ⟨(h.sender rank).next, fun _ => hRound⟩
    split
    · rename_i hRank
      subst hRank
      exact ⟨hStopped.channel, hStopped.sender, hStopped.receiver, hStopped.root,
        fun _ => by simp [State.setSender], hStopped.last⟩
    · exact hStopped
  | arrive source target =>
    obtain ⟨c, hArrive, hSet⟩ := Option.bind_eq_some_iff.mp hStep
    obtain rfl := Option.some.inj hSet
    refine ⟨fun j i => ?_, h.sender, h.receiver, h.root, h.stop, h.last⟩
    by_cases hChannel : j = source ∧ i = target
    · obtain ⟨rfl, rfl⟩ := hChannel
      simpa [State.setData] using (h.channel j i).congr rfl rfl rfl rfl
        (FifoChannel.sent_arrive hArrive) (FifoChannel.received_arrive hArrive)
    · simpa [State.setData, hChannel] using h.channel j i
  | arriveStop =>
    obtain ⟨c, hArrive, hSet⟩ := Option.bind_eq_some_iff.mp hStep
    obtain rfl := Option.some.inj hSet
    exact ⟨h.channel, h.sender, h.receiver, h.root,
      fun hSent => h.stop (FifoChannel.sent_arrive hArrive ▸ hSent), h.last⟩
  | probe =>
    simp only [State.step, Option.ite_none_right_eq_some, Option.some.injEq] at hStep
    obtain ⟨⟨hPhase, -⟩, rfl⟩ := hStep
    have hOld := h.receiver 0
    have hBcasts := hOld.bcasts
    rw [hPhase] at hBcasts
    exact h.setReceiver rfl rfl ⟨hOld.buffers, hOld.published,
      fun _ => hOld.idle (by rw [hPhase]; decide), hBcasts, fun hReturned => by cases hReturned⟩
      fun _ => h.root
  | iprobe =>
    simp only [State.step, Option.ite_none_right_eq_some] at hStep
    obtain ⟨hPhase, hCheck⟩ := hStep
    split at hCheck
    · rename_i stop hReceive
      obtain rfl := Option.some.inj hCheck
      have hProbe := FifoChannel.probe_of_receive hReceive
      have hStopped := h.stop (FifoChannel.sent_ne_nil_of_probe hProbe)
      have hDrained : (s.data 0 0).received = (s.data 0 0).sent.length := hLast hProbe
      rw [h.received_zero (by rw [hPhase]; decide), h.sent_zero hStopped] at hDrained
      exact h.check hPhase true (FifoChannel.receive_eq_some hReceive).2.1 fun _ => hDrained
    · obtain rfl := Option.some.inj hCheck
      exact h.check hPhase false rfl (fun hFlag => by cases hFlag)
  | bcast rank =>
    obtain ⟨flag, hFlag, hBcast⟩ := Option.bind_eq_some_iff.mp hStep
    simp only [Option.ite_none_right_eq_some, Option.pure_def, Option.some.injEq] at hBcast
    obtain ⟨⟨hRank, -, hPhase⟩, rfl⟩ := hBcast
    exact h.setReceiver rfl rfl ((h.receiver rank).bcast (by rw [hPhase]; rfl) hFlag)
      fun hZero => absurd hZero hRank.ne'
  | receive rank =>
    obtain ⟨source, hSource, hReceive⟩ := Option.bind_eq_some_iff.mp hStep
    simp only [Option.ite_none_right_eq_some] at hReceive
    obtain ⟨hPhase, hReceive⟩ := hReceive
    obtain ⟨⟨m, c⟩, hMessage, hSet⟩ := Option.bind_eq_some_iff.mp hReceive
    obtain rfl := Option.some.inj hSet
    exact h.receive hSource hPhase hMessage
  | publish rank =>
    simp only [State.step, Option.ite_none_right_eq_some, Option.some.injEq] at hStep
    obtain ⟨⟨hPhase, hFull⟩, rfl⟩ := hStep
    exact h.publish hPhase hFull

abbrev orderlyMachine (x : Exchange) : Machine State Action :=
  (exchangeMachine x).restrict fun s a => StopComesLast s a

theorem inv_of_reachable {x : Exchange} {s : State} (h : (orderlyMachine x).Reachable s) :
    Inv x s := by
  refine h.invariant (I := Inv x) (Inv.new x) ?_
  intro s a s' hInv hStep
  obtain ⟨hLast, hStep⟩ := Machine.restrict_step_eq_some.mp hStep
  exact hInv.step hLast hStep

/-- A receiver that returned has published every round's messages of all its partners. -/
theorem published_of_returned (x : Exchange) {s : State} (h : (orderlyMachine x).Reachable s)
    {rank : Nat} (hReturned : (s.receivers rank).phase = .returned) :
    (s.receivers rank).published = (List.range x.rounds).map fun round =>
      (x.receiveRanks rank).map fun source => ⟨source, rank, round⟩ := by
  have hInv := inv_of_reachable h
  rw [(hInv.receiver rank).published, hInv.last _ ((hInv.receiver rank).returned hReturned)]
  rfl

theorem published_of_returned_run :
    ∃ s : State, (s.receivers 1).published = [[⟨0, 1, 0⟩]] := by
  let x : Exchange := ⟨1, 2, 1, by decide, by decide, .inl (by decide)⟩
  let actions : List Action :=
    [.send 0 true, .send 0 false, .arrive 0 0, .probe, .iprobe, .receive 0, .publish 0, .bcast 1,
      .arrive 0 1, .receive 1, .publish 1, .sendReturn 0, .stopRound 0, .arriveStop, .probe,
      .iprobe, .bcast 1]
  have hRun : ((orderlyMachine x).run actions State.new).map (fun s => (s.receivers 1).phase) =
      some .returned := by decide
  obtain ⟨s, hs, hReturned⟩ := Option.map_eq_some_iff.mp hRun
  exact ⟨s, (published_of_returned x (Machine.reachable_of_run actions .initial hs)
    hReturned).trans (by decide)⟩

/-- One rank on each side and one round, whose message and whose stop message both arrive before
the receiver's first probe. -/
theorem early_stop_run :
    let x : Exchange := ⟨1, 1, 1, by decide, by decide, .inl (by decide)⟩
    ∃ s, (exchangeMachine x).Reachable s ∧ (s.receivers 0).phase = .returned ∧
      (s.data 0 0).sent = [⟨0, 0, 0⟩] ∧ (s.receivers 0).published = [] := by
  intro x
  let actions : List Action :=
    [.send 0 true, .stopRound 0, .arrive 0 0, .arriveStop, .probe, .iprobe]
  have hRun : ((exchangeMachine x).run actions State.new).map
      (fun s => ((s.receivers 0).phase, (s.data 0 0).sent, (s.receivers 0).published)) =
      some (.returned, [⟨0, 0, 0⟩], []) := by decide
  obtain ⟨s, hs, hLost⟩ := Option.map_eq_some_iff.mp hRun
  simp only [Prod.mk.injEq] at hLost
  exact ⟨s, Machine.reachable_of_run actions .initial hs, hLost⟩

/-- The condition leaves out only runs that lose data: a stop check that breaks it makes
rank 0 return with fewer rounds than were sent. -/
theorem lost_of_early_stop {x : Exchange} {s s' : State} (h : (orderlyMachine x).Reachable s)
    (hEarly : ¬ StopComesLast s .iprobe) (hStep : s.step x .iprobe = some s') :
    (s'.receivers 0).phase = .returned ∧ (s'.receivers 0).published.length < x.rounds := by
  have hInv := inv_of_reachable h
  simp only [StopComesLast, Classical.not_imp] at hEarly
  obtain ⟨hProbe, hUndrained⟩ := hEarly
  simp only [State.step, Option.ite_none_right_eq_some] at hStep
  obtain ⟨hPhase, hCheck⟩ := hStep
  have hSent := hInv.sent_zero (hInv.stop (FifoChannel.sent_ne_nil_of_probe hProbe))
  have hReceived := hInv.received_zero (by rw [hPhase]; decide)
  have hLe := (s.data 0 0).received_le
  have hLe' := (s.data 0 0).arrived_le
  rw [FifoChannel.Drained, hSent, hReceived] at hUndrained
  split at hCheck
  · obtain rfl := Option.some.inj hCheck
    refine ⟨by simp [State.setReceiver], ?_⟩
    simp only [State.setReceiver, if_true]
    omega
  · rename_i hNone
    simp [FifoChannel.receive, of_decide_eq_true hProbe] at hNone

end Henson.Tools
