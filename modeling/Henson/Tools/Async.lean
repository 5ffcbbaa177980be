import Henson.Tools.SendReceive

/-!
# The tools `send` and `receive` with `--async`

Rank 0 of the receivers asks for data at the top of every iteration. A round of
`send` is a data round only if rank 0 of the senders finds a request pending, which
it then takes and announces in a broadcast; in the stop round it takes the last
request before it sends the stop message. A send that is not buffered waits until
its message has been received. A broadcast may let a rank go as soon as the value
is there or hold it until all ranks of its group have joined in. All ranks of the
sending group run the same number of rounds before the stop round.
-/

namespace Henson.Tools.Async

open TransitionSystem

/-- Where `send` stands on a rank: after rank 0's probe in `receiver_ready`, in the sends of a
data round, or, on rank 0, after the last request was taken and in the send of the stop. -/
inductive SendPhase where
  | top | checked (flag : Bool) | sending | unblocked | stopping | returned
  deriving DecidableEq

structure Sender where
  phase : SendPhase := .top
  bcasts : Nat := 0
  inBcast : Bool := false
  round : Nat := 0
  next : Nat := 0
  waiting : Option Nat := none

namespace Sender

/-- The rank is in no blocking call. -/
def free (sender : Sender) : Bool := !sender.inBcast && sender.waiting.isNone

/-- `receiver_ready` returns the flag. -/
def ready (sender : Sender) (flag held : Bool) : Sender :=
  { sender with
    phase := if flag then .sending else .top
    bcasts := sender.bcasts + 1
    inBcast := held }

/-- One `MPI_Send` of the data loop. -/
def advance (sender : Sender) (partners target : Nat) (buffered : Bool) : Sender :=
  { sender with
    phase := if sender.next + 1 = partners then .top else .sending
    round := if sender.next + 1 = partners then sender.round + 1 else sender.round
    next := if sender.next + 1 = partners then 0 else sender.next + 1
    waiting := if buffered then none else some target }

end Sender

/-- Where `receive` stands on a rank. The phases between `top` and `receiving` are rank 0's:
in the send of the request, before and after `MPI_Probe`, and after `MPI_Iprobe`. -/
inductive ReceivePhase where
  | top | requesting | requested | probed | checked (stop : Bool) | receiving | returned
  deriving DecidableEq

structure Receiver where
  phase : ReceivePhase := .top
  bcasts : Nat := 0
  inBcast : Bool := false
  buffers : List Message := []
  published : List (List Message) := []

namespace Receiver

/-- The broadcast of the stop flag returns it. -/
def stopFlag (receiver : Receiver) (stop held : Bool) : Receiver :=
  { receiver with
    phase := if stop then .returned else .receiving
    bcasts := receiver.bcasts + 1
    inBcast := held }

end Receiver

structure State where
  senders : Nat → Sender
  receivers : Nat → Receiver
  data : Nat → Nat → FifoChannel Message
  request : FifoChannel Unit
  stop : FifoChannel Unit
  /-- The values rank 0 of the senders has broadcast. -/
  ready : List Bool
  /-- The values rank 0 of the receivers has broadcast. -/
  stops : List Bool

namespace State

def setSender (s : State) (rank : Nat) (sender : Sender) : State :=
  { s with senders := fun r => if r = rank then sender else s.senders r }

def setReceiver (s : State) (rank : Nat) (receiver : Receiver) : State :=
  { s with receivers := fun r => if r = rank then receiver else s.receivers r }

def setData (s : State) (source target : Nat) (c : FifoChannel Message) : State :=
  { s with data := fun j i => if j = source ∧ i = target then c else s.data j i }

section Data

variable (s : State) (source target : Nat) (c : FifoChannel Message)

@[simp] theorem setData_senders : (s.setData source target c).senders = s.senders := rfl

@[simp] theorem setData_receivers : (s.setData source target c).receivers = s.receivers := rfl

@[simp] theorem setData_request : (s.setData source target c).request = s.request := rfl

@[simp] theorem setData_stop : (s.setData source target c).stop = s.stop := rfl

@[simp] theorem setData_ready : (s.setData source target c).ready = s.ready := rfl

@[simp] theorem setData_stops : (s.setData source target c).stops = s.stops := rfl

end Data

end State

inductive Action where
  | iprobeRequest
  | bcastReady (rank : Nat) (held : Bool)
  | bcastReadyReturn (rank : Nat)
  | send (rank : Nat) (buffered : Bool)
  | sendReturn (rank : Nat)
  | recvRequest
  | sendStop (buffered : Bool)
  | sendStopReturn
  | stopRound (rank : Nat)
  | arrive (source target : Nat)
  | arriveRequest
  | arriveStop
  | sendRequest (buffered : Bool)
  | sendRequestReturn
  | probe
  | iprobeStop
  | bcastStop (rank : Nat) (held : Bool)
  | bcastStopReturn (rank : Nat)
  | receive (rank : Nat)
  | publish (rank : Nat)

namespace State

def new : State where
  senders _ := {}
  receivers _ := {}
  data _ _ := .empty
  request := .empty
  stop := .empty
  ready := []
  stops := []

def step (x : Exchange) (s : State) : Action → Option State
  | .iprobeRequest =>
    let sender := s.senders 0
    if sender.free ∧ sender.phase = .top ∧ sender.bcasts < x.rounds then
      match s.request.receive with
      | some (_, request) =>
        some { s.setSender 0 { sender with phase := .checked true } with request := request }
      | none => some (s.setSender 0 { sender with phase := .checked false })
    else none
  | .bcastReady rank held =>
    let sender := s.senders rank
    if rank = 0 then
      match sender.phase with
      | .checked flag => some { s.setSender 0 (sender.ready flag held) with ready := s.ready ++ [flag] }
      | _ => none
    else if rank < x.senders ∧ sender.free ∧ sender.phase = .top ∧ sender.bcasts < x.rounds then do
      let flag ← s.ready[sender.bcasts]?
      return s.setSender rank (sender.ready flag held)
    else none
  | .bcastReadyReturn rank =>
    let sender := s.senders rank
    if sender.inBcast ∧ ∀ r < x.senders, sender.bcasts ≤ (s.senders r).bcasts then
      some (s.setSender rank { sender with inBcast := false })
    else none
  | .send rank buffered => do
    let sender := s.senders rank
    let target ← (x.sendRanks rank)[sender.next]?
    if sender.free ∧ sender.phase = .sending then
      let c := (s.data rank target).send ⟨rank, target, sender.round⟩
      return (s.setData rank target c).setSender rank
        (sender.advance (x.sendRanks rank).length target buffered)
    else none
  | .sendReturn rank => do
    let target ← (s.senders rank).waiting
    if (s.data rank target).Drained then
      return s.setSender rank { s.senders rank with waiting := none }
    else none
  | .recvRequest => do
    let sender := s.senders 0
    let (_, request) ← s.request.receive
    if sender.free ∧ sender.phase = .top ∧ sender.bcasts = x.rounds then
      return { s.setSender 0 { sender with phase := .unblocked } with request := request }
    else none
  | .sendStop buffered =>
    let sender := s.senders 0
    if sender.phase = .unblocked then
      some { s.setSender 0 { sender with phase := if buffered then .returned else .stopping } with
        stop := s.stop.send () }
    else none
  | .sendStopReturn =>
    let sender := s.senders 0
    if sender.phase = .stopping ∧ s.stop.Drained then
      some (s.setSender 0 { sender with phase := .returned })
    else none
  | .stopRound rank =>
    let sender := s.senders rank
    if rank ≠ 0 ∧ rank < x.senders ∧ sender.free ∧ sender.phase = .top ∧
        sender.bcasts = x.rounds then
      some (s.setSender rank { sender with phase := .returned })
    else none
  | .arrive source target => do
    return s.setData source target (← (s.data source target).arrive)
  | .arriveRequest => do return { s with request := ← s.request.arrive }
  | .arriveStop => do return { s with stop := ← s.stop.arrive }
  | .sendRequest buffered =>
    let receiver := s.receivers 0
    if receiver.phase = .top then
      some { s.setReceiver 0 { receiver with
          phase := if buffered then .requested else .requesting } with
        request := s.request.send () }
    else none
  | .sendRequestReturn =>
    let receiver := s.receivers 0
    if receiver.phase = .requesting ∧ s.request.Drained then
      some (s.setReceiver 0 { receiver with phase := .requested })
    else none
  | .probe =>
    let receiver := s.receivers 0
    -- `MPI_ANY_TAG`: a data message or the stop message
    if receiver.phase = .requested ∧ ((s.data 0 0).probe || s.stop.probe) then
      some (s.setReceiver 0 { receiver with phase := .probed })
    else none
  | .iprobeStop =>
    let receiver := s.receivers 0
    if receiver.phase = .probed then
      match s.stop.receive with
      | some (_, stop) =>
        some { s.setReceiver 0 { receiver with phase := .checked true } with stop := stop }
      | none => some (s.setReceiver 0 { receiver with phase := .checked false })
    else none
  | .bcastStop rank held =>
    let receiver := s.receivers rank
    if rank = 0 then
      match receiver.phase with
      | .checked stop =>
        some { s.setReceiver 0 (receiver.stopFlag stop held) with stops := s.stops ++ [stop] }
      | _ => none
    else if rank < x.receivers ∧ receiver.phase = .top then do
      let stop ← s.stops[receiver.bcasts]?
      return s.setReceiver rank (receiver.stopFlag stop held)
    else none
  | .bcastStopReturn rank =>
    let receiver := s.receivers rank
    if receiver.inBcast ∧ ∀ r < x.receivers, receiver.bcasts ≤ (s.receivers r).bcasts then
      some (s.setReceiver rank { receiver with inBcast := false })
    else none
  | .receive rank => do
    let receiver := s.receivers rank
    let source ← (x.receiveRanks rank)[receiver.buffers.length]?
    if !receiver.inBcast ∧ receiver.phase = .receiving then
      let (m, c) ← (s.data source rank).receive
      return (s.setData source rank c).setReceiver rank
        { receiver with buffers := receiver.buffers ++ [m] }
    else none
  | .publish rank =>
    let receiver := s.receivers rank
    if !receiver.inBcast ∧ receiver.phase = .receiving ∧
        receiver.buffers.length = (x.receiveRanks rank).length then
      some (s.setReceiver rank { receiver with
        phase := .top
        buffers := []
        published := receiver.published ++ [receiver.buffers] })
    else none

end State

def asyncMachine (x : Exchange) : Machine State Action where
  initial := State.new
  step := State.step x

end Henson.Tools.Async
