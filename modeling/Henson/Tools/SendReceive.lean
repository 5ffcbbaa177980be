import Henson.Library.FifoChannel
import Henson.Library.TransitionSystem

/-!
# The tools `send` and `receive`

The synchronous mode of the two tools as one message-passing system: the ranks
of the sending group run their data rounds and then a stop round, the ranks of
the receiving group run the receive loop. Data messages and the stop message
have different tags and may overtake each other; messages of one pair and one
tag do not.
-/

namespace Henson.Tools

open TransitionSystem

/-- The partner ranks that both tools compute; `none` where they refuse the group sizes. -/
def partnerRanks (size remoteSize rank : Nat) : Option (List Nat) :=
  if size ≥ remoteSize then
    if size % remoteSize ≠ 0 then none else some [rank / (size / remoteSize)]
  else if remoteSize % size ≠ 0 then none
  else
    let fraction := remoteSize / size
    some ((List.range fraction).map fun i => rank * fraction + i)

structure Exchange where
  senders : Nat
  receivers : Nat
  rounds : Nat
  senders_pos : 0 < senders
  receivers_pos : 0 < receivers
  divides : senders ∣ receivers ∨ receivers ∣ senders

namespace Exchange

def sendRanks (x : Exchange) (rank : Nat) : List Nat :=
  (partnerRanks x.senders x.receivers rank).getD []

def receiveRanks (x : Exchange) (rank : Nat) : List Nat :=
  (partnerRanks x.receivers x.senders rank).getD []

end Exchange

structure Message where
  source : Nat
  target : Nat
  round : Nat
  deriving DecidableEq

/-- A rank of the sending group: rounds done, sends done in this round, and the rank that
an unbuffered send waits for. -/
structure Sender where
  round : Nat := 0
  next : Nat := 0
  waiting : Option Nat := none
  stopped : Bool := false

def Sender.advance (sender : Sender) (partners target : Nat) (buffered : Bool) : Sender where
  round := if sender.next + 1 = partners then sender.round + 1 else sender.round
  next := if sender.next + 1 = partners then 0 else sender.next + 1
  waiting := if buffered then none else some target
  stopped := sender.stopped

/-- Where the receive loop stands: at its top, after rank 0's first probe, in the receives
of one iteration, or past the loop. -/
inductive ReceivePhase where
  | top | probed | receiving | returned
  deriving DecidableEq

structure Receiver where
  phase : ReceivePhase := .top
  bcasts : Nat := 0
  buffers : List Message := []
  published : List (List Message) := []

structure State where
  senders : Nat → Sender
  receivers : Nat → Receiver
  data : Nat → Nat → FifoChannel Message
  stop : FifoChannel Unit
  /-- The values rank 0 of the receivers has broadcast. -/
  flags : List Bool

namespace State

def setSender (s : State) (rank : Nat) (sender : Sender) : State :=
  { s with senders := fun r => if r = rank then sender else s.senders r }

def setReceiver (s : State) (rank : Nat) (receiver : Receiver) : State :=
  { s with receivers := fun r => if r = rank then receiver else s.receivers r }

def setData (s : State) (source target : Nat) (c : FifoChannel Message) : State :=
  { s with data := fun j i => if j = source ∧ i = target then c else s.data j i }

end State

inductive Action where
  | send (rank : Nat) (buffered : Bool)
  | sendReturn (rank : Nat)
  | stopRound (rank : Nat)
  | arrive (source target : Nat)
  | arriveStop
  | probe
  | iprobe
  | bcast (rank : Nat)
  | receive (rank : Nat)
  | publish (rank : Nat)

namespace State

def new : State where
  senders _ := {}
  receivers _ := {}
  data _ _ := .empty
  stop := .empty
  flags := []

def step (x : Exchange) (s : State) : Action → Option State
  | .send rank buffered => do
    let sender := s.senders rank
    let target ← (x.sendRanks rank)[sender.next]?
    if rank < x.senders ∧ sender.waiting = none ∧ sender.round < x.rounds then
      let c := (s.data rank target).send ⟨rank, target, sender.round⟩
      return (s.setData rank target c).setSender rank
        (sender.advance (x.sendRanks rank).length target buffered)
    else none
  | .sendReturn rank => do
    let target ← (s.senders rank).waiting
    if (s.data rank target).Drained then
      return s.setSender rank { s.senders rank with waiting := none }
    else none
  | .stopRound rank =>
    let sender := s.senders rank
    if rank < x.senders ∧ sender.waiting = none ∧ sender.round = x.rounds ∧ !sender.stopped then
      let s := s.setSender rank { sender with stopped := true }
      some (if rank = 0 then { s with stop := s.stop.send () } else s)
    else none
  | .arrive source target => do
    return s.setData source target (← (s.data source target).arrive)
  | .arriveStop => do return { s with stop := ← s.stop.arrive }
  | .probe =>
    let receiver := s.receivers 0
    -- `MPI_ANY_TAG`: a data message or the stop message
    if receiver.phase = .top ∧ ((s.data 0 0).probe || s.stop.probe) then
      some (s.setReceiver 0 { receiver with phase := .probed })
    else none
  | .iprobe =>
    let receiver := s.receivers 0
    if receiver.phase = .probed then
      match s.stop.receive with
      | some (_, stop) =>
        some { s.setReceiver 0 { receiver with phase := .returned, bcasts := receiver.bcasts + 1 } with
          stop := stop, flags := s.flags ++ [true] }
      | none =>
        some { s.setReceiver 0 { receiver with phase := .receiving, bcasts := receiver.bcasts + 1 } with
          flags := s.flags ++ [false] }
    else none
  | .bcast rank => do
    let receiver := s.receivers rank
    let stop ← s.flags[receiver.bcasts]?
    if 0 < rank ∧ rank < x.receivers ∧ receiver.phase = .top then
      return s.setReceiver rank { receiver with
        phase := if stop then .returned else .receiving
        bcasts := receiver.bcasts + 1 }
    else none
  | .receive rank => do
    let receiver := s.receivers rank
    let source ← (x.receiveRanks rank)[receiver.buffers.length]?
    if receiver.phase = .receiving then
      let (m, c) ← (s.data source rank).receive
      return (s.setData source rank c).setReceiver rank
        { receiver with buffers := receiver.buffers ++ [m] }
    else none
  | .publish rank =>
    let receiver := s.receivers rank
    if receiver.phase = .receiving ∧ receiver.buffers.length = (x.receiveRanks rank).length then
      some (s.setReceiver rank { receiver with
        phase := .top
        buffers := []
        published := receiver.published ++ [receiver.buffers] })
    else none

end State

def exchangeMachine (x : Exchange) : Machine State Action where
  initial := State.new
  step := State.step x

end Henson.Tools
