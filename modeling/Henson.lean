import Henson.Library.TransitionSystem
import Henson.Library.OrderedMulticast
import Henson.Library.ListSplit
import Henson.Library.Blocks
import Henson.Library.FifoChannel
import Henson.Library.LittleEndian
import Henson.Library.MachineInt
import Henson.Library.Throwing
import Henson.Library.Peg
import Henson.Library.Scanner
import Henson.Library.Delimiter
import Henson.Library.Associative
import Henson.Library.Slices
import Henson.Library.RowMajor
import Henson.Library.Threads
import Henson.Library.AddressSpace
import Henson.Library.Rendezvous
import Henson.Serialization.MemoryBuffer
import Henson.Serialization.Nested
import Henson.Serialization.BoxedValue
import Henson.Serialization.BoxedRoundTrip
import Henson.Serialization.SerialType
import Henson.Serialization.RoundTrip
import Henson.Serialization.Overwriting
import Henson.Serialization.Transport
import Henson.Procs.ProcMap
import Henson.Procs.Levels
import Henson.Procs.Ranks
import Henson.Procs.Lookups
import Henson.Procs.LookupOrder
import Henson.Procs.ParseProcs
import Henson.Data.NameMap
import Henson.Data.Guards
import Henson.Data.Storage
import Henson.Data.ArrayViews
import Henson.Puppets.CommandLine
import Henson.Puppets.NumpyArray
import Henson.Scheduler.Controller
import Henson.Scheduler.Allocation
import Henson.Scheduler.System
import Henson.Scheduler.ExactlyOnce
import Henson.Scheduler.Results
import Henson.Scheduler.UnknownAnswers
import Henson.Scheduler.WorkOrder
import Henson.Scheduler.Finish
import Henson.Scheduler.Listening
import Henson.Scheduler.SignalStop
import Henson.Scheduler.Progress
import Henson.Scheduler.Dispatch
import Henson.Scheduler.JobMessage
import Henson.Scheduler.Wire
import Henson.Scheduler.GroupSizes
import Henson.Scheduler.Schedule
import Henson.Scheduler.Communicator
import Henson.Tools.SendReceive
import Henson.Tools.Shutdown
import Henson.Tools.Async
import Henson.Tools.AsyncInvariant
import Henson.Tools.AsyncSafety
import Henson.Tools.AsyncProgress
import Henson.Tools.Packing
import Henson.Tools.Messages
import Henson.Tools.Redistribution
import Henson.Tools.Snapshot
import Henson.Tools.Timer
import Henson.Coroutine.Transfer
import Henson.Coroutine.Create
import Henson.Coroutine.System
import Henson.Coroutine.Isolation
import Henson.Coroutine.Resumption
import Henson.Coroutine.Stack
import Henson.Parser.Combinators
import Henson.Parser.Packrat
import Henson.Parser.Nonterminal
import Henson.Parser.Frame
import Henson.Parser.Stream
import Henson.Parser.Position
import Henson.Parser.StreamView
import Henson.Hwl.Syntax
import Henson.Hwl.Executor
import Henson.Hwl.SmallStep
import Henson.Hwl.StopFlag
import Henson.Hwl.History
import Henson.Hwl.Times
import Henson.Hwl.Indent
import Henson.Hwl.Grammar
import Henson.Hwl.Loading
import Henson.Hwl.Stopping
import Henson.Hwl.Main
import Henson.Hwl.Reading
import Henson.Hwl.Refinement
import Henson.Hwl.Command
import Henson.Hwl.Expansion
import Henson.Hwl.WellFormed
import Henson.Hwl.Acceptance
import Henson.Hwl.TokenLines
import Henson.Hwl.Locality
import Henson.Hwl.CommentLine
import Henson.Hwl.Pieces
import Henson.Hwl.Depths
import Henson.Hwl.Comments
import Henson.Hwl.LineEndings
import Henson.Hwl.Printing
import Henson.Wrap.Lexer
import Henson.Wrap.Parser
import Henson.Wrap.Printing
import Henson.Wrap.RoundTrip
