import Mathlib.Order.Interval.Set.Basic
import Mathlib.Tactic.Linarith
import Henson.Library.MachineInt
import Henson.Library.TransitionSystem
import Henson.Procs.ProcMap
import Henson.Serialization.BoxedValue

/-!
# The scheduler's controller

The state and the operations of `Scheduler` on rank 0. A call of `control` or
`finish` is a loop that other ranks run beside, so the controller is a machine
whose phase says where in such a call it stands; one turn of a loop is one step.
A clock reading is a number of ticks supplied with the step.
-/

namespace Henson

open MachineInt TransitionSystem

abbrev Time := Int

/-- The world communicator and the number of its ranks that are controllers. -/
structure World where
  size : Nat
  controllerRanks : Nat
  controllerRanks_pos : 1 ≤ controllerRanks
  controllerRanks_le : controllerRanks ≤ size
  size_lt : size < 2 ^ 31

def World.workers (w : World) : Nat := w.size - w.controllerRanks

structure Job where
  id : Nat
  name : StdString
  function : StdString
  arg : MemoryBuffer
  groups : ProcMap.Vector
  size : Nat
  deriving DecidableEq

structure ActiveJob where
  first : Nat
  last : Nat
  start : Time
  deriving DecidableEq

def ActiveJob.ranks (aj : ActiveJob) : Set Nat := Set.Icc aj.first aj.last

structure TimeRecord where
  id : Nat
  name : StdString
  duration : Time
  deriving DecidableEq

/-- The message that `run_job` sends to every rank of a job. -/
structure JobMessage where
  first : Nat
  last : Nat
  job : Job
  deriving DecidableEq

structure Answer where
  source : Nat
  id : Nat
  name : StdString
  result : MemoryBuffer
  deriving DecidableEq

/-- `jobId` is a `size_t`: fewer than `2 ^ 64` jobs are scheduled. -/
structure Scheduler where
  jobs : List Job
  activeJobs : Std.ExtTreeMap Nat ActiveJob compare
  results : List MemoryBuffer
  jobTimes : List TimeRecord
  jobId : Nat
  availableProcs : List Bool

def Scheduler.Active (s : Scheduler) (id : Nat) (aj : ActiveJob) : Prop :=
  s.activeJobs[id]? = some aj

/-- `for (i = first; i <= last; ++i) procs[i] = value` -/
def setProcs (procs : List Bool) (first last : Nat) (value : Bool) : List Bool :=
  (List.range' first (last + 1 - first)).foldl (fun procs i => procs.set i value) procs

namespace Scheduler

def new (w : World) : Scheduler where
  jobs := []
  activeJobs := ∅
  results := []
  jobTimes := []
  jobId := 0
  availableProcs :=
    (List.range w.controllerRanks).foldl (fun procs rk => procs.set rk false)
      (List.replicate w.size true)

def newJob (s : Scheduler) (name function : StdString) (arg : MemoryBuffer)
    (groups : ProcMap.Vector) (size : Int32) : Job :=
  ⟨s.jobId, name, function, arg, groups, toSizeT size⟩

def schedule (s : Scheduler) (name function : StdString) (arg : MemoryBuffer)
    (groups : ProcMap.Vector) (size : Int32) : Scheduler :=
  { s with
    jobs := s.jobs ++ [s.newJob name function arg groups size]
    jobId := s.jobId + 1 }

/-- The search loop of `findAvailableProcs` from rank `i` on, after `procs` available ranks. -/
def findAvailableProcsFrom (numProcs total : Nat) : Nat → Nat → List Bool → Nat
  | _, _, [] => total
  | i, procs, available :: rest =>
    let procs := if available then procs + 1 else 0
    if procs = numProcs then subSizeT i (subSizeT procs 1)
    else findAvailableProcsFrom numProcs total (i + 1) procs rest

def findAvailableProcs (available : List Bool) (numProcs : Nat) : Nat :=
  findAvailableProcsFrom numProcs available.length 1 0 available.tail

def canRun (s : Scheduler) : Bool :=
  match s.jobs with
  | [] => false
  | job :: _ => findAvailableProcs s.availableProcs job.size < s.availableProcs.length

/-- `run_job`, with the message it sends to the ranks from `first` to `last`. -/
def runJob (s : Scheduler) (now : Time) : Option (Scheduler × JobMessage) :=
  match s.jobs with
  | [] => none
  | job :: jobs =>
    let first := findAvailableProcs s.availableProcs job.size
    let last := subSizeT (addSizeT first job.size) 1
    some ({ s with
      jobs := jobs
      availableProcs := setProcs s.availableProcs first last false
      activeJobs := s.activeJobs.insert job.id ⟨first, last, now⟩ }, ⟨first, last, job⟩)

def unfinishedJobs (s : Scheduler) : Bool := !s.activeJobs.isEmpty

def controlResult (s : Scheduler) : Bool := s.unfinishedJobs || !s.jobs.isEmpty

/-- One turn of the loop of `check_for_complete_jobs`. An unknown id is only logged;
`operator[]` then inserts a zero entry for it, which is erased again. -/
def handleAnswer (s : Scheduler) (endTime : Time) (a : Answer) : Scheduler :=
  let aj := (s.activeJobs[a.id]?).getD ⟨0, 0, 0⟩
  { s with
    results := s.results ++ [a.result]
    activeJobs := s.activeJobs.erase a.id
    availableProcs := setProcs s.availableProcs aj.first aj.last true
    jobTimes := s.jobTimes ++ [⟨a.id, a.name, endTime - aj.start⟩] }

/-- `pop`: the front of a queue that must not be empty. -/
def pop (s : Scheduler) : Option (MemoryBuffer × Scheduler) :=
  match s.results with
  | [] => none
  | mb :: results => some (mb, { s with results := results })

end Scheduler

/-- Where the controller stands: in no call, in the two loops of `control`, in the
waiting loop of `finish` or in the call of `check_for_complete_jobs` it makes. The program makes
one call after the other on one thread, and none after `finish`. -/
inductive Phase where
  | ready | checking | dispatching | finishing | draining | stopped
  deriving DecidableEq

structure Controller where
  scheduler : Scheduler
  phase : Phase

inductive ControllerAction where
  | schedule (name function : StdString) (arg : MemoryBuffer) (groups : ProcMap.Vector)
      (size : Int32)
  | pop
  | control
  | answer (now : Time) (a : Answer)
  | noAnswer
  | runJob (now : Time)
  | controlReturn
  | finish
  | check
  | signalStop

namespace Controller

def new (w : World) : Controller := ⟨Scheduler.new w, .ready⟩

def step (c : Controller) : ControllerAction → Option Controller
  | .schedule name function arg groups size =>
    if c.phase = .ready then
      some { c with scheduler := c.scheduler.schedule name function arg groups size }
    else none
  | .pop =>
    if c.phase = .ready then
      c.scheduler.pop.map fun p => { c with scheduler := p.2 }
    else none
  | .control => if c.phase = .ready then some { c with phase := .checking } else none
  | .answer now a =>
    if c.phase = .checking ∨ c.phase = .draining then
      some { c with scheduler := c.scheduler.handleAnswer now a }
    else none
  | .noAnswer =>
    match c.phase with
    | .checking => some { c with phase := .dispatching }
    | .draining => some { c with phase := .finishing }
    | _ => none
  | .runJob now =>
    if c.phase = .dispatching ∧ c.scheduler.canRun then
      (c.scheduler.runJob now).map fun p => { c with scheduler := p.1 }
    else none
  | .controlReturn =>
    if c.phase = .dispatching ∧ !c.scheduler.canRun then some { c with phase := .ready } else none
  | .finish => if c.phase = .ready then some { c with phase := .finishing } else none
  | .check =>
    if c.phase = .finishing ∧ c.scheduler.unfinishedJobs then some { c with phase := .draining }
    else none
  | .signalStop =>
    if c.phase = .finishing ∧ !c.scheduler.unfinishedJobs then some { c with phase := .stopped }
    else none

end Controller

/-- The controller in an environment that may send any answer at any time. -/
def controllerMachine (w : World) : Machine Controller ControllerAction where
  initial := Controller.new w
  step := Controller.step

end Henson
