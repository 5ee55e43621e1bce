import Mathlib.Logic.Function.Basic
import Nordstjernen.Lib.Run

namespace Nordstjernen.Net.Throttle

def maxConcurrentFetches : Nat := 32

def maxFetchesPerHost : Nat := 6

-- What has happened to a fetch task.
inductive Phase
  | fresh
  | queued
  -- Taken off the queue by a dispatch that has not called `g_task_run_in_thread` for it yet.
  | chosen
  | started
  | finished
deriving DecidableEq

variable (ι η : Type)

structure State where
  -- `g_fetch_queue`, `g_fetch_active` and `g_fetch_host_active`. A host without an entry has none.
  queue       : List ι := []
  active      : Nat := 0
  hostActive  : η → Nat := fun _ => 0
  phases      : ι → Phase := fun _ => .fresh
  -- How many calls of `ns_fetch_throttle_dispatch` are about to lock.
  dispatching : Nat := 0
  -- The order in which tasks were submitted, taken off the queue and handed to a thread.
  submitted   : List ι := []
  chosen      : List ι := []
  started     : List ι := []

-- Locked sections and the actions between them, by any thread.
inductive Event
  -- `ns_fetch_throttle_submit`
  | submit (task : ι)
  -- One iteration of `ns_fetch_throttle_dispatch` up to its `g_mutex_unlock`.
  | dispatch
  -- The rest of such an iteration that has chosen a task.
  | start (task : ι)
  -- The end of `ns_fetch_thread`.
  | finish (task : ι)

variable {ι η} [DecidableEq ι] [DecidableEq η]

-- `ns_fetch_host_adjust_locked`
def hostAdjust (table : η → Nat) (host : Option η) (delta : Int) : η → Nat :=
  match host with
  | none   => table
  | some h => Function.update table h (table h + delta).toNat

-- `ns_fetch_task_host`
variable (host : ι → Option η)

namespace State

variable (s : State ι η)

-- Whether the scan of the queue stops at a task.
def mayRun (task : ι) : Bool :=
  match host task with
  | none   => true
  | some h => s.hostActive h < maxFetchesPerHost

def choose (task : ι) : State ι η :=
  { s with
    queue      := s.queue.erase task
    active     := s.active + 1
    hostActive := hostAdjust s.hostActive (host task) 1
    phases     := Function.update s.phases task .chosen
    chosen     := s.chosen ++ [task] }

-- A dispatch that chooses no task returns.
def dispatch : State ι η :=
  let s := { s with dispatching := s.dispatching - 1 }
  if maxConcurrentFetches ≤ s.active ∨ s.queue = [] then s
  else
    match s.queue.find? (s.mayRun host) with
    | none      => s
    | some task => s.choose host task

def submit (task : ι) : State ι η :=
  { s with
    queue       := s.queue ++ [task]
    phases      := Function.update s.phases task .queued
    dispatching := s.dispatching + 1
    submitted   := s.submitted ++ [task] }

def start (task : ι) : State ι η :=
  { s with
    phases      := Function.update s.phases task .started
    dispatching := s.dispatching + 1
    started     := s.started ++ [task] }

def finish (task : ι) : State ι η :=
  { s with
    active      := s.active - 1
    hostActive  := hostAdjust s.hostActive (host task) (-1)
    phases      := Function.update s.phases task .finished
    dispatching := s.dispatching + 1 }

def step (s : State ι η) : Event ι → Option (State ι η)
  | .submit task => if s.phases task = .fresh then some (s.submit task) else none
  | .dispatch    => if 0 < s.dispatching then some (s.dispatch host) else none
  | .start task  => if s.phases task = .chosen then some (s.start task) else none
  | .finish task => if s.phases task = .started then some (s.finish host task) else none

-- The tasks that hold a slot: taken off the queue and not finished.
def running : List ι :=
  s.chosen.filter fun task => s.phases task ≠ .finished

-- Whether no dispatch is in progress.
def Quiescent : Prop :=
  s.dispatching = 0 ∧ ∀ task, s.phases task ≠ .chosen

def ofHost (h : Option η) (tasks : List ι) : List ι :=
  tasks.filter (host · = h)

-- What the limits promise. `order` is the order in which the tasks of a host follow each other.
structure Throttled (order : List ι) : Prop where
  active     : s.active = s.running.length
  atMost     : s.active ≤ maxConcurrentFetches
  hostActive : ∀ h, s.hostActive h = (ofHost host (some h) s.running).length
  hostAtMost : ∀ h, s.hostActive h ≤ maxFetchesPerHost
  inOrder    : ∀ h, ofHost host (some h) order <+: ofHost host (some h) s.submitted
  noneLeft   : s.Quiescent → ∀ task ∈ s.queue, s.mayRun host task → maxConcurrentFetches ≤ s.active

end State

end Nordstjernen.Net.Throttle
