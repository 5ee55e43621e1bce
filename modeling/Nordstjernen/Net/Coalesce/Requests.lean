import Mathlib.Algebra.Ring.Nat
import Mathlib.Data.List.Nodup
import Mathlib.Logic.Function.Basic
import Nordstjernen.Glib.Strings
import Nordstjernen.Lib.Run

open Nordstjernen.Glib

namespace Nordstjernen.Net.Coalesce

-- The fields of `ns_response` that the store looks at.
structure Response where
  status     : Int
  error      : Option CString
  body       : Option CString
  rawHeaders : Option CString
deriving DecidableEq

namespace Response

variable (r : Response)

def bodyLen : Nat :=
  (r.body.getD []).length

-- `ns_response_copy`
def copy : Response :=
  { r with body := some (r.body.getD []) }

-- `ns_response_forbids_reuse`
def forbidsReuse : Bool :=
  match r.rawHeaders with
  | none   => false
  | some h => strstr (gAsciiStrdown h) "no-store".toList

end Response

-- An entry of `g_preload_store`. The caller whose response was copied is not part of the source.
structure Stored (κ ι : Type) where
  key      : κ
  source   : ι
  response : Response

def preloadMaxEntries : Nat := 64

def preloadMaxBytes : Nat := 16 * 1024 * 1024

-- `g_preload_expected`, `g_preload_store` and `g_preload_bytes`.
structure Preload (κ ι : Type) where
  expected : List κ := []
  store    : List (Stored κ ι) := []
  bytes    : Nat := 0

namespace Preload

variable {κ ι : Type} [DecidableEq κ] (p : Preload κ ι)

-- `ns_net_preload_expect`
def expect (key : κ) : Preload κ ι :=
  if p.expected.length < preloadMaxEntries
  then { p with expected := p.expected.insert key }
  else p

-- `ns_net_preload_clear`
def clear (_ : Preload κ ι) : Preload κ ι :=
  { expected := [], store := [], bytes := 0 }

def forget (key : κ) : Preload κ ι :=
  { p with expected := p.expected.erase key }

-- `ns_preload_take_locked`. Its guarded subtraction is the one of natural numbers.
def take (key : κ) : Option (Stored κ ι × Preload κ ι) :=
  (p.store.find? (·.key = key)).map fun e => (e, { p with
    store := p.store.filter (·.key ≠ key)
    bytes := p.bytes - e.response.bodyLen })

-- `ns_preload_store_locked`
def storeLocked (key : κ) (source : ι) (r : Response) : Preload κ ι :=
  if key ∉ p.expected then
    p
  else
    let p := p.forget key
    if r.status ≠ 200 ∨ r.error.isSome ∨ r.body.isNone then p
    else if preloadMaxBytes < r.bodyLen then p
    else if preloadMaxBytes < p.bytes + r.bodyLen then p
    else if r.forbidsReuse then p
    else if p.store.any (·.key = key) then p
    else { p with
      bytes := p.bytes + r.bodyLen
      store := p.store ++ [{ key, source, response := r.copy }] }

-- The sizes of the stored bodies.
def size (store : List (Stored κ ι)) : Nat :=
  (store.map (·.response.bodyLen)).sum

end Preload

end Nordstjernen.Net.Coalesce

namespace Nordstjernen.Net.Coalesce

-- What `ns_fetch_sync` ends with: a response, or no response and the message of an error.
abbrev Outcome := Except CString Response

namespace Outcome

-- What a joiner is given of the outcome of its leader.
def copy (out : Outcome) : Outcome :=
  out.map Response.copy

def abandoned : Outcome :=
  .error "shared fetch abandoned".toList

def shuttingDown : Outcome :=
  .error "shutting down".toList

end Outcome

-- Where a caller is that performs its fetch itself: on its way to the queue, in `g_fetch_queue`, in
-- `ns_fetch_sync`, or in the list of the tasks that the shutdown has taken off the queue.
inductive Place
  | starting
  | queued
  | running
  | dropped
deriving DecidableEq

variable (κ ι : Type)

-- What becomes of the caller of one request.
inductive Phase
  | fresh
  -- The key is `none` for a request that is not shared.
  | lead (place : Place) (key : Option κ)
  -- A task in a coalesce group, until the leader has completed it.
  | joined (key : κ) (leader : ι)
  -- A blocking caller in `ns_fetch_join_sync`, until its `done` is set.
  | waiting (key : κ) (leader : ι)
  | returning (out : Outcome)
  -- A leader that has left the table and completes the tasks of its group before itself.
  | handing (out : Outcome) (tasks : List ι)
  | done

-- `ns_coalesce_group`, together with the caller that has opened it.
structure Group where
  leader : ι
  tasks  : List ι := []
  syncs  : List ι := []

-- What happens to the callers, as a history that the program does not keep.
inductive Entry
  | led (caller : ι) (key : κ)
  | joined (caller leader : ι) (key : κ) (blocking : Bool)
  | delivered (leader : ι) (out : Outcome)
  | took (caller source : ι)
  | gaveUp (caller : ι)
  | completed (caller : ι) (out : Outcome)
deriving DecidableEq

inductive Event
  -- `ns_net_request_async` or `ns_net_request_blocking` up to the end of the first locked section.
  | request (caller : ι) (key : Option κ) (blocking : Bool)
  -- `ns_fetch_throttle_submit`
  | submit (caller : ι)
  -- The thread of a task enters `ns_fetch_sync`.
  | start (caller : ι)
  -- `ns_fetch_sync` returns, and the locked section of `ns_fetch_coalesce_deliver` follows.
  | deliver (caller : ι) (out : Outcome)
  -- One iteration of the loop over the tasks in `ns_fetch_coalesce_deliver`.
  | handOver (caller : ι)
  | complete (caller : ι)
  -- The wait in `ns_fetch_join_sync` ends without a result: by its deadline, or by the shutdown.
  | giveUp (caller : ι)
  | expect (key : κ)
  | clear
  -- `ns_net_drain` empties the queue, and abandons each of its tasks.
  | drain
  | abandon (caller : ι)

structure State where
  phases  : ι → Phase κ ι := fun _ => .fresh
  groups  : κ → Option (Group ι) := fun _ => none
  preload : Preload κ ι := {}
  -- The callers so far, and their history with the newest entry in front.
  issued  : List ι := []
  log     : List (Entry κ ι) := []

variable {κ ι} [DecidableEq κ] [DecidableEq ι]

namespace State

variable (s : State κ ι)

def setPhase (caller : ι) (phase : Phase κ ι) : State κ ι :=
  { s with phases := Function.update s.phases caller phase }

def record (entry : Entry κ ι) : State κ ι :=
  { s with log := entry :: s.log }

def setGroup (key : κ) (group : Option (Group ι)) : State κ ι :=
  { s with groups := Function.update s.groups key group }

-- The callers of a list of waiters get their result.
def wake (callers : List ι) (out : Outcome) : State κ ι :=
  { s with phases := fun c => if c ∈ callers then .returning out else s.phases c }

def joinGroup (key : κ) (group : Group ι) (caller : ι) (blocking : Bool) : State κ ι :=
  if blocking then
    ((s.setGroup key (some { group with syncs := group.syncs ++ [caller] })).setPhase caller
      (.waiting key group.leader)).record (.joined caller group.leader key true)
  else
    ((s.setGroup key (some { group with tasks := group.tasks ++ [caller] })).setPhase caller
      (.joined key group.leader)).record (.joined caller group.leader key false)

-- `ns_fetch_claim_locked`, and what `ns_fetch_join_async` and `ns_fetch_join_sync` make of it.
def claim (key : κ) (caller : ι) (blocking : Bool) : State κ ι :=
  match s.preload.take key with
  | some (e, preload) =>
    ({ s with preload }.setPhase caller (.returning (.ok e.response))).record (.took caller e.source)
  | none =>
    match s.groups key with
    | some group => s.joinGroup key group caller blocking
    | none       =>
      ((s.setGroup key (some { leader := caller })).setPhase caller
        (.lead (if blocking then .running else .starting) (some key))).record (.led caller key)

def request (caller : ι) (key : Option κ) (blocking : Bool) : State κ ι :=
  let s := { s with issued := caller :: s.issued }
  match key with
  | none     => s.setPhase caller (.lead (if blocking then .running else .starting) none)
  | some key => s.claim key caller blocking

-- The locked section of `ns_fetch_coalesce_deliver`, which is skipped without a key.
def deliver (leader : ι) (key : Option κ) (out : Outcome) : State κ ι :=
  match key with
  | none     => (s.setPhase leader (.handing out [])).record (.delivered leader out)
  | some key =>
    let preload :=
      match out with
      | .ok resp => s.preload.storeLocked key leader resp
      | .error _ => s.preload.forget key
    let group := (s.groups key).getD { leader }
    ((({ s with preload }.setGroup key none).wake group.syncs out.copy).setPhase leader
      (.handing out group.tasks)).record (.delivered leader out)

-- The queue in `g_fetch_queue` is emptied. Its order does not matter here.
def drain : State κ ι :=
  { s with phases := fun c =>
      match s.phases c with
      | .lead .queued key => .lead .dropped key
      | phase             => phase }

def finish (caller : ι) (out : Outcome) : State κ ι :=
  (s.setPhase caller .done).record (.completed caller out)

def leaveGroup (key : κ) (caller : ι) : State κ ι :=
  s.setGroup key ((s.groups key).map fun group => { group with syncs := group.syncs.erase caller })

-- One locked section, or one action between two of them. An event that does not fit is refused.
def step (s : State κ ι) : Event κ ι → Option (State κ ι)
  | .request c key blocking =>
    match s.phases c with
    | .fresh => some (s.request c key blocking)
    | _      => none
  | .submit c =>
    match s.phases c with
    | .lead .starting key => some (s.setPhase c (.lead .queued key))
    | _                   => none
  | .start c =>
    match s.phases c with
    | .lead .queued key => some (s.setPhase c (.lead .running key))
    | _                 => none
  | .deliver c out =>
    match s.phases c with
    | .lead .running key => some (s.deliver c key out)
    | _                  => none
  | .handOver c =>
    match s.phases c with
    | .handing out (t :: ts) => some ((s.finish t out.copy).setPhase c (.handing out ts))
    | _                      => none
  | .complete c =>
    match s.phases c with
    | .returning out  => some (s.finish c out)
    | .handing out [] => some (s.finish c out)
    | _               => none
  | .giveUp c =>
    match s.phases c with
    | .waiting key _ =>
      some (((s.leaveGroup key c).record (.gaveUp c)).finish c Outcome.abandoned)
    | _ => none
  | .expect key => some { s with preload := s.preload.expect key }
  | .clear      => some { s with preload := s.preload.clear }
  | .drain      => some s.drain
  | .abandon c  =>
    match s.phases c with
    | .lead .dropped key => some (s.deliver c key Outcome.shuttingDown)
    | _                  => none

end State

end Nordstjernen.Net.Coalesce

namespace Nordstjernen.Net.Coalesce

variable {κ ι : Type} [DecidableEq κ] [DecidableEq ι]

namespace Entry

def completedBy : Entry κ ι → Option ι
  | completed c _ => some c
  | _             => none

def takenFrom : Entry κ ι → Option ι
  | took _ source => some source
  | _             => none

end Entry

-- The events that callers, threads and waits bring about by themselves, once a request is made.
def Event.isInternal : Event κ ι → Bool
  | request .. | expect _ | clear | drain => false
  | _                                     => true

-- How many steps of its own a caller may still take.
def Phase.rank : Phase κ ι → Nat
  | fresh | done          => 0
  | lead .starting _      => 5
  | lead .queued _        => 4
  | lead .running _       => 3
  | lead .dropped _       => 3
  | waiting ..            => 2
  | handing ..            => 2
  | joined ..             => 1
  | returning _           => 1

namespace State

variable (s : State κ ι)

def completed : List ι :=
  s.log.filterMap Entry.completedBy

-- The leaders whose stored response was handed out.
def taken : List ι :=
  s.log.filterMap Entry.takenFrom

-- Whether a caller performs a fetch for a key whose outcome it has not delivered yet.
def InFlight (caller : ι) (key : κ) : Prop :=
  ∃ place, s.phases caller = .lead place (some key)

-- Whether a result is a copy of what a leader has delivered.
def IsCopyFrom (leader : ι) (out : Outcome) : Prop :=
  ∃ own, .delivered leader own ∈ s.log ∧ out = own.copy

-- Whether a caller has left its wait without a result.
def GaveUp (caller : ι) (out : Outcome) : Prop :=
  .gaveUp caller ∈ s.log ∧ out = Outcome.abandoned

-- At the time of each join its leader has claimed the key and has not delivered anything yet.
def JoinsInFlight : Prop :=
  ∀ c l k b past, .joined c l k b :: past <:+ s.log →
    .led l k ∈ past ∧ ∀ out, .delivered l out ∉ past

-- What every caller can rely on, where `Result` says what a joiner may be given.
structure Serves (Result : State κ ι → ι → ι → Outcome → Prop) : Prop where
  once     : s.completed.Nodup
  -- A caller is uncompleted only as long as a step is left other than cutting a wait short, and each
  -- step brings the end closer.
  finished : (∀ e, e.isInternal → (∀ c, e ≠ .giveUp c) → s.step e = none) →
    ∀ c ∈ s.issued, c ∈ s.completed
  progress : ∀ e t, e.isInternal → s.step e = some t →
    (t.issued.map (t.phases · |>.rank)).sum < (s.issued.map (s.phases · |>.rank)).sum
  inFlight : s.JoinsInFlight
  result   : ∀ c l k b out, .joined c l k b ∈ s.log → .completed c out ∈ s.log → Result s c l out
  group    : ∀ k g, s.groups k = some g → s.InFlight g.leader k
  handOut  : s.taken.Nodup
  bytes    : s.preload.bytes = Preload.size s.preload.store
  cap      : s.preload.bytes ≤ preloadMaxBytes

end State

-- A joiner gets a copy of the outcome of its leader.
def JoinerGetsCopy (s : State κ ι) (_ leader : ι) (out : Outcome) : Prop :=
  s.IsCopyFrom leader out

-- The same, unless it has given up waiting.
def JoinerGetsCopyOrGivesUp (s : State κ ι) (caller leader : ι) (out : Outcome) : Prop :=
  s.IsCopyFrom leader out ∨ s.GaveUp caller out

end Nordstjernen.Net.Coalesce
