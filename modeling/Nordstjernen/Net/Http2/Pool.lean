import Mathlib.Algebra.Ring.Nat
import Nordstjernen.Lib.Run
import Nordstjernen.Net.Http2.Conn

namespace Nordstjernen.Net.Http2

-- `ns_pool_entry`
structure Entry (κ : Type) where
  conns      : List κ := []
  connecting : Bool := false

-- The callbacks of `nghttp2_session_send` and `nghttp2_session_mem_recv` that change a request or its
-- connection.
inductive Callback
  | writeFailed
  | goaway
  | data (id len : Nat)
  | close (id : Nat) (code : UInt32) (now : Int)

structure State (ρ κ ο : Type) where
  requests : ρ → Request κ ο
  conns    : κ → Conn ρ := fun _ => {}
  created  : List κ := []
  -- The keys of `g_pool`, and its entries, where an entry that is not there is like an empty one.
  keys     : List ο := []
  entries  : ο → Entry κ := fun _ => {}
  -- Who holds `g_pool_lock` over more than one locked section.
  poolLock : Option ρ := none

-- Locked sections of the requesting threads and of the I/O threads, with what comes from outside.
inductive Event (ρ κ ο : Type)
  | call (r : ρ)
  -- `ns_h2_pool_attach`, with the order in which the sweep visits the entries.
  | lockPool (r : ρ) (order : List ο)
  | sweep (r : ρ) (now : Int)
  | find (r : ρ) (now : Int)
  | resume (r : ρ) (timedOut aborting : Bool)
  -- `ns_h2_conn_open`, which may get no socket.
  | openFailed (r : ρ) (tls : Option Tls)
  | connOpen (r : ρ) (k : κ) (tls : Tls) (now : Int)
  | firstPush (r : ρ)
  | connectDone (r : ρ)
  | runHttp1 (r : ρ)
  | wake (r : ρ)
  | unref (r : ρ)
  | joined (r : ρ)
  -- An iteration of `ns_h2_io_thread` up to its poll: the requests whose submission fails, the callbacks
  -- and the result of `nghttp2_session_send`, and the requests that `ns_h2_should_abort`.
  | iterate (k : κ) (rejected : List ρ) (sent : List Callback) (sendFailed : Bool) (aborting : List ρ)
    (now : Int)
  -- The poll or `SSL_read` fails; `SSL_read` has data; it has none.
  | ioFailed (k : κ)
  | recv (k : κ) (callbacks : List Callback) (failed : Bool)
  | quiet (k : κ)
  | leave (k : κ)

namespace State

section

variable {ρ κ ο : Type} [DecidableEq ρ] [DecidableEq κ] [DecidableEq ο] (s : State ρ κ ο)

def modifyConn (k : κ) (f : Conn ρ → Conn ρ) : State ρ κ ο :=
  { s with conns := Function.update s.conns k (f (s.conns k)) }

def modifyRequest (r : ρ) (f : Request κ ο → Request κ ο) : State ρ κ ο :=
  { s with requests := Function.update s.requests r (f (s.requests r)) }

def modifyEntry (o : ο) (f : Entry κ → Entry κ) : State ρ κ ο :=
  { s with entries := Function.update s.entries o (f (s.entries o)) }

def setPhase (r : ρ) (phase : Phase κ ο) : State ρ κ ο :=
  s.modifyRequest r ({ · with phase })

def origin (r : ρ) : ο :=
  (s.requests r).origin

-- The I/O thread

-- `ns_h2_submit_locked`, and what follows where it fails. There are no stream ids from 2³¹ on.
def submit (k : κ) (rejected : List ρ) (r : ρ) : State ρ κ ο :=
  let id := (s.conns k).session.nextId
  if r ∈ rejected ∨ 2 ^ 31 ≤ id then
    (s.modifyConn k ({ · with goaway := true })).modifyRequest r (·.fail)
  else
    (s.modifyConn k (·.submit r)).modifyRequest r fun c =>
      { c with streamId := id, submitted := true, sends := c.sends ++ [.stream k id] }

def submitPending (s : State ρ κ ο) (k : κ) (rejected : List ρ) : List ρ → State ρ κ ο
  | []      => s
  | r :: rs =>
    ((s.modifyConn k ({ · with pending := rs })).submit k rejected r).submitPending k rejected rs

-- `ns_h2_stream_close_cb`, and then the end of the stream.
def closeStream (k : κ) (id : Nat) (code : UInt32) (now : Int) : State ρ κ ο :=
  match (s.conns k).session.userData id with
  | none   => s.modifyConn k fun conn => { conn with lastUsed := now, session := conn.session.close id code }
  | some r =>
    (s.modifyConn k fun conn =>
      { conn.remove id with lastUsed := now, session := conn.session.close id code }).modifyRequest r
        (·.close code)

def callback (k : κ) : Callback → State ρ κ ο
  | .writeFailed       => s.modifyConn k ({ · with ioFailed := true })
  | .goaway            => s.modifyConn k ({ · with goaway := true })
  | .data id len       =>
    match (s.conns k).session.userData id with
    | none   => s
    | some r => s.modifyRequest r fun c => { c with gotFirstByte := c.gotFirstByte || decide (len ≠ 0) }
  | .close id code now => s.closeStream k id code now

-- `ns_h2_stream_detach`
def detach (k : κ) (r : ρ) : State ρ κ ο :=
  let c := s.requests r
  (if c.submitted then
    s.modifyConn k fun conn => { conn with session := conn.session.forget c.streamId }
  else
    s).modifyRequest r ({ · with done := true })

-- The iterations of the second loop of `ns_h2_io_scan_timeouts`.
def timeOut (k : κ) (r : ρ) : State ρ κ ο :=
  ((s.modifyRequest r ({ · with rst := true, streamOk := false })).detach k r).modifyConn k
    (·.remove (s.requests r).streamId)

def scanTimeouts (k : κ) (aborting : List ρ) : State ρ κ ο :=
  if (s.conns k).active = 0 then s
  else ((s.conns k).requests.filter (· ∈ aborting)).foldl (fun s r => s.timeOut k r) s

def iterate (k : κ) (rejected : List ρ) (sent : List Callback) (sendFailed : Bool) (aborting : List ρ)
    (now : Int) : State ρ κ ο :=
  let s := s.submitPending k rejected (s.conns k).pending
  let s := sent.foldl (fun s callback => s.callback k callback) s
  let s := s.modifyConn k fun conn => { conn with ioFailed := conn.ioFailed || sendFailed }
  (s.scanTimeouts k aborting).modifyConn k (·.settle now)

def recv (k : κ) (callbacks : List Callback) (failed : Bool) : State ρ κ ο :=
  let s := callbacks.foldl (fun s callback => s.callback k callback) s
  s.modifyConn k fun conn =>
    { conn with ioFailed := conn.ioFailed || failed, io := if failed then .top else .reading }

-- `ns_h2_io_fail_all`
def failAll (k : κ) : State ρ κ ο :=
  let conn := s.conns k
  let s := conn.pending.foldl (fun s r => s.modifyRequest r (·.fail)) s
  let s := conn.requests.foldl
    (fun s r => (s.modifyRequest r ({ · with streamOk := false })).detach k r) s
  s.modifyConn k ({ · with pending := [], streams := ∅, active := 0 })

-- The requesting threads

-- `ns_h2_pool_entry`
def openEntry (o : ο) : State ρ κ ο :=
  { s with keys := if o ∈ s.keys then s.keys else s.keys ++ [o] }

-- What `ns_h2_entry_find` begins with.
def enter (r : ρ) : State ρ κ ο :=
  (s.openEntry (s.origin r)).setPhase r (.finding (s.entries (s.origin r)).conns)

-- An iteration of `ns_h2_pool_sweep_locked`.
def sweep (r : ρ) (now : Int) (kept : Nat) : List (ο × List κ) → State ρ κ ο
  | []                      => s.enter r
  | (_, []) :: todo         => s.setPhase r (.sweeping todo 0)
  | (o, k :: conns) :: todo =>
    let overCap := decide (poolMaxPerOrigin ≤ kept)
    let s' := s.modifyConn k (·.retire overCap now)
    if (s.conns k).retires overCap now then
      (s'.modifyEntry o fun e => { e with conns := e.conns.erase k }).setPhase r
        (.unref k (.sweeping ((o, conns) :: todo) kept))
    else
      s'.setPhase r (.sweeping ((o, conns) :: todo) (kept + 1))

-- An iteration of `ns_h2_entry_find`, and what `ns_h2_pool_attach` does behind it.
def find (r : ρ) (now : Int) : List κ → State ρ κ ο
  | []         =>
    let s' := { s with poolLock := none }
    if (s.entries (s.origin r)).connecting then
      s'.setPhase r .parked
    else
      (s'.modifyEntry (s.origin r) ({ · with connecting := true })).setPhase r .connecting
  | k :: conns =>
    let s' := s.modifyConn k (·.wear)
    if (s'.conns k).dead then
      (s'.modifyEntry (s.origin r) fun e => { e with conns := e.conns.erase k }).setPhase r
        (.unref k (.finding conns))
    else if (s'.conns k).full then
      s'.setPhase r (.finding conns)
    else
      { s' with poolLock := none }.modifyConn k (·.reuse r now) |>.modifyRequest r
        ({ · with phase := .waiting k, reused := true, conn := some k })

-- The rest of `ns_h2_conn_open`, once there is a socket.
def connOpen (r : ρ) (k : κ) (isHttp2 insecure overridden : Bool) (now : Int) : State ρ κ ο :=
  ({ s with created := s.created ++ [k] }.modifyConn k fun _ =>
    { isHttp2, insecure, refs := 1, lastUsed := now, io := if isHttp2 then .top else .none }).modifyRequest
      r fun c =>
        { c with phase := .opened k, conn := some k, tlsWarning := c.tlsWarning || overridden }

-- What the thread that opened a connection does with its request.
def firstPush (r : ρ) (k : κ) : State ρ κ ο :=
  (s.modifyConn k fun conn => { conn with pending := conn.pending ++ [r] }).setPhase r (.pushed k)

-- `ns_h2_pool_connect_done`
def connectDone (r : ρ) (conn : Option κ) : State ρ κ ο :=
  let s' := (s.openEntry (s.origin r)).modifyEntry (s.origin r) fun e =>
    { e with connecting := false, conns := conn.toList ++ e.conns }
  match conn with
  | none   => s'
  | some k => s'.modifyConn k fun conn => { conn with refs := conn.refs + 1 }

-- The end of an attempt.
def wake (r : ρ) (k : κ) : State ρ κ ο :=
  if (s.requests r).retries then
    s.modifyRequest r ({ ·.reset with phase := .unref k .attaching })
  else
    s.setPhase r (.unref k .returned)

-- `ns_h2_conn_unref`, up to the `g_thread_join` of `ns_h2_conn_destroy`.
def unref (r : ρ) (k : κ) (next : Phase κ ο) : State ρ κ ο :=
  let s' := s.modifyConn k fun conn => { conn with refs := conn.refs - 1 }
  if (s'.conns k).refs ≠ 0 ∨ (s.conns k).io = .none then
    s'.setPhase r next
  else
    (s'.modifyConn k ({ · with stopping := true })).setPhase r (.joining k next)

-- An event that does not fit is refused.
def step (s : State ρ κ ο) : Event ρ κ ο → Option (State ρ κ ο)
  | .call r => if (s.requests r).phase = .fresh then some (s.setPhase r .attaching) else none
  | .lockPool r order =>
    if (s.requests r).phase = .attaching ∧ s.poolLock = none ∧ order.Perm s.keys then
      some ({ s with poolLock := some r }.setPhase r
        (.sweeping (order.map fun o => (o, (s.entries o).conns)) 0))
    else none
  | .sweep r now =>
    match (s.requests r).phase with
    | .sweeping todo kept => some (s.sweep r now kept todo)
    | _                   => none
  | .find r now =>
    match (s.requests r).phase with
    | .finding conns => some (s.find r now conns)
    | _              => none
  | .resume r timedOut aborting =>
    if (s.requests r).phase = .parked ∧ s.poolLock = none then
      if timedOut && aborting then some (s.setPhase r .returned)
      else some ({ s with poolLock := some r }.enter r)
    else none
  | .openFailed r tls =>
    if (s.requests r).phase = .connecting ∧ s.poolLock = none then
      some ((s.connectDone r none).modifyRequest r fun c =>
        { c with phase := .returned, tlsWarning := c.tlsWarning || tls.any (·.overrides) })
    else none
  | .connOpen r k tls now =>
    match tls.opened with
    | some (isHttp2, insecure) =>
      if (s.requests r).phase = .connecting ∧ k ∉ s.created then
        some (s.connOpen r k isHttp2 insecure tls.overrides now)
      else none
    | none => none
  | .firstPush r =>
    match (s.requests r).phase with
    | .opened k => if (s.conns k).isHttp2 then some (s.firstPush r k) else none
    | _         => none
  | .connectDone r =>
    if s.poolLock ≠ none then none else
      match (s.requests r).phase with
      | .pushed k => some ((s.connectDone r (some k)).setPhase r (.waiting k))
      | .opened k => if (s.conns k).isHttp2 then none else some ((s.connectDone r none).setPhase r (.plain k))
      | _         => none
  | .runHttp1 r =>
    match (s.requests r).phase with
    | .plain k =>
      some (s.modifyRequest r fun c => { c with phase := .unref k .returned, sends := c.sends ++ [.http1 k] })
    | _        => none
  | .wake r =>
    match (s.requests r).phase with
    | .waiting k => if (s.requests r).done then some (s.wake r k) else none
    | _          => none
  | .unref r =>
    match (s.requests r).phase with
    | .unref k next => some (s.unref r k next)
    | _             => none
  | .joined r =>
    match (s.requests r).phase with
    | .joining k next => if (s.conns k).io = .exited then some (s.setPhase r next) else none
    | _               => none
  | .iterate k rejected sent sendFailed aborting now =>
    if (s.conns k).io = .top then some (s.iterate k rejected sent sendFailed aborting now) else none
  | .ioFailed k =>
    if (s.conns k).io = .polling ∨ (s.conns k).io = .reading then
      some (s.modifyConn k ({ · with ioFailed := true, io := .top }))
    else none
  | .recv k callbacks failed =>
    if (s.conns k).io = .polling ∨ (s.conns k).io = .reading then some (s.recv k callbacks failed) else none
  | .quiet k =>
    if (s.conns k).io = .polling ∨ (s.conns k).io = .reading then
      some (s.modifyConn k ({ · with io := .top }))
    else none
  | .leave k =>
    if (s.conns k).io = .leaving then some ((s.failAll k).modifyConn k ({ · with io := .exited })) else none

end

section

variable {ρ κ ο : Type} (s : State ρ κ ο)

-- What the requesting threads can rely on.
structure Sound : Prop where
  queued   : ∀ k, ∀ r ∈ (s.conns k).pending, (s.conns k).io = .exited → (s.requests r).done
  answered : ∀ k r, (s.requests r).phase = .pushed k ∨ (s.requests r).phase = .waiting k →
    (s.conns k).io = .exited → (s.requests r).done
  counted  : ∀ k, (s.conns k).active = (s.conns k).streams.keys.length
  once     : ∀ r, (s.requests r).sends.Pairwise fun sent _ => sent.Refused s.conns

-- The steps in which a thread that has opened a connection finds its I/O thread there.
def Alive (s : State ρ κ ο) : Event ρ κ ο → Prop
  | .firstPush r => ∀ k ∈ (s.requests r).phase.openedConn, (s.conns k).io ≠ .exited
  | _            => True

instance (s : State ρ κ ο) : (e : Event ρ κ ο) → Decidable (s.Alive e)
  | .firstPush r =>
    inferInstanceAs (Decidable (∀ k ∈ (s.requests r).phase.openedConn, (s.conns k).io ≠ .exited))
  | .call _ | .lockPool .. | .sweep .. | .find .. | .resume .. | .openFailed .. | .connOpen ..
  | .connectDone _ | .runHttp1 _ | .wake _ | .unref _ | .joined _ | .iterate .. | .ioFailed _ | .recv ..
  | .quiet _ | .leave _ => .isTrue trivial

end

end State

end Nordstjernen.Net.Http2
