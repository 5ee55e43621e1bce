import Mathlib.Data.List.AList
import Mathlib.Logic.Function.Basic

namespace Nordstjernen.Net.Http2

-- The values of `error_code` that `ns_h2_stream_close_cb` tells apart.
def noError : UInt32 := 0
def refusedStream : UInt32 := 7

def maxConcurrent : Nat := 64
def maxReuse : Nat := 1000
def maxIdleUs : Int := 60 * 1000000
def poolMaxPerOrigin : Nat := 8

-- What the connections see of an `nghttp2_session`: the id of the next stream, the user data of the open
-- streams, and which streams the server has refused.
structure Session (ρ : Type) where
  nextId   : Nat := 1
  userData : Nat → Option ρ := fun _ => none
  refusals : List Nat := []

namespace Session

variable {ρ : Type} (session : Session ρ)

def submit (r : ρ) : Session ρ :=
  { session with
    nextId   := session.nextId + 2
    userData := Function.update session.userData session.nextId (some r) }

def forget (id : Nat) : Session ρ :=
  { session with userData := Function.update session.userData id none }

-- What is left of a stream behind its `on_stream_close_callback`.
def close (id : Nat) (code : UInt32) : Session ρ :=
  { session.forget id with
    refusals := if code = refusedStream then session.refusals ++ [id] else session.refusals }

end Session

-- Where the I/O thread of a connection is.
inductive Io
  | none
  -- Before the locked section of an iteration, and between its poll and the next one.
  | top
  | polling
  | reading
  -- Out of the loop, before `ns_h2_io_fail_all`.
  | leaving
  | exited
deriving DecidableEq

-- `ns_conn`
structure Conn (ρ : Type) where
  isHttp2    : Bool := false
  insecure   : Bool := false
  goaway     : Bool := false
  ioFailed   : Bool := false
  stopping   : Bool := false
  reuseCount : Nat := 0
  lastUsed   : Int := 0
  refs       : Nat := 0
  io         : Io := .none
  pending    : List ρ := []
  streams    : AList (fun _ : Nat => ρ) := ∅
  active     : Nat := 0
  session    : Session ρ := {}

namespace Conn

variable {ρ : Type} (conn : Conn ρ)

-- The tests of `ns_h2_entry_find`.
def dead : Bool := conn.ioFailed || conn.stopping || conn.goaway
def full : Bool := decide (maxConcurrent ≤ conn.active + conn.pending.length)

def idle : Bool := decide (conn.active = 0) && conn.pending.isEmpty
def expired (now : Int) : Bool := conn.idle && decide (maxIdleUs < now - conn.lastUsed)

-- The end of the locked section of an iteration.
def settle (now : Int) : Conn ρ :=
  let conn := { conn with stopping := conn.stopping || conn.expired now }
  let stop := conn.ioFailed || (conn.stopping && conn.idle) || (conn.goaway && decide (conn.active = 0))
  { conn with io := if stop then .leaving else .polling }

-- `ns_h2_conn_retire_locked`
def retires (overCap : Bool) (now : Int) : Bool :=
  conn.dead || conn.expired now || (overCap && conn.idle)

def retire (overCap : Bool) (now : Int) : Conn ρ :=
  { conn with stopping := conn.stopping || conn.retires overCap now }

-- What `ns_h2_entry_find` does to each connection first.
def wear : Conn ρ :=
  { conn with stopping := conn.stopping || decide (maxReuse ≤ conn.reuseCount) }

-- What it does to the connection that it finds.
def reuse (r : ρ) (now : Int) : Conn ρ :=
  { conn with
    pending    := conn.pending ++ [r]
    lastUsed   := now
    reuseCount := conn.reuseCount + 1
    refs       := conn.refs + 1 }

-- `ns_h2_submit_locked`, where `nghttp2_submit_request` gives the next id.
def submit (r : ρ) : Conn ρ :=
  { conn with
    streams := conn.streams.insert conn.session.nextId r
    active  := conn.active + 1
    session := conn.session.submit r }

def remove (id : Nat) : Conn ρ :=
  { conn with streams := conn.streams.erase id, active := conn.active - 1 }

-- The requests of `conn->streams`.
def requests : List ρ := conn.streams.entries.map Sigma.snd

end Conn

-- A call of `ns_h2_handshake`, with what ALPN has selected.
inductive Handshake
  | completed (isHttp2 : Bool)
  -- The result of the verification is not `X509_V_OK`.
  | untrusted
  | failed
deriving DecidableEq

-- What `ns_h2_conn_open` meets once there is a socket: the override of the configuration, whether HSTS
-- pins the host, the handshake, and the one without verification (failed where there is no socket).
structure Tls where
  https      : Bool
  optIn      : Bool
  pinned     : Bool
  handshake  : Handshake
  unverified : Handshake

namespace Tls

variable (tls : Tls)

-- Whether it tries without verification, which sets the warning.
def overrides : Bool :=
  tls.https && tls.handshake == .untrusted && tls.optIn && !tls.pinned

-- Whether the connection that it gets is of HTTP/2, and whether it is insecure.
def opened : Option (Bool × Bool) :=
  if !tls.https then some (false, false) else
    match tls.handshake with
    | .completed isHttp2 => some (isHttp2, false)
    | .untrusted         =>
      match tls.unverified with
      | .completed isHttp2 => if tls.overrides then some (isHttp2, true) else none
      | _                  => none
    | .failed            => none

end Tls

-- A request that was handed to the network, on a stream or on a connection of its own.
inductive Send (κ : Type)
  | stream (conn : κ) (id : Nat)
  | http1 (conn : κ)
deriving DecidableEq

-- Whether the server has refused what was sent.
def Send.Refused {ρ κ : Type} (conns : κ → Conn ρ) : Send κ → Prop
  | stream k id => id ∈ (conns k).session.refusals
  | http1 _     => False

-- Where a call of `ns_h2_perform` is.
inductive Phase (κ ο : Type)
  | fresh
  | attaching
  -- With `g_pool_lock`, in `ns_h2_pool_sweep_locked` and in `ns_h2_entry_find`, before these connections.
  | sweeping (todo : List (ο × List κ)) (kept : Nat)
  | finding (conns : List κ)
  -- In `g_cond_wait_until` for another connector.
  | parked
  -- In `ns_h2_conn_open`, and behind it.
  | connecting
  | opened (conn : κ)
  -- In `ns_h2_run_http1`.
  | plain (conn : κ)
  -- Before `ns_h2_pool_connect_done`, and before the end of the wait for `done`.
  | pushed (conn : κ)
  | waiting (conn : κ)
  -- Before `ns_h2_conn_unref`, and before the end of its `g_thread_join`.
  | unref (conn : κ) (next : Phase κ ο)
  | joining (conn : κ) (next : Phase κ ο)
  | returned
deriving DecidableEq

-- The connection that a thread has opened, before anything is done on it.
def Phase.openedConn {κ ο : Type} : Phase κ ο → Option κ
  | opened k => some k
  | _        => none

-- The one that it looks at next in `ns_h2_entry_find`.
def Phase.nextConn {κ ο : Type} : Phase κ ο → Option κ
  | finding conns => conns.head?
  | _             => none

-- `ns_h2`, with the local variables of `ns_h2_perform` and what was sent so far.
structure Request (κ ο : Type) where
  origin       : ο
  phase        : Phase κ ο := .fresh
  attempt      : Nat := 0
  reused       : Bool := false
  conn         : Option κ := none
  streamId     : Nat := 0
  submitted    : Bool := false
  done         : Bool := false
  streamOk     : Bool := false
  refused      : Bool := false
  rst          : Bool := false
  streamClosed : Bool := false
  gotFirstByte : Bool := false
  tlsWarning   : Bool := false
  sends        : List (Send κ) := []

namespace Request

variable {κ ο : Type} (c : Request κ ο)

-- `ns_h2_stream_close_cb`
def close (code : UInt32) : Request κ ο :=
  { c with
    streamClosed := true
    streamOk     := code == noError
    refused      := code == refusedStream
    done         := true }

-- A request that ends without its stream being closed.
def fail : Request κ ο :=
  { c with streamOk := false, done := true }

-- Whether `ns_h2_perform` tries once more.
def retries : Bool :=
  c.reused && decide (c.attempt = 0) && !c.gotFirstByte && (!c.submitted || c.refused)

-- What it clears for that.
def reset : Request κ ο :=
  { c with
    attempt      := c.attempt + 1
    reused       := false
    done         := false
    streamOk     := false
    submitted    := false
    refused      := false
    streamClosed := false
    rst          := false
    gotFirstByte := false }

end Request

end Nordstjernen.Net.Http2
