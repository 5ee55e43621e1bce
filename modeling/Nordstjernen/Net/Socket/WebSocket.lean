import Mathlib.Data.List.Basic
import Nordstjernen.Glib.Strings

namespace Nordstjernen.Net.Socket

-- `NS_WS_MAX_PENDING` and `NS_ES_MAX_PENDING`
def maxPending : Nat := 256

-- What the worker of a connection has posted to the main loop. Its idle sources and its timeouts are
-- run in the order in which they have been added, but the main loop may turn to either kind.
structure Dispatcher (α : Type) where
  detached  : Bool   := false
  pending   : Nat    := 0
  idle      : List α := []
  timeouts  : List α := []
  delivered : List α := []
deriving DecidableEq

namespace Dispatcher

variable {α : Type} (d : Dispatcher α)

-- A post by the worker (all posts of `ns_es_post` are droppable), a source that is run with what `busy`
-- answers in it, or the end of the connection by `ns_ws_free` or `ns_es_free`.
inductive Event (α : Type)
  | post (callback : α) (droppable : Bool)
  | idle (busy : Bool)
  | timeout (busy : Bool)
  | free

def refuses (droppable : Bool) : Bool :=
  d.detached || droppable && maxPending ≤ d.pending

-- `ns_ws_post`, `ns_es_post`
def post (callback : α) (droppable : Bool) : Dispatcher α :=
  if d.refuses droppable then d
  else { d with pending := d.pending + 1, idle := d.idle ++ [callback] }

-- `ns_ws_dispatch_run`, `ns_es_dispatch_run`, for a source that has been taken off its queue.
def dispatchRun (callback : α) (busy : Bool) : Dispatcher α :=
  if !d.detached && busy then { d with timeouts := d.timeouts ++ [callback] }
  else
    { d with
      pending   := d.pending - 1
      delivered := if d.detached then d.delivered else d.delivered ++ [callback] }

def step : Event α → Dispatcher α
  | .post callback droppable => d.post callback droppable
  | .idle busy               =>
    match d.idle with
    | []                => d
    | callback :: later => { d with idle := later }.dispatchRun callback busy
  | .timeout busy            =>
    match d.timeouts with
    | []                => d
    | callback :: later => { d with timeouts := later }.dispatchRun callback busy
  | .free                    => { d with detached := true }

def run (es : List (Event α)) : Dispatcher α :=
  es.foldl step d

-- What has been posted, and what of it has been taken on.
def posts (es : List (Event α)) : List α :=
  es.filterMap fun
    | .post callback _ => some callback
    | _                => none

def Event.taken : Event α → List α
  | .post callback droppable => if d.refuses droppable then [] else [callback]
  | _                        => []

def taken : Dispatcher α → List (Event α) → List α
  | _, []      => []
  | d, e :: es => e.taken d ++ taken (d.step e) es

-- What has been taken on and waits for its delivery.
def waiting : List α :=
  d.timeouts ++ d.idle

def Event.busy : Event α → Bool
  | .idle busy | .timeout busy => busy
  | _                          => false

-- What has been taken on is delivered once or waiting, and only a droppable callback that finds too
-- many waiting is not taken on.
structure Keeps (taken : List α) : Prop where
  kept    : (d.delivered ++ d.waiting).Perm taken
  refuses : ∀ droppable, d.refuses droppable = (droppable && decide (maxPending ≤ d.waiting.length))

end Dispatcher

end Nordstjernen.Net.Socket

open Nordstjernen.Glib

namespace Nordstjernen.Net.Socket

-- `ns_ws_state`, and the values of `readyState`.
inductive WsState
  | connecting
  | opened
  | closing
  | closed
deriving DecidableEq

def WsState.rank : WsState → Nat
  | connecting => 0
  | opened     => 1
  | closing    => 2
  | closed     => 3

inductive WsCallback
  | opened
  | message (isText : Bool) (data : List UInt8)
  | error (message : CString)
  | closed (code : Int) (reason : CString) (clean : Bool)
deriving DecidableEq

-- `ns_ws_out_msg`
inductive OutMsg
  | text (data : List UInt8)
  | binary (data : List UInt8)
  | close (code : Int) (reason : CString)
deriving DecidableEq

-- How `curl_easy_perform` ends, or what comes before it.
inductive Performed
  | initFailed
  | failed (message : CString)
  | refused (message : CString)
  | connected
deriving DecidableEq

-- What becomes of a call of `curl_ws_recv`, and of `ns_ws_handle_frame` behind it.
inductive Received
  | again
  | failed (message : CString)
  | nothing
  | message (isText : Bool) (data : List UInt8)
  | tooBig
  | badUtf8
  | peerClosed (code : Int) (reason : CString)
deriving DecidableEq

-- What the worker still has to do, each of them at once.
inductive WorkerOp
  | perform
  | drain
  | recv
  | setState (state : WsState)
  | post (callback : WsCallback) (droppable : Bool)
deriving DecidableEq

inductive WorkerInput
  | none
  | performed (result : Performed)
  | received (result : Received)
deriving DecidableEq

-- `ns_ws_dispatch_open`, `ns_ws_dispatch_message`, `ns_ws_dispatch_error` and `ns_ws_dispatch_close`
def dispatchOpen : List WorkerOp :=
  [.setState .opened, .post .opened false]

def dispatchMessage (isText : Bool) (data : List UInt8) : List WorkerOp :=
  [.post (.message isText data) true]

def dispatchError (message : CString) : List WorkerOp :=
  [.post (.error message) false]

def dispatchClose (code : Int) (reason : CString) (clean : Bool) : List WorkerOp :=
  [.setState .closed, .post (.closed code reason clean) false]

-- What `ns_ws_worker_curl` does behind `curl_easy_perform`.
def Performed.next : Performed → List WorkerOp
  | initFailed  =>
    dispatchError "curl init failed".toList ++ dispatchClose 1006 "init failed".toList false
  | failed msg  => dispatchError msg ++ dispatchClose 1006 msg false
  | refused msg => dispatchError msg ++ dispatchClose 1006 msg false
  | connected   => dispatchOpen ++ [.drain]

-- What it does in its loop with a message to be sent, or when there is none.
def drained : Option OutMsg → List WorkerOp
  | some (.close code reason) => .setState .closing :: dispatchClose code reason true
  | some _                    => [.drain]
  | none                      => [.recv]

-- And behind `curl_ws_recv`.
def Received.next : Received → List WorkerOp
  | again                  => [.drain]
  | failed msg             => dispatchError msg ++ dispatchClose 1006 msg false
  | nothing                => [.drain]
  | message isText data    => dispatchMessage isText data ++ [.drain]
  | tooBig                 => .setState .closing :: dispatchClose 1009 "message too big".toList false
  | badUtf8                => .setState .closing :: dispatchClose 1007 "invalid utf-8".toList false
  | peerClosed code reason => .setState .closing :: dispatchClose code reason true

-- What a call of `send` or `close` by the page still has to do.
inductive PageOp
  | checkSend (m : OutMsg)
  | checkClose (code : Option Int) (reason : CString)
  | setReady
  | wsClose (code : Int) (reason : CString)
  | enqueue (m : OutMsg)
  | setClosing
deriving DecidableEq

structure Conn where
  state      : WsState               := .connecting
  outQueue   : List OutMsg           := []
  worker     : List WorkerOp         := [.perform]
  page       : List PageOp           := []
  dispatcher : Dispatcher WsCallback := {}
  readyState : WsState               := .connecting
deriving DecidableEq

namespace Conn

variable (c : Conn)

-- The worker does what is next, the page calls a method or does what is next in it, or the main loop
-- runs a source, which it does while no method runs.
inductive Event
  | worker (input : WorkerInput)
  | send (m : OutMsg)
  | close (code : Option Int) (reason : CString)
  | page
  | idle (busy : Bool)
  | timeout (busy : Bool)
deriving DecidableEq

def workerStep (rest : List WorkerOp) : WorkerOp → WorkerInput → Option Conn
  | .perform, .performed result     => some { c with worker := result.next ++ rest }
  | .drain, .none                   =>
    some { c with outQueue := c.outQueue.tail, worker := drained c.outQueue.head? ++ rest }
  | .recv, .received result         => some { c with worker := result.next ++ rest }
  | .setState state, .none          => some { c with state, worker := rest }
  | .post callback droppable, .none =>
    some { c with dispatcher := c.dispatcher.post callback droppable, worker := rest }
  | _, _                            => none

-- `NS_WS_MAX_MESSAGE`
def maxMessage : Nat := 8 * 1024 * 1024

-- The test of `ns_ws_enqueue`.
def accepts : OutMsg → Bool
  | .close _ _                => c.state != .closed
  | .text data | .binary data => c.state != .closed && c.state != .closing && data.length ≤ maxMessage

def pageStep (rest : List PageOp) : PageOp → Conn
  | .checkSend m            => { c with page := if c.state = .opened then .enqueue m :: rest else rest }
  | .checkClose code reason =>
    let code := code.getD 1000
    { c with
      page :=
        if c.state = .closed ∨ c.state = .closing then rest
        else if code ≠ 1000 ∧ (code < 3000 ∨ code > 4999) then rest
        else if reason.length > 123 then rest
        else .setReady :: .wsClose code reason :: rest }
  | .setReady               => { c with readyState := .closing, page := rest }
  | .wsClose code reason    =>
    { c with
      page :=
        if c.state = .closing ∨ c.state = .closed then rest
        else .enqueue (.close (if code ≤ 0 then 1000 else code) reason) :: .setClosing :: rest }
  | .enqueue m              => { c with outQueue := if c.accepts m then c.outQueue ++ [m] else c.outQueue, page := rest }
  | .setClosing             => { c with state := .closing, page := rest }

-- The callbacks that a step of the main loop invokes.
def invokes (e : Dispatcher.Event WsCallback) : List WsCallback :=
  (c.dispatcher.step e).delivered.drop c.dispatcher.delivered.length

-- What the callbacks of `js.c` do to the property `readyState`.
def onCallback (readyState : WsState) : WsCallback → WsState
  | .opened      => .opened
  | .closed ..   => .closed
  | _            => readyState

def loopStep (e : Dispatcher.Event WsCallback) : Conn :=
  { c with dispatcher := c.dispatcher.step e, readyState := (c.invokes e).foldl onCallback c.readyState }

def call (ops : List PageOp) : Option Conn :=
  if c.page = [] then some { c with page := ops } else none

def step : Event → Option Conn
  | .worker input      =>
    match c.worker with
    | []         => none
    | op :: rest => c.workerStep rest op input
  | .send m            => c.call [.checkSend m]
  | .close code reason => c.call [.checkClose code reason]
  | .page              =>
    match c.page with
    | []         => none
    | op :: rest => some (c.pageStep rest op)
  | .idle busy         => if c.page = [] then some (c.loopStep (.idle busy)) else none
  | .timeout busy      => if c.page = [] then some (c.loopStep (.timeout busy)) else none

def closeEvents : Nat :=
  c.dispatcher.delivered.countP fun
    | .closed .. => true
    | _          => false

-- The worker opens a connection that is connecting, the page's last write does not come behind the
-- worker's one, and the page hears of the opening before it closes or hears of the end.
def Proper (c : Conn) : Event → Prop
  | .worker _     => c.worker.head? = some (.setState .opened) → c.state = .connecting
  | .page         => c.page.head? = some .setClosing → c.state ≠ .closed
  | .idle busy    => .opened ∈ c.invokes (.idle busy) → c.readyState = .connecting
  | .timeout busy => .opened ∈ c.invokes (.timeout busy) → c.readyState = .connecting
  | _             => True

instance {c : Conn} : ∀ e, Decidable (c.Proper e)
  | .worker _     => inferInstanceAs (Decidable (_ → _))
  | .page         => inferInstanceAs (Decidable (_ → _))
  | .idle _       => inferInstanceAs (Decidable (_ → _))
  | .timeout _    => inferInstanceAs (Decidable (_ → _))
  | .send _       => inferInstanceAs (Decidable True)
  | .close _ _    => inferInstanceAs (Decidable True)

end Conn

end Nordstjernen.Net.Socket

open Nordstjernen.Glib

namespace Nordstjernen.Net.Socket

abbrev Bytes := List UInt8

-- `g_utf8_validate` for a text with a length: a NUL in it is not valid.
def gUtf8Validate (data : Bytes) : Bool :=
  !data.contains 0 && decide data.toByteArray.IsValidUTF8

-- The flags of a `struct curl_ws_frame`, as far as they are read.
structure Flags where
  text   : Bool := false
  binary : Bool := false
  cont   : Bool := false
  close  : Bool := false
  ping   : Bool := false

-- A `struct curl_ws_frame`, and the bytes of it that come from `curl_ws_recv` at once.
structure Delivery where
  flags     : Flags
  offset    : Nat
  bytesleft : Nat
  data      : Bytes

-- What `ns_ws` has of a message: `recv_assembly`, `recv_assembly_kind` and `recv_in_message`.
structure Assembly where
  data      : Bytes := []
  isBinary  : Bool  := false
  inMessage : Bool  := false

-- What is received with a frame that closes the connection.
def closeOf (data : Bytes) : Received :=
  match data with
  | hi :: lo :: reason =>
    if data.length ≤ 125 then
      .peerClosed (hi.toNat * 256 + lo.toNat) ((reason.takeWhile (· ≠ 0)).map fun b => Char.ofNat b.toNat)
    else .peerClosed 1005 []
  | [_]                => .peerClosed 1002 []
  | []                 => .peerClosed 1005 []

-- The message that is dispatched.
def Received.dispatched : Received → List (Bool × Bytes)
  | message isText data => [(isText, data)]
  | _                   => []

namespace Assembly

variable (a : Assembly)

-- The end of a message.
def finish : Assembly × Received :=
  let isText := !a.isBinary
  ({ a with data := [], inMessage := false },
    if isText && a.data ≠ [] && !gUtf8Validate a.data then .badUtf8 else .message isText a.data)

-- `ns_ws_handle_frame`
def handleFrame (d : Delivery) : Assembly × Received :=
  if d.flags.close then (a, closeOf d.data)
  else if d.flags.ping then (a, .nothing)
  else if !(d.flags.text || d.flags.binary || d.flags.cont) then (a, .nothing)
  else
    let begins := d.offset = 0 ∧ !a.inMessage ∧ (d.flags.text || d.flags.binary)
    let a := if begins then { data := [], isBinary := d.flags.binary, inMessage := true } else a
    if !a.inMessage then (a, .nothing)
    else if d.data ≠ [] ∧ a.data.length + d.data.length > Conn.maxMessage then
      ({ a with data := [], inMessage := false }, .tooBig)
    else
      let a := { a with data := a.data ++ d.data }
      if d.bytesleft = 0 ∧ !d.flags.cont then a.finish else (a, .nothing)

-- The messages that the worker dispatches. It receives no more behind what closes the connection.
def receive : Assembly → List Delivery → List (Bool × Bytes)
  | _, []      => []
  | a, d :: ds =>
    let (a, received) := a.handleFrame d
    received.dispatched ++ if .drain ∈ received.next then receive a ds else []

end Assembly

-- How a frame is delivered in chunks: its last one is the first to leave nothing.
def Chunked : List Bytes → Prop
  | []      => False
  | [_]     => True
  | _ :: cs => cs.flatten ≠ [] ∧ Chunked cs

-- A frame of a message: the flags of its type, and the chunks that it is delivered in.
structure Fragment where
  text    : Bool
  binary  : Bool
  chunks  : List Bytes
  chunked : Chunked chunks

namespace Fragment

def payload (f : Fragment) : Bytes :=
  f.chunks.flatten

def typed (f : Fragment) : Bool :=
  f.text || f.binary

def deliverChunks (flags : Flags) (offset : Nat) : List Bytes → List Delivery
  | []      => []
  | c :: cs =>
    { flags, offset, bytesleft := cs.flatten.length, data := c } :: deliverChunks flags (offset + c.length) cs

-- What `curl_ws_recv` delivers for the frames of a message. All but the last one say that more will come.
def deliver : List Fragment → List Delivery
  | []      => []
  | f :: fs =>
    deliverChunks { text := f.text, binary := f.binary, cont := !fs.isEmpty } 0 f.chunks ++ deliver fs

end Fragment

-- A message: its first frame and its last one say of which type it is.
structure Message where
  first      : Fragment
  others     : List Fragment
  typedFirst : first.typed
  typedLast  : ((first :: others).getLast (List.cons_ne_nil _ _)).typed

namespace Message

variable (m : Message)

def fragments : List Fragment :=
  m.first :: m.others

def isText : Bool :=
  !m.first.binary

def payload : Bytes :=
  m.fragments.flatMap Fragment.payload

-- Within the cap, and valid.
def Accepted : Prop :=
  m.payload.length ≤ Conn.maxMessage ∧ (m.isText → m.payload ≠ [] → gUtf8Validate m.payload)

instance : Decidable m.Accepted :=
  inferInstanceAs (Decidable (_ ∧ (_ → _ → _)))

end Message

-- Whether a delivery is one of a message, or of a control frame that does not close the connection.
def Delivery.isData (d : Delivery) : Bool :=
  !d.flags.ping && (d.flags.text || d.flags.binary || d.flags.cont)

end Nordstjernen.Net.Socket
