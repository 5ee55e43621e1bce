import Nordstjernen.Net.Cookie.File
import Nordstjernen.Net.Fetch.Redirect
import Nordstjernen.Net.Http2.Pool

open Nordstjernen.Glib

namespace Nordstjernen.Net.Http2

-- The fields of an `ns_h2` and of its `ns_hop_req` that make up what is sent. `acceptEncoding` is what
-- `ns_h2_accept_encoding` returns.
structure Transfer where
  url            : CString
  method         : CString
  scheme         : CString
  authority      : CString
  path           : CString
  userAgent      : Option CString
  acceptEncoding : CString
  referer        : Option CString
  headers        : List CString
  body           : List UInt8

def reservedHeaders : List CString :=
  ["host", "connection", "keep-alive", "proxy-connection", "transfer-encoding", "upgrade",
    "accept-encoding", "cookie", "user-agent", "referer", "content-length"].map String.toList

-- `ns_h2_hdr_is_reserved`
def hdrIsReserved (name : CString) : Bool :=
  reservedHeaders.any (strcaseEq name)

-- The name and the value of a line of `req->headers` that is sent.
def headerField (line : CString) : Option (CString × CString) :=
  let name := line.takeWhile (· != ':')
  if ':' ∉ line ∨ hdrIsReserved name then none
  else some (name, ((line.dropWhile (· != ':')).drop 1).dropWhile Cookie.isBlank)

namespace Transfer

variable (P : Platform) (now : Nat) (t : Transfer) (files : Cookie.Files)

def effectiveMethod : CString :=
  if t.method = [] then "GET".toList else t.method

def refererField : Option CString :=
  t.referer.filter (· ≠ [])

-- The headers and the body that `ns_h2_submit_locked` gives to `nghttp2_submit_request`.
def submitRequest : List (CString × CString) × List UInt8 :=
  ([(":method".toList, t.effectiveMethod), (":scheme".toList, t.scheme),
    (":authority".toList, t.authority), (":path".toList, t.path)] ++
    t.userAgent.toList.map ("user-agent".toList, ·) ++
    [("accept-encoding".toList, t.acceptEncoding)] ++
    t.refererField.toList.map ("referer".toList, ·) ++
    (Cookie.cookiesForRequest P now files t.url).toList.map ("cookie".toList, ·) ++
    (t.headers.filterMap headerField).map fun field => (gAsciiStrdown field.1, field.2), t.body)

def crlf : CString :=
  ['\r', '\n']

def line (name : String) (value : CString) : CString :=
  name.toList ++ value ++ crlf

-- The text and the body that `ns_h2_run_http1` writes.
def http1Request : CString × List UInt8 :=
  (t.effectiveMethod ++ ' ' :: t.path ++ " HTTP/1.1".toList ++ crlf ++
    line "Host: " t.authority ++
    (t.userAgent.map (line "User-Agent: ")).getD [] ++
    line "Accept-Encoding: " t.acceptEncoding ++
    (t.refererField.map (line "Referer: ")).getD [] ++
    ((Cookie.cookiesForRequest P now files t.url).map (line "Cookie: ")).getD [] ++
    ((t.headers.filter fun h => (headerField h).isSome).flatMap (· ++ crlf)) ++
    (if t.body = [] then [] else line "Content-Length: " (formatInt64 t.body.length)) ++
    line "Connection: close" [] ++ crlf, t.body)

end Transfer

-- What the readers of a response keep beside the body, and the cookie store.
structure Reading where
  statusParsed  : Bool := false
  informational : Bool := false
  status        : Int := 0
  files         : Cookie.Files

namespace Reading

variable (P : Platform) (url : CString) (s : Reading)

def setStatus (status : CString) : Reading :=
  let status := gAsciiStrtoll status
  { s with informational := decide (status.tdiv 100 = 1), status }

def storeCookie (now : Nat) (value : CString) : Reading :=
  { s with files := Cookie.cookieStore P now .http url value s.files }

-- `ns_h2_on_response_header`, with the clock that the cookie store reads.
def onResponseHeader (now : Nat) (name value : CString) : Reading :=
  if name = [] then s
  else if name.head? = some ':' then
    if name = ":status".toList then
      let s' := s.setStatus value
      if s'.informational then { s with informational := true } else s'
    else s
  else if s.informational then s
  else if strcaseEq name "set-cookie".toList then s.storeCookie P url now value
  else s

-- The lines that `ns_h2_run_http1` reads in front of the body.
def http1Line (now : Nat) (line : CString) : Reading :=
  if !s.statusParsed then
    let s' := match line.dropWhile (· != ' ') with
      | []          => { s with informational := decide (s.status.tdiv 100 = 1) }
      | _ :: status => s.setStatus status
    { s' with statusParsed := true }
  else if s.informational then s
  else if ':' ∉ line then s
  else
    let name  := line.takeWhile (· != ':')
    let value := ((line.dropWhile (· != ':')).drop 1).dropWhile Cookie.isBlank
    if strcaseEq name "set-cookie".toList then s.storeCookie P url now value else s

def http1Lines (s : Reading) : List (Nat × CString) → Reading
  | []                   => s
  | (now, line) :: lines =>
    if line ≠ [] then (s.http1Line P url now line).http1Lines lines
    else if s.informational then
      { s with informational := false, statusParsed := false, status := 0 }.http1Lines lines
    else s

end Reading

-- The two ways of a request.
inductive Version
  | http2
  | http1
deriving DecidableEq

-- What goes out does not depend on the cookie store.
def Version.Blind (P : Platform) (t : Transfer) : Version → Prop
  | http2 => ∀ now files files', t.submitRequest P now files = t.submitRequest P now files'
  | http1 => ∀ now files files', t.http1Request P now files = t.http1Request P now files'

-- What comes back does not change it.
def Version.Inert (P : Platform) (t : Transfer) : Version → Prop
  | http2 => ∀ (headers : List (Nat × CString × CString)) (files : Cookie.Files),
    (headers.foldl (fun (s : Reading) h => s.onResponseHeader P t.url h.1 h.2.1 h.2.2) { files }).files =
      files
  | http1 => ∀ (lines : List (Nat × CString)) (files : Cookie.Files),
    (Reading.http1Lines P t.url { files } lines).files = files

end Nordstjernen.Net.Http2

namespace Nordstjernen.Net.Http2

-- `ns_security`
inductive Security
  | none
  | secure
  | invalid
  | plain
deriving DecidableEq

-- What `ns_fetch_sync_hop` reads of an `ns_hop_out` for its two decisions.
structure Outcome where
  ok              : Bool
  effectiveUrl    : Option CString
  tlsVerifyFailed : Bool
  tlsWarning      : Bool

namespace Outcome

variable (out : Outcome)

-- `resp->security`
def security (url : CString) : Security :=
  let url := out.effectiveUrl.getD url
  if isHttps url then
    if out.tlsVerifyFailed || out.tlsWarning then .invalid else if out.ok then .secure else .none
  else if gStrHasPrefix url "http://".toList then .plain
  else .none

-- Whether the cache is changed, by `ns_cache_promote_304` or by `ns_cache_put`.
def cacheable (url method : CString) (setCookieSeen : Bool) : Bool :=
  out.ok && isHttpOrHttps url && Fetch.isSimpleGet method && !setCookieSeen && !out.tlsWarning

end Outcome

namespace State

variable {ρ κ ο : Type}

-- Requests on insecure connections come with a warning, so that they are neither called secure nor cached.
def Warned (s : State ρ κ ο) : Prop :=
  ∀ r, ∀ k ∈ (s.requests r).conn, (s.conns k).insecure → (s.requests r).tlsWarning ∧
    ∀ out : Outcome, out.tlsWarning = (s.requests r).tlsWarning →
      (∀ url, out.security url ≠ .secure) ∧ ∀ url method seen, ¬out.cacheable url method seen

-- The steps in which no request gets an insecure connection from the pool.
def Verified (s : State ρ κ ο) : Event ρ κ ο → Prop
  | .find r _ => ∀ k ∈ (s.requests r).phase.nextConn,
    ¬(s.conns k).wear.dead → ¬(s.conns k).wear.full → ¬(s.conns k).insecure
  | _         => True

instance (s : State ρ κ ο) : (e : Event ρ κ ο) → Decidable (s.Verified e)
  | .find r _ =>
    inferInstanceAs (Decidable (∀ k ∈ (s.requests r).phase.nextConn,
      ¬(s.conns k).wear.dead → ¬(s.conns k).wear.full → ¬(s.conns k).insecure))
  | .call _ | .lockPool .. | .sweep .. | .resume .. | .openFailed .. | .connOpen .. | .firstPush _
  | .connectDone _ | .runHttp1 _ | .wake _ | .unref _ | .joined _ | .iterate .. | .ioFailed _ | .recv ..
  | .quiet _ | .leave _ => .isTrue trivial

end State

end Nordstjernen.Net.Http2
