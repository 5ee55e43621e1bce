import Nordstjernen.Glib.Strings

open Nordstjernen.Glib

namespace Nordstjernen.Ipc

-- `NS_HTTP_MAX_BODY`
def maxBody : Int := 67108864

-- `NS_HTTP_MAX_HEADERS`
def maxHeaders : Nat := 64

-- `sizeof c->buf`
def bufSize : Nat := 16384

-- `sizeof line`
def lineSize : Nat := 20480

-- What one `read` returns, before there is an error or the end.
inductive ReadResult
  | bytes (first : Char) (rest : CString) (fits : rest.length < bufSize)
  | interrupted

def ReadResult.data : ReadResult → CString
  | bytes first rest _ => first :: rest
  | interrupted        => []

-- `http_conn`, by the bytes in its buffer that are not read yet and what the calls of `read` to come
-- return.
structure HttpConn where
  buf   : CString
  reads : List ReadResult

-- A connection with a byte in its buffer.
structure FilledConn where
  first : Char
  rest  : CString
  reads : List ReadResult

def FilledConn.next (f : FilledConn) : HttpConn where
  buf   := f.rest
  reads := f.reads

namespace HttpConn

-- The bytes that arrive.
def pending (c : HttpConn) : CString :=
  c.buf ++ c.reads.flatMap ReadResult.data

-- A connection on which there is nothing to read.
def closed : HttpConn where
  buf   := []
  reads := []

def readFill : List ReadResult → Option FilledConn
  | []                         => none
  | .bytes first rest _ :: rs  => some { first, rest, reads := rs }
  | .interrupted :: rs         => readFill rs

-- `conn_fill`
def fill (c : HttpConn) : Option FilledConn :=
  match c.buf with
  | first :: rest => some { first, rest, reads := c.reads }
  | []            => readFill c.reads

theorem pending_of_readFill {rs : List ReadResult} {f : FilledConn} (h : readFill rs = some f) :
    rs.flatMap ReadResult.data = f.first :: f.next.pending := by
  induction rs
  case nil => cases h
  case cons r rs hi =>
    cases r
    case bytes first rest fits =>
      cases h
      rfl
    case interrupted => exact hi h

theorem pending_of_fill {c : HttpConn} {f : FilledConn} (h : c.fill = some f) :
    c.pending = f.first :: f.next.pending := by
  rw [fill] at h
  split at h
  case h_1 hb =>
    cases h
    rw [pending, hb]
    rfl
  case h_2 hb =>
    rw [pending, hb, List.nil_append]
    exact pending_of_readFill h

-- `conn_read_line`, with the bytes that it has put in `out`. It returns the line without the carriage
-- returns at its end, and leaves out of it what does not fit.
def readLine (cap : Nat) (out : CString) (c : HttpConn) : Option CString × HttpConn :=
  match _ : c.fill with
  | none   => (none, closed)
  | some f =>
    if f.first = '\n' then (some (out.rdropWhile (· == '\r')), f.next)
    else readLine cap (if out.length + 1 < cap then out ++ [f.first] else out) f.next
termination_by c.pending.length
decreasing_by rw [pending_of_fill ‹c.fill = some f›, List.length_cons]; exact Nat.lt_succ_self _

-- The loop of `http_read_body`, with the number of bytes that are still to be copied.
def copyLoop (left : Nat) (dst : CString) (c : HttpConn) : Option CString × HttpConn :=
  if _ : left = 0 then (some dst, c)
  else
    match c.fill with
    | none   => (none, closed)
    | some f =>
      let buf := f.first :: f.rest
      let take := min buf.length left
      copyLoop (left - take) (dst ++ buf.take take) { buf := buf.drop take, reads := f.reads }
termination_by left
decreasing_by simp only [List.length_cons]; omega

-- `http_read_body`, with whether it gets a place to copy the bytes to.
def readBody (c : HttpConn) (n : Int) (dst : Bool) : Option CString × HttpConn :=
  if n < 0 then (none, c)
  else if n > 0 ∧ dst = false then (none, c)
  else c.copyLoop n.toNat []

def skipLoop (left : Nat) (c : HttpConn) : Bool × HttpConn :=
  if _ : left = 0 then (true, c)
  else
    match c.fill with
    | none   => (false, closed)
    | some f =>
      let buf := f.first :: f.rest
      let take := min buf.length left
      skipLoop (left - take) { buf := buf.drop take, reads := f.reads }
termination_by left
decreasing_by simp only [List.length_cons]; omega

-- `http_skip_body`
def skipBody (c : HttpConn) (n : Int) : Bool × HttpConn :=
  if n < 0 then (false, c) else c.skipLoop n.toNat

end HttpConn

-- `http_head`
structure HttpHead where
  method        : CString := []
  path          : CString := []
  status        : Int     := 0
  contentLength : Int     := 0
  xW            : Int     := -1
  xH            : Int     := -1
  xStride       : Int     := -1
  xAnim         : Int     := -1
  xUnchanged    : Int     := 0
  xRenderRc     : Int     := 0
  xPageW        : Int     := -1
  xPageH        : Int     := -1
  xScrollY      : Int     := -1
  xScrollX      : Int     := -1
  xClipboard    : Int     := 0
  xNav          : CString := []
  xWebgl        : CString := []
  xCamera       : CString := []
  xDownload     : CString := []
  xAudio        : CString := []
  xWindowAction : CString := []
deriving DecidableEq

-- The headers that `http_head` has a number of.
inductive NumberHeader
  | contentLength | xW | xH | xStride | xAnim | xPageW | xPageH | xScrollY | xScrollX | xUnchanged | xRenderRc
  | xClipboard
deriving DecidableEq

-- The headers that `http_head` has the text of, in an array.
inductive TextHeader
  | xNav | xWebgl | xCamera | xDownload | xAudio | xWindowAction
deriving DecidableEq

namespace NumberHeader

def name : NumberHeader → CString
  | contentLength => "Content-Length".toList
  | xW            => "X-W".toList
  | xH            => "X-H".toList
  | xStride       => "X-Stride".toList
  | xAnim         => "X-Anim".toList
  | xPageW        => "X-PageW".toList
  | xPageH        => "X-PageH".toList
  | xScrollY      => "X-ScrollY".toList
  | xScrollX      => "X-ScrollX".toList
  | xUnchanged    => "X-Unchanged".toList
  | xRenderRc     => "X-Render-RC".toList
  | xClipboard    => "X-Clipboard".toList

def get (h : HttpHead) : NumberHeader → Int
  | contentLength => h.contentLength
  | xW            => h.xW
  | xH            => h.xH
  | xStride       => h.xStride
  | xAnim         => h.xAnim
  | xPageW        => h.xPageW
  | xPageH        => h.xPageH
  | xScrollY      => h.xScrollY
  | xScrollX      => h.xScrollX
  | xUnchanged    => h.xUnchanged
  | xRenderRc     => h.xRenderRc
  | xClipboard    => h.xClipboard

def set (h : HttpHead) (n : Int) : NumberHeader → HttpHead
  | contentLength => { h with contentLength := n }
  | xW            => { h with xW := n }
  | xH            => { h with xH := n }
  | xStride       => { h with xStride := n }
  | xAnim         => { h with xAnim := n }
  | xPageW        => { h with xPageW := n }
  | xPageH        => { h with xPageH := n }
  | xScrollY      => { h with xScrollY := n }
  | xScrollX      => { h with xScrollX := n }
  | xUnchanged    => { h with xUnchanged := n }
  | xRenderRc     => { h with xRenderRc := n }
  | xClipboard    => { h with xClipboard := n }

-- In the order of the comparisons.
def all : List NumberHeader :=
  [.contentLength, .xW, .xH, .xStride, .xAnim, .xPageW, .xPageH, .xScrollY, .xScrollX, .xUnchanged, .xRenderRc,
    .xClipboard]

end NumberHeader

namespace TextHeader

def name : TextHeader → CString
  | xNav          => "X-Nav".toList
  | xWebgl        => "X-WebGL".toList
  | xCamera       => "X-Camera".toList
  | xDownload     => "X-Download".toList
  | xAudio        => "X-Audio".toList
  | xWindowAction => "X-Window-Action".toList

def size : TextHeader → Nat
  | xNav          => 2048
  | xWebgl        => 2048
  | xCamera       => 2048
  | xDownload     => 3072
  | xAudio        => 16384
  | xWindowAction => 32

def get (h : HttpHead) : TextHeader → CString
  | xNav          => h.xNav
  | xWebgl        => h.xWebgl
  | xCamera       => h.xCamera
  | xDownload     => h.xDownload
  | xAudio        => h.xAudio
  | xWindowAction => h.xWindowAction

def set (h : HttpHead) (s : CString) : TextHeader → HttpHead
  | xNav          => { h with xNav := s }
  | xWebgl        => { h with xWebgl := s }
  | xCamera       => { h with xCamera := s }
  | xDownload     => { h with xDownload := s }
  | xAudio        => { h with xAudio := s }
  | xWindowAction => { h with xWindowAction := s }

-- In the order of the comparisons.
def all : List TextHeader :=
  [.xNav, .xWebgl, .xCamera, .xDownload, .xAudio, .xWindowAction]

end TextHeader

-- `atoi`
def atoi (s : CString) : Int :=
  (gAsciiStrtoll s).bmod 4294967296

-- What is stored of a text in an array of that many characters.
def store (size : Nat) (s : CString) : CString :=
  s.take (size - 1)

namespace HttpHead

def readStart (line : CString) : Option HttpHead :=
  if gStrHasPrefix line "HTTP/".toList then
    match line.dropWhile (· != ' ') with
    | []     => some { status := 0 }
    | _ :: s => some { status := atoi s }
  else
    match line.span (· != ' ') with
    | (_, [])           => none
    | (method, _ :: p2) => some { method := store 8 method, path := store 128 (p2.takeWhile (· != ' ')) }

def setHeader (out : HttpHead) (name val : CString) : HttpHead :=
  match NumberHeader.all.find? (strcaseEq name ·.name) with
  | some k => k.set out (gAsciiStrtoll val)
  | none   =>
    match TextHeader.all.find? (strcaseEq name ·.name) with
    | some t => t.set out (store t.size val)
    | none   => out

def readHeader (out : HttpHead) (line : CString) : HttpHead :=
  match line.span (· != ':') with
  | (_, [])        => out
  | (name, _ :: v) => out.setHeader name (v.dropWhile (· == ' '))

-- The loop over the header lines, of which there may be that many still. A line is read as a C string.
def readHeaders (left : Nat) (out : HttpHead) (c : HttpConn) : Option HttpHead × HttpConn :=
  match c.readLine lineSize [] with
  | (none, c)      => (none, c)
  | (some [], c)   => (some out, c)
  | (some line, c) =>
    match left with
    | 0        => (none, c)
    | left + 1 => readHeaders left (out.readHeader (gStrndup line)) c

end HttpHead

-- `http_read_head`
def HttpConn.readHead (c : HttpConn) : Option HttpHead × HttpConn :=
  match c.readLine lineSize [] with
  | (none, c)      => (none, c)
  | (some [], c)   => (none, c)
  | (some line, c) =>
    match HttpHead.readStart (gStrndup line) with
    | none     => (none, c)
    | some out =>
      match HttpHead.readHeaders maxHeaders out c with
      | (none, c)     => (none, c)
      | (some out, c) => (if out.contentLength < 0 ∨ out.contentLength > maxBody then none else some out, c)

-- What one `write` returns: that it has taken more than so many bytes, or an error.
inductive WriteResult
  | wrote (n : Nat)
  | interrupted
  | failed

-- The other side of a connection, by the bytes that are written to it.
structure Sink where
  wire   : CString
  writes : List WriteResult

namespace Sink

-- `write_all`
def writeFrom (wire : CString) : List WriteResult → CString → Bool × Sink
  | ws, []                 => (true, { wire, writes := ws })
  | [], _ :: _             => (false, { wire, writes := [] })
  | .wrote n :: ws, p      => writeFrom (wire ++ p.take (n + 1)) ws (p.drop (n + 1))
  | .interrupted :: ws, p  => writeFrom wire ws p
  | .failed :: ws, _       => (false, { wire, writes := ws })

def writeAll (s : Sink) (buf : CString) : Bool × Sink :=
  writeFrom s.wire s.writes buf

variable (s : Sink) (contentType : Option CString) (body : CString)

def writeMessage (head : CString) : Bool × Sink :=
  match s.writeAll head with
  | (false, s) => (false, s)
  | (true, s)  => s.writeAll body

end Sink

-- The lines with which the heads of both kinds of message end.
def lengthLines (n : Nat) : CString :=
  "Content-Length: ".toList ++ Nat.toDigits 10 n ++ "\r\n\r\n".toList

def typeLine (contentType : Option CString) : CString :=
  "Content-Type: ".toList ++ contentType.getD "text/plain".toList ++ "\r\n".toList

def requestHead (method path : CString) (contentType : Option CString) (n : Nat) : CString :=
  method ++ ' ' :: path ++ " HTTP/1.1\r\n".toList ++ typeLine contentType ++ lengthLines n

def responseHead (status : Int) (contentType : Option CString) (extraHeaders : CString) (n : Nat) : CString :=
  "HTTP/1.1 ".toList ++ formatInt64 status ++ " OK\r\n".toList ++ typeLine contentType ++ extraHeaders ++
    lengthLines n

-- `http_write_request`, with `sizeof head`.
def Sink.writeRequest (s : Sink) (method path : CString) (contentType : Option CString) (body : CString) :
    Bool × Sink :=
  let head := requestHead method path contentType body.length
  if head.length ≥ 512 then (false, s) else s.writeMessage body head

-- `http_write_response`, with the largest length that `snprintf` returns.
def Sink.writeResponse (s : Sink) (status : Int) (contentType : Option CString) (extraHeaders : Option CString)
    (body : CString) : Bool × Sink :=
  let head := responseHead status contentType (extraHeaders.getD []) body.length
  if head.length > 2147483647 then (false, s) else s.writeMessage body head

end Nordstjernen.Ipc
