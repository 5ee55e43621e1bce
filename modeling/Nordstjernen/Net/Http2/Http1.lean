import Nordstjernen.Glib.Strings

open Nordstjernen.Glib

namespace Nordstjernen.Net.Http2.Http1

-- What `ns_h2_ssl_read` returns call after call, up to the end or an empty read.
abbrev Reads := List CString

def crlf : CString :=
  ['\r', '\n']

def crlfAt (buf : CString) (i : Nat) : Bool :=
  buf[i]? == some '\r' && buf[i + 1]? == some '\n'

-- The size that `buf` may grow to while a line is read.
def lineLimit : Nat :=
  1024 * 1024

-- The locals of `ns_h2_run_http1` that `ns_h2_read_line` works on.
structure Reader where
  buf   : CString := []
  pos   : Nat     := 0
  reads : Reads

namespace Reader

def readLineFrom (buf : CString) (pos search : Nat) (reads : Reads) : Option CString × Reader :=
  match (List.range' search (buf.length - 1 - search)).find? (crlfAt buf) with
  | some i => (some ((buf.drop pos).take (i - pos)), { buf, pos := i + 2, reads })
  | none   =>
    match reads with
    | []          => (none, { buf, pos, reads })
    | tmp :: tail =>
      if tmp = [] then (none, { buf, pos, reads })
      else if lineLimit < (buf ++ tmp).length then (none, { buf := buf ++ tmp, pos, reads := tail })
      else readLineFrom (buf ++ tmp) pos (buf.length - 1) tail

-- `ns_h2_read_line`
def readLine (r : Reader) : Option CString × Reader :=
  readLineFrom r.buf r.pos r.pos r.reads

end Reader

inductive Encoding where
  | identity
  | gzip
  | deflate
  | brotli
  | zstd
deriving DecidableEq

-- What the header lines leave in the `ns_h2` and in the locals of `ns_h2_run_http1`.
structure Head where
  status        : Int           := 0
  informational : Bool          := false
  statusParsed  : Bool          := false
  encoding      : Encoding      := .identity
  chunked       : Bool          := false
  haveClen      : Bool          := false
  clen          : Int           := 0
  fed           : List CString  := []

def isOws (c : Char) : Bool :=
  c == ' ' || c == '\t'

-- The number after the first space.
def statusOf? (line : CString) : Option Int :=
  match (gStrndup line).dropWhile (· ≠ ' ') with
  | []          => none
  | _ :: status => some (gAsciiStrtoll status)

def isInformational (status : Int) : Bool :=
  decide (status.tdiv 100 = 1)

def fieldName (line : CString) : CString :=
  line.takeWhile (· ≠ ':')

def fieldValue (line : CString) : CString :=
  (line.dropWhile (· ≠ ':')).tail.dropWhile isOws

namespace Head

variable (h : Head) (line : CString)

def statusLine : Head :=
  let status := (statusOf? line).getD h.status
  { h with
    status, statusParsed := true, informational := isInformational status
    fed := if isInformational status then h.fed else h.fed ++ [gStrndup line ++ crlf] }

def contentEncoding (val : CString) : Encoding :=
  if strcaseEq val "gzip".toList then .gzip
  else if strcaseEq val "deflate".toList then .deflate
  else if strcaseEq val "br".toList then .brotli
  else if strcaseEq val "zstd".toList then .zstd
  else h.encoding

-- Cookies and alternative services aside.
def field : Head :=
  let h := { h with fed := h.fed ++ [gStrndup line ++ crlf] }
  let val := fieldValue line
  if ':' ∉ line then h
  else if strcaseEq (fieldName line) "content-encoding".toList then
    { h with encoding := h.contentEncoding val }
  else if strcaseEq (fieldName line) "transfer-encoding".toList then
    { h with chunked := h.chunked || hasCasePrefix val "chunked".toList }
  else if strcaseEq (fieldName line) "content-length".toList then
    { h with clen := gAsciiStrtoll (gStrndup val), haveClen := decide (0 ≤ gAsciiStrtoll (gStrndup val)) }
  else h

def next : Head :=
  if !h.statusParsed then h.statusLine line
  else if h.informational then h
  else h.field line

end Head

-- The loop over the header lines: `none` where the function returns `FALSE`, else whether it has found
-- the empty line. Each turn takes some bytes.
def headLoop : Nat → Reader → Head → Option (Head × Reader × Bool)
  | 0,     _, _ => none
  | n + 1, r, h =>
    match r.readLine with
    | (none,         r) => if h.statusParsed then some (h, r, false) else none
    | (some [],      r) =>
      if h.informational then headLoop n r { h with informational := false, statusParsed := false, status := 0 }
      else some (h, r, true)
    | (some (c :: s), r) => headLoop n r (h.next (c :: s))

-- What is read after the header lines.
def collect (clen : Option Nat) (budget : Nat) (raw : CString) : Reads → CString
  | []          => raw
  | tmp :: tail =>
    if clen.any (· ≤ raw.length) || tmp = [] then raw
    else if budget * 2 < (raw ++ tmp).length then raw ++ tmp
    else collect clen budget (raw ++ tmp) tail

def splitLine (s : CString) : Option (CString × CString) :=
  ((List.range (s.length - 1)).find? (crlfAt s)).map fun i => (s.take i, s.drop (i + 2))

def isHexDigit (c : Char) : Bool :=
  c.isDigit || ('a' ≤ c && c ≤ 'f') || ('A' ≤ c && c ≤ 'F')

def hexDigitValue (c : Char) : Nat :=
  if c.isDigit then c.toNat - '0'.toNat
  else if 'a' ≤ c then c.toNat - 'a'.toNat + 10
  else c.toNat - 'A'.toNat + 10

def hexValue (s : CString) : Nat :=
  s.foldl (fun n c => 16 * n + hexDigitValue c) 0

-- `strtol(s, NULL, 16)`
def strtolHex (s : CString) : Int :=
  let unprefixed : CString → CString
    | '0' :: x :: c :: tl => if (x = 'x' ∨ x = 'X') ∧ isHexDigit c then c :: tl else '0' :: x :: c :: tl
    | tl                  => tl
  let digits (s : CString) : Int := hexValue ((unprefixed s).takeWhile isHexDigit)
  match s.dropWhile strtollIsspace with
  | '-' :: tl => clampInt64 (-digits tl)
  | '+' :: tl => clampInt64 (digits tl)
  | tl        => clampInt64 (digits tl)

-- The loop over the chunks, each of which takes some bytes.
def dechunk : Nat → CString → CString
  | 0,     _   => []
  | n + 1, raw =>
    match splitLine raw with
    | none            => []
    | some (sz, rest) =>
      let chunk := strtolHex (gStrndup sz)
      if chunk ≤ 0 then [] else rest.take chunk.toNat ++ dechunk n (rest.drop (chunk.toNat + 2))

structure Outcome where
  success  : Bool
  fed      : List CString
  encoding : Encoding
  body     : CString
deriving DecidableEq

def Head.body (h : Head) (raw : CString) : CString :=
  if h.chunked then dechunk raw.length raw
  else if h.haveClen then raw.take h.clen.toNat
  else raw

-- The reading half of `ns_h2_run_http1`, with the bytes that it hands over to the sink or the decoder.
def runHttp1 (budget : Nat) (reads : Reads) : Outcome :=
  match headLoop (reads.flatten.length + 1) { reads } {} with
  | none                        => { success := false, fed := [], encoding := .identity, body := [] }
  | some (h, r, headersComplete) =>
    let clen := if h.haveClen && !h.chunked then some h.clen.toNat else none
    let raw  := collect clen budget (if headersComplete then r.buf.drop r.pos else []) r.reads
    { success := h.statusParsed, fed := h.fed, encoding := h.encoding, body := h.body raw }

end Nordstjernen.Net.Http2.Http1

namespace Nordstjernen.Net.Http2.Http1

-- The bytes that the server sends.
def stream (reads : Reads) : CString :=
  (reads.takeWhile (· ≠ [])).flatten

-- The lines of some bytes that are ended.
def linesFuel : Nat → CString → List CString
  | 0,     _ => []
  | n + 1, s =>
    match splitLine s with
    | none           => []
    | some (l, rest) => l :: linesFuel n rest

def linesOf (s : CString) : List CString :=
  linesFuel s.length s

def isInterim (block : List CString) : Bool :=
  block.head?.any fun line => isInformational ((statusOf? line).getD 0)

-- Where the last block of lines in front of a body ends, after so many bytes, or that it does not.
inductive HeadEnd where
  | breaksOff (block : List CString)
  | ends (block : List CString) (used : Nat)
deriving DecidableEq

-- The interim blocks in front of the last one are skipped.
def headOf (block : List CString) (used : Nat) : List CString → HeadEnd
  | []           => .breaksOff block
  | line :: more =>
    if line ≠ [] then headOf (block ++ [line]) (used + line.length + 2) more
    else if isInterim block then headOf [] (used + 2) more
    else .ends block (used + 2)

def trimOws (s : CString) : CString :=
  (s.dropWhile isOws).rdropWhile isOws

def valuesOf (name : String) (block : List CString) : List CString :=
  (block.tail.filter fun line => ':' ∈ line ∧ strcaseEq (fieldName line) name.toList).map
    fun line => (fieldValue line).rdropWhile isOws

-- The members of a list that may be spread over several fields.
def listOf (name : String) (block : List CString) : List CString :=
  (valuesOf name block).flatMap fun value => (value.splitOn ',').map trimOws

def decimal? (s : CString) : Option Nat :=
  if s ≠ [] ∧ s.all Char.isDigit then some (Nat.ofDigitChars 10 s 0) else none

-- How the length of a body is found.
inductive Framing where
  | noBody
  | chunked
  | length (n : Nat)
  | close
deriving DecidableEq

def Head.framing (h : Head) : Framing :=
  if h.chunked then .chunked else if h.haveClen then .length h.clen.toNat else .close

def answersWithout (method : CString) (status : Int) : Bool :=
  decide (method = "HEAD".toList) || decide (status = 204) || decide (status = 304) ||
  decide (method = "CONNECT".toList ∧ status.tdiv 100 = 2)

-- A message is invalid where its lengths are no numbers or differ.
def framing? (method : CString) (block : List CString) : Option Framing :=
  if answersWithout method ((block.head?.bind statusOf?).getD 0) then some .noBody
  else if valuesOf "transfer-encoding" block ≠ [] then
    let codings := (listOf "transfer-encoding" block).filter (· ≠ [])
    if codings.getLast?.any (strcaseEq · "chunked".toList) then some .chunked else some .close
  else
    match (listOf "content-length" block).map decimal? with
    | []           => some .close
    | none :: _    => none
    | some n :: ns => if ns.all (· = some n) then some (.length n) else none

-- The size in front of a chunk, which an extension may follow.
def chunkSize? (line : CString) : Option Nat :=
  let digits := line.takeWhile isHexDigit
  let rest   := (line.dropWhile isHexDigit).dropWhile isOws
  if digits ≠ [] ∧ rest.head?.all (· = ';') then some (hexValue digits) else none

-- The chunks up to the empty one, and how many bytes their data reaches over.
def chunks : Nat → CString → Option (CString × Nat)
  | 0,     _ => none
  | n + 1, s => do
    let (line, rest) ← splitLine s
    let size ← chunkSize? line
    if size = 0 then
      some ([], 0)
    else if size ≤ rest.length ∧ crlf.isPrefixOf (rest.drop size) then
      let (body, reach) ← chunks n (rest.drop (size + 2))
      some (rest.take size ++ body, line.length + 2 + size + if reach = 0 then 0 else 2 + reach)
    else
      none

-- The body that starts with the given bytes if it is complete, and how many of them it needs.
def Framing.body? : Framing → CString → Option (CString × Nat)
  | noBody,   _ => some ([], 0)
  | chunked,  s => chunks s.length s
  | length n, s => if n ≤ s.length then some (s.take n, n) else none
  | close,    s => some (s, s.length)

-- A complete response with these header lines and this body.
def Complete (method : CString) (s : CString) (block : List CString) (body : CString) : Prop :=
  ∃ used f reach, headOf [] 0 (linesOf s) = .ends block used ∧ block ≠ [] ∧
    framing? method block = some f ∧ f.body? (s.drop used) = some (body, reach)

-- Success is reported for complete responses only, and what they hold is passed on.
def Sound (method : CString) (budget : Nat) (reads : Reads) : Prop :=
  (runHttp1 budget reads).success → ∃ block body, Complete method (stream reads) block body ∧
    (runHttp1 budget reads).fed = block.map (· ++ crlf) ∧ (runHttp1 budget reads).body = body

section Condition

-- What is read of the stream while lines are looked for.
def window (got : Nat) : Reads → CString
  | []          => []
  | tmp :: tail =>
    if tmp = [] ∨ lineLimit < got + tmp.length then [] else tmp ++ window (got + tmp.length) tail

-- What is left of the last read that so many bytes need, and the reads after it.
def drain : Nat → Reads → CString × Reads
  | _, []          => ([], [])
  | n, tmp :: tail =>
    if n = 0 then ([], tmp :: tail)
    else if n ≤ tmp.length then (tmp.drop n, tail)
    else drain (n - tmp.length) tail

-- The budget is not exceeded before so many bytes are there.
def Keeps (budget need got : Nat) : Reads → Prop
  | []          => need ≤ got
  | tmp :: tail => need ≤ got ∨ tmp ≠ [] ∧ (got + tmp.length ≤ budget * 2 ∨ need ≤ got + tmp.length) ∧
    Keeps budget need (got + tmp.length) tail

def headAfter (block : List CString) : Head :=
  block.foldl Head.next {}

-- The code finds the length of the body as the standard does.
def FramedAlike (method : CString) (block : List CString) (rest : CString) : Prop :=
  framing? method block = some (headAfter block).framing ∨
  framing? method block = some .noBody ∧ (rest = [] ∨ (headAfter block).framing = .length 0)

-- What is left to read after so many bytes.
def restAfter (n : Nat) (reads : Reads) : CString :=
  (drain n reads).1 ++ stream (drain n reads).2

def Meets (method : CString) (budget : Nat) (reads : Reads) : Prop :=
  match headOf [] 0 (linesOf (window 0 reads)) with
  | .breaksOff block => block = []
  | .ends block used => block = [] ∨
    FramedAlike method block (restAfter used reads) ∧ (∀ line ∈ block, '\x00' ∉ line) ∧
    ∃ f body need, framing? method block = some f ∧ f.body? (restAfter used reads) = some (body, need) ∧
      Keeps budget need (drain used reads).1.length (drain used reads).2

-- Header lines beyond the limit, or from which the code finds another length.
def Misreads (method : CString) (reads : Reads) : Prop :=
  match headOf [] 0 (linesOf (window 0 reads)) with
  | .breaksOff block => block ≠ [] ∧ window 0 reads ≠ stream reads
  | .ends block used => ¬FramedAlike method block (restAfter used reads)

end Condition

end Nordstjernen.Net.Http2.Http1
