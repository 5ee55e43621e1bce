import Nordstjernen.Glib.Strings

open Nordstjernen.Glib

namespace Nordstjernen.Net.Header

-- The fields that have a slot of their own.
inductive Field
  | contentType
  | etag
  | lastModified
  | cacheControl
  | vary
  | expires
  | csp
  | xframeOptions
  | xContentTypeOptions
  | corsAllowOrigin
  | contentDisposition
  | contentLanguage
  | refresh
  | location
deriving DecidableEq

namespace Field

def name : Field → CString
  | contentType         => "Content-Type:".toList
  | etag                => "ETag:".toList
  | lastModified        => "Last-Modified:".toList
  | cacheControl        => "Cache-Control:".toList
  | vary                => "Vary:".toList
  | expires             => "Expires:".toList
  | csp                 => "Content-Security-Policy:".toList
  | xframeOptions       => "X-Frame-Options:".toList
  | xContentTypeOptions => "X-Content-Type-Options:".toList
  | corsAllowOrigin     => "Access-Control-Allow-Origin:".toList
  | contentDisposition  => "Content-Disposition:".toList
  | contentLanguage     => "Content-Language:".toList
  | refresh             => "Refresh:".toList
  | location            => "Location:".toList

-- The chain of tests in `ns_header_cb`.
def chain : List Field := [
  contentType, etag, lastModified, cacheControl, vary, expires, csp, xframeOptions,
  xContentTypeOptions, corsAllowOrigin, contentDisposition, contentLanguage, refresh, location
]

-- Whether several lines of the field are one list.
def isList (f : Field) : Bool :=
  f == cacheControl || f == vary || f == csp

end Field

-- `ns_header_ctx`
structure HeaderCtx where
  slots         : Field → Option CString := fun _ => none
  raw           : Option CString := none
  setCookieSeen : Bool := false

def isValueEnd (c : Char) : Bool :=
  c == '\r' || c == '\n' || c == ' ' || c == '\t'

-- The copy ends at a NUL, if there is one.
def headerValueDup (line : CString) (prefixLen : Nat) : CString :=
  let v := (line.drop prefixLen).dropWhile fun c => c == ' ' || c == '\t'
  (v.rdropWhile isValueEnd).takeWhile (· != '\x00')

def maxRawHeaderBytes : Nat := 1024 * 1024

def isStatusLine (line : CString) : Bool :=
  hasCasePrefix line "HTTP/".toList

def isSetCookie (line : CString) : Bool :=
  hasCasePrefix line "Set-Cookie:".toList

namespace HeaderCtx

variable (hc : HeaderCtx) (line : CString)

def keepRaw : HeaderCtx :=
  if isStatusLine line then
    { hc with raw := hc.raw.map fun _ => [] }
  else if 2 < line.length ∧ !(isSetCookie line || hasCasePrefix line "Set-Cookie2:".toList) then
    let raw := hc.raw.getD []
    let raw := if raw.length + line.length ≤ maxRawHeaderBytes then raw ++ line else raw
    { hc with raw := some raw }
  else
    hc

-- `header_capture`, behind its test of the name.
def capture (f : Field) (val : CString) : HeaderCtx :=
  { hc with slots := fun g => if g = f then some val else hc.slots g }

def joined (slot : Option CString) (val : CString) : Option CString :=
  match slot, val with
  | _,             []     => slot
  | some (c :: s), v :: t => some (c :: s ++ ", ".toList ++ v :: t)
  | _,             v :: t => some (v :: t)

-- `header_append`, behind its test of the name.
def append (f : Field) (val : CString) : HeaderCtx :=
  { hc with slots := fun g => if g = f then joined (hc.slots f) val else hc.slots g }

-- `ns_header_cb`
def headerCb : HeaderCtx :=
  let hc := hc.keepRaw line
  match Field.chain.find? (hasCasePrefix line ·.name) with
  | some .csp => hc.append .csp (headerValueDup line Field.csp.name.length)
  | some f    => hc.capture f (headerValueDup line f.name.length)
  | none      => if isSetCookie line then { hc with setCookieSeen := true } else hc

-- `ns_header_sink_feed`
def sinkFeed : HeaderCtx :=
  if line = [] then hc else hc.headerCb line

def feedAll (lines : List CString) : HeaderCtx :=
  lines.foldl sinkFeed hc

end HeaderCtx

-- One header block: its status line and the lines behind it.
structure Block where
  status   : CString
  fields   : List CString
  isStatus : isStatusLine status
  noStatus : ∀ l ∈ fields, isStatusLine l = false

namespace Block

variable (b : Block)

def lines : List CString :=
  b.status :: b.fields

-- The values of the lines of one field, in their order.
def values (f : Field) : List CString :=
  (b.fields.filter (hasCasePrefix · f.name)).map (headerValueDup · f.name.length)

def hasSetCookie : Bool :=
  b.fields.any isSetCookie

end Block

-- The context at the end of a hop that got some interim blocks and a final one.
def captured (interim : List Block) (final : Block) : HeaderCtx :=
  ({} : HeaderCtx).feedAll (interim.flatMap Block.lines ++ final.lines)

def requestHeaderValue (headers : List CString) (name : CString) : Option CString :=
  (headers.find? fun h => hasCasePrefix h name && (h.drop name.length).head? == some ':').map fun h =>
    (h.drop (name.length + 1)).dropWhile fun c => c == ' ' || c == '\t'

-- The members of a `Vary` field that the loop of `vary_selector` does not skip.
def varyNames (vary : CString) : List CString :=
  ((gStrsplitAll vary ',').map fun t => gAsciiStrdown (gStrstrip t)).filter fun name =>
    name ≠ [] && name ≠ "accept-encoding".toList

def varySupported : List CString :=
  ["accept".toList, "accept-language".toList, "user-agent".toList, "origin".toList]

def varySelector (vary : CString) (headers : List CString) : Option CString :=
  (varyNames vary).foldlM (fun selector name => do
    guard (varySupported.contains name)
    let value ← requestHeaderValue headers name
    return selector ++ name ++ ':' :: value ++ ['\n']) []

-- Whether a response is put into the cache. `rest` is what the decision asks of everything but the
-- captured fields.
def putsInCache (rest : Bool) (headers : List CString) (hc : HeaderCtx) : Bool :=
  rest && !hc.setCookieSeen &&
  !(strstr ((hc.slots .cacheControl).getD []) "no-store".toList ||
    strstr ((hc.slots .cacheControl).getD []) "private".toList) &&
  (varySelector ((hc.slots .vary).getD []) headers).isSome

def commaJoin (values : List CString) : CString :=
  ", ".toList.intercalate (values.filter (· ≠ []))

-- The captured fields are those of the final block, and the lines of a list-valued field are one list.
structure CapturesFinal (interim : List Block) (final : Block) : Prop where
  single    : ∀ f, f.isList = false →
    (captured interim final).slots f = (captured [] final).slots f
  setCookie : (captured interim final).setCookieSeen = final.hasSetCookie
  list      : ∀ f, f.isList →
    ((captured interim final).slots f).getD [] = commaJoin (final.values f)
  noStore   : ∀ v ∈ final.values .cacheControl, strstr v "no-store".toList →
    ∀ rest headers, putsInCache rest headers (captured interim final) = false
  vary      : ∀ v ∈ final.values .vary, ∀ name ∈ varyNames v,
    name ∈ varyNames (((captured interim final).slots .vary).getD [])

-- The blocks for which replacing and appending amount to the same as starting anew at each block.
structure FinalOk (interim : List Block) (final : Block) : Prop where
  single    : ∀ f, f.isList = false → final.values f = [] → ∀ b ∈ interim, b.values f = []
  setCookie : final.hasSetCookie = false → ∀ b ∈ interim, b.hasSetCookie = false
  csp       : ∀ b ∈ interim, ∀ v ∈ b.values .csp, v = []
  list      : ∀ f, f = .cacheControl ∨ f = .vary → ∀ v ∈ (final.values f).dropLast, v = []
  noList    : ∀ f, f = .cacheControl ∨ f = .vary → final.values f = [] →
    ∀ v ∈ (interim.flatMap (·.values f)).getLast?, v = []

end Nordstjernen.Net.Header
