import Nordstjernen.Net.Url

open Nordstjernen.Glib

namespace Nordstjernen.Net.Cookie

def isBlank (c : Char) : Bool :=
  c == ' ' || c == '\t'

def trimBlanks (s : CString) : CString :=
  (s.dropWhile isBlank).rdropWhile isBlank

-- The name and the value in front of the first `;`, or `none` where the store returns early.
def namePair (cookie : CString) : Option (CString × CString) :=
  let pair  := cookie.takeWhile (· != ';')
  let name  := pair.takeWhile (· != '=')
  let value := (pair.dropWhile (· != '=')).drop 1
  if '=' ∉ pair ∨ trimBlanks name = [] then none else some (trimBlanks name, trimBlanks value)

-- The attributes behind the first `;`: the loop skips blanks and further semicolons in front of
-- an attribute and trims the blanks behind it.
def attributeTexts (cookie : CString) : List CString :=
  ((cookie.dropWhile (· != ';')).splitOn ';').map trimBlanks |>.filter (· ≠ [])

-- Which attribute decided how long a cookie lives.
inductive Lifetime
  | session
  | maxAge (ma : Int)
  | expires (t : Int)
deriving DecidableEq

-- The variables of the attribute loop. The `lifetime` is a ghost of it: the loop keeps the
-- attribute it has read only through its effect on `expired` and `expiry`.
structure Attributes where
  domain    : Option CString := none
  path      : Option CString := none
  secure    : Bool := false
  httpOnly  : Bool := false
  hasExpiry : Bool := false
  expired   : Bool := false
  expiry    : Int := 0
  lifetime  : Lifetime := .session

namespace Attributes

variable (P : Platform) (now : Nat)

def setMaxAge (s : Attributes) (ma : Int) : Attributes :=
  { s with
    hasExpiry := true
    expired   := decide (ma ≤ 0)
    expiry    := if 0 < ma then wrapInt64 (now + ma) else s.expiry
    lifetime  := .maxAge ma }

def setExpires (s : Attributes) (t : Int) : Attributes :=
  { s with
    hasExpiry := true
    expired   := s.expired || decide (t ≤ now)
    expiry    := t
    lifetime  := .expires t }

-- One iteration of the loop over the attributes.
def read (s : Attributes) (attr : CString) : Attributes :=
  let key   := attr.takeWhile (· != '=')
  let hasEq := decide ('=' ∈ attr)
  let av    := ((attr.dropWhile (· != '=')).drop 1).dropWhile isBlank
  if strcaseEq key "secure".toList then
    { s with secure := true }
  else if strcaseEq key "httponly".toList then
    { s with httpOnly := true }
  else if strcaseEq key "max-age".toList && hasEq then
    match gAsciiStrtoll? av with
    | some ma => s.setMaxAge now ma
    | none    => s
  else if strcaseEq key "expires".toList && hasEq && !s.hasExpiry then
    match P.getdate av with
    | some t => s.setExpires now t
    | none   => s
  else if strcaseEq key "domain".toList && hasEq then
    { s with domain := some av }
  else if strcaseEq key "path".toList && hasEq then
    { s with path := some av }
  else
    s

def readAll (cookie : CString) : Attributes :=
  (attributeTexts cookie).foldl (read P now) {}

end Attributes

-- The directory of the request path, which is the default of the `Path` attribute.
def defaultPath (pathname : CString) : CString :=
  match ((pathname.reverse.dropWhile (· != '/')).drop 1).reverse with
  | [] => ['/']
  | p  => p

-- The two ways into the store, each of which has its own file: `ns_net_store_set_cookie` writes the
-- HTTP jar and `ns_net_cookie_store_from_js` its `.js.txt` sibling.
inductive Route
  | http
  | js
deriving DecidableEq

-- A cookie that passed every check of the store, as it is about to be written, together with the
-- route it took and the clock that the store has read.
structure Write where
  route      : Route
  now        : Nat
  site       : CString
  name       : CString
  value      : CString
  fileDomain : CString
  tail       : Bool
  path       : CString
  secure     : Bool
  httpOnly   : Bool
  expired    : Bool
  expiry     : Int
  lifetime   : Lifetime
deriving DecidableEq

-- Whether `d` is the host or a dot-separated suffix of it.
def hostInDomain (host d : CString) : Bool :=
  strcaseEq host d ||
  (decide (d.length < host.length) && host[host.length - d.length - 1]? == some '.' &&
    strcaseEq (host.drop (host.length - d.length)) d)

variable (P : Platform)

-- The `Domain` attribute of the file line and whether it is a domain cookie.
def writeDomain (host : CString) (attr : Option CString) : Option (CString × Bool) :=
  match attr with
  | none | some [] => some (host, false)
  | some (c :: cs) =>
    let d := if c = '.' then cs else c :: cs
    if !hostInDomain host d || d = [] || P.isPublicSuffix (gAsciiStrdown d) then none
    else some ('.' :: d, true)

def writePath (parts : UrlParts) (attr : Option CString) : CString :=
  match attr with
  | some ('/' :: p) => '/' :: p
  | _               => defaultPath parts.pathname

def secureNames (name : CString) (isHttps : Bool) (a : Attributes) : Bool :=
  (!a.secure || isHttps) &&
  (!hasCasePrefix name "__Secure-".toList || (a.secure && isHttps)) &&
  (!hasCasePrefix name "__Host-".toList ||
    (a.secure && isHttps && (a.domain.getD []).isEmpty &&
      ((a.path.getD []).isEmpty || a.path == some ['/'])))

-- `ns_cookie_store_impl` up to the point where it opens the file. Every early return is `none`.
def acceptCookie (now : Nat) (route : Route) (url cookie : CString) : Option Write := do
  guard (gStrHasPrefix url "http://".toList || gStrHasPrefix url "https://".toList)
  guard (cookie.all fun c => 0x20 ≤ c.toNat)
  let parts         ← P.hostParts url
  let (name, value) ← namePair cookie
  let a             := Attributes.readAll P now cookie
  guard (secureNames name parts.isHttps a)
  let (fileDomain, tail) ← writeDomain P parts.hostname a.domain
  let site               ← (P.siteFrom url).filter (· ≠ [])
  return {
    route, now, site, name, value, fileDomain, tail
    path     := writePath parts a.path
    secure   := a.secure
    httpOnly := a.httpOnly
    expired  := a.expired
    expiry   := a.expiry
    lifetime := a.lifetime
  }

end Nordstjernen.Net.Cookie
