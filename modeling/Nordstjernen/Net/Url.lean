import Nordstjernen.Glib.Strings

open Nordstjernen.Glib

namespace Nordstjernen.Net

-- The components of `ns_url_parts` that are read here. The last three fields record what the URL
-- parser guarantees of everything it serializes: C0 controls are stripped or percent-encoded, and
-- `#` is a forbidden host code point.
structure UrlParts where
  protocol           : CString
  hostname           : CString
  port               : CString
  pathname           : CString
  hostname_printable : ∀ c ∈ hostname, 0x20 ≤ c.toNat
  hostname_no_hash   : '#' ∉ hostname
  pathname_printable : ∀ c ∈ pathname, 0x20 ≤ c.toNat

-- A `time_t`, as `curl_getdate` returns it.
abbrev TimeT := { t : Int // InInt64 t }

-- What the network layer asks of the libraries around it: the URL parser behind
-- `ns_url_parts_new`, the two queries of libpsl, and `curl_getdate` (`none` is its result -1).
structure Platform where
  urlParts          : CString → Option UrlParts
  registrableDomain : CString → Option CString
  isPublicSuffix    : CString → Bool
  getdate           : CString → Option TimeT

namespace UrlParts

def isHttps (parts : UrlParts) : Bool :=
  strcaseEq parts.protocol "https:".toList

-- `parts->pathname`, or `/` where it is empty.
def requestPath (parts : UrlParts) : CString :=
  if parts.pathname = [] then ['/'] else parts.pathname

end UrlParts

namespace Platform

variable (P : Platform)

def hostParts (url : CString) : Option UrlParts :=
  (P.urlParts url).filter (·.hostname ≠ [])

-- `ns_url_site_from`
def siteFrom (url : CString) : Option CString := do
  if url = [] then none
  let parts ← P.urlParts url
  let siteHost :=
    match P.registrableDomain (gAsciiStrdown parts.hostname) with
    | some (c :: cs) => c :: cs
    | _              => parts.hostname
  if parts.port = [] then
    return parts.protocol ++ "://".toList ++ siteHost
  else
    return parts.protocol ++ "://".toList ++ siteHost ++ ':' :: parts.port

end Platform

namespace Platform

-- The libraries as far as the front page of one site is concerned.
def frontPage : UrlParts where
  protocol           := "https:".toList
  hostname           := "example.org".toList
  port               := []
  pathname           := ['/']
  hostname_printable := by simp
  hostname_no_hash   := by decide
  pathname_printable := by simp

def frontPageUrl : CString :=
  "https://example.org/".toList

def frontPageSite : CString :=
  "https:://example.org".toList

def ofFrontPage : Platform where
  urlParts url           := if url = frontPageUrl then some frontPage else none
  registrableDomain host := if host = frontPage.hostname then some host else none
  isPublicSuffix domain  := domain == "org".toList
  getdate _              := none

end Platform

end Nordstjernen.Net

namespace Nordstjernen.Net

def isHttps (url : CString) : Bool :=
  gStrHasPrefix url "https://".toList

def isHttpOrHttps (url : CString) : Bool :=
  gStrHasPrefix url "http://".toList || isHttps url

def isFtp (url : CString) : Bool :=
  gStrHasPrefix url "ftp://".toList

-- What the fetch loop asks of the URL parser: the serialized origin and host of a URL that has a host,
-- and `ns_url_resolve`, against a base or none. Resolving an absolute URL keeps its scheme.
structure UrlLib extends Platform where
  origin       : CString → Option CString
  host         : CString → Option CString
  resolve      : Option CString → CString → Option CString
  resolve_http : ∀ {url abs}, isHttpOrHttps url → resolve none url = some abs → isHttpOrHttps abs

namespace UrlLib

variable (U : UrlLib)

-- `ns_url_origin_from`
def originFrom (url : CString) : Option CString :=
  if isHttpOrHttps url then U.origin url else none

def sameOrigin (a b : CString) : Bool :=
  match U.originFrom a, U.originFrom b with
  | some oa, some ob => oa ≠ [] && ob ≠ [] && strcaseEq oa ob
  | _,       _       => false

-- Whether the first host ends in a dot and the second one.
def isSubdomain (ha hb : CString) : Bool :=
  hb.length + 1 < ha.length && strcaseEq (ha.drop (ha.length - hb.length - 1)) ('.' :: hb)

def isSameSite (a b : CString) : Bool :=
  match U.siteFrom a, U.siteFrom b with
  | some sa, some sb => strcaseEq sa sb
  | _,       _       =>
    match U.host a, U.host b with
    | some ha, some hb => strcaseEq ha hb || isSubdomain ha hb || isSubdomain hb ha
    | _,       _       => false

-- `ns_url_to_ascii`
def toAscii (url : CString) : Option CString :=
  if url = [] then none
  else if gStrHasPrefix url "data:".toList || gStrHasPrefix url "about:".toList ||
    gStrHasPrefix url "file:".toList then some url
  else U.resolve none url

end UrlLib

end Nordstjernen.Net
