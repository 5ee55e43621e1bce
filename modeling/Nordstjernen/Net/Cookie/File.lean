import Mathlib.Logic.Function.Basic
import Nordstjernen.Net.Cookie.Attributes

open Nordstjernen.Glib

namespace Nordstjernen.Net.Cookie

-- The contents of the two files of one partition. A missing file reads like an empty one.
structure Jar where
  http : CString := []
  js   : CString := []

namespace Jar

def get (jar : Jar) : Route → CString
  | .http => jar.http
  | .js   => jar.js

def set (jar : Jar) (route : Route) (contents : CString) : Jar :=
  match route with
  | .http => { jar with http := contents }
  | .js   => { jar with js := contents }

end Jar

def httpOnlyPrefix : CString :=
  "#HttpOnly_".toList

def lineFields (line : CString) : List CString :=
  gStrsplit line '\t' 7

def sameKey (w : Write) (domain path name : CString) : Bool :=
  strcaseEq domain w.fileDomain && path == w.path && name == w.name

def isDead (now : Nat) (expiry : CString) : Bool :=
  gAsciiStrtoll expiry != 0 && decide (gAsciiStrtoll expiry < now)

-- Whether a line is an `HttpOnly` line of the same name, domain and path.
def isHttpOnlyDup (w : Write) (line : CString) : Bool :=
  gStrHasPrefix line httpOnlyPrefix &&
  match lineFields (line.drop httpOnlyPrefix.length) with
  | [d, _, p, _, _, n, _] => sameKey w d p n
  | _                     => false

-- Whether the loop of `ns_cookie_store_impl` copies a line of the old file.
def keepsLine (w : Write) (line : CString) : Bool :=
  if line.head? = some '#' then
    !(w.route == .http && isHttpOnlyDup w line)
  else
    match lineFields line with
    | [d, _, p, _, e, n, _] => !sameKey w d p n && !isDead w.now e
    | _                     => false

def boolField (b : Bool) : CString :=
  if b then "TRUE".toList else "FALSE".toList

def formatLine (w : Write) : CString :=
  (if w.route = .http ∧ w.httpOnly then httpOnlyPrefix else []) ++
  w.fileDomain ++ '\t' :: boolField w.tail ++ '\t' :: w.path ++ '\t' :: boolField w.secure ++
  '\t' :: formatInt64 w.expiry ++ '\t' :: w.name ++ '\t' :: w.value

def fileLines (contents : CString) : List CString :=
  (gStrsplitAll contents '\n').filter (· ≠ [])

-- `blocked_httponly`
def isBlocked (w : Write) (contents : CString) : Bool :=
  w.route == .js && (fileLines contents).any (isHttpOnlyDup w)

def unlines (lines : List CString) : CString :=
  lines.flatMap (· ++ ['\n'])

-- The contents `ns_cookie_store_impl` replaces the file with, given those it has read.
def rewriteFile (w : Write) (contents : CString) : CString :=
  unlines <|
    (fileLines contents).filter (keepsLine w) ++
    if !w.expired && !isBlocked w contents then [formatLine w] else []

def domainMatches (host cdomain : CString) : Bool :=
  match cdomain with
  | '.' :: d =>
    (decide (cdomain.length ≤ host.length) &&
      strcaseEq (host.drop (host.length - cdomain.length)) cdomain) ||
    strcaseEq host d
  | _ => strcaseEq host cdomain

def pathMatches (path cpath : CString) : Bool :=
  cpath.isEmpty ||
  (gStrHasPrefix path cpath &&
    (path[cpath.length]? == none || path[cpath.length]? == some '/' ||
      cpath.getLast? == some '/'))

-- The part of a line behind its `#HttpOnly_` marker, or `none` for a line that is skipped.
def cookiePart (includeHttpOnly : Bool) (line : CString) : Option CString :=
  if line.head? = some '#' then
    if includeHttpOnly && gStrHasPrefix line httpOnlyPrefix
    then some (line.drop httpOnlyPrefix.length)
    else none
  else
    some line

def readFields (now : Nat) (parts : UrlParts) : List CString → Option (CString × CString)
  | [cdomain, _, cpath, secure, expiry, cname, cval] =>
    if domainMatches parts.hostname cdomain && pathMatches parts.requestPath cpath &&
      (!strcaseEq secure "TRUE".toList || parts.isHttps) && !isDead now expiry && cname ≠ []
    then some (cname, cval)
    else none
  | _ => none

-- The name and the value a line of a file contributes to a request, if any.
def readLine (now : Nat) (parts : UrlParts) (includeHttpOnly : Bool) (line : CString) :
    Option (CString × CString) :=
  let line := gStrchomp line
  if line = [] then none
  else (cookiePart includeHttpOnly line).bind fun l => readFields now parts (lineFields l)

-- The array `order` and the table `vals` in one list: a name that is already there keeps its place
-- and gets the new value.
def putValue (vals : List (CString × CString)) (nv : CString × CString) : List (CString × CString) :=
  if vals.any (·.1 == nv.1)
  then vals.map fun kv => if kv.1 = nv.1 then nv else kv
  else vals ++ [nv]

def collectPairs (now : Nat) (parts : UrlParts) (includeHttpOnly : Bool) (jar : Jar) :
    List (CString × CString) :=
  let lines := gStrsplitAll jar.http '\n' ++ gStrsplitAll jar.js '\n'
  (lines.filterMap (readLine now parts includeHttpOnly)).foldl putValue []

def cookieString (pairs : List (CString × CString)) : CString :=
  "; ".toList.intercalate (pairs.map fun kv => kv.1 ++ '=' :: kv.2)

-- The files of all partitions. The name of a partition's file is a hash of the site.
abbrev Files := CString → Jar

variable (P : Platform)

def cookieCollect (now : Nat) (files : Files) (url : CString) (includeHttpOnly : Bool) :
    Option CString := do
  let parts ← P.hostParts url
  let site  ← (P.siteFrom url).filter (· ≠ [])
  let pairs := collectPairs now parts includeHttpOnly (files site)
  if pairs = [] then none else some (cookieString pairs)

def cookiesForJs (now : Nat) (files : Files) (url : CString) : Option CString :=
  cookieCollect P now files url false

def cookiesForRequest (now : Nat) (files : Files) (url : CString) : Option CString :=
  cookieCollect P now files url true

-- `ns_cookie_store_impl`
def cookieStore (now : Nat) (route : Route) (url cookie : CString) (files : Files) : Files :=
  match acceptCookie P now route url cookie with
  | none   => files
  | some w =>
    let jar := files w.site
    Function.update files w.site (jar.set route (rewriteFile w (jar.get route)))

end Nordstjernen.Net.Cookie

namespace Nordstjernen.Net.Cookie

def Printable (s : CString) : Prop :=
  ∀ c ∈ s, 0x20 ≤ c.toNat

instance (s : CString) : Decidable (Printable s) :=
  decidable_of_iff (s.all fun c => 0x20 ≤ c.toNat) (by simp [Printable])

namespace Lifetime

-- Whether a cookie with this lifetime asks for its own removal at the time `now` of its write.
def removes (now : Nat) : Lifetime → Bool
  | session   => false
  | maxAge ma => decide (ma ≤ 0)
  | expires t => decide (t ≤ now)

-- The time up to which a cookie that was written at `now` is kept, as an unbounded number.
def deadline (now : Nat) : Lifetime → Option Int
  | session   => none
  | maxAge ma => some (now + ma)
  | expires t => some t

end Lifetime

namespace Write

-- A cookie whose fields can be told apart again once they are written to a line, and whose expiry
-- is the one its attributes ask for, up to the wrap-around of the sum.
structure Sound (w : Write) : Prop where
  domain_ne        : w.fileDomain ≠ []
  domain_hash      : '#' ∉ w.fileDomain.head?
  domain_printable : Printable w.fileDomain
  domain_tail      : w.tail → w.fileDomain.head? = some '.'
  path_ne          : w.path ≠ []
  path_printable   : Printable w.path
  name_ne          : w.name ≠ []
  name_printable   : Printable w.name
  name_trimmed     : ∀ c ∈ w.name.getLast?, isBlank c = false
  value_printable  : Printable w.value
  value_trimmed    : ∀ c ∈ w.value.getLast?, isBlank c = false
  expiry_inInt64   : InInt64 w.expiry
  expired_eq       : w.expired = w.lifetime.removes w.now
  expiry_eq        : w.expired = false → w.expiry = wrapInt64 ((w.lifetime.deadline w.now).getD 0)

-- What the loops over the lines compare, in one value: the file's domain in lower case, the path
-- and the name.
def key (w : Write) : CString × CString × CString :=
  (gAsciiStrdown w.fileDomain, w.path, w.name)

end Write

-- One line of a cookie file is the cookie that was written to it.
structure Line where
  write : Write
  sound : write.Sound

namespace Line

def httpOnly (l : Line) : Bool :=
  l.write.route == .http && l.write.httpOnly

def text (l : Line) : CString :=
  formatLine l.write

def key (l : Line) : CString × CString × CString :=
  l.write.key

def dead (now : Nat) (l : Line) : Bool :=
  l.write.expiry != 0 && decide (l.write.expiry < now)

-- Whether the line survives a write of `w`: an `HttpOnly` line is a comment to the loop and is only
-- dropped as a duplicate, and only by the HTTP route.
def kept (l w : Line) : Bool :=
  if l.httpOnly
  then w.write.route == .js || l.key != w.key
  else l.key != w.key && !l.dead w.write.now

-- Whether the domain and the path of a cookie match a url.
def touches (parts : UrlParts) (w : Write) : Bool :=
  domainMatches parts.hostname w.fileDomain && pathMatches parts.requestPath w.path

def reaches (parts : UrlParts) (w : Write) : Bool :=
  touches parts w && (!w.secure || parts.isHttps)

-- Whether the line contributes its cookie to a request.
def sent (now : Nat) (parts : UrlParts) (includeHttpOnly : Bool) (l : Line) : Bool :=
  (!l.httpOnly || includeHttpOnly) && l.write.value ≠ [] && reaches parts l.write && !l.dead now

def pair (l : Line) : CString × CString :=
  (l.write.name, l.write.value)

end Line

abbrev Lines := List Line

namespace Lines

def contents (ls : Lines) : CString :=
  unlines (ls.map Line.text)

def blocked (w : Line) (ls : Lines) : Bool :=
  w.write.route == .js && ls.any fun l => l.httpOnly && l.key == w.key

def store (w : Line) (ls : Lines) : Lines :=
  ls.filter (·.kept w) ++ if !w.write.expired && !blocked w ls then [w] else []

def pairs (now : Nat) (parts : UrlParts) (includeHttpOnly : Bool) (ls : Lines) :
    List (CString × CString) :=
  (ls.filter (·.sent now parts includeHttpOnly)).map Line.pair

end Lines

end Nordstjernen.Net.Cookie
