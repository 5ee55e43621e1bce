import Nordstjernen.Net.Url

open Nordstjernen.Glib

namespace Nordstjernen.Net.Fetch

inductive CookiePolicy
  | always
  | firstParty
  | never
deriving DecidableEq

structure Config where
  userAgent      : CString
  acceptLanguage : CString
  cookiePolicy   : CookiePolicy
  maxRedirects   : Int

-- The fields of an `ns_response` that the redirect loop reads or sets.
structure Response where
  status        : Nat
  finalUrl      : Option CString
  error         : Option CString := none
  redirectCount : Nat := 0
deriving DecidableEq

structure CacheEntry where
  fresh           : Bool
  corsAllowOrigin : Bool
  finalUrl        : CString
  status          : Nat

-- What a server answers, `error` being the transport's.
structure Reply where
  status       : Nat
  effectiveUrl : Option CString
  location     : Option CString
  error        : Option CString := none

-- The state of everything around one hop. `synthesize` stands for the three `synthesize_*_response`
-- functions, `cache` for `ns_cache_get`, and `reply` is `none` where the transport fails to start.
structure Env where
  recentlyDead   : CString → Bool
  synthesize     : CString → Option CString → Option Response
  hstsUpgrade    : CString → Bool
  cache          : CString → CString → List CString → Option CacheEntry
  acquireSlot    : CString → Bool
  reply          : Option Reply
  cancelled      : Bool

-- The arguments of `ns_fetch_sync` and of `ns_fetch_sync_hop`.
structure Call where
  url         : CString
  topUrl      : Option CString
  method      : CString
  body        : Option CString := none
  contentType : Option CString := none
  headers     : List CString := []

-- What of an `ns_hop_req` and its header lines depends on the target or on the top URL. The jar is
-- named by its partition, and the origin is empty where there is no such line.
structure Sent where
  url       : CString
  method    : CString
  cookieJar : Option CString
  origin    : CString
  fetchSite : Option CString
  body      : Option CString
  headers   : List CString
deriving DecidableEq

-- A hop that asks the cache, and the network unless the cache answers.
structure Hop where
  url            : CString
  topUrl         : Option CString
  cachePartition : CString
  sent           : Option Sent
deriving DecidableEq

structure Result where
  hop      : Option Hop := none
  response : Option Response := none
  location : Option CString := none

variable (U : UrlLib) (cfg : Config)

def isNavigation (headers : List CString) : Bool :=
  headers.any (hasCasePrefix · "X-ND-Navigate:".toList)

def isSimpleGet (method : CString) : Bool :=
  method = [] || strcaseEq method "GET".toList

-- `partition_key`
def partition (effectiveTopUrl : CString) : CString :=
  match U.siteFrom effectiveTopUrl with
  | some (c :: cs) => c :: cs
  | _              => (U.originFrom effectiveTopUrl).getD []

-- `ns_net_partition_key`
def partitionKey (effectiveTopUrl : CString) : CString :=
  "top=".toList ++ (partition U effectiveTopUrl ++
    ("\x1fua=".toList ++ cfg.userAgent ++ "\x1fal=".toList ++ cfg.acceptLanguage))

-- `ns_net_request_origin`
def requestOrigin (url : CString) (topUrl topOrigin : Option CString) (method : CString) :
    CString :=
  match topOrigin with
  | none           => []
  | some topOrigin =>
    if topOrigin.any (fun c => c = '\r' || c = '\n') || 4096 ≤ topOrigin.length then []
    else if topUrl.any (!U.sameOrigin · url) then topOrigin
    else if method ≠ [] && !strcaseEq method "GET".toList && !strcaseEq method "HEAD".toList
    then topOrigin
    else []

def cookiesAllowed (url : CString) (topUrl : Option CString) : Bool :=
  isHttpOrHttps url && cfg.cookiePolicy ≠ .never &&
  !(cfg.cookiePolicy = .firstParty && topUrl.any (!U.isSameSite url ·)) &&
  partition U (topUrl.getD url) ≠ []

def fetchSite (url : CString) (topUrl : Option CString) : CString :=
  match topUrl with
  | none | some [] => "none".toList
  | some top =>
    if U.sameOrigin top url then "same-origin".toList
    else if U.isSameSite top url then "same-site".toList
    else "cross-site".toList

def requestAccept (headers : List CString) : CString :=
  match headers.find? (hasCasePrefix · "Accept:".toList) with
  | some h => (h.drop 7).dropWhile fun c => c = ' ' || c = '\t'
  | none   => "*/*".toList

-- The URL after `ns_net_hsts_upgrade` and `ns_url_to_ascii`.
def hopUrl (env : Env) (url : CString) : CString :=
  let url :=
    if gStrHasPrefix url "http://".toList && (U.host url).any env.hstsUpgrade
    then "https://".toList ++ url.drop 7
    else url
  (U.toAscii url).getD url

-- The answers of `ns_fetch_sync_hop` before anything is asked.
def answerLocally (env : Env) (c : Call) : Option Response :=
  let dead := !isNavigation c.headers && (U.host c.url).any fun h => h ≠ [] && env.recentlyDead h
  let url  := hopUrl U env c.url
  if dead then
    some ⟨0, c.url, "host unreachable (recent connection failure)".toList, 0⟩
  else (env.synthesize c.url c.topUrl).or <|
    if isFtp url && c.topUrl.any (fun top => top ≠ [] && !isFtp top) && !isNavigation c.headers
    then some ⟨0, url, "FTP access is not allowed from this page".toList, 0⟩
    else none

def cacheRequestHeaders (origin : CString) (headers : List CString) : List CString :=
  ["Accept: ".toList ++ requestAccept headers, "Accept-Language: ".toList ++ cfg.acceptLanguage,
    "User-Agent: ".toList ++ cfg.userAgent, "Origin: ".toList ++ origin]

-- A fresh cache entry that may be used.
def answerFromCache (env : Env) (c : Call) : Option CacheEntry :=
  let url    := hopUrl U env c.url
  let top    := c.topUrl.getD url
  let origin := requestOrigin U url c.topUrl (U.originFrom top) c.method
  if isHttpOrHttps url && isSimpleGet c.method then
    (env.cache url (partitionKey U cfg top) (cacheRequestHeaders cfg origin c.headers)).filter
      fun entry => entry.fresh && (entry.corsAllowOrigin || U.sameOrigin top entry.finalUrl)
  else none

def holdsSlot (env : Env) (url : CString) : Bool :=
  (U.originFrom url).all env.acquireSlot

def isForwarded (header : CString) : Bool :=
  header ≠ [] && !hasCasePrefix header "X-ND-".toList && !header.any fun c => c = '\r' || c = '\n'

def request (url : CString) (c : Call) : Sent where
  url       := url
  method    := c.method
  cookieJar :=
    if cookiesAllowed U cfg url c.topUrl then some (partition U (c.topUrl.getD url)) else none
  origin    := requestOrigin U url c.topUrl (U.originFrom (c.topUrl.getD url)) c.method
  fetchSite := if isHttpOrHttps url then some (fetchSite U url c.topUrl) else none
  body      := c.body
  headers   := c.headers.filter isForwarded

def Reply.response (reply : Reply) (url : CString) : Response where
  status   := reply.status
  finalUrl := some (reply.effectiveUrl.getD url)
  error    := reply.error

def fetchSyncHop (env : Env) (c : Call) : Result :=
  match answerLocally U env c with
  | some resp => { response := some resp }
  | none =>
    let url       := hopUrl U env c.url
    let partition := partitionKey U cfg (c.topUrl.getD url)
    match answerFromCache U cfg env c with
    | some entry => ⟨some ⟨url, c.topUrl, partition, none⟩,
        some ⟨entry.status, entry.finalUrl, none, 0⟩, none⟩
    | none =>
      if holdsSlot U env url then
        ⟨some ⟨url, c.topUrl, partition, some (request U cfg url c)⟩,
          env.reply.map (·.response url), env.reply.bind (·.location)⟩
      else ⟨some ⟨url, c.topUrl, partition, none⟩, none, none⟩

end Nordstjernen.Net.Fetch

namespace Nordstjernen.Net.Fetch

-- `NS_MAX_REDIRECTS`
def nsMaxRedirects : Nat :=
  10

def Config.maxRedirs (cfg : Config) : Nat :=
  min cfg.maxRedirects.toNat nsMaxRedirects

-- `env hops` is the state around the hop after that many redirects, and `shouldBlock` stands for
-- `ns_ext_should_block`.
structure Network where
  lib         : UrlLib
  cfg         : Config
  shouldBlock : CString → Option CString → Bool
  env         : Nat → Env

def isSensitive (header : CString) : Bool :=
  ':' ∈ header && ["authorization".toList, "cookie".toList, "proxy-authorization".toList].any
    (strcaseEq (header.takeWhile (· ≠ ':')))

def stripSensitive (headers : List CString) : List CString :=
  headers.filter (!isSensitive ·)

def isRedirect (status : Nat) : Bool :=
  status = 301 || status = 302 || status = 303 || status = 307 || status = 308

-- The call of the hop that follows a redirect.
def Call.redirect (U : UrlLib) (c : Call) (status : Nat) (base next : CString) : Call :=
  let toGet := status = 303 || ((status = 301 || status = 302) && !strcaseEq c.method "GET".toList)
  {
    url         := next
    topUrl      := none
    method      := if toGet then "GET".toList else c.method
    body        := if toGet then none else c.body
    contentType := if toGet then none else c.contentType
    headers     := if U.originFrom base = U.originFrom next then c.headers
                   else stripSensitive c.headers
  }

inductive Step
  | done (resp : Response)
  | next (c : Call)

-- What becomes of a response, with `left` redirects left to follow in the fetch of `r`.
def afterHop (U : UrlLib) (r : Call) (left : Nat) (c : Call) (resp : Response)
    (location : Option CString) : Step :=
  match location with
  | none | some [] => .done resp
  | some location =>
    if !isRedirect resp.status || resp.error.isSome then .done resp
    else if left = 0 then .done { resp with error := some "too many redirects".toList }
    else
      let base := resp.finalUrl.getD c.url
      match U.resolve (some base) location with
      | none      => .done resp
      | some next =>
        if !isHttpOrHttps next || (isHttps r.url && !isHttps next && !isNavigation r.headers)
        then .done { resp with error := some "redirect to a disallowed URL blocked".toList }
        else .next (c.redirect U resp.status base next)

variable (N : Network)

-- The redirect loop: the hops that are made, and the response that is returned in the end.
def follow (r : Call) : (left hops : Nat) → Call → List Hop × Option Response
  | left, hops, c =>
    let result := fetchSyncHop N.lib N.cfg (N.env hops) c
    match result.response with
    | none      => (result.hop.toList, none)
    | some resp =>
      match afterHop N.lib r left c resp result.location, left with
      | .next c', left + 1 =>
        if (N.env hops).cancelled then (result.hop.toList, none)
        else
          let (rest, final) := follow r left (hops + 1) c'
          (result.hop.toList ++ rest, final)
      | .done resp, _ => (result.hop.toList, some { resp with redirectCount := hops })
      | .next _,    0 => (result.hop.toList, none)

-- Whether the blocker stops a request before anything happens.
def isBlocked (r : Call) : Bool :=
  !isNavigation r.headers && N.shouldBlock r.url r.topUrl

def Call.orGet (r : Call) : Call :=
  { r with method := if r.method = [] then "GET".toList else r.method }

def fetchSync (r : Call) : List Hop × Option Response :=
  if isBlocked N r then ([], some ⟨0, r.url, "blocked by extension".toList, 0⟩)
  else follow N r.orGet N.cfg.maxRedirs 0 r.orGet

end Nordstjernen.Net.Fetch

namespace Nordstjernen.Net.Fetch

variable (N : Network)

-- How `Sec-Fetch-Site` describes a target to the page that a request is made for.
def relation (top url : CString) : CString :=
  if N.lib.sameOrigin top url then "same-origin".toList
  else if N.lib.isSameSite top url then "same-site".toList
  else "cross-site".toList

-- Whether a request says of itself that it is sent on behalf of a top URL.
structure Sent.Presents (top : CString) (s : Sent) : Prop where
  cookies   : N.cfg.cookiePolicy = .firstParty → ¬N.lib.isSameSite s.url top → s.cookieJar = none
  jar       : ∀ p ∈ s.cookieJar, p = partition N.lib top
  origin    : ¬strcaseEq s.method "GET".toList → s.origin ≠ [] →
    N.lib.originFrom s.url = some s.origin → N.lib.originFrom top = some s.origin
  fetchSite : ∀ site ∈ s.fetchSite, site = relation N top s.url

structure Hop.Presents (top : CString) (h : Hop) : Prop where
  cache : h.cachePartition = partitionKey N.lib N.cfg top
  sent  : ∀ s ∈ h.sent, s.Presents N top

-- Whether it is sent on behalf of a top URL altogether, the blocker included.
structure Sent.OnBehalfOf (top : CString) (s : Sent) : Prop extends s.Presents N top where
  blocker : ¬N.shouldBlock s.url (some top)

structure Hop.OnBehalfOf (top : CString) (h : Hop) : Prop where
  cache : h.cachePartition = partitionKey N.lib N.cfg top
  sent  : ∀ s ∈ h.sent, s.OnBehalfOf N top

-- The page that a request is made for. Without a top URL, or with an empty one, it is the browser's own.
def Call.page (r : Call) : Option CString :=
  r.topUrl.filter (· ≠ [])

-- Whether a hop goes out to the network.
def Goes (env : Env) (c : Call) : Prop :=
  answerLocally N.lib env c = none ∧ answerFromCache N.lib N.cfg env c = none ∧
  holdsSlot N.lib env (hopUrl N.lib env c.url)

-- Whether a hop that no page is given for stays clear of the network, and of other partitions.
def StaysIn (top : CString) (env : Env) (c : Call) : Prop :=
  answerLocally N.lib env c = none →
  ¬Goes N env c ∧
    partitionKey N.lib N.cfg (hopUrl N.lib env c.url) = partitionKey N.lib N.cfg top

-- Whether the loop goes on to another call after a hop.
def Redirects (r : Call) (left hops : Nat) (c c' : Call) : Prop :=
  Goes N (N.env hops) c ∧ ¬(N.env hops).cancelled ∧ ∃ reply ∈ (N.env hops).reply,
    afterHop N.lib r left c (reply.response (hopUrl N.lib (N.env hops) c.url)) reply.location =
      .next c'

-- When a request is kept on behalf of its page: the blocker lets the URL pass in the form in which it
-- goes out, and no redirect is followed, or only one that the cache answers within the same partition.
structure Kept (r : Call) (left : Nat) (top : CString) : Prop where
  blocker  : Goes N (N.env 0) r → ¬N.shouldBlock (hopUrl N.lib (N.env 0) r.url) (some top)
  redirect : ∀ c, Redirects N r left 0 r c → StaysIn N top (N.env 1) c

end Nordstjernen.Net.Fetch

namespace Nordstjernen.Net.Fetch

section Request

def isContentType (header : CString) : Bool :=
  hasCasePrefix header "Content-Type:".toList

def Call.bytes (c : Call) : CString :=
  c.body.getD []

def Call.hasMethod (c : Call) (method : CString) : Bool :=
  strcaseEq c.method method

def Call.isGet (c : Call) : Bool :=
  c.method = [] || c.hasMethod "GET".toList

-- The lines of a request that say what its body is. The caller's own are sent with any method.
def Call.contentTypes (c : Call) : List CString :=
  let own := c.headers.any isContentType
  let ct  := (c.contentType.filter (· ≠ [])).getD "application/x-www-form-urlencoded".toList
  (if c.bytes ≠ [] ∧ !c.isGet ∧ !own then ["Content-Type: ".toList ++ ct] else []) ++
    (c.headers.filter isForwarded).filter isContentType

end Request

-- A redirect that is followed: the call that was answered with it, its status, the URL that it comes
-- from, and the call after it.
structure Followed where
  call   : Call
  status : Nat
  base   : CString
  next   : Call

section Trail

variable (N : Network)

-- The redirects that the loop follows.
def trail (r : Call) : (left hops : Nat) → Call → List Followed
  | 0,        _,    _ => []
  | left + 1, hops, c =>
    let result := fetchSyncHop N.lib N.cfg (N.env hops) c
    match result.response with
    | none      => []
    | some resp =>
      match afterHop N.lib r (left + 1) c resp result.location with
      | .done _  => []
      | .next c' =>
        if (N.env hops).cancelled then []
        else ⟨c, resp.status, resp.finalUrl.getD c.url, c'⟩ :: trail r left (hops + 1) c'

def redirects (r : Call) : List Followed :=
  if isBlocked N r then [] else trail N r.orGet N.cfg.maxRedirs 0 r.orGet

end Trail

namespace Followed

-- The rule of the Fetch standard.
def ToGet (f : Followed) : Prop :=
  f.status = 303 ∧ !f.call.hasMethod "GET".toList ∧ !f.call.hasMethod "HEAD".toList ∨
  (f.status = 301 ∨ f.status = 302) ∧ f.call.hasMethod "POST".toList

-- What a redirect does to the method and to the body.
structure Rule (f : Followed) : Prop where
  changed : f.ToGet → f.next.hasMethod "GET".toList ∧ f.next.bytes = [] ∧ f.next.contentTypes = []
  kept    : ¬f.ToGet → f.next.hasMethod f.call.method ∧ f.next.bytes = f.call.bytes ∧
    f.next.contentTypes = f.call.contentTypes

def CrossOrigin (U : UrlLib) (f : Followed) : Prop :=
  U.originFrom f.base ≠ U.originFrom f.next.url

-- Where the loop does what the rule says.
structure Plain (f : Followed) : Prop where
  head        : f.status = 303 → ¬f.call.hasMethod "HEAD".toList
  other       : f.status = 301 ∨ f.status = 302 → f.call.hasMethod "GET".toList ∨ f.call.hasMethod "POST".toList
  body        : f.status = 303 → f.call.hasMethod "GET".toList → f.call.bytes = []
  contentType : f.ToGet → ∀ h ∈ f.call.headers, isForwarded h → ¬isContentType h

end Followed

-- What is asked of the redirects of a fetch, and of the requests after them.
structure FollowsFetch (N : Network) (r : Call) : Prop where
  rule     : ∀ f ∈ redirects N r, f.Rule
  stripped : ∀ pre f post, redirects N r = pre ++ f :: post → f.CrossOrigin N.lib →
    ∀ g ∈ f :: post, ∀ url, ∀ h ∈ (request N.lib N.cfg url g.next).headers, ¬isSensitive h
  bounded  : (redirects N r).length ≤ N.cfg.maxRedirects.toNat

end Nordstjernen.Net.Fetch
