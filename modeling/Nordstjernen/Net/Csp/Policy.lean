import Nordstjernen.Net.Url

open Nordstjernen.Glib

namespace Nordstjernen.Net

-- `ns_csp_kind`, without its count.
inductive CspKind
  | default
  | script
  | style
  | img
  | media
  | connect
  | font
  | frame
  | child
  | worker
  | frameAncestors
  | object
  | baseUri
  | formAction
deriving DecidableEq

namespace CspKind

def directives : List (CString × CspKind) := [
  ("default-src".toList,     default),
  ("script-src".toList,      script),
  ("style-src".toList,       style),
  ("img-src".toList,         img),
  ("media-src".toList,       media),
  ("connect-src".toList,     connect),
  ("font-src".toList,        font),
  ("frame-src".toList,       frame),
  ("child-src".toList,       child),
  ("worker-src".toList,      worker),
  ("frame-ancestors".toList, frameAncestors),
  ("object-src".toList,      object),
  ("base-uri".toList,        baseUri),
  ("form-action".toList,     formAction)
]

-- `directive_kind`
def ofName? (name : CString) : Option CspKind :=
  (directives.find? fun d => strcaseEq name d.fst).map Prod.snd

end CspKind

-- A policy has a list of sources for each directive that is set.
abbrev CspPolicy := CspKind → Option (List CString)

namespace CspPolicy

-- One iteration of the loop of `policy_parse`: the first directive of a kind counts.
def addClause (p : CspPolicy) (clause : CString) : CspPolicy :=
  match (gStrstrip clause).splitOnP fun c => c == ' ' || c == '\t' with
  | []           => p
  | name :: toks =>
    match CspKind.ofName? name with
    | none      => p
    | some kind =>
      match p kind with
      | some _ => p
      | none   => Function.update p kind (some ((toks.map gStrstrip).filter (· ≠ [])))

-- `policy_parse`
def parse (text : CString) : CspPolicy :=
  (gStrsplitAll text ';').foldl addClause fun _ => none

end CspPolicy

-- `ns_csp`, which the parser never returns without a policy.
structure Csp where
  policies : List CspPolicy
  nonempty : policies ≠ []

namespace Csp

def policiesOf (header : CString) : List CspPolicy :=
  (((gStrsplitAll header ',').map gStrstrip).filter (· ≠ [])).map CspPolicy.parse

-- `ns_csp_parse`
def parse (header : CString) : Option Csp :=
  if h : policiesOf header = [] then none else some ⟨policiesOf header, h⟩

-- `ns_csp_merge`
def merge (dst src : Csp) : Csp where
  policies := dst.policies ++ src.policies
  nonempty := by simp [dst.nonempty]

-- `ns_js_add_csp_header`, for the `js->csp` that it changes.
def addHeader (csp : Option Csp) (header : CString) : Option Csp :=
  match csp, parse header with
  | _,        none        => csp
  | some csp, some parsed => some (csp.merge parsed)
  | none,     some parsed => some parsed

end Csp

inductive ChecksumType
  | sha256
  | sha384
  | sha512
deriving DecidableEq

-- What the policy asks of the URL parser and of GLib: `digest` is the base64 form of a checksum.
structure CspLib extends UrlLib where
  digest : ChecksumType → CString → CString

def urlSchemeMatches (url scheme : CString) : Bool :=
  if scheme = [] then
    false
  else
    let name := if scheme.getLast? = some ':' then scheme.dropLast else scheme
    hasCasePrefix url name && (url.drop name.length).head? == some ':'

def schemePartMatches (scheme url : CString) : Bool :=
  if hasCasePrefix url scheme && (url.drop scheme.length).head? == some ':' then
    true
  else if strcaseEq scheme "http".toList then
    hasCasePrefix url "https:".toList
  else if strcaseEq scheme "ws".toList then
    hasCasePrefix url "wss:".toList
  else
    false

def isNetworkSchemeUrl (url : CString) : Bool :=
  urlSchemeMatches url "http:".toList || urlSchemeMatches url "https:".toList ||
    urlSchemeMatches url "ws:".toList || urlSchemeMatches url "wss:".toList ||
    urlSchemeMatches url "ftp:".toList

def defaultPortForScheme (scheme : CString) : CString :=
  let name := if scheme.getLast? = some ':' then scheme.dropLast else scheme
  if strcaseEq name "https".toList || strcaseEq name "wss".toList then "443".toList
  else if strcaseEq name "http".toList || strcaseEq name "ws".toList then "80".toList
  else if strcaseEq name "ftp".toList then "21".toList
  else []

-- The empty port of a source stands for none.
def cspPortMatches (srcPort resPort resScheme : CString) : Bool :=
  if srcPort = ['*'] then
    true
  else if srcPort = [] then
    if resPort = [] then
      true
    else
      let port := defaultPortForScheme resScheme
      port ≠ [] && resPort == port
  else
    let port := if resPort = [] then defaultPortForScheme resScheme else resPort
    port ≠ [] && srcPort == port

-- The empty path of a source stands for none.
def cspPathMatches (srcPath resPath : CString) : Bool :=
  if srcPath = [] ∨ srcPath = ['/'] then
    true
  else
    let path := if resPath = [] then ['/'] else resPath
    if srcPath.getLast? = some '/' then gStrHasPrefix path srcPath else path == srcPath

-- The parts of a source before and after its first `://`.
def splitScheme : CString → Option (CString × CString)
  | []                      => none
  | ':' :: '/' :: '/' :: tl => some ([], tl)
  | c :: tl                 => (splitScheme tl).map fun (scheme, rest) => (c :: scheme, rest)

def hostMatches (srcHost hostname : CString) : Bool :=
  if gStrHasPrefix srcHost "*.".toList then
    let suffix := srcHost.drop 1
    suffix.length < hostname.length &&
      strcaseEq (hostname.drop (hostname.length - suffix.length)) suffix
  else
    strcaseEq hostname srcHost

namespace CspLib

variable (L : CspLib)

-- Whether a source without a scheme matches the scheme of the resource.
def docSchemeMatches (resUrl : CString) (res : UrlParts) (docUrl : Option CString) : Bool :=
  match docUrl.bind L.urlParts with
  | none     => isNetworkSchemeUrl resUrl
  | some doc =>
    if doc.protocol = [] then
      isNetworkSchemeUrl resUrl
    else
      strcaseEq res.protocol doc.protocol ||
        strcaseEq doc.protocol "http:".toList && strcaseEq res.protocol "https:".toList ||
        strcaseEq doc.protocol "ws:".toList && strcaseEq res.protocol "wss:".toList

-- The rest of `source_matches`, from the host of the source on.
def hostSourceMatches (rest : CString) (res : UrlParts) : Bool :=
  let host := rest.takeWhile fun c => c != ':' && c != '/'
  let port :=
    match rest.drop host.length with
    | ':' :: tl => tl.takeWhile (· != '/')
    | _         => []
  let path := rest.dropWhile (· != '/')
  hostMatches host res.hostname && cspPortMatches port res.port res.protocol &&
    cspPathMatches path res.pathname

def sourceMatches (src resUrl : CString) (docUrl : Option CString) : Bool :=
  if src = [] ∨ src = "'none'".toList then
    false
  else if src = ['*'] then
    isNetworkSchemeUrl resUrl
  else if src = "'self'".toList then
    docUrl.any (L.sameOrigin resUrl)
  else if src = "'unsafe-inline'".toList ∨ src = "'unsafe-eval'".toList ∨
      src = "'strict-dynamic'".toList then
    false
  else if ["https:", "http:", "wss:", "ws:", "data:", "blob:"].any (strcaseEq src ·.toList) then
    urlSchemeMatches resUrl src
  else
    match splitScheme src with
    | some (scheme, rest) =>
      schemePartMatches scheme resUrl && (L.urlParts resUrl).any (hostSourceMatches rest)
    | none =>
      (L.urlParts resUrl).any fun res =>
        L.docSchemeMatches resUrl res docUrl && hostSourceMatches src res

end CspLib

-- Whether a source is `'nonce-…'` for the given nonce.
def nonceSourceMatches (src nonce : CString) : Bool :=
  8 < src.length && src.getLast? == some '\'' && nonce.length == src.length - 8 &&
    (src.drop 7).take (src.length - 8) == nonce

def listHasNonceOrHash (list : List CString) : Bool :=
  list.any fun src =>
    gStrHasPrefix src "'nonce-".toList || gStrHasPrefix src "'sha256-".toList ||
      gStrHasPrefix src "'sha384-".toList || gStrHasPrefix src "'sha512-".toList

def hashType (src : CString) : Option ChecksumType :=
  if gStrHasPrefix src "'sha256-".toList then some .sha256
  else if gStrHasPrefix src "'sha384-".toList then some .sha384
  else if gStrHasPrefix src "'sha512-".toList then some .sha512
  else none

-- The alphabet of base64url.
def base64Alt (c : Char) : Char :=
  if c = '+' then '-' else if c = '/' then '_' else c

def hashTokenMatches (L : CspLib) (src body : CString) : Bool :=
  match hashType src with
  | none      => false
  | some type =>
    let b64 := src.drop 8
    if b64.length < 2 ∨ b64.getLast? ≠ some '\'' then
      false
    else
      let got := L.digest type body
      b64.dropLast == got || b64.dropLast == got.map base64Alt

namespace CspPolicy

variable (L : CspLib) (p : CspPolicy)

-- `policy_frame_ancestors_allows`, for the parent that `ns_csp_allows_with_nonce` has tested.
def frameAncestorsAllows (parentUrl : CString) (docUrl : Option CString) : Bool :=
  match p .frameAncestors with
  | none      => true
  | some list => list.any fun src => L.sourceMatches src parentUrl docUrl

-- The directive that decides about a kind of resource.
def effective (kind : CspKind) : Option CspKind :=
  if (p kind).isSome then some kind
  else if kind = .baseUri ∨ kind = .formAction then none
  else if kind = .worker ∧ (p .child).isSome then some .child
  else if kind = .worker ∧ (p .script).isSome then some .script
  else if kind = .frame ∧ (p .child).isSome then some .child
  else if (p .default).isSome then some .default
  else none

-- The loop over the list of sources in `policy_allows_with_nonce`.
def listAllows (list : List CString) (strictDynamic : Bool) (resUrl : CString)
    (docUrl nonce : Option CString) : Bool :=
  list.any fun src =>
    if src = "'strict-dynamic'".toList then
      false
    else
      match nonce, gStrHasPrefix src "'nonce-".toList with
      | some nonce, true => nonceSourceMatches src nonce
      | _,          _    => !strictDynamic && L.sourceMatches src resUrl docUrl

-- `policy_allows_with_nonce`
def allowsWithNonce (kind : CspKind) (resUrl : CString) (docUrl nonce : Option CString)
    (parserInserted : Bool) : Bool :=
  if kind = .frameAncestors then
    p.frameAncestorsAllows L resUrl docUrl
  else
    match p.effective kind with
    | none     => true
    | some eff =>
      match (p eff).getD [] with
      | []          => false
      | src :: list =>
        let scriptLike := kind == .script || kind == .default && eff == .default
        let strictDynamic := scriptLike && (src :: list).contains "'strict-dynamic'".toList
        listAllows L (src :: list) strictDynamic resUrl docUrl nonce ||
          strictDynamic && !parserInserted

def inlineScriptKind : Option CspKind :=
  if (p .script).isSome then some .script
  else if (p .default).isSome then some .default
  else none

-- The last three tests of `policy_inline_script_allowed`, which are all of those of
-- `policy_inline_event_handler_allowed`.
def unsafeInlineAllowed (list : List CString) : Bool :=
  if list.contains "'strict-dynamic'".toList then false
  else if listHasNonceOrHash list then false
  else list.contains "'unsafe-inline'".toList

def inlineScriptAllowed (body : CString) (nonce : Option CString) : Bool :=
  match p.inlineScriptKind with
  | none      => true
  | some kind =>
    let list := (p kind).getD []
    let nonceOk :=
      match nonce with
      | none | some [] => false
      | some nonce     => list.contains ("'nonce-".toList ++ nonce ++ ['\''])
    nonceOk || (body ≠ [] && list.any (hashTokenMatches L · body)) || unsafeInlineAllowed list

def inlineEventHandlerAllowed : Bool :=
  match p.inlineScriptKind with
  | none      => true
  | some kind => unsafeInlineAllowed ((p kind).getD [])

end CspPolicy

-- A question that the browser asks of a policy.
inductive CspRequest
  -- `ns_csp_allows_with_nonce`
  | resource (kind : CspKind) (resUrl docUrl nonce : Option CString) (parserInserted : Bool)
  -- `ns_csp_inline_script_allowed`, where no body is the empty one.
  | inlineScript (body : CString) (nonce : Option CString)
  -- `ns_csp_inline_event_handler_allowed`
  | inlineEventHandler

-- `ns_csp_allows`
def CspRequest.load (kind : CspKind) (resUrl docUrl : Option CString) : CspRequest :=
  .resource kind resUrl docUrl none true

def CspPolicy.answers (L : CspLib) (p : CspPolicy) : CspRequest → Bool
  | .resource _ none _ _ _                                  => true
  | .resource kind (some resUrl) docUrl nonce parserInserted =>
    p.allowsWithNonce L kind resUrl docUrl nonce parserInserted
  | .inlineScript body nonce                                => p.inlineScriptAllowed L body nonce
  | .inlineEventHandler                                     => p.inlineEventHandlerAllowed

-- The three loops over the policies. Without a policy everything is allowed.
def Csp.allows (L : CspLib) (csp : Option Csp) (req : CspRequest) : Bool :=
  match csp with
  | none     => true
  | some csp => csp.policies.all (·.answers L req)

end Nordstjernen.Net
