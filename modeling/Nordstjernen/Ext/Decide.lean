import Nordstjernen.Ext.Filter
import Nordstjernen.Lib.Precedence

open Nordstjernen.Glib Nordstjernen.Lib

namespace Nordstjernen.Ext

-- `ns_dnr_rule`. Both a rule and a request can be third-party, first-party or neither. The regular
-- expression is what it matches.
structure DnrRule where
  priority                 : Int                     := 1
  allow                    : Bool
  thirdParty               : Option Bool             := none
  urlFilter                : Option CString          := none
  regex                    : Option (CString → Bool) := none
  caseSensitive            : Bool                    := false
  requestDomains           : Option (List CString)   := none
  excludedRequestDomains   : Option (List CString)   := none
  initiatorDomains         : Option (List CString)   := none
  excludedInitiatorDomains : Option (List CString)   := none
  resourceTypes            : Option (List CString)   := none
  excludedResourceTypes    : Option (List CString)   := none

section Match

-- `ns_dnr_domain_match`
def domainMatch (domain host : CString) : Bool :=
  domain == host ||
    domain.length < host.length && host[host.length - domain.length - 1]? == some '.' &&
      host.drop (host.length - domain.length) == domain

-- `ns_dnr_domain_list_match`
def domainListMatch (list : List CString) (host : Option CString) : Bool :=
  host.any fun h => list.any (domainMatch · h)

def typeMap : List (String × String) := [
  ("js", "script"), ("mjs", "script"),
  ("css", "stylesheet"),
  ("png", "image"), ("jpg", "image"), ("jpeg", "image"),
  ("gif", "image"), ("webp", "image"), ("svg", "image"),
  ("ico", "image"), ("bmp", "image"), ("avif", "image"),
  ("apng", "image"),
  ("woff", "font"), ("woff2", "font"), ("ttf", "font"),
  ("otf", "font"), ("eot", "font"),
  ("mp4", "media"), ("webm", "media"), ("mp3", "media"),
  ("ogg", "media"), ("oga", "media"), ("ogv", "media"),
  ("wav", "media"), ("m4a", "media"), ("m4v", "media"),
  ("mpg", "media"), ("mpeg", "media"), ("mov", "media")
]

-- What follows the last dot, if no slash does.
def behindDot (path : CString) : Option CString :=
  path.foldl (fun dot c => if c == '.' then some [] else if c == '/' then none else dot.map (· ++ [c])) none

-- `ns_dnr_infer_type`
def inferType (url : CString) : Option CString := do
  let ext ← behindDot (url.takeWhile fun c => c != '?' && c != '#')
  let entry ← typeMap.find? (·.1.toList == gAsciiStrdown ext)
  return entry.2.toList

-- `ns_dnr_type_in_list`
def typeInList (list : List CString) (type : Option CString) : Bool :=
  type.any list.contains

-- `ns_ext_third_party`. The registrable domains are unknown without a list of public suffixes.
def isThirdParty (psl : Option (CString → Option CString)) (reqHost initHost : Option CString) : Option Bool :=
  match reqHost, initHost with
  | some req, some init =>
    let rh := stripPort req
    let ih := stripPort init
    if rh = [] || ih = [] then none
    else if rh == ih then some false
    else
      match psl.bind (· rh), psl.bind (· ih) with
      | some rr, some ir => some (rr != ir)
      | _,       _       => some (rh != ih)
  | _,        _         => none

-- `ns_dnr_rule_matches`
def DnrRule.ruleMatches (r : DnrRule) (url : CString) (host initHost : Option CString) (tp : Option Bool) : Bool :=
  if r.thirdParty = some true && tp ≠ some true then false
  else if r.thirdParty = some false && tp ≠ some false then false
  else if r.requestDomains.any (!domainListMatch · host) then false
  else if r.excludedRequestDomains.any (domainListMatch · host) then false
  else if r.initiatorDomains.any (!domainListMatch · initHost) then false
  else if r.excludedInitiatorDomains.any (initHost.isSome && domainListMatch · initHost) then false
  else if r.urlFilter.any (!urlfilterMatch · url r.caseSensitive) then false
  else if r.regex.any (!· url) then false
  else
    let t := inferType url
    !r.resourceTypes.any (!typeInList · t) && !r.excludedResourceTypes.any (typeInList · t)

end Match

-- The host the rules are matched against.
def requestHost (url : CString) : Option CString :=
  (urlHost url).map stripPort

-- Whether `ns_ext_should_block` takes account of a rule.
def DnrRule.hits (psl : Option (CString → Option CString)) (url : CString) (initiator : Option CString)
    (r : DnrRule) : Bool :=
  let ih := initiator.bind urlHost
  r.ruleMatches url (requestHost url) (ih.map stripPort) (isThirdParty psl (urlHost url) ih)

-- The turn of the loop for a rule that matches.
def Best.vote (b : Best) (r : DnrRule) : Best :=
  if b.priority < r.priority then ⟨r.priority, r.allow, !r.allow⟩
  else if r.priority = b.priority then
    if r.allow then { b with allow := true } else { b with block := true }
  else b

-- `g_blocked_hosts`, and the rules of each extension. The hosts are from the lists of extensions.
structure Extensions where
  hosts  : List CString
  exts   : List (List DnrRule)
  loaded : exts = [] → hosts = []

-- A URL to which credentials may be added.
structure Request where
  url         : Url
  userinfo    : Option CString
  userinfo_ok : ∀ u ∈ userinfo, ∀ c ∈ u, endsAuthority c = false
  host_ok     : '@' ∉ url.host

namespace Request

variable (req : Request)

def userText : CString :=
  match req.userinfo with
  | none   => []
  | some u => u ++ ['@']

def text : CString :=
  req.url.scheme ++ "://".toList ++ (req.userText ++ req.url.host ++ req.url.portText) ++ req.url.rest

def IsHttp : Prop :=
  req.url.scheme = "http".toList ∨ req.url.scheme = "https".toList

-- The first colon ends what is taken for the host.
def HostRead : Prop :=
  match req.userinfo with
  | none   => ':' ∉ req.url.host
  | some u => ':' ∈ u ∧ gAsciiStrdown (u.takeWhile (· ≠ ':')) = req.url.lowerHost

end Request

namespace Extensions

variable (psl : Option (CString → Option CString)) (s : Extensions) (url : CString) (initiator : Option CString)

-- `ns_ext_should_block`
def shouldBlock : Bool :=
  if s.exts = [] then false
  else if !gStrHasPrefix url "http://".toList && !gStrHasPrefix url "https://".toList then false
  else
    let start : Best := if hostIndexed s.hosts (urlHost url) then ⟨1, false, true⟩ else ⟨-1, false, false⟩
    let turn (b : Best) (r : DnrRule) := if r.hits psl url initiator then b.vote r else b
    let best := s.exts.foldl (fun b rules => rules.foldl turn b) start
    0 ≤ best.priority && best.block && !best.allow

-- What the host index and the rules that match say: their priorities, and whether they allow.
def votes : Set (Int × Bool) :=
  { v | hostIndexed s.hosts (urlHost url) ∧ v = (1, false) ∨
    ∃ rules ∈ s.exts, ∃ r ∈ rules, r.hits psl url initiator ∧ v = (r.priority, r.allow) }

-- What is blocked is decided by what matches, whatever the order, and matching reads the host of the request.
structure Decides (req : Request) : Prop where
  block : s.shouldBlock psl req.text initiator ↔ req.IsHttp ∧ Wins (s.votes psl req.text initiator) false
  host  : requestHost req.text = some req.url.lowerHost

end Extensions

end Nordstjernen.Ext
