import Mathlib.Computability.Language
import Nordstjernen.Glib.Strings

open Nordstjernen.Glib

namespace Nordstjernen.Ext

section Match

def isSeparator (c : Char) : Bool :=
  !(c.isAlphanum || c == '_' || c == '-' || c == '.' || c == '%')

-- `ns_dnr_match_here`
def matchHere (endAnchor : Bool) : CString → CString → Bool
  | [],       s      => !endAnchor || s.isEmpty
  | '*' :: p, s      => p.isEmpty || s.tails.any (matchHere endAnchor p ·)
  | '^' :: p, []     => matchHere endAnchor p []
  | '^' :: p, c :: s => isSeparator c && matchHere endAnchor p s
  | _ :: _,   []     => false
  | f :: p,   c :: s => c == f && matchHere endAnchor p s

-- What follows the first `://`.
def behindScheme : CString → Option CString
  | []     => none
  | c :: s => if gStrHasPrefix (c :: s) "://".toList then some (s.drop 2) else behindScheme s

def endsAuthority (c : Char) : Bool :=
  c == '/' || c == '?' || c == '#'

-- The positions of the authority where a label begins, one after the other.
def anyLabel (test : CString → Bool) : Bool → CString → Bool
  | atLabel, []     => atLabel && test []
  | atLabel, c :: s =>
    (atLabel && test (c :: s)) || (!endsAuthority c && anyLabel test (c == '.') s)

-- `ns_dnr_urlfilter_match`
def urlfilterMatch (filter url : CString) (caseSensitive : Bool) : Bool :=
  if filter = [] then true
  else
    let u := if caseSensitive then url else gAsciiStrdown url
    let f := if caseSensitive then filter else gAsciiStrdown filter
    let (domainAnchor, startAnchor, p) := match f with
      | '|' :: '|' :: p => (true, false, p)
      | '|' :: p        => (false, true, p)
      | p               => (false, false, p)
    let endAnchor := p.getLast? == some '|'
    let body := if endAnchor then p.dropLast else p
    if domainAnchor then
      anyLabel (matchHere endAnchor body) true ((behindScheme u).getD u)
    else if startAnchor then matchHere endAnchor body u
    else u.tails.any (matchHere endAnchor body)

end Match

section Index

-- The host of `ns_ext_url_split`.
def urlHost (url : CString) : Option CString :=
  (behindScheme url).map fun s => gAsciiStrdown (s.takeWhile (!endsAuthority ·))

def stripPort (host : CString) : CString :=
  host.takeWhile (· ≠ ':')

-- The texts at the beginning and behind each dot, as long as one is left.
def indexedFrom (hosts : List CString) : Bool → CString → Bool
  | _,       []     => false
  | atLabel, c :: s => (atLabel && hosts.contains (c :: s)) || indexedFrom hosts (c == '.') s

-- `ns_ext_host_indexed`
def hostIndexed (hosts : List CString) : Option CString → Bool
  | none      => false
  | some host => !hosts.isEmpty && indexedFrom hosts true (stripPort host)

end Index

-- A rule without options.
structure Rule where
  allow         : Bool
  priority      : Int
  urlFilter     : CString
  caseSensitive : Bool

-- `g_blocked_hosts`, and the rules of each extension.
structure Blocker where
  hosts : List CString
  exts  : List (List Rule)

-- `best_pri`, `best_allow` and `best_block`.
structure Best where
  priority : Int
  allow    : Bool
  block    : Bool

def Best.offer (url : CString) (b : Best) (r : Rule) : Best :=
  if !urlfilterMatch r.urlFilter url r.caseSensitive then b
  else if b.priority < r.priority then ⟨r.priority, r.allow, !r.allow⟩
  else if r.priority = b.priority then
    if r.allow then { b with allow := true } else { b with block := true }
  else b

namespace Blocker

-- `ns_ext_should_block`
def shouldBlock (s : Blocker) (url : CString) : Bool :=
  if s.exts = [] then false
  else if !gStrHasPrefix url "http://".toList && !gStrHasPrefix url "https://".toList then false
  else
    let start : Best := if hostIndexed s.hosts (urlHost url) then ⟨1, false, true⟩ else ⟨-1, false, false⟩
    let best := s.exts.foldl (fun b rules => rules.foldl (Best.offer url) b) start
    0 ≤ best.priority && best.block && !best.allow

-- `ns_abp_is_simple_host`
def isSimpleHost (pattern : CString) : Bool :=
  gStrHasPrefix pattern "||".toList && pattern.getLast? == some '^' &&
    (pattern.drop 2).dropLast.all (fun c => c.isAlphanum || c == '.' || c == '-') && 3 < pattern.length

-- The rule that `ns_abp_parse_network` makes of a pattern.
def plainRule (pattern : CString) : Rule where
  allow         := false
  priority      := 1
  urlFilter     := pattern
  caseSensitive := false

-- `ns_abp_parse_network` for a line of extension `e` that is a pattern and nothing else.
def addPattern (e : Nat) (s : Blocker) (pattern : CString) : Blocker :=
  if isSimpleHost pattern then
    { s with hosts := s.hosts ++ [gAsciiStrdown ((pattern.drop 2).dropLast)] }
  else
    { s with exts := s.exts.modify e (· ++ [plainRule pattern]) }

end Blocker

end Nordstjernen.Ext

namespace Nordstjernen.Ext

-- The host of a filter `||host^`.
structure HostFilter where
  host   : CString
  chars  : ∀ c ∈ host, (c.isAlphanum || c == '.' || c == '-') = true
  ne_nil : host ≠ []

namespace HostFilter

def pattern (f : HostFilter) : CString :=
  '|' :: '|' :: (f.host ++ ['^'])

def lower (f : HostFilter) : CString :=
  gAsciiStrdown f.host

-- The filters in the host index of an extension that has nothing else.
def indexed (filters : List HostFilter) : Blocker :=
  filters.foldl (fun s f => s.addPattern 0 f.pattern) ⟨[], [[]]⟩

-- The filters as rules of the extension.
def evaluated (filters : List HostFilter) : Blocker :=
  ⟨[], [filters.map fun f => Blocker.plainRule f.pattern]⟩

end HostFilter

-- A host that is no address in brackets.
def IsRegName (host : CString) : Prop :=
  ∀ c ∈ host, c ≠ ':' ∧ endsAuthority c = false

instance (host : CString) : Decidable (IsRegName host) :=
  List.decidableBAll _ host

-- An address in brackets. A dot is only in its last part.
def IsIpv6 (host : CString) : Prop :=
  ∃ inner, host = '[' :: (inner ++ [']']) ∧ '.' ∉ inner.takeWhile (· ≠ ':') ∧
    ∀ c ∈ inner, c ≠ '[' ∧ c ≠ ']' ∧ endsAuthority c = false

-- A URL whose authority is a host and maybe a port.
structure Url where
  scheme    : CString
  host      : CString
  port      : Option CString
  rest      : CString
  scheme_ok : ':' ∉ scheme
  host_ok   : IsRegName host ∨ IsIpv6 host
  port_ok   : ∀ s, port = some s → ∀ c ∈ s, c.isDigit = true
  rest_ok   : ∀ c ∈ rest.head?, endsAuthority c = true

namespace Url

variable (url : Url)

def portText : CString :=
  match url.port with
  | none   => []
  | some s => ':' :: s

def text : CString :=
  url.scheme ++ "://".toList ++ url.host ++ url.portText ++ url.rest

-- Whether requests of such a URL are filtered at all.
def isHttp : Bool :=
  gStrHasPrefix url.text "http://".toList || gStrHasPrefix url.text "https://".toList

def lowerHost : CString :=
  gAsciiStrdown url.host

end Url

section Host

variable (h host : CString)

-- What stands in front of a label.
def BeforeLabel (p : CString) : Prop :=
  p = [] ∨ p.getLast? = some '.'

-- The last labels of the host.
def EndsHost : Prop :=
  ∃ p, host = p ++ h ∧ BeforeLabel p

-- Some labels of the host up to a separator within it.
def CutShort : Prop :=
  ∃ p c t, host = p ++ h ++ c :: t ∧ BeforeLabel p ∧ isSeparator c = true

end Host

end Nordstjernen.Ext

namespace Nordstjernen.Ext

-- `ns_ext_wildcard`
def wildcard : CString → CString → Bool
  | [],       s      => s.isEmpty
  | '*' :: p, s      => p.isEmpty || s.tails.any fun t => !t.isEmpty && wildcard p t
  | _ :: _,   []     => false
  | f :: p,   c :: s => f == c && wildcard p s

-- The language of a glob.
def glob (p : CString) : Language Char :=
  (p.map fun c => if c = '*' then ⊤ else {[c]}).prod

-- The text as a rule reads it.
def fold (caseSensitive : Bool) (s : CString) : CString :=
  if caseSensitive then s else gAsciiStrdown s

def SameChar (caseSensitive : Bool) (f c : Char) : Prop :=
  if caseSensitive then f = c else gAsciiTolower f = gAsciiTolower c

-- A url filter matches a text that stands before another one, at the end of the url if that is empty.
inductive Matches (caseSensitive : Bool) : CString → CString → CString → Prop
  | nil {v} : Matches caseSensitive [] [] v
  | star {p t u v} (h : Matches caseSensitive p u v) : Matches caseSensitive ('*' :: p) (t ++ u) v
  | separator {p c u v} (hc : isSeparator c) (h : Matches caseSensitive p u v) :
    Matches caseSensitive ('^' :: p) (c :: u) v
  | finish {p} (h : Matches caseSensitive p [] []) : Matches caseSensitive ('^' :: p) [] []
  | char {p f c u v} (hf : f ≠ '*' ∧ f ≠ '^') (hc : SameChar caseSensitive f c)
    (h : Matches caseSensitive p u v) : Matches caseSensitive (f :: p) (c :: u) v

-- Whether `ns_dnr_match_here` accepts what the pattern of a url filter means.
def MatchesExactly (p : CString) : Prop :=
  ∀ caseSensitive endAnchor url,
    matchHere endAnchor (fold caseSensitive p) (fold caseSensitive url) ↔
      ∃ u v, url = u ++ v ∧ (endAnchor → v = []) ∧ Matches caseSensitive p u v

-- Whether `ns_ext_wildcard` accepts the language of a glob.
def GlobsExactly (p : CString) : Prop :=
  ∀ s, wildcard p s ↔ s ∈ glob p

end Nordstjernen.Ext
