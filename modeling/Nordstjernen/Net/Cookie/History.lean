import Nordstjernen.Lib.LastWrite
import Nordstjernen.Net.Cookie.Theorems.Accept

open Nordstjernen.Glib

namespace Nordstjernen.Net.Cookie

-- One call of the store, with the clock that it reads.
structure Call where
  now    : Nat
  route  : Route
  url    : CString
  cookie : CString

section

variable (P : Platform)

namespace Call

def store (files : Files) (c : Call) : Files :=
  cookieStore P c.now c.route c.url c.cookie files

def accepted (c : Call) : Option Line :=
  match h : acceptCookie P c.now c.route c.url c.cookie with
  | none   => none
  | some w => some ⟨w, acceptCookie_sound h⟩

end Call

def runCalls (files : Files) (calls : List Call) : Files :=
  calls.foldl (Call.store P) files

-- The writes of a history that reach the files of one partition.
def acceptedWrites (site : CString) (calls : List Call) : Lines :=
  (calls.filterMap (Call.accepted P)).filter (·.write.site = site)

end

-- The two files of a partition as lists of lines.
structure Shelf where
  http : Lines := []
  js   : Lines := []

namespace Shelf

def get (s : Shelf) : Route → Lines
  | .http => s.http
  | .js   => s.js

def store (s : Shelf) (w : Line) : Shelf :=
  match w.write.route with
  | .http => { s with http := s.http.store w }
  | .js   => { s with js := s.js.store w }

def storeAll (s : Shelf) (ws : Lines) : Shelf :=
  ws.foldl store s

def contents (s : Shelf) : Jar where
  http := s.http.contents
  js   := s.js.contents

-- The lines of both files that contribute to a request, in the order in which they are read.
def sent (s : Shelf) (now : Nat) (parts : UrlParts) (includeHttpOnly : Bool) : Lines :=
  (s.http ++ s.js).filter (·.sent now parts includeHttpOnly)

-- The pairs a request gets.
def pairs (s : Shelf) (now : Nat) (parts : UrlParts) (includeHttpOnly : Bool) :
    List (CString × CString) :=
  ((s.sent now parts includeHttpOnly).map Line.pair).foldl (Lib.put Prod.fst) []

@[simp]
theorem contents_get (s : Shelf) (route : Route) :
    s.contents.get route = (s.get route).contents := by
  cases route <;> rfl

theorem get_store (s : Shelf) (w : Line) (route : Route) :
    (s.store w).get route =
      if w.write.route = route then (s.get route).store w else s.get route := by
  cases route <;> cases h : w.write.route <;> simp [store, get, h]

theorem contents_store (s : Shelf) (w : Line) :
    (s.store w).contents =
      s.contents.set w.write.route (rewriteFile w.write (s.contents.get w.write.route)) := by
  rw [contents_get, Lines.rewriteFile_contents]
  cases h : w.write.route <;> simp [store, h, contents, Jar.set, get]

end Shelf

section

variable {P : Platform} {site : CString} {files : Files} {s : Shelf}

theorem Call.accepted_eq_none {c : Call} :
    c.accepted P = none ↔ acceptCookie P c.now c.route c.url c.cookie = none := by
  rw [Call.accepted]
  split <;> simp_all

theorem Call.accepted_eq_some {c : Call} {w : Line} :
    c.accepted P = some w ↔ acceptCookie P c.now c.route c.url c.cookie = some w.write := by
  rw [Call.accepted]
  split
  case h_1 h => simp [h]
  case h_2 v h =>
    have ⟨u, _⟩ := w
    simp [h]

theorem acceptCookie_route {now : Nat} {route : Route} {url cookie : CString} {w : Write}
    (h : acceptCookie P now route url cookie = some w) : w.route = route ∧ w.now = now := by
  obtain ⟨h⟩ := acceptCookie_accepted h
  exact ⟨h.route_eq, h.now_eq⟩

theorem acceptedWrites_cons (c : Call) (calls : List Call) :
    acceptedWrites P site (c :: calls) =
      ((c.accepted P).toList.filter (·.write.site = site)) ++ acceptedWrites P site calls := by
  rw [acceptedWrites, acceptedWrites, List.filterMap_cons]
  cases c.accepted P
  case none   => rfl
  case some w => simp only [Option.toList, ← List.filter_append]; rfl

-- A call only writes the files of the partition of its own url.
theorem Call.store_contents (c : Call) (h : files site = s.contents) :
    c.store P files site =
      (s.storeAll ((c.accepted P).toList.filter (·.write.site = site))).contents := by
  rw [Call.store, cookieStore]
  cases ha : c.accepted P
  case none => simp [Call.accepted_eq_none.mp ha, h, Shelf.storeAll]
  case some w =>
    have hw := Call.accepted_eq_some.mp ha
    have hr := (acceptCookie_route hw).left
    simp only [hw]
    by_cases hs : w.write.site = site
    case pos =>
      have hl : [w].filter (·.write.site = site) = [w] := by simp [hs]
      simp only [Option.toList, hl, hs, Function.update_self, h, ← hr]
      exact (Shelf.contents_store s w).symm
    case neg =>
      have hl : [w].filter (·.write.site = site) = [] := by simp [hs]
      simp only [Option.toList, hl, Function.update_of_ne (Ne.symm hs)]
      exact h

theorem runCalls_contents (calls : List Call) (h : files site = s.contents) :
    runCalls P files calls site = (s.storeAll (acceptedWrites P site calls)).contents := by
  induction calls generalizing files s
  case nil => exact h
  case cons c calls hi =>
    have hc := hi (Call.store_contents (P := P) c h)
    rw [acceptedWrites_cons, Shelf.storeAll, List.foldl_append]
    exact hc

theorem runCalls_empty (calls : List Call) :
    runCalls P (fun _ => {}) calls site =
      (({} : Shelf).storeAll (acceptedWrites P site calls)).contents :=
  runCalls_contents calls rfl

theorem putValue_eq_put : putValue = Lib.put Prod.fst := by
  funext vals nv
  simp only [putValue, Lib.put]
  congr
  funext kv
  rw [Bool.eq_iff_iff]
  simp

theorem collectPairs_contents (now : Nat) (parts : UrlParts) (inc : Bool) (s : Shelf) :
    collectPairs now parts inc s.contents = s.pairs now parts inc := by
  simp only [collectPairs, Shelf.contents, List.filterMap_append, Lines.filterMap_readLine,
    putValue_eq_put, Shelf.pairs, Shelf.sent, List.filter_append, List.map_append, Lines.pairs]

end

end Nordstjernen.Net.Cookie

namespace Nordstjernen.Net.Cookie

-- The seven fields of a line of a cookie file, as the text has them.
structure FileLine where
  domain : CString
  tail   : CString
  path   : CString
  secure : CString
  expiry : CString
  name   : CString
  value  : CString
deriving DecidableEq

def parseFields : List CString → Option FileLine
  | [domain, tail, path, secure, expiry, name, value] =>
    some { domain, tail, path, secure, expiry, name, value }
  | _ => none

-- A line behind its `#HttpOnly_` marker, cut at every tab.
def parseLine (line : CString) : Option FileLine :=
  let rest := if gStrHasPrefix line httpOnlyPrefix then line.drop httpOnlyPrefix.length else line
  parseFields (gStrsplitAll rest '\t')

namespace FileLine

variable (f : FileLine)

def isSecure : Bool :=
  f.secure == boolField true

def isDomainLine : Bool :=
  f.tail == boolField true

def key : CString × CString × CString :=
  (gAsciiStrdown f.domain, f.path, f.name)

-- A domain line carries a dot and the host that wrote it, or a parent of that host, but no public
-- suffix. Any other line carries the host itself.
def NamesHost (P : Platform) (host : CString) : Prop :=
  if f.isDomainLine
  then ∃ d, f.domain = '.' :: d ∧ P.isPublicSuffix (gAsciiStrdown d) = false ∧
    (gAsciiStrdown d = gAsciiStrdown host ∨ '.' :: gAsciiStrdown d <:+ gAsciiStrdown host)
  else f.domain = host ∧ f.tail = boolField false

-- What the url of its write and the prefix of its name promise of a line.
structure Proper (P : Platform) (parts : UrlParts) : Prop where
  host       : hasCasePrefix f.name "__Host-".toList →
    f.isSecure ∧ ¬f.isDomainLine ∧ f.path = ['/']
  secureName : hasCasePrefix f.name "__Secure-".toList → f.isSecure
  https      : f.isSecure → parts.isHttps
  domain     : f.NamesHost P parts.hostname

end FileLine

-- Every line of the file has seven fields and is proper for a call that wrote it, and no two lines
-- agree on the domain, the path and the name.
structure ProperFile (P : Platform) (calls : List Call) (contents : CString) : Prop where
  line : ∀ line ∈ fileLines contents, ∃ f ∈ parseLine line, ∃ c ∈ calls,
    (∃ w ∈ acceptCookie P c.now c.route c.url c.cookie, line = formatLine w) ∧
    ∃ parts ∈ P.hostParts c.url, f.Proper P parts
  keys : ((fileLines contents).map fun line => (parseLine line).map FileLine.key).Nodup

-- A cookie with the prefix `__Host-` that would be kept has a `Path` attribute, or its default is `/`.
def Call.HostPathOk (P : Platform) (c : Call) : Prop :=
  ∀ parts ∈ P.hostParts c.url, ∀ nv ∈ namePair c.cookie,
    let a := Attributes.readAll P c.now c.cookie
    hasCasePrefix nv.1 "__Host-".toList → a.secure → parts.isHttps → a.expired = false →
      a.path.getD [] ≠ [] ∨ defaultPath parts.pathname = ['/']

end Nordstjernen.Net.Cookie

namespace Nordstjernen.Net.Cookie

-- What the store is for, in terms of the attributes that the cookies were set with: neither files
-- nor lines nor 64 bit expiry times occur here.
namespace Spec

-- A domain cookie reaches its domain and everything below it, any other cookie only its own host.
def domainReaches (host : CString) (w : Write) : Prop :=
  if w.tail
  then gAsciiStrdown host = (gAsciiStrdown w.fileDomain).tail ∨
    gAsciiStrdown w.fileDomain <:+ gAsciiStrdown host
  else gAsciiStrdown host = gAsciiStrdown w.fileDomain

-- A path reaches itself and everything below it.
def pathReaches (path : CString) (w : Write) : Prop :=
  w.path <+: path ∧
    (path = w.path ∨ w.path.getLast? = some '/' ∨ path[w.path.length]? = some '/')

def reaches (parts : UrlParts) (w : Write) : Prop :=
  domainReaches parts.hostname w ∧ pathReaches parts.requestPath w ∧ (w.secure → parts.isHttps)

-- Whether a cookie, once written, still has a value at the time `now`.
def live (now : Nat) (w : Write) : Prop :=
  w.lifetime.removes w.now = false ∧ ∀ t ∈ w.lifetime.deadline w.now, (now : Int) ≤ t

instance (host : CString) (w : Write) : Decidable (domainReaches host w) :=
  inferInstanceAs (Decidable (ite _ _ _))

instance (path : CString) (w : Write) : Decidable (pathReaches path w) :=
  inferInstanceAs (Decidable (_ ∧ _))

instance (parts : UrlParts) (w : Write) : Decidable (reaches parts w) :=
  inferInstanceAs (Decidable (_ ∧ _))

instance (now : Nat) (w : Write) : Decidable (live now w) :=
  inferInstanceAs (Decidable (_ ∧ _))

-- The cookies that a history of writes gives to a url: of each domain, path and name the last
-- write counts, whichever route it took.
def collected (log : Lines) (now : Nat) (parts : UrlParts) : Lines :=
  (Lib.lasts Line.key log).filter fun l => live now l.write ∧ reaches parts l.write

end Spec

-- A request to a url of a partition gets the cookies that the history of its writes gives to it.
def CollectsLastWrites (P : Platform) (calls : List Call) (site : CString) (parts : UrlParts)
    (url : CString) (now : Nat) : Prop :=
  ∃ pairs : List (CString × CString),
    pairs.Perm ((Spec.collected (acceptedWrites P site calls) now parts).map Line.pair) ∧
    cookiesForRequest P now (runCalls P (fun _ => {}) calls) url =
      if pairs = [] then none else some (cookieString pairs)

namespace Line

def name (l : Line) : CString :=
  l.write.name

-- A write that hides an older line of the other file from every later request: the HTTP file is
-- read first, so only a script's cookie can, and only as long as it is read at all.
structure Covers (w l : Line) : Prop where
  route    : w.write.route = .js
  expired  : w.write.expired = false
  outlives : w.write.expiry = 0 ∨ l.write.expiry ≠ 0 ∧ l.write.expiry ≤ w.write.expiry
  secure   : w.write.secure → l.write.secure

-- A write whose line can be read back.
structure Readable (w : Line) : Prop where
  value  : w.write.value ≠ [] ∨ w.write.expired
  expiry : ∀ t ∈ w.write.lifetime.deadline w.write.now, t ≤ int64Max
  domain : w.write.tail = false → w.write.fileDomain.head? ≠ some '.'

end Line

def Route.other : Route → Route
  | http => js
  | js   => http

-- A write that leaves no outdated value of its cookie in the other one of the two files.
structure Shelf.Faithful (s : Shelf) (w : Line) : Prop extends w.Readable where
  other : ∀ l ∈ s.get w.write.route.other, l.key = w.key → l.dead w.write.now ∨ w.Covers l

-- A history each step of which is faithful, with a clock that never goes back.
def Shelf.FaithfulRun (s : Shelf) (time : Nat) : Lines → Prop
  | []      => True
  | w :: ws => time ≤ w.write.now ∧ s.Faithful w ∧ (s.store w).FaithfulRun w.write.now ws

section

variable (s : Shelf) (w l : Line)

instance : Decidable (w.Covers l) :=
  decidable_of_iff
    (w.write.route = .js ∧ w.write.expired = false ∧
      (w.write.expiry = 0 ∨ l.write.expiry ≠ 0 ∧ l.write.expiry ≤ w.write.expiry) ∧
      (w.write.secure → l.write.secure))
    ⟨fun ⟨h₁, h₂, h₃, h₄⟩ => ⟨h₁, h₂, h₃, h₄⟩, fun ⟨h₁, h₂, h₃, h₄⟩ => ⟨h₁, h₂, h₃, h₄⟩⟩

instance : Decidable w.Readable :=
  decidable_of_iff
    ((w.write.value ≠ [] ∨ w.write.expired) ∧
      (∀ t ∈ w.write.lifetime.deadline w.write.now, t ≤ int64Max) ∧
      (w.write.tail = false → w.write.fileDomain.head? ≠ some '.'))
    ⟨fun ⟨h₁, h₂, h₃⟩ => ⟨h₁, h₂, h₃⟩, fun ⟨h₁, h₂, h₃⟩ => ⟨h₁, h₂, h₃⟩⟩

instance : Decidable (s.Faithful w) :=
  decidable_of_iff
    (w.Readable ∧ ∀ l ∈ s.get w.write.route.other,
      l.key = w.key → l.dead w.write.now ∨ w.Covers l)
    ⟨fun ⟨h₁, h₂⟩ => ⟨h₁, h₂⟩, fun ⟨h₁, h₂⟩ => ⟨h₁, h₂⟩⟩

instance decidableFaithfulRun :
    (s : Shelf) → (time : Nat) → (ws : Lines) → Decidable (s.FaithfulRun time ws)
  | _, _, []      => isTrue trivial
  | s, _, w :: ws =>
    have := decidableFaithfulRun (s.store w) w.write.now ws
    inferInstanceAs (Decidable (_ ∧ _ ∧ _))

end

end Nordstjernen.Net.Cookie
