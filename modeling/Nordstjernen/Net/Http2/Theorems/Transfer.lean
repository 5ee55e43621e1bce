import Nordstjernen.Net.Cookie.Theorems.Collect
import Nordstjernen.Net.Http2.Transfer
import Nordstjernen.Net.Url
import Nordstjernen.Net.Fetch.Theorems.OnBehalf
import Nordstjernen.Net.Http2.Theorems.Pool

open Nordstjernen.Glib

namespace Nordstjernen.Net

namespace UrlParts

variable {parts : UrlParts}

theorem requestPath_printable : Cookie.Printable parts.requestPath := by
  rw [requestPath]
  split
  case isTrue  => decide
  case isFalse => exact parts.pathname_printable

theorem requestPath_ne_nil : parts.requestPath ≠ [] := by
  rw [requestPath]
  split
  case isTrue    => simp
  case isFalse h => exact h

end UrlParts

namespace Cookie

variable {parts : UrlParts} {now : Nat}

theorem domainMatches_self (host : CString) : domainMatches host host := by
  unfold domainMatches
  split
  case h_1 => simp [strcaseEq_refl]
  case h_2 => exact strcaseEq_refl host

theorem pathMatches_self (path : CString) : pathMatches path path := by
  simp [pathMatches, gStrHasPrefix]

-- A cookie for every request to one host and path.
def hostLine (parts : UrlParts) (h : parts.hostname ≠ []) : Line where
  write := {
    route      := .http
    now        := 0
    site       := []
    name       := ['a']
    value      := ['b']
    fileDomain := parts.hostname
    tail       := false
    path       := parts.requestPath
    secure     := false
    httpOnly   := false
    expired    := false
    expiry     := 0
    lifetime   := .session }
  sound := {
    domain_ne        := h
    domain_hash      := fun hh => parts.hostname_no_hash (List.mem_of_mem_head? hh)
    domain_printable := parts.hostname_printable
    domain_tail      := nofun
    path_ne          := parts.requestPath_ne_nil
    path_printable   := parts.requestPath_printable
    name_ne          := by simp
    name_printable   := show Printable ['a'] by decide
    name_trimmed     := fun c hc => by cases hc; rfl
    value_printable  := show Printable ['b'] by decide
    value_trimmed    := fun c hc => by cases hc; rfl
    expiry_inInt64   := show InInt64 0 by decide
    expired_eq       := rfl
    expiry_eq        := fun _ => rfl }

theorem sent_hostLine (h : parts.hostname ≠ []) : (hostLine parts h).sent now parts true := by
  simp [Line.sent, hostLine, Line.reaches, Line.touches, Line.dead, domainMatches_self, pathMatches_self]

end Cookie

namespace Http2

variable {P : Platform} {t : Transfer} {url : CString} {parts : UrlParts}

theorem exists_site (hu : isHttpOrHttps url) (hp : P.hostParts url = some parts) :
    ∃ site, (P.siteFrom url).filter (· ≠ []) = some site := by
  have hne : url ≠ [] := by
    rintro rfl
    exact absurd hu (by decide)
  have hp := (Option.filter_eq_some_iff.mp hp).left
  have ⟨site, hs, hn⟩ : ∃ site, P.siteFrom url = some site ∧ site ≠ [] := by
    simp only [Platform.siteFrom, if_neg hne, hp, bind, Option.bind_some]
    split <;> exact ⟨_, rfl, by simp⟩
  exact ⟨site, Option.filter_eq_some_iff.mpr ⟨hs, by simpa using hn⟩⟩

-- Some cookie store has a cookie for the request, and the empty one has none.
theorem exists_cookiesForRequest (now : Nat) (hu : isHttpOrHttps url) (hp : P.hostParts url = some parts) :
    ∃ files : Cookie.Files, (Cookie.cookiesForRequest P now files url).isSome := by
  have hh : parts.hostname ≠ [] := by simpa using (Option.filter_eq_some_iff.mp hp).right
  have ⟨site, hs⟩ := exists_site hu hp
  let s : Cookie.Shelf := { http := [Cookie.hostLine parts hh] }
  refine ⟨fun _ => s.contents, ?_⟩
  rw [Cookie.cookiesForRequest, Cookie.cookieCollect_eq hp hs rfl]
  have hn : s.pairs now parts true ≠ [] := by
    simp [s, Cookie.Shelf.pairs, Cookie.Shelf.sent, Cookie.sent_hostLine, Lib.put]
  simp [hn]

theorem cookiesForRequest_empty (now : Nat) : Cookie.cookiesForRequest P now (fun _ => {}) url = none := by
  have hn (parts : UrlParts) : Cookie.collectPairs now parts true {} = [] := by rfl
  simp [Cookie.cookiesForRequest, Cookie.cookieCollect, hn]

-- The cookie header is there for one store and not for another one.
theorem not_blind (version : Version) (hu : isHttpOrHttps t.url) (hp : P.hostParts t.url = some parts) :
    ¬version.Blind P t := by
  intro h
  have ⟨files, hc⟩ := exists_cookiesForRequest 0 hu hp
  have ⟨cookie, hc⟩ := Option.isSome_iff_exists.mp hc
  cases version
  case http2 =>
    have hl := congrArg (·.1.length) (h 0 files fun _ => {})
    simp [Transfer.submitRequest, hc, cookiesForRequest_empty] at hl
  case http1 =>
    have hl := congrArg (·.1.length) (h 0 files fun _ => {})
    simp only [Transfer.http1Request, hc, cookiesForRequest_empty, Option.map_some, Option.map_none,
      Option.getD_some, Option.getD_none, List.length_append, List.length_nil] at hl
    have hn : 0 < (Transfer.line "Cookie: " cookie).length := by simp [Transfer.line, Transfer.crlf]
    omega

-- A cookie that every site may set.
def plainCookie : CString :=
  "a=b".toList

theorem cookieStore_plainCookie (hu : isHttpOrHttps url) (hp : P.hostParts url = some parts) :
    Cookie.cookieStore P 0 .http url plainCookie (fun _ => {}) ≠ fun _ => {} := by
  have ⟨site, hs⟩ := exists_site hu hp
  have ⟨w, hw, hr, hx⟩ : ∃ w, Cookie.acceptCookie P 0 .http url plainCookie = some w ∧
      w.route = .http ∧ w.expired = false := by
    have hu : (gStrHasPrefix url "http://".toList || gStrHasPrefix url "https://".toList) = true := hu
    have ha : Cookie.Attributes.readAll P 0 plainCookie = {} := by rfl
    have hn : Cookie.namePair plainCookie = some (['a'], ['b']) := by decide
    have hk : Cookie.secureNames ['a'] parts.isHttps {} = true := by rfl
    have hc : (plainCookie.all fun c => 0x20 ≤ c.toNat) = true := by decide
    simp only [Cookie.acceptCookie, hu, hc, hp, hn, ha, hk, hs, Cookie.writeDomain, guard, bind, pure,
      if_true, Option.bind_some]
    exact ⟨_, rfl, rfl, rfl⟩
  intro he
  simp only [Cookie.cookieStore, hw] at he
  have he := congrArg Cookie.Jar.http (congrFun he w.site)
  simp [Cookie.Jar.set, hr, Cookie.rewriteFile, Cookie.unlines, Cookie.isBlocked, hx] at he

-- The cookie is stored, whatever the policy says.
theorem not_inert (version : Version) (hu : isHttpOrHttps t.url) (hp : P.hostParts t.url = some parts) :
    ¬version.Inert P t := by
  intro h
  apply cookieStore_plainCookie hu hp
  cases version
  case http2 => exact h [(0, "set-cookie".toList, plainCookie)] fun _ => {}
  case http1 =>
    exact h [(0, "HTTP/1.1 200 OK".toList), (0, "set-cookie:".toList ++ plainCookie)] fun _ => {}

end Http2

end Nordstjernen.Net

open Nordstjernen.Net.Fetch (Config cookiesAllowed)

namespace Nordstjernen.Net.Http2

theorem Outcome.not_secure {out : Outcome} (h : out.tlsWarning) (url : Glib.CString) :
    out.security url ≠ .secure := by
  simp only [security, h, Bool.or_true, if_true]
  split
  case isTrue  => nofun
  case isFalse => split <;> nofun

theorem Outcome.not_cacheable {out : Outcome} (h : out.tlsWarning) (url method : Glib.CString)
    (seen : Bool) : ¬out.cacheable url method seen := by
  simp [cacheable, h]

theorem Tls.overrides_of_insecure {tls : Tls} {isHttp2 : Bool} (h : tls.opened = some (isHttp2, true)) :
    tls.overrides := by
  rw [opened] at h
  grind

namespace State

variable {ρ κ ο : Type} {s t u : State ρ κ ο} {k : κ} {r : ρ}

-- What a step keeps that gives nobody another connection.
structure Keeps (s t : State ρ κ ο) : Prop where
  created  : t.created = s.created
  insecure : ∀ k, (t.conns k).insecure = (s.conns k).insecure
  conn     : ∀ r, (t.requests r).conn = (s.requests r).conn
  warning  : ∀ r, (s.requests r).tlsWarning → (t.requests r).tlsWarning

theorem Keeps.refl : s.Keeps s := by
  constructor <;> simp

theorem Keeps.trans (h : s.Keeps t) (h' : t.Keeps u) : s.Keeps u where
  created    := h'.created.trans h.created
  insecure k := (h'.insecure k).trans (h.insecure k)
  conn r     := (h'.conn r).trans (h.conn r)
  warning r  := h'.warning r ∘ h.warning r

theorem AtConn.keeps (h : s.AtConn k t) : s.Keeps t where
  created    := h.created
  insecure k' := by
    by_cases hk : k' = k
    case pos => rw [hk, h.insecure]
    case neg => rw [h.conns k' hk]
  conn       := h.conn
  warning r  := (h.tlsWarning r).symm ▸ id

-- Every connection of a request is created, and warned of where it is insecure.
structure Watched (s : State ρ κ ο) : Prop where
  created : ∀ r, ∀ k ∈ (s.requests r).conn, k ∈ s.created
  warned  : ∀ r, ∀ k ∈ (s.requests r).conn, (s.conns k).insecure → (s.requests r).tlsWarning

theorem watched_init {origin : ρ → ο} :
    ({ requests := fun r => { origin := origin r } } : State ρ κ ο).Watched := by
  constructor <;> simp

theorem Watched.keeps (h : s.Watched) (hk : s.Keeps t) : t.Watched where
  created r k hr := by
    rw [hk.conn] at hr
    rw [hk.created]
    exact h.created r k hr
  warned r k hr hi := by
    rw [hk.conn] at hr
    rw [hk.insecure] at hi
    exact hk.warning r (h.warned r k hr hi)

theorem Watched.warned' (h : s.Watched) : s.Warned := by
  intro r k hk hi
  have hw := h.warned r k hk hi
  refine ⟨hw, fun out ho => ?_⟩
  rw [hw] at ho
  exact ⟨Outcome.not_secure ho, Outcome.not_cacheable ho⟩

section

variable [DecidableEq ρ] [DecidableEq κ] [DecidableEq ο]

omit [DecidableEq ρ] [DecidableEq ο] in
theorem keeps_modifyConn {f : Conn ρ → Conn ρ} (h : (f (s.conns k)).insecure = (s.conns k).insecure) :
    s.Keeps (s.modifyConn k f) :=
  (atConn_modifyConn h).keeps

omit [DecidableEq κ] [DecidableEq ο] in
theorem keeps_modifyRequest {f : Request κ ο → Request κ ο}
    (hc : (f (s.requests r)).conn = (s.requests r).conn)
    (ht : (s.requests r).tlsWarning → (f (s.requests r)).tlsWarning) : s.Keeps (s.modifyRequest r f) := by
  constructor <;> simp only [modifyRequest, Function.update_apply] <;> grind

omit [DecidableEq κ] [DecidableEq ο] in
theorem keeps_setPhase {phase : Phase κ ο} : s.Keeps (s.setPhase r phase) :=
  keeps_modifyRequest rfl id

omit [DecidableEq ρ] [DecidableEq κ] in
theorem keeps_modifyEntry {o : ο} {f : Entry κ → Entry κ} : s.Keeps (s.modifyEntry o f) :=
  { Keeps.refl with }

omit [DecidableEq ρ] [DecidableEq κ] in
theorem keeps_openEntry {o : ο} : s.Keeps (s.openEntry o) :=
  { Keeps.refl with }

omit [DecidableEq κ] in
theorem keeps_enter : s.Keeps (s.enter r) := by
  rw [enter]
  exact keeps_openEntry.trans keeps_setPhase

theorem keeps_sweep {now : Int} {kept : Nat} {todo : List (ο × List κ)} :
    s.Keeps (s.sweep r now kept todo) := by
  match todo with
  | []                      => exact keeps_enter
  | (_, []) :: todo         => exact keeps_setPhase
  | (o, k :: conns) :: todo =>
    simp only [State.sweep]
    split
    · exact (keeps_modifyConn rfl).trans (keeps_modifyEntry.trans keeps_setPhase)
    · exact (keeps_modifyConn rfl).trans keeps_setPhase

omit [DecidableEq ρ] in
theorem keeps_connectDone {conn : Option κ} : s.Keeps (s.connectDone r conn) := by
  cases conn
  case none   => exact { Keeps.refl with }
  case some k =>
    simp only [connectDone]
    exact keeps_openEntry.trans (keeps_modifyEntry.trans (keeps_modifyConn rfl))

omit [DecidableEq ο] in
theorem keeps_unref {next : Phase κ ο} : s.Keeps (s.unref r k next) := by
  rw [unref]
  split
  · exact (keeps_modifyConn rfl).trans keeps_setPhase
  · exact (keeps_modifyConn rfl).trans ((keeps_modifyConn rfl).trans keeps_setPhase)

omit [DecidableEq κ] [DecidableEq ο] in
theorem keeps_wake : s.Keeps (s.wake r k) := by
  rw [wake]
  split
  · exact keeps_modifyRequest rfl id
  · exact keeps_setPhase

theorem Watched.find {now : Int} {conns : List κ} (h : s.Watched) (hk : s.Known)
    (hr : (s.requests r).phase = .finding conns) (hv : s.Verified (.find r now)) :
    (s.find r now conns).Watched := by
  have hl : s.Keeps ({ s with poolLock := none } : State ρ κ ο) := { Keeps.refl with }
  cases conns
  case nil =>
    simp only [State.find]
    split
    · exact h.keeps (hl.trans keeps_setPhase)
    · exact h.keeps (hl.trans (keeps_modifyEntry.trans keeps_setPhase))
  case cons k conns =>
    have hw : s.Keeps (s.modifyConn k (·.wear)) := keeps_modifyConn rfl
    have hv := hv k (by rw [hr]; rfl)
    have hc := hk.phases r k (by simp [hr, Phase.conns])
    simp only [State.find]
    split
    case isTrue => exact h.keeps (hw.trans (keeps_modifyEntry.trans keeps_setPhase))
    split
    case isTrue => exact h.keeps (hw.trans keeps_setPhase)
    case isFalse hd hf =>
      simp only [State.modifyConn, Function.update_self] at hd hf
      have hn := hv hd hf
      obtain ⟨h₁, h₂⟩ := h
      constructor <;> simp only [State.modifyConn, State.modifyRequest, Function.update_apply, Conn.reuse,
        Conn.wear]
      all_goals grind

omit [DecidableEq ο] in
theorem Watched.connOpen {isHttp2 insecure overridden : Bool} {now : Int} (h : s.Watched)
    (hk : k ∉ s.created) (ho : insecure → overridden) :
    (s.connOpen r k isHttp2 insecure overridden now).Watched := by
  obtain ⟨h₁, h₂⟩ := h
  constructor <;> simp only [State.connOpen, State.modifyConn, State.modifyRequest, Function.update_apply]
  all_goals grind

theorem Watched.step {e : Event ρ κ ο} (h : s.Watched) (hk : s.Known) (hv : s.Verified e)
    (hs : s.step e = some t) : t.Watched := by
  cases e <;> simp only [State.step] at hs
  case call r => split at hs <;> cases hs; exact h.keeps keeps_setPhase
  case lockPool r order =>
    split at hs <;> cases hs
    have hl : s.Keeps ({ s with poolLock := some r } : State ρ κ ο) := { Keeps.refl with }
    exact h.keeps (hl.trans keeps_setPhase)
  case sweep r now => split at hs <;> cases hs; exact h.keeps keeps_sweep
  case find r now  => split at hs <;> cases hs; exact h.find hk ‹_› hv
  case resume r timedOut aborting =>
    have hl : s.Keeps ({ s with poolLock := some r } : State ρ κ ο) := { Keeps.refl with }
    split at hs <;> [split at hs; skip] <;> cases hs
    · exact h.keeps keeps_setPhase
    · exact h.keeps (hl.trans keeps_enter)
  case openFailed r tls =>
    split at hs <;> cases hs
    exact h.keeps (keeps_connectDone.trans (keeps_modifyRequest rfl (by simp +contextual)))
  case connOpen r k tls now =>
    split at hs <;> [split at hs; skip] <;> cases hs
    case h_1.isTrue isHttp2 insecure ho hr =>
      exact h.connOpen hr.right fun hi => Tls.overrides_of_insecure (hi ▸ ho)
  case firstPush r =>
    split at hs <;> [split at hs; skip] <;> cases hs
    exact h.keeps ((keeps_modifyConn rfl).trans keeps_setPhase)
  case connectDone r =>
    split at hs
    case isTrue => cases hs
    split at hs <;> [skip; split at hs; skip] <;> cases hs
    all_goals exact h.keeps (keeps_connectDone.trans keeps_setPhase)
  case runHttp1 r => split at hs <;> cases hs; exact h.keeps (keeps_modifyRequest rfl id)
  case wake r =>
    split at hs <;> [split at hs; skip] <;> cases hs
    exact h.keeps keeps_wake
  case unref r => split at hs <;> cases hs; exact h.keeps keeps_unref
  case joined r =>
    split at hs <;> [split at hs; skip] <;> cases hs
    exact h.keeps keeps_setPhase
  case iterate k rejected sent sendFailed aborting now =>
    split at hs <;> cases hs
    exact h.keeps atConn_iterate.keeps
  case ioFailed k => split at hs <;> cases hs; exact h.keeps (keeps_modifyConn rfl)
  case recv k callbacks failed => split at hs <;> cases hs; exact h.keeps atConn_recv.keeps
  case quiet k => split at hs <;> cases hs; exact h.keeps (keeps_modifyConn rfl)
  case leave k =>
    split at hs <;> cases hs
    exact h.keeps (atConn_failAll.trans (atConn_modifyConn rfl)).keeps

end

end State

section

variable {ρ κ ο : Type} [DecidableEq ρ] [DecidableEq κ] [DecidableEq ο] {origin : ρ → ο}
  {s : State ρ κ ο} {events : List (Event ρ κ ο)} {parts : UrlParts}

-- The transport keeps to the cookie policy where the policy allows cookies, and no more; and it warns in
-- every run in which insecure connections are not reused.
theorem guarded_of_run (U : UrlLib) (cfg : Config) (t : Transfer) (topUrl : Option Glib.CString)
    (version : Version) (hu : isHttpOrHttps t.url) (hp : U.hostParts t.url = some parts)
    (h : Lib.run State.step { requests := fun r => { origin := origin r } } events = some s)
    (hv : Lib.StepsMeet State.Verified State.step { requests := fun r => { origin := origin r } } events) :
    ((cookiesAllowed U cfg t.url topUrl = false → version.Blind U.toPlatform t) ↔
      cookiesAllowed U cfg t.url topUrl) ∧
    ((cookiesAllowed U cfg t.url topUrl = false → version.Inert U.toPlatform t) ↔
      cookiesAllowed U cfg t.url topUrl) ∧ s.Warned := by
  have hi : s.Watched ∧ s.Known := by
    refine Lib.run_preserves (I := fun s => s.Watched ∧ s.Known) (fun s e t hi hv hs => ?_) h hv
      ⟨State.watched_init, State.known_init⟩
    exact ⟨hi.left.step hi.right hv hs, hi.right.step hs⟩
  have hb := not_blind version hu hp
  have hn := not_inert version hu hp
  refine ⟨?_, ?_, hi.left.warned'⟩
  · cases cookiesAllowed U cfg t.url topUrl <;> simp [hb]
  · cases cookiesAllowed U cfg t.url topUrl <;> simp [hn]

end

-- A page of one site asks for something of another one.
def thirdParty : Transfer where
  url            := Fetch.otherPageUrl
  method         := "GET".toList
  scheme         := "https".toList
  authority      := "example.net".toList
  path           := ['/']
  userAgent      := none
  acceptEncoding := "gzip, deflate".toList
  referer        := none
  headers        := []
  body           := []

def firstPartyOnly : Config :=
  ⟨"Nordstjernen".toList, "en".toList, .firstParty, 10⟩

theorem guarded_refusedRun :
    ∃ s, Lib.run State.step { requests := fun _ => { origin := () } } refusedRun = some s ∧
      ((cookiesAllowed Fetch.twoSites firstPartyOnly thirdParty.url Platform.frontPageUrl = false →
        Version.http2.Blind Fetch.twoSites.toPlatform thirdParty) ↔
          cookiesAllowed Fetch.twoSites firstPartyOnly thirdParty.url Platform.frontPageUrl) ∧
      ((cookiesAllowed Fetch.twoSites firstPartyOnly thirdParty.url Platform.frontPageUrl = false →
        Version.http2.Inert Fetch.twoSites.toPlatform thirdParty) ↔
          cookiesAllowed Fetch.twoSites firstPartyOnly thirdParty.url Platform.frontPageUrl) ∧ s.Warned := by
  have h : Lib.run State.step { requests := fun _ => { origin := () } } refusedRun = some _ := rfl
  have hp : Fetch.twoSites.hostParts thirdParty.url = some Fetch.otherPage := rfl
  exact ⟨_, h, guarded_of_run Fetch.twoSites firstPartyOnly thirdParty Platform.frontPageUrl .http2
    (by decide) hp h (by decide)⟩

-- The override is configured, and the certificate does not pass.
def untrusted : Tls where
  https      := true
  optIn      := true
  pinned     := false
  handshake  := .untrusted
  unverified := .completed true

-- A second request finds the connection in the pool.
def reusedRun : List (Event Nat Nat Unit) := [
  .call 0, .lockPool 0 [], .sweep 0 0, .find 0 0, .connOpen 0 0 untrusted 0, .firstPush 0, .connectDone 0,
  .iterate 0 [] [] false [] 0, .call 1, .lockPool 1 [()], .sweep 1 1, .sweep 1 1, .sweep 1 1, .find 1 1
]

-- The request of a third party depends on the cookie store and changes it, and the second request of the
-- run comes without a warning.
theorem not_guarded_reusedRun :
    cookiesAllowed Fetch.twoSites firstPartyOnly thirdParty.url Platform.frontPageUrl = false ∧
    (∀ version : Version, ¬version.Blind Fetch.twoSites.toPlatform thirdParty ∧
      ¬version.Inert Fetch.twoSites.toPlatform thirdParty) ∧
    ∃ s, Lib.run State.step { requests := fun _ => { origin := () } } reusedRun = some s ∧ ¬s.Warned := by
  have hp : Fetch.twoSites.hostParts thirdParty.url = some Fetch.otherPage := rfl
  refine ⟨by decide, fun version => ⟨not_blind version (by decide) hp, not_inert version (by decide) hp⟩,
    _, rfl, fun h => ?_⟩
  exact absurd (h 1 0 (by decide) (by decide)).left (by decide)

end Nordstjernen.Net.Http2
