import Mathlib.Data.List.Forall2
import Nordstjernen.Net.Cookie.Theorems.Collect

open Nordstjernen.Glib

namespace Nordstjernen.Net.Cookie

-- Two lines that differ at most in the value of an `HttpOnly` cookie.
def Line.Agrees (l l' : Line) : Prop :=
  l = l' ∨ (l.httpOnly ∧ ∃ v, l'.write = { l.write with value := v })

namespace Line.Agrees

variable {l l' w w' : Line}

theorem httpOnly_eq (h : l.Agrees l') : l'.httpOnly = l.httpOnly := by
  obtain rfl | ⟨_, v, hv⟩ := h
  · rfl
  · simp [httpOnly, hv]

theorem key_eq (h : l.Agrees l') : l'.key = l.key := by
  obtain rfl | ⟨_, v, hv⟩ := h
  · rfl
  · simp [key, Write.key, hv]

theorem dead_eq (h : l.Agrees l') (now : Nat) : l'.dead now = l.dead now := by
  obtain rfl | ⟨_, v, hv⟩ := h
  · rfl
  · simp [dead, hv]

theorem route_eq (h : l.Agrees l') : l'.write.route = l.write.route := by
  obtain rfl | ⟨_, v, hv⟩ := h
  · rfl
  · simp [hv]

theorem now_eq (h : l.Agrees l') : l'.write.now = l.write.now := by
  obtain rfl | ⟨_, v, hv⟩ := h
  · rfl
  · simp [hv]

theorem site_eq (h : l.Agrees l') : l'.write.site = l.write.site := by
  obtain rfl | ⟨_, v, hv⟩ := h
  · rfl
  · simp [hv]

theorem expired_eq (h : l.Agrees l') : l'.write.expired = l.write.expired := by
  obtain rfl | ⟨_, v, hv⟩ := h
  · rfl
  · simp [hv]

theorem kept_eq (hl : l.Agrees l') (hw : w.Agrees w') : l'.kept w' = l.kept w := by
  simp only [kept, hl.httpOnly_eq, hl.key_eq, hl.dead_eq, hw.key_eq, hw.route_eq, hw.now_eq]

end Line.Agrees

namespace Lines

variable {ls ls' : Lines} {w w' : Line}

theorem blocked_eq (h : List.Forall₂ Line.Agrees ls ls') (hw : w.Agrees w') :
    blocked w' ls' = blocked w ls := by
  rw [blocked, blocked, hw.route_eq]
  congr 1
  induction h
  case nil => rfl
  case cons l l' _ _ hl _ hi =>
    rw [List.any_cons, List.any_cons, hi, hl.httpOnly_eq, hl.key_eq, hw.key_eq]

theorem forall₂_store (h : List.Forall₂ Line.Agrees ls ls') (hw : w.Agrees w') :
    List.Forall₂ Line.Agrees (ls.store w) (ls'.store w') := by
  have hf := List.rel_filter (p := (·.kept w)) (q := (·.kept w'))
    (fun _ _ hl => by simp only [hl.kept_eq hw]) h
  rw [store, store, blocked_eq h hw, hw.expired_eq]
  refine List.rel_append hf ?_
  split
  case isTrue  => exact .cons hw .nil
  case isFalse => exact .nil

-- What a script is given does not depend on the values of the `HttpOnly` lines.
theorem pairs_eq (h : List.Forall₂ Line.Agrees ls ls') (now : Nat) (parts : UrlParts) :
    ls'.pairs now parts false = ls.pairs now parts false := by
  have sent_httpOnly {l : Line} (hl : l.httpOnly) : l.sent now parts false = false := by
    simp [Line.sent, hl]
  induction h
  case nil => rfl
  case cons l l' ls ls' hl _ hi =>
    have hhl := hl.httpOnly_eq
    obtain rfl | ⟨hh, _⟩ := hl
    case inl =>
      simp only [pairs, List.filter_cons] at hi ⊢
      split <;> simp [hi]
    case inr =>
      have hh' := hhl.trans hh
      simp only [pairs, List.filter_cons, sent_httpOnly hh, sent_httpOnly hh'] at hi ⊢
      exact hi

end Lines

structure Shelf.Agree (s s' : Shelf) : Prop where
  http : List.Forall₂ Line.Agrees s.http s'.http
  js   : List.Forall₂ Line.Agrees s.js s'.js

namespace Shelf.Agree

variable {s s' : Shelf} {w w' : Line} {ws ws' : Lines}

theorem store (h : s.Agree s') (hw : w.Agrees w') : (s.store w).Agree (s'.store w') := by
  rw [Shelf.store, Shelf.store, hw.route_eq]
  cases w.write.route
  case http => exact ⟨Lines.forall₂_store h.http hw, h.js⟩
  case js   => exact ⟨h.http, Lines.forall₂_store h.js hw⟩

theorem storeAll (h : s.Agree s') (hw : List.Forall₂ Line.Agrees ws ws') :
    (s.storeAll ws).Agree (s'.storeAll ws') := by
  induction hw generalizing s s'
  case nil => exact h
  case cons hl _ hi => exact hi (h.store hl)

theorem pairs_eq (h : s.Agree s') (now : Nat) (parts : UrlParts) :
    s'.pairs now parts false = s.pairs now parts false := by
  have hp := congrArg₂ (· ++ ·) (Lines.pairs_eq h.http now parts) (Lines.pairs_eq h.js now parts)
  simp only [Lines.pairs, ← List.map_append, ← List.filter_append] at hp
  rw [Shelf.pairs, Shelf.pairs, sent, sent, hp]

end Shelf.Agree

-- Two calls whose cookies are refused alike or stored alike, up to the value of an `HttpOnly` one.
def Call.Agrees (P : Platform) (c c' : Call) : Prop :=
  Option.Rel Line.Agrees (c.accepted P) (c'.accepted P)

theorem Call.agrees_of_accept {P : Platform} {c c' : Call} {w : Write} {v : CString}
    (h : acceptCookie P c.now c.route c.url c.cookie = some w)
    (h' : acceptCookie P c'.now c'.route c'.url c'.cookie = some { w with value := v })
    (hw : w.route = .http ∧ w.httpOnly) : c.Agrees P c' := by
  have ha := Call.accepted_eq_some (w := ⟨w, acceptCookie_sound h⟩).mpr h
  have ha' := Call.accepted_eq_some (w := ⟨_, acceptCookie_sound h'⟩).mpr h'
  rw [Call.Agrees, ha, ha']
  exact .some (.inr ⟨by simp [Line.httpOnly, hw], v, rfl⟩)

section Scripts

variable {P : Platform} {site url : CString} {calls calls' : List Call}

theorem acceptedWrites_agree (site : CString) (h : List.Forall₂ (Call.Agrees P) calls calls') :
    List.Forall₂ Line.Agrees (acceptedWrites P site calls) (acceptedWrites P site calls') :=
  List.rel_filter (fun _ _ hl => by simp [hl.site_eq]) (List.rel_filterMap (fun _ _ hc => hc) h)

theorem acceptedWrites_append (calls calls' : List Call) :
    acceptedWrites P site (calls ++ calls') =
      acceptedWrites P site calls ++ acceptedWrites P site calls' := by
  simp [acceptedWrites]

theorem cookiesForJs_agree (h : List.Forall₂ (Call.Agrees P) calls calls') (now : Nat) :
    cookiesForJs P now (runCalls P (fun _ => {}) calls') url =
      cookiesForJs P now (runCalls P (fun _ => {}) calls) url := by
  simp only [cookiesForJs, cookieCollect]
  congr! 4 with parts site
  have ha : Shelf.Agree {} {} := ⟨.nil, .nil⟩
  have hs := (ha.storeAll (acceptedWrites_agree site h)).pairs_eq now parts
  rw [runCalls_empty, runCalls_empty, collectPairs_contents, collectPairs_contents, hs]

-- The value that a request to `url` sends for a name.
def requestValue (P : Platform) (now : Nat) (files : Files) (url name : CString) :
    Option CString := do
  let parts ← P.hostParts url
  let site  ← (P.siteFrom url).filter (· ≠ [])
  (collectPairs now parts true (files site)).find? (·.1 = name) |>.map Prod.snd

-- The unexpired `HttpOnly` cookies that a history of calls has left in a partition.
def heldHttpOnly (P : Platform) (site : CString) (calls : List Call) (now : Nat) : Lines :=
  (({} : Shelf).storeAll (acceptedWrites P site calls)).http.filter fun l => l.httpOnly && !l.dead now

-- Whether `script` leaves every `HttpOnly` cookie of the request as it is.
def KeepsHttpOnly (P : Platform) (calls script : List Call) (site url : CString) (parts : UrlParts)
    (now : Nat) : Prop :=
  ∀ l ∈ heldHttpOnly P site calls now, Line.reaches parts l.write →
    requestValue P now (runCalls P (fun _ => {}) (calls ++ script)) url l.name =
      requestValue P now (runCalls P (fun _ => {}) calls) url l.name

namespace Shelf

variable {s : Shelf} {w l : Line} {ws : Lines} {name : CString} {parts : UrlParts} {now : Nat}

-- The lines of one name among those that a request is sent.
def named (s : Shelf) (now : Nat) (parts : UrlParts) (name : CString) : Lines :=
  (s.http ++ s.js).filter fun l => l.name = name && l.sent now parts true

theorem find?_pairs (s : Shelf) :
    (s.pairs now parts true).find? (·.1 = name) = ((s.named now parts name).map Line.pair).getLast? := by
  rw [pairs, Lib.find?_foldl_put, List.filter_map, sent, List.filter_filter, named]
  rfl

-- A script's write changes nothing for a name that it does not write where the url can see it.
theorem Routed.named_store (h : s.Routed) (hr : w.write.route = .js) (hw : w.write.now ≤ now)
    (hn : w.name = name → Line.touches parts w.write = false) :
    (s.store w).named now parts name = s.named now parts name := by
  have kept : ∀ l ∈ s.js, l.sent now parts true → l.name = name → l.kept w := by
    intro l hl hs hln
    simp only [Line.sent, Line.reaches, Bool.and_eq_true, Bool.not_eq_true'] at hs
    refine (Line.kept_iff ((h.route .js l hl).trans hr.symm)).mpr ⟨fun hk => ?_, .inr ?_⟩
    · have ht := hn (Line.name_eq_of_key hk ▸ hln)
      rw [← Line.touches_of_key hk, hs.left.right.left] at ht
      cases ht
    · exact Line.not_dead_mono hw hs.right
  have unsent : w.name = name → w.sent now parts true = false := by
    intro hwn
    simp [Line.sent, Line.reaches, hn hwn]
  have old : (s.js.filter (·.kept w)).filter (fun l => l.name = name && l.sent now parts true) =
      s.js.filter fun l => l.name = name && l.sent now parts true := by
    rw [List.filter_filter]
    refine List.filter_congr fun l hl => ?_
    cases hs : l.name = name && l.sent now parts true
    case false => rfl
    case true =>
      have h := Bool.and_eq_true_iff.mp hs
      simp [kept l hl h.right (of_decide_eq_true h.left)]
  have new (b : Bool) :
      (if b then [w] else []).filter (fun l => l.name = name && l.sent now parts true) = [] := by
    cases b
    case false => rfl
    case true  => simpa using unsent
  have hst : s.store w = { s with js := s.js.store w } := by rw [Shelf.store, hr]
  rw [hst, named, named, List.filter_append, List.filter_append, Lines.store, List.filter_append,
    old, new, List.append_nil]

theorem Routed.named_storeAll (h : s.Routed) (hr : ∀ w ∈ ws, w.write.route = .js)
    (hw : ∀ w ∈ ws, w.write.now ≤ now)
    (hn : ∀ w ∈ ws, w.name = name → Line.touches parts w.write = false) :
    (s.storeAll ws).named now parts name = s.named now parts name := by
  induction ws generalizing s
  case nil => rfl
  case cons w ws hi =>
    have hs := h.named_store (hr w (by simp)) (hw w (by simp)) (hn w (by simp))
    rw [← hs]
    exact hi (h.store w) (fun v hv => hr v (by simp [hv])) (fun v hv => hw v (by simp [hv]))
      fun v hv => hn v (by simp [hv])

theorem storeAll_append (s : Shelf) (ws ws' : Lines) :
    s.storeAll (ws ++ ws') = (s.storeAll ws).storeAll ws' := by
  simp [storeAll]

theorem Routed.storeAll (h : s.Routed) (ws : Lines) : (s.storeAll ws).Routed := by
  induction ws generalizing s
  case nil => exact h
  case cons w ws hi => exact hi (h.store w)

end Shelf

theorem requestValue_eq {P : Platform} {site url name : CString} {parts : UrlParts} {now : Nat}
    (hp : P.hostParts url = some parts) (hs : (P.siteFrom url).filter (· ≠ []) = some site)
    (calls : List Call) :
    requestValue P now (runCalls P (fun _ => {}) calls) url name =
      ((({} : Shelf).storeAll (acceptedWrites P site calls)).named now parts name).getLast?.map
        (·.write.value) := by
  simp only [requestValue, hp, hs, bind, Option.bind_some, runCalls_empty, collectPairs_contents,
    Shelf.find?_pairs, List.getLast?_map, Option.map_map]
  rfl

-- Scripts cannot see the values of `HttpOnly` cookies, and they leave those cookies alone whose names
-- they do not write for a domain and a path that match the url.
theorem httpOnly_isolation {P : Platform} {site url : CString} {parts : UrlParts}
    (hp : P.hostParts url = some parts) (hs : (P.siteFrom url).filter (· ≠ []) = some site) :
    (∀ calls calls', List.Forall₂ (Call.Agrees P) calls calls' → ∀ now,
      cookiesForJs P now (runCalls P (fun _ => {}) calls') url =
        cookiesForJs P now (runCalls P (fun _ => {}) calls) url) ∧
    ∀ calls script now,
      (∀ c ∈ script, c.route = .js ∧ c.now ≤ now) →
      (∀ l ∈ heldHttpOnly P site calls now, Line.reaches parts l.write →
        ∀ w ∈ acceptedWrites P site script, w.name = l.name → Line.touches parts w.write = false) →
      KeepsHttpOnly P calls script site url parts now := by
  refine ⟨fun _ _ h now => cookiesForJs_agree h now, ?_⟩
  intro calls script now hscript hname l hl hreach
  have hw : ∀ w ∈ acceptedWrites P site script, w.write.route = .js ∧ w.write.now ≤ now := by
    intro w hw
    obtain ⟨c, hc, ha⟩ := List.mem_filterMap.mp (List.mem_filter.mp hw).left
    have ⟨h₁, h₂⟩ := acceptCookie_route (Call.accepted_eq_some.mp ha)
    exact h₁ ▸ h₂ ▸ hscript c hc
  have hr := Shelf.routed_default.storeAll (acceptedWrites P site calls)
  have hn := hr.named_storeAll (fun w h => (hw w h).left) (fun w h => (hw w h).right)
    (hname l hl hreach)
  rw [requestValue_eq hp hs, requestValue_eq hp hs, acceptedWrites_append, Shelf.storeAll_append, hn]

def sessionCall (value : CString) : Call :=
  ⟨10, .http, Platform.frontPageUrl, "sid=".toList ++ value ++ "; HttpOnly".toList⟩

def sessionWrite (value : CString) : Write where
  route      := .http
  now        := 10
  site       := Platform.frontPageSite
  name       := "sid".toList
  value      := value
  fileDomain := Platform.frontPage.hostname
  tail       := false
  path       := ['/']
  secure     := false
  httpOnly   := true
  expired    := false
  expiry     := 0
  lifetime   := .session

def scriptCall (cookie : String) : Call :=
  ⟨11, .js, Platform.frontPageUrl, cookie.toList⟩

theorem httpOnly_isolation_session :
    cookiesForJs .ofFrontPage 12 (runCalls .ofFrontPage (fun _ => {}) [sessionCall ['2']])
        Platform.frontPageUrl =
      cookiesForJs .ofFrontPage 12 (runCalls .ofFrontPage (fun _ => {}) [sessionCall ['1']])
        Platform.frontPageUrl ∧
    KeepsHttpOnly .ofFrontPage [sessionCall ['1']] [scriptCall "theme=dark"] Platform.frontPageSite
      Platform.frontPageUrl Platform.frontPage 12 := by
  have hs : (Platform.ofFrontPage.siteFrom Platform.frontPageUrl).filter (· ≠ []) = some Platform.frontPageSite := by
    unfold Platform.siteFrom Platform.ofFrontPage Platform.frontPageUrl Platform.frontPageSite Platform.frontPage
    repeat rw [String.toList_ofList]
    decide +kernel
  have ⟨h₁, h₂⟩ := @httpOnly_isolation .ofFrontPage Platform.frontPageSite Platform.frontPageUrl
    Platform.frontPage rfl hs
  have hw : ∀ v ∈ [['1'], ['2']], acceptCookie .ofFrontPage 10 .http Platform.frontPageUrl
      (sessionCall v).cookie = some (sessionWrite v) := by
    unfold sessionCall sessionWrite Platform.ofFrontPage Platform.frontPageUrl Platform.frontPageSite Platform.frontPage
    repeat rw [String.toList_ofList]
    decide +kernel
  have ha : (sessionCall ['1']).Agrees .ofFrontPage (sessionCall ['2']) :=
    Call.agrees_of_accept (w := sessionWrite ['1']) (v := ['2']) (hw _ (by simp)) (hw _ (by simp)) ⟨rfl, rfl⟩
  exact ⟨h₁ _ _ (.cons ha .nil) 12, h₂ _ _ 12 (by decide) (by decide +kernel)⟩

-- A script replaces the session cookie by storing its own in the other file.
theorem not_keepsHttpOnly_of_same_name :
    ¬KeepsHttpOnly .ofFrontPage [sessionCall ['1']] [scriptCall "sid=2"] Platform.frontPageSite
      Platform.frontPageUrl Platform.frontPage 12 := by
  unfold KeepsHttpOnly
  decide +kernel

end Scripts

end Nordstjernen.Net.Cookie
