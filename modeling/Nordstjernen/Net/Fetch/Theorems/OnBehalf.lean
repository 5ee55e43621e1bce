import Nordstjernen.Net.Fetch.Redirect

open Nordstjernen.Glib

namespace Nordstjernen.Net.Fetch

variable {N : Network} {r c c' : Call} {env : Env} {top url : CString} {left hops : Nat}

section Urls

-- The way of a URL to its hop: it is upgraded, and the URL parser writes it anew.
theorem hopUrl_of {U : UrlLib} {P : CString → Prop} (hs : ∀ rest, P ("https://".toList ++ rest))
    (hU : ∀ url abs, P url → U.resolve none url = some abs → P abs) (h : P url) : P (hopUrl U env url) := by
  have hascii {url : CString} (h : P url) : P ((U.toAscii url).getD url) := by
    rw [UrlLib.toAscii]
    split
    case isTrue => exact h
    case isFalse =>
      split
      case isTrue => exact h
      case isFalse =>
        cases hr : U.resolve none url
        case none => exact h
        case some => exact hU _ _ h hr
  refine hascii ?_
  split
  case isTrue  => exact hs _
  case isFalse => exact h

theorem isHttpOrHttps_hopUrl {U : UrlLib} (h : isHttpOrHttps url) :
    isHttpOrHttps (hopUrl U env url) :=
  hopUrl_of (P := fun url => isHttpOrHttps url) (fun _ => by simp [isHttpOrHttps, isHttps, gStrHasPrefix])
    (fun _ _ => U.resolve_http) h

theorem isHttps_hopUrl {U : UrlLib} (hU : ∀ url abs, isHttps url → U.resolve none url = some abs → isHttps abs)
    (h : isHttps url) : isHttps (hopUrl U env url) :=
  hopUrl_of (P := fun url => isHttps url) (fun _ => by simp [isHttps, gStrHasPrefix]) hU h

theorem fetchSite_some {U : UrlLib} (h : top ≠ []) :
    fetchSite U url (some top) = if U.sameOrigin top url then "same-origin".toList
      else if U.isSameSite top url then "same-site".toList else "cross-site".toList := by
  cases top
  case nil => exact absurd rfl h
  case cons => rfl

theorem relation_ne_none : relation N top url ≠ "none".toList := by
  rw [relation]
  split
  case isTrue => decide
  case isFalse => split <;> decide

end Urls

section Requests

theorem requestOrigin_eq {U : UrlLib} {topUrl topOrigin : Option CString} {method : CString}
    (h : requestOrigin U url topUrl topOrigin method ≠ []) :
    topOrigin = some (requestOrigin U url topUrl topOrigin method) := by
  unfold requestOrigin at h ⊢
  grind

-- A request that is given its page is sent on behalf of it, save for what the blocker thinks of it.
theorem request_presents (hc : c.topUrl = some top) (ht : top ≠ []) :
    (request N.lib N.cfg url c).Presents N top where
  cookies hp hs := by
    have hs : N.lib.isSameSite url top = false := Bool.eq_false_iff.mpr hs
    simp [request, cookiesAllowed, hp, hs, hc]
  jar p hp := by
    simp only [request, hc, Option.getD_some] at hp
    split at hp
    case isTrue => exact (Option.mem_some.mp hp).symm
    case isFalse => cases hp
  origin _ hne _ := by
    simpa [request, hc] using requestOrigin_eq hne
  fetchSite site hs := by
    simp only [request, hc, fetchSite_some ht] at hs
    split at hs
    case isTrue => exact (Option.mem_some.mp hs).symm
    case isFalse => cases hs

-- One that is not given its page never is.
theorem request_not_presents (hc : c.topUrl = none) (hu : isHttpOrHttps url) :
    ¬(request N.lib N.cfg url c).Presents N top := by
  intro h
  have hs : "none".toList ∈ (request N.lib N.cfg url c).fetchSite := by
    simp [request, hc, hu, fetchSite]
  exact relation_ne_none (h.fetchSite _ hs).symm

end Requests

section Hops

theorem fetchSyncHop_of_goes (h : Goes N env c) :
    fetchSyncHop N.lib N.cfg env c =
      ⟨some ⟨hopUrl N.lib env c.url, c.topUrl,
          partitionKey N.lib N.cfg (c.topUrl.getD (hopUrl N.lib env c.url)),
          some (request N.lib N.cfg (hopUrl N.lib env c.url) c)⟩,
        env.reply.map (·.response (hopUrl N.lib env c.url)), env.reply.bind (·.location)⟩ := by
  simp only [fetchSyncHop, h.left, h.right.left, h.right.right, ↓reduceIte]

theorem fetchSyncHop_of_local {resp : Response} (h : answerLocally N.lib env c = some resp) :
    fetchSyncHop N.lib N.cfg env c = { response := some resp } := by
  rw [fetchSyncHop, h]

-- Any other hop only asks the cache, and is not redirected.
theorem fetchSyncHop_of_not_goes (hl : answerLocally N.lib env c = none) (h : ¬Goes N env c) :
    ∃ resp, fetchSyncHop N.lib N.cfg env c =
      ⟨some ⟨hopUrl N.lib env c.url, c.topUrl,
          partitionKey N.lib N.cfg (c.topUrl.getD (hopUrl N.lib env c.url)), none⟩, resp, none⟩ := by
  simp only [fetchSyncHop, hl]
  cases hcache : answerFromCache N.lib N.cfg env c
  case some entry => exact ⟨_, rfl⟩
  case none =>
    have hslot : ¬holdsSlot N.lib env (hopUrl N.lib env c.url) := fun hs => h ⟨hl, hcache, hs⟩
    exact ⟨none, if_neg hslot⟩

theorem location_of_not_goes (h : ¬Goes N env c) :
    (fetchSyncHop N.lib N.cfg env c).location = none := by
  cases hl : answerLocally N.lib env c
  case none =>
    obtain ⟨resp, he⟩ := fetchSyncHop_of_not_goes hl h
    rw [he]
  case some => rw [fetchSyncHop_of_local hl]

end Hops

section Loop

-- A redirect is only followed to the web, and without the page. One of what a page gets by `https` is only
-- followed to `https`.
theorem afterHop_next {resp : Response} {location : Option CString}
    (h : afterHop N.lib r left c resp location = .next c') :
    left ≠ 0 ∧ (isHttpOrHttps c'.url ∧ (isHttps r.url → isNavigation r.headers = false → isHttps c'.url)) ∧
      c'.topUrl = none := by
  simp only [afterHop] at h
  split at h
  case h_1 => cases h
  case h_2 => cases h
  case h_3 =>
    split at h
    case isTrue => cases h
    case isFalse =>
      split at h
      case isTrue => cases h
      case isFalse hl =>
        split at h
        case h_1 => cases h
        case h_2 next _ =>
          split at h
          case isTrue => cases h
          case isFalse hn =>
            cases h
            rw [Bool.or_eq_true, not_or] at hn
            have hweb : isHttpOrHttps next := by simpa using hn.left
            refine ⟨hl, ⟨hweb, fun hr hm => ?_⟩, rfl⟩
            show isHttps next
            simpa [hr, hm] using hn.right

theorem afterHop_none {resp : Response} : afterHop N.lib r left c resp none = .done resp :=
  rfl

theorem Redirects.unique {d : Call} (h : Redirects N r left hops c c')
    (hd : Redirects N r left hops c d) : d = c' := by
  obtain ⟨_, _, reply, hr, ha⟩ := h
  obtain ⟨_, _, reply', hr', ha'⟩ := hd
  cases Option.mem_unique hr hr'
  exact (Step.next.inj (ha.symm.trans ha')).symm

theorem follow_of_redirects (h : Redirects N r (left + 1) hops c c') :
    (follow N r (left + 1) hops c).1 =
      (fetchSyncHop N.lib N.cfg (N.env hops) c).hop.toList ++ (follow N r left (hops + 1) c').1 := by
  obtain ⟨hg, hn, reply, hr, ha⟩ := h
  have he := fetchSyncHop_of_goes hg
  rw [follow, he]
  simp [Option.mem_def.mp hr, ha, hn]

theorem follow_of_not_redirects (h : ∀ c', ¬Redirects N r left hops c c') :
    (follow N r left hops c).1 = (fetchSyncHop N.lib N.cfg (N.env hops) c).hop.toList := by
  by_cases hg : Goes N (N.env hops) c
  case neg =>
    simp only [follow, location_of_not_goes hg, afterHop_none]
    cases (fetchSyncHop N.lib N.cfg (N.env hops) c).response <;> rfl
  case pos =>
    rw [follow, fetchSyncHop_of_goes hg]
    cases hr : (N.env hops).reply
    case none => rfl
    case some reply =>
      simp only [Option.map_some, Option.bind_some]
      split
      case h_1 c' _ ha =>
        have hn : (N.env hops).cancelled := by
          by_contra hn
          exact h c' ⟨hg, hn, reply, hr, ha⟩
        rw [if_pos hn]
      case h_2 => rfl
      case h_3 => rfl

end Loop

section Hop

theorem page_eq_some : r.page = some top ↔ r.topUrl = some top ∧ top ≠ [] := by
  simp [Call.page, Option.filter_eq_some_iff]

-- The first hop only depends on the blocker.
theorem firstHop_onBehalf_iff (hc : c.page = some top) :
    (∀ h ∈ (fetchSyncHop N.lib N.cfg env c).hop, h.OnBehalfOf N top) ↔
      (Goes N env c → ¬N.shouldBlock (hopUrl N.lib env c.url) (some top)) := by
  obtain ⟨hc, ht⟩ := page_eq_some.mp hc
  cases hl : answerLocally N.lib env c
  case some resp =>
    have hg : ¬Goes N env c := fun hg => by simp [hg.left] at hl
    simp [fetchSyncHop_of_local hl, hg]
  case none =>
    by_cases hg : Goes N env c
    case neg =>
      obtain ⟨resp, he⟩ := fetchSyncHop_of_not_goes hl hg
      simp only [he, Option.mem_some_iff, forall_eq', hg, false_implies, iff_true]
      exact ⟨by rw [hc]; rfl, by simp⟩
    case pos =>
      simp only [fetchSyncHop_of_goes hg, Option.mem_some_iff, forall_eq', hg, true_implies]
      refine ⟨fun h => (h.sent _ rfl).blocker, fun hb => ⟨by rw [hc]; rfl, ?_⟩⟩
      intro s hs
      exact Option.mem_some.mp hs ▸ ⟨request_presents hc ht, hb⟩

theorem hop_presents : ∀ h ∈ (fetchSyncHop N.lib N.cfg env c).hop, h.topUrl = some top → top ≠ [] →
    h.Presents N top := by
  intro h hh ht hne
  cases hl : answerLocally N.lib env c
  case some resp => simp [fetchSyncHop_of_local hl] at hh
  case none =>
    by_cases hg : Goes N env c
    case neg =>
      obtain ⟨resp, he⟩ := fetchSyncHop_of_not_goes hl hg
      rw [he] at hh
      cases hh
      exact ⟨by rw [show c.topUrl = some top from ht]; rfl, by simp⟩
    case pos =>
      rw [fetchSyncHop_of_goes hg] at hh
      cases hh
      refine ⟨by rw [show c.topUrl = some top from ht]; rfl, fun s hs => ?_⟩
      exact Option.mem_some.mp hs ▸ request_presents ht hne

-- A hop after a redirect is never sent on behalf of the page.
theorem laterHop_onBehalf_iff (hc : c.topUrl = none) (hu : isHttpOrHttps c.url) :
    (∀ h ∈ (fetchSyncHop N.lib N.cfg env c).hop, h.OnBehalfOf N top) ↔ StaysIn N top env c := by
  cases hl : answerLocally N.lib env c
  case some resp => simp [fetchSyncHop_of_local hl, StaysIn, hl]
  case none =>
    by_cases hg : Goes N env c
    case neg =>
      obtain ⟨resp, he⟩ := fetchSyncHop_of_not_goes hl hg
      simp only [he, Option.mem_some_iff, forall_eq', StaysIn, hl, hg, true_implies, not_false_iff,
        true_and, hc, Option.getD_none]
      exact ⟨fun h => h.cache, fun h => ⟨h, by simp⟩⟩
    case pos =>
      simp only [fetchSyncHop_of_goes hg, Option.mem_some_iff, forall_eq', StaysIn, hl, hg,
        true_implies, not_true, false_and, iff_false]
      exact fun h => request_not_presents hc (isHttpOrHttps_hopUrl hu) (h.sent _ rfl).toPresents

end Hop

-- What holds of the call of a hop and is kept by the redirects that are followed holds of every hop.
theorem follow_forall_of_redirects {P : Call → Prop} {Q : Hop → Prop}
    (hq : ∀ env c, P c → ∀ h ∈ (fetchSyncHop N.lib N.cfg env c).hop, Q h)
    (hp : ∀ left hops c c', Redirects N r left hops c c' → P c → P c') (hc : P c) :
    ∀ h ∈ (follow N r left hops c).1, Q h := by
  induction left generalizing hops c
  case zero =>
    have hn (c' : Call) : ¬Redirects N r 0 hops c c' := by
      rintro ⟨_, _, _, _, ha⟩
      exact (afterHop_next ha).left rfl
    rw [follow_of_not_redirects hn]
    simpa using hq _ _ hc
  case succ left hi =>
    by_cases hr : ∃ c', Redirects N r (left + 1) hops c c'
    case neg =>
      rw [follow_of_not_redirects (not_exists.mp hr)]
      simpa using hq _ _ hc
    case pos =>
      obtain ⟨c', hr⟩ := hr
      rw [follow_of_redirects hr]
      intro x hx
      cases List.mem_append.mp hx
      case inl hx => exact hq _ _ hc x (Option.mem_toList.mp hx)
      case inr hx => exact hi (hp _ _ _ _ hr hc) x hx

-- Every hop is one that `ns_fetch_sync_hop` makes for some call.
theorem follow_forall {P : Hop → Prop}
    (h : ∀ env c, ∀ h ∈ (fetchSyncHop N.lib N.cfg env c).hop, P h) :
    ∀ h ∈ (follow N r left hops c).1, P h :=
  follow_forall_of_redirects (P := fun _ => True) (fun env c _ => h env c) (fun _ _ _ _ _ _ => trivial) trivial

theorem StaysIn.not_redirects (h : StaysIn N top (N.env hops) c) :
    ∀ c', ¬Redirects N r left hops c c' :=
  fun _ hr => (h hr.left.left).left hr.left

theorem hop_subset_follow :
    (fetchSyncHop N.lib N.cfg (N.env hops) c).hop.toList ⊆ (follow N r left hops c).1 := by
  by_cases h : ∃ c', Redirects N r left hops c c'
  case neg =>
    rw [follow_of_not_redirects (not_exists.mp h)]
    exact List.Subset.refl _
  case pos =>
    obtain ⟨c', h⟩ := h
    obtain ⟨_, _, _, _, ha⟩ := id h
    obtain ⟨k, rfl⟩ := Nat.exists_eq_succ_of_ne_zero (afterHop_next ha).left
    rw [follow_of_redirects h]
    exact List.subset_append_left _ _

theorem follow_onBehalf_iff (hp : r.page = some top) :
    (∀ h ∈ (follow N r left 0 r).1, h.OnBehalfOf N top) ↔ Kept N r left top := by
  by_cases h : ∃ c, Redirects N r left 0 r c
  case neg =>
    rw [follow_of_not_redirects (not_exists.mp h)]
    simp only [Option.mem_toList]
    exact (firstHop_onBehalf_iff hp).trans
      ⟨fun hb => ⟨hb, fun c hc => absurd ⟨c, hc⟩ h⟩, fun hk => hk.blocker⟩
  case pos =>
    obtain ⟨c, h⟩ := h
    obtain ⟨_, _, _, _, ha⟩ := id h
    have ⟨hl, hu, hc⟩ := afterHop_next ha
    obtain ⟨k, rfl⟩ := Nat.exists_eq_succ_of_ne_zero hl
    rw [follow_of_redirects h]
    simp only [List.mem_append, Option.mem_toList, or_imp, forall_and]
    -- The second hop ends the chain where it is on behalf of the page.
    constructor
    case mp =>
      refine fun ⟨hb, hs⟩ => ⟨(firstHop_onBehalf_iff hp).mp hb, fun c' hc' => ?_⟩
      cases h.unique hc'
      refine (laterHop_onBehalf_iff hc hu.left).mp fun h' hh => hs h' (hop_subset_follow ?_)
      exact Option.mem_toList.mpr hh
    case mpr =>
      refine fun hk => ⟨(firstHop_onBehalf_iff hp).mpr hk.blocker, fun h' hh => ?_⟩
      have hs := hk.redirect c h
      rw [follow_of_not_redirects hs.not_redirects, Option.mem_toList] at hh
      exact (laterHop_onBehalf_iff hc hu.left).mpr hs h' hh

-- A fetch is on behalf of its page exactly when it is kept from going on elsewhere.
theorem fetchSync_onBehalf_iff (hp : r.page = some top) :
    (∀ h ∈ (fetchSync N r).1, h.OnBehalfOf N top) ↔
      isBlocked N r ∨ Kept N r.orGet N.cfg.maxRedirs top := by
  rw [fetchSync]
  split
  case isTrue hb => simp [hb]
  case isFalse hb =>
    rw [or_iff_right hb]
    exact follow_onBehalf_iff hp

section Schemes

-- What a hop is made for, and what it sends, has the URL of the hop.
theorem url_of_hop {h : Hop} (hh : h ∈ (fetchSyncHop N.lib N.cfg env c).hop) :
    h.url = hopUrl N.lib env c.url ∧ ∀ s ∈ h.sent, s.url = hopUrl N.lib env c.url := by
  by_cases hg : Goes N env c
  case pos =>
    rw [fetchSyncHop_of_goes hg] at hh
    obtain rfl := Option.some.inj hh
    refine ⟨rfl, fun s hs => ?_⟩
    obtain rfl := Option.some.inj hs
    rfl
  case neg =>
    cases hl : answerLocally N.lib env c
    case some resp =>
      rw [fetchSyncHop_of_local hl] at hh
      cases hh
    case none =>
      obtain ⟨resp, he⟩ := fetchSyncHop_of_not_goes hl hg
      rw [he] at hh
      obtain rfl := Option.some.inj hh
      exact ⟨rfl, fun s hs => by cases hs⟩

-- The hops of a fetch from the web stay on the web, whatever the redirects say.
theorem fetchSync_isHttpOrHttps (h : isHttpOrHttps r.url) :
    ∀ x ∈ (fetchSync N r).1, isHttpOrHttps x.url ∧ ∀ s ∈ x.sent, isHttpOrHttps s.url := by
  rw [fetchSync]
  split
  case isTrue  => simp
  case isFalse =>
    refine follow_forall_of_redirects (P := fun c => isHttpOrHttps c.url) (fun env c hc x hx => ?_) ?_ h
    · obtain ⟨hu, hs⟩ := url_of_hop hx
      have hweb : isHttpOrHttps (hopUrl N.lib env c.url) := isHttpOrHttps_hopUrl hc
      exact ⟨hu ▸ hweb, fun s hm => hs s hm ▸ hweb⟩
    · rintro left hops c c' ⟨-, -, reply, -, ha⟩ -
      exact (afterHop_next ha).right.left.left

-- What is fetched by `https` for a page is never asked for without it.
theorem fetchSync_isHttps (hU : ∀ url abs, isHttps url → N.lib.resolve none url = some abs → isHttps abs)
    (h : isHttps r.url) (hn : isNavigation r.headers = false) :
    ∀ x ∈ (fetchSync N r).1, isHttps x.url ∧ ∀ s ∈ x.sent, isHttps s.url := by
  rw [fetchSync]
  split
  case isTrue  => simp
  case isFalse =>
    refine follow_forall_of_redirects (P := fun c => isHttps c.url) (fun env c hc x hx => ?_) ?_ h
    · obtain ⟨hu, hs⟩ := url_of_hop hx
      have hweb : isHttps (hopUrl N.lib env c.url) := isHttps_hopUrl hU hc
      exact ⟨hu ▸ hweb, fun s hm => hs s hm ▸ hweb⟩
    · rintro left hops c c' ⟨-, -, reply, -, ha⟩ -
      exact (afterHop_next ha).right.left.right h hn

end Schemes

section Sites

-- The front pages of two sites, the first of which may send its visitors to the second one.

def otherPageUrl : CString :=
  "https://example.net/".toList

def otherPage : UrlParts :=
  { Platform.frontPage with
    hostname           := "example.net".toList
    hostname_printable := by simp
    hostname_no_hash   := by decide }

def twoSites : UrlLib where
  urlParts url :=
    if url = Platform.frontPageUrl then some Platform.frontPage
    else if url = otherPageUrl then some otherPage
    else none
  registrableDomain host := some host
  isPublicSuffix domain  := domain ∈ ["org".toList, "net".toList]
  getdate _              := none
  origin url             := some (url.take 19)
  host url               := some ((url.drop 8).take 11)
  resolve _ url          := some url
  resolve_http h he      := Option.some.inj he ▸ h

def Env.answering (reply : Reply) : Env where
  recentlyDead _ := false
  synthesize _ _ := none
  hstsUpgrade _  := false
  cache _ _ _    := none
  acquireSlot _  := true
  reply          := some reply
  cancelled      := false

def Network.answering (reply : Reply) : Network where
  lib             := twoSites
  cfg             := ⟨"Nordstjernen".toList, "en".toList, .firstParty, 10⟩
  shouldBlock _ _ := false
  env hops        := .answering (if hops = 0 then reply else ⟨200, none, none, none⟩)

def visit : Call where
  url    := Platform.frontPageUrl
  topUrl := some Platform.frontPageUrl
  method := "GET".toList

theorem fetchSync_onBehalf_iff_visit :
    (∀ h ∈ (fetchSync (.answering ⟨200, none, none, none⟩) visit).1,
      h.OnBehalfOf (.answering ⟨200, none, none, none⟩) Platform.frontPageUrl) ↔
    isBlocked (.answering ⟨200, none, none, none⟩) visit ∨
      Kept (.answering ⟨200, none, none, none⟩) visit.orGet 10 Platform.frontPageUrl :=
  fetchSync_onBehalf_iff (N := .answering ⟨200, none, none, none⟩) (by decide)

-- The redirect to the other site is followed.

theorem fetchSync_isHttpOrHttps_visit :
    (fetchSync (.answering ⟨302, none, some otherPageUrl, none⟩) visit).1.length = 2 ∧
    ∀ x ∈ (fetchSync (.answering ⟨302, none, some otherPageUrl, none⟩) visit).1,
      isHttpOrHttps x.url ∧ ∀ s ∈ x.sent, isHttpOrHttps s.url :=
  ⟨by decide +kernel, fetchSync_isHttpOrHttps (by decide)⟩

theorem fetchSync_isHttps_visit :
    (fetchSync (.answering ⟨302, none, some otherPageUrl, none⟩) visit).1.length = 2 ∧
    ∀ x ∈ (fetchSync (.answering ⟨302, none, some otherPageUrl, none⟩) visit).1,
      isHttps x.url ∧ ∀ s ∈ x.sent, isHttps s.url :=
  ⟨by decide +kernel, fetchSync_isHttps (fun _ _ h he => Option.some.inj he ▸ h) (by decide) (by decide)⟩

-- The other site gets its own cookies although it is not the page's.
theorem not_onBehalf_of_redirect :
    ¬∀ (N : Network) (r : Call) (top : CString), r.page = some top →
      ∀ h ∈ (fetchSync N r).1, h.OnBehalfOf N top := by
  intro h
  have hc := h (.answering ⟨302, none, some otherPageUrl, none⟩) visit Platform.frontPageUrl
    (by decide) ⟨otherPageUrl, none,
      partitionKey twoSites ⟨"Nordstjernen".toList, "en".toList, .firstParty, 10⟩ otherPageUrl,
      some ⟨otherPageUrl, "GET".toList, some "https:://example.net".toList, [],
        some "none".toList, none, []⟩⟩ (by decide +kernel)
  have hn := (hc.sent _ rfl).cookies rfl (by decide)
  cases hn

end Sites

end Nordstjernen.Net.Fetch
