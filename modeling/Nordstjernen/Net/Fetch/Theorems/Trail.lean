import Nordstjernen.Net.Fetch.Redirect
import Nordstjernen.Net.Fetch.Theorems.OnBehalf

open Nordstjernen.Glib

namespace Nordstjernen.Net.Fetch

variable {N : Network} {r c c' : Call} {left hops : Nat} {f : Followed}

section Step

-- What the loop goes on with.
theorem afterHop_eq_next {U : UrlLib} {resp : Response} {location : Option CString}
    (h : afterHop U r left c resp location = .next c') :
    isRedirect resp.status ∧
      c' = c.redirect U resp.status (resp.finalUrl.getD c.url) c'.url := by
  simp only [afterHop] at h
  split at h
  case h_1 => cases h
  case h_2 => cases h
  case h_3 =>
    split at h
    case isTrue => cases h
    case isFalse hr =>
      split at h
      case isTrue => cases h
      case isFalse =>
        split at h
        case h_1 => cases h
        case h_2 =>
          split at h
          case isTrue => cases h
          case isFalse =>
            cases h
            exact ⟨by simp_all, rfl⟩

-- A redirect of the trail is one that the loop makes of a call.
structure Followed.Made (U : UrlLib) (f : Followed) : Prop where
  status : isRedirect f.status
  next   : f.next = f.call.redirect U f.status f.base f.next.url

theorem trail_succ (N : Network) (r : Call) (left hops : Nat) (c : Call) :
    trail N r (left + 1) hops c = [] ∨ ∃ f : Followed, f.Made N.lib ∧ f.call = c ∧
      trail N r (left + 1) hops c = f :: trail N r left (hops + 1) f.next := by
  rw [trail]
  split
  case h_1 => exact .inl rfl
  case h_2 resp _ =>
    split
    case h_1 => exact .inl rfl
    case h_2 c' ha =>
      split
      case isTrue  => exact .inl rfl
      case isFalse =>
        obtain ⟨hs, hn⟩ := afterHop_eq_next ha
        exact .inr ⟨⟨c, resp.status, resp.finalUrl.getD c.url, c'⟩, ⟨hs, hn⟩, rfl, rfl⟩

theorem made_of_mem (h : f ∈ trail N r left hops c) : f.Made N.lib := by
  induction left generalizing hops c
  case zero => cases h
  case succ left hi =>
    rcases trail_succ N r left hops c with he | ⟨g, hg, -, he⟩
    · rw [he] at h
      cases h
    · rw [he] at h
      rcases List.mem_cons.mp h with rfl | h
      · exact hg
      · exact hi h

theorem length_trail_le (N : Network) (r : Call) (left hops : Nat) (c : Call) :
    (trail N r left hops c).length ≤ left := by
  induction left generalizing hops c
  case zero => exact Nat.le_refl 0
  case succ left hi =>
    rcases trail_succ N r left hops c with he | ⟨g, -, -, he⟩
    · rw [he]
      exact Nat.zero_le _
    · rw [he]
      exact Nat.succ_le_succ (hi (hops + 1) g.next)

-- The hops of a fetch are those of its first call and of the calls after its redirects.
theorem fst_follow (N : Network) (r : Call) (left hops : Nat) (c : Call) :
    (follow N r left hops c).1 = ((c :: (trail N r left hops c).map Followed.next).zipIdx hops).flatMap
      fun (c, k) => (fetchSyncHop N.lib N.cfg (N.env k) c).hop.toList := by
  induction left generalizing hops c
  case zero =>
    rw [follow]
    split
    case h_1 => simp [trail]
    case h_2 => split <;> simp_all [trail]
  case succ left hi =>
    rw [follow, trail]
    split
    case h_1 => simp
    case h_2 resp hr =>
      split
      case h_1 c' _ ha he =>
        cases he
        simp only [ha]
        split
        case isTrue  => simp
        case isFalse =>
          simp only [List.map_cons, List.zipIdx_cons, List.flatMap_cons]
          rw [hi]
          simp
      case h_2 ha => simp [ha]
      case h_3 he => cases he

end Step

section Headers

theorem headers_redirect (U : UrlLib) (c : Call) (status : Nat) (base next : CString) :
    (c.redirect U status base next).headers =
      if U.originFrom base = U.originFrom next then c.headers else stripSensitive c.headers :=
  rfl

def Stripped (c : Call) : Prop :=
  ∀ h ∈ c.headers, ¬isSensitive h

theorem Followed.Made.stripped (hf : f.Made N.lib) (h : f.CrossOrigin N.lib ∨ Stripped f.call) :
    Stripped f.next := by
  intro hd hm
  rw [hf.next, headers_redirect] at hm
  split at hm
  case isTrue he  => exact h.resolve_left (fun hc => hc he) hd hm
  case isFalse    => simpa using (List.mem_filter.mp hm).right

-- Once the headers are stripped they stay so.
theorem stripped_of_mem (hc : Stripped c) (h : f ∈ trail N r left hops c) : Stripped f.next := by
  induction left generalizing hops c
  case zero => cases h
  case succ left hi =>
    rcases trail_succ N r left hops c with he | ⟨g, hg, rfl, he⟩
    · rw [he] at h
      cases h
    · rw [he] at h
      have hn := hg.stripped (.inr hc)
      rcases List.mem_cons.mp h with rfl | h
      · exact hn
      · exact hi hn h

theorem stripped_after {pre post : List Followed} {g : Followed}
    (h : trail N r left hops c = pre ++ f :: post) (hf : f.CrossOrigin N.lib) (hg : g ∈ f :: post) :
    Stripped g.next := by
  induction left generalizing hops c pre
  case zero => simp [trail] at h
  case succ left hi =>
    rcases trail_succ N r left hops c with he | ⟨k, hk, rfl, he⟩
    · rw [he] at h
      simp at h
    · rw [he] at h
      cases pre
      case nil =>
        obtain ⟨rfl, hp⟩ := List.cons.inj h
        have hn := hk.stripped (.inl hf)
        rcases List.mem_cons.mp hg with rfl | hg
        · exact hn
        · exact stripped_of_mem hn (hp ▸ hg)
      case cons p pre => exact hi (List.cons.inj h).right

end Headers

section Rule

theorem gAsciiStrdown_takeWhile_colon (h : CString) :
    gAsciiStrdown (h.takeWhile (· ≠ ':')) = (gAsciiStrdown h).takeWhile (· ≠ ':') := by
  have hp : ((fun c : Char => decide (c ≠ ':')) ∘ gAsciiTolower) = fun c => decide (c ≠ ':') :=
    funext fun c => by simp [gAsciiTolower_eq_iff]
  rw [gAsciiStrdown, gAsciiStrdown, List.takeWhile_map, hp]

theorem not_isSensitive_of_isContentType {h : CString} (hc : isContentType h) : isSensitive h = false := by
  have ht : gAsciiStrdown (h.take 13) = "content-type:".toList := eq_of_beq hc
  have hl : gAsciiStrdown h = "content-type:".toList ++ gAsciiStrdown (h.drop 13) := by
    rw [← ht, ← gAsciiStrdown_append, List.take_append_drop]
  have hn : gAsciiStrdown (h.takeWhile (· ≠ ':')) = "content-type".toList := by
    rw [gAsciiStrdown_takeWhile_colon, hl]
    rfl
  have hs : ["authorization".toList, "cookie".toList, "proxy-authorization".toList].any
      (strcaseEq (h.takeWhile (· ≠ ':'))) = false := by
    simp only [List.any_cons, List.any_nil, strcaseEq, hn]
    decide
  rw [isSensitive, hs, Bool.and_false]

def ownContentTypes (headers : List CString) : List CString :=
  (headers.filter isForwarded).filter isContentType

-- The caller's lines about the body outlast every redirect.
theorem ownContentTypes_redirect (U : UrlLib) (c : Call) (status : Nat) (base next : CString) :
    ownContentTypes (c.redirect U status base next).headers = ownContentTypes c.headers := by
  rw [headers_redirect]
  split
  case isTrue  => rfl
  case isFalse =>
    rw [ownContentTypes, ownContentTypes, stripSensitive, List.filter_filter, List.filter_filter,
      List.filter_filter]
    refine List.filter_congr fun h _ => ?_
    cases hc : isContentType h
    case false => simp
    case true  => simp [not_isSensitive_of_isContentType hc]

theorem any_isContentType_redirect (U : UrlLib) (c : Call) (status : Nat) (base next : CString) :
    (c.redirect U status base next).headers.any isContentType = c.headers.any isContentType := by
  rw [headers_redirect]
  split
  case isTrue  => rfl
  case isFalse =>
    rw [stripSensitive, List.any_filter]
    refine List.any_congr rfl fun h => ?_
    cases hc : isContentType h
    case false => simp
    case true  => simp [not_isSensitive_of_isContentType hc]

theorem contentTypes_of_nil (h : c.bytes = []) : c.contentTypes = ownContentTypes c.headers := by
  simp [Call.contentTypes, h, ownContentTypes]

theorem contentTypes_of_isGet (h : c.isGet) : c.contentTypes = ownContentTypes c.headers := by
  simp [Call.contentTypes, h, ownContentTypes]

-- The test of the loop.
def changes (f : Followed) : Bool :=
  f.status = 303 || ((f.status = 301 || f.status = 302) && !f.call.hasMethod "GET".toList)

theorem changes_of_toGet (h : f.ToGet) : changes f := by
  rcases h with ⟨h, -⟩ | ⟨h, hp⟩
  · simp [changes, h]
  · have hg : f.call.hasMethod "GET".toList = false := by
      rw [Call.hasMethod, strcaseEq_iff] at hp
      rw [Call.hasMethod, strcaseEq, hp]
      decide
    rw [changes, hg]
    rcases h with h | h <;> simp [h]

theorem Followed.Made.of_changes (hf : f.Made N.lib) (h : changes f) :
    f.next.method = "GET".toList ∧ f.next.bytes = [] ∧
      f.next.contentTypes = ownContentTypes f.call.headers := by
  have hn := hf.next
  have hm : f.next.method = "GET".toList := by
    rw [hn]
    exact if_pos h
  have hb : f.next.bytes = [] := by
    rw [hn, Call.bytes]
    exact congrArg (Option.getD · []) (if_pos h)
  refine ⟨hm, hb, ?_⟩
  rw [contentTypes_of_nil hb, hn, ownContentTypes_redirect]

theorem Followed.Made.of_not_changes (hf : f.Made N.lib) (h : changes f = false) :
    f.next.method = f.call.method ∧ f.next.bytes = f.call.bytes ∧
      f.next.contentTypes = f.call.contentTypes := by
  have hc : ¬changes f = true := Bool.eq_false_iff.mp h
  have hn := hf.next
  have hm : f.next.method = f.call.method := by
    rw [hn]
    exact if_neg hc
  have hb : f.next.bytes = f.call.bytes := by
    rw [hn, Call.bytes]
    exact congrArg (Option.getD · []) (if_neg hc)
  have ht : f.next.contentType = f.call.contentType := by
    rw [hn]
    exact if_neg hc
  have ho : ownContentTypes f.next.headers = ownContentTypes f.call.headers := by
    rw [hn, ownContentTypes_redirect]
  have ha : f.next.headers.any isContentType = f.call.headers.any isContentType := by
    rw [hn, any_isContentType_redirect]
  refine ⟨hm, hb, ?_⟩
  rw [Call.contentTypes, Call.contentTypes, Call.isGet, Call.isGet, Call.hasMethod, Call.hasMethod, hm,
    hb, ht, ha]
  exact congrArg _ ho

theorem ownContentTypes_eq_nil_iff {headers : List CString} :
    ownContentTypes headers = [] ↔ ∀ h ∈ headers, isForwarded h → ¬isContentType h := by
  rw [ownContentTypes, List.filter_eq_nil_iff]
  exact ⟨fun h l hl hf => h l (List.mem_filter.mpr ⟨hl, hf⟩), fun h l hl =>
    h l (List.mem_filter.mp hl).left (List.mem_filter.mp hl).right⟩

theorem Followed.Made.rule_iff (hf : f.Made N.lib) : f.Rule ↔ f.Plain := by
  cases hc : changes f
  case false =>
    obtain ⟨hm, hb, ht⟩ := hf.of_not_changes hc
    have hn : ¬f.ToGet := fun h => by simp [changes_of_toGet h] at hc
    have h303 : f.status ≠ 303 := fun h => by simp [changes, h] at hc
    refine iff_of_true ⟨fun h => absurd h hn, fun _ => ⟨?_, hb, ht⟩⟩
      ⟨fun h => absurd h h303, fun h => .inl ?_, fun h => absurd h h303, fun h => absurd h hn⟩
    · rw [Call.hasMethod, hm]
      exact strcaseEq_refl _
    · rcases h with h | h <;> simpa [changes, h] using hc
  case true =>
    obtain ⟨hm, hb, ht⟩ := hf.of_changes hc
    have hget : f.next.hasMethod "GET".toList := by
      rw [Call.hasMethod, hm]
      exact strcaseEq_refl _
    by_cases htg : f.ToGet
    case pos =>
      constructor
      case mp =>
        intro h
        have ho := ht.symm.trans (h.changed htg).right.right
        refine ⟨fun hs => ?_, fun hs => ?_, fun hs hg => ?_, fun _ => ownContentTypes_eq_nil_iff.mp ho⟩
        all_goals rcases htg with ⟨h₁, h₂, h₃⟩ | ⟨h₁, h₂⟩
        · simpa using h₃
        · omega
        · omega
        · exact .inr h₂
        · rw [hg] at h₂
          cases h₂
        · omega
      case mpr =>
        intro h
        exact ⟨fun _ => ⟨hget, hb, ht.trans (ownContentTypes_eq_nil_iff.mpr (h.contentType htg))⟩,
          fun hn => absurd htg hn⟩
    case neg =>
      constructor
      case mp =>
        intro h
        obtain ⟨hmc, hbc, -⟩ := h.kept htg
        -- The method is kept although it has been changed: it was the same before.
        have hg : f.call.hasMethod "GET".toList := by
          rw [Call.hasMethod, hm, strcaseEq_iff] at hmc
          rw [Call.hasMethod, strcaseEq_iff, hmc]
        have hh : f.call.hasMethod "HEAD".toList = false := by
          rw [Call.hasMethod, strcaseEq_iff] at hg
          rw [Call.hasMethod, strcaseEq, hg]
          decide
        exact ⟨fun _ h => absurd (hh.symm.trans h) Bool.false_ne_true, fun _ => .inl hg, fun _ _ => hbc.symm.trans hb,
          fun h => absurd h htg⟩
      case mpr =>
        intro h
        have hg : f.status = 303 ∧ f.call.hasMethod "GET".toList := by
          simp only [changes, Bool.or_eq_true, Bool.and_eq_true, decide_eq_true_eq] at hc
          rcases hc with hs | ⟨hs, hg⟩
          · by_contra hn
            have hg : f.call.hasMethod "GET".toList = false := by simpa [hs] using hn
            have hh := Bool.eq_false_iff.mpr (h.head hs)
            exact htg (.inl ⟨hs, by rw [hg]; rfl, by rw [hh]; rfl⟩)
          · have hp := (h.other hs).resolve_left (by simpa using hg)
            exact absurd (.inr ⟨hs, hp⟩) htg
        have hbc := h.body hg.left hg.right
        refine ⟨fun h => absurd h htg, fun _ => ⟨?_, hb.trans hbc.symm, ?_⟩⟩
        · rw [Call.hasMethod, hm]
          have := hg.right
          rw [Call.hasMethod, strcaseEq_iff] at this
          rw [strcaseEq_iff, this]
        · rw [ht, contentTypes_of_nil hbc]

end Rule

section Fetch

-- A fetch treats its redirects as the Fetch standard says as long as each of them is a plain one.
theorem followsFetch_iff (N : Network) (r : Call) :
    FollowsFetch N r ↔ ∀ f ∈ redirects N r, f.Plain := by
  have hmade : ∀ f ∈ redirects N r, f.Made N.lib := by
    intro f hf
    rw [redirects] at hf
    split at hf
    case isTrue  => cases hf
    case isFalse => exact made_of_mem hf
  refine ⟨fun h f hf => (hmade f hf).rule_iff.mp (h.rule f hf), fun h => ?_⟩
  refine ⟨fun f hf => (hmade f hf).rule_iff.mpr (h f hf), ?_, ?_⟩
  · intro pre f post he hc g hg url l hl
    rw [redirects] at he
    split at he
    case isTrue  => simp at he
    case isFalse => exact stripped_after he hc hg l (List.mem_filter.mp hl).left
  · rw [redirects]
    split
    case isTrue  => exact Nat.zero_le _
    case isFalse => exact (length_trail_le ..).trans (Nat.min_le_left _ _)

-- A HEAD request is sent again as GET.
theorem not_followsFetch_head : ¬∀ (N : Network) (r : Call), FollowsFetch N r := by
  intro h
  have hf := (h (.answering ⟨303, none, some otherPageUrl, none⟩) { visit with method := "HEAD".toList }).rule
    ⟨{ visit with method := "HEAD".toList }, 303, Platform.frontPageUrl,
      { visit with url := otherPageUrl, topUrl := none }⟩ (List.mem_of_getElem? (i := 0) rfl)
  have hn : ¬Followed.ToGet ⟨{ visit with method := "HEAD".toList }, 303, Platform.frontPageUrl,
      { visit with url := otherPageUrl, topUrl := none }⟩ := fun hg =>
    hg.elim (fun h => absurd h.right.right (by decide)) fun h => absurd h.left (by decide)
  exact absurd (hf.kept hn).left (by decide)

end Fetch

end Nordstjernen.Net.Fetch
