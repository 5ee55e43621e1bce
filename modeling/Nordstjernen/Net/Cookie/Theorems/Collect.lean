import Nordstjernen.Net.Cookie.Theorems.Spec
import Nordstjernen.Net.Cookie.Theorems.Line

open Nordstjernen.Glib

namespace Nordstjernen.Net.Cookie

theorem Route.eq_other {r r' : Route} (h : r ≠ r') : r = r'.other := by
  cases r <;> cases r' <;> first | rfl | exact absurd rfl h

namespace Shelf

-- The two files only hold unexpired lines of their own route.
structure Routed (s : Shelf) : Prop where
  route   : ∀ r, (s.get r).Routed r
  expired : ∀ r, ∀ l ∈ s.get r, l.write.expired = false

variable {s : Shelf} {l w : Line} {route : Route}

theorem Routed.mem_store (h : s.Routed) :
    l ∈ (s.store w).get w.write.route ↔
      (l = w ∧ w.write.expired = false) ∨
      (l ∈ s.get w.write.route ∧ l.key ≠ w.key ∧ (l.httpOnly ∨ l.dead w.write.now = false)) := by
  rw [get_store, if_pos rfl]
  exact (h.route w.write.route).mem_store

theorem get_store_of_ne (h : route ≠ w.write.route) : (s.store w).get route = s.get route := by
  rw [get_store, if_neg h.symm]

theorem Routed.store (h : s.Routed) (w : Line) : (s.store w).Routed := by
  have hm (r : Route) (l : Line) (hl : l ∈ (s.store w).get r) :
      (l = w ∧ w.write.expired = false ∧ r = w.write.route) ∨ l ∈ s.get r := by
    by_cases hr : r = w.write.route
    case pos =>
      subst hr
      exact (h.mem_store.mp hl).imp (fun ⟨h₁, h₂⟩ => ⟨h₁, h₂, rfl⟩) And.left
    case neg => exact .inr (get_store_of_ne hr ▸ hl)
  constructor <;> intro r l hl <;> cases hm r l hl
  case route.inl h => exact h.left ▸ h.right.right.symm
  case route.inr hl => exact h.route r l hl
  case expired.inl h => exact h.left ▸ h.right.left
  case expired.inr hl => exact h.expired r l hl

theorem routed_default : ({} : Shelf).Routed := by
  constructor <;> intro r <;> cases r <;> simp [get, Lines.Routed]

-- What the files know about the log of the writes that led to them: the last write of each key is
-- there as long as it lives, and whatever else is there is dead or hidden by such a write.
structure Inv (s : Shelf) (log : Lines) (time : Nat) : Prop extends s.Routed where
  readable : ∀ l ∈ log, l.Readable
  live     : ∀ l ∈ Lib.lasts Line.key log,
    l.write.expired = false → l.dead time = false → l ∈ s.get l.write.route
  last     : ∀ r, ∀ l ∈ s.get r, l.dead time = false →
    l ∈ Lib.lasts Line.key log ∨
    ∃ w ∈ Lib.lasts Line.key log, w.key = l.key ∧ r = .http ∧ w.Covers l

variable {log : Lines} {time now : Nat} {parts : UrlParts}

theorem inv_default : ({} : Shelf).Inv [] time where
  toRouted := routed_default
  readable := by simp
  live     := by simp
  last     := by intro r; cases r <;> simp [get]

theorem Inv.mono (h : s.Inv log time) (ht : time ≤ now) : s.Inv log now where
  toRouted := h.toRouted
  readable := h.readable
  live l hl he hd   := h.live l hl he (Line.not_dead_mono ht hd)
  last r l hl hd    := h.last r l hl (Line.not_dead_mono ht hd)

theorem Inv.store (h : s.Inv log time) (ht : time ≤ w.write.now) (hf : s.Faithful w) :
    (s.store w).Inv (log ++ [w]) w.write.now where
  toRouted := h.toRouted.store w
  readable := by
    intro l hl
    cases List.mem_append.mp hl
    case inl hl => exact h.readable l hl
    case inr hl => exact List.mem_singleton.mp hl ▸ hf.toReadable
  live := by
    intro l hl he hd
    have hi := h.mono ht
    cases Lib.mem_lasts_concat.mp hl
    case inl hw => exact hw ▸ (h.mem_store.mpr (.inl ⟨rfl, hw ▸ he⟩))
    case inr hl =>
      have hs := hi.live l hl.left he hd
      by_cases hr : l.write.route = w.write.route
      case pos => exact hr ▸ h.mem_store.mpr (.inr ⟨hr ▸ hs, hl.right, .inr hd⟩)
      case neg => rw [get_store_of_ne hr]; exact hs
  last := by
    intro r l hl hd
    have hi := h.mono ht
    -- A line of another key is what it was before the write.
    have old (hs : l ∈ s.get r) (hk : l.key ≠ w.key) :
        l ∈ Lib.lasts Line.key (log ++ [w]) ∨
        ∃ v ∈ Lib.lasts Line.key (log ++ [w]), v.key = l.key ∧ r = .http ∧ v.Covers l := by
      cases hi.last r l hs hd
      case inl hm => exact .inl (Lib.mem_lasts_concat.mpr (.inr ⟨hm, hk⟩))
      case inr hm =>
        have ⟨v, hv, hvk, hc⟩ := hm
        exact .inr ⟨v, Lib.mem_lasts_concat.mpr (.inr ⟨hv, hvk ▸ hk⟩), hvk, hc⟩
    have new : w ∈ Lib.lasts Line.key (log ++ [w]) := Lib.mem_lasts_concat.mpr (.inl rfl)
    by_cases hr : r = w.write.route
    case pos =>
      subst hr
      cases h.mem_store.mp hl
      case inl hw => exact .inl (hw.left ▸ new)
      case inr hs => exact old hs.left hs.right.left
    case neg =>
      rw [get_store_of_ne hr] at hl
      by_cases hk : l.key = w.key
      case neg => exact old hl hk
      case pos =>
        rw [Route.eq_other hr] at hl
        have hc := (hf.other l hl hk).resolve_left (by simp [hd])
        exact .inr ⟨w, new, hk.symm, by rw [Route.eq_other hr, hc.route]; rfl, hc⟩

theorem Inv.storeAll {ws : Lines} (h : s.Inv log time) (ht : time ≤ now)
    (hf : s.FaithfulRun time ws) (hw : ∀ w ∈ ws, w.write.now ≤ now) :
    (s.storeAll ws).Inv (log ++ ws) now := by
  induction ws generalizing s log time
  case nil => simpa [Shelf.storeAll] using h.mono ht
  case cons w ws hi =>
    obtain ⟨htw, hfw, hr⟩ := hf
    have hs := hi (h.store htw hfw) (hw w (by simp)) hr fun v hv => hw v (by simp [hv])
    simpa [Shelf.storeAll] using hs

theorem mem_sent :
    l ∈ s.sent now parts true ↔
      ∃ r, l ∈ s.get r ∧ l.write.value ≠ [] ∧ Line.reaches parts l.write ∧ l.dead now = false := by
  have hr : (∃ r, l ∈ s.get r) ↔ l ∈ s.http ∨ l ∈ s.js :=
    ⟨fun ⟨r, h⟩ => by cases r; exacts [.inl h, .inr h], fun h => h.elim (⟨.http, ·⟩) (⟨.js, ·⟩)⟩
  simp only [exists_and_right, hr]
  simp [sent, Line.sent, and_assoc, or_and_right]

variable {c : Line}

theorem Inv.mem_collected (h : s.Inv log time) (ht : time ≤ now) :
    c ∈ Spec.collected log now parts ↔
      c ∈ Lib.lasts Line.key log ∧ c ∈ s.sent now parts true := by
  rw [Spec.collected, List.mem_filter, mem_sent]
  refine and_congr_right fun hl => ?_
  have hr := h.readable c (Lib.mem_of_mem_lasts hl)
  simp only [decide_eq_true_eq]
  constructor
  case mp =>
    intro ⟨hv, hm⟩
    have he : c.write.expired = false := c.sound.expired_eq ▸ hv.left
    have hd := (Line.dead_eq hr he).mpr hv
    exact ⟨_, (h.mono ht).live c hl he hd, hr.value.resolve_right (by simp [he]),
      (Line.reaches_eq hr).mpr hm, hd⟩
  case mpr =>
    intro ⟨r, hc, _, hm, hd⟩
    exact ⟨(Line.dead_eq hr (h.expired r c hc)).mp hd, (Line.reaches_eq hr).mp hm⟩

-- Whatever a request is given beside the collected cookies is hidden by one of them.
theorem Inv.sent_hidden (h : s.Inv log time) (ht : time ≤ now)
    (hl : l ∈ s.sent now parts true) :
    l ∈ Spec.collected log now parts ∨
    l ∈ s.http ∧ ∃ c ∈ Spec.collected log now parts, c ∈ s.js ∧ c.name = l.name := by
  have ⟨r, hs, _, hm, hd⟩ := mem_sent.mp hl
  have hi := h.mono ht
  cases hi.last r l hs hd
  case inl hll => exact .inl ((h.mem_collected ht).mpr ⟨hll, hl⟩)
  case inr hc =>
    have ⟨w, hw, hk, hr, hc⟩ := hc
    have hwd := hc.dead hd
    have hwr := h.readable w (Lib.mem_of_mem_lasts hw)
    have hws : w ∈ s.js := by
      have := hi.live w hw hc.expired hwd
      rwa [hc.route] at this
    have hwm := mem_sent.mpr ⟨.js, hws, hwr.value.resolve_right (by simp [hc.expired]),
      Line.reaches_of_key hk hc.secure hm, hwd⟩
    subst hr
    exact .inr ⟨hs, w, (h.mem_collected ht).mpr ⟨hw, hwm⟩, hws, Line.name_eq_of_key hk⟩

theorem sent_eq (s : Shelf) :
    s.sent now parts true =
      s.http.filter (·.sent now parts true) ++ s.js.filter (·.sent now parts true) := by
  simp [sent]

-- Reading both files and keeping one value of each name gives the collected cookies, where these
-- have different names.
theorem Inv.lasts_sent (h : s.Inv log time) (ht : time ≤ now)
    (hn : ((Spec.collected log now parts).map Line.name).Nodup) :
    (Lib.lasts Line.name (s.sent now parts true)).Perm (Spec.collected log now parts) := by
  have fwd : ∀ l ∈ Lib.lasts Line.name (s.sent now parts true),
      l ∈ Spec.collected log now parts := by
    intro l hl
    refine (h.sent_hidden ht (Lib.mem_of_mem_lasts hl)).resolve_right fun ⟨hh, c, hc, hj, hcn⟩ => ?_
    have hcs : c ∈ s.js.filter (·.sent now parts true) := by
      have := ((h.mem_collected ht).mp hc).right
      exact List.mem_filter.mpr ⟨hj, (List.mem_filter.mp this).right⟩
    rw [sent_eq, Lib.mem_lasts_append] at hl
    cases hl
    case inl hl =>
      have hlj := (List.mem_filter.mp (Lib.mem_of_mem_lasts hl)).left
      have hr := h.route .http l hh
      rw [h.route .js l hlj] at hr
      cases hr
    case inr hl => exact hl.right c hcs hcn
  have bwd : ∀ c ∈ Spec.collected log now parts,
      c ∈ Lib.lasts Line.name (s.sent now parts true) := by
    intro c hc
    have ⟨l, hl, hln⟩ : ∃ l ∈ Lib.lasts Line.name (s.sent now parts true), l.name = c.name :=
      Lib.exists_mem_lasts ((h.mem_collected ht).mp hc).right
    exact List.inj_on_of_nodup_map hn (fwd l hl) hc hln ▸ hl
  refine (List.perm_ext_iff_of_nodup ?_ hn.of_map).mpr fun l => ⟨fwd l, bwd l⟩
  exact (Lib.nodup_lasts _).of_map

theorem Inv.pairs_perm (h : s.Inv log time) (ht : time ≤ now)
    (hn : ((Spec.collected log now parts).map Line.name).Nodup) :
    (s.pairs now parts true).Perm ((Spec.collected log now parts).map Line.pair) := by
  have hp : (s.pairs now parts true).Perm (Lib.lasts Prod.fst ((s.sent now parts true).map Line.pair)) :=
    Lib.foldl_put_perm _
  rw [Lib.lasts_map] at hp
  exact hp.trans ((h.lasts_sent ht hn).map Line.pair)

end Shelf

section

variable {P : Platform} {url site : CString} {parts : UrlParts} {now : Nat} {calls : List Call}

theorem cookieCollect_eq {files : Files} {s : Shelf} {inc : Bool}
    (hp : P.hostParts url = some parts) (hs : (P.siteFrom url).filter (· ≠ []) = some site)
    (hf : files site = s.contents) :
    cookieCollect P now files url inc =
      if s.pairs now parts inc = [] then none else some (cookieString (s.pairs now parts inc)) := by
  simp only [cookieCollect, hp, hs, bind, Option.bind_some, hf, collectPairs_contents]

-- In a history of faithful writes, a request gets the cookies that were last written and still
-- live and match its url.
theorem cookiesForRequest_collected (hp : P.hostParts url = some parts)
    (hs : (P.siteFrom url).filter (· ≠ []) = some site)
    (hf : ({} : Shelf).FaithfulRun 0 (acceptedWrites P site calls))
    (hnow : ∀ w ∈ acceptedWrites P site calls, w.write.now ≤ now)
    (hn : ((Spec.collected (acceptedWrites P site calls) now parts).map Line.name).Nodup) :
    CollectsLastWrites P calls site parts url now := by
  have hi := Shelf.inv_default.storeAll (Nat.zero_le now) hf hnow
  rw [List.nil_append] at hi
  refine ⟨_, hi.pairs_perm le_rfl hn, ?_⟩
  exact cookieCollect_eq hp hs (runCalls_empty calls)

-- A script overwrites the server's cookie.
def overwriteCalls : List Call := [
  ⟨10, .http, Platform.frontPageUrl, "a=1".toList⟩,
  ⟨11, .js, Platform.frontPageUrl, "a=2".toList⟩]

theorem cookiesForRequest_collected_overwrite :
    CollectsLastWrites .ofFrontPage overwriteCalls Platform.frontPageSite Platform.frontPage
      Platform.frontPageUrl 12 :=
  cookiesForRequest_collected rfl (by decide) (by decide) (by decide) (by decide)

-- The empty value is not read back, although nothing has removed the cookie.
def emptyValueCall : Call :=
  ⟨10, .http, Platform.frontPageUrl, "a=".toList⟩

theorem not_collectsLastWrites_of_empty_value :
    ¬CollectsLastWrites .ofFrontPage [emptyValueCall] Platform.frontPageSite Platform.frontPage
      Platform.frontPageUrl 11 := by
  have hs : (Spec.collected (acceptedWrites .ofFrontPage Platform.frontPageSite [emptyValueCall])
      11 Platform.frontPage).map Line.pair = [(['a'], [])] := by decide
  have hc : cookiesForRequest .ofFrontPage 11 (runCalls .ofFrontPage (fun _ => {}) [emptyValueCall])
      Platform.frontPageUrl = none := by decide
  rintro ⟨pairs, hp, he⟩
  rw [hs, List.perm_singleton] at hp
  simp [hc, hp] at he

end

end Nordstjernen.Net.Cookie
