import Nordstjernen.Net.Url

open Nordstjernen.Glib

namespace Nordstjernen.Net

-- The table `exact`.
def trackingParams : List CString :=
  ["gclid", "dclid", "gbraid", "wbraid",
    "fbclid", "msclkid", "yclid", "twclid", "igshid",
    "mc_cid", "mc_eid",
    "_hsenc", "_hsmi", "__hssc", "__hstc", "__hsfp", "hsctatracking",
    "vero_id", "vero_conv",
    "oly_anon_id", "oly_enc_id",
    "_openstat", "wickedid", "rb_clickid", "s_cid",
    "ml_subscriber", "ml_subscriber_hash",
    "mtm_source", "mtm_medium", "mtm_campaign", "mtm_keyword",
    "mtm_cid", "mtm_content", "mtm_group", "mtm_placement",
    "pk_source", "pk_medium", "pk_campaign", "pk_keyword",
    "pk_cid", "pk_content"].map String.toList

def queryParamIsTracking (key : CString) : Bool :=
  if key = [] then false
  else if hasCasePrefix key "utm_".toList then true
  else trackingParams.any (strcaseEq key ·)

section Parts

variable (url : CString)

-- What comes before `#`, and the rest.
def beforeFragment : CString :=
  url.takeWhile (· ≠ '#')

def fragment : CString :=
  url.dropWhile (· ≠ '#')

def beforeQuery : CString :=
  (beforeFragment url).takeWhile (· ≠ '?')

def query? : Option CString :=
  if '?' ∈ beforeFragment url then some ((beforeFragment url).dropWhile (· ≠ '?')).tail else none

def queryTokens : List CString :=
  ((query? url).map (·.splitOn '&')).getD []

end Parts

def isTracking (token : CString) : Bool :=
  queryParamIsTracking (token.takeWhile (· ≠ '='))

-- `kept` after one more token.
def appendToken (kept token : CString) : CString :=
  (if kept = [] then [] else kept ++ ['&']) ++ token

-- `ns_url_strip_tracking_params`, which is `none` where the URL stays as it is.
def stripTrackingParams (enabled : Bool) (url : CString) : Option CString :=
  if !isHttpOrHttps url || !enabled || (query? url).isNone then none
  else
    let kept := ((queryTokens url).filter (!isTracking ·)).foldl appendToken []
    if (queryTokens url).any isTracking then
      some (beforeQuery url ++ (if kept = [] then [] else '?' :: kept) ++ fragment url)
    else
      none

-- The URL that is loaded in place of another one.
def strippedUrl (url : CString) : CString :=
  (stripTrackingParams true url).getD url

-- What stripping has to be like.
structure StripsTracking (url out : CString) : Prop where
  tokens   : queryTokens out = (queryTokens url).filter (!isTracking ·)
  before   : beforeQuery out = beforeQuery url
  fragment : fragment out = fragment url
  again    : stripTrackingParams true out = none

section Kept

variable {kept t : CString} {ts : List CString}

theorem foldl_appendToken (h : kept ≠ []) (ts : List CString) :
    ts.foldl appendToken kept = kept ++ ts.flatMap ('&' :: ·) := by
  induction ts generalizing kept
  case nil => simp
  case cons t ts hi =>
    have hk : appendToken kept t = kept ++ '&' :: t := by simp [appendToken, h]
    rw [List.foldl_cons, hk, hi (by simp), List.flatMap_cons, List.append_assoc, List.cons_append]

theorem intercalate_amp (t : CString) (ts : List CString) :
    List.intercalate ['&'] (t :: ts) = t ++ ts.flatMap ('&' :: ·) := by
  induction ts generalizing t
  case nil => simp
  case cons u us hi => rw [List.intercalate_cons_cons, hi]; simp

-- Empty tokens are lost at the front.
theorem foldl_appendToken_nil (ts : List CString) :
    ts.foldl appendToken [] = List.intercalate ['&'] (ts.dropWhile (· = [])) := by
  induction ts
  case nil => rfl
  case cons t ts hi =>
    cases t
    case nil => exact hi
    case cons c t => exact (foldl_appendToken (List.cons_ne_nil c t) ts).trans (intercalate_amp ..).symm

theorem intercalate_eq_nil_iff (h : ∀ t ∈ ts.head?, t ≠ []) : List.intercalate ['&'] ts = [] ↔ ts = [] := by
  cases ts
  case nil => simp
  case cons t ts => simp [intercalate_amp, h t rfl]

theorem mem_intercalate {c : Char} (h : c ∈ List.intercalate ['&'] ts) : c = '&' ∨ ∃ t ∈ ts, c ∈ t := by
  cases ts
  case nil => cases h
  case cons t ts =>
    rw [intercalate_amp, List.mem_append] at h
    cases h
    case inl h => exact .inr ⟨t, List.mem_cons_self, h⟩
    case inr h =>
      obtain ⟨u, hu, hc⟩ := List.mem_flatMap.mp h
      exact (List.mem_cons.mp hc).imp_right fun hc => ⟨u, List.mem_cons_of_mem _ hu, hc⟩

theorem mem_intercalate_of_mem {c : Char} (ht : t ∈ ts) (hc : c ∈ t) : c ∈ List.intercalate ['&'] ts := by
  cases ts
  case nil => cases ht
  case cons u ts =>
    rw [intercalate_amp, List.mem_append]
    rcases List.mem_cons.mp ht with rfl | h
    · exact .inl hc
    · exact .inr (List.mem_flatMap.mpr ⟨t, h, List.mem_cons_of_mem _ hc⟩)

end Kept

section Parts

variable {before frag : CString}

theorem takeWhile_ne_append {d : Char} {f : CString} (h : d ∉ before) (hf : ∀ c ∈ f.head?, c = d) :
    (before ++ f).takeWhile (· ≠ d) = before ∧ (before ++ f).dropWhile (· ≠ d) = f := by
  have hb : ∀ c ∈ before, decide (c ≠ d) = true := fun c hc =>
    decide_eq_true fun he => h (he ▸ hc)
  rw [List.takeWhile_append_of_pos hb, List.dropWhile_append_of_pos hb]
  cases f
  case nil => simp
  case cons c f =>
    cases hf c rfl
    simp

theorem not_mem_takeWhile_ne (d : Char) (s : CString) : d ∉ s.takeWhile (· ≠ d) := fun h => by
  simpa using List.mem_takeWhile_imp h

theorem head?_dropWhile_ne (d : Char) (s : CString) : ∀ c ∈ (s.dropWhile (· ≠ d)).head?, c = d := by
  intro c hc
  have h := List.head?_dropWhile_not (· ≠ d) s
  rw [Option.mem_def.mp hc] at h
  simpa using h

-- What the parts of a URL are that is put together from them.
theorem parts_append (kept : Option CString) (hb : '#' ∉ before) (hq : '?' ∉ before)
    (hk : ∀ q ∈ kept, '#' ∉ q) (hf : ∀ c ∈ frag.head?, c = '#') (out : CString)
    (ho : out = before ++ (kept.map ('?' :: ·)).getD [] ++ frag) :
    beforeQuery out = before ∧ query? out = kept ∧ fragment out = frag := by
  have hn : '#' ∉ before ++ (kept.map ('?' :: ·)).getD [] := by
    rw [List.mem_append]
    cases kept
    case none   => simpa using hb
    case some q => simpa using ⟨hb, hk q rfl⟩
  have hbf : beforeFragment out = before ++ (kept.map ('?' :: ·)).getD [] := by
    rw [ho]
    exact (takeWhile_ne_append hn hf).left
  have hfo : fragment out = frag := by
    rw [ho]
    exact (takeWhile_ne_append hn hf).right
  cases kept
  case none =>
    have h := takeWhile_ne_append (f := []) hq (by simp)
    rw [Option.map_none, Option.getD_none] at hbf
    exact ⟨(congrArg _ hbf).trans h.left, if_neg (by simpa [hbf] using hq), hfo⟩
  case some q =>
    have h := takeWhile_ne_append (f := '?' :: q) hq (by simp)
    rw [Option.map_some, Option.getD_some] at hbf
    refine ⟨(congrArg _ hbf).trans h.left, ?_, hfo⟩
    rw [query?, hbf, if_pos (by simp), h.right, List.tail_cons]

theorem parts_ok (url : CString) : '#' ∉ beforeQuery url ∧ '?' ∉ beforeQuery url ∧
    (∀ q ∈ query? url, '#' ∉ q) ∧ ∀ c ∈ (fragment url).head?, c = '#' := by
  have hf : '#' ∉ beforeFragment url := not_mem_takeWhile_ne '#' url
  refine ⟨fun h => hf (List.takeWhile_subset _ h), not_mem_takeWhile_ne '?' _, ?_,
    head?_dropWhile_ne '#' url⟩
  intro q hq h
  rw [query?, Option.mem_def] at hq
  split at hq
  case isTrue =>
    cases hq
    exact hf (List.dropWhile_subset _ (List.mem_of_mem_tail h))
  case isFalse => cases hq

end Parts

section Strip

variable {url : CString}

def keptTokens (url : CString) : List CString :=
  (queryTokens url).filter (!isTracking ·)

theorem not_mem_queryTokens {t : CString} (h : t ∈ queryTokens url) : '&' ∉ t ∧ '#' ∉ t := by
  obtain ⟨-, -, hq, -⟩ := parts_ok url
  rw [queryTokens] at h
  cases hs : query? url
  case none =>
    rw [hs] at h
    cases h
  case some q =>
    rw [hs, Option.map_some, Option.getD_some] at h
    refine ⟨not_mem_of_mem_splitOn h, fun hc => hq q hs ?_⟩
    have hi : List.intercalate ['&'] (q.splitOn '&') = q := List.intercalate_splitOn '&'
    rw [← hi]
    exact mem_intercalate_of_mem h hc

theorem stripTrackingParams_of_not_isTracking (h : ∀ t ∈ queryTokens url, isTracking t = false) :
    stripTrackingParams true url = none := by
  rw [stripTrackingParams]
  split
  case isTrue  => rfl
  case isFalse =>
    have ha : (queryTokens url).any isTracking = false :=
      List.any_eq_false.mpr fun t ht => by simp [h t ht]
    rw [ha]
    rfl

theorem strippedUrl_of_isTracking (hu : isHttpOrHttps url) (ht : ∃ t ∈ queryTokens url, isTracking t) :
    strippedUrl url = beforeQuery url ++ (if (keptTokens url).foldl appendToken [] = [] then []
      else '?' :: (keptTokens url).foldl appendToken []) ++ fragment url := by
  have hq : (query? url).isNone = false := by
    obtain ⟨t, ht, -⟩ := ht
    rw [queryTokens] at ht
    cases h : query? url
    case none   => rw [h] at ht; cases ht
    case some q => rfl
  have ha : (queryTokens url).any isTracking = true := List.any_eq_true.mpr ht
  rw [strippedUrl, stripTrackingParams, hu, hq, ha]
  rfl

-- What is lost besides the tracking parameters are the empty tokens in front of all others.
theorem parts_strippedUrl (hu : isHttpOrHttps url) (ht : ∃ t ∈ queryTokens url, isTracking t) :
    queryTokens (strippedUrl url) = (keptTokens url).dropWhile (· = []) ∧
    beforeQuery (strippedUrl url) = beforeQuery url ∧ fragment (strippedUrl url) = fragment url := by
  obtain ⟨hb, hq, -, hf⟩ := parts_ok url
  have hne : ∀ t ∈ ((keptTokens url).dropWhile (· = [])).head?, t ≠ [] := by
    intro t h
    have hn := List.head?_dropWhile_not (fun t : CString => decide (t = [])) (keptTokens url)
    rw [Option.mem_def.mp h] at hn
    simpa using hn
  have hsub : ∀ t ∈ (keptTokens url).dropWhile (· = []), '&' ∉ t ∧ '#' ∉ t := fun t h =>
    not_mem_queryTokens (List.mem_filter.mp (List.dropWhile_subset _ h)).left
  have ho := strippedUrl_of_isTracking hu ht
  rw [foldl_appendToken_nil] at ho
  by_cases hr : (keptTokens url).dropWhile (· = []) = []
  case pos =>
    rw [if_pos ((intercalate_eq_nil_iff hne).mpr hr)] at ho
    have hp := parts_append none hb hq (by simp) hf (strippedUrl url) ho
    refine ⟨?_, hp.left, hp.right.right⟩
    rw [queryTokens, hp.right.left, hr]
    rfl
  case neg =>
    rw [if_neg fun hn => hr ((intercalate_eq_nil_iff hne).mp hn)] at ho
    have hk : '#' ∉ List.intercalate ['&'] ((keptTokens url).dropWhile (· = [])) := by
      intro h
      rcases mem_intercalate h with h | ⟨t, ht, hc⟩
      · cases h
      · exact (hsub t ht).right hc
    have hp := parts_append (some _) hb hq (by simpa using hk) hf (strippedUrl url) ho
    refine ⟨?_, hp.left, hp.right.right⟩
    rw [queryTokens, hp.right.left]
    exact List.splitOn_intercalate '&' (fun t h => (hsub t h).left) hr

-- Stripping a URL does what it should as long as, where it removes something, the first token that
-- stays is not empty.
theorem stripsTracking_iff (url : CString) (hu : isHttpOrHttps url) :
    StripsTracking url (strippedUrl url) ↔
      ((∃ t ∈ queryTokens url, isTracking t) →
        ((queryTokens url).filter (!isTracking ·)).head? ≠ some []) := by
  have hfilter : ∀ t ∈ keptTokens url, isTracking t = false := fun t h => by
    simpa using (List.mem_filter.mp h).right
  by_cases ht : ∃ t ∈ queryTokens url, isTracking t
  case neg =>
    have hn : ∀ t ∈ queryTokens url, isTracking t = false := fun t h => by
      simpa using fun hs => ht ⟨t, h, hs⟩
    have hs := stripTrackingParams_of_not_isTracking hn
    have ho : strippedUrl url = url := by rw [strippedUrl, hs, Option.getD_none]
    rw [ho]
    refine iff_of_true ⟨?_, rfl, rfl, hs⟩ fun h => absurd h ht
    exact (List.filter_eq_self.mpr fun t h => by simp [hn t h]).symm
  case pos =>
    obtain ⟨htokens, hbefore, hfrag⟩ := parts_strippedUrl hu ht
    constructor
    case mp =>
      intro h _ hh
      have he := htokens.symm.trans h.tokens
      obtain ⟨ts, hk⟩ := List.head?_eq_some_iff.mp hh
      change List.dropWhile (· = []) (keptTokens url) = keptTokens url at he
      change keptTokens url = _ at hk
      rw [hk, List.dropWhile_cons_of_pos (by simp)] at he
      have hl := (List.dropWhile_sublist (fun t : CString => decide (t = [])) (l := ts)).length_le
      rw [he, List.length_cons] at hl
      omega
    case mpr =>
      intro h
      have hd : (keptTokens url).dropWhile (· = []) = keptTokens url := by
        cases hk : keptTokens url
        case nil => rfl
        case cons t ts =>
          refine List.dropWhile_cons_of_neg fun he => h ht ?_
          change (keptTokens url).head? = _
          rw [hk, of_decide_eq_true he]
          rfl
      refine ⟨htokens.trans hd, hbefore, hfrag, stripTrackingParams_of_not_isTracking ?_⟩
      rw [htokens, hd]
      exact hfilter

theorem stripsTracking_keepsValue :
    StripsTracking "http://a/?q=1&utm_id=2&b#c".toList (strippedUrl "http://a/?q=1&utm_id=2&b#c".toList) := by
  refine (stripsTracking_iff _ (by decide)).mpr fun _ => ?_
  unfold isTracking queryParamIsTracking trackingParams
  simp only [List.map_cons, List.map_nil]
  repeat rw [String.toList_ofList]
  decide +kernel

-- The empty token in front of `a` is lost with the parameter that is removed.
theorem not_stripsTracking_leadingEmpty :
    ¬ ∀ url : CString, isHttpOrHttps url → StripsTracking url (strippedUrl url) := by
  intro h
  have hs := (h "http://h/?&a&utm_id=2".toList (by decide)).tokens
  revert hs
  unfold strippedUrl stripTrackingParams isTracking queryParamIsTracking trackingParams
  simp only [List.map_cons, List.map_nil]
  repeat rw [String.toList_ofList]
  decide +kernel

end Strip

end Nordstjernen.Net
