import Nordstjernen.Net.Csp.Policy

open Nordstjernen.Glib

namespace Nordstjernen.Net

section Parts

variable (rest : CString)

-- The parts of a host-source, behind its scheme.
def sourceHost : CString :=
  rest.takeWhile fun c => c != ':' && c != '/'

def sourcePort : CString :=
  match rest.drop (sourceHost rest).length with
  | ':' :: tl => tl.takeWhile (· != '/')
  | _         => []

def sourcePath : CString :=
  rest.dropWhile (· != '/')

end Parts

-- The schemes that a scheme-source may have.
def isSchemeSource (scheme : CString) : Prop :=
  ∃ s ∈ ["https".toList, "http".toList, "wss".toList, "ws".toList, "data".toList, "blob".toList], strcaseEq scheme s

def HasScheme (url scheme : CString) : Prop :=
  hasCasePrefix url scheme ∧ (url.drop scheme.length).head? = some ':'

instance {scheme : CString} : Decidable (isSchemeSource scheme) :=
  inferInstanceAs (Decidable (∃ s ∈ _, _))

-- A keyword, a nonce or a hash.
def IsQuoted (src : CString) : Prop :=
  ∃ s, src = '\'' :: s ++ ['\'']

-- The quoted tokens that `source_matches` knows.
def keywords : List CString :=
  ["'none'".toList, "'self'".toList, "'unsafe-inline'".toList, "'unsafe-eval'".toList, "'strict-dynamic'".toList]

namespace CspLib

variable (L : CspLib) (list : List CString) (resUrl : CString) (docUrl : Option CString)

-- Whether a URL is at the host that the parts of a source are about.
def IsAt (rest : CString) : Prop :=
  ∃ res ∈ L.urlParts resUrl, hostMatches (sourceHost rest) res.hostname ∧
    cspPortMatches (sourcePort rest) res.port res.protocol ∧ cspPathMatches (sourcePath rest) res.pathname

def IsAtForDoc (rest : CString) : Prop :=
  ∃ res ∈ L.urlParts resUrl, L.docSchemeMatches resUrl res docUrl ∧ hostMatches (sourceHost rest) res.hostname ∧
    cspPortMatches (sourcePort rest) res.port res.protocol ∧ cspPathMatches (sourcePath rest) res.pathname

-- What is asked of a list of sources.
structure SchemesCover : Prop where
  scheme : ∀ src ∈ list, ∀ scheme rest, splitScheme src = some (scheme, rest) →
    L.sourceMatches src resUrl docUrl → L.sourceMatches (scheme ++ [':']) resUrl docUrl
  quoted : ∀ src ∈ list, IsQuoted src → src ≠ "'self'".toList → ¬L.sourceMatches src resUrl docUrl

-- What decides about it. The scheme of a URL must not be that of a source after an upgrade only, unless
-- the scheme is none of a scheme-source and the URL is at a host of this name; and a URL must not be at
-- what the text of a keyword, a nonce or a hash reads as.
structure SchemesFit : Prop where
  scheme : ∀ src ∈ list, ∀ scheme rest, splitScheme src = some (scheme, rest) →
    schemePartMatches scheme resUrl → L.IsAt resUrl rest →
    if isSchemeSource scheme then HasScheme resUrl scheme else L.IsAtForDoc resUrl docUrl (scheme ++ [':'])
  quoted : ∀ src ∈ list, IsQuoted src → src ∉ keywords →
    match splitScheme src with
    | some (scheme, rest) => ¬(schemePartMatches scheme resUrl ∧ L.IsAt resUrl rest)
    | none                => ¬L.IsAtForDoc resUrl docUrl src

end CspLib

section Text

variable {c : Char} {src scheme rest url : CString}

theorem splitScheme_of_not (h : ∀ tl, c :: src ≠ ':' :: '/' :: '/' :: tl) :
    splitScheme (c :: src) = (splitScheme src).map fun (scheme, rest) => (c :: scheme, rest) := by
  rw [splitScheme]
  rintro tl rfl rfl
  exact h tl rfl

theorem eq_of_splitScheme (h : splitScheme src = some (scheme, rest)) : src = scheme ++ "://".toList ++ rest := by
  induction src using splitScheme.induct generalizing scheme
  case case1 => cases h
  case case2 tl =>
    obtain ⟨rfl, rfl⟩ := Prod.mk.inj (Option.some.inj h)
    rfl
  case case3 c tl hc ih =>
    rw [splitScheme_of_not fun tl' he => hc tl' (List.cons.inj he).left (List.cons.inj he).right] at h
    have ⟨⟨s, r⟩, hs, he⟩ := Option.map_eq_some_iff.mp h
    obtain ⟨rfl, rfl⟩ := Prod.mk.inj he
    rw [ih hs]
    rfl

theorem splitScheme_append (more : CString) (h : splitScheme src = some (scheme, rest)) :
    splitScheme (src ++ more) = some (scheme, rest ++ more) := by
  induction src using splitScheme.induct generalizing scheme
  case case1 => cases h
  case case2 tl =>
    obtain ⟨rfl, rfl⟩ := Prod.mk.inj (Option.some.inj h)
    rfl
  case case3 c tl hc ih =>
    rw [splitScheme_of_not fun tl' he => hc tl' (List.cons.inj he).left (List.cons.inj he).right] at h
    have ⟨⟨s, r⟩, hs, he⟩ := Option.map_eq_some_iff.mp h
    obtain ⟨rfl, rfl⟩ := Prod.mk.inj he
    rw [List.cons_append, splitScheme_of_not, ih hs, Option.map_some]
    -- What is split has three characters, so a pattern here would have been one before.
    intro tl' he
    have hlen := congrArg List.length (eq_of_splitScheme hs)
    cases tl
    case nil => simp at hlen
    case cons d tl =>
      cases tl
      case nil          => simp at hlen; omega
      case cons e tl    =>
        obtain ⟨rfl, rfl, rfl, -⟩ : c = ':' ∧ d = '/' ∧ e = '/' ∧ tl ++ more = tl' := by simpa using he
        exact hc tl rfl rfl

-- A scheme has no other `://` in it.
theorem splitScheme_scheme (h : splitScheme src = some (scheme, rest)) : splitScheme (scheme ++ [':']) = none := by
  cases hs : splitScheme (scheme ++ [':'])
  case none => rfl
  case some p =>
    have hlen := congrArg List.length (eq_of_splitScheme hs)
    have happ := splitScheme_append ("//".toList ++ rest) hs
    have he : scheme ++ [':'] ++ ("//".toList ++ rest) = src := by
      rw [eq_of_splitScheme h]
      simp
    rw [he, h] at happ
    rw [(Prod.mk.inj (Option.some.inj happ)).left] at hlen
    simp at hlen

theorem strcaseEq_colon {s : CString} : strcaseEq (scheme ++ [':']) (s ++ [':']) ↔ strcaseEq scheme s := by
  simp [strcaseEq_iff, gAsciiStrdown_append]

theorem urlSchemeMatches_iff : urlSchemeMatches url (scheme ++ [':']) ↔ HasScheme url scheme := by
  simp [urlSchemeMatches, HasScheme]

theorem hostSourceMatches_iff {res : UrlParts} : CspLib.hostSourceMatches rest res ↔
    hostMatches (sourceHost rest) res.hostname ∧ cspPortMatches (sourcePort rest) res.port res.protocol ∧
      cspPathMatches (sourcePath rest) res.pathname := by
  simp only [CspLib.hostSourceMatches, Bool.and_eq_true, and_assoc]
  rfl

end Text

namespace CspLib

variable {L : CspLib} {list : List CString} {src scheme rest resUrl : CString} {docUrl : Option CString}

theorem any_urlParts_iff {p : UrlParts → Bool} :
    (L.urlParts resUrl).any p ↔ ∃ res ∈ L.urlParts resUrl, p res := by
  cases L.urlParts resUrl <;> simp

theorem notMem_of_splitScheme (h : splitScheme src = some (scheme, rest)) {known : List CString}
    (hk : ∀ s ∈ known, splitScheme s = none) : src ∉ known := by
  intro hm
  rw [hk src hm] at h
  cases h

-- What is left where a source is none of those with a meaning of their own.
theorem sourceMatches_of_other (hn : src ≠ []) (ha : src ≠ ['*']) (hk : src ∉ keywords)
    (hs : ¬["https:", "http:", "wss:", "ws:", "data:", "blob:"].any (strcaseEq src ·.toList)) :
    L.sourceMatches src resUrl docUrl ↔
      match splitScheme src with
      | some (scheme, rest) => schemePartMatches scheme resUrl ∧ L.IsAt resUrl rest
      | none                => L.IsAtForDoc resUrl docUrl src := by
  simp only [keywords, List.mem_cons, List.not_mem_nil, or_false, not_or] at hk
  obtain ⟨hnone, hself, hinline, heval, hdynamic⟩ := hk
  rw [sourceMatches, if_neg (not_or.mpr ⟨hn, hnone⟩), if_neg ha, if_neg hself,
    if_neg (not_or.mpr ⟨hinline, not_or.mpr ⟨heval, hdynamic⟩⟩), if_neg hs]
  cases splitScheme src
  case none   => simp only [any_urlParts_iff, Bool.and_eq_true, hostSourceMatches_iff, IsAtForDoc]
  case some p => simp only [Bool.and_eq_true, any_urlParts_iff, hostSourceMatches_iff, IsAt]

-- Some character of a source is in none of the names that it is compared with.
theorem not_any_strcaseEq {c : Char} (h : c ∈ src) {names : List String}
    (hn : ∀ s ∈ names, gAsciiTolower c ∉ gAsciiStrdown s.toList) : ¬names.any (strcaseEq src ·.toList) := by
  intro hs
  obtain ⟨s, hm, he⟩ := List.any_eq_true.mp hs
  apply hn s hm
  rw [← strcaseEq_iff.mp he]
  exact List.mem_map_of_mem h

theorem sourceMatches_of_split (h : splitScheme src = some (scheme, rest)) :
    L.sourceMatches src resUrl docUrl ↔ schemePartMatches scheme resUrl ∧ L.IsAt resUrl rest := by
  rw [sourceMatches_of_other, h]
  case hn => rintro rfl; cases h
  case ha => rintro rfl; cases h
  case hk => exact notMem_of_splitScheme h (by decide)
  case hs =>
    refine not_any_strcaseEq (c := '/') ?_ (by decide)
    rw [eq_of_splitScheme h]
    simp

theorem any_schemes_iff :
    ["https:", "http:", "wss:", "ws:", "data:", "blob:"].any (strcaseEq (scheme ++ [':']) ·.toList) ↔
      isSchemeSource scheme := by
  have hc (s : CString) : strcaseEq (scheme ++ [':']) (s ++ [':']) = strcaseEq scheme s :=
    Bool.eq_iff_iff.mpr strcaseEq_colon
  have he : (["https:", "http:", "wss:", "ws:", "data:", "blob:"].map String.toList) =
    ["https".toList, "http".toList, "wss".toList, "ws".toList, "data".toList, "blob".toList].map (· ++ [':']) := rfl
  have hm : (["https:", "http:", "wss:", "ws:", "data:", "blob:"].any (strcaseEq (scheme ++ [':']) ·.toList)) =
    (["https:", "http:", "wss:", "ws:", "data:", "blob:"].map String.toList).any (strcaseEq (scheme ++ [':']) ·) := rfl
  rw [hm, he, List.any_map, List.any_eq_true]
  simp only [Function.comp_apply, hc]
  rfl

theorem sourceMatches_bare (h : splitScheme src = some (scheme, rest)) :
    L.sourceMatches (scheme ++ [':']) resUrl docUrl ↔
      if isSchemeSource scheme then HasScheme resUrl scheme else L.IsAtForDoc resUrl docUrl (scheme ++ [':']) := by
  have hlast : (scheme ++ [':']).getLast? = some ':' := by simp
  have hne {s : CString} (hs : s.getLast? ≠ some ':') : scheme ++ [':'] ≠ s := fun he => hs (he ▸ hlast)
  have hk : scheme ++ [':'] ∉ keywords := by
    intro hm
    have : ∀ s ∈ keywords, s.getLast? ≠ some ':' := by decide
    exact this _ hm hlast
  split
  case isTrue hs =>
    rw [← urlSchemeMatches_iff, sourceMatches, if_neg (not_or.mpr ⟨hne (by decide), hne (by decide)⟩),
      if_neg (hne (by decide)), if_neg (hne (by decide)),
      if_neg (not_or.mpr ⟨hne (by decide), not_or.mpr ⟨hne (by decide), hne (by decide)⟩⟩),
      if_pos (any_schemes_iff.mpr hs)]
  case isFalse hs =>
    rw [sourceMatches_of_other (hne (by decide)) (hne (by decide)) hk (any_schemes_iff.not.mpr hs),
      splitScheme_scheme h]

theorem sourceMatches_quoted (hq : IsQuoted src) (hk : src ∉ keywords) :
    L.sourceMatches src resUrl docUrl ↔
      match splitScheme src with
      | some (scheme, rest) => schemePartMatches scheme resUrl ∧ L.IsAt resUrl rest
      | none                => L.IsAtForDoc resUrl docUrl src := by
  obtain ⟨s, rfl⟩ := hq
  refine sourceMatches_of_other (by simp) (by simp) hk (not_any_strcaseEq (c := '\'') (by simp) (by decide))

theorem not_sourceMatches_keyword (hk : src ∈ keywords) (hs : src ≠ "'self'".toList) :
    ¬L.sourceMatches src resUrl docUrl := by
  simp only [keywords, List.mem_cons, List.not_mem_nil, or_false] at hk
  obtain rfl | rfl | rfl | rfl | rfl := hk
  case inr.inl => exact absurd rfl hs
  all_goals
    rw [sourceMatches]
    simp

theorem schemesCover_iff : L.SchemesCover list resUrl docUrl ↔ L.SchemesFit list resUrl docUrl := by
  constructor
  case mp =>
    intro h
    refine ⟨fun src hm scheme rest hs hp ha => ?_, fun src hm hq hk => ?_⟩
    · exact (sourceMatches_bare hs).mp (h.scheme src hm scheme rest hs ((sourceMatches_of_split hs).mpr ⟨hp, ha⟩))
    · have hself : src ≠ "'self'".toList := by
        rintro rfl
        exact hk (by decide)
      have hn := mt (sourceMatches_quoted hq hk).mpr (h.quoted src hm hq hself)
      split
      case h_1 scheme rest he => rw [he] at hn; exact hn
      case h_2 he             => rw [he] at hn; exact hn
  case mpr =>
    intro h
    refine ⟨fun src hm scheme rest hs ha => ?_, fun src hm hq hself => ?_⟩
    · have ⟨hp, ha⟩ := (sourceMatches_of_split hs).mp ha
      exact (sourceMatches_bare hs).mpr (h.scheme src hm scheme rest hs hp ha)
    · by_cases hk : src ∈ keywords
      case pos => exact not_sourceMatches_keyword hk hself
      case neg =>
        have hn := h.quoted src hm hq hk
        rw [sourceMatches_quoted hq hk]
        split
        case h_1 scheme rest he => rw [he] at hn; exact hn
        case h_2 he             => rw [he] at hn; exact hn

section Hosts

def quotedHostUrl : CString :=
  "http://'nonce-x'/".toList

def quotedHost : UrlParts :=
  { Platform.frontPage with
    protocol           := "http:".toList
    hostname           := "'nonce-x'".toList
    hostname_printable := by simp
    hostname_no_hash   := by decide }

def twoHosts : CspLib where
  urlParts url :=
    if url = Platform.frontPageUrl then some Platform.frontPage
    else if url = quotedHostUrl then some quotedHost
    else none
  registrableDomain host := some host
  isPublicSuffix _       := false
  getdate _              := none
  origin _               := none
  host _                 := none
  resolve _ _            := none
  resolve_http _ h       := by cases h
  digest _ body          := body

-- A page behind an upgrade, and one whose host is called like a nonce.
theorem not_schemesCover_upgrade :
    ¬twoHosts.SchemesCover ["http://example.org".toList] Platform.frontPageUrl none ∧
    ¬twoHosts.SchemesCover ["'nonce-x'".toList] quotedHostUrl none :=
  ⟨fun h => absurd (h.scheme _ List.mem_cons_self "http".toList "example.org".toList (by decide +kernel)
      (by decide +kernel)) (by decide +kernel),
    fun h => h.quoted _ List.mem_cons_self ⟨"nonce-x".toList, by decide +kernel⟩ (by decide +kernel)
      (by decide +kernel)⟩

end Hosts

end CspLib

end Nordstjernen.Net
