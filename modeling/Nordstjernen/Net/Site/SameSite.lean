import Nordstjernen.Net.Url

open Nordstjernen.Glib

namespace Nordstjernen.Net

def isDigits (s : CString) : Bool :=
  s ≠ [] && s.all Char.isDigit

-- An address as the URL parser writes it.
structure Ipv4 where
  a         : CString
  b         : CString
  c         : CString
  d         : CString
  digits_ok : (isDigits a && isDigits b && isDigits c && isDigits d) = true

def Ipv4.network (ip : Ipv4) : CString :=
  ip.c ++ '.' :: ip.d

def Ipv4.text (ip : Ipv4) : CString :=
  ip.a ++ '.' :: (ip.b ++ '.' :: ip.network)

def IsIp (host : CString) : Prop :=
  (∃ ip : Ipv4, host = ip.text) ∨ host.getLast? = some ']'

-- What the URL parser says of the parts of an http(s) URL: a host in brackets is the only one with
-- colons, and one whose last label is a number is an address.
structure WebParts (parts : UrlParts) : Prop where
  protocol : parts.protocol = "http:".toList ∨ parts.protocol = "https:".toList
  lower    : gAsciiStrdown parts.hostname = parts.hostname
  port     : ∀ c ∈ parts.port, c.isDigit
  brackets : ':' ∈ parts.hostname → parts.hostname.getLast? = some ']'
  number   : isDigits (parts.hostname.rtakeWhile (· ≠ '.')) → ∃ ip : Ipv4, parts.hostname = ip.text

-- The libraries behind `ns_url_site_from`. A registrable domain is an end of the name, and its own one;
-- that of a name without a rule is its last two labels, of which an address in brackets has only one.
structure SiteLib extends UrlLib where
  web_parts    : ∀ {url parts}, isHttpOrHttps url → urlParts url = some parts → WebParts parts
  reg_suffix   : ∀ {h d}, registrableDomain h = some d → d ≠ [] ∧ d <:+ h
  reg_idem     : ∀ {h d}, registrableDomain h = some d → registrableDomain d = some d
  reg_ipv4     : ∀ ip : Ipv4, registrableDomain ip.text = some ip.network
  reg_brackets : ∀ {h : CString}, h.getLast? = some ']' → registrableDomain h = none

namespace SiteLib

variable (S : SiteLib)

structure WebUrl where
  url    : CString
  parts  : UrlParts
  isWeb  : isHttpOrHttps url
  parsed : S.urlParts url = some parts

variable {S}

def sameSite (u v : S.WebUrl) : Prop :=
  S.isSameSite u.url v.url

-- An address has no registrable domain.
def SameDomain (u v : S.WebUrl) : Prop :=
  ¬IsIp u.parts.hostname ∧ ¬IsIp v.parts.hostname ∧
    ∃ d, S.registrableDomain u.parts.hostname = some d ∧ S.registrableDomain v.parts.hostname = some d

def Separates (u v : S.WebUrl) : Prop :=
  sameSite u v → u.parts.hostname = v.parts.hostname ∨ SameDomain u v

-- Whether the last two numbers of two addresses are the same, but not the addresses.
def Aliased (u v : S.WebUrl) : Prop :=
  u.parts.protocol = v.parts.protocol ∧ u.parts.port = v.parts.port ∧
  ∃ ip ip' : Ipv4, u.parts.hostname = ip.text ∧ v.parts.hostname = ip'.text ∧
    ip.text ≠ ip'.text ∧ ip.network = ip'.network

end SiteLib

section Lower

variable {s t : CString}

def IsLower (s : CString) : Prop :=
  gAsciiStrdown s = s

theorem IsLower.append (hs : IsLower s) (ht : IsLower t) : IsLower (s ++ t) := by
  rw [IsLower, gAsciiStrdown_append, hs, ht]

theorem IsLower.of_suffix (hs : IsLower s) (h : t <:+ s) : IsLower t := by
  obtain ⟨u, rfl⟩ := h
  rw [IsLower, gAsciiStrdown_append] at hs
  exact (List.append_inj hs (length_gAsciiStrdown u)).right

theorem isAlpha_of_isDigit {c : Char} (h : c.isDigit) : c.isAlpha = false := by
  rw [Char.isDigit, Bool.and_eq_true, decide_eq_true_eq, decide_eq_true_eq] at h
  have h₁ : c.val.toNat ≤ 57 := UInt32.le_iff_toNat_le.mp h.right
  refine Bool.or_eq_false_iff.mpr ?_
  constructor <;> refine Bool.eq_false_iff.mpr fun hc => ?_
  · have h₂ : 65 ≤ c.val.toNat := UInt32.le_iff_toNat_le.mp (of_decide_eq_true hc).left
    omega
  · have hc := Bool.and_eq_true_iff.mp hc
    have h₂ : 97 ≤ c.val.toNat := UInt32.le_iff_toNat_le.mp (of_decide_eq_true hc.left)
    omega

theorem isLower_of_isDigit (h : ∀ c ∈ s, c.isDigit) : IsLower s :=
  (List.map_congr_left fun c hc =>
    (gAsciiTolower_eq_iff (isAlpha_of_isDigit (h c hc))).mpr rfl).trans (List.map_id s)

end Lower

section Ipv4

variable {s t u v : CString} {ip ip' : Ipv4}

theorem dot_not_mem_of_isDigits (h : isDigits s) : '.' ∉ s := by
  rw [isDigits, Bool.and_eq_true, List.all_eq_true] at h
  exact fun hm => absurd (h.right '.' hm) nofun

theorem Ipv4.digits (ip : Ipv4) : isDigits ip.c ∧ isDigits ip.d := by
  have h := ip.digits_ok
  simp only [Bool.and_eq_true] at h
  exact ⟨h.left.right, h.right⟩

theorem takeWhile_dot (h : '.' ∉ s) : (s ++ '.' :: t).takeWhile (· ≠ '.') = s := by
  have hs : ∀ c ∈ s, decide (c ≠ '.') = true := fun c hc => decide_eq_true fun he => h (he ▸ hc)
  rw [List.takeWhile_append_of_pos hs, List.takeWhile_cons_of_neg (by simp), List.append_nil]

theorem Ipv4.network_inj (h : ip.network = ip'.network) : ip.c = ip'.c ∧ ip.d = ip'.d := by
  have hc := congrArg (List.takeWhile (· ≠ '.')) h
  rw [network, network, takeWhile_dot (dot_not_mem_of_isDigits ip.digits.left),
    takeWhile_dot (dot_not_mem_of_isDigits ip'.digits.left)] at hc
  rw [network, network, hc] at h
  exact ⟨hc, (List.cons.inj (List.append_cancel_left h)).right⟩

-- The last label of a text is what follows its last dot.
theorem rtakeWhile_dot (h : '.' ∉ t) : (s ++ '.' :: t).rtakeWhile (· ≠ '.') = t := by
  have hr : (s ++ '.' :: t).reverse = t.reverse ++ '.' :: s.reverse := by simp
  have ht : ∀ c ∈ t.reverse, decide (c ≠ '.') = true := fun c hc =>
    decide_eq_true fun he => h (he ▸ List.mem_reverse.mp hc)
  rw [List.rtakeWhile, hr, List.takeWhile_append_of_pos ht, List.takeWhile_cons_of_neg (by simp),
    List.append_nil, List.reverse_reverse]

theorem rtakeWhile_of_network_suffix (h : ip.network <:+ s) : s.rtakeWhile (· ≠ '.') = ip.d := by
  obtain ⟨t, rfl⟩ := h
  rw [Ipv4.network, ← List.append_assoc]
  exact rtakeWhile_dot (dot_not_mem_of_isDigits ip.digits.right)

end Ipv4

section Port

variable {s t p q : CString}

def portText (port : CString) : CString :=
  if port = [] then [] else ':' :: port

-- A host in brackets is the only one that a colon is in, so that a port is told apart.
theorem append_portText_inj (hs : ':' ∈ s → s.getLast? = some ']') (ht : ':' ∈ t → t.getLast? = some ']')
    (hp : ∀ c ∈ p, c.isDigit) (hq : ∀ c ∈ q, c.isDigit) (h : s ++ portText p = t ++ portText q) :
    s = t ∧ p = q := by
  have key {s t p q : CString} (hp : ∀ c ∈ p, c.isDigit) (ht : ':' ∈ t → t.getLast? = some ']')
      {c : CString} (he : t = s ++ c) (hc : portText p = c ++ portText q) : s = t ∧ p = q := by
    cases c
    case nil =>
      refine ⟨by rw [he, List.append_nil], ?_⟩
      rw [portText, portText, List.nil_append] at hc
      split at hc <;> split at hc <;> simp_all
    case cons d c =>
      rw [portText] at hc
      split at hc
      case isTrue => cases hc
      case isFalse =>
        obtain ⟨rfl, rfl⟩ := List.cons.inj hc
        have hl := ht (he ▸ List.mem_append_right _ List.mem_cons_self)
        rw [he, List.getLast?_append_of_ne_nil _ (List.cons_ne_nil _ _)] at hl
        -- The last character of `t` is a digit of the port, or the colon.
        rcases List.mem_cons.mp (List.mem_of_getLast? hl) with hm | hm
        · cases hm
        · exact absurd (hp ']' (List.mem_append_left _ hm)) nofun
  rcases List.append_eq_append_iff.mp h with ⟨c, he, hc⟩ | ⟨c, he, hc⟩
  · exact key hp ht he hc
  · exact (key hq hs he hc).imp Eq.symm Eq.symm

end Port

namespace SiteLib

variable {S : SiteLib} {u v w : S.WebUrl}

def siteHost (S : SiteLib) (host : CString) : CString :=
  match S.registrableDomain host with
  | some (c :: cs) => c :: cs
  | _              => host

theorem siteFrom_eq (u : S.WebUrl) : S.siteFrom u.url =
    some (u.parts.protocol ++ ("://".toList ++ (S.siteHost u.parts.hostname ++ portText u.parts.port))) := by
  have hp := S.web_parts u.isWeb u.parsed
  have hne : u.url ≠ [] := fun h => absurd u.isWeb (by rw [h]; nofun)
  rw [Platform.siteFrom, if_neg hne, u.parsed]
  simp only [Option.pure_def, Option.bind_eq_bind, Option.bind_some, hp.lower]
  rw [portText]
  split
  case isTrue  => simp only [List.append_nil, List.append_assoc]; rfl
  case isFalse => simp only [List.append_assoc]; rfl

section Host

variable {h d : CString}

theorem siteHost_of_some (hr : S.registrableDomain h = some d) : S.siteHost h = d := by
  have hn := (S.reg_suffix hr).left
  cases d
  case nil  => exact absurd rfl hn
  case cons => rw [siteHost, hr]

theorem siteHost_of_none (hr : S.registrableDomain h = none) : S.siteHost h = h := by
  rw [siteHost, hr]

theorem siteHost_suffix (S : SiteLib) (h : CString) : S.siteHost h <:+ h := by
  cases hr : S.registrableDomain h
  case none => exact (siteHost_of_none hr).symm ▸ List.suffix_rfl
  case some => rw [siteHost_of_some hr]; exact (S.reg_suffix hr).right

theorem siteHost_ipv4 (ip : Ipv4) : S.siteHost ip.text = ip.network :=
  siteHost_of_some (S.reg_ipv4 ip)

end Host

theorem WebUrl.webParts (u : S.WebUrl) : WebParts u.parts :=
  S.web_parts u.isWeb u.parsed

theorem isLower_siteHost (u : S.WebUrl) : IsLower (S.siteHost u.parts.hostname) :=
  IsLower.of_suffix u.webParts.lower (siteHost_suffix ..)

theorem brackets_siteHost (u : S.WebUrl) (h : ':' ∈ S.siteHost u.parts.hostname) :
    (S.siteHost u.parts.hostname).getLast? = some ']' := by
  have hb := u.webParts.brackets ((siteHost_suffix ..).subset h)
  rw [siteHost_of_none (S.reg_brackets hb)]
  exact hb

-- Two URLs have one site if the scheme, the host of the site and the port are the same.
theorem sameSite_iff : sameSite u v ↔ u.parts.protocol = v.parts.protocol ∧
    S.siteHost u.parts.hostname = S.siteHost v.parts.hostname ∧ u.parts.port = v.parts.port := by
  have hlow (u : S.WebUrl) : IsLower (u.parts.protocol ++
      ("://".toList ++ (S.siteHost u.parts.hostname ++ portText u.parts.port))) := by
    have hp : IsLower u.parts.protocol := by
      rcases u.webParts.protocol with h | h <;> rw [h] <;> rfl
    have ht : IsLower (portText u.parts.port) := by
      rw [portText]
      split
      case isTrue  => rfl
      case isFalse => exact IsLower.append (s := [':']) rfl (isLower_of_isDigit u.webParts.port)
    exact hp.append (IsLower.append rfl ((isLower_siteHost u).append ht))
  have he : sameSite u v ↔ u.parts.protocol ++ ("://".toList ++ (S.siteHost u.parts.hostname ++
      portText u.parts.port)) = v.parts.protocol ++ ("://".toList ++ (S.siteHost v.parts.hostname ++
      portText v.parts.port)) := by
    rw [sameSite, UrlLib.isSameSite, siteFrom_eq, siteFrom_eq]
    dsimp only
    rw [strcaseEq_iff, hlow u, hlow v]
  rw [he]
  constructor
  case mpr =>
    rintro ⟨hp, hh, hport⟩
    rw [hp, hh, hport]
  case mp =>
    intro h
    have hp : u.parts.protocol = v.parts.protocol := by
      rcases u.webParts.protocol with hu | hu <;> rcases v.webParts.protocol with hv | hv
      · rw [hu, hv]
      · rw [hu, hv] at h
        cases h
      · rw [hu, hv] at h
        cases h
      · rw [hu, hv]
    rw [hp] at h
    have h := List.append_cancel_left (List.append_cancel_left h)
    exact ⟨hp, append_portText_inj (brackets_siteHost u) (brackets_siteHost v) u.webParts.port
      v.webParts.port h⟩

theorem sameSite_equivalence (S : SiteLib) : Equivalence (sameSite (S := S)) where
  refl _    := sameSite_iff.2 ⟨rfl, rfl, rfl⟩
  symm h    := by
    obtain ⟨hp, hh, hport⟩ := sameSite_iff.1 h
    exact sameSite_iff.2 ⟨hp.symm, hh.symm, hport.symm⟩
  trans h k := by
    obtain ⟨hp, hh, hport⟩ := sameSite_iff.1 h
    obtain ⟨kp, kh, kport⟩ := sameSite_iff.1 k
    exact sameSite_iff.2 ⟨hp.trans kp, hh.trans kh, hport.trans kport⟩

section Separate

-- A host whose registrable domain is the end of an address is an address.
theorem exists_ipv4 {ip : Ipv4} (u : S.WebUrl)
    (h : S.registrableDomain u.parts.hostname = some ip.network) :
    ∃ ip' : Ipv4, u.parts.hostname = ip'.text ∧ ip'.network = ip.network := by
  have hl := rtakeWhile_of_network_suffix (S.reg_suffix h).right
  obtain ⟨ip', he⟩ := u.webParts.number (by rw [hl]; exact ip.digits.right)
  rw [he, S.reg_ipv4] at h
  exact ⟨ip', he, Option.some.inj h⟩

theorem hosts_eq_of_ipv4 (hn : ¬Aliased u v) (hs : sameSite u v) {ip ip' : Ipv4}
    (hu : u.parts.hostname = ip.text) (hv : v.parts.hostname = ip'.text)
    (he : ip.network = ip'.network) : u.parts.hostname = v.parts.hostname := by
  obtain ⟨hp, -, hport⟩ := sameSite_iff.1 hs
  by_contra hne
  exact hn ⟨hp, hport, ip, ip', hu, hv, fun h => hne (hu.trans (h.trans hv.symm)), he⟩

theorem separates_of_not_aliased (hn : ¬Aliased u v) : Separates u v := by
  intro hs
  have hh := (sameSite_iff.1 hs).right.left
  cases hu : S.registrableDomain u.parts.hostname <;> cases hv : S.registrableDomain v.parts.hostname
  case none.none =>
    rw [siteHost_of_none hu, siteHost_of_none hv] at hh
    exact .inl hh
  case none.some d =>
    rw [siteHost_of_none hu, siteHost_of_some hv] at hh
    rw [hh, S.reg_idem hv] at hu
    cases hu
  case some.none d =>
    rw [siteHost_of_some hu, siteHost_of_none hv] at hh
    rw [← hh, S.reg_idem hu] at hv
    cases hv
  case some.some d d' =>
    rw [siteHost_of_some hu, siteHost_of_some hv] at hh
    subst hh
    have hb {u : S.WebUrl} (h : S.registrableDomain u.parts.hostname = some d) :
        u.parts.hostname.getLast? ≠ some ']' := fun hb => by
      rw [S.reg_brackets hb] at h
      cases h
    by_cases hiu : ∃ ip : Ipv4, u.parts.hostname = ip.text
    case pos =>
      obtain ⟨ip, hip⟩ := hiu
      rw [hip, S.reg_ipv4] at hu
      cases hu
      obtain ⟨ip', hip', he⟩ := exists_ipv4 v hv
      exact .inl (hosts_eq_of_ipv4 hn hs hip hip' he.symm)
    case neg =>
      by_cases hiv : ∃ ip : Ipv4, v.parts.hostname = ip.text
      case pos =>
        obtain ⟨ip, hip⟩ := hiv
        rw [hip, S.reg_ipv4] at hv
        cases hv
        obtain ⟨ip', hip', -⟩ := exists_ipv4 u hu
        exact absurd ⟨ip', hip'⟩ hiu
      case neg =>
        exact .inr ⟨fun h => h.elim hiu (hb hu), fun h => h.elim hiv (hb hv), d, hu, hv⟩

-- To be of one site is an equivalence. It keeps hosts apart, other than addresses which end in the same
-- two numbers.
theorem sameSite_equivalence_and_separates_iff (S : SiteLib) :
    Equivalence (sameSite (S := S)) ∧ ∀ u v : S.WebUrl, Separates u v ↔ ¬Aliased u v := by
  refine ⟨sameSite_equivalence S, fun u v => ⟨?_, separates_of_not_aliased⟩⟩
  rintro h ⟨hp, hport, ip, ip', hu, hv, hne, he⟩
  have hs : sameSite u v := by
    refine sameSite_iff.2 ⟨hp, ?_, hport⟩
    rw [hu, hv, siteHost_ipv4, siteHost_ipv4, he]
  rcases h hs with h | ⟨hi, -⟩
  · exact hne (hu.symm.trans (h.trans hv))
  · exact hi (.inl ⟨ip, hu⟩)

end Separate

section Addresses

-- The last two labels of a name, as where it has no rule.
def lastTwo (h : CString) : Option CString :=
  if h.getLast? = some ']' then none
  else
    match h.splitOn '.' with
    | [_, _, c, d] => some (c ++ '.' :: d)
    | [c, d]       => some (c ++ '.' :: d)
    | _            => none

theorem splitOn_network (ip : Ipv4) : ip.network.splitOn '.' = [ip.c, ip.d] := by
  rw [Ipv4.network, List.splitOn_append_cons_self_of_not_mem (dot_not_mem_of_isDigits ip.digits.left),
    List.splitOn_eq_singleton (dot_not_mem_of_isDigits ip.digits.right)]

theorem splitOn_text (ip : Ipv4) : ip.text.splitOn '.' = [ip.a, ip.b, ip.c, ip.d] := by
  have h := ip.digits_ok
  simp only [Bool.and_eq_true] at h
  rw [Ipv4.text, List.splitOn_append_cons_self_of_not_mem (dot_not_mem_of_isDigits h.left.left.left),
    List.splitOn_append_cons_self_of_not_mem (dot_not_mem_of_isDigits h.left.left.right), splitOn_network]

theorem lastTwo_ipv4 (ip : Ipv4) : lastTwo ip.text = some ip.network := by
  have hd := ip.digits.right
  rw [isDigits, Bool.and_eq_true, decide_eq_true_eq, List.all_eq_true] at hd
  have ht : ip.text = (ip.a ++ '.' :: (ip.b ++ '.' :: (ip.c ++ ['.']))) ++ ip.d := by
    simp [Ipv4.text, Ipv4.network]
  have hl : ip.text.getLast? ≠ some ']' := fun h => by
    rw [ht, List.getLast?_append_of_ne_nil _ hd.left] at h
    exact absurd (hd.right ']' (List.mem_of_getLast? h)) nofun
  rw [lastTwo, if_neg hl, splitOn_text]
  rfl

-- What the last two labels are taken from.
theorem lastTwo_eq_some {h d : CString} (hd : lastTwo h = some d) : h.getLast? ≠ some ']' ∧
    ∃ s c e, h = s ++ d ∧ d = c ++ '.' :: e ∧ '.' ∉ c ∧ '.' ∉ e := by
  have hi : List.intercalate ['.'] (h.splitOn '.') = h := List.intercalate_splitOn '.'
  have hm (l : CString) (hl : l ∈ h.splitOn '.') : '.' ∉ l := not_mem_of_mem_splitOn hl
  rw [lastTwo] at hd
  split at hd
  case isTrue => cases hd
  case isFalse hl =>
    refine ⟨hl, ?_⟩
    split at hd
    case h_1 a b c e he =>
      cases hd
      rw [he] at hi hm
      exact ⟨a ++ '.' :: (b ++ ['.']), c, e, by simp [← hi], rfl, hm c (by simp), hm e (by simp)⟩
    case h_2 c e he =>
      cases hd
      rw [he] at hi hm
      exact ⟨[], c, e, by simp [← hi], rfl, hm c (by simp), hm e (by simp)⟩
    case h_3 => cases hd

theorem lastTwo_suffix {h d : CString} (hd : lastTwo h = some d) : d ≠ [] ∧ d <:+ h := by
  obtain ⟨-, s, c, e, rfl, rfl, -, -⟩ := lastTwo_eq_some hd
  exact ⟨by simp, List.suffix_append s _⟩

theorem lastTwo_lastTwo {h d : CString} (hd : lastTwo h = some d) : lastTwo d = some d := by
  obtain ⟨hl, s, c, e, rfl, rfl, hc, he⟩ := lastTwo_eq_some hd
  rw [List.getLast?_append_of_ne_nil _ (by simp)] at hl
  rw [lastTwo, if_neg hl, List.splitOn_append_cons_self_of_not_mem hc, List.splitOn_eq_singleton he]

theorem addressHost_ok {host : CString} (h : host = "1.2.3.4".toList ∨ host = "9.9.3.4".toList) :
    (∀ c ∈ host, 0x20 ≤ c.toNat) ∧ '#' ∉ host := by
  rcases h with rfl | rfl <;> simp

def addressParts (host : CString) (h : host = "1.2.3.4".toList ∨ host = "9.9.3.4".toList) : UrlParts where
  protocol           := "http:".toList
  hostname           := host
  port               := []
  pathname           := ['/']
  hostname_printable := (addressHost_ok h).left
  hostname_no_hash   := (addressHost_ok h).right
  pathname_printable := fun c hc => by cases List.mem_singleton.mp hc; decide

theorem resolve_addresses {url abs : CString} (h : isHttpOrHttps url) (he : some url = some abs) :
    isHttpOrHttps abs :=
  Option.some.inj he ▸ h

def addresses : SiteLib where
  urlParts url :=
    if url = "http://1.2.3.4/".toList then some (addressParts "1.2.3.4".toList (.inl rfl))
    else if url = "http://9.9.3.4/".toList then some (addressParts "9.9.3.4".toList (.inr rfl))
    else none
  registrableDomain := lastTwo
  isPublicSuffix _  := false
  getdate _         := none
  origin _          := none
  host _            := none
  resolve _ url     := some url
  resolve_http      := resolve_addresses
  web_parts _ hp    := by
    have hw : WebParts (addressParts "1.2.3.4".toList (.inl rfl)) :=
      ⟨.inl rfl, rfl, fun _ h => absurd h List.not_mem_nil, fun h => absurd h (by decide),
        fun _ => ⟨⟨['1'], ['2'], ['3'], ['4'], rfl⟩, rfl⟩⟩
    have hw' : WebParts (addressParts "9.9.3.4".toList (.inr rfl)) :=
      ⟨.inl rfl, rfl, fun _ h => absurd h List.not_mem_nil, fun h => absurd h (by decide),
        fun _ => ⟨⟨['9'], ['9'], ['3'], ['4'], rfl⟩, rfl⟩⟩
    split at hp
    case isTrue  => exact Option.some.inj hp ▸ hw
    case isFalse =>
      split at hp
      case isTrue  => exact Option.some.inj hp ▸ hw'
      case isFalse => cases hp
  reg_suffix        := lastTwo_suffix
  reg_idem          := lastTwo_lastTwo
  reg_ipv4          := lastTwo_ipv4
  reg_brackets h    := if_pos h

def firstAddress : addresses.WebUrl where
  url    := "http://1.2.3.4/".toList
  parts  := addressParts "1.2.3.4".toList (.inl rfl)
  isWeb  := by decide
  parsed := rfl

def secondAddress : addresses.WebUrl where
  url    := "http://9.9.3.4/".toList
  parts  := addressParts "9.9.3.4".toList (.inr rfl)
  isWeb  := by decide
  parsed := rfl

-- Both have the site `http:://3.4`.
theorem not_separates_addresses :
    ¬∀ S : SiteLib, Equivalence (sameSite (S := S)) ∧ ∀ u v : S.WebUrl, Separates u v := by
  intro h
  have hs : sameSite firstAddress secondAddress := by
    rw [sameSite]
    decide +kernel
  rcases (h addresses).right firstAddress secondAddress hs with he | ⟨hi, -⟩
  · exact absurd he (by decide)
  · exact hi (.inl ⟨⟨['1'], ['2'], ['3'], ['4'], rfl⟩, rfl⟩)

end Addresses

end SiteLib

end Nordstjernen.Net
