import Nordstjernen.Net.Cookie.Theorems.Line

open Nordstjernen.Glib

namespace Nordstjernen.Net.Cookie

theorem trimBlanks_sublist (s : CString) : (trimBlanks s).Sublist s :=
  (List.rdropWhile_prefix isBlank _).sublist.trans (List.dropWhile_sublist _)

theorem trimBlanks_getLast {s : CString} : ∀ c ∈ (trimBlanks s).getLast?, isBlank c = false := by
  intro c hc
  rw [trimBlanks] at hc
  obtain ⟨hn, rfl⟩ := List.mem_getLast?_eq_getLast hc
  simpa using List.rdropWhile_last_not isBlank _ hn

theorem Printable.trimBlanks {s : CString} (h : Printable s) : Printable (trimBlanks s) :=
  h.sublist (trimBlanks_sublist s)

theorem mem_of_mem_splitOn {d : Char} {s t : CString} (ht : t ∈ s.splitOn d) : t.Sublist s := by
  have hs : s = List.intercalate [d] (s.splitOn d) := (List.intercalate_splitOn d).symm
  rw [hs]
  generalize s.splitOn d = ts at ht
  induction ts <;> simp at ht
  case cons u us hi =>
    cases us
    case nil => simp at ht; simp [ht]
    case cons v vs =>
      rw [List.intercalate_cons_cons]
      cases ht
      case inl h => simp [h]
      case inr h => exact (hi (by simpa using h)).trans (by simp)

theorem Printable.attributeTexts {cookie attr : CString} (h : Printable cookie)
    (ha : attr ∈ attributeTexts cookie) : Printable attr := by
  simp only [Cookie.attributeTexts, List.mem_filter, List.mem_map] at ha
  obtain ⟨⟨t, ht, rfl⟩, -⟩ := ha
  exact (h.sublist (List.dropWhile_sublist _) |>.sublist (mem_of_mem_splitOn ht)).trimBlanks

structure NamePair.Sound (nv : CString × CString) : Prop where
  name_ne         : nv.1 ≠ []
  name_printable  : Printable nv.1
  name_trimmed    : ∀ c ∈ nv.1.getLast?, isBlank c = false
  value_printable : Printable nv.2
  value_trimmed   : ∀ c ∈ nv.2.getLast?, isBlank c = false

theorem namePair_sound {cookie : CString} {nv : CString × CString} (h : Printable cookie)
    (hp : namePair cookie = some nv) : NamePair.Sound nv := by
  simp only [namePair, Option.ite_none_left_eq_some, Option.some.injEq, not_or] at hp
  obtain ⟨⟨-, hn⟩, rfl⟩ := hp
  have hc := h.sublist (List.takeWhile_sublist (· != ';'))
  exact {
    name_ne         := hn
    name_printable  := (hc.sublist (List.takeWhile_sublist _)).trimBlanks
    name_trimmed    := trimBlanks_getLast
    value_printable :=
      (hc.sublist ((List.drop_sublist _ _).trans (List.dropWhile_sublist _))).trimBlanks
    value_trimmed   := trimBlanks_getLast
  }

theorem inInt64_wrapInt64 (n : Int) : InInt64 (wrapInt64 n) := by
  have h₁ := Int.le_bmod (x := n) (m := 18446744073709551616) (by omega)
  have h₂ := Int.bmod_lt (x := n) (m := 18446744073709551616) (by omega)
  simp only [InInt64, wrapInt64, int64Min, int64Max]
  omega

theorem wrapInt64_of_inInt64 {n : Int} (h : InInt64 n) : wrapInt64 n = n := by
  simp only [InInt64, int64Min, int64Max] at h
  exact Int.bmod_eq_of_le (by omega) (by omega)

namespace Attributes

-- What the attribute loop has gathered at any point.
structure Sound (now : Nat) (a : Attributes) : Prop where
  domain  : ∀ d ∈ a.domain, Printable d
  path    : ∀ p ∈ a.path, Printable p
  expiry  : InInt64 a.expiry
  session : a.hasExpiry = false → a.expired = false
  expired : a.expired = a.lifetime.removes now
  timed   : a.expired = false → a.expiry = wrapInt64 ((a.lifetime.deadline now).getD 0)

variable {P : Platform} {now : Nat} {a : Attributes}

theorem Sound.setMaxAge (h : a.Sound now) (ma : Int) : (a.setMaxAge now ma).Sound now where
  domain  := h.domain
  path    := h.path
  session := by simp [Attributes.setMaxAge]
  expired := by simp [Attributes.setMaxAge, Lifetime.removes]
  expiry  := by
    rw [Attributes.setMaxAge]
    split
    case isTrue  => exact inInt64_wrapInt64 _
    case isFalse => exact h.expiry
  timed he := by
    have hm : 0 < ma := by simpa [Attributes.setMaxAge] using he
    simp [Attributes.setMaxAge, Lifetime.deadline, hm]

theorem Sound.setExpires (h : a.Sound now) (hn : a.hasExpiry = false) (t : TimeT) :
    (a.setExpires now t).Sound now where
  domain  := h.domain
  path    := h.path
  expiry  := t.property
  session := by simp [Attributes.setExpires]
  expired := by simp [Attributes.setExpires, Lifetime.removes, h.session hn]
  timed _ := by simp [Attributes.setExpires, Lifetime.deadline, wrapInt64_of_inInt64 t.property]

theorem Sound.read {attr : CString} (h : a.Sound now) (ha : Printable attr) :
    (a.read P now attr).Sound now := by
  have hv : Printable (((attr.dropWhile (· != '=')).drop 1).dropWhile isBlank) :=
    ha.sublist <| (List.dropWhile_sublist _).trans <|
      (List.drop_sublist _ _).trans (List.dropWhile_sublist _)
  unfold Attributes.read
  simp only
  split
  · exact { h with }
  split
  · exact { h with }
  split
  · split
    · exact h.setMaxAge _
    · exact h
  split
  case isTrue he =>
    split
    case h_1 t _ => exact h.setExpires (by simp at he; exact he.right) t
    case h_2     => exact h
  split
  · exact { h with domain := by simpa using hv }
  split
  · exact { h with path := by simpa using hv }
  · exact h

theorem sound_default : ({} : Attributes).Sound now where
  domain    := by simp
  path      := by simp
  expiry    := by decide
  session _ := rfl
  expired   := rfl
  timed _   := rfl

theorem readAll_sound {cookie : CString} (h : Printable cookie) :
    (readAll P now cookie).Sound now := by
  have hs : ({} : Attributes).Sound now := sound_default
  have ha : ∀ attr ∈ attributeTexts cookie, Printable attr := fun _ => h.attributeTexts
  rw [readAll]
  generalize ({} : Attributes) = a at hs
  generalize attributeTexts cookie = attrs at ha
  induction attrs generalizing a
  case nil => exact hs
  case cons attr attrs hi =>
    exact hi _ (hs.read (ha attr (by simp))) fun t ht => ha t (by simp [ht])

end Attributes

theorem defaultPath_printable (parts : UrlParts) : Printable (defaultPath parts.pathname) := by
  rw [defaultPath]
  split
  case h_1 => decide
  case h_2 =>
    refine Printable.sublist (t := parts.pathname) parts.pathname_printable ?_
    rw [← List.reverse_sublist, List.reverse_reverse]
    exact (List.drop_sublist _ _).trans (List.dropWhile_sublist _)

theorem writePath_printable {parts : UrlParts} {attr : Option CString}
    (h : ∀ p ∈ attr, Printable p) : Printable (writePath parts attr) := by
  unfold writePath
  split
  case h_1 p => exact h _ rfl
  case h_2   => exact defaultPath_printable parts

theorem writePath_ne_nil {parts : UrlParts} {attr : Option CString} : writePath parts attr ≠ [] := by
  unfold writePath
  split
  case h_1 => simp
  case h_2 => rw [defaultPath]; split <;> simp_all

structure DomainField.Sound (d : CString) (tail : Bool) : Prop where
  ne        : d ≠ []
  hash      : '#' ∉ d.head?
  printable : Printable d
  dot       : tail → d.head? = some '.'

theorem writeDomain_sound {P : Platform} {parts : UrlParts} {attr : Option CString}
    {d : CString} {tail : Bool} (hh : parts.hostname ≠ []) (ha : ∀ d ∈ attr, Printable d)
    (h : writeDomain P parts.hostname attr = some (d, tail)) : DomainField.Sound d tail := by
  unfold writeDomain at h
  have host : DomainField.Sound parts.hostname false := {
    ne        := hh
    hash      := fun hm => parts.hostname_no_hash (List.mem_of_mem_head? hm)
    printable := parts.hostname_printable
    dot       := by simp
  }
  split at h
  case h_1 => simp at h; exact h.left ▸ h.right ▸ host
  case h_2 => simp at h; exact h.left ▸ h.right ▸ host
  case h_3 c cs =>
    have hc : Printable (c :: cs) := ha _ rfl
    simp only [Option.ite_none_left_eq_some, Option.some.injEq, Prod.mk.injEq] at h
    obtain ⟨-, rfl, -⟩ := h
    refine ⟨by simp, by simp, ?_, by simp⟩
    have hd : Printable (if c = '.' then cs else c :: cs) := by
      split
      case isTrue  => exact hc.sublist (List.sublist_cons_self c cs)
      case isFalse => exact hc
    exact Printable.append (s := ['.']) (by decide) hd

-- What a call was given if its cookie is accepted.
structure Accepted (P : Platform) (now : Nat) (route : Route) (url cookie : CString) (w : Write) where
  parts     : UrlParts
  hostParts : P.hostParts url = some parts
  nameValue : namePair cookie = some (w.name, w.value)
  names     : secureNames w.name parts.isHttps (Attributes.readAll P now cookie)
  domain    : writeDomain P parts.hostname (Attributes.readAll P now cookie).domain =
    some (w.fileDomain, w.tail)
  path      : w.path = writePath parts (Attributes.readAll P now cookie).path
  printable : Printable cookie
  route_eq  : w.route = route
  now_eq    : w.now = now
  secure    : w.secure = (Attributes.readAll P now cookie).secure
  expired   : w.expired = (Attributes.readAll P now cookie).expired
  expiry    : w.expiry = (Attributes.readAll P now cookie).expiry
  lifetime  : w.lifetime = (Attributes.readAll P now cookie).lifetime

section Accepted

variable {P : Platform} {now : Nat} {route : Route} {url cookie : CString} {w : Write}

theorem acceptCookie_accepted (h : acceptCookie P now route url cookie = some w) :
    Nonempty (Accepted P now route url cookie w) := by
  simp only [acceptCookie, bind, Option.bind_eq_some_iff, pure, guard] at h
  obtain ⟨_, -, _, hc, parts, hp, nv, hn, _, hs, dt, hd, site, -, hw⟩ := h
  simp only [Option.some.injEq] at hw
  subst hw
  exact ⟨{
    parts, hostParts := hp, nameValue := hn, domain := hd
    names     := by simpa [Option.ite_none_right_eq_some] using hs
    printable := by simpa [Option.ite_none_right_eq_some, Printable] using hc
    path := rfl, route_eq := rfl, now_eq := rfl, secure := rfl, expired := rfl, expiry := rfl,
    lifetime := rfl
  }⟩

theorem Accepted.hostname_ne (h : Accepted P now route url cookie w) : h.parts.hostname ≠ [] := by
  have hp := h.hostParts
  simp [Platform.hostParts, Option.filter_eq_some_iff] at hp
  exact hp.right

-- Everything that reaches the file can be read back field by field.
theorem acceptCookie_sound (h : acceptCookie P now route url cookie = some w) : w.Sound := by
  obtain ⟨h⟩ := acceptCookie_accepted h
  have hn := namePair_sound h.printable h.nameValue
  have ha := @Attributes.readAll_sound P now _ h.printable
  have hd := writeDomain_sound h.hostname_ne ha.domain h.domain
  exact {
    domain_ne        := hd.ne
    domain_hash      := hd.hash
    domain_printable := hd.printable
    domain_tail      := hd.dot
    path_ne          := h.path ▸ writePath_ne_nil
    path_printable   := h.path ▸ writePath_printable ha.path
    name_ne          := hn.name_ne
    name_printable   := hn.name_printable
    name_trimmed     := hn.name_trimmed
    value_printable  := hn.value_printable
    value_trimmed    := hn.value_trimmed
    expiry_inInt64   := h.expiry ▸ ha.expiry
    expired_eq       := by rw [h.expired, h.lifetime, h.now_eq]; exact ha.expired
    expiry_eq        := by rw [h.expired, h.expiry, h.lifetime, h.now_eq]; exact ha.timed
  }

end Accepted

end Nordstjernen.Net.Cookie
