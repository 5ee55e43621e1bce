import Nordstjernen.Net.Csp.Theorems.Sources

open Nordstjernen.Glib

namespace Nordstjernen.Net

-- What `ns_net_proxy_mask` makes of the text from its cursor on.
def maskFrom (cursor : CString) : CString :=
  match cursor.span (· != '@') with
  | (_, [])          => cursor
  | (before, behind) => if ':' ∈ before then before.takeWhile (· != ':') ++ ":***".toList ++ behind else cursor

-- `ns_net_proxy_mask`, which takes no url for the empty one.
def netProxyMask (proxyUrl : CString) : CString :=
  match splitScheme proxyUrl with
  | some (scheme, cursor) => scheme ++ "://".toList ++ maskFrom cursor
  | none                  => maskFrom proxyUrl

-- A proxy url without its password. A text with `://` behind the `@` is no url without a scheme.
structure ProxyUrl where
  scheme    : Option CString
  user      : CString
  host      : CString
  scheme_ok : ∀ s ∈ scheme, ':' ∉ s
  user_ok   : ':' ∉ user
  host_ok   : '@' ∉ host
  bare      : scheme = none → '/' ∉ host

namespace ProxyUrl

variable (u : ProxyUrl) (password : CString)

def credentials : CString :=
  u.user ++ ':' :: password

def lead : CString :=
  match u.scheme with
  | some scheme => scheme ++ "://".toList
  | none        => []

def text : CString :=
  u.lead ++ (u.credentials password ++ '@' :: u.host)

-- What is passed over of the credentials, and the rest of them. A url without a scheme has its first `://` there.
def cut : CString × CString :=
  match u.scheme, splitScheme (u.credentials password) with
  | none, some (front, rest) => (front ++ "://".toList, rest)
  | _,    _                  => ([], u.credentials password)

end ProxyUrl

-- Two texts with the same around what is between their first `:` and their first `@`, in this order.
def AgreeAround (s t : CString) : Prop :=
  s = t ∨ ':' ∈ s.takeWhile (· != '@') ∧ ':' ∈ t.takeWhile (· != '@') ∧
    s.takeWhile (· != ':') = t.takeWhile (· != ':') ∧ s.dropWhile (· != '@') = t.dropWhile (· != '@')

section Scheme

variable {s t x y r : CString} {c : Char}

theorem splitScheme_cons_eq_none :
    splitScheme (c :: s) = none ↔ (∀ tl, c :: s ≠ ':' :: '/' :: '/' :: tl) ∧ splitScheme s = none := by
  constructor
  case mp =>
    intro h
    have hn : ∀ tl, c :: s ≠ ':' :: '/' :: '/' :: tl := by
      rintro tl he
      rw [he] at h
      cases h
    rw [splitScheme_of_not hn, Option.map_eq_none_iff] at h
    exact ⟨hn, h⟩
  case mpr => exact fun ⟨hn, h⟩ => by rw [splitScheme_of_not hn, h, Option.map_none]

theorem splitScheme_none_left (h : splitScheme (s ++ t) = none) : splitScheme s = none := by
  cases hs : splitScheme s
  case none => rfl
  case some p => rw [splitScheme_append t hs] at h; cases h

theorem splitScheme_none_right (h : splitScheme (s ++ t) = none) : splitScheme t = none := by
  induction s
  case nil => exact h
  case cons c s hi => exact hi (splitScheme_cons_eq_none.mp h).right

theorem exists_of_append_eq {tl : CString} (he : s ++ c :: t = '/' :: '/' :: tl) (hc : c ≠ '/') :
    ∃ s', s = '/' :: '/' :: s' := by
  match s, he with
  | [],          h => exact absurd (List.cons.inj h).left hc
  | [_],         h => exact absurd (List.cons.inj (List.cons.inj h).right).left hc
  | d :: e :: s, h =>
    obtain ⟨rfl, h'⟩ := List.cons.inj h
    obtain ⟨rfl, -⟩ := List.cons.inj h'
    exact ⟨s, rfl⟩

-- No new `://` comes about where a text without a slash is appended.
theorem splitScheme_none_append (h : splitScheme s = none) (ht : '/' ∉ c :: t) :
    splitScheme (s ++ c :: t) = none := by
  induction s
  case nil =>
    cases hs : splitScheme (c :: t)
    case none => exact hs
    case some p => exact absurd (by simp [eq_of_splitScheme hs]) ht
  case cons b s hi =>
    obtain ⟨hn, h⟩ := splitScheme_cons_eq_none.mp h
    refine splitScheme_cons_eq_none.mpr ⟨fun tl he => ?_, hi h⟩
    obtain ⟨rfl, hs⟩ := List.cons.inj he
    obtain ⟨s', rfl⟩ := exists_of_append_eq hs (List.ne_of_not_mem_cons ht).symm
    exact hn s' rfl

theorem splitScheme_append_left (h : ':' ∉ s) :
    splitScheme (s ++ t) = (splitScheme t).map fun (front, rest) => (s ++ front, rest) := by
  induction s
  case nil => simp
  case cons c s hi =>
    rw [List.mem_cons, not_or] at h
    rw [List.cons_append, splitScheme_of_not fun tl he => h.left (List.cons.inj he).left.symm, hi h.right,
      Option.map_map]
    rfl

-- The scheme in front of a text is found whatever follows.
theorem splitScheme_replace (h : splitScheme (s ++ ("://".toList ++ r)) = some (s, r)) :
    splitScheme (s ++ ("://".toList ++ x)) = some (s, x) := by
  induction s
  case nil => rfl
  case cons c s hi =>
    have hn (tl : CString) : c :: (s ++ ("://".toList ++ r)) ≠ ':' :: '/' :: '/' :: tl := by
      intro he
      rw [List.cons_append, he] at h
      cases h
    rw [List.cons_append, splitScheme_of_not hn] at h
    obtain ⟨⟨a, b⟩, hs, he⟩ := Option.map_eq_some_iff.mp h
    obtain ⟨ha, rfl⟩ := Prod.mk.inj he
    obtain ⟨-, rfl⟩ := List.cons.inj ha
    rw [List.cons_append, splitScheme_of_not, hi hs, Option.map_some]
    intro tl he
    obtain ⟨rfl, hs⟩ := List.cons.inj he
    obtain ⟨s', rfl⟩ := exists_of_append_eq (c := ':') hs (by decide)
    exact hn _ rfl

theorem splitScheme_masked (hx : splitScheme (x ++ [':']) = none) (hy : splitScheme y = none) :
    splitScheme (x ++ (":***".toList ++ y)) = none := by
  induction x
  case nil => simp [splitScheme, hy]
  case cons c x hi =>
    obtain ⟨hn, h⟩ := splitScheme_cons_eq_none.mp hx
    refine splitScheme_cons_eq_none.mpr ⟨fun tl he => ?_, hi h⟩
    obtain ⟨rfl, hs⟩ := List.cons.inj he
    obtain ⟨x', rfl⟩ := exists_of_append_eq (c := ':') hs (by decide)
    exact hn _ rfl

end Scheme

section Mask

variable {c d h : CString}

theorem takeWhile_append_at : (c ++ '@' :: h).takeWhile (· != '@') = c.takeWhile (· != '@') := by
  induction c
  case nil => rfl
  case cons a c hi => rw [List.cons_append, List.takeWhile_cons, hi, List.takeWhile_cons]

theorem dropWhile_append_at : (c ++ '@' :: h).dropWhile (· != '@') = c.dropWhile (· != '@') ++ '@' :: h := by
  induction c
  case nil => rfl
  case cons a c hi =>
    rw [List.cons_append, List.dropWhile_cons, hi, List.dropWhile_cons]
    split <;> rfl

-- The first `:` in front of an `@` is the first one of all.
theorem takeWhile_takeWhile_of_mem (hc : ':' ∈ c.takeWhile (· != '@')) :
    (c.takeWhile (· != '@')).takeWhile (· != ':') = c.takeWhile (· != ':') := by
  have hs := List.takeWhile_append_dropWhile (p := (· != '@')) (l := c)
  obtain ⟨a, b, hab, ha⟩ := List.eq_append_cons_of_mem hc
  have hall : ∀ x ∈ a, (x != ':') = true := fun x hx => by simpa using fun he : x = ':' => ha (he ▸ hx)
  rw [hab, List.append_assoc, List.cons_append] at hs
  rw [hab, ← hs, List.takeWhile_append_of_pos hall, List.takeWhile_append_of_pos hall,
    List.takeWhile_cons_of_neg (by decide), List.takeWhile_cons_of_neg (by decide)]

theorem maskFrom_append_at : maskFrom (c ++ '@' :: h) =
    if ':' ∈ c.takeWhile (· != '@') then
      c.takeWhile (· != ':') ++ (":***".toList ++ (c.dropWhile (· != '@') ++ '@' :: h))
    else c ++ '@' :: h := by
  have hne : c.dropWhile (· != '@') ++ '@' :: h ≠ [] := by simp
  rw [maskFrom, List.span_eq_takeWhile_dropWhile, takeWhile_append_at, dropWhile_append_at]
  split
  case h_1 he => exact absurd (Prod.mk.inj he).right hne
  case h_2 he =>
    obtain ⟨rfl, rfl⟩ := Prod.mk.inj he
    split
    case isTrue hc => rw [takeWhile_takeWhile_of_mem hc, List.append_assoc]
    case isFalse   => rfl

theorem masked_ne (hc : ':' ∈ c.takeWhile (· != '@')) (hd : ':' ∉ d.takeWhile (· != '@')) (t : CString) :
    c.takeWhile (· != ':') ++ (":***".toList ++ t) ≠ d ++ '@' :: h := by
  intro he
  have ht := congrArg (List.takeWhile (· != '@')) he
  rw [takeWhile_append_at] at ht
  have hall : ∀ x ∈ c.takeWhile (· != ':'), (x != '@') = true := by
    intro x hx
    rw [← takeWhile_takeWhile_of_mem hc] at hx
    exact List.mem_takeWhile_imp (p := (· != '@')) (List.takeWhile_subset _ hx)
  rw [List.takeWhile_append_of_pos hall] at ht
  exact hd (ht ▸ List.mem_append_right _ List.mem_cons_self)

theorem maskFrom_eq_iff : maskFrom (c ++ '@' :: h) = maskFrom (d ++ '@' :: h) ↔ AgreeAround c d := by
  have hself {x : CString} (hx : ':' ∉ x.takeWhile (· != '@')) {y : CString} :
      (AgreeAround x y ↔ x = y) ∧ (AgreeAround y x ↔ y = x) := by
    simp [AgreeAround, hx]
  rw [maskFrom_append_at, maskFrom_append_at]
  split_ifs with hc hd hd
  case pos =>
    have hn {x : CString} : ':' ∉ x.takeWhile (· != ':') := fun hx => by simpa using List.mem_takeWhile_imp hx
    constructor
    case mp =>
      intro he
      have hs (x : CString) :
          (x.takeWhile (· != ':') ++ (":***".toList ++ (x.dropWhile (· != '@') ++ '@' :: h))).span (· != ':') =
            (x.takeWhile (· != ':'), ":***".toList ++ (x.dropWhile (· != '@') ++ '@' :: h)) :=
        span_ne_append_cons hn
      have hs := (hs c).symm.trans ((congrArg _ he).trans (hs d))
      obtain ⟨hf, hb⟩ := Prod.mk.inj hs
      have hb := List.append_cancel_right (List.append_cancel_left hb)
      exact .inr ⟨hc, hd, hf, hb⟩
    case mpr =>
      rintro (rfl | ⟨-, -, hf, hb⟩)
      · rfl
      · rw [hf, hb]
  case neg => exact iff_of_false (masked_ne hc hd _) fun ha => hd (((hself hd).right.mp ha) ▸ hc)
  case pos => exact iff_of_false (masked_ne hd hc _).symm fun ha => hc (((hself hc).left.mp ha).symm ▸ hd)
  case neg => rw [List.append_cancel_right_eq, (hself hc).left]

end Mask

namespace ProxyUrl

variable (u : ProxyUrl) (password : CString)

theorem slash_not_mem (h : u.scheme = none) : '/' ∉ '@' :: u.host := by
  rw [List.mem_cons, not_or]
  exact ⟨by decide, u.bare h⟩

theorem netProxyMask_text : netProxyMask (u.text password) =
    u.lead ++ ((u.cut password).1 ++ maskFrom ((u.cut password).2 ++ '@' :: u.host)) := by
  rw [text, lead, cut, netProxyMask]
  cases hs : u.scheme
  case some scheme =>
    have hsplit : splitScheme (scheme ++ "://".toList ++ (u.credentials password ++ '@' :: u.host)) =
        some (scheme, u.credentials password ++ '@' :: u.host) := by
      rw [List.append_assoc, splitScheme_append_left (u.scheme_ok scheme hs)]
      simp [splitScheme]
    simp only [hsplit, List.nil_append]
  case none =>
    cases hc : splitScheme (u.credentials password)
    case none =>
      simp only [List.nil_append, splitScheme_none_append hc (u.slash_not_mem hs)]
    case some p => simp only [List.nil_append, splitScheme_append _ hc]

-- Where the credentials of a url without a scheme have a `://`, so has what is made of it.
theorem splitScheme_masked_text (h : u.scheme = none) :
    splitScheme ((u.cut password).1 ++ maskFrom ((u.cut password).2 ++ '@' :: u.host)) =
      (splitScheme (u.credentials password)).map fun (front, rest) =>
        (front, maskFrom (rest ++ '@' :: u.host)) := by
  rw [cut, h]
  cases hc : splitScheme (u.credentials password)
  case some p =>
    obtain ⟨front, rest⟩ := p
    have hr := hc
    rw [eq_of_splitScheme hc, List.append_assoc] at hr
    simp only [List.append_assoc, splitScheme_replace hr, Option.map_some]
  case none =>
    have ht := splitScheme_none_append hc (u.slash_not_mem h)
    simp only [List.nil_append, maskFrom_append_at, Option.map_none]
    split
    case isFalse => exact ht
    case isTrue hm =>
      have hp := List.takeWhile_append_dropWhile (p := (· != '@')) (l := u.credentials password)
      refine splitScheme_masked ?_ ?_
      · obtain ⟨a, b, hab, ha⟩ := List.eq_append_cons_of_mem (List.takeWhile_subset _ hm)
        have hall : ∀ x ∈ a, (x != ':') = true := fun x hx => by simpa using fun he : x = ':' => ha (he ▸ hx)
        rw [hab, List.takeWhile_append_of_pos hall, List.takeWhile_cons_of_neg (by decide), List.append_nil]
        rw [hab, List.append_cons] at hc
        exact splitScheme_none_left hc
      · rw [← hp, List.append_assoc] at ht
        exact splitScheme_none_right ht

theorem netProxyMask_congr_iff (p q : CString) : netProxyMask (u.text p) = netProxyMask (u.text q) ↔
    (u.cut p).1 = (u.cut q).1 ∧ AgreeAround (u.cut p).2 (u.cut q).2 := by
  rw [netProxyMask_text, netProxyMask_text, List.append_cancel_left_eq]
  constructor
  case mp =>
    intro he
    have hf : (u.cut p).1 = (u.cut q).1 := by
      cases hs : u.scheme
      case some scheme => simp only [cut, hs]
      case none =>
        have hsplit := congrArg splitScheme he
        rw [u.splitScheme_masked_text p hs, u.splitScheme_masked_text q hs] at hsplit
        rw [cut, cut, hs]
        cases hp : splitScheme (u.credentials p) <;> cases hq : splitScheme (u.credentials q) <;>
          simp_all
    rw [hf, List.append_cancel_left_eq, maskFrom_eq_iff] at he
    exact ⟨hf, he⟩
  case mpr => exact fun ⟨hf, ha⟩ => by rw [hf, maskFrom_eq_iff.mpr ha]

theorem agreeAround_credentials (p q : CString) : AgreeAround (u.credentials p) (u.credentials q) ↔
    p = q ∨ '@' ∉ u.user ∧ p.dropWhile (· != '@') = q.dropWhile (· != '@') := by
  have hcolon (x : CString) : (u.credentials x).takeWhile (· != ':') = u.user := by
    have h := congrArg Prod.fst (span_ne_append_cons (t := x) u.user_ok)
    rwa [List.span_eq_takeWhile_dropWhile] at h
  have heq : u.credentials p = u.credentials q ↔ p = q := by
    rw [credentials, credentials, List.append_cancel_left_eq, List.cons.injEq, and_iff_right rfl]
  rw [AgreeAround, heq, hcolon, hcolon]
  refine or_congr Iff.rfl ?_
  by_cases hat : '@' ∈ u.user
  case pos =>
    have hn (x : CString) : ':' ∉ (u.credentials x).takeWhile (· != '@') := by
      obtain ⟨a, b, hab, ha⟩ := List.eq_append_cons_of_mem hat
      rw [credentials, hab, List.append_assoc, List.cons_append, takeWhile_append_at]
      exact fun hm => u.user_ok (hab ▸ List.mem_append_left _ (List.takeWhile_subset _ hm))
    exact iff_of_false (fun h => hn p h.left) fun h => h.left hat
  case neg =>
    have hall : ∀ x ∈ u.user, (x != '@') = true := fun x hx => by simpa using fun he : x = '@' => hat (he ▸ hx)
    have hm (x : CString) : ':' ∈ (u.credentials x).takeWhile (· != '@') := by
      rw [credentials, List.takeWhile_append_of_pos hall, List.takeWhile_cons_of_pos (by decide)]
      simp
    have hd (x : CString) : (u.credentials x).dropWhile (· != '@') = x.dropWhile (· != '@') := by
      rw [credentials, List.dropWhile_append_of_pos hall, List.dropWhile_cons_of_pos (by decide)]
    rw [hd, hd]
    exact ⟨fun h => ⟨hat, h.2.2.2⟩, fun h => ⟨hm p, hm q, rfl, h.right⟩⟩

-- When two passwords give the same, and what this comes to where there is a scheme.
theorem netProxyMask_eq_iff (p q : CString) :
    (netProxyMask (u.text p) = netProxyMask (u.text q) ↔
      (u.cut p).1 = (u.cut q).1 ∧ AgreeAround (u.cut p).2 (u.cut q).2) ∧
    (u.scheme.isSome → (netProxyMask (u.text p) = netProxyMask (u.text q) ↔
      p = q ∨ '@' ∉ u.user ∧ p.dropWhile (· != '@') = q.dropWhile (· != '@'))) := by
  refine ⟨u.netProxyMask_congr_iff p q, fun h => ?_⟩
  obtain ⟨scheme, hs⟩ := Option.isSome_iff_exists.mp h
  have hcut (x : CString) : u.cut x = ([], u.credentials x) := by rw [cut, hs]
  rw [netProxyMask_congr_iff, hcut, hcut, and_iff_right rfl, agreeAround_credentials]

-- What is behind the first `@` of a password is shown.
theorem netProxyMask_at_in_password : ∃ u : ProxyUrl, u.text "a@b".toList = "http://u:a@b@h".toList ∧
    netProxyMask (u.text "a@b".toList) = "http://u:***@b@h".toList ∧
    netProxyMask (u.text "a@b".toList) ≠ netProxyMask (u.text "a@c".toList) :=
  ⟨⟨some "http".toList, "u".toList, "h".toList, by decide, by decide, by decide, by decide⟩,
    by decide, by decide, by decide⟩

end ProxyUrl

end Nordstjernen.Net
