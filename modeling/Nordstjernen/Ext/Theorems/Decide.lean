import Nordstjernen.Ext.Decide
import Nordstjernen.Ext.Theorems.HostIndex

open Nordstjernen.Glib Nordstjernen.Lib

namespace Nordstjernen.Ext

section Host

variable {a b : CString}

theorem gStrHasPrefix_scheme {scheme : CString} (ha : ':' ∉ a) (hs : ':' ∉ scheme) :
    gStrHasPrefix (a ++ "://".toList ++ b) (scheme ++ "://".toList) ↔ a = scheme := by
  rw [gStrHasPrefix, List.isPrefixOf_iff_prefix]
  constructor
  case mp =>
    rintro ⟨t, h⟩
    have hc (t : CString) : ∀ c ∈ ("://".toList ++ t).head?, c = ':' := fun c h => (Option.some.inj h).symm
    have he := congrArg stripPort h
    rw [List.append_assoc, List.append_assoc, stripPort_append hs (hc t), stripPort_append ha (hc b)] at he
    exact he.symm
  case mpr =>
    rintro rfl
    exact List.prefix_append _ _

namespace Request

variable (req : Request)

theorem urlHost_text :
    urlHost req.text = some (gAsciiStrdown req.userText ++ req.url.lowerHost ++ req.url.portText) := by
  have hu : ∀ c ∈ req.userText, endsAuthority c = false := by
    intro c hc
    rw [userText] at hc
    cases h : req.userinfo <;> rw [h] at hc
    case none => cases hc
    case some u =>
      rcases List.mem_append.mp hc with hc | hc
      · exact req.userinfo_ok u h c hc
      · obtain rfl := List.mem_singleton.mp hc
        rfl
  have ha : ∀ c ∈ req.userText ++ req.url.host ++ req.url.portText, endsAuthority c = false := by
    intro c hc
    rcases List.mem_append.mp hc with hc | hc
    · exact (List.mem_append.mp hc).elim (hu c) (req.url.host_endsAuthority c)
    · exact endsAuthority_of_isDigit (req.url.portText_chars c hc)
  rw [text, List.append_assoc, List.append_assoc, urlHost_append req.url.scheme_ok ha req.url.rest_ok,
    gAsciiStrdown_append, gAsciiStrdown_append, gAsciiStrdown_portText]
  rfl

theorem requestHost_text_iff : requestHost req.text = some req.url.lowerHost ↔ req.HostRead := by
  rw [requestHost, urlHost_text, Option.map_some, Option.some_inj, HostRead, userText]
  have hport := req.url.portText_head
  cases req.userinfo
  case none =>
    have hl : gAsciiStrdown [] ++ req.url.lowerHost = req.url.lowerHost := rfl
    have hm : ':' ∈ req.url.lowerHost ↔ ':' ∈ req.url.host := mem_gAsciiStrdown_iff rfl
    rw [hl, ← hm]
    exact ⟨fun h hc => notMem_stripPort _ (h ▸ hc), fun hc => stripPort_append hc hport⟩
  case some u =>
    have hm : ':' ∈ gAsciiStrdown u ↔ ':' ∈ u := mem_gAsciiStrdown_iff rfl
    rw [gAsciiStrdown_append, List.append_assoc, List.append_assoc]
    by_cases hu : ':' ∈ u
    case pos =>
      rw [stripPort_of_mem (hm.mpr hu), stripPort_gAsciiStrdown]
      exact (and_iff_right hu).symm
    case neg =>
      -- The at sign is taken for a part of the host.
      refine iff_of_false (fun he => ?_) fun h => hu h.left
      have hat : '@' ∈ stripPort (gAsciiStrdown u ++
          (gAsciiStrdown ['@'] ++ (req.url.lowerHost ++ req.url.portText))) := by
        have hp : ∀ c ∈ gAsciiStrdown u ++ gAsciiStrdown ['@'], decide (c ≠ ':') = true := by
          refine fun c hc => decide_eq_true fun he => ?_
          rcases List.mem_append.mp hc with hc | hc
          · exact hu (hm.mp (he ▸ hc))
          · rw [he] at hc
            exact absurd hc (by decide)
        rw [stripPort, ← List.append_assoc, List.takeWhile_append_of_pos hp]
        exact List.mem_append_left _ (List.mem_append_right _ (by decide))
      rw [he] at hat
      exact req.host_ok ((mem_gAsciiStrdown_iff rfl).mp hat)

theorem isHttp_text_iff :
    gStrHasPrefix req.text "http://".toList ∨ gStrHasPrefix req.text "https://".toList ↔ req.IsHttp := by
  have h (scheme : CString) (hs : ':' ∉ scheme) :
      gStrHasPrefix req.text (scheme ++ "://".toList) ↔ req.url.scheme = scheme := by
    rw [text, List.append_assoc]
    exact gStrHasPrefix_scheme req.url.scheme_ok hs
  exact or_congr (h "http".toList (by decide)) (h "https".toList (by decide))

end Request

end Host

section Block

variable {psl : Option (CString → Option CString)} {url : CString} {initiator : Option CString}

-- What `best_allow` and `best_block` are about.
def Best.kind (b : Best) (allow : Bool) : Prop :=
  if allow then b.allow = true else b.block = true

-- The variables of the loop, for what has been seen so far.
def Best.Leads (b : Best) (votes : Set (Int × Bool)) : Prop :=
  Lib.Leads (-1) votes b.priority b.kind

variable {b : Best} {votes : Set (Int × Bool)}

theorem Best.Leads.vote (h : b.Leads votes) (r : DnrRule) :
    (b.vote r).Leads (insert (r.priority, r.allow) votes) := by
  rw [Best.vote]
  split
  case isTrue hr =>
    refine (h.higher hr).congr fun k => ?_
    cases k <;> cases r.allow <;> simp [Best.kind]
  case isFalse hr =>
    split
    case isTrue he =>
      rw [he]
      cases ha : r.allow
      case false =>
        refine (h.level).congr fun k => ?_
        cases k <;> simp [Best.kind]
      case true =>
        refine (h.level).congr fun k => ?_
        cases k <;> simp [Best.kind]
    case isFalse he => exact h.lower (lt_of_le_of_ne (not_lt.mp hr) he)

-- What the rules of a list that match say.
def voted (psl : Option (CString → Option CString)) (url : CString) (initiator : Option CString)
    (rules : List DnrRule) : Set (Int × Bool) :=
  { v | ∃ r ∈ rules, r.hits psl url initiator ∧ v = (r.priority, r.allow) }

theorem voted_cons (r : DnrRule) (rules : List DnrRule) : voted psl url initiator (r :: rules) =
    { v | r.hits psl url initiator ∧ v = (r.priority, r.allow) } ∪ voted psl url initiator rules := by
  ext v
  simp only [voted, List.exists_mem_cons_iff, Set.mem_union, Set.mem_ofPred_eq]

theorem Best.Leads.foldl (h : b.Leads votes) (rules : List DnrRule) :
    (rules.foldl (fun b r => if r.hits psl url initiator then b.vote r else b) b).Leads
      (votes ∪ voted psl url initiator rules) := by
  induction rules generalizing b votes
  case nil =>
    have hv : voted psl url initiator [] = ∅ := by simp [voted]
    rw [hv, Set.union_empty]
    exact h
  case cons r rules hi =>
    rw [List.foldl_cons, voted_cons, ← Set.union_assoc]
    refine hi ?_
    split
    case isTrue hr =>
      have hv : votes ∪ { v | r.hits psl url initiator ∧ v = (r.priority, r.allow) } =
          insert (r.priority, r.allow) votes := by
        ext v
        simp [hr, or_comm]
      rw [hv]
      exact h.vote r
    case isFalse hr =>
      have hv : votes ∪ { v | r.hits psl url initiator ∧ v = (r.priority, r.allow) } = votes := by
        ext v
        simp [hr]
      rw [hv]
      exact h

theorem Best.Leads.block_iff (h : b.Leads votes) :
    (decide (0 ≤ b.priority) && b.block && !b.allow) = true ↔ Wins votes false ∧ ∃ v ∈ votes, 0 ≤ v.1 := by
  have hw : _ ↔ Wins votes false ∧ _ := h.wins_iff
  have hk : (∀ k, b.kind k → k = false) ↔ b.allow = false := by simp [Best.kind]
  rw [hk] at hw
  rw [Bool.and_eq_true, Bool.and_eq_true, decide_eq_true_iff, Bool.not_eq_true', and_assoc]
  exact hw

namespace Extensions

variable (s : Extensions)

theorem votes_eq : s.votes psl url initiator =
    { v | hostIndexed s.hosts (urlHost url) ∧ v = (1, false) } ∪ voted psl url initiator s.exts.flatten := by
  ext v
  simp only [votes, voted, List.mem_flatten, Set.mem_union, Set.mem_ofPred_eq]
  refine or_congr_right ⟨?_, ?_⟩
  · rintro ⟨rules, hr, r, hm, h⟩
    exact ⟨r, ⟨rules, hr, hm⟩, h⟩
  · rintro ⟨r, ⟨rules, hr, hm⟩, h⟩
    exact ⟨rules, hr, r, hm, h⟩

theorem votes_of_nil (h : s.exts = []) : s.votes psl url initiator = ∅ := by
  have hi : hostIndexed s.hosts (urlHost url) = false := by
    rw [s.loaded h]
    cases urlHost url <;> rfl
  rw [votes_eq, h, hi]
  simp [voted]

theorem leads_start (indexed : Bool) :
    (if indexed then ⟨1, false, true⟩ else ⟨-1, false, false⟩ : Best).Leads
      { v | indexed ∧ v = (1, false) } := by
  cases indexed
  case false =>
    have hv : { v : Int × Bool | false ∧ v = (1, false) } = ∅ := by
      ext v
      simp
    rw [hv]
    refine (Leads.empty (-1)).congr fun k => ?_
    cases k <;> simp [Best.kind]
  case true =>
    have hv : { v : Int × Bool | true ∧ v = (1, false) } = insert (1, false) ∅ := by
      ext v
      simp
    rw [hv]
    refine ((Leads.empty (-1)).higher (by decide)).congr fun k => ?_
    cases k <;> simp [Best.kind]

-- No order matters.
theorem shouldBlock_iff : s.shouldBlock psl url initiator ↔
    (gStrHasPrefix url "http://".toList ∨ gStrHasPrefix url "https://".toList) ∧
      Wins (s.votes psl url initiator) false ∧ ∃ v ∈ s.votes psl url initiator, 0 ≤ v.1 := by
  rw [shouldBlock]
  split
  case isTrue he =>
    rw [votes_of_nil s he]
    simp
  case isFalse =>
    split
    case isTrue hs =>
      rw [Bool.and_eq_true, Bool.not_eq_true', Bool.not_eq_true'] at hs
      rw [hs.left, hs.right]
      simp
    case isFalse hs =>
      have hp : gStrHasPrefix url "http://".toList ∨ gStrHasPrefix url "https://".toList := by
        rwa [Bool.and_eq_true, Bool.not_eq_true', Bool.not_eq_true', not_and_or, Bool.not_eq_false,
          Bool.not_eq_false] at hs
      rw [and_iff_right hp, votes_eq]
      dsimp only
      rw [← List.foldl_flatten]
      exact ((leads_start _).foldl _).block_iff

theorem hostIndexed_congr {hosts hosts' : List CString} (h : ∀ host, host ∈ hosts ↔ host ∈ hosts')
    (host : Option CString) : hostIndexed hosts host = hostIndexed hosts' host := by
  have he : hosts.isEmpty = hosts'.isEmpty := by
    rw [Bool.eq_iff_iff, List.isEmpty_iff, List.isEmpty_iff, List.eq_nil_iff_forall_not_mem,
      List.eq_nil_iff_forall_not_mem]
    exact forall_congr' fun host => not_congr (h host)
  cases host
  case none => rfl
  case some host =>
    rw [hostIndexed, hostIndexed, he, Bool.eq_iff_iff, Bool.and_eq_true, Bool.and_eq_true, indexedFrom_iff,
      indexedFrom_iff]
    simp only [h]

-- Extensions with the same hosts and the same rules block the same.
theorem shouldBlock_congr {s t : Extensions} (hh : ∀ host, host ∈ s.hosts ↔ host ∈ t.hosts)
    (hr : ∀ r, r ∈ s.exts.flatten ↔ r ∈ t.exts.flatten) :
    s.shouldBlock psl url initiator = t.shouldBlock psl url initiator := by
  have hv : s.votes psl url initiator = t.votes psl url initiator := by
    rw [votes_eq, votes_eq, hostIndexed_congr hh]
    simp only [voted, hr]
  rw [Bool.eq_iff_iff, shouldBlock_iff, shouldBlock_iff, hv]

-- The request is decided as it should be exactly if the host is read from its URL, and a rule of no negative
-- priority matches where rules that block are the highest.
theorem decides_iff (psl : Option (CString → Option CString)) (s : Extensions) (initiator : Option CString)
    (req : Request) : s.Decides psl initiator req ↔ req.HostRead ∧ (req.IsHttp →
      Wins (s.votes psl req.text initiator) false → ∃ v ∈ s.votes psl req.text initiator, 0 ≤ v.1) := by
  have hb : s.shouldBlock psl req.text initiator ↔ req.IsHttp ∧
      Wins (s.votes psl req.text initiator) false ∧ ∃ v ∈ s.votes psl req.text initiator, 0 ≤ v.1 :=
    s.shouldBlock_iff.trans (and_congr_left' req.isHttp_text_iff)
  constructor
  case mp =>
    rintro ⟨hd, hh⟩
    exact ⟨req.requestHost_text_iff.mp hh, fun hr hw => (hb.mp (hd.mpr ⟨hr, hw⟩)).right.right⟩
  case mpr =>
    rintro ⟨hh, hw⟩
    refine ⟨hb.trans ?_, req.requestHost_text_iff.mpr hh⟩
    exact and_congr_right fun hr => and_iff_left_of_imp (hw hr)

end Extensions

section Plain

def Rule.toDnrRule (r : Rule) : DnrRule :=
  { priority := r.priority, allow := r.allow, urlFilter := some r.urlFilter, caseSensitive := r.caseSensitive }

def Blocker.toExtensions (s : Blocker) (h : s.exts = [] → s.hosts = []) : Extensions where
  hosts  := s.hosts
  exts   := s.exts.map (·.map Rule.toDnrRule)
  loaded := fun he => h (List.map_eq_nil_iff.mp he)

theorem Rule.hits_toDnrRule (r : Rule) :
    r.toDnrRule.hits psl url initiator = urlfilterMatch r.urlFilter url r.caseSensitive := by
  simp [DnrRule.hits, DnrRule.ruleMatches, toDnrRule]

theorem Best.offer_eq (b : Best) (r : Rule) :
    b.offer url r = if r.toDnrRule.hits psl url initiator then b.vote r.toDnrRule else b := by
  rw [Rule.hits_toDnrRule, offer]
  cases urlfilterMatch r.urlFilter url r.caseSensitive <;> rfl

-- Rules without options are decided as `Blocker` has them.
theorem Blocker.shouldBlock_toExtensions (s : Blocker) (h : s.exts = [] → s.hosts = []) :
    (s.toExtensions h).shouldBlock psl url initiator = s.shouldBlock url := by
  have hb : Best.offer url = fun b r =>
      if r.toDnrRule.hits psl url initiator then b.vote r.toDnrRule else b := by
    funext b r
    exact b.offer_eq r
  rw [Extensions.shouldBlock, Blocker.shouldBlock, hb, toExtensions]
  simp only [List.map_eq_nil_iff, List.foldl_map]

end Plain

-- What an `http` URL without a port has to say of its parts.

theorem colon_not_mem_http : ':' ∉ "http".toList := by
  decide

theorem isDigit_of_no_port : ∀ s, (none : Option CString) = some s → ∀ c ∈ s, c.isDigit = true := by
  rintro _ ⟨⟩

theorem endsAuthority_slash : ∀ c ∈ ['/'].head?, endsAuthority c = true := by
  rintro _ ⟨⟩
  rfl

-- `http://user@ads.example/`
def userRequest : Request where
  url         :=
    { scheme    := "http".toList
      host      := "ads.example".toList
      port      := none
      rest      := ['/']
      scheme_ok := colon_not_mem_http
      host_ok   := .inl (by decide)
      port_ok   := isDigit_of_no_port
      rest_ok   := endsAuthority_slash }
  userinfo    := some "user".toList
  userinfo_ok := by rintro _ ⟨⟩; decide
  host_ok     := by decide

def adsExtensions : Extensions where
  hosts  := ["ads.example".toList]
  exts   := [[]]
  loaded := fun h => absurd h (List.cons_ne_nil _ _)

-- The same with a host that is listed twice, by two extensions.
def adsExtensionsTwice : Extensions where
  hosts  := ["ads.example".toList, "ads.example".toList]
  exts   := [[], []]
  loaded := fun h => absurd h (List.cons_ne_nil _ _)

theorem shouldBlock_congr_adsExtensions :
    adsExtensionsTwice.shouldBlock none "http://ads.example/".toList none =
      adsExtensions.shouldBlock none "http://ads.example/".toList none :=
  Extensions.shouldBlock_congr (fun _ => by simp [adsExtensionsTwice, adsExtensions])
    (fun _ => by simp [adsExtensionsTwice, adsExtensions])

-- A blocked host is let through if the URL has a user name.
theorem not_decides_userRequest : ¬ ∀ psl (s : Extensions) initiator req, s.Decides psl initiator req := by
  intro h
  have hh := (h none adsExtensions none userRequest).host
  exact absurd hh (by decide)

end Block

end Nordstjernen.Ext
