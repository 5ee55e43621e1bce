import Mathlib.Data.List.Induction
import Nordstjernen.Glib.Strings

open Nordstjernen.Glib

namespace Nordstjernen.Net.SafeBrowsing

-- The digest that `EVP_sha256` makes of a text.
abbrev Sha256 :=
  CString → Vector UInt8 32

-- What is in the files that `ensure_loaded` reads, where they can be read: the one that `NS_SAFEBROWSING_LIST`
-- names if it is set, or those of the user and of the program.
structure Files where
  override : Option (Option CString)
  user     : Option CString
  bundled  : Option CString

-- `g_blocked`, `g_allow` and `g_loaded`
structure Tables where
  blocked : List CString := []
  allow   : List CString := []
  loaded  : Bool := false

-- The conversion `"%02x"`.
def hexByte (b : UInt8) : CString :=
  [Nat.digitChar (b.toNat / 16), Nat.digitChar (b.toNat % 16)]

def sha256Hex (sha256 : Sha256) (host : CString) : CString :=
  (sha256 (gAsciiStrdown host)).toList.flatMap hexByte

-- `host_sha256_hex`, where `EVP_Digest` does not fail.
def hostSha256Hex (sha256 : Sha256) (host : CString) : Option CString :=
  if host = [] then none else some (sha256Hex sha256 host)

-- What `load_file` adds for a line.
def lineEntry (line : CString) : Option CString :=
  let line := gStrstrip line
  if line = [] ∨ line.head? = some '#' then none
  else
    let word := line.takeWhile (! gAsciiIsspace ·)
    if 16 ≤ word.length then some (gAsciiStrdown word) else none

-- `load_file`
def loadFile (blocked : List CString) : Option CString → List CString
  | none          => blocked
  | some contents =>
    (gStrsplitAll (gStrndup contents) '\n').foldl (fun blocked line => (lineEntry line).toList ++ blocked) blocked

namespace Tables

variable (sha256 : Sha256) (files : Files) (host : CString) (s : Tables)

def ensureLoaded : Tables :=
  if s.loaded then s
  else
    match files.override with
    | some contents => { blocked := loadFile [] contents, loaded := true }
    | none          => { blocked := loadFile (loadFile [] files.user) files.bundled, loaded := true }

-- `ns_safebrowsing_allow_host`. No host is the empty one.
def allowHost : Tables :=
  if host = [] then s
  else
    let s := s.ensureLoaded files
    { s with allow := gAsciiStrdown host :: s.allow }

end Tables

-- The host without the dots at its end, in lower case.
def lowHost (host : CString) : CString :=
  (gAsciiStrdown host).rdropWhile (· == '.')

-- The loop over a host and what is behind its dots, one after the other. The second text is where `strchr` looks.
def hitLoop (blocked : CString → Bool) : CString → CString → Bool
  | _, []        => false
  | h, c :: rest => if c = '.' then blocked h || hitLoop blocked rest rest else hitLoop blocked h rest

def isBlocked (sha256 : Sha256) (s : Tables) (h : CString) : Bool :=
  (hostSha256Hex sha256 h).any (s.blocked.contains ·)

-- `ns_safebrowsing_blocked`
def Tables.blockedHost (sha256 : Sha256) (files : Files) (host : CString) (s : Tables) : Bool × Tables :=
  if host = [] then (false, s)
  else
    let s := s.ensureLoaded files
    if s.blocked = [] then (false, s)
    else
      let low := lowHost host
      if s.allow.contains low then (false, s) else (hitLoop (isBlocked sha256 s) low low, s)

-- A call of the two functions.
inductive Call
  | allowHost (host : CString)
  | blocked (host : CString)
deriving DecidableEq

def Call.exec (sha256 : Sha256) (files : Files) (s : Tables) : Call → Tables
  | allowHost host => s.allowHost files host
  | blocked host   => (s.blockedHost sha256 files host).2

-- The tables after some calls, and what a call answers then.
def after (sha256 : Sha256) (files : Files) (calls : List Call) : Tables :=
  calls.foldl (Call.exec sha256 files) {}

def answer (sha256 : Sha256) (files : Files) (calls : List Call) (host : CString) : Bool :=
  ((after sha256 files calls).blockedHost sha256 files host).1

-- The files that are read, and whether a line of one of them is a text in hexadecimal digits, whatever follows it.
def Files.read (files : Files) : List CString :=
  match files.override with
  | some contents => contents.toList
  | none          => files.user.toList ++ files.bundled.toList

def Files.Holds (files : Files) (hex : CString) : Prop :=
  ∃ contents ∈ files.read, ∃ line ∈ gStrsplitAll (gStrndup contents) '\n',
    (gStrstrip line).head?.isSome ∧ (gStrstrip line).head? ≠ some '#' ∧
      gAsciiStrdown ((gStrstrip line).takeWhile (! gAsciiIsspace ·)) = hex

-- A domain that a name is in.
def IsParent (d h : CString) : Prop :=
  ∃ sub, h = sub ++ '.' :: d

section Spec

variable (sha256 : Sha256) (files : Files) (calls : List Call) (host : CString)

-- The host was allowed, in some letter case and with some dots at its end.
def Allowed : Prop :=
  ∃ a, .allowHost a ∈ calls ∧ lowHost a = lowHost host

def AllowedWithoutDots : Prop :=
  ∃ a, .allowHost a ∈ calls ∧ gAsciiStrdown a = lowHost host

-- The host or a domain that it is in has at least two labels, and the list has its hash.
def ListedDomain : Prop :=
  ∃ d, (d = lowHost host ∨ IsParent d (lowHost host)) ∧ '.' ∈ d ∧ files.Holds (sha256Hex sha256 d)

def ListedHost : Prop :=
  files.Holds (sha256Hex sha256 (lowHost host))

-- What a call has to answer.
def Right : Prop :=
  answer sha256 files calls host ↔
    ¬Allowed calls host ∧ (ListedHost sha256 files host ∨
      ∃ d, IsParent d (lowHost host) ∧ '.' ∈ d ∧ files.Holds (sha256Hex sha256 d))

end Spec

section Load

variable {sha256 : Sha256} {files : Files} {x : CString} {t : List CString}

theorem mem_loadFile {contents : Option CString} : x ∈ loadFile t contents ↔
    x ∈ t ∨ ∃ text ∈ contents, ∃ line ∈ gStrsplitAll (gStrndup text) '\n', lineEntry line = some x := by
  cases contents
  case none      => simp [loadFile]
  case some text =>
    simp only [loadFile, Option.mem_some_iff, exists_eq_left']
    generalize gStrsplitAll (gStrndup text) '\n' = lines
    induction lines generalizing t
    case nil => simp
    case cons line lines hi =>
      rw [List.foldl_cons, hi, List.mem_append, Option.mem_toList, List.exists_mem_cons_iff]
      constructor
      · rintro ((h | h) | h)
        · exact .inr (.inl h)
        · exact .inl h
        · exact .inr (.inr h)
      · rintro (h | h | h)
        · exact .inl (.inr h)
        · exact .inl (.inl h)
        · exact .inr h

theorem length_flatMap_hexByte (bs : List UInt8) : (bs.flatMap hexByte).length = 2 * bs.length := by
  induction bs
  case nil          => rfl
  case cons b bs hi =>
    rw [List.flatMap_cons, List.length_append, hi, List.length_cons, hexByte]
    simp only [List.length_cons, List.length_nil]
    omega

theorem length_sha256Hex (host : CString) : (sha256Hex sha256 host).length = 64 := by
  rw [sha256Hex, length_flatMap_hexByte, Vector.length_toList]

-- A digest is long enough for an entry.
theorem lineEntry_eq_iff {line host : CString} : lineEntry line = some (sha256Hex sha256 host) ↔
    (gStrstrip line).head?.isSome ∧ (gStrstrip line).head? ≠ some '#' ∧
      gAsciiStrdown ((gStrstrip line).takeWhile (! gAsciiIsspace ·)) = sha256Hex sha256 host := by
  rw [lineEntry]
  dsimp only
  by_cases hc : gStrstrip line = [] ∨ (gStrstrip line).head? = some '#'
  case pos =>
    rw [if_pos hc]
    refine ⟨fun h => (by cases h), fun ⟨hs, hne, _⟩ => ?_⟩
    rcases hc with hc | hc
    · rw [hc] at hs
      cases hs
    · exact absurd hc hne
  case neg =>
    have ⟨hnil, hne⟩ := not_or.mp hc
    rw [if_neg hc]
    constructor
    · intro h
      split at h
      case isTrue =>
        exact ⟨List.isSome_head?.mpr hnil, hne, Option.some.inj h⟩
      case isFalse => cases h
    · rintro ⟨-, -, h⟩
      have hlen : 16 ≤ ((gStrstrip line).takeWhile (! gAsciiIsspace ·)).length := by
        rw [← length_gAsciiStrdown, h, length_sha256Hex]
        decide
      rw [if_pos hlen, h]

theorem holds_iff {host : CString} : files.Holds (sha256Hex sha256 host) ↔
    sha256Hex sha256 host ∈ (({} : Tables).ensureLoaded files).blocked := by
  rw [Files.Holds, Files.read, Tables.ensureLoaded, if_neg Bool.false_ne_true]
  simp only [← lineEntry_eq_iff]
  cases files.override
  case none =>
    simp only [mem_loadFile, List.mem_append, Option.mem_toList, or_and_right, exists_or, List.not_mem_nil,
      false_or]
    rfl
  case some =>
    simp only [mem_loadFile, Option.mem_toList, List.not_mem_nil, false_or]
    rfl

end Load

section After

variable {sha256 : Sha256} {files : Files} {calls : List Call} {host x : CString} {s : Tables}

namespace Tables

theorem ensureLoaded_of_loaded (h : s.loaded) : s.ensureLoaded files = s :=
  if_pos h

theorem loaded_ensureLoaded (s : Tables) : (s.ensureLoaded files).loaded := by
  rw [ensureLoaded]
  split
  case isTrue h => exact h
  case isFalse =>
    split
    all_goals rfl

-- The tables that are loaded hold the lists of the files.
def IsLoaded (files : Files) (s : Tables) : Prop :=
  if s.loaded then s.blocked = (({} : Tables).ensureLoaded files).blocked else s = {}

theorem isLoaded_ensureLoaded (h : s.IsLoaded files) : (s.ensureLoaded files).IsLoaded files := by
  rw [IsLoaded] at h
  split at h
  case isTrue hl =>
    rw [ensureLoaded_of_loaded hl, IsLoaded, if_pos hl]
    exact h
  case isFalse =>
    rw [h, IsLoaded, if_pos (loaded_ensureLoaded _)]

theorem IsLoaded.blocked (h : s.IsLoaded files) :
    (s.ensureLoaded files).blocked = (({} : Tables).ensureLoaded files).blocked := by
  have hl := isLoaded_ensureLoaded h
  rwa [IsLoaded, if_pos (loaded_ensureLoaded s)] at hl

theorem IsLoaded.allow (h : s.IsLoaded files) : (s.ensureLoaded files).allow = s.allow := by
  rw [IsLoaded] at h
  split at h
  case isTrue hl => rw [ensureLoaded_of_loaded hl]
  case isFalse =>
    rw [h, ensureLoaded, if_neg Bool.false_ne_true]
    split
    all_goals rfl

theorem blockedHost_snd : (s.blockedHost sha256 files host).2 = if host = [] then s else s.ensureLoaded files := by
  rw [blockedHost]
  split_ifs
  all_goals dsimp only
  all_goals split_ifs
  all_goals rfl

end Tables

theorem after_concat (c : Call) :
    after sha256 files (calls ++ [c]) = c.exec sha256 files (after sha256 files calls) := by
  rw [after, List.foldl_append]
  rfl

-- A call keeps the tables what they are, and the host of a call is the only one that it allows.
theorem isLoaded_exec {c : Call} (h : s.IsLoaded files) : (c.exec sha256 files s).IsLoaded files ∧
    (x ∈ (c.exec sha256 files s).allow ↔ x ∈ s.allow ∨ ∃ a, .allowHost a = c ∧ a ≠ [] ∧ gAsciiStrdown a = x) := by
  cases c
  case allowHost host =>
    rw [Call.exec, Tables.allowHost]
    split
    case isTrue hnil =>
      subst hnil
      refine ⟨h, .inl, fun hx => hx.resolve_right ?_⟩
      rintro ⟨a, ha, hne, -⟩
      cases ha
      exact hne rfl
    case isFalse hne =>
      have hl : (s.ensureLoaded files).loaded := Tables.loaded_ensureLoaded s
      constructor
      · rw [Tables.IsLoaded, if_pos hl]
        exact h.blocked
      · rw [List.mem_cons, h.allow]
        constructor
        · rintro (rfl | hx)
          · exact .inr ⟨host, rfl, hne, rfl⟩
          · exact .inl hx
        · rintro (hx | ⟨a, ha, -, rfl⟩)
          · exact .inr hx
          · cases ha
            exact .inl rfl
  case blocked host =>
    have hno : ¬∃ a, Call.allowHost a = .blocked host ∧ a ≠ [] ∧ gAsciiStrdown a = x := by
      rintro ⟨a, ha, -⟩
      cases ha
    rw [Call.exec, Tables.blockedHost_snd, or_iff_left hno]
    split
    · exact ⟨h, .rfl⟩
    · exact ⟨Tables.isLoaded_ensureLoaded h, by rw [h.allow]⟩

theorem after_spec : (after sha256 files calls).IsLoaded files ∧ ∀ x, x ∈ (after sha256 files calls).allow ↔
    ∃ a, .allowHost a ∈ calls ∧ a ≠ [] ∧ gAsciiStrdown a = x := by
  induction calls using List.reverseRecOn
  case nil => exact ⟨rfl, fun x => by simp [after]⟩
  case append_singleton calls c hi =>
    obtain ⟨hl, hx⟩ := hi
    rw [after_concat]
    refine ⟨(isLoaded_exec (x := []) hl).left, fun x => ?_⟩
    rw [(isLoaded_exec hl).right, hx]
    simp only [List.mem_append, List.mem_singleton, or_and_right, exists_or]

end After

section Answer

variable {sha256 : Sha256} {files : Files} {calls : List Call} {host d h : CString} {c : Char}

theorem isParent_nil : ¬IsParent d [] := by
  rintro ⟨sub, h⟩
  exact List.append_ne_nil_of_right_ne_nil _ (List.cons_ne_nil _ _) h.symm

theorem isParent_cons : IsParent d (c :: h) ↔ c = '.' ∧ h = d ∨ IsParent d h := by
  constructor
  · rintro ⟨_ | ⟨a, sub⟩, h⟩
    · exact .inl (List.cons.inj h)
    · exact .inr ⟨sub, (List.cons.inj h).right⟩
  · rintro (⟨rfl, rfl⟩ | ⟨sub, rfl⟩)
    · exact ⟨[], rfl⟩
    · exact ⟨c :: sub, rfl⟩

theorem IsParent.trans {e : CString} (h : IsParent d e) (h' : IsParent e host) : IsParent d host := by
  obtain ⟨sub, rfl⟩ := h
  obtain ⟨sub', rfl⟩ := h'
  exact ⟨sub' ++ '.' :: sub, by rw [List.append_assoc, List.cons_append]⟩

-- The loop looks up the name, if there is a dot in what is left, and what is behind a dot if there is another one.
theorem hitLoop_iff {blocked : CString → Bool} {rest : CString} : hitLoop blocked h rest ↔
    '.' ∈ rest ∧ blocked h ∨ ∃ d, IsParent d rest ∧ '.' ∈ d ∧ blocked d := by
  induction rest generalizing h
  case nil              => simp [hitLoop, isParent_nil]
  case cons c rest hi =>
    simp only [hitLoop, isParent_cons, List.mem_cons]
    split
    case isTrue hc =>
      subst hc
      rw [Bool.or_eq_true, hi]
      constructor
      · rintro (hb | ⟨hdot, hb⟩ | ⟨d, hd, hb⟩)
        · exact .inl ⟨.inl rfl, hb⟩
        · exact .inr ⟨rest, .inl ⟨rfl, rfl⟩, hdot, hb⟩
        · exact .inr ⟨d, .inr hd, hb⟩
      · rintro (⟨-, hb⟩ | ⟨d, ⟨-, rfl⟩ | hd, hb⟩)
        · exact .inl hb
        · exact .inr (.inl hb)
        · exact .inr (.inr ⟨d, hd, hb⟩)
    case isFalse hc => simp only [hi, Ne.symm hc, hc, false_and, false_or]

theorem isBlocked_iff {s : Tables} (hd : '.' ∈ d) : isBlocked sha256 s d ↔ sha256Hex sha256 d ∈ s.blocked := by
  rw [isBlocked, hostSha256Hex, if_neg (List.ne_nil_of_mem hd), Option.any_some, List.contains_iff_mem]

theorem ListedDomain.ne_nil (h : ListedDomain sha256 files host) : lowHost host ≠ [] := by
  obtain ⟨d, hd, hdot, -⟩ := h
  intro hnil
  rw [hnil] at hd
  rcases hd with rfl | hd
  · cases hdot
  · exact isParent_nil hd

-- What the code answers.
theorem answer_iff : answer sha256 files calls host ↔
    ListedDomain sha256 files host ∧ ¬AllowedWithoutDots calls host := by
  obtain ⟨hl, hallow⟩ : (after sha256 files calls).IsLoaded files ∧ _ := after_spec
  have hlisted : hitLoop (isBlocked sha256 ((after sha256 files calls).ensureLoaded files)) (lowHost host)
      (lowHost host) ↔ ListedDomain sha256 files host := by
    simp only [hitLoop_iff, ListedDomain, holds_iff, or_and_right, exists_or, exists_eq_left, ← hl.blocked]
    refine or_congr (and_congr_right isBlocked_iff) (exists_congr fun d => and_congr_right fun _ => ?_)
    exact and_congr_right isBlocked_iff
  rw [answer, Tables.blockedHost]
  split
  case isTrue hnil =>
    subst hnil
    exact ⟨fun h => (by cases h), fun h => absurd rfl h.left.ne_nil⟩
  case isFalse =>
    dsimp only
    split
    case isTrue hnone =>
      refine ⟨fun h => (by cases h), fun ⟨⟨d, _, _, hd⟩, _⟩ => ?_⟩
      rw [holds_iff, ← hl.blocked, hnone] at hd
      cases hd
    case isFalse =>
      split
      case isTrue ha =>
        rw [List.contains_iff_mem, hl.allow, hallow] at ha
        obtain ⟨a, ha, -, he⟩ := ha
        exact ⟨fun h => (by cases h), fun h => absurd ⟨a, ha, he⟩ h.right⟩
      case isFalse ha =>
        rw [List.contains_iff_mem, hl.allow, hallow] at ha
        refine hlisted.trans ⟨fun hd => ⟨hd, ?_⟩, And.left⟩
        rintro ⟨a, hc, he⟩
        refine ha ⟨a, hc, ?_, he⟩
        rintro rfl
        exact hd.ne_nil he.symm

theorem lowHost_eq_of_gAsciiStrdown {a : CString} (h : gAsciiStrdown a = lowHost host) :
    lowHost a = lowHost host := by
  rw [lowHost, h, lowHost, List.rdropWhile_idempotent]

theorem AllowedWithoutDots.allowed (h : AllowedWithoutDots calls host) : Allowed calls host := by
  obtain ⟨a, ha, he⟩ := h
  exact ⟨a, ha, lowHost_eq_of_gAsciiStrdown he⟩

theorem listedDomain_iff : ListedDomain sha256 files host ↔ '.' ∈ lowHost host ∧ ListedHost sha256 files host ∨
    ∃ d, IsParent d (lowHost host) ∧ '.' ∈ d ∧ files.Holds (sha256Hex sha256 d) := by
  simp only [ListedDomain, ListedHost, or_and_right, exists_or, exists_eq_left]

-- A host of one label is in no domain.
theorem listedDomain_of_no_dot (h : '.' ∉ lowHost host) : ¬ListedDomain sha256 files host := by
  rintro ⟨d, rfl | ⟨sub, hs⟩, hdot, -⟩
  · exact h hdot
  · exact h (hs ▸ List.mem_append_right _ List.mem_cons_self)

theorem right_iff : Right sha256 files calls host ↔
    (Allowed calls host → ListedDomain sha256 files host → AllowedWithoutDots calls host) ∧
      (¬Allowed calls host → '.' ∉ lowHost host → ¬ListedHost sha256 files host) := by
  rw [Right, answer_iff]
  by_cases ha : Allowed calls host
  case pos =>
    simp only [ha, not_true, false_and, iff_false, true_imp_iff, false_imp_iff, and_true, not_and_not_right]
  case neg =>
    have hno : ¬AllowedWithoutDots calls host := fun h => ha h.allowed
    simp only [ha, hno, not_false_iff, and_true, true_and, false_imp_iff, true_imp_iff]
    by_cases hdot : '.' ∈ lowHost host
    case pos => simp only [listedDomain_iff, hdot, true_and, not_true, false_imp_iff]
    case neg =>
      have hdomain : ¬ListedDomain sha256 files host := listedDomain_of_no_dot hdot
      have hparent : ¬∃ d, IsParent d (lowHost host) ∧ '.' ∈ d ∧ files.Holds (sha256Hex sha256 d) :=
        fun h => hdomain (listedDomain_iff.mpr (.inr h))
      simp only [hdomain, hparent, hdot, or_false, not_false_iff, true_imp_iff, false_iff]

-- When the calls answer right for a host, that a domain blocks all below it, and that allowing a host is about
-- that host only.
theorem blocked_spec (sha256 : Sha256) (files : Files) (calls : List Call) :
    (∀ host, Right sha256 files calls host ↔
      (Allowed calls host → ListedDomain sha256 files host → AllowedWithoutDots calls host) ∧
        (¬Allowed calls host → '.' ∉ lowHost host → ¬ListedHost sha256 files host)) ∧
    (∀ d host, answer sha256 files calls d → IsParent (lowHost d) (lowHost host) → ¬Allowed calls host →
      answer sha256 files calls host) ∧
    ∀ a host, answer sha256 files (calls ++ [.allowHost a]) host ≠ answer sha256 files calls host →
      lowHost a = lowHost host := by
  refine ⟨fun host => right_iff, fun d host hd hp ha => ?_, fun a host hne => ?_⟩
  · obtain ⟨⟨e, he, hdot, hlist⟩, -⟩ := answer_iff.mp hd
    refine answer_iff.mpr ⟨⟨e, .inr ?_, hdot, hlist⟩, fun h => ha h.allowed⟩
    exact he.elim (fun he => he ▸ hp) fun he => he.trans hp
  · by_contra hlow
    have hsame : AllowedWithoutDots (calls ++ [.allowHost a]) host ↔ AllowedWithoutDots calls host := by
      refine ⟨fun ⟨b, hb, he⟩ => ⟨b, ?_, he⟩, fun ⟨b, hb, he⟩ => ⟨b, List.mem_append_left _ hb, he⟩⟩
      rcases List.mem_append.mp hb with hb | hb
      · exact hb
      · cases List.mem_singleton.mp hb
        exact absurd (lowHost_eq_of_gAsciiStrdown he) hlow
    exact hne (Bool.eq_iff_iff.mpr (by rw [answer_iff, answer_iff, hsame]))

end Answer

-- A digest that tells names of up to 32 bytes apart, and a list of one of them.
def padded : Sha256 :=
  fun s => .ofFn fun i => .ofNat (s.getD i '\x00').toNat

def oneHost : Files where
  override := none
  user     := some (sha256Hex padded "a.b".toList ++ "  # a.b\n".toList)
  bundled  := none

-- A host that is allowed with a dot at its end stays blocked.
theorem not_right_trailingDot :
    ¬∀ (sha256 : Sha256) (files : Files) (calls : List Call) (host : CString), Right sha256 files calls host := by
  intro h
  have hanswer : answer padded oneHost [.allowHost "a.b.".toList] "a.b".toList := by decide
  refine ((h padded oneHost [.allowHost "a.b.".toList] "a.b".toList).mp hanswer).left ?_
  exact ⟨_, List.mem_singleton.mpr rfl, by decide⟩

end Nordstjernen.Net.SafeBrowsing
