import Nordstjernen.Ext.Filter

open Nordstjernen.Glib

namespace Nordstjernen.Ext

section Lists

variable {p a b : CString} {test : Char → Bool}

-- A prefix that contains no character of a kind ends before the first one.
theorem prefix_of_prefix_append (h : p <+: a ++ b) (hp : ∀ c ∈ p, test c = false)
    (hb : ∀ c ∈ b.head?, test c = true) : p <+: a := by
  obtain ⟨t, h⟩ := h
  rcases List.append_eq_append_iff.mp h with ⟨s, rfl, -⟩ | ⟨s, rfl, rfl⟩
  case inl => exact List.prefix_append _ _
  case inr =>
    cases s
    case nil => exact (List.append_nil a).symm ▸ List.prefix_rfl
    case cons c s =>
      have hc := hb c rfl
      rw [hp c (List.mem_append_right _ List.mem_cons_self)] at hc
      cases hc

theorem mem_gAsciiStrdown_iff {c : Char} {s : CString} (h : c.isAlpha = false) :
    c ∈ gAsciiStrdown s ↔ c ∈ s := by
  rw [gAsciiStrdown, List.mem_map]
  constructor
  case mp =>
    rintro ⟨d, hd, e⟩
    rwa [← (gAsciiTolower_eq_iff h).mp e]
  case mpr => exact fun hc => ⟨c, hc, (gAsciiTolower_eq_iff h).mpr rfl⟩

theorem endsAuthority_gAsciiTolower (c : Char) : endsAuthority (gAsciiTolower c) = endsAuthority c := by
  have h (d : Char) (hd : d.isAlpha = false) : (gAsciiTolower c == d) = (c == d) := by
    rw [Bool.eq_iff_iff, beq_iff_eq, beq_iff_eq, gAsciiTolower_eq_iff hd]
  rw [endsAuthority, endsAuthority, h '/' rfl, h '?' rfl, h '#' rfl]

end Lists

section Port

variable {a b : CString}

theorem stripPort_append (ha : ':' ∉ a) (hb : ∀ c ∈ b.head?, c = ':') : stripPort (a ++ b) = a := by
  have hp : ∀ c ∈ a, decide (c ≠ ':') = true := fun c hc => decide_eq_true fun he => ha (he ▸ hc)
  rw [stripPort, List.takeWhile_append_of_pos hp]
  cases b
  case nil => exact List.append_nil a
  case cons c b =>
    obtain rfl := hb c rfl
    exact List.append_nil a

theorem notMem_stripPort (a : CString) : ':' ∉ stripPort a := by
  intro h
  have hc := List.mem_takeWhile_imp h
  exact of_decide_eq_true hc rfl

theorem stripPort_of_mem (h : ':' ∈ a) (b : CString) : stripPort (a ++ b) = stripPort a := by
  rw [stripPort, List.takeWhile_append, if_neg]
  · rfl
  · intro he
    have hs : stripPort a = a := (List.takeWhile_prefix _).eq_of_length he
    exact notMem_stripPort a (hs.symm ▸ h)

theorem stripPort_gAsciiStrdown (a : CString) : stripPort (gAsciiStrdown a) = gAsciiStrdown (stripPort a) := by
  have hc : (fun c => decide (c ≠ ':')) ∘ gAsciiTolower = fun c => decide (c ≠ ':') := by
    funext c
    exact decide_eq_decide.mpr (not_congr (gAsciiTolower_eq_iff rfl))
  rw [stripPort, gAsciiStrdown, List.takeWhile_map, hc]
  rfl

end Port

section Match

variable {h s : CString}

theorem matchHere_literal (hh : ∀ c ∈ h, c ≠ '*' ∧ c ≠ '^') :
    matchHere false (h ++ ['^']) s = true ↔
      ∃ t, s = h ++ t ∧ ∀ c ∈ t.head?, isSeparator c = true := by
  induction h generalizing s
  case nil =>
    cases s
    case nil  => exact iff_of_true rfl ⟨[], rfl, by rintro _ ⟨⟩⟩
    case cons c s =>
      have hm : matchHere false ['^'] (c :: s) = (isSeparator c && true) := rfl
      rw [List.nil_append, hm, Bool.and_true]
      constructor
      case mp =>
        intro hc
        refine ⟨c :: s, rfl, ?_⟩
        rintro _ ⟨⟩
        exact hc
      case mpr =>
        rintro ⟨_, rfl, ht⟩
        exact ht c rfl
  case cons f h ih =>
    have ⟨⟨h₁, h₂⟩, hh⟩ := List.forall_mem_cons.mp hh
    cases s
    case nil =>
      refine iff_of_false ?_ (by rintro ⟨_, ⟨⟩, _⟩)
      have hm : matchHere false (f :: h ++ ['^']) [] = false := by
        rw [List.cons_append, matchHere]
        · exact h₁
        · exact h₂
      rw [hm]
      exact Bool.false_ne_true
    case cons c s =>
      have hm : matchHere false (f :: h ++ ['^']) (c :: s) =
          (c == f && matchHere false (h ++ ['^']) s) := by
        rw [List.cons_append, matchHere]
        · exact h₁
        · exact h₂
      rw [hm, Bool.and_eq_true, beq_iff_eq, ih hh]
      constructor
      case mp =>
        rintro ⟨rfl, t, rfl, ht⟩
        exact ⟨t, rfl, ht⟩
      case mpr =>
        rintro ⟨t, e, ht⟩
        cases e
        exact ⟨rfl, t, rfl, ht⟩

end Match

section Labels

variable {atLabel : Bool} {p s : CString} {c : Char}

-- What stands in front of a label, if a label begins at the front or not.
def Before (atLabel : Bool) (p : CString) : Prop :=
  atLabel = true ∧ p = [] ∨ p.getLast? = some '.'

theorem before_true : Before true p ↔ BeforeLabel p := by
  rw [Before, BeforeLabel, and_iff_right rfl]

theorem before_cons : Before atLabel (c :: p) ↔ Before (c == '.') p := by
  cases p
  case nil  => simp [Before]
  case cons => simp [Before, List.getLast?_cons_cons]

theorem before_nil : Before atLabel [] ↔ atLabel = true := by
  simp [Before]

theorem exists_split_cons {R : CString → CString → Prop} :
    (∃ p q, c :: s = p ++ q ∧ Before atLabel p ∧ R p q) ↔
      (atLabel = true ∧ R [] (c :: s)) ∨
        ∃ p q, s = p ++ q ∧ Before (c == '.') p ∧ R (c :: p) q := by
  constructor
  case mp =>
    rintro ⟨p, q, h, hb, hr⟩
    cases p
    case nil =>
      cases h
      exact .inl ⟨before_nil.mp hb, hr⟩
    case cons =>
      cases h
      exact .inr ⟨_, q, rfl, before_cons.mp hb, hr⟩
  case mpr =>
    rintro (⟨hb, hr⟩ | ⟨p, q, rfl, hb, hr⟩)
    · exact ⟨[], _, rfl, before_nil.mpr hb, hr⟩
    · exact ⟨c :: p, q, rfl, before_cons.mpr hb, hr⟩

theorem anyLabel_iff {test : CString → Bool} : anyLabel test atLabel s = true ↔
    ∃ p q, s = p ++ q ∧ Before atLabel p ∧ (∀ c ∈ p, endsAuthority c = false) ∧ test q = true := by
  induction s generalizing atLabel
  case nil =>
    rw [anyLabel, Bool.and_eq_true]
    constructor
    case mp => exact fun ⟨h, ht⟩ => ⟨[], [], rfl, before_nil.mpr h, by simp, ht⟩
    case mpr =>
      rintro ⟨p, q, h, hb, -, ht⟩
      obtain ⟨rfl, rfl⟩ := List.append_eq_nil_iff.mp h.symm
      exact ⟨before_nil.mp hb, ht⟩
  case cons c s ih =>
    rw [anyLabel, exists_split_cons, Bool.or_eq_true, Bool.and_eq_true, Bool.and_eq_true, ih,
      Bool.not_eq_true']
    refine or_congr ⟨fun ⟨h, ht⟩ => ⟨h, by simp, ht⟩, fun ⟨h, _, ht⟩ => ⟨h, ht⟩⟩ ?_
    constructor
    case mp =>
      rintro ⟨hc, p, q, h, hb, hp, ht⟩
      exact ⟨p, q, h, hb, List.forall_mem_cons.mpr ⟨hc, hp⟩, ht⟩
    case mpr =>
      rintro ⟨p, q, h, hb, hp, ht⟩
      have ⟨hc, hp⟩ := List.forall_mem_cons.mp hp
      exact ⟨hc, p, q, h, hb, hp, ht⟩

theorem indexedFrom_iff {hosts : List CString} : indexedFrom hosts atLabel s = true ↔
    ∃ p q, s = p ++ q ∧ Before atLabel p ∧ q ≠ [] ∧ q ∈ hosts := by
  induction s generalizing atLabel
  case nil =>
    refine iff_of_false Bool.false_ne_true ?_
    rintro ⟨p, q, h, -, hq, -⟩
    exact hq (List.append_eq_nil_iff.mp h.symm).right
  case cons c s ih =>
    rw [indexedFrom, exists_split_cons, Bool.or_eq_true, Bool.and_eq_true, ih, List.contains_iff_mem]
    exact or_congr_left (and_congr_right fun _ => (and_iff_right (List.cons_ne_nil _ _)).symm)

end Labels

section Filter

variable {f : HostFilter} {filters : List HostFilter}

theorem HostFilter.notMem_lower {c : Char} (h : c.isAlpha = false)
    (hc : (c.isAlphanum || c == '.' || c == '-') = false) : c ∉ f.lower := by
  intro hm
  rw [f.chars c ((mem_gAsciiStrdown_iff h).mp hm)] at hc
  cases hc

theorem HostFilter.lower_ne_nil (f : HostFilter) : f.lower ≠ [] :=
  fun h => f.ne_nil (List.map_eq_nil_iff.mp h)

theorem HostFilter.lower_endsAuthority : ∀ c ∈ f.lower, endsAuthority c = false := by
  intro c hc
  rw [endsAuthority, Bool.or_eq_false_iff, Bool.or_eq_false_iff, beq_eq_false_iff_ne,
    beq_eq_false_iff_ne, beq_eq_false_iff_ne]
  refine ⟨⟨?_, ?_⟩, ?_⟩
  · rintro rfl
    exact f.notMem_lower rfl rfl hc
  · rintro rfl
    exact f.notMem_lower rfl rfl hc
  · rintro rfl
    exact f.notMem_lower rfl rfl hc

theorem urlfilterMatch_pattern (url : CString) : urlfilterMatch f.pattern url false =
    anyLabel (matchHere false (f.lower ++ ['^'])) true
      ((behindScheme (gAsciiStrdown url)).getD (gAsciiStrdown url)) := by
  have hf : gAsciiStrdown f.pattern = '|' :: '|' :: (f.lower ++ ['^']) := by
    rw [HostFilter.pattern, HostFilter.lower]
    simp only [gAsciiStrdown, List.map_cons, List.map_append]
    rfl
  have he : (f.lower ++ ['^']).getLast? = some '^' := List.getLast?_concat
  have hn : f.pattern ≠ [] := List.cons_ne_nil _ _
  rw [urlfilterMatch, if_neg hn]
  simp only [Bool.false_eq_true, if_false, hf, he]
  rfl

theorem isSimpleHost_pattern (f : HostFilter) : Blocker.isSimpleHost f.pattern = true := by
  have hd : (f.pattern.drop 2).dropLast = f.host := List.dropLast_concat
  have hl : f.pattern.getLast? = some '^' := by
    rw [HostFilter.pattern, ← List.cons_append, ← List.cons_append]
    exact List.getLast?_concat
  have hn := List.length_pos_of_ne_nil f.ne_nil
  have h₃ : 3 < f.pattern.length := by
    simp only [HostFilter.pattern, List.length_cons, List.length_append, List.length_nil]
    omega
  rw [Blocker.isSimpleHost, hd, hl, List.all_eq_true.mpr f.chars, decide_eq_true h₃]
  rfl

theorem foldl_addPattern (hosts : List CString) (exts : List (List Rule)) :
    filters.foldl (fun s f => Blocker.addPattern 0 s f.pattern) (⟨hosts, exts⟩ : Blocker) =
      ⟨hosts ++ filters.map (·.lower), exts⟩ := by
  induction filters generalizing hosts
  case nil => rw [List.map_nil, List.append_nil, List.foldl_nil]
  case cons f fs ih =>
    have hd : (f.pattern.drop 2).dropLast = f.host := List.dropLast_concat
    rw [List.foldl_cons, Blocker.addPattern, if_pos (isSimpleHost_pattern f), hd, ih, List.append_assoc]
    rfl

theorem indexed_eq (filters : List HostFilter) :
    HostFilter.indexed filters = ⟨filters.map (·.lower), [[]]⟩ :=
  foldl_addPattern [] [[]]

end Filter

section Url

variable (url : Url)

-- What follows the host.
def Url.tail : CString :=
  url.portText ++ gAsciiStrdown url.rest

theorem behindScheme_append {s t : CString} (h : ':' ∉ s) :
    behindScheme (s ++ ("://".toList ++ t)) = some t := by
  induction s
  case nil => rfl
  case cons c s ih =>
    rw [List.mem_cons, not_or] at h
    have hp : gStrHasPrefix (c :: (s ++ ("://".toList ++ t))) "://".toList = false := by
      have hb : (':' == c) = false := beq_false_of_ne h.left
      have hl : "://".toList = ':' :: "//".toList := rfl
      rw [gStrHasPrefix, hl, List.isPrefixOf, hb, Bool.false_and]
    rw [List.cons_append, behindScheme, hp]
    exact ih h.right

theorem urlHost_append {s a t : CString} (hs : ':' ∉ s) (ha : ∀ c ∈ a, endsAuthority c = false)
    (ht : ∀ c ∈ t.head?, endsAuthority c = true) :
    urlHost (s ++ ("://".toList ++ (a ++ t))) = some (gAsciiStrdown a) := by
  have hp : ∀ c ∈ a, (!endsAuthority c) = true := fun c hc => by rw [ha c hc]; rfl
  have hr : t.takeWhile (!endsAuthority ·) = [] := by
    cases t
    case nil => rfl
    case cons c t => exact List.takeWhile_cons_of_neg (by simp [ht c rfl])
  rw [urlHost, behindScheme_append hs, Option.map_some, List.takeWhile_append_of_pos hp, hr, List.append_nil]

theorem gAsciiStrdown_portText : gAsciiStrdown url.portText = url.portText := by
  rw [Url.portText]
  cases hp : url.port
  case none => rfl
  case some s =>
    have hs : gAsciiStrdown s = s := by
      refine (List.map_congr_left fun c hc => ?_).trans (List.map_id s)
      have hd : 48 ≤ c.toNat ∧ c.toNat ≤ 57 := Char.isDigit_iff_toNat.mp (url.port_ok s hp c hc)
      refine if_neg fun hu => ?_
      have hr : 'A'.val ≤ c.val ∧ c.val ≤ 'Z'.val := of_decide_eq_true hu
      have h₁ : 65 ≤ c.toNat := UInt32.le_iff_toNat_le.mp hr.left
      omega
    exact congrArg (':' :: ·) hs

theorem Url.behindScheme_lower : behindScheme (gAsciiStrdown url.text) = some (url.lowerHost ++ url.tail) := by
  have hs : ':' ∉ gAsciiStrdown url.scheme := fun h => url.scheme_ok ((mem_gAsciiStrdown_iff rfl).mp h)
  have ht : gAsciiStrdown url.text =
      gAsciiStrdown url.scheme ++ ("://".toList ++ (url.lowerHost ++ url.tail)) := by
    have hl : gAsciiStrdown "://".toList = "://".toList := by decide
    simp only [Url.text, gAsciiStrdown_append, hl, gAsciiStrdown_portText, Url.lowerHost, Url.tail,
      List.append_assoc]
  rw [ht, behindScheme_append hs]

theorem Url.host_endsAuthority : ∀ c ∈ url.host, endsAuthority c = false := by
  intro c hc
  rcases url.host_ok with h | ⟨inner, hi, -, h⟩
  · exact (h c hc).right
  · rw [hi] at hc
    rcases List.mem_cons.mp hc with rfl | hc
    · rfl
    rcases List.mem_append.mp hc with hc | hc
    · exact (h c hc).right.right
    · rw [List.mem_singleton.mp hc]
      rfl

theorem Url.portText_chars : ∀ c ∈ url.portText, c = ':' ∨ c.isDigit = true := by
  intro c hc
  rw [Url.portText] at hc
  cases hp : url.port <;> rw [hp] at hc
  case none => cases hc
  case some s =>
    rcases List.mem_cons.mp hc with rfl | hc
    · exact .inl rfl
    · exact .inr (url.port_ok s hp c hc)

theorem endsAuthority_of_isDigit {c : Char} (h : c = ':' ∨ c.isDigit = true) : endsAuthority c = false := by
  rw [endsAuthority, Bool.or_eq_false_iff, Bool.or_eq_false_iff, beq_eq_false_iff_ne,
    beq_eq_false_iff_ne, beq_eq_false_iff_ne]
  refine ⟨⟨?_, ?_⟩, ?_⟩ <;>
  · rintro rfl
    exact absurd h (by decide)

theorem Url.portText_head : ∀ c ∈ url.portText.head?, c = ':' := by
  rw [Url.portText]
  cases url.port
  case none => exact fun _ h => by cases h
  case some => exact fun _ h => (Option.some.inj h).symm

theorem Url.urlHost_text : urlHost url.text = some (url.lowerHost ++ url.portText) := by
  have ht : url.text = url.scheme ++ ("://".toList ++ (url.host ++ url.portText ++ url.rest)) := by
    simp only [Url.text, List.append_assoc]
  have ha : ∀ c ∈ url.host ++ url.portText, endsAuthority c = false := by
    intro c hc
    rcases List.mem_append.mp hc with hc | hc
    · exact url.host_endsAuthority c hc
    · exact endsAuthority_of_isDigit (url.portText_chars c hc)
  rw [ht, urlHost_append url.scheme_ok ha url.rest_ok, gAsciiStrdown_append, gAsciiStrdown_portText]
  rfl

theorem Url.lowerHost_endsAuthority : ∀ c ∈ url.lowerHost, endsAuthority c = false := by
  intro c hc
  obtain ⟨d, hd, rfl⟩ := List.mem_map.mp hc
  rw [endsAuthority_gAsciiTolower]
  exact url.host_endsAuthority d hd

theorem Url.lowerRest_endsAuthority : ∀ c ∈ (gAsciiStrdown url.rest).head?, endsAuthority c = true := by
  intro c hc
  rw [gAsciiStrdown, List.head?_map] at hc
  obtain ⟨d, hd, rfl⟩ := Option.map_eq_some_iff.mp hc
  rw [endsAuthority_gAsciiTolower]
  exact url.rest_ok d hd

-- The port and what follows begin with a separator.
theorem Url.tail_head : ∀ c ∈ url.tail.head?, (c == ':' || endsAuthority c) = true := by
  have hr := url.lowerRest_endsAuthority
  rw [Url.tail, Url.portText]
  cases url.port
  case none => exact fun c hc => by rw [hr c hc, Bool.or_true]
  case some => rintro _ ⟨⟩; rfl

theorem isSeparator_of_endsAuthority {c : Char} (h : (c == ':' || endsAuthority c) = true) :
    isSeparator c = true := by
  simp only [endsAuthority, Bool.or_eq_true, beq_iff_eq] at h
  rcases h with rfl | (rfl | rfl) | rfl <;> rfl

-- Labels of the authority begin in the host.
theorem Url.prefix_lowerHost {p : CString} (h : p <+: url.lowerHost ++ url.tail) (hb : BeforeLabel p)
    (hp : ∀ c ∈ p, endsAuthority c = false) : p <+: url.lowerHost := by
  rw [Url.tail, ← List.append_assoc] at h
  have h := prefix_of_prefix_append h hp url.lowerRest_endsAuthority
  rcases hb with rfl | hb
  case inl => exact List.nil_prefix
  case inr =>
    obtain ⟨t, h⟩ := h
    rcases List.append_eq_append_iff.mp h with ⟨s, hs, -⟩ | ⟨s, rfl, e⟩
    case inl => exact hs ▸ List.prefix_append _ _
    case inr =>
      -- There is no dot in the port.
      rcases List.eq_nil_or_concat' s with rfl | ⟨s, d, rfl⟩
      case inl => exact (List.append_nil _).symm ▸ List.prefix_rfl
      case inr =>
        rw [← List.append_assoc, List.getLast?_concat] at hb
        cases hb
        have hd : '.' ∈ url.portText := by
          rw [e]
          exact List.mem_append_left _ List.mem_concat_self
        exact absurd (url.portText_chars '.' hd) (by decide)

variable {url} {f : HostFilter} {filters : List HostFilter}

theorem exists_label_iff : (∃ p q, url.lowerHost ++ url.tail = p ++ q ∧ Before true p ∧
    (∀ c ∈ p, endsAuthority c = false) ∧ ∃ t, q = f.lower ++ t ∧ ∀ c ∈ t.head?, isSeparator c = true) ↔
      EndsHost f.lower url.lowerHost ∨ CutShort f.lower url.lowerHost := by
  constructor
  case mp =>
    rintro ⟨p, _, h, hb, hp, t, rfl, ht⟩
    rw [before_true] at hb
    obtain ⟨s, hs⟩ := url.prefix_lowerHost (h ▸ List.prefix_append _ _) hb hp
    rw [← hs, List.append_assoc] at h
    have hf : f.lower <+: s ++ url.tail := List.append_cancel_left h ▸ List.prefix_append _ _
    have hc : ∀ c ∈ f.lower, (c == ':' || endsAuthority c) = false := by
      intro c hc
      rw [f.lower_endsAuthority c hc, Bool.or_false, beq_eq_false_iff_ne]
      rintro rfl
      exact f.notMem_lower rfl rfl hc
    obtain ⟨r, rfl⟩ := prefix_of_prefix_append hf hc url.tail_head
    rw [List.append_assoc] at h
    have ht' : t = r ++ url.tail := (List.append_cancel_left (List.append_cancel_left h)).symm
    cases r
    case nil => exact .inl ⟨p, by rw [← hs, List.append_nil], hb⟩
    case cons c r => exact .inr ⟨p, c, r, by rw [← hs, List.append_assoc], hb, ht c (ht' ▸ rfl)⟩
  case mpr =>
    have hh := url.lowerHost_endsAuthority
    rintro (⟨p, h, hb⟩ | ⟨p, c, t, h, hb, hc⟩)
    · rw [h] at hh ⊢
      refine ⟨p, _, List.append_assoc .., before_true.mpr hb,
        fun c hc => hh c (List.mem_append_left _ hc), url.tail, rfl, fun c hc => ?_⟩
      exact isSeparator_of_endsAuthority (url.tail_head c hc)
    · rw [h] at hh ⊢
      refine ⟨p, f.lower ++ (c :: t ++ url.tail), by simp only [List.append_assoc], before_true.mpr hb,
        fun c hc => hh c (List.mem_append_left _ (List.mem_append_left _ hc)), _, rfl, ?_⟩
      rintro _ ⟨⟩
      exact hc

-- The general matcher.
theorem urlfilterMatch_iff : urlfilterMatch f.pattern url.text false = true ↔
    EndsHost f.lower url.lowerHost ∨ CutShort f.lower url.lowerHost := by
  have hl : ∀ c ∈ f.lower, c ≠ '*' ∧ c ≠ '^' := by
    intro c hc
    constructor <;>
    · rintro rfl
      exact f.notMem_lower rfl rfl hc
  rw [urlfilterMatch_pattern, url.behindScheme_lower, Option.getD_some, anyLabel_iff,
    ← exists_label_iff]
  simp only [matchHere_literal hl]

theorem stripPort_of_regName (h : IsRegName url.host) :
    stripPort (url.lowerHost ++ url.portText) = url.lowerHost := by
  refine stripPort_append (fun hc => ?_) url.portText_head
  exact (h ':' ((mem_gAsciiStrdown_iff rfl).mp hc)).left rfl

-- The text before the first colon of an address in brackets is no host of a filter.
theorem notMem_stripPort_of_ipv6 (h : IsIpv6 url.host) :
    '.' ∉ stripPort (url.lowerHost ++ url.portText) := by
  obtain ⟨inner, hi, hd, -⟩ := h
  have hl : url.lowerHost = '[' :: (gAsciiStrdown inner ++ [']']) := by
    rw [Url.lowerHost, hi]
    simp only [gAsciiStrdown, List.map_cons, List.map_append]
    rfl
  have hw : (gAsciiStrdown inner).takeWhile (· ≠ ':') = gAsciiStrdown (inner.takeWhile (· ≠ ':')) :=
    stripPort_gAsciiStrdown inner
  have hn : '.' ∉ (gAsciiStrdown inner).takeWhile (· ≠ ':') :=
    fun h => hd ((mem_gAsciiStrdown_iff rfl).mp (hw ▸ h))
  rw [hl, stripPort, List.cons_append, List.append_assoc, List.takeWhile_cons_of_pos (by decide),
    List.mem_cons, not_or, List.takeWhile_append]
  refine ⟨by decide, ?_⟩
  split
  case isFalse => exact hn
  case isTrue he =>
    have hs : (gAsciiStrdown inner).takeWhile (· ≠ ':') = gAsciiStrdown inner :=
      (List.takeWhile_prefix _).eq_of_length he
    intro h
    rcases List.mem_append.mp h with h | h
    · rw [hs] at hn
      exact hn h
    · rcases List.mem_cons.mp ((List.takeWhile_prefix _).subset h) with h | h
      · exact absurd h (by decide)
      · exact absurd (url.portText_chars '.' h) (by decide)

theorem endsHost_stripPort_iff :
    EndsHost f.lower (stripPort (url.lowerHost ++ url.portText)) ↔ EndsHost f.lower url.lowerHost := by
  rcases url.host_ok with h | h
  case inl => rw [stripPort_of_regName h]
  case inr =>
    have hd := notMem_stripPort_of_ipv6 h
    obtain ⟨inner, hi, -, -⟩ := h
    have hl : url.lowerHost = '[' :: (gAsciiStrdown inner ++ [']']) := by
      rw [Url.lowerHost, hi]
      simp only [gAsciiStrdown, List.map_cons, List.map_append]
      rfl
    refine iff_of_false ?_ ?_
    · rintro ⟨p, hp, rfl | hb⟩
      · have hm : '[' ∈ stripPort (url.lowerHost ++ url.portText) := by
          rw [hl]
          exact List.mem_cons_self
        rw [hp] at hm
        exact f.notMem_lower rfl rfl hm
      · rw [hp] at hd
        exact hd (List.mem_append_left _ (List.mem_of_getLast? hb))
    · rintro ⟨p, hp, -⟩
      have hg : (p ++ f.lower).getLast? = some ']' := by
        rw [← hp, hl, ← List.cons_append]
        exact List.getLast?_concat
      rw [List.getLast?_append_of_ne_nil _ f.lower_ne_nil] at hg
      exact f.notMem_lower rfl rfl (List.mem_of_getLast? hg)

-- The host index.
theorem hostIndexed_iff : hostIndexed (filters.map (·.lower)) (urlHost url.text) = true ↔
    ∃ f ∈ filters, EndsHost f.lower url.lowerHost := by
  rw [url.urlHost_text, hostIndexed, Bool.and_eq_true, indexedFrom_iff]
  constructor
  case mp =>
    rintro ⟨-, p, q, h, hb, -, hq⟩
    obtain ⟨f, hf, rfl⟩ := List.mem_map.mp hq
    exact ⟨f, hf, endsHost_stripPort_iff.mp ⟨p, h, before_true.mp hb⟩⟩
  case mpr =>
    rintro ⟨f, hf, h⟩
    obtain ⟨p, h, hb⟩ := endsHost_stripPort_iff.mpr h
    have hm : f.lower ∈ filters.map (·.lower) := List.mem_map_of_mem hf
    refine ⟨?_, p, _, h, before_true.mpr hb, f.lower_ne_nil, hm⟩
    rw [Bool.not_eq_true', List.isEmpty_eq_false_iff]
    exact List.ne_nil_of_mem hm

end Url

section Block

variable {filters : List HostFilter}

theorem foldl_offer (filters : List HostFilter) (url : CString) {b : Best}
    (hb : b = ⟨-1, false, false⟩ ∨ b = ⟨1, false, true⟩) :
    (filters.map fun f => Blocker.plainRule f.pattern).foldl (Best.offer url) b =
      if filters.any (urlfilterMatch ·.pattern url false) then ⟨1, false, true⟩ else b := by
  induction filters generalizing b
  case nil => rfl
  case cons f fs ih =>
    rw [List.map_cons, List.foldl_cons, List.any_cons]
    cases hm : urlfilterMatch f.pattern url false
    case false =>
      have ho : b.offer url (Blocker.plainRule f.pattern) = b := by
        rw [Best.offer, Blocker.plainRule, hm]
        rfl
      rw [ho, Bool.false_or]
      exact ih hb
    case true =>
      have ho : b.offer url (Blocker.plainRule f.pattern) = ⟨1, false, true⟩ := by
        rw [Best.offer, Blocker.plainRule, hm]
        rcases hb with rfl | rfl <;> rfl
      rw [ho, ih (.inr rfl), Bool.true_or, ite_self]
      rfl

theorem shouldBlock_indexed (filters : List HostFilter) (url : Url) :
    (HostFilter.indexed filters).shouldBlock url.text = true ↔
      url.isHttp = true ∧ ∃ f ∈ filters, EndsHost f.lower url.lowerHost := by
  rw [indexed_eq, ← hostIndexed_iff, Blocker.shouldBlock, if_neg (List.cons_ne_nil _ _), Url.isHttp,
    ← Bool.not_or]
  cases gStrHasPrefix url.text "http://".toList || gStrHasPrefix url.text "https://".toList
  case false => simp
  case true =>
    cases hostIndexed (filters.map (·.lower)) (urlHost url.text) <;> simp

theorem shouldBlock_evaluated (filters : List HostFilter) (url : Url) :
    (HostFilter.evaluated filters).shouldBlock url.text = true ↔
      url.isHttp = true ∧ ∃ f ∈ filters, EndsHost f.lower url.lowerHost ∨ CutShort f.lower url.lowerHost := by
  have hm : filters.any (urlfilterMatch ·.pattern url.text false) = true ↔
      ∃ f ∈ filters, EndsHost f.lower url.lowerHost ∨ CutShort f.lower url.lowerHost := by
    rw [List.any_eq_true]
    exact exists_congr fun f => and_congr_right fun _ => urlfilterMatch_iff
  have hi : hostIndexed [] (urlHost url.text) = false := by
    rw [url.urlHost_text]
    rfl
  rw [← hm, HostFilter.evaluated, Blocker.shouldBlock, if_neg (List.cons_ne_nil _ _), Url.isHttp,
    ← Bool.not_or]
  cases gStrHasPrefix url.text "http://".toList || gStrHasPrefix url.text "https://".toList
  case false => simp
  case true =>
    have hf := foldl_offer filters url.text (b := ⟨-1, false, false⟩) (.inl rfl)
    simp only [hi, Bool.false_eq_true, if_false, List.foldl_cons, List.foldl_nil, hf]
    cases filters.any (urlfilterMatch ·.pattern url.text false) <;> simp

-- The host index and the general matcher agree exactly if no filter ends at a separator within the
-- host, or some filter ends with the host.
theorem indexed_eq_evaluated_iff (filters : List HostFilter) (url : Url) :
    (HostFilter.indexed filters).shouldBlock url.text = (HostFilter.evaluated filters).shouldBlock url.text ↔
      (url.isHttp = true → (∃ f ∈ filters, CutShort f.lower url.lowerHost) →
        ∃ f ∈ filters, EndsHost f.lower url.lowerHost) := by
  rw [Bool.eq_iff_iff, shouldBlock_indexed, shouldBlock_evaluated]
  constructor
  case mp =>
    rintro h hu ⟨f, hf, hc⟩
    exact (h.mpr ⟨hu, f, hf, .inr hc⟩).right
  case mpr =>
    refine fun h => and_congr_right fun hu => ⟨fun ⟨f, hf, he⟩ => ⟨f, hf, .inl he⟩, ?_⟩
    rintro ⟨f, hf, he | hc⟩
    · exact ⟨f, hf, he⟩
    · exact h hu ⟨f, hf, hc⟩

def adsFilter : HostFilter where
  host   := "ads".toList
  chars  := List.all_eq_true.mp rfl
  ne_nil := List.cons_ne_nil _ _

-- `http://ads!x.com/`
def bangUrl : Url where
  scheme    := "http".toList
  host      := "ads!x.com".toList
  port      := none
  rest      := ['/']
  scheme_ok := by decide
  host_ok   := .inl (by decide)
  port_ok   := by rintro _ ⟨⟩
  rest_ok   := by rintro _ ⟨⟩; rfl

-- The matcher takes the exclamation mark for the separator that ends the host.
theorem not_indexed_bangUrl : ¬ ∀ (filters : List HostFilter) (url : Url),
    (HostFilter.indexed filters).shouldBlock url.text = (HostFilter.evaluated filters).shouldBlock url.text := by
  intro h
  exact absurd (h [adsFilter] bangUrl) (by decide)

end Block

end Nordstjernen.Ext
