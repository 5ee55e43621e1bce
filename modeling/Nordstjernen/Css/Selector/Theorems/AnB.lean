import Nordstjernen.Css.Selector.Grammar

open Nordstjernen.Glib Nordstjernen.Css.Syntax

namespace Nordstjernen.Css.Selector

section Numbers

variable {sign ds s : CString} {v : Int}

theorem strtollDigits_of_isDigits (h : IsDigits ds) : strtollDigits ds = some (number ds) := by
  have ht : ds.takeWhile Char.isDigit = ds := List.takeWhile_eq_self_iff.mpr h.right
  rw [strtollDigits, ht]
  cases ds
  case nil  => exact absurd rfl h.left
  case cons => rfl

theorem gAsciiStrtoll_of_isDigits (hs : IsSign sign) (hd : IsDigits ds) :
    gAsciiStrtoll (sign ++ ds) = clampInt64 (signed sign (number ds)) := by
  have hn := strtollDigits_of_isDigits hd
  rcases hs with rfl | rfl | rfl
  · cases ds
    case nil       => exact absurd rfl hd.left
    case cons d ds =>
      have hdd : d.isDigit := hd.right d List.mem_cons_self
      have hw : ¬strtollIsspace d := by rw [not_strtollIsspace_of_isDigit hdd]; decide
      rw [List.nil_append, gAsciiStrtoll, gAsciiStrtoll?, List.dropWhile_cons_of_neg hw]
      split
      case h_1 heq => exact absurd hdd ((List.cons.inj heq).left ▸ by decide)
      case h_2 heq => exact absurd hdd ((List.cons.inj heq).left ▸ by decide)
      case h_3     => rw [hn]; rfl
  · have hw : ¬strtollIsspace '+' := by decide
    simp only [gAsciiStrtoll, gAsciiStrtoll?, List.cons_append, List.nil_append,
      List.dropWhile_cons_of_neg hw, hn]
    rfl
  · have hw : ¬strtollIsspace '-' := by decide
    simp only [gAsciiStrtoll, gAsciiStrtoll?, List.cons_append, List.nil_append,
      List.dropWhile_cons_of_neg hw, hn]
    rfl

theorem clampAnb_clampInt64 (n : Int) : clampAnb (clampInt64 n) = clampAnb n := by
  simp only [clampAnb, clampInt64, int64Min, int64Max]
  omega

-- What `anb_int_strict` looks at behind a sign.
def behindSign (s : CString) : CString :=
  if s.head? == some '+' || s.head? == some '-' then s.tail else s

theorem behindSign_append (hs : IsSign sign) (hd : IsDigits ds) : behindSign (sign ++ ds) = ds := by
  rcases hs with rfl | rfl | rfl
  · cases ds
    case nil       => exact absurd rfl hd.left
    case cons d ds =>
      have hdd : d.isDigit := hd.right d List.mem_cons_self
      have hp : d ≠ '+' := fun he => by simp [he] at hdd
      have hm : d ≠ '-' := fun he => by simp [he] at hdd
      simp [behindSign, hp, hm]
  · rfl
  · rfl

theorem exists_sign (s : CString) : ∃ sign, IsSign sign ∧ s = sign ++ behindSign s := by
  cases s
  case nil       => exact ⟨[], .inl rfl, rfl⟩
  case cons c cs =>
    by_cases hp : c = '+'
    case pos => exact ⟨['+'], .inr (.inl rfl), by simp [behindSign, hp]⟩
    case neg =>
      by_cases hm : c = '-'
      case pos => exact ⟨['-'], .inr (.inr rfl), by simp [behindSign, hm]⟩
      case neg => exact ⟨[], .inl rfl, by simp [behindSign, hp, hm]⟩

theorem anbIntStrict_iff : anbIntStrict s = some v ↔
    ∃ sign ds, IsSign sign ∧ IsDigits ds ∧ s = sign ++ ds ∧ v = clampAnb (signed sign (number ds)) := by
  have hdef : anbIntStrict s =
      if behindSign s ≠ [] && (behindSign s).all Char.isDigit then some (clampAnb (gAsciiStrtoll s)) else none :=
    rfl
  rw [hdef]
  constructor
  · intro h
    split at h
    case isFalse => cases h
    case isTrue hc =>
      obtain ⟨sign, hs, he⟩ := exists_sign s
      have hd : IsDigits (behindSign s) := by simpa [IsDigits] using hc
      refine ⟨sign, behindSign s, hs, hd, he, ?_⟩
      have hv := (Option.some_inj.mp h).symm
      rw [he, gAsciiStrtoll_of_isDigits hs hd, clampAnb_clampInt64] at hv
      exact hv
  · rintro ⟨sign, ds, hs, hd, rfl, rfl⟩
    rw [behindSign_append hs hd, gAsciiStrtoll_of_isDigits hs hd, clampAnb_clampInt64, if_pos]
    simpa [IsDigits] using hd

end Numbers

section Characters

variable {sign ds s : CString} {a b : Int} {c : Char}

-- The characters of a number with a sign.
def IsNumeric (c : Char) : Prop :=
  IsSignChar c ∨ c.isDigit

theorem IsSign.isNumeric (h : IsSign sign) : ∀ c ∈ sign, IsNumeric c := by
  rcases h with rfl | rfl | rfl <;> simp [IsNumeric, IsSignChar]

theorem IsDigits.isNumeric (h : IsDigits ds) : ∀ c ∈ ds, IsNumeric c :=
  fun c hc => .inr (h.right c hc)

theorem isNumeric_append (hs : IsSign sign) (hd : IsDigits ds) : ∀ c ∈ sign ++ ds, IsNumeric c :=
  List.forall_mem_append.mpr ⟨hs.isNumeric, hd.isNumeric⟩

theorem Coefficient.isNumeric (h : Coefficient s a) : ∀ c ∈ s, IsNumeric c := by
  cases h
  case one hs       => exact hs.isNumeric
  case digits hs hd => exact isNumeric_append hs hd

theorem IsNumeric.not_isWs (h : IsNumeric c) : isWs c = false := by
  obtain (rfl | rfl) | hd := h
  · rfl
  · rfl
  · have hw := not_strtollIsspace_of_isDigit hd
    simp only [strtollIsspace, gAsciiIsspace, Bool.or_eq_false_iff] at hw
    simp [isWs, hw]

theorem IsNumeric.not_isN (h : IsNumeric c) : ¬IsN c := by
  rintro (rfl | rfl) <;> simp [IsNumeric, IsSignChar] at h

theorem IsN.not_isWs (h : IsN c) : isWs c = false := by
  rcases h with rfl | rfl <;> rfl

theorem squeeze_append (s t : CString) : squeeze (s ++ t) = squeeze s ++ squeeze t :=
  List.filter_append s t

theorem squeeze_cons (h : isWs c = false) : squeeze (c :: s) = c :: squeeze s := by
  simp [squeeze, h]

theorem squeeze_eq_self (h : ∀ c ∈ s, isWs c = false) : squeeze s = s :=
  List.filter_eq_self.mpr fun c hc => by simp [h c hc]

theorem squeeze_of_isBlank (h : IsBlank s) : squeeze s = [] :=
  List.filter_eq_nil_iff.mpr fun c hc => by simp [h c hc]

theorem isWs_of_mem_squeeze (h : c ∈ squeeze s) : isWs c = false := by
  simpa using (List.mem_filter.mp h).right

theorem squeeze_numeric (h : ∀ c ∈ s, IsNumeric c) : squeeze s = s :=
  squeeze_eq_self fun c hc => (h c hc).not_isWs

theorem isAlpha_of_isWs (h : isWs c) : c.isAlpha = false := by
  simp only [isWs, Bool.or_eq_true, beq_iff_eq] at h
  rcases h with (((rfl | rfl) | rfl) | rfl) | rfl <;> rfl

theorem IsNumeric.isAlpha (h : IsNumeric c) : c.isAlpha = false := by
  obtain (rfl | rfl) | hd := h
  · rfl
  · rfl
  · have hc := Char.isDigit_iff_toNat.mp hd
    -- A digit is in front of either range of letters.
    have upper : c.isUpper = false := decide_eq_false fun h => absurd
      ((UInt32.le_iff_toNat_le.mp h.left).trans hc.right) (by decide)
    have lower : c.isLower = false := Bool.and_eq_false_imp.mpr fun h => absurd
      ((UInt32.le_iff_toNat_le.mp (of_decide_eq_true h)).trans hc.right) (by decide)
    exact Bool.or_eq_false_iff.mpr ⟨upper, lower⟩

-- A keyword has no white space in it, since nothing else has white space as its lower case.
theorem not_isWs_of_strcaseEq {word : CString} (hw : word.any isWs = false) (h : strcaseEq s word) :
    ∀ c ∈ s, isWs c = false := by
  intro c hc
  cases hwc : isWs c
  case false => rfl
  case true  =>
    have ha := isAlpha_of_isWs hwc
    have hm : gAsciiTolower c ∈ gAsciiStrdown word := by
      rw [← strcaseEq_iff.mp h]
      exact List.mem_map_of_mem hc
    rw [(gAsciiTolower_eq_iff ha).mpr rfl] at hm
    obtain ⟨d, hd, he⟩ := List.mem_map.mp hm
    rw [(gAsciiTolower_eq_iff ha).mp he] at hd
    exact absurd hwc (List.any_eq_false.mp hw c hd)

-- A character of a text that is no keyword.
def IsPlain (c : Char) : Prop :=
  IsNumeric c ∨ IsN c ∨ isWs c

theorem IsPlain.gAsciiTolower_ne (h : IsPlain c) : gAsciiTolower c ≠ 'o' ∧ gAsciiTolower c ≠ 'v' := by
  obtain h | (rfl | rfl) | h := h
  · rw [(gAsciiTolower_eq_iff h.isAlpha).mpr rfl]
    constructor <;> rintro rfl <;> simp [IsNumeric, IsSignChar] at h
  · decide
  · decide
  · rw [(gAsciiTolower_eq_iff (isAlpha_of_isWs h)).mpr rfl]
    constructor <;> rintro rfl <;> simp [isWs] at h

-- A keyword has a letter besides the `n`.
theorem not_plain_of_keyword (h : strcaseEq s "odd".toList ∨ strcaseEq s "even".toList) :
    ¬∀ c ∈ s, IsPlain c := by
  intro hp
  have hm {d} {word : CString} (he : strcaseEq s word) (hd : d ∈ gAsciiStrdown word) :
      ∃ c ∈ s, gAsciiTolower c = d := by
    rw [← strcaseEq_iff.mp he] at hd
    exact List.mem_map.mp hd
  obtain he | he := h
  · obtain ⟨c, hc, ho⟩ := hm (d := 'o') he (by decide)
    exact (hp c hc).gAsciiTolower_ne.left ho
  · obtain ⟨c, hc, hv⟩ := hm (d := 'v') he (by decide)
    exact (hp c hc).gAsciiTolower_ne.right hv

end Characters

section Parse

variable {s : CString} {a b : Int}

-- The part of `parse_anb` behind the removal of the white space.
def parseSqueezed (s : CString) : Option (Int × Int) :=
  if strcaseEq s "odd".toList then some (2, 1)
  else if strcaseEq s "even".toList then some (2, 0)
  else if s.contains 'n' || s.contains 'N' then
    let n := if s.contains 'n' then 'n' else 'N'
    let aStr := s.takeWhile (· ≠ n)
    let bStr := (s.dropWhile (· ≠ n)).tail
    let a := if aStr = [] || aStr = ['+'] then some 1 else if aStr = ['-'] then some (-1) else anbIntStrict aStr
    let b :=
      if bStr = [] then some 0
      else if bStr.head? == some '+' || bStr.head? == some '-' then anbIntStrict bStr
      else none
    a.bind fun a => b.map fun b => (a, b)
  else (anbIntStrict s).map fun b => (0, b)

theorem parseAnb_eq (arg : CString) : parseAnb arg = parseSqueezed (squeeze (gStrstrip (gStrndup arg))) :=
  rfl

def coefficient (aStr : CString) : Option Int :=
  if aStr = [] || aStr = ['+'] then some 1 else if aStr = ['-'] then some (-1) else anbIntStrict aStr

def addend (bStr : CString) : Option Int :=
  if bStr = [] then some 0
  else if bStr.head? == some '+' || bStr.head? == some '-' then anbIntStrict bStr
  else none

theorem coefficient_iff {v : Int} : coefficient s = some v ↔ ∃ a, Coefficient s a ∧ v = clampAnb a := by
  rw [coefficient]
  constructor
  · intro h
    split at h
    case isTrue hs =>
      refine ⟨1, ?_, (Option.some_inj.mp h).symm⟩
      obtain rfl | rfl := by simpa using hs
      · exact .one (.inl rfl)
      · exact .one (.inr (.inl rfl))
    case isFalse =>
      split at h
      case isTrue hs =>
        subst hs
        exact ⟨-1, .one (.inr (.inr rfl)), (Option.some_inj.mp h).symm⟩
      case isFalse =>
        obtain ⟨sign, ds, hs, hd, rfl, rfl⟩ := anbIntStrict_iff.mp h
        exact ⟨_, .digits hs hd, rfl⟩
  · rintro ⟨a, hc, rfl⟩
    cases hc
    case one hs => rcases hs with rfl | rfl | rfl <;> rfl
    case digits sign ds hs hd =>
      have hne {t : CString} (ht : IsSign t) : sign ++ ds ≠ t := by
        rintro rfl
        obtain ⟨d, ds', rfl⟩ := List.exists_cons_of_ne_nil hd.left
        have hdd := hd.right d List.mem_cons_self
        rcases ht with ht | ht | ht <;> rcases hs with rfl | rfl | rfl <;> simp at ht <;> simp [ht] at hdd
      have hone : ¬(decide (sign ++ ds = []) || decide (sign ++ ds = ['+'])) := by
        rw [Bool.or_eq_true, decide_eq_true_iff, decide_eq_true_iff, not_or]
        exact ⟨hne (.inl rfl), hne (.inr (.inl rfl))⟩
      rw [if_neg hone, if_neg (hne (.inr (.inr rfl)))]
      exact anbIntStrict_iff.mpr ⟨sign, ds, hs, hd, rfl, rfl⟩

theorem addend_iff {v : Int} : addend s = some v ↔ s = [] ∧ v = 0 ∨
    ∃ sign ds, IsSignChar sign ∧ IsDigits ds ∧ s = sign :: ds ∧ v = clampAnb (signed [sign] (number ds)) := by
  rw [addend]
  constructor
  · intro h
    split at h
    case isTrue hs => exact .inl ⟨hs, (Option.some_inj.mp h).symm⟩
    case isFalse =>
      split at h
      case isFalse    => cases h
      case isTrue hhd =>
        obtain ⟨sign, ds, hs, hd, rfl, rfl⟩ := anbIntStrict_iff.mp h
        rcases hs with rfl | rfl | rfl
        · obtain ⟨d, ds', rfl⟩ := List.exists_cons_of_ne_nil hd.left
          have hdd := hd.right d List.mem_cons_self
          rcases (by simpa using hhd : d = '+' ∨ d = '-') with rfl | rfl <;> simp at hdd
        · exact .inr ⟨'+', ds, .inl rfl, hd, rfl, rfl⟩
        · exact .inr ⟨'-', ds, .inr rfl, hd, rfl, rfl⟩
  · rintro (⟨rfl, rfl⟩ | ⟨sign, ds, hs, hd, rfl, rfl⟩)
    · rfl
    · have hb : ((sign :: ds).head? == some '+' || (sign :: ds).head? == some '-') = true := by
        rcases hs with rfl | rfl <;> rfl
      rw [if_neg (by simp), if_pos hb]
      refine anbIntStrict_iff.mpr ⟨[sign], ds, ?_, hd, rfl, rfl⟩
      rcases hs with rfl | rfl
      · exact .inr (.inl rfl)
      · exact .inr (.inr rfl)

-- The letter at which `parse_anb` splits the text is the only `n` there is.
theorem split_at_n {x y : CString} {n : Char} (hn : IsN n) (hx : ∀ c ∈ x, ¬IsN c) (hy : ∀ c ∈ y, ¬IsN c) :
    (if (x ++ n :: y).contains 'n' then 'n' else 'N') = n ∧
      (x ++ n :: y).takeWhile (· ≠ n) = x ∧ (x ++ n :: y).dropWhile (· ≠ n) = n :: y := by
  refine ⟨?_, ?_, ?_⟩
  · rcases hn with rfl | rfl
    · simp
    · have hnot : 'n' ∉ x ++ 'N' :: y := by
        simp only [List.mem_append, List.mem_cons, not_or]
        exact ⟨fun h => hx _ h (.inl rfl), by decide, fun h => hy _ h (.inl rfl)⟩
      rw [if_neg (by simpa using hnot)]
  all_goals
    have hxn : ∀ c ∈ x, (decide (c ≠ n)) = true := fun c hc => by
      simpa using fun he : c = n => hx c hc (he ▸ hn)
  · rw [List.takeWhile_append_of_pos hxn, List.takeWhile_cons_of_neg (by simp), List.append_nil]
  · rw [List.dropWhile_append_of_pos hxn, List.dropWhile_cons_of_neg (by simp)]

theorem parseSqueezed_of_n {x y : CString} {n : Char} (hn : IsN n) (hx : ∀ c ∈ x, ¬IsN c) (hy : ∀ c ∈ y, ¬IsN c)
    (hk : ¬(strcaseEq (x ++ n :: y) "odd".toList ∨ strcaseEq (x ++ n :: y) "even".toList)) :
    parseSqueezed (x ++ n :: y) = (coefficient x).bind fun a => (addend y).map fun b => (a, b) := by
  obtain ⟨h₁, h₂, h₃⟩ := split_at_n hn hx hy
  have hc : ((x ++ n :: y).contains 'n' || (x ++ n :: y).contains 'N') = true := by
    rcases hn with rfl | rfl <;> simp
  rw [parseSqueezed, if_neg (fun h => hk (.inl h)), if_neg (fun h => hk (.inr h)), if_pos hc]
  simp only [h₁, h₂, h₃, List.tail_cons]
  rfl

theorem eq_takeWhile_append_of_mem {n : Char} (h : n ∈ s) :
    s = s.takeWhile (· ≠ n) ++ n :: (s.dropWhile (· ≠ n)).tail := by
  induction s
  case nil           => cases h
  case cons c s hind =>
    by_cases hc : c = n
    case pos => simp [hc]
    case neg =>
      have hm : n ∈ s := (List.mem_cons.mp h).resolve_left (Ne.symm hc)
      rw [List.takeWhile_cons_of_pos (by simpa using hc), List.dropWhile_cons_of_pos (by simpa using hc),
        List.cons_append, ← hind hm]

theorem parseSqueezed_sound (h : parseSqueezed s = some (a, b)) :
    ∃ a' b', AnB s a' b' ∧ a = clampAnb a' ∧ b = clampAnb b' := by
  rw [parseSqueezed] at h
  split at h
  case isTrue hk =>
    cases h
    exact ⟨2, 1, .odd hk, rfl, rfl⟩
  case isFalse =>
    split at h
    case isTrue hk =>
      cases h
      exact ⟨2, 0, .even hk, rfl, rfl⟩
    case isFalse =>
      split at h
      case isFalse =>
        obtain ⟨v, hv, he⟩ := Option.map_eq_some_iff.mp h
        cases he
        obtain ⟨sign, ds, hs, hd, rfl, rfl⟩ := anbIntStrict_iff.mp hv
        exact ⟨0, _, .integer hs hd, rfl, rfl⟩
      case isTrue hc =>
        dsimp only at h
        obtain ⟨n, hn, he⟩ : ∃ n, IsN n ∧ n ∈ s ∧ (if s.contains 'n' then 'n' else 'N') = n := by
          by_cases hm : 'n' ∈ s
          case pos => exact ⟨'n', .inl rfl, hm, by simp [hm]⟩
          case neg => exact ⟨'N', .inr rfl, by simpa [hm] using hc, by simp [hm]⟩
        obtain ⟨hm, hif⟩ := he
        rw [hif] at h
        obtain ⟨v, hv, h⟩ := Option.bind_eq_some_iff.mp h
        obtain ⟨w, hw, he⟩ := Option.map_eq_some_iff.mp h
        cases he
        have hsplit := eq_takeWhile_append_of_mem hm
        obtain ⟨a', ha, rfl⟩ := coefficient_iff.mp hv
        obtain ⟨hb, rfl⟩ | ⟨sign, ds, hs, hd, hb, rfl⟩ := addend_iff.mp hw
        · rw [hb] at hsplit
          exact ⟨a', 0, hsplit ▸ .step ha hn, rfl, rfl⟩
        · rw [hb] at hsplit
          refine ⟨a', _, ?_, rfl, rfl⟩
          have hnil : IsBlank [] := by simp [IsBlank]
          have ho := AnB.offset ha hn hnil hs hnil hd
          rw [hsplit]
          exact ho

theorem parseSqueezed_complete {a' b' : Int} (hs : ∀ c ∈ s, isWs c = false) (h : AnB s a' b') :
    parseSqueezed s = some (clampAnb a', clampAnb b') := by
  have hnk {t : CString} (ht : ∀ c ∈ t, IsNumeric c ∨ IsN c) :
      ¬(strcaseEq t "odd".toList ∨ strcaseEq t "even".toList) :=
    fun hk => not_plain_of_keyword hk fun c hc => (ht c hc).imp_right .inl
  cases h
  case odd h => exact if_pos h
  case even h =>
    have ho : ¬strcaseEq s "odd".toList := fun ho =>
      absurd ((strcaseEq_iff.mp ho).symm.trans (strcaseEq_iff.mp h)) (by decide)
    rw [parseSqueezed, if_neg ho, if_pos h]
    rfl
  case integer sign ds hsg hd =>
    have hnum := isNumeric_append hsg hd
    have hk := hnk fun c hc => .inl (hnum c hc)
    have hc : ¬((sign ++ ds).contains 'n' || (sign ++ ds).contains 'N') := by
      rw [Bool.or_eq_true, List.contains_iff_mem, List.contains_iff_mem]
      exact fun hc =>
        hc.elim (fun hm => (hnum _ hm).not_isN (.inl rfl)) fun hm => (hnum _ hm).not_isN (.inr rfl)
    rw [parseSqueezed, if_neg (fun h => hk (.inl h)), if_neg (fun h => hk (.inr h)), if_neg hc,
      anbIntStrict_iff.mpr ⟨sign, ds, hsg, hd, rfl, rfl⟩]
    rfl
  case step x n hn hx =>
    have hk := hnk (t := x ++ [n]) fun c hc => (List.mem_append.mp hc).imp (hx.isNumeric c) fun h => by
      simpa using List.mem_singleton.mp h ▸ hn
    rw [parseSqueezed_of_n hn (fun c hc => (hx.isNumeric c hc).not_isN) (by simp) hk,
      coefficient_iff.mpr ⟨a', hx, rfl⟩]
    rfl
  case offset x n ws sign ws' ds hn hw hsg hw' hd hx =>
    have hnil {t : CString} (ht : IsBlank t) (hsub : ∀ c ∈ t, c ∈ x ++ n :: (ws ++ sign :: (ws' ++ ds))) :
        t = [] :=
      List.eq_nil_iff_forall_not_mem.mpr fun c hc => by
        have hf := hs c (hsub c hc)
        rw [ht c hc] at hf
        cases hf
    obtain rfl := hnil hw fun c hc => by simp [hc]
    obtain rfl := hnil hw' fun c hc => by simp [hc]
    have hnum : ∀ c ∈ sign :: ds, IsNumeric c := List.forall_mem_cons.mpr ⟨.inl hsg, hd.isNumeric⟩
    have hk := hnk (t := x ++ n :: sign :: ds) fun c hc => by
      obtain hc | hc := List.mem_append.mp hc
      · exact .inl (hx.isNumeric c hc)
      · obtain rfl | hc := List.mem_cons.mp hc
        · exact .inr hn
        · exact .inl (hnum c hc)
    rw [List.nil_append, List.nil_append,
      parseSqueezed_of_n hn (fun c hc => (hx.isNumeric c hc).not_isN) (fun c hc => (hnum c hc).not_isN) hk,
      coefficient_iff.mpr ⟨a', hx, rfl⟩, addend_iff.mpr (.inr ⟨sign, ds, hsg, hd, rfl, rfl⟩)]
    rfl

end Parse

section Blanks

variable {s t x u v : CString} {a b : Int} {n w : Char}

theorem not_behindN (h : ∀ c ∈ u, ¬IsN c) : ¬BehindN u := by
  rintro ⟨r, n, hn, rfl | ⟨sign, _, rfl⟩⟩ <;> exact h n (by simp) hn

-- Where the blanks stand as they should, there is none in front of the `n`.
theorem BlanksPlaced.not_isWs_of_append {y : CString} (h : BlanksPlaced (x ++ y)) (hn : ∀ c ∈ squeeze x, ¬IsN c) :
    ∀ c ∈ x, isWs c = false := by
  intro c hc
  cases hw : isWs c
  case false => rfl
  case true  =>
    obtain ⟨u, v, rfl⟩ := List.append_of_mem hc
    refine absurd (h u c (v ++ y) (by simp) hw) (not_behindN fun d hd => hn d ?_)
    rw [squeeze_append]
    exact List.mem_append_left _ hd

-- The text around a character that is kept.
theorem squeeze_eq_append_cons {c : Char} {r : CString} (h : squeeze t = x ++ c :: r) :
    ∃ y z, t = y ++ c :: z ∧ squeeze y = x ∧ squeeze z = r := by
  obtain ⟨y, z', rfl, hy, hz⟩ := List.filter_eq_append_iff.mp h
  obtain ⟨b, z, rfl, hb, hc, hz⟩ := List.filter_eq_cons_iff.mp hz
  refine ⟨y ++ b, z, by simp, ?_, hz⟩
  have hbs : squeeze b = [] := List.filter_eq_nil_iff.mpr fun d hd => by simpa using hb d hd
  rw [squeeze_append, hbs, List.append_nil]
  exact hy

theorem isBlank_of_squeeze (h : squeeze t = []) : IsBlank t :=
  fun c hc => by simpa using List.filter_eq_nil_iff.mp h c hc

-- The microsyntax begins and ends with something other than white space.
structure Trimmed (s : CString) : Prop where
  nonempty : s ≠ []
  head     : ∀ c ∈ s.head?, isWs c = false
  last     : ∀ c ∈ s.getLast?, isWs c = false

theorem trimmed_of_not_isWs (hne : s ≠ []) (h : ∀ c ∈ s, isWs c = false) : Trimmed s :=
  ⟨hne, fun c hc => h c (List.mem_of_mem_head? hc), fun c hc => h c (List.mem_of_mem_getLast? hc)⟩

theorem AnB.trimmed (h : AnB s a b) : Trimmed s := by
  have hkey {word : CString} (hne : word ≠ []) (hw : word.any isWs = false) (hk : strcaseEq s word) :
      Trimmed s := by
    refine trimmed_of_not_isWs ?_ (not_isWs_of_strcaseEq hw hk)
    rintro rfl
    have hl := congrArg List.length (strcaseEq_iff.mp hk)
    rw [length_gAsciiStrdown, length_gAsciiStrdown] at hl
    exact hne (List.length_eq_zero_iff.mp hl.symm)
  cases h
  case odd hk  => exact hkey (by decide) rfl hk
  case even hk => exact hkey (by decide) rfl hk
  case integer hs hd =>
    refine trimmed_of_not_isWs (by simp [hd.left]) fun c hc => (isNumeric_append hs hd c hc).not_isWs
  case step x n hn hx =>
    refine trimmed_of_not_isWs (by simp) (List.forall_mem_append.mpr ⟨?_, ?_⟩)
    · exact fun c hc => (hx.isNumeric c hc).not_isWs
    · simpa using hn.not_isWs
  case offset x n ws sign ws' ds hn hw hs hw' hd hx =>
    refine ⟨by simp, fun c hc => ?_, fun c hc => ?_⟩
    · cases x
      case nil      => exact Option.some_inj.mp hc ▸ hn.not_isWs
      case cons d x => exact (hx.isNumeric c (Option.some_inj.mp hc ▸ List.mem_cons_self)).not_isWs
    · obtain ⟨d, ds', rfl⟩ := List.exists_cons_of_ne_nil hd.left
      rw [List.getLast?_append_of_ne_nil _ (by simp), List.getLast?_cons_of_ne_nil (by simp),
        List.getLast?_append_of_ne_nil _ (by simp), List.getLast?_cons_of_ne_nil (by simp),
        List.getLast?_append_of_ne_nil _ (by simp)] at hc
      exact (hd.isNumeric c (List.mem_of_mem_getLast? hc)).not_isWs

-- The microsyntax does not depend on the white space behind the `n`.
theorem AnB.squeeze (h : AnB s a b) : AnB (squeeze s) a b := by
  have hkey {word : CString} (hw : word.any isWs = false) (hk : strcaseEq s word) :
      Selector.squeeze s = s := squeeze_eq_self (not_isWs_of_strcaseEq hw hk)
  cases h
  case odd hk =>
    rw [hkey rfl hk]
    exact .odd hk
  case even hk =>
    rw [hkey rfl hk]
    exact .even hk
  case integer hs hd =>
    rw [squeeze_numeric (isNumeric_append hs hd)]
    exact .integer hs hd
  case step x n hn hx =>
    rw [squeeze_append, squeeze_numeric hx.isNumeric, squeeze_eq_self (by simpa using hn.not_isWs)]
    exact .step hx hn
  case offset x n ws sign ws' ds hn hw hs hw' hd hx =>
    have hsq : Selector.squeeze (x ++ n :: (ws ++ sign :: (ws' ++ ds))) =
        x ++ n :: ([] ++ sign :: ([] ++ ds)) := by
      rw [squeeze_append, squeeze_numeric hx.isNumeric, squeeze_cons hn.not_isWs, squeeze_append,
        squeeze_of_isBlank hw, squeeze_cons (IsNumeric.not_isWs (.inl hs)), squeeze_append,
        squeeze_of_isBlank hw', squeeze_numeric hd.isNumeric]
    rw [hsq]
    exact .offset hx hn (by simp [IsBlank]) hs (by simp [IsBlank]) hd

theorem eq_nil_of_isBlank_suffix {c : Char} {y z : CString} (hz : IsBlank z)
    (hl : ∀ d ∈ (y ++ c :: z).getLast?, isWs d = false) : z = [] := by
  cases hg : z.getLast?
  case none   => exact List.getLast?_eq_none_iff.mp hg
  case some d =>
    have hne : z ≠ [] := fun he => by simp [he] at hg
    have hgl : (y ++ c :: z).getLast? = some d := by
      rw [List.getLast?_append_of_ne_nil _ (by simp), List.getLast?_cons_of_ne_nil hne, hg]
    have hf := hl d hgl
    rw [hz d (List.mem_of_mem_getLast? hg)] at hf
    cases hf

-- There are no blanks at all if an `n` can only be at the end.
theorem BlanksPlaced.squeeze_eq_of_concat {c : Char} (hp : BlanksPlaced t) (hl : ∀ d ∈ t.getLast?, isWs d = false)
    (hx : ∀ d ∈ x, ¬IsN d) (h : Selector.squeeze t = x ++ [c]) : Selector.squeeze t = t := by
  obtain ⟨y, z, rfl, rfl, hz⟩ := squeeze_eq_append_cons h
  obtain rfl := eq_nil_of_isBlank_suffix (isBlank_of_squeeze hz) hl
  have hm : c ∈ Selector.squeeze (y ++ [c]) := by
    rw [h]
    simp
  have hc : isWs c = false := isWs_of_mem_squeeze hm
  exact squeeze_eq_self (List.forall_mem_append.mpr ⟨hp.not_isWs_of_append hx, by simpa using hc⟩)

-- The texts in which there are no blanks, and the ones with a sign behind the `n`.
inductive Shape : CString → Int → Int → Prop
  | noN {s : CString} {a b : Int} (h : ∀ c ∈ s, ¬IsN c) : Shape s a b
  | concat {x : CString} {c : Char} {a b : Int} (h : ∀ d ∈ x, ¬IsN d) : Shape (x ++ [c]) a b
  | offset {x ws ws' ds : CString} {n sign : Char} {a : Int} (hn : IsN n) (hw : IsBlank ws)
    (hs : IsSignChar sign) (hw' : IsBlank ws') (hd : IsDigits ds) (hx : Coefficient x a) :
    Shape (x ++ n :: (ws ++ sign :: (ws' ++ ds))) a (signed [sign] (number ds))

theorem AnB.shape (h : AnB s a b) : Shape s a b := by
  -- A letter that is an `n` has the lower case `n`.
  have hlow {c : Char} (hc : IsN c) : gAsciiTolower c = 'n' := by
    rcases hc with rfl | rfl <;> rfl
  cases h
  case odd hk =>
    refine .noN fun c hc hn => ?_
    have hm : gAsciiTolower c ∈ gAsciiStrdown s := List.mem_map_of_mem hc
    rw [strcaseEq_iff.mp hk, hlow hn] at hm
    exact absurd hm (by decide)
  case even hk =>
    have hm := strcaseEq_iff.mp hk
    have hne : s ≠ [] := by
      rintro rfl
      exact absurd hm (by decide)
    have hs := List.dropLast_append_getLast hne
    have hdl : gAsciiStrdown s.dropLast = "eve".toList := by
      rw [gAsciiStrdown, List.map_dropLast, ← gAsciiStrdown, hm]
      rfl
    rw [← hs]
    refine .concat fun d hd hn => ?_
    have hin : gAsciiTolower d ∈ gAsciiStrdown s.dropLast := List.mem_map_of_mem hd
    rw [hdl, hlow hn] at hin
    exact absurd hin (by decide)
  case integer hs hd             => exact .noN fun c hc => (isNumeric_append hs hd c hc).not_isN
  case step hn hx                => exact .concat fun c hc => (hx.isNumeric c hc).not_isN
  case offset hn hw hs hw' hd hx => exact .offset hn hw hs hw' hd hx

theorem not_behindN_of_isDigits {ds : CString} (hne : ds ≠ []) (hd : ∀ c ∈ ds, c.isDigit) :
    ¬BehindN (x ++ ds) := by
  intro h
  obtain ⟨c, hc, hcn⟩ : ∃ c ∈ (x ++ ds).getLast?, IsN c ∨ IsSignChar c := by
    obtain ⟨r, n, hn, he | ⟨sign, hs, he⟩⟩ := h
    · exact ⟨n, by simp [he], .inl hn⟩
    · exact ⟨sign, by simp [he], .inr hs⟩
  rw [List.getLast?_append_of_ne_nil _ hne] at hc
  have hcd := hd c (List.mem_of_mem_getLast? hc)
  obtain hn | rfl | rfl := hcn
  · exact (IsNumeric.not_isN (.inr hcd)) hn
  · simp at hcd
  · simp at hcd

-- A text whose blanks stand as they should is in the microsyntax if it is so without them.
theorem AnB.of_squeeze (hp : BlanksPlaced t) (hl : ∀ c ∈ t.getLast?, isWs c = false)
    (h : AnB (Selector.squeeze t) a b) : AnB t a b := by
  have hsh := h.shape
  generalize hs : Selector.squeeze t = s at hsh
  cases hsh
  case noN hn =>
    have hp' : BlanksPlaced (t ++ []) := by rwa [List.append_nil]
    have he : Selector.squeeze t = t := squeeze_eq_self (hp'.not_isWs_of_append (hs ▸ hn))
    rwa [he] at h
  case concat hx => rwa [hp.squeeze_eq_of_concat hl hx hs] at h
  case offset x ws ws' ds n sign hn hw hsg hw' hd hx =>
    have hnil {r : CString} (hr : IsBlank r) (hsub : ∀ c ∈ r, c ∈ Selector.squeeze t) : r = [] :=
      List.eq_nil_iff_forall_not_mem.mpr fun c hc => by
        have hf := isWs_of_mem_squeeze (hsub c hc)
        rw [hr c hc] at hf
        cases hf
    obtain rfl := hnil hw fun c hc => by simp [hs, hc]
    obtain rfl := hnil hw' fun c hc => by simp [hs, hc]
    obtain ⟨d, ds, rfl⟩ := List.exists_cons_of_ne_nil hd.left
    obtain ⟨y, z, rfl, hy, hz⟩ := squeeze_eq_append_cons hs
    obtain ⟨ws, z, rfl, hws, hz⟩ := squeeze_eq_append_cons (x := []) hz
    obtain ⟨ws', z, rfl, hws', hz⟩ := squeeze_eq_append_cons (x := []) hz
    have hyw := hp.not_isWs_of_append (hy ▸ fun c hc => (hx.isNumeric c hc).not_isN)
    rw [squeeze_eq_self hyw] at hy
    subst hy
    -- Behind the first digit white space would be behind a digit.
    have hzw : ∀ c ∈ z, isWs c = false := by
      intro c hc
      cases hcw : isWs c
      case false => rfl
      case true  =>
        obtain ⟨u, v, rfl⟩ := List.append_of_mem hc
        have hb := hp (y ++ n :: (ws ++ sign :: (ws' ++ d :: u))) c v (by simp) hcw
        have hsq : Selector.squeeze (y ++ n :: (ws ++ sign :: (ws' ++ d :: u))) =
            y ++ [n, sign] ++ d :: Selector.squeeze u := by
          have hdw := (hd.isNumeric d List.mem_cons_self).not_isWs
          rw [squeeze_append, squeeze_numeric hx.isNumeric, squeeze_cons hn.not_isWs, squeeze_append, hws,
            squeeze_cons (IsNumeric.not_isWs (.inl hsg)), squeeze_append, hws', squeeze_cons hdw]
          simp
        rw [hsq] at hb
        refine absurd hb (not_behindN_of_isDigits (by simp) (List.forall_mem_cons.mpr ⟨hd.right d (by simp), ?_⟩))
        intro e he
        refine hd.right e (List.mem_cons_of_mem d (hz ▸ ?_))
        rw [squeeze_append]
        exact List.mem_append_left _ he
    rw [squeeze_eq_self hzw] at hz
    subst hz
    exact .offset hx hn (isBlank_of_squeeze hws) hsg (isBlank_of_squeeze hws') hd

theorem append_cons_eq_append {y z : CString} (h : u ++ w :: v = y ++ z) :
    (∃ v', y = u ++ w :: v') ∨ ∃ u', u = y ++ u' ∧ z = u' ++ w :: v := by
  obtain ⟨r, rfl, hr⟩ | ⟨r, rfl, rfl⟩ := List.append_eq_append_iff.mp h
  · cases r
    case nil      => exact .inr ⟨[], by simp, hr.symm⟩
    case cons c r =>
      cases hr
      exact .inl ⟨r, rfl⟩
  · exact .inr ⟨r, rfl, rfl⟩

-- In the microsyntax the blanks stand as they should.
theorem AnB.blanksPlaced (h : AnB s a b) : BlanksPlaced s := by
  have hnone {t : CString} (ht : ∀ c ∈ t, isWs c = false) : BlanksPlaced t := by
    rintro u w v rfl hw
    rw [ht w (by simp)] at hw
    cases hw
  cases h
  case odd hk        => exact hnone (not_isWs_of_strcaseEq rfl hk)
  case even hk       => exact hnone (not_isWs_of_strcaseEq rfl hk)
  case integer hs hd => exact hnone fun c hc => (isNumeric_append hs hd c hc).not_isWs
  case step x n hn hx =>
    refine hnone (List.forall_mem_append.mpr ⟨fun c hc => (hx.isNumeric c hc).not_isWs, ?_⟩)
    simpa using hn.not_isWs
  case offset x n ws sign ws' ds hn hw hs hw' hd hx =>
    intro u w v he hwc
    have habs {c : Char} {P : Prop} (hc : IsNumeric c) (hcw : isWs c) : P := by
      rw [hc.not_isWs] at hcw
      cases hcw
    obtain ⟨v', rfl⟩ | ⟨u, rfl, he₁⟩ := append_cons_eq_append he.symm
    · exact habs (hx.isNumeric w (by simp)) hwc
    cases u
    case nil =>
      obtain ⟨rfl, _⟩ := List.cons_eq_cons.mp he₁
      rw [hn.not_isWs] at hwc
      cases hwc
    case cons n' u =>
      obtain ⟨rfl, he₂⟩ := List.cons_eq_cons.mp he₁
      rw [squeeze_append, squeeze_numeric hx.isNumeric, squeeze_cons hn.not_isWs]
      obtain ⟨v', rfl⟩ | ⟨u, rfl, he₃⟩ := append_cons_eq_append he₂.symm
      · rw [squeeze_of_isBlank fun c hc => hw c (by simp [hc])]
        exact ⟨x, n, hn, .inl rfl⟩
      cases u
      case nil =>
        obtain ⟨rfl, _⟩ := List.cons_eq_cons.mp he₃
        exact habs (.inl hs) hwc
      case cons sign' u =>
        obtain ⟨rfl, he₄⟩ := List.cons_eq_cons.mp he₃
        rw [squeeze_append, squeeze_of_isBlank hw, squeeze_cons (IsNumeric.not_isWs (.inl hs)), List.nil_append]
        obtain ⟨v', rfl⟩ | ⟨u, rfl, he₅⟩ := append_cons_eq_append he₄.symm
        · rw [squeeze_of_isBlank fun c hc => hw' c (by simp [hc])]
          exact ⟨x, n, hn, .inr ⟨sign, hs, rfl⟩⟩
        · exact habs (hd.isNumeric w (by simp [he₅])) hwc

end Blanks

section Exact

variable {text t : CString} {a b : Int}

theorem gAsciiIsspace_eq_isWs (c : Char) : gAsciiIsspace c = isWs c := by
  simp only [gAsciiIsspace, isWs]
  cases c == ' ' <;> cases c == '\t' <;> cases c == '\n' <;> cases c == '\r' <;> cases c == '\x0c' <;> rfl

theorem gStrstrip_eq (s : CString) : gStrstrip s = (s.dropWhile isWs).rdropWhile isWs := by
  rw [gStrstrip, gStrchomp, funext gAsciiIsspace_eq_isWs]

theorem gStrstrip_of_trimmed {lead s trail : CString} (hl : IsBlank lead) (ht : IsBlank trail) (hs : Trimmed s) :
    gStrstrip (lead ++ s ++ trail) = s :=
  gStrstrip_append (fun c hc => gAsciiIsspace_eq_isWs c ▸ hl c hc) (fun c hc => gAsciiIsspace_eq_isWs c ▸ ht c hc)
    hs.nonempty (fun c hc => gAsciiIsspace_eq_isWs c ▸ hs.head c hc)
    fun c hc => gAsciiIsspace_eq_isWs c ▸ hs.last c hc

theorem isWs_getLast_gStrstrip (s : CString) : ∀ c ∈ (gStrstrip s).getLast?, isWs c = false := by
  rw [gStrstrip_eq]
  intro c hc
  obtain ⟨hne, rfl⟩ := List.mem_getLast?_eq_getLast hc
  simpa using List.rdropWhile_last_not isWs (s.dropWhile isWs) hne

theorem parseAnb_iff : parseAnb text = some (a, b) ↔
    ∃ a' b', AnB (squeeze (gStrstrip (gStrndup text))) a' b' ∧ a = clampAnb a' ∧ b = clampAnb b' := by
  rw [parseAnb_eq]
  constructor
  · exact parseSqueezed_sound
  · rintro ⟨a', b', h, rfl, rfl⟩
    exact parseSqueezed_complete (fun c hc => isWs_of_mem_squeeze hc) h

theorem AnB.not_mem_nul {s : CString} (h : AnB s a b) : '\x00' ∉ s := by
  have hkey {word : CString} (hw : '\x00' ∉ gAsciiStrdown word) (hk : strcaseEq s word) : '\x00' ∉ s := fun hm =>
    hw (strcaseEq_iff.mp hk ▸ List.mem_map.mpr ⟨'\x00', hm, rfl⟩)
  have hnum : ¬IsNumeric '\x00' := by simp [IsNumeric, IsSignChar]
  have hb {t : CString} (hb : IsBlank t) : '\x00' ∉ t := fun hm => absurd (hb _ hm) (by decide)
  have hn' {n : Char} (hn : IsN n) : '\x00' ≠ n := by rcases hn with rfl | rfl <;> decide
  cases h
  case odd hk        => exact hkey (by decide) hk
  case even hk       => exact hkey (by decide) hk
  case integer hs hd => exact fun hm => hnum (isNumeric_append hs hd _ hm)
  case step n hn hx =>
    simp only [List.mem_append, List.mem_singleton, not_or]
    exact ⟨fun hm => hnum (hx.isNumeric _ hm), hn' hn⟩
  case offset hn hw hs hw' hd hx =>
    simp only [List.mem_append, List.mem_cons, not_or]
    refine ⟨fun hm => hnum (hx.isNumeric _ hm), hn' hn, hb hw, ?_, hb hw', fun hm => hnum (hd.isNumeric _ hm)⟩
    rcases hs with rfl | rfl <;> decide

theorem isAnPlusB_iff : IsAnPlusB text a b ↔
    '\x00' ∉ text ∧ BlanksPlaced (gStrstrip text) ∧ AnB (squeeze (gStrstrip text)) a b := by
  constructor
  · rintro ⟨lead, s, trail, rfl, hl, ht, h⟩
    have hb {t : CString} (hb : IsBlank t) : '\x00' ∉ t := fun hm => absurd (hb _ hm) (by decide)
    rw [gStrstrip_of_trimmed hl ht h.trimmed]
    refine ⟨?_, h.blanksPlaced, h.squeeze⟩
    simp only [List.mem_append, not_or]
    exact ⟨⟨hb hl, h.not_mem_nul⟩, hb ht⟩
  · rintro ⟨_, hp, h⟩
    obtain ⟨lead, trail, he, hl, ht⟩ := exists_gStrstrip text
    exact ⟨lead, gStrstrip text, trail, he, fun c hc => gAsciiIsspace_eq_isWs c ▸ hl c hc,
      fun c hc => gAsciiIsspace_eq_isWs c ▸ ht c hc, h.of_squeeze hp (isWs_getLast_gStrstrip text)⟩

theorem anbExact_iff : AnbExact text ↔ AnbRegular text := by
  constructor
  · intro h ⟨a, b, hs⟩
    obtain ⟨a', b', ht, _⟩ := (h _ _).mp (parseAnb_iff.mpr ⟨a, b, hs, rfl, rfl⟩)
    obtain ⟨hn, hp, _⟩ := isAnPlusB_iff.mp ht
    exact ⟨hn, hp⟩
  · intro h a b
    rw [parseAnb_iff]
    refine exists₂_congr fun a' b' => and_congr_left fun _ => ?_
    rw [isAnPlusB_iff]
    constructor
    · intro hs
      obtain ⟨hn, hp⟩ := h ⟨a', b', hs⟩
      rw [gStrndup_eq_self hn] at hs
      exact ⟨hn, hp, hs⟩
    · rintro ⟨hn, _, hs⟩
      rwa [gStrndup_eq_self hn]

end Exact

end Nordstjernen.Css.Selector
