import Nordstjernen.Css.Media.Calc
import Nordstjernen.Css.Media.Theorems.Values

open Nordstjernen.Glib

namespace Nordstjernen.Css.Media

def Op.text : Op → CString
  | eq => ['=']
  | lt => ['<']
  | le => ['<', '=']
  | gt => ['>']
  | ge => ['>', '=']

-- A feature of the table, written with any letters in upper case and with blanks around it.
structure FeatureName where
  lead    : Blanks
  name    : CString
  trail   : Blanks
  feature : FeatureDef
  known   : feature ∈ gMqFeatures
  spells  : gAsciiStrdown name = feature.name

def FeatureName.text (f : FeatureName) : CString :=
  f.lead.text ++ (f.name ++ f.trail.text)

-- The feature with `min-` or `max-` before its name.
def FeatureName.prefixed (f : FeatureName) (p : CString) : CString :=
  f.lead.text ++ (p ++ f.name ++ f.trail.text)

-- The text of a value, in which there is no mark but in parentheses.
structure ValueText where
  text  : CString
  plain : Plain text

section Names

-- What the names of the table have in common.
def wellNamed (f : FeatureDef) : Bool :=
  f.name.all (fun c => c.isLower || c == '-') && f.name.head?.any Char.isLower && f.name.length ≤ 28 &&
    !hasCasePrefix f.name "infinity".toList && !hasCasePrefix f.name "inf".toList &&
    !hasCasePrefix f.name "nan".toList && !hasCasePrefix f.name "0x".toList &&
    !hasCasePrefix f.name "calc(".toList && gAsciiStrdown f.name == f.name && mqFeatureLookup f.name == some f

theorem wellNamed_of_mem : ∀ f ∈ gMqFeatures, wellNamed f := by
  unfold wellNamed mqFeatureLookup gMqFeatures discrete
  simp only [List.map_cons, List.map_nil]
  repeat rw [String.toList_ofList]
  decide

variable {c : Char} {s t p r : CString} {g f : FeatureDef}

theorem isAlpha_of_tolower (hc : (gAsciiTolower c).isLower) : c.isAlpha := by
  rw [gAsciiTolower] at hc
  split at hc
  case isTrue hu => exact Bool.or_eq_true_iff.mpr (.inl hu)
  case isFalse   => exact Bool.or_eq_true_iff.mpr (.inr hc)

theorem isDigit_of_isAlpha (hc : c.isAlpha) : c.isDigit = false := by
  refine Bool.eq_false_iff.mpr fun hd => ?_
  have h₉ : c.val ≤ '9'.val := of_decide_eq_true (Bool.and_eq_true_iff.mp hd).right
  obtain hup | hlow := Bool.or_eq_true_iff.mp hc
  · have hA : 'A'.val ≤ c.val := (of_decide_eq_true hup).left
    exact absurd (UInt32.le_trans hA h₉) (by decide)
  · have ha : 'a'.val ≤ c.val := of_decide_eq_true (Bool.and_eq_true_iff.mp hlow).left
    exact absurd (UInt32.le_trans ha h₉) (by decide)

-- What names and their prefixes are made of.
def isLetter (c : Char) : Bool :=
  c.isAlpha || c == '-'

theorem isLetter_of_tolower (hc : (gAsciiTolower c).isLower ∨ gAsciiTolower c = '-') : isLetter c := by
  rw [isLetter, Bool.or_eq_true, beq_iff_eq]
  exact hc.imp isAlpha_of_tolower (gAsciiTolower_eq_iff rfl).mp

theorem ne_of_isLetter {x : Char} (hc : isLetter c) (hx : isLetter x = false) : c ≠ x := by
  rintro rfl
  rw [hc] at hx
  cases hx

theorem isWs_of_isLetter (hc : isLetter c) : mqIsWs c = false := by
  refine Bool.eq_false_iff.mpr fun hws => ?_
  simp only [mqIsWs, Bool.or_eq_true, beq_iff_eq] at hws
  obtain (((rfl | rfl) | rfl) | rfl) | rfl := hws <;> exact absurd hc (by decide)

theorem mqIdentChar_of_isLetter (hc : isLetter c) : mqIdentChar c := by
  simp only [isLetter, Bool.or_eq_true, beq_iff_eq] at hc
  rw [mqIdentChar]
  obtain ha | rfl := hc
  · simp [Char.isAlphanum, ha]
  · decide

theorem flat_of_isLetter (hc : isLetter c) : c ≠ '(' ∧ c ≠ ')' ∧ c ∉ marks := by
  refine ⟨ne_of_isLetter hc rfl, ne_of_isLetter hc rfl, fun hm => ?_⟩
  simp only [marks, List.mem_cons, List.not_mem_nil, or_false] at hm
  obtain rfl | rfl | rfl | rfl := hm <;> exact absurd hc (by decide)

theorem hasCasePrefix_of_strdown (h : gAsciiStrdown s = gAsciiStrdown t) (p : CString) :
    hasCasePrefix s p = hasCasePrefix t p := by
  have htake (x : CString) : gAsciiStrdown (x.take p.length) = (gAsciiStrdown x).take p.length := by
    rw [gAsciiStrdown, gAsciiStrdown, List.map_take]
  rw [hasCasePrefix, hasCasePrefix, htake, htake, h]

-- A text spells a feature where it is the name of it but for the case of letters.
structure Spells (s : CString) (g : FeatureDef) : Prop where
  known : g ∈ gMqFeatures
  lower : gAsciiStrdown s = g.name

namespace Spells

variable (h : Spells s g)
include h

theorem wellNamed : wellNamed g :=
  wellNamed_of_mem g h.known

theorem isLetter (hc : c ∈ s) : isLetter c := by
  have hw := h.wellNamed
  simp only [Media.wellNamed, Bool.and_eq_true] at hw
  have hlow : gAsciiTolower c ∈ g.name := h.lower ▸ List.mem_map_of_mem hc
  have hall := List.all_eq_true.mp hw.left.left.left.left.left.left.left.left.left _ hlow
  simp only [Bool.or_eq_true, beq_iff_eq] at hall
  exact isLetter_of_tolower hall

theorem lookup : mqFeatureLookup (gAsciiStrdown s) = some g := by
  have hw := h.wellNamed
  simp only [Media.wellNamed, Bool.and_eq_true, beq_iff_eq] at hw
  rw [h.lower]
  exact hw.right

theorem length_le : s.length ≤ 28 := by
  have hw := h.wellNamed
  simp only [Media.wellNamed, Bool.and_eq_true, decide_eq_true_eq] at hw
  have hlen := congrArg List.length h.lower
  rw [gAsciiStrdown, List.length_map] at hlen
  rw [hlen]
  exact hw.left.left.left.left.left.left.left.right

theorem exists_head : ∃ c t, s = c :: t ∧ c.isAlpha := by
  have hw := h.wellNamed
  simp only [Media.wellNamed, Bool.and_eq_true] at hw
  have hhead := hw.left.left.left.left.left.left.left.left.right
  rw [← h.lower] at hhead
  cases s
  case nil      => cases hhead
  case cons c t => exact ⟨c, t, rfl, isAlpha_of_tolower hhead⟩

theorem hasCasePrefix_eq_false {p : CString} (hp : p = "infinity".toList ∨ p = "inf".toList ∨ p = "nan".toList ∨
    p = "0x".toList ∨ p = "calc(".toList) : hasCasePrefix s p = false := by
  have hw := h.wellNamed
  simp only [Media.wellNamed, Bool.and_eq_true, beq_iff_eq, Bool.not_eq_true'] at hw
  have hname : gAsciiStrdown s = gAsciiStrdown g.name := by rw [h.lower, hw.left.right]
  rw [hasCasePrefix_of_strdown hname]
  obtain rfl | rfl | rfl | rfl | rfl := hp
  · exact hw.left.left.left.left.left.left.right
  · exact hw.left.left.left.left.left.right
  · exact hw.left.left.left.left.right
  · exact hw.left.left.left.right
  · exact hw.left.left.right

-- A name is no number.
theorem strtodSpan_eq_zero : strtodSpan s = 0 := by
  obtain ⟨c, t, ht, hc⟩ := h.exists_head
  have hne {x : Char} (hx : x.isAlpha = false) : c ≠ x := by
    rintro rfl
    rw [hc] at hx
    cases hx
  have hspace : strtollIsspace c = false := by
    simp [strtollIsspace, gAsciiIsspace, hne]
  have hdigit : c.isDigit = false := isDigit_of_isAlpha hc
  have hmantissa : mantissaSpan Char.isDigit s = 0 := by
    rw [mantissaSpan, ht, List.takeWhile_cons_of_neg (by simp [hdigit]), List.length_nil, List.drop_zero]
    exact if_neg fun hdot => hne rfl hdot.left
  have hunsigned : unsignedSpan s = 0 := by
    have hfalse {p : CString} (hp : p = "infinity".toList ∨ p = "inf".toList ∨ p = "nan".toList ∨
        p = "0x".toList ∨ p = "calc(".toList) : ¬hasCasePrefix s p := by
      rw [h.hasCasePrefix_eq_false hp]
      exact Bool.false_ne_true
    have hhex : hexSpan s = 0 := if_neg (hfalse (.inr (.inr (.inr (.inl rfl)))))
    rw [unsignedSpan, if_neg (hfalse (.inl rfl)), if_neg (hfalse (.inr (.inl rfl))),
      if_neg (hfalse (.inr (.inr (.inl rfl)))), hhex, if_neg (lt_irrefl 0), numeralSpan, hmantissa]
    rfl
  have hsign : signSpan s = 0 := by
    rw [ht, signSpan, if_neg]
    rintro (rfl | rfl) <;> exact absurd hc (by decide)
  have htake : s.takeWhile strtollIsspace = [] := by
    rw [ht, List.takeWhile_cons_of_neg (by simp [hspace])]
  rw [strtodSpan, htake, List.length_nil, List.drop_zero, hsign, List.drop_zero, hunsigned]
  rfl

variable {D : Type} [Double D] {view : Viewport D}

-- A name is no value, except one of a discrete feature.
theorem parseValue_eq_none (hf : f.type ≠ .discrete) : parseValue view f s [] = none := by
  have hnumber : mqParseNumber (D := D) s [] = none := by
    rw [mqParseNumber, List.append_nil, h.strtodSpan_eq_zero]
    rfl
  have hcalc : Media.isCalc s [] = false := by
    rw [Media.isCalc, List.append_nil]
    exact h.hasCasePrefix_eq_false (.inr (.inr (.inr (.inr rfl))))
  obtain ⟨c, t, ht, hc⟩ := h.exists_head
  rw [parseValue]
  cases hty : f.type
  case discrete   => exact absurd hty hf
  case ratio      => rw [parseRatio, hnumber]; rfl
  case resolution => simp [parseResolution, hcalc, hnumber]
  case length     => simp [parseLength, hcalc, hnumber]
  case integer    =>
    have hhead : ¬(s.head? = some '+' ∨ s.head? = some '-') := by
      rw [ht, List.head?_cons, Option.some.injEq, Option.some.injEq]
      rintro (rfl | rfl) <;> exact absurd hc (by decide)
    rw [parseInteger, if_neg hhead]
    refine if_pos (.inr ?_)
    simp [ht, isDigit_of_isAlpha hc]

theorem ne_nil : s ≠ [] := by
  obtain ⟨c, t, rfl, -⟩ := h.exists_head
  exact List.cons_ne_nil c t

-- The name is read up to what is no character of it, from a buffer that is long enough.
theorem mqReadIdent_append {n : Nat} (hn : 32 < n) (hp : p.length ≤ 4) (hpre : ∀ c ∈ p, mqIdentChar c)
    (hr : ∀ c, r.head? = some c → mqIdentChar c = false) :
    mqReadIdent n (p ++ s ++ r) = some (gAsciiStrdown p ++ g.name, r) := by
  have htake : (p ++ s ++ r).takeWhile mqIdentChar = p ++ s := by
    have hall : ∀ c ∈ p ++ s, mqIdentChar c := fun c hc =>
      (List.mem_append.mp hc).elim (hpre c) fun hm => mqIdentChar_of_isLetter (h.isLetter hm)
    rw [List.takeWhile_append_of_pos hall]
    cases r
    case nil      => exact List.append_nil _
    case cons d r => rw [List.takeWhile_cons_of_neg (by simp [hr d rfl]), List.append_nil]
  have hguard : ¬(p ++ s = [] ∨ n ≤ (p ++ s).length) := by
    rw [List.append_eq_nil_iff, List.length_append]
    have hlen := h.length_le
    have hne := h.ne_nil
    grind
  rw [mqReadIdent, htake, if_neg hguard, List.drop_left, gAsciiStrdown_append, h.lower]

theorem mqSideIsFeature {s' : CString} (hs : trimWs s' = s) :
    mqSideIsFeature s' = (some g).filter fun f => f.type ≠ .discrete && !f.isGrid := by
  have hread := h.mqReadIdent_append (n := 40) (p := []) (r := []) (by omega) (by simp) (by simp) (by simp)
  have hlook := h.lookup
  rw [h.lower] at hlook
  rw [List.append_nil, List.nil_append] at hread
  rw [Media.mqSideIsFeature, hs, hread, Option.bind_some]
  simp [gAsciiStrdown, hlook]

end Spells

theorem spells_of_side (hs : mqSideIsFeature s = some g) : Spells (trimWs s) g ∧ g.type ≠ .discrete := by
  rw [mqSideIsFeature] at hs
  obtain ⟨⟨ident, p⟩, hread, hs⟩ := Option.bind_eq_some_iff.mp hs
  dsimp only at hs
  split at hs
  case isTrue => cases hs
  case isFalse hp =>
    obtain ⟨hlook, htype⟩ := Option.filter_eq_some_iff.mp hs
    have hknown : g ∈ gMqFeatures := List.mem_of_find?_eq_some hlook
    have hcase := List.find?_some hlook
    have hname : gAsciiStrdown g.name = g.name := by
      have hw := wellNamed_of_mem g hknown
      simp only [wellNamed, Bool.and_eq_true, beq_iff_eq] at hw
      exact hw.left.right
    rw [mqReadIdent] at hread
    split at hread
    case isTrue => cases hread
    case isFalse =>
      obtain ⟨rfl, rfl⟩ := Prod.mk.inj (Option.some.inj hread)
      have hall : (trimWs s).takeWhile mqIdentChar = trimWs s := by
        refine (List.takeWhile_prefix _).eq_of_length_le (List.drop_eq_nil_iff.mp ?_)
        exact not_not.mp hp
      rw [hall] at hcase
      refine ⟨⟨hknown, ?_⟩, by simp_all⟩
      rw [← gAsciiStrdown_gAsciiStrdown, strcaseEq_iff.mp hcase, hname]

end Names

section Sides

variable {u w m : CString} {op op1 op2 : Op} {c : Char} {r : CString}

theorem Plain.head_ne (h : Plain w) {x : Char} (hx : x ∈ marks) : w.head? ≠ some x := by
  cases w
  case nil => exact Option.some_ne_none x |>.symm
  case cons d w =>
    rintro he
    obtain rfl : d = x := Option.some.inj he
    obtain ⟨k, hk, -⟩ := exists_clear_of_cons h
    rw [clearStep] at hk
    split at hk
    case isTrue hd => subst hd; exact absurd hx (by decide)
    case isFalse =>
      split at hk
      case isTrue hd => subst hd; exact absurd hx (by decide)
      case isFalse => rw [if_pos ⟨rfl, hx⟩] at hk; cases hk

theorem mqFindOp_text (hw : w.head? ≠ some '=') : mqFindOp 0 (op.text ++ w) = some ([], op, w) := by
  cases op <;> simp [Op.text, mqFindOp, hw]

theorem Op.exists_text (op : Op) : ∃ c t d t', op.text = c :: t ∧ c :: t = t' ++ [d] ∧ mqIsWs c = false ∧
    mqIsWs d = false ∧ endsNumber c := by
  cases op
  case eq => exact ⟨'=', [], '=', [], rfl, rfl, by decide, by decide, by decide⟩
  case lt => exact ⟨'<', [], '<', [], rfl, rfl, by decide, by decide, by decide⟩
  case le => exact ⟨'<', ['='], '=', ['<'], rfl, rfl, by decide, by decide, by decide⟩
  case gt => exact ⟨'>', [], '>', [], rfl, rfl, by decide, by decide, by decide⟩
  case ge => exact ⟨'>', ['='], '=', ['>'], rfl, rfl, by decide, by decide, by decide⟩

theorem Op.clear_text (op : Op) : clear [':'] 0 op.text = some 0 := by
  cases op <;> rfl

theorem Plain.colon (h : Plain u) : clear [':'] 0 u = some 0 :=
  clear_of_subset (by simp [marks]) h

theorem mqSideIsFeature_congr (h : trimWs u = trimWs w) : mqSideIsFeature u = mqSideIsFeature w := by
  rw [mqSideIsFeature, mqSideIsFeature, h]

variable {D : Type} [Double D] {view : Viewport D} {g : FeatureDef}

theorem valueOf_congr (h : trimWs u = trimWs w) : valueOf view g u = valueOf view g w := by
  rw [valueOf, valueOf, h]

-- What comes behind a trimmed text ends a number.
theorem exists_after (hc : endsNumber c) (s : CString) :
    ∃ d r', (s.dropWhile mqIsWs).drop (trimWs s).length ++ c :: r = d :: r' ∧ endsNumber d := by
  obtain ⟨w, hw, hblank⟩ := exists_blank_trimWs s
  rw [hw, List.drop_left]
  cases w
  case nil      => exact ⟨c, r, rfl, hc⟩
  case cons d w => exact ⟨d, w ++ c :: r, rfl, endsNumber_of_isWs (hblank d List.mem_cons_self)⟩

-- A feature and what it is compared with, in this order or in the other one.
def single (feature : FeatureDef) (op : Op) (v : Value D) : Feature D where
  feature := feature
  nops    := 1
  op1     := op
  v1      := v
  v2      := noValue

theorem mqParseFeature_single (hu : Plain u) (hw : Plain w) (hc : endsNumber c) :
    mqParseFeature view (u ++ (op.text ++ w)) (c :: r) =
      match mqSideIsFeature u with
      | some g => (valueOf view g w).map (single g op)
      | none   => (mqSideIsFeature w).bind fun g => (valueOf view g u).map (single g op.flip) := by
  obtain ⟨x, t, y, t', hop, hlast, hx, hy, hends⟩ := op.exists_text
  obtain ⟨d, r', hafter, hd⟩ := exists_after (r := r) hc (u ++ (op.text ++ w))
  have htrim : trimWs (u ++ (op.text ++ w)) = u.dropWhile mqIsWs ++ (op.text ++ w.rdropWhile mqIsWs) := by
    rw [hop]
    exact trimWs_append hx hy hlast
  have hne : u.dropWhile mqIsWs ++ (op.text ++ w.rdropWhile mqIsWs) ≠ [] := by simp [hop]
  have hcolon : clear [':'] 0 (trimWs (u ++ (op.text ++ w))) = some 0 := by
    refine clear_trimWs (by decide) ?_
    rw [clear_append, hu.colon, Option.bind_some, clear_append, op.clear_text, Option.bind_some, hw.colon]
  have hfind : mqFindOp 0 (trimWs (u ++ (op.text ++ w))) = some (u.dropWhile mqIsWs, op, w.rdropWhile mqIsWs) := by
    rw [htrim, mqFindOp_append hu.dropWhile, mqFindOp_text (hw.rdropWhile.head_ne (by decide)), Option.map_some,
      List.append_nil]
  rw [mqParseFeature, hafter]
  dsimp only
  rw [if_neg (htrim ▸ hne), findColon_eq_none hcolon]
  dsimp only
  rw [hfind]
  dsimp only
  rw [mqFindOp_eq_none hw.rdropWhile]
  dsimp only
  rw [parseSingle, htrim, List.drop_left, hop, List.cons_append, List.cons_append,
    mqSideIsFeature_congr trimWs_dropWhile, mqSideIsFeature_congr trimWs_rdropWhile]
  cases mqSideIsFeature u
  case some g =>
    dsimp only
    rw [mqValueParse_eq hd hw.rdropWhile.balanced, valueOf_congr trimWs_rdropWhile]
    rfl
  case none =>
    cases mqSideIsFeature w
    case none => rfl
    case some g =>
      rw [Option.bind_some, Option.bind_some, mqValueParse_eq hends hu.dropWhile.balanced,
        valueOf_congr trimWs_dropWhile]
      rfl

namespace FeatureName

variable (f : FeatureName)

theorem spelled : Spells f.name f.feature :=
  ⟨f.known, f.spells⟩

theorem plain : Plain f.text := by
  rw [Plain, text, clear_append, clear_blank (by decide) f.lead.blank, Option.bind_some, clear_append,
    clear_flat fun c hc => flat_of_isLetter (f.spelled.isLetter hc), Option.bind_some,
    clear_blank (by decide) f.trail.blank]

theorem text_ne_nil : f.text ≠ [] := by
  have hname := f.spelled.ne_nil
  simp [text, hname]

theorem trimWs_text : trimWs f.text = f.name := by
  obtain ⟨c, t, hct, -⟩ := f.spelled.exists_head
  obtain ⟨t', d, hd⟩ := f.name.eq_nil_or_concat.resolve_left f.spelled.ne_nil
  have hlead : f.lead.text.dropWhile mqIsWs = [] := List.dropWhile_eq_nil_iff.mpr f.lead.blank
  have htrail : f.trail.text.rdropWhile mqIsWs = [] := List.rdropWhile_eq_nil_iff.mpr f.trail.blank
  have hlast : c :: t = t' ++ [d] := hct.symm.trans (hd.trans List.concat_eq_append)
  rw [text, hct, trimWs_append (isWs_of_isLetter (f.spelled.isLetter (hct ▸ List.mem_cons_self)))
    (isWs_of_isLetter (f.spelled.isLetter (by simp [hd]))) hlast, hlead, htrail, List.nil_append, List.append_nil]

end FeatureName

-- Whether the features have an order, so that there are ranges of them.
def FeatureDef.ranged (g : FeatureDef) : Bool :=
  g.type ≠ .discrete && !g.isGrid

theorem FeatureName.mqSideIsFeature_text (f : FeatureName) :
    mqSideIsFeature f.text = if f.feature.ranged then some f.feature else none := by
  rw [f.spelled.mqSideIsFeature f.trimWs_text, Option.filter_some, FeatureDef.ranged]

theorem valueOf_name (f : FeatureName) (hg : g.type ≠ .discrete) : valueOf view g f.text = none := by
  rw [valueOf, f.trimWs_text, if_neg f.spelled.ne_nil, f.spelled.parseValue_eq_none hg]

theorem valueOf_side {g' : FeatureDef} (hu : mqSideIsFeature u = some g') (hg : g.type ≠ .discrete) :
    valueOf view g u = none := by
  obtain ⟨hs, -⟩ := spells_of_side hu
  rw [valueOf, if_neg hs.ne_nil, hs.parseValue_eq_none hg]

-- What a comparison of a feature with a text is read as.
def compared (view : Viewport D) (f : FeatureName) (op : Op) (v : CString) : Option (Feature D) :=
  if f.feature.ranged then (valueOf view f.feature v).map (single f.feature op) else none

theorem type_ne_of_ranged (hg : g.ranged) : g.type ≠ .discrete :=
  of_decide_eq_true (Bool.and_eq_true_iff.mp hg).left

theorem mqParseFeature_left (f : FeatureName) (hw : Plain w) (hc : endsNumber c) :
    mqParseFeature view (f.text ++ (op.text ++ w)) (c :: r) = compared view f op w := by
  rw [mqParseFeature_single f.plain hw hc, f.mqSideIsFeature_text, compared]
  cases f.feature.ranged
  case true  => rfl
  case false =>
    cases hs : mqSideIsFeature w
    case none   => rfl
    case some g =>
      change (some g).bind (fun g => (valueOf view g f.text).map (single g op.flip)) = none
      rw [Option.bind_some, valueOf_name f (spells_of_side hs).right, Option.map_none]

theorem mqParseFeature_right (f : FeatureName) (hu : Plain u) (hc : endsNumber c) :
    mqParseFeature view (u ++ (op.text ++ f.text)) (c :: r) = compared view f op.flip u := by
  rw [mqParseFeature_single hu f.plain hc, f.mqSideIsFeature_text, compared]
  cases hs : mqSideIsFeature u
  case none => cases f.feature.ranged <;> rfl
  case some g =>
    dsimp only
    rw [valueOf_name f (spells_of_side hs).right]
    split
    case isTrue hr => rw [valueOf_side hs (type_ne_of_ranged hr)]; rfl
    case isFalse   => rfl

-- A feature between two values.
def chain (feature : FeatureDef) (op1 op2 : Op) (v1 v2 : Value D) : Feature D where
  feature := feature
  nops    := 2
  op1     := op1
  op2     := op2
  v1      := v1
  v2      := v2

theorem mqParseFeature_chain (f : FeatureName) (hu : Plain u) (hw : Plain w) (hc : endsNumber c)
    (hop : op1.isLt && op2.isLt || op1.isGt && op2.isGt) :
    mqParseFeature view (u ++ (op1.text ++ (f.text ++ (op2.text ++ w)))) (c :: r) =
      if f.feature.ranged then
        (valueOf view f.feature u).bind fun v1 =>
          (valueOf view f.feature w).map fun v2 => chain f.feature op1 op2 v1 v2
      else none := by
  obtain ⟨x, t, -, -, hop1, -, hx, -, hends⟩ := op1.exists_text
  obtain ⟨x', t₂, y, t', hop2, hlast, -, hy, -⟩ := op2.exists_text
  have hassoc : u ++ (op1.text ++ (f.text ++ (op2.text ++ w))) =
      u ++ (x :: (t ++ (f.text ++ op2.text)) ++ w) := by simp [hop1]
  have hends' : x :: (t ++ (f.text ++ op2.text)) = x :: (t ++ (f.text ++ t')) ++ [y] := by simp [hop2, hlast]
  obtain ⟨d, r', hafter, hd⟩ := exists_after (r := r) hc (u ++ (op1.text ++ (f.text ++ (op2.text ++ w))))
  have htrim : trimWs (u ++ (op1.text ++ (f.text ++ (op2.text ++ w)))) =
      u.dropWhile mqIsWs ++ (op1.text ++ (f.text ++ (op2.text ++ w.rdropWhile mqIsWs))) := by
    rw [hassoc, trimWs_append hx hy hends']
    simp [hop1]
  have hne : u.dropWhile mqIsWs ++ (op1.text ++ (f.text ++ (op2.text ++ w.rdropWhile mqIsWs))) ≠ [] := by
    simp [hop1]
  have hcolon : clear [':'] 0 (trimWs (u ++ (op1.text ++ (f.text ++ (op2.text ++ w))))) = some 0 := by
    refine clear_trimWs (by decide) ?_
    rw [clear_append, hu.colon, Option.bind_some, clear_append, op1.clear_text, Option.bind_some, clear_append,
      f.plain.colon, Option.bind_some, clear_append, op2.clear_text, Option.bind_some, hw.colon]
  have hhead : (f.text ++ (op2.text ++ w.rdropWhile mqIsWs)).head? ≠ some '=' := by
    rw [List.head?_append_of_ne_nil _ f.text_ne_nil]
    exact f.plain.head_ne (by decide)
  have hfind : mqFindOp 0 (trimWs (u ++ (op1.text ++ (f.text ++ (op2.text ++ w))))) =
      some (u.dropWhile mqIsWs, op1, f.text ++ (op2.text ++ w.rdropWhile mqIsWs)) := by
    rw [htrim, mqFindOp_append hu.dropWhile, mqFindOp_text hhead, Option.map_some, List.append_nil]
  have hfind' : mqFindOp 0 (f.text ++ (op2.text ++ w.rdropWhile mqIsWs)) =
      some (f.text, op2, w.rdropWhile mqIsWs) := by
    rw [mqFindOp_append f.plain, mqFindOp_text (hw.rdropWhile.head_ne (by decide)), Option.map_some,
      List.append_nil]
  rw [mqParseFeature, hafter]
  dsimp only
  rw [if_neg (htrim ▸ hne), findColon_eq_none hcolon]
  dsimp only
  rw [hfind]
  dsimp only
  rw [hfind']
  dsimp only
  rw [parseChain, f.mqSideIsFeature_text]
  cases f.feature.ranged
  case false => rfl
  case true =>
    rw [if_pos rfl, Option.bind_some, if_neg (by rw [hop]; decide), htrim, List.drop_left, hop1, List.cons_append,
      List.cons_append, mqValueParse_eq hends hu.dropWhile.balanced, valueOf_congr trimWs_dropWhile,
      mqValueParse_eq hd hw.rdropWhile.balanced, valueOf_congr trimWs_rdropWhile]
    rfl

-- What `min-` and `max-` stand for.
inductive Bound
  | min
  | max

def Bound.text : Bound → CString
  | min => "min-".toList
  | max => "max-".toList

def Bound.comparison : Bound → Op
  | min => .ge
  | max => .le

theorem Bound.text_letters (b : Bound) : ∀ c ∈ b.text, c.isLower ∨ c = '-' := by
  cases b <;> decide +kernel

theorem Bound.isLetter {b : Bound} {p : CString} (hp : gAsciiStrdown p = b.text) : ∀ c ∈ p, isLetter c :=
  fun _ hm => isLetter_of_tolower (b.text_letters _ (hp ▸ List.mem_map_of_mem hm))

theorem FeatureName.plain_prefixed (f : FeatureName) {b : Bound} {p : CString} (hp : gAsciiStrdown p = b.text) :
    Plain (f.prefixed p) := by
  have hflat : ∀ c ∈ p ++ f.name, c ≠ '(' ∧ c ≠ ')' ∧ c ∉ marks := fun c hm =>
    flat_of_isLetter ((List.mem_append.mp hm).elim (Bound.isLetter hp c) f.spelled.isLetter)
  rw [Plain, prefixed, clear_append, clear_blank (by decide) f.lead.blank, Option.bind_some, clear_append,
    clear_flat hflat, Option.bind_some, clear_blank (by decide) f.trail.blank]

variable (view) in
theorem mqParseFeature_bound (f : FeatureName) {p : CString} {b : Bound} (hp : gAsciiStrdown p = b.text)
    (hw : Plain w) (hc : endsNumber c) : ∃ minmax,
    mqParseFeature view (f.prefixed p ++ (':' :: w)) (c :: r) =
      (compared view f b.comparison w).map fun n => { n with minmax } := by
  obtain ⟨minmax, hminmax⟩ : ∃ n, n ≠ 0 ∧ (if gStrHasPrefix (b.text ++ f.feature.name) "min-".toList then 1
      else if gStrHasPrefix (b.text ++ f.feature.name) "max-".toList then 2 else 0) = n ∧
      (if n = 1 then Op.ge else if n = 2 then Op.le else Op.eq) = b.comparison := by
    cases b
    case min => exact ⟨1, by decide, if_pos (by simp [Bound.text, gStrHasPrefix]), rfl⟩
    case max =>
      refine ⟨2, by decide, ?_, rfl⟩
      rw [if_neg (by simp [Bound.text, gStrHasPrefix]), if_pos (by simp [Bound.text, gStrHasPrefix])]
  obtain ⟨d, r', hafter, hd⟩ := exists_after (r := r) hc (f.prefixed p ++ (':' :: w))
  have hends : [':'] = [] ++ [':'] := rfl
  have htrim : trimWs (f.prefixed p ++ (':' :: w)) =
      (f.prefixed p).dropWhile mqIsWs ++ (':' :: w.rdropWhile mqIsWs) :=
    trimWs_append (by decide) (by decide) hends
  have hletter := Bound.isLetter hp
  have hprefix : (f.prefixed p).dropWhile mqIsWs = p ++ f.name ++ f.trail.text := by
    obtain ⟨c, t, ht⟩ : ∃ c t, p = c :: t := by
      cases p
      case nil      => cases b <;> cases hp
      case cons c t => exact ⟨c, t, rfl⟩
    rw [FeatureName.prefixed, List.dropWhile_append_of_pos f.lead.blank, ht, List.cons_append, List.cons_append,
      List.dropWhile_cons_of_neg]
    rw [isWs_of_isLetter (hletter c (ht ▸ List.mem_cons_self))]
    exact Bool.false_ne_true
  have hclear : clear [':'] 0 (p ++ f.name ++ f.trail.text) = some 0 := by
    have hflat : ∀ c ∈ p ++ f.name, c ≠ '(' ∧ c ≠ ')' ∧ c ∉ marks := fun c hm =>
      flat_of_isLetter ((List.mem_append.mp hm).elim (hletter c) f.spelled.isLetter)
    rw [clear_append, clear_of_subset (by simp [marks]) (clear_flat hflat), Option.bind_some,
      clear_blank (by decide) f.trail.blank]
  have hread : mqReadIdent 40 (p ++ f.name ++ f.trail.text) = some (b.text ++ f.feature.name, f.trail.text) := by
    rw [← hp]
    refine f.spelled.mqReadIdent_append (by omega) ?_ (fun c hm => mqIdentChar_of_isLetter (hletter c hm)) ?_
    · have hlen := congrArg List.length hp
      rw [gAsciiStrdown, List.length_map] at hlen
      rw [hlen]
      cases b <;> decide
    · intro c hm
      have hws := f.trail.blank c (List.mem_of_mem_head? hm)
      refine Bool.eq_false_iff.mpr fun hident => ?_
      simp only [mqIsWs, Bool.or_eq_true, beq_iff_eq] at hws
      obtain (((rfl | rfl) | rfl) | rfl) | rfl := hws <;> exact absurd hident (by decide)
  have hfind : findColon 0 (p ++ f.name ++ f.trail.text ++ ':' :: w.rdropWhile mqIsWs) =
      some (p ++ f.name ++ f.trail.text, w.rdropWhile mqIsWs) := by
    rw [findColon_append hclear]
    simp [findColon]
  refine ⟨minmax, ?_⟩
  rw [mqParseFeature, hafter]
  dsimp only
  rw [htrim, hprefix, if_neg (by simp), hfind]
  dsimp only
  rw [parsePlain, hread, Option.bind_some]
  dsimp only
  have htrail : skipWs f.trail.text = [] := List.dropWhile_eq_nil_iff.mpr f.trail.blank
  have hdrop : (b.text ++ f.feature.name).drop 4 = f.feature.name := by cases b <;> rfl
  have hlookup : mqFeatureLookup f.feature.name = some f.feature := f.spells ▸ f.spelled.lookup
  rw [htrail, if_neg (not_not.mpr rfl), hminmax.right.left, if_neg hminmax.left, hdrop, hlookup, Option.bind_some,
    compared]
  cases hr : f.feature.ranged
  case false =>
    have hout : f.feature.type = .discrete ∨ f.feature.isGrid := by
      simpa [FeatureDef.ranged, Classical.or_iff_not_imp_left] using hr
    rw [if_pos ⟨hminmax.left, hout⟩]
    rfl
  case true =>
    have hin : ¬(f.feature.type = .discrete ∨ f.feature.isGrid) := by
      simpa [FeatureDef.ranged] using hr
    rw [if_neg fun h => hin h.right, mqValueParse_eq hd hw.rdropWhile.balanced, valueOf_congr trimWs_rdropWhile,
      if_pos rfl, Option.map_map, hminmax.right.right]
    rfl

end Sides

end Nordstjernen.Css.Media
