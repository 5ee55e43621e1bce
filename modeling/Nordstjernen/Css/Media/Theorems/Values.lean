import Nordstjernen.Css.Media.Theorems.Text

open Nordstjernen.Glib

namespace Nordstjernen.Css.Media

def Blank (s : CString) : Prop :=
  ∀ c ∈ s, strtollIsspace c

-- What comes behind a text makes no difference to how it is read, from any place in it.
def SameEnd (t a b : CString) : Prop :=
  ∀ s, s <:+ t →
    (s ≠ [] → hasCasePrefix (s ++ a) "calc(".toList = hasCasePrefix (s ++ b) "calc(".toList) ∧
    (Blank s ∨ strtodSpan (s ++ a) = strtodSpan (s ++ b) ∧
      (s ++ a).take (strtodSpan (s ++ b)) = (s ++ b).take (strtodSpan (s ++ b)))

-- There is no number in blanks, and what comes behind them is not read.
theorem strtodSpan_blank {s a : CString} (hs : Blank s) :
    strtodSpan (s ++ a) = 0 ∨ s.length < strtodSpan (s ++ a) := by
  have htake : s.length ≤ ((s ++ a).takeWhile strtollIsspace).length := by
    rw [List.takeWhile_append_of_pos hs, List.length_append]
    omega
  rw [strtodSpan]
  split
  · exact .inl rfl
  · refine .inr ?_
    omega

section Cursors

theorem Cursor.skipWs_suffix (p : Cursor) : p.skipWs.rest <:+ p.rest :=
  List.drop_suffix ..

theorem Cursor.advance_suffix (p : Cursor) (n : Nat) : (p.advance n).rest <:+ p.rest :=
  List.drop_suffix ..

theorem Cursor.close_suffix (p : Cursor) : p.close.rest <:+ p.rest := by
  rw [Cursor.close]
  split
  · exact (List.drop_suffix ..).trans p.skipWs_suffix
  · exact p.skipWs_suffix

-- Reading goes forward.
def Forward {β : Type} (out : β → Cursor) (f : Cursor → Option β) : Prop :=
  ∀ p r, f p = some r → (out r).rest <:+ p.rest

end Cursors

section Forward

variable {D : Type} [Double D] {view : Viewport D} {quantity : Quantity} {after : CString}

theorem forward_mqCalcNumber :
    Forward (fun r : D × Bool × Cursor => r.snd.snd) (mqCalcNumber view quantity after) := by
  intro p r h
  rw [mqCalcNumber] at h
  split at h
  case isTrue  => cases h
  case isFalse =>
    dsimp only at h
    split at h
    case isTrue =>
      obtain rfl := Option.some.inj h
      exact p.advance_suffix _
    case isFalse =>
      obtain ⟨c, -, rfl⟩ := Option.map_eq_some_iff.mp h
      exact (Cursor.advance_suffix _ _).trans (p.advance_suffix _)

variable (view quantity after) in
theorem forward_mqCalcPrimary {sum : Cursor → Option (D × Cursor)} (hs : Forward Prod.snd sum) :
    Forward (fun r : D × Bool × Cursor => r.snd.snd) (mqCalcPrimary view quantity after sum) := by
  intro p r h
  rw [mqCalcPrimary] at h
  split at h
  case h_1 => exact (forward_mqCalcNumber _ _ h).trans p.skipWs_suffix
  case h_2 =>
    split at h
    case isTrue => cases h
    case isFalse =>
      obtain ⟨s, hsum, rfl⟩ := Option.map_eq_some_iff.mp h
      exact (s.snd.close_suffix.trans (hs _ _ hsum)).trans ((Cursor.advance_suffix _ _).trans p.skipWs_suffix)

variable {primary product : Cursor → Option (D × Bool × Cursor)}

theorem forward_mqCalcProductLoop (hp : Forward (fun r : D × Bool × Cursor => r.snd.snd) primary) {fuel : Nat}
    {s r : D × Bool × Cursor} (h : mqCalcProductLoop primary fuel s = some r) :
    r.snd.snd.rest <:+ s.snd.snd.rest := by
  induction fuel generalizing s
  case zero => cases h
  case succ fuel hi =>
    obtain ⟨v, b, q⟩ := s
    have hskip := q.skipWs_suffix
    rw [mqCalcProductLoop] at h
    dsimp only at h
    split at h
    case h_3 =>
      obtain rfl := Option.some.inj h
      exact List.suffix_rfl
    all_goals
      obtain ⟨⟨rhs, rhsNum, p⟩, hprimary, h⟩ := Option.bind_eq_some_iff.mp h
      dsimp only at h
      split at h
      case isTrue => cases h
      case isFalse => exact (hi h).trans ((hp _ _ hprimary).trans ((Cursor.advance_suffix _ _).trans hskip))

theorem forward_mqCalcProduct (hp : Forward (fun r : D × Bool × Cursor => r.snd.snd) primary) :
    Forward (fun r : D × Bool × Cursor => r.snd.snd) (mqCalcProduct primary) := by
  intro p r h
  obtain ⟨s, hs, h⟩ := Option.bind_eq_some_iff.mp h
  exact (forward_mqCalcProductLoop hp h).trans (hp _ _ hs)

theorem forward_mqCalcSumLoop (hp : Forward (fun r : D × Bool × Cursor => r.snd.snd) product) {isNumber : Bool}
    {fuel : Nat} {s r : D × Cursor} (h : mqCalcSumLoop product isNumber fuel s = some r) :
    r.snd.rest <:+ s.snd.rest := by
  induction fuel generalizing s
  case zero => cases h
  case succ fuel hi =>
    obtain ⟨v, q⟩ := s
    have hskip := q.skipWs_suffix
    rw [mqCalcSumLoop] at h
    dsimp only at h
    split at h
    case h_2 =>
      obtain rfl := Option.some.inj h
      exact List.suffix_rfl
    case h_1 =>
      split at h
      case isTrue =>
        obtain rfl := Option.some.inj h
        exact List.suffix_rfl
      case isFalse =>
        split at h
        case isTrue  => cases h
        case isFalse =>
          obtain ⟨⟨rhs, rhsNum, p⟩, hproduct, h⟩ := Option.bind_eq_some_iff.mp h
          dsimp only at h
          split at h
          case isTrue  => cases h
          case isFalse => exact (hi h).trans ((hp _ _ hproduct).trans ((Cursor.advance_suffix _ _).trans hskip))

variable (view quantity after) in
theorem forward_mqCalcSum (levels : Nat) :
    Forward (fun r : D × Cursor => r.snd) (mqCalcSum view quantity after levels) := by
  induction levels
  case zero => exact fun _ _ h => nomatch h
  case succ levels hi =>
    intro p r h
    rw [mqCalcSum] at h
    obtain ⟨⟨out, isNumber, p'⟩, hproduct, h⟩ := Option.bind_eq_some_iff.mp h
    have hforward := forward_mqCalcProduct (forward_mqCalcPrimary view quantity after hi)
    exact (forward_mqCalcSumLoop hforward h).trans (hforward _ _ hproduct)

end Forward

section Agreement

variable {D : Type} [Double D] {view : Viewport D} {quantity : Quantity} {t a b : CString}

variable (hend : SameEnd t a b)
include hend

theorem mqCalcNumber_congr {p : Cursor} (hp : p.rest <:+ t) :
    mqCalcNumber view quantity a p = mqCalcNumber view quantity b p := by
  obtain ⟨-, hblank | ⟨hspan, htake⟩⟩ := hend _ hp
  · have hnone (after : CString) : mqCalcNumber view quantity after p = none := by
      rw [mqCalcNumber]
      exact if_pos (strtodSpan_blank hblank)
    rw [hnone, hnone]
  · rw [mqCalcNumber, mqCalcNumber, hspan, htake]

theorem opener_congr {p : Cursor} (hp : p.rest <:+ t) : p.opener a = p.opener b := by
  by_cases hnil : p.rest = []
  case pos => rw [Cursor.opener, Cursor.opener, if_neg (by simp [hnil]), if_neg (by simp [hnil]),
    if_neg (by simp [hnil]), if_neg (by simp [hnil])]
  case neg => rw [Cursor.opener, Cursor.opener, (hend _ hp).left hnil]

theorem mqCalcPrimary_congr {sum sum' : Cursor → Option (D × Cursor)} (hs : ∀ p, p.rest <:+ t → sum p = sum' p)
    {p : Cursor} (hp : p.rest <:+ t) :
    mqCalcPrimary view quantity a sum p = mqCalcPrimary view quantity b sum' p := by
  have hskip : p.skipWs.rest <:+ t := p.skipWs_suffix.trans hp
  rw [mqCalcPrimary, mqCalcPrimary, opener_congr hend hskip, mqCalcNumber_congr hend hskip]
  cases p.skipWs.opener b
  case none   => rfl
  case some n =>
    dsimp only
    rw [hs _ ((Cursor.advance_suffix _ _).trans hskip)]

omit hend in
theorem mqCalcProductLoop_congr {primary primary' : Cursor → Option (D × Bool × Cursor)}
    (hs : ∀ p, p.rest <:+ t → primary p = primary' p)
    (hf : Forward (fun r : D × Bool × Cursor => r.snd.snd) primary') {fuel : Nat} {s : D × Bool × Cursor}
    (hp : s.snd.snd.rest <:+ t) : mqCalcProductLoop primary fuel s = mqCalcProductLoop primary' fuel s := by
  induction fuel generalizing s
  case zero => rfl
  case succ fuel hi =>
    obtain ⟨v, b, q⟩ := s
    have hskip : (q.skipWs.advance 1).rest <:+ t := (Cursor.advance_suffix _ _).trans (q.skipWs_suffix.trans hp)
    have hstep (g g' : D × Bool × Cursor → Option (D × Bool × Cursor))
        (hg : ∀ r, r.snd.snd.rest <:+ t → g r = g' r) :
        (primary (q.skipWs.advance 1)).bind g = (primary' (q.skipWs.advance 1)).bind g' := by
      rw [hs _ hskip]
      cases hr : primary' (q.skipWs.advance 1)
      case none   => rfl
      case some r => exact hg r ((hf _ _ hr).trans hskip)
    rw [mqCalcProductLoop, mqCalcProductLoop]
    dsimp only
    split
    case h_3 => rfl
    all_goals
      refine hstep _ _ fun r hr => ?_
      split
      · rfl
      · exact hi hr

omit hend in
theorem mqCalcProduct_congr {primary primary' : Cursor → Option (D × Bool × Cursor)}
    (hs : ∀ p, p.rest <:+ t → primary p = primary' p)
    (hf : Forward (fun r : D × Bool × Cursor => r.snd.snd) primary') {p : Cursor} (hp : p.rest <:+ t) :
    mqCalcProduct primary p = mqCalcProduct primary' p := by
  rw [mqCalcProduct, mqCalcProduct, hs p hp]
  cases hr : primary' p
  case none   => rfl
  case some r => exact mqCalcProductLoop_congr hs hf ((hf _ _ hr).trans hp)

omit hend in
theorem mqCalcSumLoop_congr {product product' : Cursor → Option (D × Bool × Cursor)}
    (hs : ∀ p, p.rest <:+ t → product p = product' p)
    (hf : Forward (fun r : D × Bool × Cursor => r.snd.snd) product') {isNumber : Bool} {fuel : Nat}
    {s : D × Cursor} (hp : s.snd.rest <:+ t) :
    mqCalcSumLoop product isNumber fuel s = mqCalcSumLoop product' isNumber fuel s := by
  induction fuel generalizing s
  case zero => rfl
  case succ fuel hi =>
    obtain ⟨v, q⟩ := s
    have hskip : (q.skipWs.advance 1).rest <:+ t := (Cursor.advance_suffix _ _).trans (q.skipWs_suffix.trans hp)
    rw [mqCalcSumLoop, mqCalcSumLoop, hs _ hskip]
    dsimp only
    split
    case h_2 => rfl
    case h_1 =>
      split
      · rfl
      · split
        · rfl
        · cases hr : product' (q.skipWs.advance 1)
          case none   => rfl
          case some r =>
            rw [Option.bind_some, Option.bind_some]
            split
            · rfl
            · exact hi ((hf _ _ hr).trans hskip)

omit hend in
theorem mqCalcSum_succ {after : CString} {levels : Nat} {p : Cursor} :
    mqCalcSum view quantity after (levels + 1) p =
      (mqCalcProduct (mqCalcPrimary view quantity after (mqCalcSum view quantity after levels)) p).bind fun r =>
        mqCalcSumLoop (mqCalcProduct (mqCalcPrimary view quantity after (mqCalcSum view quantity after levels)))
          r.snd.fst (r.snd.snd.rest.length + 1) (r.fst, r.snd.snd) := by
  rw [mqCalcSum]

theorem mqCalcSum_congr {levels : Nat} {p : Cursor} (hp : p.rest <:+ t) :
    mqCalcSum view quantity a levels p = mqCalcSum view quantity b levels p := by
  induction levels generalizing p
  case zero => rfl
  case succ levels hi =>
    have hprimary := forward_mqCalcPrimary view quantity b (forward_mqCalcSum view quantity b levels)
    have hf := forward_mqCalcProduct hprimary
    have hs (p : Cursor) (hp : p.rest <:+ t) :
        mqCalcProduct (mqCalcPrimary view quantity a (mqCalcSum view quantity a levels)) p =
          mqCalcProduct (mqCalcPrimary view quantity b (mqCalcSum view quantity b levels)) p :=
      mqCalcProduct_congr (fun p hp => mqCalcPrimary_congr hend (fun p hp => hi hp) hp) hprimary hp
    rw [mqCalcSum_succ, mqCalcSum_succ, hs p hp]
    cases hr : mqCalcProduct (mqCalcPrimary view quantity b (mqCalcSum view quantity b levels)) p
    case none => rw [Option.bind_none, Option.bind_none]
    case some r =>
      have hsuf : r.snd.snd.rest <:+ t := (hf _ _ hr).trans hp
      rw [Option.bind_some, Option.bind_some]
      exact mqCalcSumLoop_congr hs hf hsuf

theorem mqParseCalc_congr (ht : t ≠ []) : mqParseCalc view quantity a t = mqParseCalc view quantity b t := by
  have hdrop : (Cursor.mk '(' (t.drop 5)).rest <:+ t := List.drop_suffix ..
  rw [mqParseCalc, mqParseCalc, (hend t List.suffix_rfl).left ht, mqCalcSum_congr hend hdrop]

theorem mqParseNumber_congr {s : CString} (hs : s <:+ t) :
    mqParseNumber (D := D) s a = mqParseNumber s b := by
  obtain ⟨-, hblank | ⟨hspan, htake⟩⟩ := hend _ hs
  · have hnone (after : CString) : mqParseNumber (D := D) s after = none := by
      rw [mqParseNumber]
      exact if_pos (strtodSpan_blank hblank)
    rw [hnone, hnone]
  · rw [mqParseNumber, mqParseNumber, hspan, htake]

omit hend in
theorem isDigit_of_isspace {c : Char} (hc : strtollIsspace c) : c.isDigit = false := by
  simp only [strtollIsspace, gAsciiIsspace, Bool.or_eq_true, beq_iff_eq] at hc
  obtain ((((rfl | rfl) | rfl) | rfl) | rfl) | rfl := hc <;> rfl

omit hend in
theorem parseInteger_blank {f : FeatureDef} {after : CString} (ht : Blank t) :
    parseInteger (D := D) f t after = none := by
  have hsub : ∀ c ∈ (if t.head? = some '+' ∨ t.head? = some '-' then t.drop 1 else t), c.isDigit = false := by
    intro c hc
    split at hc
    · exact isDigit_of_isspace (ht c (List.mem_of_mem_drop hc))
    · exact isDigit_of_isspace (ht c hc)
  rw [parseInteger]
  refine if_pos ?_
  generalize (if t.head? = some '+' ∨ t.head? = some '-' then t.drop 1 else t) = p at hsub
  cases p
  case nil      => exact .inl rfl
  case cons c p => exact .inr (by simp [hsub c List.mem_cons_self])

theorem parseInteger_congr {f : FeatureDef} : parseInteger (D := D) f t a = parseInteger f t b := by
  obtain ⟨-, hblank | ⟨hspan, htake⟩⟩ := hend _ List.suffix_rfl
  · rw [parseInteger_blank hblank, parseInteger_blank hblank]
  · rw [parseInteger, parseInteger, hspan, htake]

omit hend in
theorem mqParseNumber_suffix {s after : CString} {r : D × CString} (h : mqParseNumber s after = some r) :
    r.snd <:+ s := by
  rw [mqParseNumber] at h
  split at h
  case isTrue => cases h
  case isFalse =>
    obtain rfl := Option.some.inj h
    exact List.drop_suffix ..

theorem parseRatio_congr : parseRatio (D := D) t a = parseRatio t b := by
  rw [parseRatio, parseRatio, mqParseNumber_congr hend List.suffix_rfl]
  cases hnum : mqParseNumber (D := D) t b
  case none => rfl
  case some r =>
    obtain ⟨x, p⟩ := r
    rw [Option.bind_some, Option.bind_some]
    dsimp only
    cases hskip : skipWs p
    case nil => rfl
    case cons c q =>
      have hsuf : skipWs q <:+ t := by
        have hp : c :: q <:+ t := hskip ▸ (List.dropWhile_suffix _).trans (mqParseNumber_suffix hnum)
        exact (List.dropWhile_suffix _).trans ((List.suffix_cons c q).trans hp)
      dsimp only
      rw [mqParseNumber_congr hend hsuf]

theorem parseValue_congr {f : FeatureDef} (ht : t ≠ []) : parseValue view f t a = parseValue view f t b := by
  have hcalc : Media.isCalc t a = Media.isCalc t b := (hend t List.suffix_rfl).left ht
  have hnumber : mqParseNumber (D := D) t a = mqParseNumber t b := mqParseNumber_congr hend List.suffix_rfl
  rw [parseValue, parseValue]
  cases f.type
  case discrete   => rfl
  case integer    => exact parseInteger_congr hend
  case ratio      => exact parseRatio_congr hend
  case resolution => rw [parseResolution, parseResolution, hcalc, mqParseCalc_congr hend ht, hnumber]
  case length     => rw [parseLength, parseLength, hcalc, mqParseCalc_congr hend ht, hnumber]

end Agreement

section Ends

variable {c : Char} {t s r r' : CString}

theorem hasCasePrefix_calc_stop (hc : endsNumber c) :
    hasCasePrefix (s ++ c :: r) "calc(".toList = hasCasePrefix s "calc(".toList := by
  refine hasCasePrefix_stop ?_
  rw [gAsciiTolower_stop hc]
  have hlower : gAsciiStrdown "calc(".toList = ['c', 'a', 'l', 'c', '('] := by decide +kernel
  rw [hlower]
  intro hm
  simp only [List.mem_cons, List.not_mem_nil, or_false] at hm
  obtain rfl | rfl | rfl | rfl | rfl := hm <;> exact absurd hc (by decide)

theorem blank_or (s : CString) : Blank s ∨ ∃ d ∈ s, strtollIsspace d = false := by
  by_cases h : Blank s
  case pos => exact .inl h
  case neg =>
    simp only [Blank, not_forall, Bool.not_eq_true] at h
    obtain ⟨d, hd, hs⟩ := h
    exact .inr ⟨d, hd, hs⟩

theorem sameEnd_append (hc : endsNumber c) : SameEnd t (c :: r) (c :: r') := by
  refine fun s hs => ⟨fun _ => by rw [hasCasePrefix_calc_stop hc, hasCasePrefix_calc_stop hc], ?_⟩
  refine (blank_or s).imp_right fun hblank => ?_
  have hspan {r : CString} : strtodSpan (s ++ c :: r) = strtodSpan (s ++ [c]) := strtodSpan_stop_append hc hblank
  have hle : strtodSpan (s ++ [c]) ≤ (s ++ [c]).length := strtodSpan_le
  have htake {r : CString} :
      (s ++ c :: r).take (strtodSpan (s ++ [c])) = (s ++ [c]).take (strtodSpan (s ++ [c])) := by
    have happend : s ++ c :: r = s ++ [c] ++ r := by simp
    rw [happend, List.take_append_of_le_length hle]
  rw [hspan (r := r), hspan (r := r'), htake (r := r), htake (r := r')]
  exact ⟨rfl, rfl⟩

theorem sameEnd_nil (hc : endsNumber c) (ht : Balanced t) : SameEnd t (c :: r) [] := by
  refine fun s hs => ⟨fun _ => by rw [hasCasePrefix_calc_stop hc, List.append_nil], ?_⟩
  refine (blank_or s).imp_right fun hblank => ?_
  have hopen : c = ')' → ∀ name, '(' :: name <:+ s → ∃ d ∈ name, nanChar d = false :=
    fun _ name hname => ⟨')', exists_close_of_balanced ht (hname.trans hs), by decide⟩
  rw [List.append_nil, strtodSpan_stop hc hopen hblank, List.take_append_of_le_length strtodSpan_le]
  exact ⟨rfl, rfl⟩

theorem endsNumber_of_isWs (hc : mqIsWs c) : endsNumber c := by
  simp only [mqIsWs, Bool.or_eq_true, beq_iff_eq] at hc
  obtain (((rfl | rfl) | rfl) | rfl) | rfl := hc <;> decide

variable {D : Type} [Double D] {view : Viewport D} {f : FeatureDef}

-- A value ends where a character ends it, whatever comes behind that.
theorem mqValueParse_append (hc : endsNumber c) :
    mqValueParse view f s (c :: r) = mqValueParse view f s (c :: r') := by
  obtain ⟨w, hw, hblank⟩ := exists_blank_trimWs s
  rw [mqValueParse, mqValueParse, hw, List.drop_left]
  split
  case isTrue => rfl
  case isFalse hne =>
    cases w
    case nil      => exact parseValue_congr (sameEnd_append hc) hne
    case cons d w => exact parseValue_congr (sameEnd_append (endsNumber_of_isWs (hblank d List.mem_cons_self))) hne

-- What a text is as a value.
def valueOf (view : Viewport D) (f : FeatureDef) (s : CString) : Option (Value D) :=
  if trimWs s = [] then none else parseValue view f (trimWs s) []

theorem mqValueParse_eq (hc : endsNumber c) (hs : Balanced s) :
    mqValueParse view f s (c :: r) = valueOf view f s := by
  obtain ⟨w, hw, hblank⟩ := exists_blank_trimWs s
  rw [mqValueParse, valueOf, hw, List.drop_left]
  split
  case isTrue => rfl
  case isFalse hne =>
    cases w
    case nil      => exact parseValue_congr (sameEnd_nil hc hs.trimWs) hne
    case cons d w =>
      exact parseValue_congr (sameEnd_nil (endsNumber_of_isWs (hblank d List.mem_cons_self)) hs.trimWs) hne

end Ends

end Nordstjernen.Css.Media
