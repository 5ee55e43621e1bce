import Nordstjernen.Css.Media.Theorems.Ranges

open Nordstjernen.Glib

namespace Nordstjernen.Css.Media

-- A parser gets from a text to another one where no mark is passed but in parentheses.
def Reads (p q : CString) : Prop :=
  ∃ used, p = used ++ q ∧ Plain used

section Reads

variable {p q r s u : CString} {c : Char}

theorem Reads.refl (p : CString) : Reads p p :=
  ⟨[], rfl, rfl⟩

theorem Reads.trans (h₁ : Reads p q) (h₂ : Reads q r) : Reads p r := by
  obtain ⟨u, rfl, hu⟩ := h₁
  obtain ⟨w, rfl, hw⟩ := h₂
  exact ⟨u ++ w, by rw [List.append_assoc], by rw [Plain, clear_append, hu, Option.bind_some, hw]⟩

theorem Reads.balanced (h : Reads p q) (hp : Balanced p) : Balanced q := by
  obtain ⟨u, rfl, hu⟩ := h
  exact clear_of_append hu.balanced hp

theorem Reads.of_flat (hs : ∀ c ∈ s, c ≠ '(' ∧ c ≠ ')' ∧ c ∉ marks) : Reads (s ++ q) q :=
  ⟨s, rfl, clear_flat hs⟩

theorem reads_skipWs (p : CString) : Reads p (skipWs p) :=
  ⟨p.takeWhile mqIsWs, List.takeWhile_append_dropWhile.symm,
    clear_blank (by decide) fun _ hc => List.mem_takeWhile_imp hc⟩

theorem flat_of_mqIdentChar (hc : mqIdentChar c) : c ≠ '(' ∧ c ≠ ')' ∧ c ∉ marks := by
  have hne {x : Char} (hx : mqIdentChar x = false) : c ≠ x := by
    rintro rfl
    rw [hc] at hx
    cases hx
  refine ⟨hne rfl, hne rfl, fun hm => ?_⟩
  simp only [marks, List.mem_cons, List.not_mem_nil, or_false] at hm
  obtain rfl | rfl | rfl | rfl := hm <;> exact absurd hc (by decide)

theorem reads_mqReadIdent {n : Nat} {ident : CString} (h : mqReadIdent n p = some (ident, q)) : Reads p q := by
  rw [mqReadIdent] at h
  split at h
  case isTrue => cases h
  case isFalse =>
    obtain ⟨-, rfl⟩ := Prod.mk.inj (Option.some.inj h)
    have hp : p = p.takeWhile mqIdentChar ++ p.drop (p.takeWhile mqIdentChar).length := by
      conv_lhs => rw [← List.take_append_drop (p.takeWhile mqIdentChar).length p]
      rw [← List.prefix_iff_eq_take.mp (List.takeWhile_prefix _)]
    exact ⟨_, hp, clear_flat fun c hc => flat_of_mqIdentChar (List.mem_takeWhile_imp hc)⟩

-- The words of a condition.
def isWord (word : CString) : Bool :=
  (gAsciiStrdown word).all Char.isLower

theorem reads_mqKwAt (word : CString) (hw : isWord word) (h : mqKwAt p word) : Reads p (p.drop word.length) := by
  have hp : hasCasePrefix p word := by
    simp only [mqKwAt, Bool.and_eq_true] at h
    exact h.left.right
  refine ⟨p.take word.length, (List.take_append_drop _ _).symm, clear_flat fun c hc => flat_of_isLetter ?_⟩
  have hlow : gAsciiTolower c ∈ gAsciiStrdown word := beq_iff_eq.mp hp ▸ List.mem_map_of_mem hc
  exact isLetter_of_tolower (.inl (List.all_eq_true.mp hw _ hlow))

-- In a balanced text what is opened is closed, and what is between is balanced.
theorem exists_mqCloseParen {k : Nat} (h : clear [] (k + 1) u = some 0) : ∃ body rest, u = body ++ ')' :: rest ∧
    clear [] k body = some 0 ∧ Balanced rest ∧ mqCloseParen (k + 1) u = (body, ')' :: rest) := by
  induction u generalizing k
  case nil => cases h
  case cons c u hi =>
    obtain ⟨k', hc, hu⟩ := exists_clear_of_cons h
    rw [clearStep] at hc
    rw [mqCloseParen]
    split at hc
    case isTrue hopen =>
      obtain rfl := Option.some.inj hc
      obtain ⟨body, rest, rfl, hbody, hrest, hclose⟩ := hi hu
      refine ⟨c :: body, rest, rfl, ?_, hrest, by rw [if_pos hopen, hclose]⟩
      rw [clear_cons, clearStep, if_pos hopen, Option.bind_some, hbody]
    case isFalse hopen =>
      rw [if_neg hopen]
      split at hc
      case isTrue hclose =>
        rw [if_neg (Nat.succ_ne_zero k)] at hc
        obtain rfl := Option.some.inj hc
        rw [if_pos hclose]
        cases k
        case zero => exact ⟨[], u, by rw [hclose]; rfl, rfl, hu, by rw [hclose]; rfl⟩
        case succ k =>
          obtain ⟨body, rest, rfl, hbody, hrest, hparen⟩ := hi hu
          refine ⟨c :: body, rest, rfl, ?_, hrest, ?_⟩
          · rw [clear_cons, clearStep, if_neg hopen, if_pos hclose, if_neg (Nat.succ_ne_zero k), Option.bind_some]
            exact hbody
          · rw [if_neg (by omega)]
            exact congrArg (fun x => (c :: x.1, x.2)) hparen
      case isFalse hclose =>
        rw [if_neg (by simp)] at hc
        obtain rfl := Option.some.inj hc
        obtain ⟨body, rest, rfl, hbody, hrest, hparen⟩ := hi hu
        refine ⟨c :: body, rest, rfl, ?_, hrest, by rw [if_neg hclose, hparen]⟩
        rw [clear_cons, clearStep, if_neg hopen, if_neg hclose, if_neg (by simp), Option.bind_some, hbody]

theorem exists_parens (h : Balanced ('(' :: u)) : ∃ body rest, u = body ++ ')' :: rest ∧ Balanced body ∧
    Balanced rest ∧ mqCloseParen 1 u = (body, ')' :: rest) ∧ Reads ('(' :: u) rest := by
  have hu : clear [] 1 u = some 0 := h
  obtain ⟨body, rest, rfl, hbody, hrest, hclose⟩ := exists_mqCloseParen hu
  refine ⟨body, rest, rfl, hbody, hrest, hclose, '(' :: (body ++ [')']), by simp, ?_⟩
  have hin : clear marks 1 body = some 1 := clear_succ hbody 0 marks
  rw [Plain, clear_cons]
  change clear marks 1 (body ++ [')']) = some 0
  rw [clear_append, hin]
  rfl

end Reads

section Features

variable {D : Type} [Double D] {view : Viewport D} {s a b : CString} {c : Char} {r r' : CString}

theorem mqFindOp_some {d : Nat} {x : CString × Op × CString} (h : mqFindOp d s = some x) :
    ∃ c t, s.drop x.1.length = c :: t ∧ endsNumber c := by
  induction s generalizing d x
  case nil => cases h
  case cons c s hi =>
    rw [mqFindOp] at h
    split at h
    case isTrue =>
      obtain ⟨y, hy, rfl⟩ := Option.map_eq_some_iff.mp h
      exact hi hy
    case isFalse =>
      split at h
      case isTrue =>
        obtain ⟨y, hy, rfl⟩ := Option.map_eq_some_iff.mp h
        exact hi hy
      case isFalse =>
        split at h
        case isFalse =>
          obtain ⟨y, hy, rfl⟩ := Option.map_eq_some_iff.mp h
          exact hi hy
        case isTrue hop =>
          have hnil : x.1 = [] := by
            split at h
            · split at h <;> obtain rfl := Option.some.inj h <;> rfl
            · split at h
              · split at h <;> obtain rfl := Option.some.inj h <;> rfl
              · obtain rfl := Option.some.inj h
                rfl
          refine ⟨c, s, by rw [hnil]; rfl, ?_⟩
          obtain ⟨-, rfl | rfl | rfl⟩ := hop <;> decide

-- A feature ends where a character ends it, whatever comes behind that.
theorem mqParseFeature_append (hc : endsNumber c) :
    mqParseFeature view s (c :: r) = mqParseFeature view s (c :: r') := by
  obtain ⟨w, hw, hblank⟩ := exists_blank_trimWs s
  have hafter : ∃ d, endsNumber d ∧ ∀ r, ∃ x, (s.dropWhile mqIsWs).drop (trimWs s).length ++ c :: r = d :: x := by
    rw [hw, List.drop_left]
    cases w
    case nil      => exact ⟨c, hc, fun r => ⟨r, rfl⟩⟩
    case cons d w => exact ⟨d, endsNumber_of_isWs (hblank d List.mem_cons_self), fun r => ⟨w ++ c :: r, rfl⟩⟩
  obtain ⟨d, hd, hafter⟩ := hafter
  obtain ⟨x, hx⟩ := hafter r
  obtain ⟨x', hx'⟩ := hafter r'
  rw [mqParseFeature, mqParseFeature, hx, hx']
  dsimp only
  split
  case isTrue => rfl
  case isFalse =>
    have hvalue {g : FeatureDef} {v : CString} :
        mqValueParse view g v (d :: x) = mqValueParse view g v (d :: x') :=
      mqValueParse_append hd
    cases findColon 0 (trimWs s)
    case some y => simp only [parsePlain, hvalue]
    case none   =>
      cases hfind : mqFindOp 0 (trimWs s)
      case none => rfl
      case some y =>
        obtain ⟨e, z, hdrop, he⟩ := mqFindOp_some hfind
        have hleft {g : FeatureDef} : mqValueParse view g y.1 ((trimWs s).drop y.1.length ++ d :: x) =
            mqValueParse view g y.1 ((trimWs s).drop y.1.length ++ d :: x') := by
          rw [hdrop, List.cons_append, List.cons_append]
          exact mqValueParse_append he
        dsimp only
        cases mqFindOp 0 y.2.2
        case none   => simp only [parseSingle, hleft, hvalue]
        case some q => simp only [parseChain, hleft, hvalue]

end Features

section Parse

variable {D : Type} [Double D] {view : Viewport D} {p q after : CString} {n : Node D}

variable {condition : CString → CString → Option (Node D × CString)}

theorem head_cases (p : CString) : (∃ u, p = '(' :: u) ∨ p.head? ≠ some '(' := by
  cases p
  case nil => exact .inr (by simp)
  case cons c u =>
    by_cases hc : c = '('
    case pos => exact .inl ⟨u, by rw [hc]⟩
    case neg => exact .inr (by simpa using hc)

theorem parseEnclosed_some {body close : CString} (h : parseEnclosed view body close after = some (n, q)) :
    q = close.drop 1 := by
  rw [parseEnclosed] at h
  split at h
  case h_1 => exact (Prod.mk.inj (Option.some.inj h)).right.symm
  case h_2 =>
    split at h
    case isTrue  => exact (Prod.mk.inj (Option.some.inj h)).right.symm
    case isFalse => cases h

theorem reads_mqParseInParens (hp : Balanced p) (h : mqParseInParens view condition p after = some (n, q)) :
    Reads p q := by
  have hskip : Reads p (skipWs p) := reads_skipWs p
  refine hskip.trans ?_
  have hbal : Balanced (skipWs p) := hskip.balanced hp
  rw [mqParseInParens] at h
  dsimp only at h
  obtain ⟨u, hu⟩ | hhead := head_cases (skipWs p)
  · rw [hu] at h hbal ⊢
    obtain ⟨body, rest, rfl, -, -, hclose, hreads⟩ := exists_parens hbal
    have hq : q = rest := by
      rw [if_pos List.head?_cons, List.drop_succ_cons, List.drop_zero, hclose] at h
      dsimp only at h
      split at h
      case h_1 =>
        split at h
        case isTrue  => exact (Prod.mk.inj (Option.some.inj h)).right.symm
        case isFalse => exact parseEnclosed_some h
      case h_2 => exact parseEnclosed_some h
    exact hq ▸ hreads
  · rw [if_neg hhead] at h
    obtain ⟨⟨ident, q'⟩, hread, h⟩ := Option.bind_eq_some_iff.mp h
    have hident : Reads (skipWs p) q' := reads_mqReadIdent hread
    refine hident.trans ?_
    dsimp only at h
    obtain ⟨u, rfl⟩ | hhead' := head_cases q'
    · obtain ⟨body, rest, rfl, -, -, hclose, hreads⟩ := exists_parens (hident.balanced hbal)
      rw [if_pos List.head?_cons, List.drop_succ_cons, List.drop_zero, hclose] at h
      dsimp only at h
      split at h
      case isTrue  => exact (Prod.mk.inj (Option.some.inj h)).right ▸ hreads
      case isFalse => cases h
    · rw [if_neg hhead'] at h
      cases h

theorem mqParseInParens_congr (hp : Balanced p)
    (hcond : ∀ body, Balanced body → ∀ a, condition body a = condition body []) :
    mqParseInParens view condition p after = mqParseInParens view condition p [] := by
  have hbal : Balanced (skipWs p) := (reads_skipWs p).balanced hp
  rw [mqParseInParens, mqParseInParens]
  dsimp only
  obtain ⟨u, hu⟩ | hhead := head_cases (skipWs p)
  · rw [hu] at hbal ⊢
    obtain ⟨body, rest, rfl, hbody, -, hclose, -⟩ := exists_parens hbal
    have henclosed : parseEnclosed view body (')' :: rest) after = parseEnclosed view body (')' :: rest) [] := by
      rw [parseEnclosed, parseEnclosed, List.cons_append, List.cons_append, mqParseFeature_append (by decide)]
    rw [if_pos List.head?_cons, if_pos List.head?_cons, List.drop_succ_cons, List.drop_zero, hclose]
    dsimp only
    rw [hcond body hbody, hcond body hbody (')' :: rest ++ []), henclosed]
  · rw [if_neg hhead, if_neg hhead]

variable {parens parens' : CString → Option (Node D × CString)} {word : CString} {kids : List (Node D)}
  {fuel : Nat}

omit [Double D] in
theorem reads_conditionLoop (hw : isWord word)
    (hparens : ∀ {p n q}, Balanced p → parens p = some (n, q) → Reads p q) (hp : Balanced p)
    {x : List (Node D) × CString} (h : conditionLoop parens word fuel kids p = some x) : Reads p x.2 := by
  induction fuel generalizing p kids
  case zero => cases h
  case succ fuel hi =>
    rw [conditionLoop] at h
    dsimp only at h
    split at h
    case isTrue =>
      obtain rfl := Option.some.inj h
      exact .refl p
    case isFalse hgo =>
      obtain ⟨⟨next, q⟩, hnext, h⟩ := Option.bind_eq_some_iff.mp h
      have hkw : mqKwAt (skipWs p) word := by
        simpa using (not_or.mp hgo).right
      have hword : Reads p ((skipWs p).drop word.length) := (reads_skipWs p).trans (reads_mqKwAt word hw hkw)
      have hnext : Reads p q := hword.trans (hparens (hword.balanced hp) hnext)
      exact hnext.trans (hi (hnext.balanced hp) h)

variable (kids fuel) in
omit [Double D] in
theorem conditionLoop_congr (hw : isWord word)
    (hparens : ∀ {p n q}, Balanced p → parens' p = some (n, q) → Reads p q)
    (he : ∀ {p}, Balanced p → parens p = parens' p) (hp : Balanced p) :
    conditionLoop parens word fuel kids p = conditionLoop parens' word fuel kids p := by
  induction fuel generalizing p kids
  case zero => rfl
  case succ fuel hi =>
    rw [conditionLoop, conditionLoop]
    dsimp only
    split
    case isTrue => rfl
    case isFalse hgo =>
      have hkw : mqKwAt (skipWs p) word := by
        simpa using (not_or.mp hgo).right
      have hword : Reads p ((skipWs p).drop word.length) := (reads_skipWs p).trans (reads_mqKwAt word hw hkw)
      rw [he (hword.balanced hp)]
      cases hr : parens' ((skipWs p).drop word.length)
      case none => rfl
      case some x => exact hi _ ((hword.trans (hparens (hword.balanced hp) hr)).balanced hp)

theorem reads_mqParseCondition {levels : Nat} {allowOr : Bool} (hp : Balanced p)
    (h : mqParseCondition view levels allowOr p after = some (n, q)) : Reads p q := by
  cases levels
  case zero => cases h
  case succ levels =>
    have hparens {p : CString} {n : Node D} {q : CString} (hp : Balanced p)
        (h : (if levels = 0 then none else mqParseInParens view (mqParseCondition view levels true) p after) =
          some (n, q)) : Reads p q := by
      split at h
      case isTrue  => cases h
      case isFalse => exact reads_mqParseInParens hp h
    have hskip := reads_skipWs p
    have hbal := hskip.balanced hp
    refine hskip.trans ?_
    rw [mqParseCondition] at h
    dsimp only at h
    split at h
    case isTrue hkw =>
      have hword : Reads (skipWs p) ((skipWs p).drop 3) := reads_mqKwAt "not".toList (by decide +kernel) hkw
      obtain ⟨⟨child, q'⟩, hchild, hq⟩ := Option.map_eq_some_iff.mp h
      obtain ⟨-, rfl⟩ := Prod.mk.inj hq
      exact hword.trans (hparens (hword.balanced hbal) hchild)
    case isFalse =>
      obtain ⟨⟨first, p'⟩, hfirst, h⟩ := Option.bind_eq_some_iff.mp h
      have hread : Reads (skipWs p) p' := hparens hbal hfirst
      have hloop (word : CString) {g : List (Node D) → Node D} (hw : isWord word)
          (h : (conditionLoop (fun p => if levels = 0 then none
            else mqParseInParens view (mqParseCondition view levels true) p after) word (p'.length + 1)
              [first] p').map (fun x => (g x.1, x.2)) = some (n, q)) : Reads (skipWs p) q := by
        obtain ⟨x, hx, hq⟩ := Option.map_eq_some_iff.mp h
        obtain ⟨-, rfl⟩ := Prod.mk.inj hq
        exact hread.trans (reads_conditionLoop hw hparens (hread.balanced hbal) hx)
      dsimp only at h
      split at h
      case isTrue => exact (Prod.mk.inj (Option.some.inj h)).right ▸ hread
      case isFalse =>
        split at h
        case isTrue => exact hloop "and".toList (by decide +kernel) h
        case isFalse =>
          split at h
          case isTrue  => exact hloop "or".toList (by decide +kernel) h
          case isFalse => exact (Prod.mk.inj (Option.some.inj h)).right ▸ hread

variable (after) in
-- What comes behind a balanced text makes no difference to the condition in it.
theorem mqParseCondition_congr {levels : Nat} {allowOr : Bool} (hp : Balanced p) :
    mqParseCondition view levels allowOr p after = mqParseCondition view levels allowOr p [] := by
  induction levels generalizing p after allowOr
  case zero => rfl
  case succ levels hi =>
    have hparens {p : CString} (hp : Balanced p) :
        (if levels = 0 then none else mqParseInParens view (mqParseCondition view levels true) p after) =
          if levels = 0 then none else mqParseInParens view (mqParseCondition view levels true) p [] := by
      have hcond : ∀ body, Balanced body → ∀ a,
          mqParseCondition view levels true body a = mqParseCondition view levels true body [] :=
        fun body hbody a => hi a hbody
      rw [mqParseInParens_congr hp hcond]
    have hreads {p : CString} {n : Node D} {q : CString} (hp : Balanced p)
        (h : (if levels = 0 then none else mqParseInParens view (mqParseCondition view levels true) p []) =
          some (n, q)) : Reads p q := by
      split at h
      case isTrue  => cases h
      case isFalse => exact reads_mqParseInParens hp h
    have hskip := reads_skipWs p
    have hbal := hskip.balanced hp
    rw [mqParseCondition, mqParseCondition]
    dsimp only
    split
    case isTrue hkw =>
      have hword : Reads (skipWs p) ((skipWs p).drop 3) := reads_mqKwAt "not".toList (by decide +kernel) hkw
      rw [hparens (hword.balanced hbal)]
    case isFalse =>
      rw [hparens hbal]
      cases hfirst : if levels = 0 then none
        else mqParseInParens view (mqParseCondition view levels true) (skipWs p) []
      case none => rfl
      case some x =>
        have hp' : Balanced x.2 := (hreads hbal hfirst).balanced hbal
        have hloop (word : CString) (hw : isWord word) :=
          conditionLoop_congr [x.1] (x.2.length + 1) hw hreads hparens hp'
        rw [Option.bind_some, Option.bind_some]
        rw [hloop "and".toList (by decide +kernel), hloop "or".toList (by decide +kernel)]

end Parse

end Nordstjernen.Css.Media
