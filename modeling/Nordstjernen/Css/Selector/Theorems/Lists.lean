import Nordstjernen.Css.Selector.Theorems.Parse

open Nordstjernen.Glib Nordstjernen.Css.Syntax

namespace Nordstjernen.Css.Selector

variable {group : Context → CString → List Sel × Raised} {ctx : Context} {n : Nat} {p : CString} {c : Char}
  {cs : CString} {checked : Bool}

section Lists

variable {ok : List SimpleToken → Bool} {seen : Bool} {q : CString}

theorem tokens_comma : tokens (',' :: cs) = .comma :: tokens cs := by
  have hn : NoGap (',' :: cs) := skipping_cons rfl (by decide)
  rw [tokens_of_noGap hn]
  rfl

theorem head_of_tokens_comma {ts : List Tok} (h : tokens p = .comma :: ts) : ∃ cs, p = ',' :: cs := by
  cases p
  case nil       => cases h
  case cons c cs =>
    obtain hn | hl := noGap_or (c :: cs)
    case inr => rw [tokens_gap hl] at h; cases h
    case inl =>
      rw [tokens_of_noGap hn] at h
      have hc := tokAt_eq_comma_or_brace (.inl (List.cons.inj h).left)
      by_cases hcc : c == ','
      case pos => exact ⟨cs, by rw [beq_iff_eq.mp hcc]⟩
      case neg =>
        have hb : (c == '{') = true := by simpa [hcc] using hc
        have ht : (tokAt c cs).fst = .brace := by simp [tokAt, hcc, hb]
        rw [ht] at h
        cases h

theorem resume_of_head (h : p.head? ≠ some ',') : resume checked ok (tokens p) = true := by
  cases ht : tokens p
  case nil       => rfl
  case cons t ts =>
    cases t
    case comma =>
      obtain ⟨cs, rfl⟩ := head_of_tokens_comma ht
      exact absurd rfl h
    all_goals rfl

theorem overlooks_item_dropBlank {ts : List Tok} :
    overlooks checked ok seen .item (dropBlank ts) = overlooks checked ok seen .item ts := by
  unfold dropBlank
  split
  · simp [overlooks]
  · rfl

theorem overlooks_blank_dropBlank {ts : List Tok} :
    overlooks checked ok seen .blank (dropBlank ts) = overlooks checked ok seen .blank ts := by
  unfold dropBlank
  split
  · simp [overlooks]
  · rfl

-- Past a comment, an item that has begun with white space alone is no different.
theorem overlooks_item_eq_blank (hd : p.dropWhile isWs = p) (hc : p.head? ≠ some ',') :
    overlooks true ok seen .item (tokens p) = overlooks true ok seen .blank (tokens p) := by
  cases ht : tokens p
  case nil       => simp [overlooks]
  case cons t ts =>
    cases t
    case comma =>
      obtain ⟨cs, rfl⟩ := head_of_tokens_comma ht
      exact absurd rfl hc
    case gap b =>
      cases b
      case true  => simp [overlooks]
      case false =>
        have hs := tokens_dropWhile (p := p)
        rw [hd, ht] at hs
        exact absurd hs (List.cons_ne_self _ _)
    case compound cs =>
      cases hall : cs.all SimpleToken.isNameless <;> simp [overlooks, hall]
    all_goals simp [overlooks]

-- Whether the result of `listLoop` is valid, apart from the namespaces and the number of selectors.
def verdict (r : List Sel × Bool × Raised) : Bool :=
  !r.2.2.fails true && !r.2.1

-- A round of the loop, from where the white space has been skipped.
theorem listLoop_step {one : CString → Option Sel × CString × Raised} {expect : Bool} (hd : p.dropWhile isWs = p)
    (hp : p ≠ []) (hc : p.head? ≠ some ',') : verdict (listLoop one (n + 1) expect p) =
      let r := one p
      let rest := r.2.1.dropWhile isWs
      !r.2.2.fails true &&
        if rest.head? = some ',' then verdict (listLoop one n true rest.tail)
        else if rest.length = p.length then !(expect && r.1.isNone)
        else verdict (listLoop one n (expect && r.1.isNone) rest) := by
  rw [listLoop]
  dsimp only
  rw [hd, if_neg hp, if_neg (by simpa using hc)]
  by_cases hh : ((one p).2.1.dropWhile isWs).head? = some ','
  case pos =>
    rw [if_pos (by simpa using hh), if_pos hh]
    simp [verdict, Bool.and_assoc]
  case neg =>
    rw [if_neg (by simpa using hh), if_neg hh]
    split
    · simp [verdict]
    · simp [verdict, Bool.and_assoc]

theorem listLoop_stop (hq : NoGap q) (ht : ∀ t ∈ (tokens q).head?, isStop t) (hc : q.head? ≠ some ',') :
    verdict (listLoop (parseOneWith group ctx) n false q) = true := by
  cases n
  case zero   => rfl
  case succ n =>
    cases q
    case nil       => rfl
    case cons c cs =>
      have hstop : isStop (tokAt c cs).fst := ht _ (by rw [tokens_of_noGap hq]; rfl)
      rw [listLoop_step hq.dropWhile (List.cons_ne_nil c cs) hc, parseOneWith_stop hq hstop]
      simp only [hq.dropWhile]
      rw [if_neg hc, if_pos trivial]
      rfl

theorem head_dropWhile (hd : p.dropWhile isWs = p) (hp : p.head? = some ',') : tokens p = .comma :: tokens p.tail := by
  obtain ⟨c, cs, rfl⟩ : ∃ c cs, p = c :: cs := List.exists_cons_of_ne_nil (by rintro rfl; cases hp)
  cases hp
  exact tokens_comma

theorem overlooks_blank_of_skip (h : cssSkipWsComments p = c :: cs) : overlooks checked ok seen .blank (tokens p) =
    overlooks checked ok seen .blank ((tokAt c cs).fst :: tokens (tokAt c cs).snd) := by
  obtain ⟨hgap, hno⟩ := tokens_of_skip h
  by_cases hl : (c :: cs).length < p.length
  case pos => obtain ⟨g, hg⟩ := hgap hl; rw [hg, overlooks]
  case neg => rw [hno hl]

theorem overlooks_blank_of_nil (h : cssSkipWsComments p = []) :
    overlooks checked ok seen .blank (tokens p) = false := by
  obtain hg | hg := noGap_or p
  case inl => rw [← hg, h]; simp [tokens_nil, overlooks]
  case inr => rw [tokens_gap hg, h]; simp [tokens_nil, overlooks]

theorem listLoop_dropWhile {one : CString → Option Sel × CString × Raised} {expect : Bool} :
    listLoop one (n + 1) expect (p.dropWhile isWs) = listLoop one (n + 1) expect p := by
  rw [listLoop, listLoop, List.dropWhile_idempotent]

theorem tail_length_le (hp : q.head? = some ',') (hl : q.length ≤ n + 1) : q.tail.length ≤ n := by
  cases q
  case nil       => cases hp
  case cons c cs => exact Nat.le_of_succ_le_succ hl

theorem dropWhile_length_le : (p.dropWhile isWs).length ≤ p.length :=
  (List.dropWhile_suffix isWs).length_le

theorem listLoop_nil {one : CString → Option Sel × CString × Raised} {expect : Bool} :
    listLoop one n expect [] = ([], expect, {}) := by
  cases n <;> rfl

theorem length_lt_of_tokAt {t : Tok} (hs : cssSkipWsComments p = c :: cs) (ht : tokAt c cs = (t, rest)) :
    rest.length < p.length := by
  have h₁ := @tokAt_length_le c cs
  have h₂ := (cssSkipWsComments_suffix (p := p)).length_le
  rw [ht] at h₁
  rw [hs] at h₂
  exact Nat.lt_of_lt_of_le (Nat.lt_succ_of_le h₁) h₂

-- The two places where a round of the loop begins with no selector yet: at a comma, and behind what is none.
theorem listLoop_eq (hr : ctx.relative = false) (hn : p.length ≤ n) :
    verdict (listLoop (parseOneWith group ctx) n true p) =
        overlooks true (allows group ctx true) seen .item (tokens p) ∧
      (p.dropWhile isWs = p → p.head? ≠ some ',' →
        verdict (listLoop (parseOneWith group ctx) n true p) =
          overlooks true (allows group ctx true) seen .blank (tokens p)) := by
  induction n generalizing p seen
  case zero      =>
    obtain rfl := List.eq_nil_of_length_eq_zero (Nat.le_zero.mp hn)
    simp [verdict, listLoop, tokens_nil, overlooks]
  case succ n hi =>
    have hblank {p seen} (hn : p.length ≤ n + 1) (hd : p.dropWhile isWs = p) (hc : p.head? ≠ some ',') :
        verdict (listLoop (parseOneWith group ctx) (n + 1) true p) =
          overlooks true (allows group ctx true) seen .blank (tokens p) := by
      by_cases hp : p = []
      case pos => subst hp; simp [verdict, listLoop, tokens_nil, overlooks]
      case neg =>
        have ho := @parseOneWith_outcome group ctx p true hr hp
        rw [listLoop_step hd hp hc]
        generalize parseOneWith group ctx p = r at ho ⊢
        cases ho
        case nothing hb =>
          have hl : ¬(0 : Nat) = p.length := fun h => hp (List.eq_nil_of_length_eq_zero h.symm)
          rw [overlooks_blank_of_nil hb]
          simp [hl, listLoop_nil, verdict]
        case stop c cs hs hstop =>
          have hq : NoGap (c :: cs) := hs ▸ noGap_cssSkipWsComments
          have hl : (c :: cs).length ≤ p.length := hs ▸ cssSkipWsComments_suffix.length_le
          simp only [hq.dropWhile, Raised.fails_default, Bool.not_false, Bool.true_and]
          split
          case isTrue hh =>
            obtain rfl : c = ',' := Option.some.inj hh
            rw [overlooks_blank_of_skip hs]
            have ht : (tokAt ',' cs) = (.comma, cs) := rfl
            rw [ht, overlooks]
            exact (hi (tail_length_le hh (hl.trans hn))).1
          case isFalse hh =>
            have hfalse {ts} : overlooks true (allows group ctx true) seen .blank ((tokAt c cs).fst :: ts) = false := by
              cases hk : (tokAt c cs).fst
              case comma =>
                obtain ⟨cs', he⟩ := head_of_tokens_comma (p := c :: cs) (by rw [tokens_of_noGap hq, hk])
                rw [he] at hh
                exact absurd rfl hh
              case brace | other => simp [overlooks]
              all_goals rw [hk] at hstop; cases hstop
            rw [overlooks_blank_of_skip hs, hfalse]
            split
            · rfl
            · have hlt : (c :: cs).length ≤ n := by omega
              have he := (@hi (c :: cs) seen hlt).2 hq.dropWhile hh
              rw [tokens_of_noGap hq, hfalse] at he
              exact he
        case comb c cs comb hs hk hf =>
          rw [overlooks_blank_of_skip hs, hk]
          simp [hf, overlooks]
        case nameless c cs ts rest hs ht hall =>
          have hlt := length_lt_of_tokAt hs ht
          have hw := dropWhile_length_le (p := rest)
          have hd := List.dropWhile_idempotent (p := isWs) (l := rest)
          rw [overlooks_blank_of_skip hs, ht]
          simp only [overlooks, hall, Bool.not_true, Bool.or_false, if_true]
          rw [← overlooks_blank_dropBlank, ← tokens_dropWhile]
          generalize rest.dropWhile isWs = q at hw hd ⊢
          refine congrArg₂ _ (by rw [allows]) ?_
          split
          case isTrue hh =>
            rw [head_dropWhile hd hh, overlooks]
            exact (hi (tail_length_le hh (by omega))).1
          case isFalse hh =>
            rw [if_neg (by omega)]
            exact (hi (by omega)).2 hd hh
        case selector c cs ts rest hs ht hall heq hleft =>
          have hlt := length_lt_of_tokAt hs ht
          rw [overlooks_blank_of_skip hs, ht]
          simp only [overlooks, hall, Bool.not_false, Bool.or_true, Bool.false_eq_true, if_false]
          rw [heq]
          cases hf : r.2.2.fails true
          case true  => rfl
          case false =>
            obtain ⟨hleft, hsome⟩ := hleft hf
            have hnone : r.1.isNone = false := by simpa [← Option.not_isSome] using hsome
            have hle := hleft.le
            simp only [hleft.noGap.dropWhile, hnone, Bool.and_false, Bool.not_false, Bool.true_and]
            split
            case isTrue hh =>
              rw [head_dropWhile hleft.noGap.dropWhile hh, resume]
              exact (hi (tail_length_le hh (by omega))).1
            case isFalse hh =>
              rw [resume_of_head hh]
              split
              · rfl
              · exact listLoop_stop hleft.noGap hleft.stops hh
    refine ⟨?_, hblank hn⟩
    rw [← listLoop_dropWhile, ← overlooks_item_dropBlank, ← tokens_dropWhile]
    have hn' := dropWhile_length_le.trans hn
    have hd := List.dropWhile_idempotent (p := isWs) (l := p)
    generalize p.dropWhile isWs = q at hn' hd ⊢
    by_cases hc : q.head? = some ','
    case pos =>
      have hq : q ≠ [] := by rintro rfl; cases hc
      rw [head_dropWhile hd hc, listLoop]
      dsimp only
      rw [hd, if_neg hq, if_pos (by simpa using hc)]
      simp [verdict, Raised.fails, overlooks]
    case neg => rw [hblank hn' hd hc, overlooks_item_eq_blank hd hc]

-- Where no selector is expected any more, there is one.
theorem listLoop_ne_nil {one : CString → Option Sel × CString × Raised} {expect : Bool}
    (h : (listLoop one n expect p).2.1 = false) : expect = false ∨ (listLoop one n expect p).1 ≠ [] := by
  induction n generalizing p expect
  case zero      => exact .inl h
  case succ n hi =>
    rw [listLoop] at h ⊢
    dsimp only at h ⊢
    split at h
    case isTrue hs  => exact .inl h
    case isFalse hs =>
      rw [if_neg hs]
      split at h
      case isTrue hc  =>
        rw [if_pos hc]
        exact .inr ((hi h).resolve_left (by decide))
      case isFalse hc =>
        rw [if_neg hc]
        generalize one (p.dropWhile isWs) = r at h ⊢
        obtain ⟨sel, rest, raised⟩ := r
        split at h
        case isTrue hh  =>
          rw [if_pos hh]
          exact .inr fun hn => ((hi h).resolve_left (by decide)) (List.append_eq_nil_iff.mp hn).2
        case isFalse hh =>
          rw [if_neg hh]
          have hsel (he : (expect && sel.isNone) = false) : expect = false ∨ ∀ sels, sel.toList ++ sels ≠ [] := by
            cases sel
            case none     => exact .inl (by simpa using he)
            case some sel => exact .inr fun _ => List.cons_ne_nil _ _
          split at h
          case isTrue hl  =>
            rw [if_pos hl]
            exact (hsel h).imp_right fun hs => by simpa using hs []
          case isFalse hl =>
            rw [if_neg hl]
            obtain he | hn := hi h
            case inl => exact (hsel he).imp_right fun hs => hs _
            case inr => exact .inr fun he => hn (List.append_eq_nil_iff.mp he).2

-- Whether the result of `rulesLoop` lets a rule be kept.
def kept (seen : Bool) (r : List Sel × Raised) : Bool :=
  (seen || !r.1.isEmpty) && !r.2.fails false

theorem overlooks_item_of_skip (h : cssSkipWsComments p = c :: cs) : overlooks false ok seen .item (tokens p) =
    overlooks false ok seen .item ((tokAt c cs).fst :: tokens (tokAt c cs).snd) := by
  obtain ⟨hgap, hno⟩ := tokens_of_skip h
  by_cases hl : (c :: cs).length < p.length
  case pos => obtain ⟨g, hg⟩ := hgap hl; rw [hg, overlooks]; rfl
  case neg => rw [hno hl]

theorem overlooks_item_of_nil (h : cssSkipWsComments p = []) :
    overlooks false ok seen .item (tokens p) = seen := by
  obtain hg | hg := noGap_or p
  case inl => rw [← hg, h]; simp [tokens_nil, overlooks]
  case inr => rw [tokens_gap hg, h]; simp [tokens_nil, overlooks]

-- Behind brackets without a name, only a comma goes on.
theorem overlooks_brackets (hd : q = p.dropWhile isWs) : overlooks false ok seen .brackets (tokens p) =
    if q.head? = some ',' then overlooks false ok seen .item (tokens q.tail) else seen := by
  have ht : tokens q = dropBlank (tokens p) := hd ▸ tokens_dropWhile
  have hqq : q.dropWhile isWs = q := hd ▸ List.dropWhile_idempotent _ _
  by_cases hh : q.head? = some ','
  case pos =>
    rw [if_pos hh]
    have hc := head_dropWhile hqq hh
    rw [ht] at hc
    cases hp : tokens p
    case nil       => rw [hp] at hc; cases hc
    case cons t ts =>
      rw [hp] at hc
      cases t
      case gap b =>
        cases b
        case true  => cases hc
        case false =>
          obtain rfl : ts = .comma :: tokens q.tail := hc
          simp [overlooks]
      case comma =>
        obtain rfl : ts = tokens q.tail := (List.cons.inj hc).2
        simp [overlooks]
      all_goals cases hc
  case neg =>
    rw [if_neg hh]
    have hnc {ts} (he : tokens q = .comma :: ts) : False := by
      obtain ⟨cs, rfl⟩ := head_of_tokens_comma he
      exact hh rfl
    cases hp : tokens p
    case nil       => simp [overlooks]
    case cons t ts =>
      rw [hp] at ht
      cases t
      case comma => exact (hnc ht).elim
      case gap b =>
        cases b
        case true  => simp [overlooks]
        case false =>
          have hts : tokens q = ts := ht
          rw [overlooks]
          cases ts
          case nil       => simp [overlooks]
          case cons t ts =>
            cases t
            case comma => exact (hnc hts).elim
            case gap b =>
              cases b
              case true  => simp [overlooks]
              case false =>
                have hs := tokens_dropWhile (p := q)
                rw [hqq, hts] at hs
                exact absurd hs (List.cons_ne_self _ _)
            all_goals simp [overlooks]
      all_goals simp [overlooks]

theorem rulesLoop_nil {one : CString → Option Sel × CString × Raised} : rulesLoop one n [] = ([], {}) := by
  cases n <;> rfl

-- A round of the loop over the selectors of a rule.
theorem rulesLoop_step {one : CString → Option Sel × CString × Raised} (hp : p ≠ []) :
    kept seen (rulesLoop one (n + 1) p) =
      let r := one p
      let rest := r.2.1.dropWhile isWs
      !r.2.2.fails false &&
        if rest.head? = some ',' then kept (seen || r.1.isSome) (rulesLoop one n rest.tail) else seen || r.1.isSome := by
  rw [rulesLoop, if_neg hp]
  dsimp only
  generalize one p = r
  obtain ⟨sel, rest, raised⟩ := r
  by_cases hh : (rest.dropWhile isWs).head? = some ','
  case pos =>
    rw [if_pos (by simpa using hh), if_pos hh]
    cases sel <;> cases hf : raised.fails false <;> simp [kept, hf]
  case neg =>
    rw [if_neg (by simpa using hh), if_neg hh]
    cases sel <;> cases hf : raised.fails false <;> simp [kept, hf]

theorem rulesLoop_eq (hr : ctx.relative = false) (hn : p.length ≤ n) :
    kept seen (rulesLoop (parseOneWith group ctx) n p) =
      overlooks false (allows group ctx false) seen .item (tokens p) := by
  induction n generalizing p seen
  case zero      =>
    obtain rfl := List.eq_nil_of_length_eq_zero (Nat.le_zero.mp hn)
    simp [kept, rulesLoop, tokens_nil, overlooks]
  case succ n hi =>
    by_cases hp : p = []
    case pos => subst hp; simp [kept, rulesLoop, tokens_nil, overlooks]
    case neg =>
      have ho := @parseOneWith_outcome group ctx p false hr hp
      rw [rulesLoop_step hp]
      generalize parseOneWith group ctx p = r at ho ⊢
      cases ho
      case nothing hb => rw [overlooks_item_of_nil hb]; simp
      case stop c cs hs hstop =>
        have hq : NoGap (c :: cs) := hs ▸ noGap_cssSkipWsComments
        have hl : (c :: cs).length ≤ p.length := hs ▸ cssSkipWsComments_suffix.length_le
        rw [overlooks_item_of_skip hs]
        simp only [hq.dropWhile, Raised.fails_default, Bool.not_false, Bool.true_and, Option.isSome_none, Bool.or_false]
        split
        case isTrue hh =>
          obtain rfl : c = ',' := Option.some.inj hh
          have ht : (tokAt ',' cs) = (.comma, cs) := rfl
          rw [ht, overlooks, hi (tail_length_le hh (hl.trans hn))]
          rfl
        case isFalse hh =>
          cases hk : (tokAt c cs).fst
          case comma =>
            obtain ⟨cs', he⟩ := head_of_tokens_comma (p := c :: cs) (by rw [tokens_of_noGap hq, hk])
            rw [he] at hh
            exact absurd rfl hh
          case brace | other => simp [overlooks]
          all_goals rw [hk] at hstop; cases hstop
      case comb c cs comb hs hk hf =>
        rw [overlooks_item_of_skip hs, hk]
        simp [hf, overlooks]
      case nameless c cs ts rest hs ht hall =>
        have hlt := length_lt_of_tokAt hs ht
        have hw := dropWhile_length_le (p := rest)
        rw [overlooks_item_of_skip hs, ht]
        simp only [overlooks, hall, if_true, Bool.false_eq_true, if_false, Option.isSome_none, Bool.or_false]
        rw [overlooks_brackets rfl]
        refine congrArg₂ _ (by rw [allows]) ?_
        split
        case isTrue hh  => exact hi (tail_length_le hh (by omega))
        case isFalse hh => rfl
      case selector c cs ts rest hs ht hall heq hleft =>
        have hlt := length_lt_of_tokAt hs ht
        rw [overlooks_item_of_skip hs, ht]
        simp only [overlooks, hall, Bool.false_eq_true, if_false]
        rw [heq]
        cases hf : r.2.2.fails false
        case true  => rfl
        case false =>
          obtain ⟨hleft, hsome⟩ := hleft hf
          have hle := hleft.le
          simp only [hleft.noGap.dropWhile, hsome, Bool.or_true, Bool.not_false, Bool.true_and]
          split
          case isTrue hh =>
            rw [head_dropWhile hleft.noGap.dropWhile hh, resume]
            exact hi (tail_length_le hh (by omega))
          case isFalse hh => rw [resume_of_head hh]

end Lists

section Results

variable {strict : Bool} {text : CString}

-- Whether the compound selectors of a text raise no flag that counts.
def allowed (checked strict : Bool) (text : CString) : List SimpleToken → Bool :=
  allows (parseSelectorGroup text.length) { strict } checked

theorem parseSelectorListChecked_eq : (parseSelectorListChecked strict text).2 =
    overlooks true (allowed true strict text) false .item (tokens text) := by
  have hv := (@listLoop_eq (parseSelectorGroup text.length) { strict } text.length text false rfl (Nat.le_refl _)).1
  have ho : parseOneSelector text.length strict = parseOneWith (parseSelectorGroup text.length) { strict } := rfl
  rw [allowed, ← hv, parseSelectorListChecked, ho]
  have hne := @listLoop_ne_nil text.length text (parseOneWith (parseSelectorGroup text.length) { strict }) true
  generalize listLoop (parseOneWith (parseSelectorGroup text.length) { strict }) text.length true text = r at hne ⊢
  obtain ⟨sels, expect, raised⟩ := r
  cases expect
  case true  => simp [verdict]
  case false =>
    have hs : sels.isEmpty = false := by simpa using (hne rfl).resolve_left (by decide)
    simp [verdict, Raised.fails, hs]

theorem keepsRule_eq : keepsRule text =
    overlooks false (allowed false false text) false .item (tokens text) := by
  have ho : parseOneSelector text.length false = parseOneWith (parseSelectorGroup text.length) {} := rfl
  rw [allowed, ← rulesLoop_eq rfl (Nat.le_refl _), keepsRule, ho]
  simp [kept, Raised.fails]

theorem allowed_wellFormed {cs : List SimpleToken} (h : allowed checked strict text cs)
    (hn : cs.any SimpleToken.isNameless = false) : ∀ t ∈ cs, t.wellFormed :=
  wellFormed_of_compound (by simpa [allowed, allows] using h) hn

-- A text that the parser takes, as a list or as the selectors of a rule, is a list exactly when what it overlooks is
-- nothing.
theorem accepts_only_lists_iff (strict : Bool) (text : CString) :
    (((parseSelectorListChecked strict text).2 → IsSelectorList (tokens text)) ↔
        (overlooks true (allowed true strict text) false .item (tokens text) → Flawless (tokens text))) ∧
      ((keepsRule text → IsSelectorList (tokens text)) ↔
        (overlooks false (allowed false false text) false .item (tokens text) → Flawless (tokens text))) := by
  have hl {checked strict} (h : overlooks checked (allowed checked strict text) false .item (tokens text)) :
      IsSelectorList (tokens text) ↔ Flawless (tokens text) :=
    isSelectorList_iff (fun _ => allowed_wellFormed) (fun _ => tokens_compound_ne_nil) h
  rw [parseSelectorListChecked_eq, keepsRule_eq]
  exact ⟨forall_congr' hl, forall_congr' hl⟩

-- A comma at the end, and a character behind the selector that begins nothing.
theorem not_accepts_only_lists :
    ¬((parseSelectorListChecked false "a%".toList).2 → IsSelectorList (tokens "a%".toList)) ∧
      ¬(keepsRule "a,".toList → IsSelectorList (tokens "a,".toList)) := by
  have hp : tokens "a%".toList = [.compound [.type "a".toList], .other '%'] := rfl
  have hc : items (tokens "a,".toList) = [[.compound [.type "a".toList]], []] := rfl
  constructor
  · intro h
    have hf := (h (by decide)).flawless.tokens (.other '%') (by rw [hp]; exact List.mem_cons_of_mem _ List.mem_cons_self)
    cases hf
  · intro h
    obtain ⟨t, ht, -⟩ := (h (by decide)).flawless.items [] (by rw [hc]; exact List.mem_cons_of_mem _ List.mem_cons_self)
    cases ht

end Results

end Nordstjernen.Css.Selector
