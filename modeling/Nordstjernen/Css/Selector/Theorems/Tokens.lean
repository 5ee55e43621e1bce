import Nordstjernen.Css.Selector.Grammar
import Nordstjernen.Css.Syntax.Theorems.Declarations

open Nordstjernen.Glib Nordstjernen.Css.Syntax

namespace Nordstjernen.Css.Selector

-- The equations of what is matched on most are derived here, once for all the proofs below.
section
attribute [local simp] readCompound tokensFrom readCssString readSimple readString readAttrValue
end

variable {p q rest : CString} {c : Char} {cs : CString} {k n : Nat}

section Blanks

theorem cssSkipWsComments_suffix : cssSkipWsComments p <:+ p :=
  skipping_suffix

-- What is left begins with neither white space nor a comment.
theorem skipping_head (h : skipping isWs k p = c :: cs) : isWs c = false ∧ ¬(c = '/' ∧ cs.head? = some '*') := by
  induction p generalizing k
  case nil            => cases k <;> cases h
  case cons d ds hind =>
    cases k
    case succ k => exact hind h
    case zero   =>
      rw [skipping] at h
      split at h
      case isTrue     => exact hind h
      case isFalse hw =>
        split at h
        case isTrue     => exact hind h
        case isFalse hc =>
          cases h
          exact ⟨Bool.of_not_eq_true hw, by simpa using hc⟩

theorem cssSkipWsComments_idem : cssSkipWsComments (cssSkipWsComments p) = cssSkipWsComments p := by
  cases h : cssSkipWsComments p
  case nil       => rfl
  case cons c cs =>
    obtain ⟨hw, hc⟩ := skipping_head h
    rw [cssSkipWsComments, skipping, if_neg (by simp [hw]), if_neg (by simpa using hc)]

theorem cssSkipWsComments_dropWhile : cssSkipWsComments (p.dropWhile isWs) = cssSkipWsComments p := by
  induction p
  case nil          => rfl
  case cons c cs hi =>
    by_cases hc : isWs c
    case pos => rw [List.dropWhile_cons_of_pos hc, hi, cssSkipWsComments, cssSkipWsComments, skipping, if_pos hc]
    case neg => rw [List.dropWhile_cons_of_neg hc]

end Blanks

section Suffixes

theorem tail_suffix_of (h : q <:+ p) : q.tail <:+ p :=
  (List.tail_suffix q).trans h

theorem ite_suffix {b : Prop} [Decidable b] {r : CString} (hq : q <:+ p) (hr : r <:+ p) :
    (if b then q else r) <:+ p := by
  split
  · exact hq
  · exact hr

theorem closeBracket_suffix : closeBracket p <:+ p := by
  rw [closeBracket]
  exact ite_suffix (tail_suffix_of cssScanUntil_suffix) cssScanUntil_suffix

theorem readString_suffix {quote : Char} : (readString quote k p).snd <:+ p := by
  induction p generalizing k
  case nil            => cases k <;> exact List.suffix_refl _
  case cons c cs hind =>
    have hs {k} : (readString quote k cs).snd <:+ c :: cs := hind.trans (List.suffix_cons c cs)
    cases k
    case succ k => exact hs
    case zero   =>
      rw [readString]
      split
      · exact List.suffix_cons c cs
      · split
        · exact List.suffix_refl _
        · split
          · split
            · exact hs
            · split <;> exact hs
          · exact hs

theorem readCssString_suffix : (readCssString p).snd <:+ p := by
  cases p
  case nil       => exact List.suffix_refl _
  case cons c cs =>
    rw [readCssString]
    split
    · exact readString_suffix.trans (List.suffix_cons c cs)
    · exact List.suffix_refl _

theorem readAttrValue_suffix : (readAttrValue p).snd.snd <:+ p := by
  cases p
  case nil       => exact List.suffix_refl _
  case cons c cs =>
    rw [readAttrValue]
    split
    case isFalse => exact List.suffix_refl _
    case isTrue  =>
      have hq : cssSkipWsComments (if c ≠ '=' && cs.head? == some '=' then cs.tail else cs) <:+ c :: cs :=
        cssSkipWsComments_suffix.trans
          ((ite_suffix (List.tail_suffix cs) (List.suffix_refl cs)).trans (List.suffix_cons c cs))
      dsimp only
      generalize cssSkipWsComments (if c ≠ '=' && cs.head? == some '=' then cs.tail else cs) = q at hq ⊢
      split
      · exact readCssString_suffix.trans hq
      · exact readCssIdent_suffix.trans hq

theorem readAttrFlag_suffix {op : Gather.AttrOp} : (readAttrFlag op p).snd.snd.snd <:+ p := by
  unfold readAttrFlag
  split
  · exact List.suffix_refl _
  · dsimp only
    split
    · exact readCssIdent_suffix
    · split
      · exact readCssIdent_suffix
      · exact List.suffix_refl _

theorem readAttr_suffix : (readAttr p).snd <:+ p := by
  have h₁ : cssSkipWsComments p <:+ p := cssSkipWsComments_suffix
  rw [readAttr]
  generalize cssSkipWsComments p = p₁ at h₁ ⊢
  have h₂ : (if p₁.head? == some '*' && p₁.tail.head? == some '|' then p₁.tail.tail
      else if beginsPipe p₁ then p₁.tail else p₁) <:+ p :=
    ite_suffix (tail_suffix_of (tail_suffix_of h₁)) (ite_suffix (tail_suffix_of h₁) h₁)
  dsimp only
  generalize (if p₁.head? == some '*' && p₁.tail.head? == some '|' then p₁.tail.tail
      else if beginsPipe p₁ then p₁.tail else p₁) = p₂ at h₂ ⊢
  have h₃ : (readCssIdent p₂).snd <:+ p := readCssIdent_suffix.trans h₂
  generalize readCssIdent p₂ = r at h₃ ⊢
  have h₄ : (if r.fst ≠ [] && beginsPipe r.snd then readCssIdent r.snd.tail else (r.fst, r.snd)).snd <:+ p := by
    split
    · exact readCssIdent_suffix.trans (tail_suffix_of h₃)
    · exact h₃
  generalize (if r.fst ≠ [] && beginsPipe r.snd then readCssIdent r.snd.tail else (r.fst, r.snd)) = s at h₄ ⊢
  split
  · exact closeBracket_suffix.trans h₄
  · exact closeBracket_suffix.trans (cssSkipWsComments_suffix.trans (readAttrFlag_suffix.trans
      (cssSkipWsComments_suffix.trans (readAttrValue_suffix.trans (cssSkipWsComments_suffix.trans h₄)))))

theorem readPseudo_suffix : (readPseudo p).snd <:+ p := by
  have hi : (readCssIdent (if p.head? == some ':' then p.tail else p)).snd <:+ p :=
    readCssIdent_suffix.trans (ite_suffix (List.tail_suffix p) (List.suffix_refl p))
  rw [readPseudo]
  dsimp only
  generalize readCssIdent (if p.head? == some ':' then p.tail else p) = r at hi ⊢
  split
  · exact ite_suffix (tail_suffix_of (cssScanUntil_suffix.trans (tail_suffix_of hi)))
      (cssScanUntil_suffix.trans (tail_suffix_of hi))
  · exact hi

-- A name that begins with one of its characters gets past it.
theorem readIdent_suffix_tail (h : isIdentStart c ∨ c = '\\') : (readIdent 0 (c :: cs)).snd <:+ cs := by
  rw [readIdent]
  split
  case isTrue     =>
    split
    · exact List.suffix_refl _
    · split
      · exact List.suffix_refl _
      · split <;> exact readIdent_suffix
  case isFalse hc =>
    have hi : isIdent c := by
      rw [isIdent, h.resolve_right (by simpa using hc), Bool.true_or]
    rw [if_pos hi]
    exact readIdent_suffix

theorem readCssIdent_suffix_tail (h : isIdentStart c ∨ c = '\\') : (readCssIdent (c :: cs)).snd <:+ cs :=
  readIdent_suffix_tail h

theorem beginsPipe_cons (h : beginsPipe (c :: cs)) : c = '|' := by
  simp only [beginsPipe, List.head?_cons, Bool.and_eq_true, beq_iff_eq] at h
  exact Option.some.inj h.left

-- A simple selector gets past a character.
theorem readSimple_suffix {t : SimpleToken} (h : readSimple (c :: cs) = some (t, rest)) : rest <:+ cs := by
  rw [readSimple] at h
  split at h
  case isTrue hstar =>
    have hq : (if c == '*' then cs else c :: cs).tail <:+ cs := by
      split
      · exact List.tail_suffix cs
      · exact List.suffix_refl cs
    have hn : ¬beginsPipe (if c == '*' then cs else c :: cs) → (if c == '*' then cs else c :: cs) <:+ cs := by
      intro hp
      by_cases hc : c == '*'
      case pos => rw [if_pos hc]
      case neg =>
        rw [if_neg hc] at hp
        exact absurd ((Bool.or_eq_true _ _ ▸ hstar).resolve_left hc) hp
    dsimp only at h
    generalize (if c == '*' then cs else c :: cs) = q at h hq hn
    by_cases hp : beginsPipe q
    case pos =>
      rw [if_pos hp] at h
      split at h
      case isTrue =>
        cases h
        exact tail_suffix_of hq
      case isFalse =>
        have hr : (readCssIdent q.tail).snd = rest := congrArg Prod.snd (Option.some.inj h)
        exact hr ▸ readCssIdent_suffix.trans hq
    case neg =>
      rw [if_neg hp] at h
      cases h
      exact hn hp
  case isFalse =>
    split at h
    case isTrue =>
      cases h
      exact readCssIdent_suffix
    case isFalse =>
      split at h
      case isTrue =>
        cases h
        exact readCssIdent_suffix
      case isFalse =>
        split at h
        case isTrue hc =>
          have hi : (readCssIdent (c :: cs)).snd <:+ cs := readCssIdent_suffix_tail (by simpa using hc)
          dsimp only at h
          generalize readCssIdent (c :: cs) = r at h hi
          split at h
          case isTrue  =>
            cases h
            exact ite_suffix (tail_suffix_of (tail_suffix_of hi)) (readCssIdent_suffix.trans (tail_suffix_of hi))
          case isFalse =>
            cases h
            exact hi
        case isFalse =>
          split at h
          case isTrue =>
            have hr : (readPseudo cs).snd = rest := congrArg Prod.snd (Option.some.inj h)
            exact hr ▸ readPseudo_suffix
          case isFalse =>
            split at h
            case isTrue  =>
              have hr : (readAttr cs).snd = rest := congrArg Prod.snd (Option.some.inj h)
              exact hr ▸ readAttr_suffix
            case isFalse => cases h

theorem readSimple_lt {t : SimpleToken} (h : readSimple p = some (t, rest)) : rest.length < p.length := by
  cases p
  case nil       => cases h
  case cons c cs => exact Nat.lt_succ_of_le (readSimple_suffix h).length_le

theorem readCompound_eq_of_none (h : readSimple p = none) : readCompound n p = ([], p) := by
  cases n
  case zero   => rfl
  case succ n => rw [readCompound, h]

theorem readCompound_succ {t : SimpleToken} (h : readSimple p = some (t, rest)) :
    readCompound (n + 1) p = (t :: (readCompound n rest).fst, (readCompound n rest).snd) := by
  rw [readCompound, h]

theorem readCompound_length_le : (readCompound n p).snd.length ≤ p.length := by
  induction n generalizing p
  case zero      => exact Nat.le_refl _
  case succ n hi =>
    cases h : readSimple p
    case none   => rw [readCompound_eq_of_none h]
    case some r => rw [readCompound_succ h]; exact hi.trans (readSimple_lt h).le

-- A compound selector ends where no simple selector begins.
theorem readSimple_readCompound (h : p.length ≤ n) : readSimple (readCompound n p).snd = none := by
  induction n generalizing p
  case zero      =>
    rw [List.eq_nil_of_length_eq_zero (Nat.le_zero.mp h)]
    rfl
  case succ n hi =>
    cases hr : readSimple p
    case none   => rw [readCompound_eq_of_none hr, hr]
    case some r =>
      rw [readCompound_succ hr]
      exact hi (Nat.le_of_lt_succ ((readSimple_lt hr).trans_le h))

end Suffixes

section NextTok

variable {t : Tok}

theorem nextTok_gap (h : (cssSkipWsComments p).length < p.length) :
    nextTok p = (.gap (p.dropWhile isWs ≠ cssSkipWsComments p), cssSkipWsComments p) := by
  rw [nextTok.eq_def]
  exact if_pos h

-- A text that begins with neither white space nor a comment.
def NoGap (p : CString) : Prop :=
  cssSkipWsComments p = p

theorem noGap_cssSkipWsComments : NoGap (cssSkipWsComments p) :=
  cssSkipWsComments_idem

theorem NoGap.isWs (h : NoGap (c :: cs)) : isWs c = false :=
  (skipping_head h).left

theorem NoGap.dropWhile (h : NoGap p) : p.dropWhile Syntax.isWs = p := by
  cases p
  case nil       => rfl
  case cons c cs => exact List.dropWhile_cons_of_neg (by simp [h.isWs])

theorem noGap_or (p : CString) : NoGap p ∨ (cssSkipWsComments p).length < p.length := by
  obtain hl | hl := Nat.lt_or_eq_of_le (cssSkipWsComments_suffix (p := p)).length_le
  case inl => exact .inr hl
  case inr => exact .inl (cssSkipWsComments_suffix.eq_of_length hl)

theorem nextTok_of_noGap (h : NoGap (c :: cs)) : nextTok (c :: cs) = tokAt c cs := by
  rw [nextTok.eq_def]
  exact if_neg (by rw [h]; exact Nat.lt_irrefl _)

theorem tokAt_length_le : (tokAt c cs).snd.length ≤ cs.length := by
  rw [tokAt]
  split
  · exact Nat.le_refl _
  · split
    · exact Nat.le_refl _
    · split
      · exact Nat.le_refl _
      · cases h : readSimple (c :: cs)
        case none   => simp [readCompound_eq_of_none h]
        case some r =>
          rw [readCompound_succ h]
          exact readCompound_length_le.trans (Nat.le_of_lt_succ (readSimple_lt h))

theorem nextTok_lt (h : p ≠ []) : (nextTok p).snd.length < p.length := by
  obtain hn | hl := noGap_or p
  case inr => rw [nextTok_gap hl]; exact hl
  case inl =>
    cases p
    case nil       => exact absurd rfl h
    case cons c cs =>
      rw [nextTok_of_noGap hn]
      exact Nat.lt_succ_of_le tokAt_length_le

theorem tokensFrom_eq (h : p.length ≤ n) : tokensFrom n p = tokens p := by
  have hm : ∀ n m : Nat, ∀ p : CString, p.length ≤ n → p.length ≤ m → tokensFrom n p = tokensFrom m p := by
    intro n
    induction n
    case zero      =>
      intro m p hn hm
      rw [List.eq_nil_of_length_eq_zero (Nat.le_zero.mp hn)]
      cases m <;> rfl
    case succ n hi =>
      intro m p hn hm
      cases m
      case zero   =>
        rw [List.eq_nil_of_length_eq_zero (Nat.le_zero.mp hm)]
        rfl
      case succ m =>
        rw [tokensFrom, tokensFrom]
        by_cases hp : p = []
        case pos => rw [if_pos hp, if_pos hp]
        case neg =>
          have hl := nextTok_lt hp
          rw [if_neg hp, if_neg hp]
          have he : tokensFrom n (nextTok p).snd = tokensFrom m (nextTok p).snd := hi m _ (by omega) (by omega)
          exact congrArg _ he
  exact hm n p.length p h (Nat.le_refl _)

theorem tokens_nil : tokens [] = [] :=
  rfl

theorem tokens_cons (h : p ≠ []) : tokens p = (nextTok p).fst :: tokens (nextTok p).snd := by
  have hl := nextTok_lt h
  have he : tokensFrom p.length (nextTok p).snd = tokens (nextTok p).snd := tokensFrom_eq hl.le
  rw [← tokensFrom_eq (Nat.le_succ p.length), tokensFrom, if_neg h]
  exact congrArg _ he

theorem tokens_of_noGap (h : NoGap (c :: cs)) :
    tokens (c :: cs) = (tokAt c cs).fst :: tokens (tokAt c cs).snd := by
  rw [tokens_cons (List.cons_ne_nil c cs), nextTok_of_noGap h]

theorem tokens_gap (h : (cssSkipWsComments p).length < p.length) : tokens p =
    .gap (p.dropWhile isWs ≠ cssSkipWsComments p) :: tokens (cssSkipWsComments p) := by
  rw [tokens_cons (by rintro rfl; cases h), nextTok_gap h]

-- White space without a comment is no token once it is skipped.
def dropBlank : List Tok → List Tok
  | .gap false :: ts => ts
  | ts               => ts

theorem tokAt_ne_gap {b : Bool} : (tokAt c cs).fst ≠ .gap b := by
  rw [tokAt]
  repeat' split
  all_goals rintro ⟨⟩

theorem dropBlank_of_noGap (h : NoGap p) : dropBlank (tokens p) = tokens p := by
  cases p
  case nil       => rfl
  case cons c cs =>
    rw [tokens_of_noGap h]
    cases ht : (tokAt c cs).fst
    case gap b => exact absurd ht tokAt_ne_gap
    all_goals rfl

theorem tokens_dropWhile : tokens (p.dropWhile isWs) = dropBlank (tokens p) := by
  obtain hn | hl := noGap_or p
  case inl => rw [hn.dropWhile, dropBlank_of_noGap hn]
  case inr =>
    rw [tokens_gap hl]
    by_cases hd : p.dropWhile isWs = cssSkipWsComments p
    case pos => simp [hd, dropBlank]
    case neg =>
      have hs := cssSkipWsComments_dropWhile (p := p)
      have hl' : (cssSkipWsComments (p.dropWhile isWs)).length < (p.dropWhile isWs).length := by
        refine Nat.lt_of_le_of_ne cssSkipWsComments_suffix.length_le fun he => hd ?_
        rw [← cssSkipWsComments_suffix.eq_of_length he, hs]
      rw [tokens_gap hl', hs, List.dropWhile_idempotent]
      simp [hd, dropBlank]

theorem tokAt_compound_ne_nil {ts : List SimpleToken} (h : (tokAt c cs).fst = .compound ts) : ts ≠ [] := by
  rw [tokAt] at h
  split at h
  · cases h
  · split at h
    · cases h
    · split at h
      · cases h
      · dsimp only at h
        split at h
        case isTrue     => cases h
        case isFalse hn =>
          cases h
          simpa using hn

theorem tokens_compound_ne_nil {ts : List SimpleToken} (h : .compound ts ∈ tokens p) : ts ≠ [] := by
  induction hl : p.length using Nat.strong_induction_on generalizing p
  case h n hi =>
    subst hl
    by_cases hp : p = []
    case pos => subst hp; cases h
    case neg =>
      rw [tokens_cons hp] at h
      obtain he | h := List.mem_cons.mp h
      case inr => exact hi _ (nextTok_lt hp) h rfl
      case inl =>
        obtain hn | hl := noGap_or p
        case inr => rw [nextTok_gap hl] at he; cases he
        case inl =>
          cases p
          case nil       => exact absurd rfl hp
          case cons c cs =>
            rw [nextTok_of_noGap hn] at he
            exact tokAt_compound_ne_nil he.symm

end NextTok

end Nordstjernen.Css.Selector
