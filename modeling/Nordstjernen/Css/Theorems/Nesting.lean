import Mathlib.Data.List.Perm.Basic
import Nordstjernen.Css.Nesting
import Nordstjernen.Css.Syntax.Theorems.Declarations

open Nordstjernen.Glib Nordstjernen.Css.Syntax Nordstjernen.Lib.Hoist

namespace Nordstjernen.Css.Nesting

-- The equations of what is matched on most are derived here, once for all the proofs below.
section
attribute [local simp] appendNested terminated BodyItem.declText Flat.declared styleMeaning nestings
  flattenRuleList BodyItem.isRule styleHoisted ruleMeaning StyleOrdered ruleHoisted SheetOrdered
  BodyItem.decls BodyItem.meaning Nordstjernen.Css.Syntax.afterComment bodyComment hasNestedRule
  skipToBlockEnd bodyItems flattenStyleRule
end

section Bind

variable {parent child part : CString} {k bracket : Nat} {quote : Option Char}

-- What the loop appends for a character.
def bound (expr : CString) (c : Char × Bool) : CString :=
  if c.snd then expr else [c.fst]

theorem appendNested_eq (expr : CString) (k : Nat) (quote : Option Char) (bracket : Nat) (p : CString) :
    appendNested expr k quote bracket p = ((nestings k quote bracket p).flatMap (bound expr),
      (nestings k quote bracket p).any (·.snd)) := by
  induction p generalizing k quote bracket
  case nil          => cases k <;> rfl
  case cons c cs hi =>
    cases k
    case succ k => simp [appendNested, nestings, hi, bound]
    case zero   =>
      cases quote
      case some q =>
        rw [appendNested, nestings]
        split <;> simp [hi, bound]
      case none   =>
        rw [appendNested, nestings]
        dsimp only
        split
        · simp [hi, bound]
        · split
          · simp [hi, bound]
          · split
            · simp [hi, bound]
            · generalize (if c == '[' then bracket + 1 else if c == ']' then bracket - 1 else bracket) = depth
              cases hc : c == '&' && depth = 0
              case true  => simp [hi, bound]
              case false => simp [hi, bound]

theorem combinePart_eq (parent part : CString) : combinePart parent part = bindPart parent part := by
  rw [combinePart, bindPart, cssAppendNestedSelector, appendNested_eq]
  rfl

theorem cssCombineSelectors_eq (h : Named parent child) :
    cssCombineSelectors parent child = bindSelectors parent child := by
  rw [cssCombineSelectors, bindSelectors, h.outer, h.inner]
  rw [List.map_congr_left h.parts, funext (combinePart_eq parent)]

theorem length_isParent (parent : CString) : parent.length < (isParent parent).length := by
  simp only [isParent, List.length_append, List.length_singleton]
  exact Nat.lt_succ_of_le (Nat.le_add_left _ _)

theorem length_le_bindPart (parent part : CString) : (isParent parent).length ≤ (bindPart parent part).length := by
  rw [bindPart]
  split
  case isFalse => simp
  case isTrue h =>
    obtain ⟨c, hc, hs⟩ := List.any_eq_true.mp h
    obtain ⟨above, below, he⟩ := List.append_of_mem hc
    rw [he, List.flatMap_append, List.flatMap_cons, if_pos hs]
    simp only [List.length_append]
    omega

-- The parent is in the selectors of a nested rule.
theorem length_lt_bindSelectors (h : bindSelectors parent child ≠ []) :
    parent.length < (bindSelectors parent child).length := by
  rw [bindSelectors] at h ⊢
  generalize ((listParts child.length child).map cssTrimSelector).filter (· ≠ []) = parts at h ⊢
  cases parts
  case nil             => exact absurd rfl h
  case cons part parts =>
    refine (length_isParent parent).trans_le ((length_le_bindPart parent part).trans ?_)
    cases parts <;> simp [List.intercalate]

end Bind

section Local

variable {terms : List Char} {k : Nat} {quote : Option Char} {n : Syntax.Nesting}
variable {s r r' p x : CString} {t c : Char}

-- A character that begins neither a comment nor a string nor an escape.
def Plain (t : Char) : Prop :=
  t ≠ '/' ∧ t ≠ '*' ∧ t ≠ '\\' ∧ t ≠ '"' ∧ t ≠ '\''

theorem afterComment_length_le (p : CString) : (afterComment p).length ≤ p.length := by
  induction p
  case nil          => exact Nat.le_refl _
  case cons c cs hi =>
    rw [afterComment]
    split
    · simp only [List.length_tail, List.length_cons]
      omega
    · exact hi.trans (Nat.le_succ _)

-- A comment is closed in front of a character, or goes on behind it.
theorem afterComment_append (ht : Plain t) (x : CString) :
    (∃ u, ∀ r, afterComment (x ++ t :: r) = u ++ t :: r) ∨
      ∀ r, (afterComment (x ++ t :: r)).length ≤ r.length := by
  induction x
  case nil =>
    refine .inr fun r => ?_
    rw [List.nil_append, afterComment, if_neg (by simp [ht.right.left])]
    exact afterComment_length_le r
  case cons c x hi =>
    cases x
    case nil =>
      refine .inr fun r => ?_
      have hc : ¬(c == '*' && (([] : CString) ++ t :: r).head? == some '/') = true := by simp [ht.left]
      rw [List.cons_append, afterComment, if_neg hc, List.nil_append, afterComment]
      rw [if_neg (by simp [ht.right.left])]
      exact afterComment_length_le r
    case cons d x =>
      by_cases hc : c = '*' ∧ d = '/'
      case pos => exact .inl ⟨x, fun r => by simp [afterComment, hc]⟩
      case neg =>
        have hstep (r : CString) : afterComment (c :: d :: x ++ t :: r) = afterComment (d :: x ++ t :: r) := by
          rw [List.cons_append, afterComment, if_neg (by simpa using hc)]
        simp only [hstep]
        exact hi

theorem scanUntil_taken_length {j : Nat} (hk : j ≤ k) (hp : j ≤ p.length) :
    j ≤ (scanUntil terms k quote n p).taken.length := by
  induction p generalizing j k
  case nil          => exact hp.trans (Nat.zero_le _)
  case cons c cs hi =>
    cases k
    case zero   => exact hk.trans (Nat.zero_le _)
    case succ k =>
      rw [scanUntil, Scanned.cons_taken, List.length_cons]
      cases j
      case zero   => exact Nat.zero_le _
      case succ j => exact Nat.succ_le_succ (hi (Nat.le_of_succ_le_succ hk) (Nat.le_of_succ_le_succ hp))

theorem exists_passOver (q c : Char) (cs : CString) : ∃ q' k, passOver (some q) c cs = some (q', k) := by
  rw [passOver]
  split
  · exact ⟨_, _, rfl⟩
  · split <;> exact ⟨_, _, rfl⟩

theorem commentLength_local (ht : Plain t) (s : CString) :
    (∀ r', commentLength ('/' :: '*' :: s ++ t :: r') = commentLength ('/' :: '*' :: s ++ t :: r)) ∨
      s.length + 1 < commentLength ('/' :: '*' :: s ++ t :: r) := by
  have hc (r : CString) : commentLength ('/' :: '*' :: s ++ t :: r) =
      ('/' :: '*' :: s ++ t :: r).length - (afterComment (s ++ t :: r)).length - 1 := rfl
  cases afterComment_append ht s
  case inl h =>
    obtain ⟨u, hu⟩ := h
    refine .inl fun r' => ?_
    rw [hc, hc, hu, hu]
    simp only [List.length_append, List.length_cons]
    omega
  case inr h =>
    refine .inr ?_
    have := h r
    rw [hc]
    simp only [List.length_append, List.length_cons]
    omega

-- What is passed over in front of a place where a scan stops does not depend on what is behind it.
theorem passOver_local (ht : Plain t) (c : Char) (s : CString) :
    (∀ r', passOver quote c (s ++ t :: r') = passOver quote c (s ++ t :: r)) ∨
      ∃ q k, passOver quote c (s ++ t :: r) = some (q, k) ∧ s.length < k := by
  have hne (r : CString) : s ++ t :: r ≠ [] := by simp
  have hhead (r' : CString) : (s ++ t :: r').head? = (s ++ t :: r).head? := by cases s <;> rfl
  cases quote
  case some q => exact .inl fun r' => by simp [passOver]
  case none   =>
    by_cases hc : c = '/' ∧ (s ++ t :: r).head? = some '*'
    case neg =>
      refine .inl fun r' => ?_
      have hif (r'' : CString) (h : (s ++ t :: r'').head? = (s ++ t :: r).head?) :
          ¬(c == '/' && (s ++ t :: r'').head? == some '*') = true := by
        rw [h]
        simpa using hc
      rw [passOver, passOver, if_neg (hif r' (hhead r')), if_neg (hif r rfl)]
      simp only [ne_eq, hne, not_false_eq_true]
    case pos =>
      obtain ⟨rfl, hh⟩ := hc
      cases s
      case nil      => exact absurd (Option.some.inj hh) ht.right.left
      case cons d s =>
        obtain rfl : d = '*' := Option.some.inj hh
        have hp (r : CString) : passOver none '/' ('*' :: s ++ t :: r) =
            some (none, commentLength ('/' :: '*' :: s ++ t :: r)) := rfl
        cases commentLength_local (r := r) ht s
        case inl h => exact .inl fun r' => by rw [hp, hp, h]
        case inr h => exact .inr ⟨none, _, hp r, h⟩

-- A scan that stops at a character stops there whatever is behind it.
theorem scanUntil_local (ht : Plain t) (h : scanUntil terms k quote n (s ++ t :: r) = ⟨s, t :: r, t⟩)
    (r' : CString) :
    scanUntil terms k quote n (s ++ t :: r') = ⟨s, t :: r', t⟩ := by
  induction s generalizing k quote n
  case nil =>
    cases k
    case succ k => exact absurd (congrArg (·.taken) h) (by simp [scanUntil])
    case zero   =>
      cases quote
      case some q =>
        obtain ⟨q', k, hp⟩ := exists_passOver q t r
        refine absurd (congrArg (·.taken) h) ?_
        rw [List.nil_append, scanUntil, hp]
        simp
      case none   =>
        have hp (r : CString) : passOver none t r = none := passOver_none ⟨ht.left, ht.right.right⟩
        rw [List.nil_append, scanUntil, hp] at h ⊢
        dsimp only at h ⊢
        split at h
        case isTrue hstop => rw [if_pos hstop]
        case isFalse      => exact absurd (congrArg (·.taken) h) (by simp)
  case cons c s hi =>
    have hinj {a b : Scanned} (he : a.cons c = ⟨c :: s, b.rest, b.term⟩) : a = ⟨s, b.rest, b.term⟩ := by
      obtain ⟨taken, rest, term⟩ := a
      simp only [Scanned.cons, Scanned.mk.injEq, List.cons.injEq, true_and] at he ⊢
      exact he
    cases k
    case succ k =>
      rw [List.cons_append, scanUntil] at h ⊢
      rw [hi (hinj (b := ⟨[], t :: r, t⟩) h)]
      rfl
    case zero =>
      rw [List.cons_append, scanUntil] at h ⊢
      cases @passOver_local quote r t ht c s
      case inl hp =>
        rw [hp r']
        cases ho : passOver quote c (s ++ t :: r)
        case some o =>
          rw [ho] at h
          dsimp only at h ⊢
          rw [hi (hinj (b := ⟨[], t :: r, t⟩) h)]
          rfl
        case none =>
          rw [ho] at h
          dsimp only at h ⊢
          split at h
          case isTrue         => exact absurd (congrArg (·.taken) h) (by simp)
          case isFalse hstop =>
            rw [if_neg hstop, hi (hinj (b := ⟨[], t :: r, t⟩) h)]
            rfl
      case inr hp =>
        obtain ⟨q, j, ho, hj⟩ := hp
        rw [ho] at h
        have htaken := congrArg (·.taken.length) (hinj (b := ⟨[], t :: r, t⟩) h)
        have hle := @scanUntil_taken_length terms j q n (s ++ t :: r) (s.length + 1) hj (by simp)
        exact absurd (hle.trans_eq htaken) (Nat.not_succ_le_self _)

end Local

section Read

variable {p q body : CString} {n : Nat} {is : List BodyItem}

theorem rest_eq_nil_of_term {terms : List Char} {k : Nat} {quote : Option Char} {l : Syntax.Nesting}
    (h0 : '\x00' ∉ p) (h : (scanUntil terms k quote l p).term = '\x00') :
    (scanUntil terms k quote l p).rest = [] := by
  induction p generalizing k quote l
  case nil          => cases k <;> rfl
  case cons c cs hi =>
    obtain ⟨hc, h0⟩ : '\x00' ≠ c ∧ '\x00' ∉ cs := by simpa using h0
    cases k
    case succ k => rw [scanUntil] at h ⊢; exact hi h0 h
    case zero   =>
      rw [scanUntil] at h ⊢
      split at h
      case h_1 => exact hi h0 h
      case h_2 =>
        split at h
        case isTrue          => exact absurd h.symm hc
        case isFalse hstop   => rw [if_neg hstop]; exact hi h0 h

-- A comment that is closed is read in the same way whatever is behind it.
theorem bodyComment_local (h : ['*', '/'] <:+ (bodyComment q).fst) (x : CString) :
    bodyComment ((bodyComment q).fst ++ x) = ((bodyComment q).fst, x) := by
  induction q using bodyComment.induct
  case case1           => exact absurd h.length_le (by simp [bodyComment])
  case case2 c         => exact absurd h.length_le (by simp [bodyComment])
  case case3 c d cs hc =>
    rw [bodyComment, if_pos hc]
    simp only [List.cons_append, List.nil_append, bodyComment, if_pos hc]
  case case4 c d cs hc hi =>
    have hfst : ∀ u ∈ (bodyComment (d :: cs)).fst.head?, u = d := by
      cases cs
      case nil       => simp [bodyComment]
      case cons e cs =>
        rw [bodyComment]
        split <;> simp
    rw [bodyComment, if_neg hc] at h ⊢
    dsimp only [Prod.map_fst] at h ⊢
    generalize ht : bodyComment (d :: cs) = text at h hi hfst ⊢
    obtain ⟨_ | ⟨u, us⟩, rest⟩ := text
    case nil  => exact absurd h.length_le (by simp)
    case cons =>
      obtain rfl : u = d := hfst u rfl
      have hsuf : ['*', '/'] <:+ u :: us := by
        cases List.suffix_cons_iff.mp h
        case inr h => exact h
        case inl h =>
          simp only [List.cons.injEq] at h
          exact absurd (by simp [← h.left, ← h.right.left]) hc
      have := hi hsuf
      dsimp only at this ⊢
      rw [List.cons_append] at this
      rw [List.cons_append, List.cons_append, bodyComment, if_neg hc, this]
      rfl

-- What a scan stops at is the character that is there.
theorem scanUntil_rest {terms : List Char} {k : Nat} {quote : Option Char} {l : Syntax.Nesting} {t : Char}
    (h : (scanUntil terms k quote l p).term = t) (ht : t ≠ '\x00') :
    (scanUntil terms k quote l p).rest = t :: (scanUntil terms k quote l p).rest.tail := by
  induction p generalizing k quote l
  case nil          => cases k <;> exact absurd h.symm ht
  case cons c cs hi =>
    cases k
    case succ k => rw [scanUntil] at h ⊢; exact hi h
    case zero   =>
      rw [scanUntil] at h ⊢
      split at h
      case h_1 => exact hi h
      case h_2 =>
        split at h
        case isTrue hstop  => rw [if_pos hstop, ← h]; rfl
        case isFalse hstop => rw [if_neg hstop]; exact hi h

theorem bodyItems_nil (h : p.dropWhile isWs = []) : bodyItems n p = [] := by
  cases n
  case zero   => rfl
  case succ n => rw [bodyItems, if_pos h]

theorem bodyItems_comment (h : p.dropWhile isWs = '/' :: '*' :: q) : bodyItems (n + 1) p =
    .comment ('/' :: '*' :: (bodyComment q).fst) :: bodyItems n (bodyComment q).snd := by
  rw [bodyItems, h]
  rfl

-- What begins a declaration or a rule.
structure Segment (p q : CString) : Prop where
  eq      : p.dropWhile isWs = q
  ne      : q ≠ []
  comment : (q.head? == some '/' && q.tail.head? == some '*') = false

theorem Segment.isWs_eq_false {c : Char} {cs : CString} (h : Segment p (c :: cs)) : isWs c = false := by
  have := List.head_dropWhile_not (p := isWs) (l := p) (by rw [h.eq]; exact h.ne)
  simpa only [h.eq, List.head_cons] using this

theorem Segment.self (h : Segment p q) : Segment q q where
  ne      := h.ne
  comment := h.comment
  eq      := by
    cases q
    case nil       => rfl
    case cons c cs => exact List.dropWhile_cons_of_neg (by rw [h.isWs_eq_false]; exact Bool.false_ne_true)

-- A declaration that is put in front of something else is still one.
theorem Segment.append {u r : CString} (h : Segment p (u ++ r)) (x : CString) :
    Segment (u ++ ';' :: x) (u ++ ';' :: x) where
  ne      := List.append_ne_nil_of_right_ne_nil u (List.cons_ne_nil ';' x)
  comment := by
    cases u
    case nil       => rfl
    case cons c u =>
      cases u
      case nil      => exact Bool.and_false _
      case cons d u => exact h.comment
  eq      := by
    cases u
    case nil       => rfl
    case cons c cs => exact List.dropWhile_cons_of_neg (by rw [h.isWs_eq_false]; exact Bool.false_ne_true)

theorem bodyItems_decl (h : Segment p q) (ht : (cssScanSegment q).term ≠ '{') : bodyItems (n + 1) p =
    .decl (cssScanSegment q).taken (cssScanSegment q).term :: bodyItems n (cssScanSegment q).rest.tail := by
  rw [bodyItems, h.eq, if_neg h.ne, h.comment, if_neg Bool.false_ne_true, if_neg ht]

theorem bodyItems_rule (h : Segment p q) (ht : (cssScanSegment q).term = '{') : bodyItems (n + 1) p =
    .rule (cssTrimSelector (gStrndup (cssScanSegment q).taken))
      (blockBody (skipToBlockEnd 0 none 0 (cssScanSegment q).rest).fst) ::
        bodyItems n (skipToBlockEnd 0 none 0 (cssScanSegment q).rest).snd := by
  rw [bodyItems, h.eq, if_neg h.ne, h.comment, if_neg Bool.false_ne_true, if_pos ht]

theorem skipToBlockEnd_suffix {k depth : Nat} {quote : Option Char} :
    (skipToBlockEnd k quote depth p).snd <:+ p := by
  induction p generalizing k quote depth
  case nil          => cases k <;> exact List.suffix_refl _
  case cons c cs hi =>
    cases k
    case succ k => exact hi.trans (List.suffix_cons c cs)
    case zero   =>
      rw [skipToBlockEnd]
      split
      · exact hi.trans (List.suffix_cons c cs)
      · split
        · exact List.suffix_cons c cs
        · exact hi.trans (List.suffix_cons c cs)

theorem skipToBlockEnd_lt {k depth : Nat} {quote : Option Char} (h : p ≠ []) :
    (skipToBlockEnd k quote depth p).snd.length < p.length := by
  cases p
  case nil       => exact absurd rfl h
  case cons c cs =>
    have hle {k depth : Nat} {quote : Option Char} :
        (skipToBlockEnd k quote depth cs).snd.length < (c :: cs).length :=
      Nat.lt_succ_of_le skipToBlockEnd_suffix.length_le
    cases k
    case succ k => exact hle
    case zero   =>
      rw [skipToBlockEnd]
      split
      · exact hle
      · split
        · exact Nat.lt_succ_self _
        · exact hle

theorem bodyComment_suffix : (bodyComment q).snd <:+ q := by
  induction q using bodyComment.induct
  case case1            => exact List.suffix_refl _
  case case2 c          => exact List.suffix_refl _
  case case3 c d cs h   => rw [bodyComment, if_pos h]; exact ⟨[c, d], rfl⟩
  case case4 c d cs h hi => rw [bodyComment, if_neg h]; exact hi.trans (List.suffix_cons c _)

-- What a loop over a body comes to first.
theorem body_cases (p : CString) :
    p.dropWhile isWs = [] ∨ (∃ q, p.dropWhile isWs = '/' :: '*' :: q) ∨ ∃ q, Segment p q := by
  cases hp : p.dropWhile isWs
  case nil       => exact .inl rfl
  case cons c cs =>
    by_cases hc : ((c :: cs).head? == some '/' && (c :: cs).tail.head? == some '*') = true
    case pos =>
      obtain ⟨h₁, h₂⟩ : c = '/' ∧ cs.head? = some '*' := by simpa using hc
      obtain ⟨q, rfl⟩ : ∃ q, cs = '*' :: q := by
        cases cs
        case nil      => cases h₂
        case cons d q => exact ⟨q, by rw [Option.some.inj h₂]⟩
      exact .inr (.inl ⟨q, by rw [h₁]⟩)
    case neg => exact .inr (.inr ⟨c :: cs, hp, List.cons_ne_nil c cs, Bool.of_not_eq_true hc⟩)

theorem Segment.suffix (h : Segment p q) : q <:+ p :=
  h.eq ▸ List.dropWhile_suffix _

theorem comment_suffix (h : p.dropWhile isWs = '/' :: '*' :: q) : (bodyComment q).snd <:+ p := by
  have hsuf := List.dropWhile_suffix (l := p) isWs
  rw [h] at hsuf
  exact bodyComment_suffix.trans ((List.suffix_append ['/', '*'] q).trans hsuf)

theorem hasNestedRule_comment (h : p.dropWhile isWs = '/' :: '*' :: q) :
    hasNestedRule (n + 1) p = hasNestedRule n (bodyComment q).snd := by
  rw [hasNestedRule, h]
  rfl

theorem hasNestedRule_segment (h : Segment p q) : hasNestedRule (n + 1) p =
    (if (cssScanSegment q).term = '{' then true
     else if (cssScanSegment q).term = '\x00' then false
     else hasNestedRule n (cssScanSegment q).rest.tail) := by
  rw [hasNestedRule, h.eq, if_neg h.ne, h.comment, if_neg Bool.false_ne_true]

-- A rule that is found is there.
theorem any_isRule_of_hasNestedRule (h : hasNestedRule n p) : (bodyItems n p).any BodyItem.isRule := by
  induction n generalizing p
  case zero      => cases h
  case succ n hi =>
    obtain hp | ⟨q, hp⟩ | ⟨q, hp⟩ := body_cases p
    case inl         => rw [hasNestedRule, if_pos hp] at h; cases h
    case inr.inl     =>
      rw [hasNestedRule_comment hp] at h
      rw [bodyItems_comment hp, List.any_cons, hi h, Bool.or_true]
    case inr.inr     =>
      rw [hasNestedRule_segment hp] at h
      by_cases ht : (cssScanSegment q).term = '{'
      case pos => rw [bodyItems_rule hp ht, List.any_cons]; rfl
      case neg =>
        rw [if_neg ht] at h
        split at h
        case isTrue  => cases h
        case isFalse => rw [bodyItems_decl hp ht, List.any_cons, hi h, Bool.or_true]

-- A rule is found unless there is a `\x00` in front of it.
theorem hasNestedRule_of_any_isRule (h0 : '\x00' ∉ p) (h : (bodyItems n p).any BodyItem.isRule) :
    hasNestedRule n p := by
  induction n generalizing p
  case zero      => cases h
  case succ n hi =>
    obtain hp | ⟨q, hp⟩ | ⟨q, hp⟩ := body_cases p
    case inl     => rw [bodyItems_nil hp] at h; cases h
    case inr.inl =>
      have hsuf := comment_suffix hp
      rw [bodyItems_comment hp, List.any_cons] at h
      rw [hasNestedRule_comment hp]
      exact hi (fun hm => h0 (hsuf.subset hm)) h
    case inr.inr =>
      rw [hasNestedRule_segment hp]
      by_cases ht : (cssScanSegment q).term = '{'
      case pos => rw [if_pos ht]
      case neg =>
        have hsuf : (cssScanSegment q).rest <:+ p := cssScanUntil_suffix.trans hp.suffix
        rw [bodyItems_decl hp ht, List.any_cons] at h
        rw [if_neg ht]
        split
        case isTrue hz =>
          have hnil : (cssScanSegment q).rest = [] := rest_eq_nil_of_term (fun hm => h0 (hp.suffix.subset hm)) hz
          rw [hnil] at h
          exact absurd h (by cases n <;> simp [bodyItems, BodyItem.isRule])
        case isFalse => exact hi (fun hm => h0 (hsuf.subset (List.mem_of_mem_tail hm))) h

theorem declText_eq_nil {i : BodyItem} (h : i.declText = []) : i.decls = [] := by
  cases i
  case rule         => rfl
  case comment text => rfl
  case decl text term =>
    rw [BodyItem.declText] at h
    split at h
    · simp at h
    · rw [BodyItem.decls, if_pos h]

theorem scanSegment_last (h0 : '\x00' ∉ q) (h : (cssScanSegment q).term = '\x00') :
    cssScanSegment q = ⟨q, [], '\x00'⟩ := by
  have hrest : (cssScanSegment q).rest = [] := rest_eq_nil_of_term h0 h
  have happ : (cssScanSegment q).taken ++ (cssScanSegment q).rest = q := scanUntil_append
  rw [hrest, List.append_nil] at happ
  generalize cssScanSegment q = s at *
  obtain ⟨taken, rest, term⟩ := s
  subst happ hrest h
  rfl

theorem scanSegment_semicolon (h : (cssScanSegment q).term = ';') (x : CString) :
    cssScanSegment ((cssScanSegment q).taken ++ ';' :: x) = ⟨(cssScanSegment q).taken, ';' :: x, ';'⟩ := by
  have hrest : (cssScanSegment q).rest = ';' :: (cssScanSegment q).rest.tail := scanUntil_rest h (by decide)
  have happ : (cssScanSegment q).taken ++ (cssScanSegment q).rest = q := scanUntil_append
  have hself : cssScanSegment q = ⟨(cssScanSegment q).taken, (cssScanSegment q).rest, ';'⟩ := by rw [← h]
  have hplain : Plain ';' := by rw [Plain]; decide
  refine scanUntil_local (r := (cssScanSegment q).rest.tail) hplain ?_ x
  rwa [← hrest, happ]

-- The declarations that a scan takes out of a body are read again as they were.
theorem bodyItems_declText {m : Nat} (h0 : '\x00' ∉ p) (hn : p.length ≤ n) (h : terminated (bodyItems n p))
    (hm : ((bodyItems n p).flatMap BodyItem.declText).length ≤ m) :
    bodyItems m ((bodyItems n p).flatMap BodyItem.declText) = (bodyItems n p).filter (!·.isRule) := by
  induction n generalizing p m
  case zero      => cases m <;> rfl
  case succ n hi =>
    obtain hp | ⟨q, hp⟩ | ⟨q, hp⟩ := body_cases p
    case inl => rw [bodyItems_nil hp]; exact bodyItems_nil rfl
    case inr.inl =>
      have hsuf := comment_suffix hp
      have hlen : (bodyComment q).snd.length ≤ n := by
        have := hn.trans' (List.dropWhile_suffix (l := p) isWs).length_le
        have := (@bodyComment_suffix q).length_le
        rw [hp, List.length_cons, List.length_cons] at *
        omega
      rw [bodyItems_comment hp] at h hm ⊢
      obtain ⟨hc, h⟩ : ['*', '/'] <:+ (bodyComment q).fst ∧ terminated (bodyItems n (bodyComment q).snd) := by
        simpa [terminated] using h
      simp only [List.flatMap_cons, BodyItem.declText, List.cons_append, List.length_cons] at hm ⊢
      obtain ⟨m, rfl⟩ : ∃ j, m = j + 1 := ⟨m - 1, by omega⟩
      generalize ht : (bodyItems n (bodyComment q).snd).flatMap BodyItem.declText = texts at hm ⊢
      rw [bodyItems_comment (q := (bodyComment q).fst ++ texts) rfl]
      have hm : texts.length ≤ m := by
        rw [List.length_append] at hm
        omega
      subst ht
      rw [bodyComment_local hc, hi (fun hz => h0 (hsuf.subset hz)) hlen h hm]
      rfl
    case inr.inr =>
      have hlen := hp.suffix.length_le.trans hn
      have h0q : '\x00' ∉ q := fun hz => h0 (hp.suffix.subset hz)
      by_cases ht : (cssScanSegment q).term = '{'
      case pos =>
        have hlt : (skipToBlockEnd 0 none 0 (cssScanSegment q).rest).snd.length < (cssScanSegment q).rest.length :=
          skipToBlockEnd_lt (List.ne_nil_of_length_pos (by
            rw [cssScanSegment, cssScanUntil, scanUntil_rest ht (by decide)]
            exact Nat.succ_pos _))
        have hle : (cssScanSegment q).rest.length ≤ q.length := cssScanUntil_suffix.length_le
        rw [bodyItems_rule hp ht] at h hm ⊢
        exact hi (fun hz => h0q ((skipToBlockEnd_suffix.trans cssScanUntil_suffix).subset hz)) (by omega) h hm
      case neg =>
        rw [bodyItems_decl hp ht] at h hm ⊢
        simp only [terminated, Bool.and_eq_true, Bool.or_eq_true, decide_eq_true_eq, List.isEmpty_iff] at h
        obtain ⟨hterm, h⟩ := h
        cases hterm
        case inr hterm =>
          obtain ⟨hnil, hterm⟩ := hterm
          have hscan := scanSegment_last h0q hterm
          rw [hscan] at hnil hm ht ⊢
          have hne : '\x00' ≠ ';' := by decide
          rw [hnil, List.flatMap_singleton, BodyItem.declText, if_neg hne] at hm ⊢
          obtain ⟨m, rfl⟩ : ∃ j, m = j + 1 :=
            ⟨m - 1, (Nat.sub_add_cancel ((List.length_pos_of_ne_nil hp.ne).trans_le hm)).symm⟩
          rw [bodyItems_decl hp.self (by rw [hscan]; exact ht), hscan, bodyItems_nil rfl]
          rfl
        case inl hterm =>
          have hrest : (cssScanSegment q).rest = ';' :: (cssScanSegment q).rest.tail :=
            scanUntil_rest hterm (by decide)
          have happ : (cssScanSegment q).taken ++ (cssScanSegment q).rest = q := scanUntil_append
          have hle : (cssScanSegment q).rest.tail.length ≤ n := by
            have := congrArg List.length happ
            rw [hrest, List.length_append, List.length_cons] at this
            omega
          have hz : '\x00' ∉ (cssScanSegment q).rest.tail := fun hz =>
            h0q (cssScanUntil_suffix.subset (List.mem_of_mem_tail hz))
          rw [List.flatMap_cons, BodyItem.declText, if_pos hterm, List.append_assoc, List.singleton_append] at hm ⊢
          rw [List.length_append, List.length_cons] at hm
          obtain ⟨m, rfl⟩ : ∃ j, m = j + 1 := ⟨m - 1, by omega⟩
          have hne : ';' ≠ '{' := by decide
          have hscan := scanSegment_semicolon hterm
            ((bodyItems n (cssScanSegment q).rest.tail).flatMap BodyItem.declText)
          rw [bodyItems_decl (Segment.append (happ.symm ▸ hp) _) (by rw [hscan]; exact hne), hscan]
          rw [List.tail_cons, hterm]
          rw [hi hz hle h (by omega)]
          rfl

end Read

section Meaning

variable {sel body text : CString} {k j : Nat} {groups : List CString}

-- What a nested rule or group comes to.
def BodyItem.flat (k : Nat) (sel : CString) : BodyItem → List Flat
  | rule nsel nbody =>
    if nsel.head? = some '@' then
      if isGroup nsel then [.group nsel (flattenStyleRule k sel nbody)] else []
    else flattenStyleRule k (cssCombineSelectors sel nsel) nbody
  | _               => []

theorem styleMeaning_succ : styleMeaning (k + 1) groups sel body =
    (items body).flatMap fun i => i.decls.map (⟨groups, sel, ·⟩) ++ i.meaning k groups sel := by
  rw [styleMeaning]
  rfl

theorem flattenStyleRule_succ : flattenStyleRule (k + 1) sel body =
    (if !cssBodyHasNestedRule body then [.rule sel body]
     else (if (items body).flatMap BodyItem.declText = [] then []
        else [.rule sel ((items body).flatMap BodyItem.declText)]) ++
          (items body).flatMap (BodyItem.flat k sel)) := by
  rw [flattenStyleRule]
  rfl

-- What a nested rule or group declares, with the declarations hoisted.
def BodyItem.hoisted (k : Nat) (groups : List CString) (sel : CString) : BodyItem → List Appearance
  | rule nsel nbody =>
    if opens nsel then styleHoisted k (innerGroups groups nsel) (innerSel sel nsel) nbody else []
  | _               => []

theorem styleHoisted_succ : styleHoisted (k + 1) groups sel body =
    ((items body).flatMap fun i => i.decls.map (⟨groups, sel, ·⟩)) ++
      (items body).flatMap (BodyItem.hoisted k groups sel) := by
  rw [styleHoisted]
  rfl

namespace RuleItem

def flat (k : Nat) : RuleItem → List Flat
  | statement text     => [.raw text]
  | group prelude body => [.group prelude (flattenRuleList k body)]
  | block text         => [.raw text]
  | style sel body     => flattenStyleRule k sel body

def meaning (k : Nat) (groups : List CString) : RuleItem → List Appearance
  | group prelude body => ruleMeaning k (groups ++ [prelude]) body
  | style sel body     => styleMeaning k groups sel body
  | _                  => []

def hoisted (k : Nat) (groups : List CString) : RuleItem → List Appearance
  | group prelude body => ruleHoisted k (groups ++ [prelude]) body
  | style sel body     => styleHoisted k groups sel body
  | _                  => []

end RuleItem

theorem ruleMeaning_succ : ruleMeaning (k + 1) groups text = (rules text).flatMap (·.meaning k groups) := by
  rw [ruleMeaning]
  rfl

theorem ruleHoisted_succ : ruleHoisted (k + 1) groups text = (rules text).flatMap (·.hoisted k groups) := by
  rw [ruleHoisted]
  rfl

theorem flattenRuleList_succ : flattenRuleList (k + 1) text = (rules text).flatMap (·.flat k) := by
  rw [flattenRuleList]
  rfl

theorem declared_rule : Flat.declared groups (.rule sel body) =
    (items body).flatMap fun i => i.decls.map (⟨groups, sel, ·⟩) := by
  rw [Flat.declared, List.map_flatMap]

theorem decls_of_isRule {i : BodyItem} (h : i.isRule) : i.decls = [] := by
  cases i
  case comment => cases h
  case decl    => cases h
  case rule    => rfl

theorem flatMap_decls_filter {α : Type} (f : CString → α) (is : List BodyItem) :
    ((is.filter (!·.isRule)).flatMap fun i => i.decls.map f) = is.flatMap fun i => i.decls.map f := by
  induction is
  case nil          => rfl
  case cons i is hi =>
    rw [List.filter_cons, List.flatMap_cons]
    split
    case isTrue    => rw [List.flatMap_cons, hi]
    case isFalse h =>
      rw [decls_of_isRule (by simpa using h), hi]
      rfl

-- The declarations of a rule that are taken out of its body are the ones it has.
theorem declared_declText (h0 : '\x00' ∉ body) (h : terminated (items body)) :
    (if (items body).flatMap BodyItem.declText = [] then []
      else [Flat.rule sel ((items body).flatMap BodyItem.declText)]).flatMap (Flat.declared groups) =
        (items body).flatMap fun i => i.decls.map (⟨groups, sel, ·⟩) := by
  split
  case isTrue hnil =>
    refine (List.flatMap_eq_nil_iff.mpr fun i hi => ?_).symm
    rw [declText_eq_nil (List.flatMap_eq_nil_iff.mp hnil i hi), List.map_nil]
  case isFalse =>
    have hread : items ((items body).flatMap BodyItem.declText) = (items body).filter (!·.isRule) :=
      bodyItems_declText h0 (Nat.le_refl _) h (Nat.le_refl _)
    rw [List.flatMap_singleton, declared_rule, hread, flatMap_decls_filter]

theorem meaning_of_not_isRule {i : BodyItem} (h : i.isRule = false) : i.meaning k groups sel = [] := by
  cases i
  case comment => rfl
  case decl    => rfl
  case rule    => cases h

theorem flat_of_not_isRule {i : BodyItem} (h : i.isRule = false) : i.flat k sel = [] := by
  cases i
  case comment => rfl
  case decl    => rfl
  case rule    => cases h

theorem declared_flat {nsel nbody : CString} (h : opens nsel → nsel.head? ≠ some '@' → Named sel nsel) :
    (BodyItem.flat k sel (.rule nsel nbody)).flatMap (Flat.declared groups) =
      if opens nsel then
        (flattenStyleRule k (innerSel sel nsel) nbody).flatMap (Flat.declared (innerGroups groups nsel))
      else [] := by
  rw [BodyItem.flat, innerSel, innerGroups]
  by_cases hat : nsel.head? = some '@'
  case neg =>
    have ho : opens nsel := by simp [opens, hat]
    rw [if_neg hat, if_pos ho, if_neg hat, if_neg hat, cssCombineSelectors_eq (h ho hat)]
  case pos =>
    rw [if_pos hat, if_pos hat, if_pos hat]
    by_cases hg : isGroup nsel
    case pos => rw [if_pos hg, if_pos (by simp [opens, hg]), List.flatMap_singleton, Flat.declared]
    case neg => rw [if_neg hg, if_neg (by simp [opens, hg, hat]), List.flatMap_nil]

-- What a style rule comes to declares what it has itself, and then what is nested in it.
theorem declared_flattenStyleRule_succ (h : StyleTidy (k + 1) sel body) :
    (flattenStyleRule (k + 1) sel body).flatMap (Flat.declared groups) =
      ((items body).flatMap fun i => i.decls.map (⟨groups, sel, ·⟩)) ++
        (items body).flatMap fun i => (i.flat k sel).flatMap (Flat.declared groups) := by
  rw [flattenStyleRule_succ]
  by_cases hr : (items body).any BodyItem.isRule
  case neg =>
    have hnone : cssBodyHasNestedRule body = false :=
      Bool.of_not_eq_true fun hb => hr (any_isRule_of_hasNestedRule hb)
    have hflat : ((items body).flatMap fun i => (i.flat k sel).flatMap (Flat.declared groups)) = [] := by
      refine List.flatMap_eq_nil_iff.mpr fun i hm => ?_
      have hir := Bool.of_not_eq_true fun hir => hr (List.any_eq_true.mpr ⟨i, hm, hir⟩)
      rw [flat_of_not_isRule hir, List.flatMap_nil]
    rw [hnone, Bool.not_false, if_pos rfl, List.flatMap_singleton, declared_rule, hflat, List.append_nil]
  case pos =>
    obtain ⟨h0, hterm, -⟩ := h hr
    have hsome : cssBodyHasNestedRule body = true := hasNestedRule_of_any_isRule h0 hr
    rw [hsome, Bool.not_true, if_neg Bool.false_ne_true, List.flatMap_append, declared_declText h0 hterm]
    rw [List.flatMap_assoc]

-- What is nested in a rule is either not read, or a style rule.
theorem StyleTidy.inner {nsel nbody : CString} (h : StyleTidy (k + 1) sel body)
    (hm : .rule nsel nbody ∈ items body) (ho : opens nsel) : (nsel.head? ≠ some '@' → Named sel nsel) ∧ StyleTidy k (innerSel sel nsel) nbody :=
  (h (List.any_eq_true.mpr ⟨_, hm, rfl⟩)).right.right nsel nbody hm ho

theorem StyleTidy.styleMeaning_eq (h : StyleTidy k sel body) (hj : k ≤ j) :
    styleMeaning j groups sel body = styleMeaning k groups sel body := by
  induction k generalizing sel body groups j
  case zero      => exact h j groups
  case succ k hi =>
    obtain ⟨j, rfl⟩ : ∃ i, j = i + 1 := ⟨j - 1, by omega⟩
    rw [styleMeaning_succ, styleMeaning_succ]
    refine List.flatMap_congr fun i hm => ?_
    cases i
    case comment         => rfl
    case decl            => rfl
    case rule nsel nbody =>
      rw [BodyItem.meaning, BodyItem.meaning]
      split
      case isFalse   => rfl
      case isTrue ho => rw [hi (h.inner hm ho).right (Nat.le_of_succ_le_succ hj)]

-- The groups around a rule are around what it declares.
theorem styleMeaning_append (outer : List CString) : styleMeaning k (outer ++ groups) sel body =
    (styleMeaning k groups sel body).map fun a => { a with groups := outer ++ a.groups } := by
  induction k generalizing sel body groups
  case zero      => rfl
  case succ k hi =>
    rw [styleMeaning_succ, styleMeaning_succ, List.map_flatMap]
    refine List.flatMap_congr fun i hm => ?_
    rw [List.map_append, List.map_map]
    congr 1
    cases i
    case comment         => rfl
    case decl            => rfl
    case rule nsel nbody =>
      rw [BodyItem.meaning, BodyItem.meaning]
      split
      case isFalse => rfl
      case isTrue  =>
        rw [← hi, innerGroups, innerGroups]
        split
        case isTrue  => rw [List.append_assoc]
        case isFalse => rfl

-- What is nested in a rule is in more groups, or its selectors are longer.
theorem length_inner {nsel : CString} (h : nsel.head? ≠ some '@' → Named sel nsel) :
    groups.length + sel.length < (innerGroups groups nsel).length + (innerSel sel nsel).length := by
  rw [innerGroups, innerSel]
  split
  case isTrue      => rw [List.length_append, List.length_singleton]; omega
  case isFalse hat => exact Nat.add_lt_add_left (length_lt_bindSelectors (h hat).bound) _

def Appearance.size (a : Appearance) : Nat :=
  a.groups.length + a.sel.length

theorem StyleTidy.size_le (h : StyleTidy k sel body) :
    ∀ a ∈ styleMeaning k groups sel body, groups.length + sel.length ≤ a.size := by
  intro a ha
  induction k generalizing sel body groups
  case zero      => exact absurd ha List.not_mem_nil
  case succ k hi =>
    rw [styleMeaning_succ] at ha
    obtain ⟨i, hm, ha⟩ := List.mem_flatMap.mp ha
    cases List.mem_append.mp ha
    case inl ha =>
      obtain ⟨decl, -, rfl⟩ := List.mem_map.mp ha
      exact Nat.le_refl _
    case inr ha =>
      cases i
      case comment         => exact absurd ha List.not_mem_nil
      case decl            => exact absurd ha List.not_mem_nil
      case rule nsel nbody =>
        rw [BodyItem.meaning] at ha
        split at ha
        case isFalse   => exact absurd ha List.not_mem_nil
        case isTrue ho =>
          obtain ⟨hn, ht⟩ := h.inner hm ho
          exact (length_inner hn).le.trans (hi ht ha)

theorem StyleTidy.size_lt (h : StyleTidy (k + 1) sel body) {i : BodyItem} (hm : i ∈ items body) :
    ∀ a ∈ i.meaning k groups sel, groups.length + sel.length < a.size := by
  intro a ha
  cases i
  case comment         => exact absurd ha List.not_mem_nil
  case decl            => exact absurd ha List.not_mem_nil
  case rule nsel nbody =>
    rw [BodyItem.meaning] at ha
    split at ha
    case isFalse   => exact absurd ha List.not_mem_nil
    case isTrue ho =>
      obtain ⟨hn, ht⟩ := h.inner hm ho
      exact (length_inner hn).trans_le (ht.size_le a ha)

theorem perm_hoisted {i : BodyItem}
    (hp : ∀ {sel body groups}, (styleHoisted k groups sel body).Perm (styleMeaning k groups sel body)) :
    (i.hoisted k groups sel).Perm (i.meaning k groups sel) := by
  cases i
  case comment         => exact List.Perm.refl _
  case decl            => exact List.Perm.refl _
  case rule nsel nbody =>
    rw [BodyItem.hoisted, BodyItem.meaning]
    split
    case isFalse => exact List.Perm.refl _
    case isTrue  => exact hp

-- No declaration is lost where they are hoisted.
theorem perm_styleHoisted : (styleHoisted k groups sel body).Perm (styleMeaning k groups sel body) := by
  induction k generalizing sel body groups
  case zero      => exact List.Perm.refl _
  case succ k hi =>
    rw [styleHoisted_succ, styleMeaning_succ]
    refine (List.Perm.append_left _ ?_).trans (List.flatMap_append_perm _ _ _)
    exact List.Perm.flatMap_left _ fun i _ => perm_hoisted hi

theorem perm_ruleItemHoisted {i : RuleItem}
    (hp : ∀ {text groups}, (ruleHoisted k groups text).Perm (ruleMeaning k groups text)) :
    (i.hoisted k groups).Perm (i.meaning k groups) := by
  cases i
  case statement => exact List.Perm.refl _
  case block     => exact List.Perm.refl _
  case style     => exact perm_styleHoisted
  case group     => exact hp

theorem perm_ruleHoisted : (ruleHoisted k groups text).Perm (ruleMeaning k groups text) := by
  induction k generalizing text groups
  case zero      => exact List.Perm.refl _
  case succ k hi =>
    rw [ruleHoisted_succ, ruleMeaning_succ]
    exact List.Perm.flatMap_left _ fun i _ => perm_ruleItemHoisted hi

theorem declared_flattenStyleRule (h : StyleTidy k sel body) :
    (flattenStyleRule k sel body).flatMap (Flat.declared groups) = styleHoisted k groups sel body := by
  induction k generalizing sel body groups
  case zero      => rfl
  case succ k hi =>
    rw [declared_flattenStyleRule_succ h, styleHoisted_succ, List.append_cancel_left_eq]
    refine List.flatMap_congr fun i hm => ?_
    cases i
    case comment         => rfl
    case decl            => rfl
    case rule nsel nbody =>
      rw [declared_flat fun ho => (h.inner hm ho).left, BodyItem.hoisted]
      split
      case isFalse   => rfl
      case isTrue ho => exact hi (h.inner hm ho).right

theorem declared_raw : [Flat.raw text].flatMap (Flat.declared groups) = [] := by
  rw [List.flatMap_singleton, Flat.declared]

theorem declared_flattenRuleList (h : SheetTidy k text) :
    (flattenRuleList k text).flatMap (Flat.declared groups) = ruleHoisted k groups text := by
  induction k generalizing text groups
  case zero      => rfl
  case succ k hi =>
    rw [ruleHoisted_succ, flattenRuleList_succ, List.flatMap_assoc]
    refine List.flatMap_congr fun i hm => ?_
    have htidy := h i hm
    cases i
    case statement          => exact declared_raw
    case block              => exact declared_raw
    case style sel body     => exact declared_flattenStyleRule htidy
    case group prelude body =>
      rw [RuleItem.flat, List.flatMap_singleton, Flat.declared]
      exact hi htidy

theorem meaning_eq_nil_iff {i : BodyItem} : i.meaning k groups sel = [] ↔ i.meaning k [] sel = [] := by
  cases i
  case comment         => rfl
  case decl            => rfl
  case rule nsel nbody =>
    have happ : innerGroups groups nsel = groups ++ innerGroups [] nsel := by
      rw [innerGroups, innerGroups]
      split <;> simp
    rw [BodyItem.meaning, BodyItem.meaning, happ, styleMeaning_append]
    split
    case isTrue  => exact List.map_eq_nil_iff
    case isFalse => rfl

-- What is hoisted passes over nothing only if the declarations of each rule come first.
theorem styleHoisted_eq_iff (h : StyleTidy k sel body) :
    styleHoisted k groups sel body = styleMeaning k groups sel body ↔ StyleOrdered k sel body := by
  induction k generalizing sel body groups
  case zero      => exact iff_of_true rfl trivial
  case succ k hi =>
    rw [styleHoisted_succ, styleMeaning_succ, StyleOrdered]
    rw [flatMap_append_eq_iff (P := fun a : Appearance => a.size = groups.length + sel.length)]
    · refine and_congr (Ahead.congr (fun i _ => List.map_eq_nil_iff) fun i _ => meaning_eq_nil_iff) ?_
      constructor
      case mp =>
        intro hm nsel nbody hr ho
        have := hm _ hr
        rw [BodyItem.hoisted, BodyItem.meaning, if_pos ho, if_pos ho] at this
        exact (hi (h.inner hr ho).right).mp this
      case mpr =>
        intro hm i hr
        cases i
        case comment         => rfl
        case decl            => rfl
        case rule nsel nbody =>
          rw [BodyItem.hoisted, BodyItem.meaning]
          split
          case isFalse   => rfl
          case isTrue ho => exact (hi (h.inner hr ho).right).mpr (hm nsel nbody hr ho)
    · exact fun i _ => (perm_hoisted perm_styleHoisted).length_eq
    · intro i hm a ha
      obtain ⟨decl, -, rfl⟩ := List.mem_map.mp ha
      rfl
    · exact fun i hm a ha he => Nat.lt_irrefl _ (he ▸ h.size_lt hm a ha)

theorem ruleHoisted_eq_iff (h : SheetTidy k text) :
    ruleHoisted k groups text = ruleMeaning k groups text ↔ SheetOrdered k text := by
  induction k generalizing text groups
  case zero      => exact iff_of_true rfl trivial
  case succ k hi =>
    rw [ruleHoisted_succ, ruleMeaning_succ, SheetOrdered]
    rw [flatMap_eq_iff fun i _ => (perm_ruleItemHoisted perm_ruleHoisted).length_eq]
    refine forall₂_congr fun i hm => ?_
    have htidy := h i hm
    cases i
    case statement => exact iff_of_true rfl trivial
    case block     => exact iff_of_true rfl trivial
    case style     => exact styleHoisted_eq_iff htidy
    case group     => exact hi htidy

theorem SheetTidy.ruleMeaning_eq (h : SheetTidy k text) (hj : k ≤ j) :
    ruleMeaning j groups text = ruleMeaning k groups text := by
  induction k generalizing text groups j
  case zero      => exact h j groups
  case succ k hi =>
    obtain ⟨j, rfl⟩ : ∃ i, j = i + 1 := ⟨j - 1, by omega⟩
    have hj := Nat.le_of_succ_le_succ hj
    rw [ruleMeaning_succ, ruleMeaning_succ]
    refine List.flatMap_congr fun i hm => ?_
    have htidy := h i hm
    cases i
    case statement => rfl
    case block     => rfl
    case style     => exact StyleTidy.styleMeaning_eq htidy hj
    case group     => exact hi htidy hj

theorem StyleTidy.styleHoisted_eq (h : StyleTidy k sel body) (hj : k ≤ j) :
    styleHoisted j groups sel body = styleHoisted k groups sel body := by
  induction k generalizing sel body groups j
  case zero      => exact (perm_styleHoisted.trans (.of_eq (h j groups))).eq_nil
  case succ k hi =>
    obtain ⟨j, rfl⟩ : ∃ i, j = i + 1 := ⟨j - 1, by omega⟩
    rw [styleHoisted_succ, styleHoisted_succ, List.append_cancel_left_eq]
    refine List.flatMap_congr fun i hm => ?_
    cases i
    case comment         => rfl
    case decl            => rfl
    case rule nsel nbody =>
      rw [BodyItem.hoisted, BodyItem.hoisted]
      split
      case isFalse   => rfl
      case isTrue ho => rw [hi (h.inner hm ho).right (Nat.le_of_succ_le_succ hj)]

theorem SheetTidy.ruleHoisted_eq (h : SheetTidy k text) (hj : k ≤ j) :
    ruleHoisted j groups text = ruleHoisted k groups text := by
  induction k generalizing text groups j
  case zero      => exact (perm_ruleHoisted.trans (.of_eq (h j groups))).eq_nil
  case succ k hi =>
    obtain ⟨j, rfl⟩ : ∃ i, j = i + 1 := ⟨j - 1, by omega⟩
    have hj := Nat.le_of_succ_le_succ hj
    rw [ruleHoisted_succ, ruleHoisted_succ]
    refine List.flatMap_congr fun i hm => ?_
    have htidy := h i hm
    cases i
    case statement => rfl
    case block     => rfl
    case style     => exact StyleTidy.styleHoisted_eq htidy hj
    case group     => exact hi htidy hj

end Meaning

end Nordstjernen.Css.Nesting
