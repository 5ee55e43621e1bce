import Nordstjernen.Css.Syntax.Components

open Nordstjernen.Glib Nordstjernen.Lib

namespace Nordstjernen.Css.Syntax

-- The equations of what is matched on most are derived here, once for all the proofs below.
section
attribute [local simp] parseList escapeLength startsNumber nameLength stringBody afterComment fractionLength
  startsIdent exponentLength
end

section Lengths

variable {p cs : CString} {a c q : Char} {k : Nat}

theorem escapeLength_le (p : CString) : escapeLength p ≤ p.length := by
  rw [escapeLength.eq_def]
  split
  case h_2 => exact Nat.zero_le _
  case h_1 p =>
    split
    case h_1 => exact Nat.le_refl 1
    case h_2 c cs =>
      split
      case isFalse => split <;> simp
      case isTrue =>
        have htake := (List.takeWhile_prefix gAsciiIsxdigit (l := (c :: cs).take 6)).length_le
        rw [List.length_take] at htake
        generalize (((c :: cs).take 6).takeWhile gAsciiIsxdigit).length = digits at htake
        dsimp only
        split
        case isFalse => rw [List.length_cons]; omega
        case isTrue hb =>
          have hd : (c :: cs).drop digits ≠ [] := by
            intro he
            rw [he] at hb
            cases hb
          have hlt : digits < (c :: cs).length := by
            rwa [Ne, List.drop_eq_nil_iff, Nat.not_le] at hd
          rw [List.length_cons]
          omega

theorem nameLength_le (k : Nat) (p : CString) : nameLength k p ≤ p.length := by
  induction p generalizing k
  case nil => cases k <;> exact Nat.le_refl 0
  case cons c cs hi =>
    cases k
    case succ k =>
      have h := hi k
      rw [nameLength, List.length_cons]
      omega
    case zero =>
      rw [nameLength]
      split
      case isTrue =>
        have h := hi 0
        rw [List.length_cons]
        omega
      case isFalse =>
        split
        case h_1   => exact Nat.zero_le _
        case h_2 k _ =>
          have h := hi k
          rw [List.length_cons]
          omega

theorem escapeLength_pos (h : validEscape p) : 0 < escapeLength p := by
  rw [validEscape.eq_def] at h
  split at h
  case h_2 => cases h
  case h_1 c cs =>
    rw [Bool.not_eq_true'] at h
    rw [escapeLength]
    simp only [h]
    split
    case isTrue  => omega
    case isFalse => exact Nat.zero_lt_two

theorem nameLength_pos (h : startsIdent p) : 0 < nameLength 0 p := by
  cases p
  case nil => cases h
  case cons a p =>
    rw [nameLength]
    split
    case isTrue => omega
    case isFalse hn =>
      rw [syntaxName, Bool.or_eq_true, Bool.or_eq_true, not_or, not_or] at hn
      rw [startsIdent, if_neg hn.1.1] at h
      split at h
      case isTrue =>
        split
        case h_1 he => exact absurd he (escapeLength_pos h).ne'
        case h_2    => omega
      case isFalse =>
        have hd : (a != '-') = true := by simpa using hn.2
        rw [if_pos hd] at h
        cases h

theorem digitsLength_le (p : CString) : digitsLength p ≤ p.length :=
  (List.takeWhile_prefix Char.isDigit).length_le

theorem signLength_le (p : CString) : signLength p ≤ p.length := by
  rw [signLength]
  split
  case isTrue h =>
    cases p
    case nil  => cases h
    case cons => exact Nat.succ_le_succ (Nat.zero_le _)
  case isFalse => exact Nat.zero_le _

theorem fractionLength_le (p : CString) : fractionLength p ≤ p.length := by
  rw [fractionLength.eq_def]
  split
  case h_2 => exact Nat.zero_le _
  case h_1 cs =>
    have h := digitsLength_le cs
    rw [List.length_cons]
    split <;> omega

theorem exponentLength_le (p : CString) : exponentLength p ≤ p.length := by
  cases p
  case nil => exact Nat.le_refl 0
  case cons e cs =>
    have hs := signLength_le cs
    have hd := digitsLength_le (cs.drop (signLength cs))
    rw [List.length_drop] at hd
    rw [exponentLength, List.length_cons]
    split
    case isTrue  => dsimp only; split <;> omega
    case isFalse => exact Nat.zero_le _

theorem numberLength_le (p : CString) : numberLength p ≤ p.length := by
  have hs := signLength_le p
  have hd := digitsLength_le (p.drop (signLength p))
  have hf := fractionLength_le (p.drop (signLength p + digitsLength (p.drop (signLength p))))
  have he := exponentLength_le (p.drop (signLength p + digitsLength (p.drop (signLength p)) +
    fractionLength (p.drop (signLength p + digitsLength (p.drop (signLength p))))))
  rw [List.length_drop] at hd hf he
  rw [numberLength]
  omega

theorem digitsLength_pos (cs : CString) (h : c.isDigit) : 0 < digitsLength (c :: cs) := by
  rw [digitsLength, List.takeWhile_cons_of_pos h]
  exact Nat.succ_pos _

theorem numberLength_pos (h : startsNumber p) : 0 < numberLength p := by
  cases p
  case nil => cases h
  case cons a p =>
    by_cases hs : isSign a
    case pos =>
      have h1 : signLength (a :: p) = 1 := if_pos hs
      rw [numberLength, h1]
      omega
    case neg =>
      have h0 : signLength (a :: p) = 0 := if_neg hs
      rw [numberLength, h0, List.drop_zero]
      by_cases ha : a.isDigit
      case pos =>
        have hd := digitsLength_pos p ha
        omega
      case neg =>
        have hd : digitsLength (a :: p) = 0 := by rw [digitsLength, List.takeWhile_cons_of_neg ha, List.length_nil]
        rw [startsNumber, if_neg ha, if_neg hs] at h
        split at h
        case isFalse => cases h
        case isTrue hdot =>
          obtain rfl := beq_iff_eq.mp hdot
          cases p
          case nil => cases h
          case cons b p =>
            have hb := digitsLength_pos p (show b.isDigit from h)
            rw [hd, Nat.add_zero, List.drop_zero, fractionLength, if_neg hb.ne']
            omega

theorem stringBody_le (q : Char) (k : Nat) (p : CString) : (stringBody q k p).2.1 ≤ p.length := by
  induction p generalizing k
  case nil => cases k <;> exact Nat.le_refl 0
  case cons c cs hi =>
    cases k
    case succ k => exact Nat.succ_le_succ (hi k)
    case zero =>
      rw [stringBody]
      split
      case isTrue => exact Nat.succ_le_succ (Nat.zero_le _)
      case isFalse =>
        split
        case isTrue => exact Nat.succ_le_succ (Nat.zero_le _)
        case isFalse =>
          dsimp only
          split
          case isFalse => exact Nat.succ_le_succ (hi 0)
          case isTrue =>
            split
            case h_1   => exact Nat.succ_le_succ (Nat.zero_le _)
            case h_2 k _ => exact Nat.succ_le_succ (hi k)

end Lengths

section Consume

variable {offset : Nat} {c : Char} {cs p : CString}

-- What is read of a component that begins in front of a text.
structure Consumed.Reads (t : Consumed) (offset : Nat) (p : CString) : Prop where
  pos   : 0 < t.length
  le    : t.length ≤ p.length
  start : t.component.start = offset
  inner : t.component.inner = t.closing.map fun _ => offset + t.length
  ends  : ∀ d ∈ t.closing, isClosing d

theorem consumeString_reads (q : Char) : (consumeString offset q cs).Reads offset (c :: cs) :=
  ⟨Nat.succ_pos _, Nat.succ_le_succ (stringBody_le q 0 cs), rfl, rfl, by simp [consumeString]⟩

theorem consumeNumeric_reads (h : startsNumber p) : (consumeNumeric offset p).Reads offset p := by
  have hpos := numberLength_pos h
  have hle := numberLength_le p
  have hname := nameLength_le 0 (p.drop (numberLength p))
  rw [List.length_drop] at hname
  rw [consumeNumeric]
  dsimp only
  split
  case isTrue hp =>
    have hne : p.drop (numberLength p) ≠ [] := by
      intro he
      rw [he] at hp
      cases hp
    have hlt : numberLength p < p.length := by rwa [Ne, List.drop_eq_nil_iff, Nat.not_le] at hne
    exact ⟨Nat.succ_pos _, hlt, rfl, rfl, by simp⟩
  case isFalse =>
    split
    case isTrue  => exact ⟨Nat.add_pos_left hpos _, Nat.add_le_of_le_sub' hle hname, rfl, rfl, by simp⟩
    case isFalse => exact ⟨hpos, hle, rfl, rfl, by simp⟩

theorem consumeMarked_reads (type : ComponentType) : (consumeMarked type offset cs).Reads offset (c :: cs) :=
  ⟨Nat.succ_pos _, Nat.succ_le_succ (nameLength_le 0 cs), rfl, rfl, by simp [consumeMarked]⟩

theorem consumeIdent_reads (h : startsIdent p) : (consumeIdent offset p).Reads offset p := by
  rw [consumeIdent]
  split
  case isTrue hp =>
    have hne : p.drop (nameLength 0 p) ≠ [] := by
      intro he
      rw [he] at hp
      cases hp
    have hlt : nameLength 0 p < p.length := by rwa [Ne, List.drop_eq_nil_iff, Nat.not_le] at hne
    have hends : ∀ e ∈ some ')', isClosing e := by simp [isClosing]
    exact ⟨Nat.succ_pos _, hlt, rfl, rfl, hends⟩
  case isFalse => exact ⟨nameLength_pos h, nameLength_le 0 p, rfl, rfl, by simp⟩

theorem isClosing_of_closingOf {d : Char} (h : closingOf c = some d) : isClosing d := by
  rw [closingOf] at h
  split_ifs at h <;> exact Option.some.inj h ▸ by decide

theorem consumeDelim_reads : (consumeDelim offset c).Reads offset (c :: cs) := by
  rw [consumeDelim]
  split
  case h_1 d hd =>
    have hends : ∀ e ∈ some d, isClosing e := fun e he =>
      Option.mem_some_iff.mp he ▸ isClosing_of_closingOf hd
    exact ⟨Nat.zero_lt_one, Nat.succ_le_succ (Nat.zero_le _), rfl, rfl, hends⟩
  case h_2 => exact ⟨Nat.zero_lt_one, Nat.succ_le_succ (Nat.zero_le _), rfl, rfl, by simp⟩

theorem consume_reads (offset : Nat) (c : Char) (cs : CString) : (consume offset c cs).Reads offset (c :: cs) := by
  rw [consume]
  split_ifs with hw hq hn hat hhash hid
  case pos =>
    have hpos : 0 < ((c :: cs).takeWhile isWs).length := by
      rw [List.takeWhile_cons_of_pos hw]
      exact Nat.succ_pos _
    exact ⟨hpos, (List.takeWhile_prefix isWs).length_le, rfl, rfl, by simp⟩
  case pos => exact consumeString_reads c
  case pos => exact consumeNumeric_reads hn
  case pos => exact consumeMarked_reads .atKeyword
  case pos => exact consumeMarked_reads .hash
  case pos => exact consumeIdent_reads hid
  case neg => exact consumeDelim_reads

end Consume

section Comment

variable {s t : CString} {c : Char}

-- The comment that a text begins with, which may be all of it.
def IsComment (text : CString) (last : Prop) : Prop :=
  ∃ body, text = "/*".toList ++ body ++ "*/".toList ∧ ¬"*/".toList <:+: body ++ ['*'] ∨
    text = "/*".toList ++ body ∧ ¬"*/".toList <:+: body ∧ last

theorem not_infix_cons (h : ¬"*/".toList <:+: s) (hc : ¬(c = '*' ∧ s.head? = some '/')) :
    ¬"*/".toList <:+: c :: s := by
  rw [List.infix_cons_iff, not_or]
  refine ⟨?_, h⟩
  rintro ⟨t, ht⟩
  obtain ⟨rfl, rfl⟩ := List.cons.inj ht
  exact hc ⟨rfl, rfl⟩

theorem afterComment_spec (s : CString) :
    (∃ body, s = body ++ "*/".toList ++ afterComment s ∧ ¬"*/".toList <:+: body ++ ['*']) ∨
      afterComment s = [] ∧ ¬"*/".toList <:+: s := by
  induction s
  case nil => exact .inr ⟨rfl, by decide⟩
  case cons c cs hi =>
    rw [afterComment]
    split
    case isTrue hc =>
      obtain ⟨hc, hh⟩ := Bool.and_eq_true_iff.mp hc
      obtain rfl := beq_iff_eq.mp hc
      cases cs
      case nil => cases hh
      case cons d cs =>
        obtain rfl : d = '/' := by simpa using hh
        exact .inl ⟨[], rfl, by decide⟩
    case isFalse hc =>
      rw [Bool.and_eq_true, beq_iff_eq, beq_iff_eq] at hc
      refine hi.imp ?_ fun ⟨he, hn⟩ => ⟨he, not_infix_cons hn hc⟩
      rintro ⟨body, hs, hn⟩
      refine ⟨c :: body, by rw [List.cons_append, List.cons_append, ← hs],
        not_infix_cons hn fun hh => hc ⟨hh.1, ?_⟩⟩
      cases body
      case nil      => exact absurd hh.2 (by decide)
      case cons d b => rw [hs]; exact hh.2

end Comment

-- What the characters of a text are part of: a component without children, what is in front of the children of
-- one that has them, a comment, or a closing bracket.
inductive Piece
  | leaf (t : Component)
  | head (t : Component) (inner : Nat)
  | comment (first last : Nat)
  | closing (place : Nat)

namespace Piece

def start : Piece → Nat
  | leaf t          => t.start
  | head t _        => t.start
  | comment first _ => first
  | closing place   => place

def stop : Piece → Nat
  | leaf t         => t.stop
  | head _ inner   => inner
  | comment _ last => last
  | closing place  => place + 1

def component? : Piece → Option Component
  | leaf t   => some t
  | head t _ => some t
  | _        => none

-- Whether a piece is what it says.
def Sound (input : CString) : Piece → Prop
  | leaf t             => t.inner = none
  | head t inner       => t.inner = some inner
  | comment first last => IsComment ((input.drop first).take (last - first)) (last = input.length)
  | closing place      => ∃ c ∈ input[place]?, isClosing c

end Piece

-- The pieces between two places, each of which begins where the one before it ends.
def Chain : Nat → List Piece → Nat → Prop
  | lo, [],      hi => lo = hi
  | lo, x :: xs, hi => x.start = lo ∧ x.start < x.stop ∧ Chain x.stop xs hi

-- The components of a row are between two places, one after the other, and the children of each are in its span.
def Ordered : Nat → Nat → Forest Component → Prop
  | lo, hi, .nil              => lo ≤ hi
  | lo, hi, .node t kids sibs =>
    lo ≤ t.start ∧ t.start < t.stop ∧ Ordered t.start t.stop kids ∧ Ordered t.stop hi sibs

section Chain

variable {lo mid hi : Nat} {xs ys : List Piece} {f : Forest Component}

theorem Chain.append (hx : Chain lo xs mid) (hy : Chain mid ys hi) : Chain lo (xs ++ ys) hi := by
  induction xs generalizing lo
  case nil => exact hx ▸ hy
  case cons x xs hi => exact ⟨hx.1, hx.2.1, hi hx.2.2⟩

theorem Ordered.mono {lo' : Nat} (h : Ordered lo hi f) (hl : lo' ≤ lo) : Ordered lo' hi f := by
  cases f
  case nil  => exact hl.trans h
  case node => exact ⟨hl.trans h.1, h.2⟩

end Chain

-- The components of a text from a place on, and the pieces of what has been read of it.
structure Parsed.Covers (r : Parsed) (input : CString) (offset : Nat) (p : CString) : Prop where
  le      : r.length ≤ p.length
  ordered : Ordered offset (offset + r.length) r.components
  pieces  : ∃ xs, Chain offset xs (offset + r.length) ∧ xs.filterMap Piece.component? = r.components.labels ∧
    ∀ x ∈ xs, x.Sound input

section Parse

variable {input p cs : CString} {offset fuel n : Nat} {r inner : Parsed} {closing : Option Char} {c : Char}
  {x : Piece} {t : Consumed}

-- Something that is no component, and what follows.
theorem Parsed.Covers.after (h : r.Covers input (offset + n) (p.drop n)) (hn : n ≤ p.length) (hx : x.Sound input)
    (hc : x.component? = none) (hs : x.start = offset) (he : x.stop = offset + n) (hpos : 0 < n) (valid : Bool) :
    (r.after n valid).Covers input offset p := by
  obtain ⟨hle, hord, xs, hchain, hmap, hall⟩ := h
  rw [List.length_drop] at hle
  rw [Nat.add_assoc] at hord hchain
  refine ⟨Nat.add_le_of_le_sub' hn hle, hord.mono (Nat.le_add_right _ _), x :: xs, ?_, ?_, ?_⟩
  · exact ⟨hs, by omega, he ▸ hchain⟩
  · rw [List.filterMap_cons_none hc, hmap]
    rfl
  · exact List.forall_mem_cons.mpr ⟨hx, hall⟩

theorem Parsed.covers_nil (p : CString) : (⟨.nil, 0, true⟩ : Parsed).Covers input offset p :=
  ⟨Nat.zero_le _, Nat.le_refl offset, [], rfl, rfl, by simp⟩

theorem Parsed.covers_closing (hp : input.drop offset = c :: cs) (hc : isClosing c) (valid : Bool) :
    (⟨.nil, 1, valid⟩ : Parsed).Covers input offset (c :: cs) := by
  have hin : c ∈ input[offset]? := by
    have h := congrArg List.head? hp
    rwa [List.head?_drop] at h
  refine ⟨Nat.succ_le_succ (Nat.zero_le _), Nat.le_add_right offset 1, [.closing offset], ?_, rfl, ?_⟩
  · exact ⟨rfl, Nat.lt_succ_self offset, rfl⟩
  · exact List.forall_mem_singleton.mpr ⟨c, hin, hc⟩

-- A component, its children, and what follows.
theorem Parsed.Covers.node (ht : t.Reads offset p) (hn : t.closing = none → inner = ⟨.nil, 0, true⟩)
    (hi : inner.Covers input (offset + t.length) (p.drop t.length))
    (hr : r.Covers input (offset + (t.length + inner.length)) ((p.drop t.length).drop inner.length))
    (valid : Bool) :
    Parsed.Covers { r.after (t.length + inner.length) valid with
      components := .node { t.component with stop := offset + (t.length + inner.length) } inner.components
        r.components } input offset p := by
  obtain ⟨hpos, hle, hstart, hinner, -⟩ := ht
  obtain ⟨hile, hiord, xs, hichain, himap, hiall⟩ := hi
  obtain ⟨hrle, hrord, ys, hrchain, hrmap, hrall⟩ := hr
  rw [List.length_drop] at hile hrle
  rw [List.length_drop] at hrle
  rw [Nat.add_assoc] at hrord hrchain
  rw [Nat.add_assoc] at hiord hichain
  refine ⟨by simp only [Parsed.after]; omega, ⟨hstart.ge, ?_, ?_, hrord⟩, ?_⟩
  · simp only [hstart]; omega
  · exact hiord.mono (by simp only [hstart]; omega)
  · cases hc : t.closing
    case none =>
      obtain rfl := hn hc
      rw [hc] at hinner
      refine ⟨.leaf { t.component with stop := offset + (t.length + 0) } :: ys,
        ⟨hstart, ?_, hrchain⟩, ?_, ?_⟩
      · simp only [Piece.start, Piece.stop, hstart]; omega
      · exact congrArg (List.cons _) hrmap
      · exact List.forall_mem_cons.mpr ⟨hinner, hrall⟩
    case some d =>
      rw [hc] at hinner
      refine ⟨.head { t.component with stop := offset + (t.length + inner.length) } (offset + t.length) ::
        (xs ++ ys), ⟨hstart, ?_, hichain.append hrchain⟩, ?_, ?_⟩
      · simp only [Piece.start, Piece.stop, hstart]; omega
      · refine congrArg (List.cons _) ?_
        rw [List.filterMap_append, himap, hrmap]
      · exact List.forall_mem_cons.mpr ⟨hinner, List.forall_mem_append.mpr ⟨hiall, hrall⟩⟩

-- A comment in front of a text, which is passed over.
theorem sound_comment (hp : input.drop offset = c :: cs) (hc : (c == '/' && cs.head? == some '*') = true) :
    0 < (c :: cs).length - (cssSkipComment (c :: cs)).length ∧
      cssSkipComment (c :: cs) = (c :: cs).drop ((c :: cs).length - (cssSkipComment (c :: cs)).length) ∧
      (Piece.comment offset (offset + ((c :: cs).length - (cssSkipComment (c :: cs)).length))).Sound input := by
  rw [Bool.and_eq_true, beq_iff_eq, beq_iff_eq] at hc
  obtain ⟨rfl, hh⟩ := hc
  obtain ⟨s, rfl⟩ : ∃ s, cs = '*' :: s := by
    cases cs
    case nil      => cases hh
    case cons d s => exact ⟨s, by rw [Option.some.inj hh]⟩
  have hskip : cssSkipComment ('/' :: '*' :: s) = afterComment s := rfl
  rw [hskip, Piece.Sound, hp, Nat.add_sub_cancel_left]
  obtain ⟨body, hs, hn⟩ | ⟨he, hn⟩ := afterComment_spec s
  case inl =>
    have h : s.length = body.length + 2 + (afterComment s).length := by
      have h := congrArg List.length hs
      rw [List.length_append, List.length_append] at h
      exact h
    have hlen : ('/' :: '*' :: s).length - (afterComment s).length =
        ("/*".toList ++ body ++ "*/".toList).length := by
      have htext : ("/*".toList ++ body ++ "*/".toList).length = 2 + body.length + 2 := by
        rw [List.length_append, List.length_append]
        rfl
      rw [htext, List.length_cons, List.length_cons]
      omega
    have htext : '/' :: '*' :: s = ("/*".toList ++ body ++ "*/".toList) ++ afterComment s := by
      rw [List.append_assoc, List.append_assoc, ← List.append_assoc body, ← hs]
      rfl
    rw [hlen, htext]
    refine ⟨by simp, List.drop_left.symm, body, .inl ⟨List.take_left, hn⟩⟩
  case inr =>
    rw [he, List.length_nil, Nat.sub_zero, List.drop_length, List.take_length]
    refine ⟨Nat.succ_pos _, rfl, s, .inr ⟨rfl, hn, ?_⟩⟩
    have h := congrArg List.length hp
    rw [List.length_drop, List.length_cons] at h
    rw [List.length_cons]
    omega

theorem parseList_covers (closing : Option Char) (hp : input.drop offset = p) (hf : p.length < fuel)
    (hd : ∀ d ∈ closing, isClosing d) :
    ∃ r, parseList fuel closing offset p = some r ∧ r.Covers input offset p ∧
      (closing = none → r.length = p.length) := by
  induction fuel generalizing offset p closing
  case zero => exact absurd hf (Nat.not_lt_zero _)
  case succ fuel hind =>
    cases p
    case nil => exact ⟨_, rfl, Parsed.covers_nil [], fun _ => rfl⟩
    case cons c cs =>
      have hdrop (n : Nat) : input.drop (offset + n) = (c :: cs).drop n := by rw [← hp, List.drop_drop]
      have hshort {n : Nat} (hn : 0 < n) : ((c :: cs).drop n).length < fuel := by
        rw [List.length_drop, List.length_cons]
        rw [List.length_cons] at hf
        omega
      rw [parseList]
      split_ifs with hcomment hclosing hbracket hsome
      case pos =>
        obtain ⟨hpos, hrest, hsound⟩ := sound_comment hp hcomment
        obtain ⟨n, hn⟩ : ∃ n, (c :: cs).length - (cssSkipComment (c :: cs)).length = n := ⟨_, rfl⟩
        rw [hn] at hpos hrest hsound
        obtain ⟨r, hr, hcov, hall⟩ := hind closing (hdrop n) (hshort hpos) hd
        have hle : n ≤ (c :: cs).length := hn ▸ Nat.sub_le _ _
        refine ⟨r.after n true, ?_, hcov.after hle hsound rfl rfl rfl hpos true, fun hnone => ?_⟩
        · dsimp only
          rw [hn, hrest, hr, Option.map_some]
        · have h := hall hnone
          rw [List.length_drop] at h
          show n + r.length = _
          omega
      case pos =>
        refine ⟨_, rfl, Parsed.covers_closing hp (hd c hclosing) true, fun hnone => ?_⟩
        rw [hnone] at hclosing
        cases hclosing
      case pos =>
        refine ⟨_, rfl, Parsed.covers_closing hp hbracket false, fun hnone => ?_⟩
        rw [hnone] at hsome
        cases hsome
      case neg =>
        obtain ⟨r, hr, hcov, hall⟩ := hind closing (hdrop 1) (hshort Nat.one_pos) hd
        have hsound : (Piece.closing offset).Sound input := by
          have h := congrArg List.head? hp
          rw [List.head?_drop] at h
          exact ⟨c, h, hbracket⟩
        refine ⟨r.after 1 false, ?_, hcov.after (Nat.succ_le_succ (Nat.zero_le _)) hsound rfl rfl rfl
          Nat.one_pos false, fun hnone => ?_⟩
        · exact congrArg (Option.map _) hr
        · have h := hall hnone
          rw [Parsed.after, h]
          exact Nat.add_comm 1 _
      case neg =>
        have ht := consume_reads offset c cs
        have hshort' (m : Nat) : (((c :: cs).drop (consume offset c cs).length).drop m).length < fuel := by
          have h := hshort ht.pos
          rw [List.length_drop]
          omega
        generalize consume offset c cs = t at ht hshort' ⊢
        obtain ⟨inner, hinner, hicov, hn⟩ : ∃ inner : Parsed,
            (t.closing.elim (some ⟨.nil, 0, true⟩) fun d =>
              parseList fuel (some d) (offset + t.length) ((c :: cs).drop t.length)) = some inner ∧
            inner.Covers input (offset + t.length) ((c :: cs).drop t.length) ∧
            (t.closing = none → inner = ⟨.nil, 0, true⟩) := by
          cases hc : t.closing
          case none => exact ⟨_, rfl, Parsed.covers_nil _, fun _ => rfl⟩
          case some d =>
            obtain ⟨inner, hinner, hcov, -⟩ := hind (some d) (hdrop t.length) (hshort ht.pos)
              fun e he => Option.mem_some_iff.mp he ▸ ht.ends d hc
            exact ⟨inner, hinner, hcov, fun h => by cases h⟩
        have hrest : input.drop (offset + (t.length + inner.length)) =
            ((c :: cs).drop t.length).drop inner.length := by
          rw [hdrop, List.drop_drop]
        obtain ⟨r, hr, hcov, hall⟩ := hind closing hrest (hshort' inner.length) hd
        refine ⟨_, ?_, Parsed.Covers.node ht hn hicov hcov (t.valid && inner.valid), fun hnone => ?_⟩
        · cases hc : t.closing
          case none =>
            obtain rfl := hn hc
            simp only [hc, hr, Option.bind_eq_bind, Option.bind_some, Option.pure_def]
          case some d =>
            rw [hc, Option.elim_some] at hinner
            simp only [hc, hinner, hr, Option.bind_eq_bind, Option.bind_some, Option.pure_def]
        · have h := hall hnone
          have hle := hicov.le
          have htle := ht.le
          rw [List.length_drop] at hle
          rw [List.length_drop, List.length_drop] at h
          show t.length + inner.length + r.length = _
          omega

end Parse

-- Whatever the text, it is taken apart: the components are in order and in each other's spans, and the text is the
-- components without children, what is in front of the children of the others, the comments and closing brackets.
theorem cssComponentValuesParse_pieces (input : CString) :
    ∃ r, cssComponentValuesParse input = some r ∧ Ordered 0 input.length r.components ∧
      ∃ xs, Chain 0 xs input.length ∧ xs.filterMap Piece.component? = r.components.labels ∧
        ∀ x ∈ xs, x.Sound input := by
  obtain ⟨r, hr, ⟨-, hord, hpieces⟩, hall⟩ :=
    parseList_covers none (List.drop_zero (l := input)) (Nat.lt_succ_self _) (by simp)
  rw [hall rfl, Nat.zero_add] at hord hpieces
  exact ⟨r, hr, hord, hpieces⟩

-- The bracket that opens a block is in no component without children.
theorem cssComponentValuesParse_block : ∃ r, cssComponentValuesParse "(a)".toList = some r ∧
    (∀ t ∈ r.components.labels, t.inner = none → ¬(t.start ≤ 0 ∧ 0 < t.stop)) ∧
    "(a)".toList[0]? = some '(' ∧ isClosing '(' = false ∧ ¬"/*".toList <:+: "(a)".toList := by
  refine ⟨_, rfl, ?_, rfl, rfl, by decide⟩
  decide

end Nordstjernen.Css.Syntax
