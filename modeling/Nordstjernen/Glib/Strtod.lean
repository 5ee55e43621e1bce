import Nordstjernen.Glib.Strings

namespace Nordstjernen.Glib

-- The equations of what is matched on most are derived here, once for all the proofs below.
section
attribute [local simp] gAsciiStrdown hasCasePrefix
end

-- How far `g_ascii_strtod` reads: the end pointer less the start, which is zero where there is no number.

def signSpan : CString → Nat
  | c :: _ => if c = '+' ∨ c = '-' then 1 else 0
  | []     => 0

def isHexDigit (c : Char) : Bool :=
  c.isDigit || ['a', 'b', 'c', 'd', 'e', 'f'].contains (gAsciiTolower c)

section Spans

variable (digit : Char → Bool) (mark : Char)

-- Digits around a dot, one at least.
def mantissaSpan (s : CString) : Nat :=
  let whole := (s.takeWhile digit).length
  match s.drop whole with
  | c :: t =>
    let part := (t.takeWhile digit).length
    if c = '.' ∧ 0 < whole + part then whole + 1 + part else whole
  | []     => whole

-- An exponent is one with a digit only.
def exponentSpan : CString → Nat
  | c :: t =>
    let sign := signSpan t
    let digits := ((t.drop sign).takeWhile Char.isDigit).length
    if gAsciiTolower c = mark ∧ 0 < digits then 1 + sign + digits else 0
  | []     => 0

def numeralSpan (s : CString) : Nat :=
  let n := mantissaSpan digit s
  if n = 0 then 0 else n + exponentSpan mark (s.drop n)

end Spans

def nanChar (c : Char) : Bool :=
  c.isAlphanum || c == '_'

-- What follows `nan`, between parentheses.
def payloadSpan : CString → Nat
  | c :: t =>
    let n := (t.takeWhile nanChar).length
    if c = '(' ∧ (t.drop n).head? = some ')' then n + 2 else 0
  | []     => 0

def hexSpan (s : CString) : Nat :=
  if hasCasePrefix s "0x".toList then numeralSpan isHexDigit 'p' (s.drop 2) else 0

def unsignedSpan (s : CString) : Nat :=
  if hasCasePrefix s "infinity".toList then 8
  else if hasCasePrefix s "inf".toList then 3
  else if hasCasePrefix s "nan".toList then 3 + payloadSpan (s.drop 3)
  else if 0 < hexSpan s then 2 + hexSpan s
  else numeralSpan Char.isDigit 'e' s

def strtodSpan (s : CString) : Nat :=
  let blank := (s.takeWhile strtollIsspace).length
  let sign := signSpan (s.drop blank)
  let digits := unsignedSpan ((s.drop blank).drop sign)
  if digits = 0 then 0 else blank + sign + digits

-- What no number goes on with. A closing parenthesis may close the payload of a `nan`.
def endsNumber (c : Char) : Bool :=
  !c.isAlphanum && !(['.', '+', '-', '_', '('].contains c)

theorem gAsciiTolower_gAsciiTolower (c : Char) : gAsciiTolower (gAsciiTolower c) = gAsciiTolower c := by
  by_cases hc : c.isUpper
  case neg => rw [show gAsciiTolower c = c from if_neg hc, show gAsciiTolower c = c from if_neg hc]
  case pos =>
    have hr : 'A'.val ≤ c.val ∧ c.val ≤ 'Z'.val := of_decide_eq_true hc
    rw [UInt32.le_iff_toNat_le, UInt32.le_iff_toNat_le] at hr
    have h₁ : 65 ≤ c.toNat := hr.left
    have h₂ : c.toNat ≤ 90 := hr.right
    have hv : (c.toNat + 32).isValidChar := .inl (by omega)
    have ht : (gAsciiTolower c).toNat = c.toNat + 32 := by
      rw [gAsciiTolower, if_pos hc, Char.ofNat, dif_pos hv]
      rfl
    refine if_neg fun hup => ?_
    have hr' : 'A'.val ≤ (gAsciiTolower c).val ∧ (gAsciiTolower c).val ≤ 'Z'.val := of_decide_eq_true hup
    rw [UInt32.le_iff_toNat_le, UInt32.le_iff_toNat_le] at hr'
    have h₃ : (gAsciiTolower c).toNat ≤ 90 := hr'.right
    omega

theorem gAsciiStrdown_gAsciiStrdown (s : CString) : gAsciiStrdown (gAsciiStrdown s) = gAsciiStrdown s := by
  rw [gAsciiStrdown, gAsciiStrdown, List.map_map]
  exact List.map_congr_left fun c _ => gAsciiTolower_gAsciiTolower c

section Ends

variable {c : Char} {s r : CString} {p : Char → Bool}

theorem endsNumber_iff :
    endsNumber c ↔ c.isAlphanum = false ∧ c ≠ '.' ∧ c ≠ '+' ∧ c ≠ '-' ∧ c ≠ '_' ∧ c ≠ '(' := by
  simp [endsNumber]

example : strtodSpan " -1.5e3px".toList = 7 := by decide +kernel

theorem length_takeWhile_stop (hp : p c = false) :
    ((s ++ c :: r).takeWhile p).length = (s.takeWhile p).length := by
  induction s
  case nil => simp [hp]
  case cons d s ih =>
    simp only [List.cons_append, List.takeWhile_cons]
    split
    · rw [List.length_cons, List.length_cons, ih]
    · rfl

theorem drop_stop {n : Nat} (hn : n ≤ s.length) : (s ++ c :: r).drop n = s.drop n ++ c :: r :=
  List.drop_append_of_le_length hn

theorem drop_takeWhile_stop (hp : p c = false) :
    (s ++ c :: r).drop ((s ++ c :: r).takeWhile p).length = s.drop (s.takeWhile p).length ++ c :: r := by
  rw [length_takeWhile_stop hp, drop_stop (List.takeWhile_prefix p).length_le]

theorem hasCasePrefix_stop {q : CString} (hc : gAsciiTolower c ∉ gAsciiStrdown q) :
    hasCasePrefix (s ++ c :: r) q = hasCasePrefix s q := by
  by_cases hlen : q.length ≤ s.length
  case pos => rw [hasCasePrefix, List.take_append_of_le_length hlen, hasCasePrefix]
  case neg =>
    have hshort : hasCasePrefix s q = false := by
      rw [hasCasePrefix, beq_eq_false_iff_ne]
      intro he
      have := congrArg List.length he
      simp only [gAsciiStrdown, List.length_map, List.length_take] at this
      omega
    rw [hshort, hasCasePrefix, beq_eq_false_iff_ne]
    intro he
    refine hc (he ▸ List.mem_map_of_mem (f := gAsciiTolower) ?_)
    obtain ⟨k, hk⟩ : ∃ k, q.length = s.length + (k + 1) := ⟨q.length - s.length - 1, by omega⟩
    rw [hk, List.take_length_add_append, List.take_succ_cons]
    exact List.mem_append_right _ List.mem_cons_self

variable (hc : endsNumber c)
include hc

theorem isDigit_stop : c.isDigit = false :=
  (Bool.or_eq_false_iff.mp (endsNumber_iff.mp hc).left).right

theorem isAlpha_stop : c.isAlpha = false :=
  (Bool.or_eq_false_iff.mp (endsNumber_iff.mp hc).left).left

theorem gAsciiTolower_stop : gAsciiTolower c = c := by
  have hu : c.isUpper = false := (Bool.or_eq_false_iff.mp (isAlpha_stop hc)).left
  rw [gAsciiTolower, hu]
  rfl

theorem ne_of_isAlphanum {d : Char} (hd : d.isAlphanum) : c ≠ d := by
  rintro rfl
  rw [(endsNumber_iff.mp hc).left] at hd
  cases hd

theorem isHexDigit_stop : isHexDigit c = false := by
  have hn {d : Char} (hd : d.isAlphanum) : c ≠ d := ne_of_isAlphanum hc hd
  simp [isHexDigit, isDigit_stop hc, gAsciiTolower_stop hc, hn]

theorem nanChar_stop : nanChar c = false := by
  have he := endsNumber_iff.mp hc
  simp [nanChar, he.left, he.right.right.right.right.left]

theorem signSpan_stop : signSpan (s ++ c :: r) = signSpan s := by
  have he := endsNumber_iff.mp hc
  cases s
  case nil => simp [signSpan, he.right.right.left, he.right.right.right.left]
  case cons => rfl

theorem mantissaSpan_stop {digit : Char → Bool} (hd : digit c = false) :
    mantissaSpan digit (s ++ c :: r) = mantissaSpan digit s := by
  rw [mantissaSpan, mantissaSpan, drop_takeWhile_stop hd, length_takeWhile_stop hd]
  cases s.drop (s.takeWhile digit).length
  case nil => simp [(endsNumber_iff.mp hc).right.left]
  case cons d t => simp only [List.cons_append, length_takeWhile_stop hd]

omit hc in
theorem signSpan_le : signSpan s ≤ s.length := by
  cases s
  case nil  => exact le_rfl
  case cons =>
    rw [signSpan, List.length_cons]
    split <;> omega

omit hc in
theorem mantissaSpan_le (digit : Char → Bool) : mantissaSpan digit s ≤ s.length := by
  have hle := (List.takeWhile_prefix digit (l := s)).length_le
  rw [mantissaSpan]
  split
  case h_2 => exact hle
  case h_1 d t hd =>
    have hlen := congrArg List.length hd
    have hpart := (List.takeWhile_prefix digit (l := t)).length_le
    rw [List.length_drop, List.length_cons] at hlen
    dsimp only
    split <;> omega

theorem exponentSpan_stop {mark : Char} (hm : c ≠ mark) :
    exponentSpan mark (s ++ c :: r) = exponentSpan mark s := by
  cases s
  case nil => simp [exponentSpan, gAsciiTolower_stop hc, hm]
  case cons d t =>
    simp only [List.cons_append, exponentSpan, signSpan_stop hc, drop_stop signSpan_le,
      length_takeWhile_stop (isDigit_stop hc)]

theorem numeralSpan_stop {digit : Char → Bool} {mark : Char} (hd : digit c = false) (hm : c ≠ mark) :
    numeralSpan digit mark (s ++ c :: r) = numeralSpan digit mark s := by
  rw [numeralSpan, numeralSpan, mantissaSpan_stop hc hd, drop_stop (mantissaSpan_le digit),
    exponentSpan_stop hc hm]

theorem hasCasePrefix_word_stop {q : CString} (hq : ∀ d ∈ gAsciiStrdown q, d.isAlphanum) :
    hasCasePrefix (s ++ c :: r) q = hasCasePrefix s q := by
  refine hasCasePrefix_stop fun hm => ?_
  rw [gAsciiTolower_stop hc] at hm
  exact ne_of_isAlphanum hc (hq c hm) rfl

theorem payloadSpan_stop (hopen : c = ')' → ∀ name, '(' :: name <:+ s → ∃ d ∈ name, nanChar d = false) :
    payloadSpan (s ++ c :: r) = payloadSpan s := by
  cases s
  case nil => simp [payloadSpan, (endsNumber_iff.mp hc).right.right.right.right.right]
  case cons d t =>
    simp only [List.cons_append, payloadSpan, length_takeWhile_stop (nanChar_stop hc),
      drop_stop (List.takeWhile_prefix nanChar).length_le]
    cases hdrop : t.drop (t.takeWhile nanChar).length
    case cons => rfl
    case nil =>
      have hall : ∀ x ∈ t, nanChar x := by
        have hself : t.takeWhile nanChar = t := by
          refine (List.takeWhile_prefix nanChar).eq_of_length_le ?_
          exact List.drop_eq_nil_iff.mp hdrop
        exact List.takeWhile_eq_self_iff.mp hself
      have hne : ¬(d = '(' ∧ c = ')') := by
        rintro ⟨rfl, rfl⟩
        obtain ⟨x, hx, hnan⟩ := hopen rfl t List.suffix_rfl
        rw [hall x hx] at hnan
        cases hnan
      simp [hne]

variable (hopen : c = ')' → ∀ name, '(' :: name <:+ s → ∃ d ∈ name, nanChar d = false)

omit hc in
theorem length_le_of_hasCasePrefix {q : CString} (hq : hasCasePrefix s q) : q.length ≤ s.length := by
  have hlen := congrArg List.length (beq_iff_eq.mp hq)
  simp only [gAsciiStrdown, List.length_map, List.length_take] at hlen
  omega

theorem hexSpan_stop : hexSpan (s ++ c :: r) = hexSpan s := by
  have hx : hasCasePrefix (s ++ c :: r) "0x".toList = hasCasePrefix s "0x".toList :=
    hasCasePrefix_word_stop hc (by decide +kernel)
  rw [hexSpan, hexSpan, hx]
  split
  case isFalse => rfl
  case isTrue hp =>
    have hle : 2 ≤ s.length := length_le_of_hasCasePrefix hp
    rw [drop_stop hle, numeralSpan_stop hc (isHexDigit_stop hc) (ne_of_isAlphanum hc (by decide))]

include hopen

theorem unsignedSpan_stop : unsignedSpan (s ++ c :: r) = unsignedSpan s := by
  have hword {q : CString} (hq : ∀ d ∈ gAsciiStrdown q, d.isAlphanum) :
      hasCasePrefix (s ++ c :: r) q = hasCasePrefix s q :=
    hasCasePrefix_word_stop hc hq
  have hinfinity := hword (q := "infinity".toList) (by decide +kernel)
  have hinf := hword (q := "inf".toList) (by decide +kernel)
  have hnan := hword (q := "nan".toList) (by decide +kernel)
  have hnumeral : numeralSpan Char.isDigit 'e' (s ++ c :: r) = numeralSpan Char.isDigit 'e' s :=
    numeralSpan_stop hc (isDigit_stop hc) (ne_of_isAlphanum hc (by decide))
  simp only [unsignedSpan, hinfinity, hinf, hnan, hexSpan_stop hc, hnumeral]
  by_cases hp : hasCasePrefix s "nan".toList
  case neg => simp only [hp, Bool.false_eq_true, if_false]
  case pos =>
    have hle : 3 ≤ s.length := length_le_of_hasCasePrefix hp
    rw [drop_stop hle, payloadSpan_stop hc fun he name hsuf => hopen he name (hsuf.trans (List.drop_suffix 3 s))]

omit hc hopen in
theorem takeWhile_space_stop (hs : ∃ d ∈ s, strtollIsspace d = false) :
    (s ++ r).takeWhile strtollIsspace = s.takeWhile strtollIsspace := by
  rw [List.takeWhile_append, if_neg]
  intro hlen
  obtain ⟨d, hd, hspace⟩ := hs
  have hself := (List.takeWhile_prefix strtollIsspace (l := s)).eq_of_length hlen
  rw [List.takeWhile_eq_self_iff.mp hself d hd] at hspace
  cases hspace

-- What ends a number may be put behind any text that is not blank.
theorem strtodSpan_stop (hs : ∃ d ∈ s, strtollIsspace d = false) : strtodSpan (s ++ c :: r) = strtodSpan s := by
  have hblank : (s ++ c :: r).takeWhile strtollIsspace = s.takeWhile strtollIsspace :=
    takeWhile_space_stop hs
  have hsign : signSpan (s.drop (s.takeWhile strtollIsspace).length) ≤
      (s.drop (s.takeWhile strtollIsspace).length).length :=
    signSpan_le
  have hopen' : c = ')' →
      ∀ name, '(' :: name <:+ (s.drop (s.takeWhile strtollIsspace).length).drop
        (signSpan (s.drop (s.takeWhile strtollIsspace).length)) → ∃ d ∈ name, nanChar d = false :=
    fun he name hsuf => hopen he name (hsuf.trans ((List.drop_suffix ..).trans (List.drop_suffix ..)))
  simp only [strtodSpan, hblank, drop_stop (List.takeWhile_prefix strtollIsspace (l := s)).length_le,
    signSpan_stop hc, drop_stop hsign, unsignedSpan_stop hc hopen']

omit hopen in
theorem payloadSpan_stop_append : payloadSpan (s ++ c :: r) = payloadSpan (s ++ [c]) := by
  cases s
  case nil => simp [payloadSpan, (endsNumber_iff.mp hc).right.right.right.right.right]
  case cons d t =>
    simp only [List.cons_append, payloadSpan, length_takeWhile_stop (nanChar_stop hc),
      drop_stop (List.takeWhile_prefix nanChar).length_le]
    cases t.drop (t.takeWhile nanChar).length <;> rfl

omit hopen in
theorem unsignedSpan_stop_append : unsignedSpan (s ++ c :: r) = unsignedSpan (s ++ [c]) := by
  have hword {q r : CString} (hq : ∀ d ∈ gAsciiStrdown q, d.isAlphanum) :
      hasCasePrefix (s ++ c :: r) q = hasCasePrefix s q :=
    hasCasePrefix_word_stop hc hq
  have hnumeral {r : CString} : numeralSpan Char.isDigit 'e' (s ++ c :: r) = numeralSpan Char.isDigit 'e' s :=
    numeralSpan_stop hc (isDigit_stop hc) (ne_of_isAlphanum hc (by decide))
  have hinfinity {r : CString} := hword (q := "infinity".toList) (r := r) (by decide +kernel)
  have hinf {r : CString} := hword (q := "inf".toList) (r := r) (by decide +kernel)
  have hnan {r : CString} := hword (q := "nan".toList) (r := r) (by decide +kernel)
  simp only [unsignedSpan, hinfinity, hinf, hnan, hexSpan_stop hc, hnumeral]
  by_cases hp : hasCasePrefix s "nan".toList
  case neg => simp only [hp, Bool.false_eq_true, if_false]
  case pos =>
    have hle : 3 ≤ s.length := length_le_of_hasCasePrefix hp
    rw [drop_stop hle, drop_stop hle, payloadSpan_stop_append hc]

omit hopen in
-- Not even the payload of a `nan` goes on behind such a character.
theorem strtodSpan_stop_append (hs : ∃ d ∈ s, strtollIsspace d = false) :
    strtodSpan (s ++ c :: r) = strtodSpan (s ++ [c]) := by
  have hblank {r : CString} : (s ++ c :: r).takeWhile strtollIsspace = s.takeWhile strtollIsspace :=
    takeWhile_space_stop hs
  have hsign : signSpan (s.drop (s.takeWhile strtollIsspace).length) ≤
      (s.drop (s.takeWhile strtollIsspace).length).length :=
    signSpan_le
  simp only [strtodSpan, hblank, drop_stop (List.takeWhile_prefix strtollIsspace (l := s)).length_le,
    signSpan_stop hc, drop_stop hsign, unsignedSpan_stop_append hc]

end Ends

section Bounds

variable {s : CString}

theorem exponentSpan_le (mark : Char) : exponentSpan mark s ≤ s.length := by
  cases s
  case nil => exact le_rfl
  case cons c t =>
    have hsign := signSpan_le (s := t)
    have hdigits := (List.takeWhile_prefix Char.isDigit (l := t.drop (signSpan t))).length_le
    rw [List.length_drop] at hdigits
    rw [exponentSpan, List.length_cons]
    split <;> omega

theorem numeralSpan_le {digit : Char → Bool} {mark : Char} : numeralSpan digit mark s ≤ s.length := by
  have hmantissa := mantissaSpan_le (s := s) digit
  have hexponent := exponentSpan_le (s := s.drop (mantissaSpan digit s)) mark
  rw [List.length_drop] at hexponent
  rw [numeralSpan]
  split <;> omega

theorem payloadSpan_le : payloadSpan s ≤ s.length := by
  cases s
  case nil => exact le_rfl
  case cons c t =>
    rw [payloadSpan, List.length_cons]
    split
    case isFalse  => omega
    case isTrue h =>
      have hlt : (t.takeWhile nanChar).length < t.length := by
        by_contra hge
        rw [List.drop_eq_nil_of_le (not_lt.mp hge)] at h
        cases h.right
      omega

theorem hexSpan_le : hexSpan s ≤ s.length - 2 := by
  rw [hexSpan]
  split
  · exact numeralSpan_le.trans (List.length_drop ..).le
  · omega

theorem unsignedSpan_le : unsignedSpan s ≤ s.length := by
  rw [unsignedSpan]
  split
  case isTrue h => exact length_le_of_hasCasePrefix h
  case isFalse =>
    split
    case isTrue h => exact length_le_of_hasCasePrefix h
    case isFalse =>
      split
      case isTrue h =>
        have hle : 3 ≤ s.length := length_le_of_hasCasePrefix h
        have hpayload := payloadSpan_le (s := s.drop 3)
        rw [List.length_drop] at hpayload
        omega
      case isFalse =>
        split
        case isTrue h =>
          have hhex := hexSpan_le (s := s)
          omega
        case isFalse => exact numeralSpan_le

theorem strtodSpan_le : strtodSpan s ≤ s.length := by
  have hblank := (List.takeWhile_prefix strtollIsspace (l := s)).length_le
  have hsign := signSpan_le (s := s.drop (s.takeWhile strtollIsspace).length)
  have hdigits := unsignedSpan_le (s := (s.drop (s.takeWhile strtollIsspace).length).drop
    (signSpan (s.drop (s.takeWhile strtollIsspace).length)))
  rw [List.length_drop] at hsign
  rw [List.length_drop, List.length_drop] at hdigits
  rw [strtodSpan]
  split <;> omega

end Bounds

end Nordstjernen.Glib
