import Nordstjernen.Layout.GridLines

open Nordstjernen.Glib

namespace Nordstjernen.Layout.Grid

-- The equations of what is matched on most are derived here, once for all the proofs below.
section
attribute [local simp] GridLines.foundLine GridLines.gridLineNum Side.text Declared.add
  GridLines.gridPosSpan Side.span?
end

section Chars

variable {c : Char} {s t : CString} {n k : Nat}

theorem isIdentChar_of_isDigit (h : c.isDigit) : isIdentChar c := by
  simp [isIdentChar, Char.isAlphanum, h]

theorem not_strtollIsspace_of_isIdentChar (h : isIdentChar c) : strtollIsspace c = false := by
  by_contra hs
  rw [Bool.not_eq_false] at hs
  simp only [strtollIsspace, gAsciiIsspace, Bool.or_eq_true, beq_iff_eq] at hs
  obtain ((((rfl | rfl) | rfl) | rfl) | rfl) | rfl := hs <;> exact absurd h (by decide)

theorem not_gAsciiIsspace_of_isIdentChar (h : isIdentChar c) : gAsciiIsspace c = false :=
  (Bool.or_eq_false_iff.mp (not_strtollIsspace_of_isIdentChar h)).left

theorem isIdentChar_of_mem_toDigits (h : c ∈ Nat.toDigits 10 n) : isIdentChar c :=
  isIdentChar_of_isDigit (Nat.isDigit_of_mem_toDigits (by omega) (by omega) h)

theorem isIdentChar_of_mem_formatInt64 {n : Int} (h : c ∈ formatInt64 n) : isIdentChar c := by
  rw [formatInt64] at h
  split at h
  case isFalse => exact isIdentChar_of_mem_toDigits h
  case isTrue  =>
    cases List.mem_cons.mp h
    case inl h => exact h ▸ by decide
    case inr h => exact isIdentChar_of_mem_toDigits h

-- What a word can be followed by.
def Ends (t : CString) : Prop :=
  ∀ c ∈ t.head?, isIdentChar c = false

theorem ends_nil : Ends [] :=
  fun _ h => nomatch h

theorem ends_replicate : Ends (List.replicate k ' ') := by
  cases k
  case zero   => exact ends_nil
  case succ k => exact fun c h => Option.some.inj h ▸ rfl

theorem ends_slash : Ends (List.replicate k ' ' ++ '/' :: s) := by
  cases k
  case zero   => exact fun c h => Option.some.inj h ▸ rfl
  case succ k => exact fun c h => Option.some.inj h ▸ rfl

theorem Ends.takeWhile_append (ht : Ends t) (hs : ∀ c ∈ s, isIdentChar c) :
    (s ++ t).takeWhile isIdentChar = s := by
  rw [List.takeWhile_append_of_pos hs]
  cases t
  case nil       => simp
  case cons c cs => rw [List.takeWhile_cons_of_neg (by simp [ht c rfl]), List.append_nil]

theorem Ends.takeWhile_isDigit (ht : Ends t) : t.takeWhile Char.isDigit = [] := by
  cases t
  case nil       => rfl
  case cons c cs =>
    refine List.takeWhile_cons_of_neg fun h => ?_
    cases (isIdentChar_of_isDigit h).symm.trans (ht c rfl)

theorem Ends.takeWhile_isDigit_append (ht : Ends t) (hs : ∀ c ∈ s, c.isDigit) :
    (s ++ t).takeWhile Char.isDigit = s := by
  rw [List.takeWhile_append_of_pos hs, ht.takeWhile_isDigit, List.append_nil]

theorem Ends.dropWhile_isDigit_append (ht : Ends t) (hs : ∀ c ∈ s, c.isDigit) :
    (s ++ t).dropWhile Char.isDigit = t := by
  have h := List.takeWhile_append_dropWhile (p := Char.isDigit) (l := s ++ t)
  rw [ht.takeWhile_isDigit_append hs] at h
  exact List.append_cancel_left h

theorem isDigit_of_mem_toDigits (h : c ∈ Nat.toDigits 10 n) : c.isDigit :=
  Nat.isDigit_of_mem_toDigits (by omega) (by omega) h

theorem Ends.gAsciiStrtoll?_formatInt64 {n : Int} (ht : Ends t) :
    gAsciiStrtoll? (formatInt64 n ++ t) = some (clampInt64 n) :=
  gAsciiStrtoll?_append ht.takeWhile_isDigit n

-- A number is `-` and digits, or digits.
theorem Ends.strtolEnd_formatInt64 {n : Int} (ht : Ends t) :
    GridLines.strtolEnd (formatInt64 n ++ t) = t := by
  rw [formatInt64]
  split
  case isTrue hn =>
    have hw : ¬strtollIsspace '-' := by decide
    rw [List.cons_append, GridLines.strtolEnd, List.dropWhile_cons_of_neg hw]
    exact ht.dropWhile_isDigit_append fun _ => isDigit_of_mem_toDigits
  case isFalse hn =>
    obtain ⟨c, cs, hc, hd⟩ := exists_digit_cons_toDigits n.natAbs
    have hw : ¬strtollIsspace c := by rw [not_strtollIsspace_of_isDigit hd]; decide
    have hs := ht.dropWhile_isDigit_append fun _ => isDigit_of_mem_toDigits (n := n.natAbs)
    rw [hc, List.cons_append] at hs ⊢
    rw [GridLines.strtolEnd, List.dropWhile_cons_of_neg hw]
    split
    case h_1 heq => exact absurd hd ((List.cons.inj heq).left ▸ by decide)
    case h_2 heq => exact absurd hd ((List.cons.inj heq).left ▸ by decide)
    case h_3     => exact hs

end Chars

section Words

variable {s t : CString} {k : Nat} {c : Char}

theorem strtollDigits_eq_none {cs : CString} (h : c.isDigit = false) : strtollDigits (c :: cs) = none := by
  rw [strtollDigits, List.takeWhile_cons_of_neg (by simp [h])]

theorem Ends.gAsciiStrtoll?_eq_none (ht : Ends t) (chars : ∀ c ∈ s, isIdentChar c)
    (head : ∃ c cs, s = c :: cs ∧ c.isDigit = false)
    (no_number : ∀ c cs, s = '-' :: c :: cs → c.isDigit = false) : gAsciiStrtoll? (s ++ t) = none := by
  obtain ⟨c, cs, rfl, hd⟩ := head
  have hi := chars c List.mem_cons_self
  have hw : ¬strtollIsspace c := by rw [not_strtollIsspace_of_isIdentChar hi]; decide
  rw [List.cons_append, gAsciiStrtoll?, List.dropWhile_cons_of_neg hw]
  split
  case h_1 tl heq =>
    obtain ⟨rfl, rfl⟩ := List.cons.inj heq
    cases cs
    case nil =>
      rw [List.nil_append, strtollDigits, ht.takeWhile_isDigit]
      rfl
    case cons d ds => rw [List.cons_append, strtollDigits_eq_none (no_number d ds rfl), Option.map_none]
  case h_2 heq =>
    cases (List.cons.inj heq).left
    exact absurd hi (by decide)
  case h_3     => rw [strtollDigits_eq_none hd, Option.map_none]

theorem rdropWhile_append_replicate {p : Char → Bool} (hp : p ' ')
    (h : ∃ cs c, s = cs ++ [c] ∧ isIdentChar c) (hi : ∀ c, isIdentChar c → p c = false) :
    (s ++ List.replicate k ' ').rdropWhile p = s := by
  induction k
  case zero =>
    obtain ⟨cs, c, rfl, hc⟩ := h
    rw [List.replicate_zero, List.append_nil, List.rdropWhile_concat_neg _ _ _ (by simp [hi c hc])]
  case succ k hk =>
    rw [List.replicate_succ', ← List.append_assoc, List.rdropWhile_concat_pos _ _ _ hp, hk]

theorem dropWhile_replicate_append {p : Char → Bool} (hp : p ' ')
    (h : ∃ c cs, s = c :: cs ∧ isIdentChar c) (hi : ∀ c, isIdentChar c → p c = false) :
    (List.replicate k ' ' ++ (s ++ t)).dropWhile p = s ++ t := by
  obtain ⟨c, cs, rfl, hc⟩ := h
  rw [List.dropWhile_append_of_pos fun c h => List.eq_of_mem_replicate h ▸ hp, List.cons_append,
    List.dropWhile_cons_of_neg (by simp [hi c hc])]

end Words

namespace Side

variable {t : CString} {k m : Nat}

-- All sides are words but spans.
def IsWord : Side → Prop
  | span _ _ => False
  | _        => True

theorem IsWord.chars {a : Side} (h : a.IsWord) : ∀ c ∈ a.text, isIdentChar c := by
  intro c hc
  cases a
  case auto     => revert c; simp [text, isIdentChar]
  case line n _ => exact isIdentChar_of_mem_formatInt64 hc
  case span     => exact h.elim
  case name i   => exact i.chars c hc

theorem IsWord.ne_span {a : Side} (h : a.IsWord) : a.text ≠ "span".toList := by
  cases a
  case auto     => decide
  case line n _ =>
    intro he
    have hs := ends_nil.gAsciiStrtoll?_formatInt64 (n := n)
    rw [List.append_nil, show formatInt64 n = "span".toList from he] at hs
    cases hs
  case span     => exact h.elim
  case name i   => exact i.ne_span

theorem IsWord.spanOf {a : Side} (h : a.IsWord) (ht : Ends t) : GridLines.spanOf (a.text ++ t) = none := by
  refine if_neg fun hp => h.ne_span ?_
  obtain ⟨r, hr⟩ := List.isPrefixOf_iff_prefix.mp hp
  rw [← ht.takeWhile_append h.chars, ← hr]
  rfl

theorem eq_span_of_not_isWord {a : Side} (h : ¬a.IsWord) : ∃ k hk, a = span k hk := by
  cases a
  case span k hk => exact ⟨k, hk, rfl⟩
  all_goals exact absurd trivial h

theorem exists_head (a : Side) : ∃ c cs, a.text = c :: cs ∧ isIdentChar c := by
  by_cases h : a.IsWord
  case neg =>
    obtain ⟨k, hk, rfl⟩ := eq_span_of_not_isWord h
    exact ⟨'s', _, rfl, by decide⟩
  case pos =>
    have hne : a.text ≠ [] := by
      cases a
      case auto     => exact List.cons_ne_nil _ _
      case span     => exact h.elim
      case line n _ =>
        intro he
        have hs := ends_nil.gAsciiStrtoll?_formatInt64 (n := n)
        rw [List.append_nil, show formatInt64 n = [] from he] at hs
        cases hs
      case name i   =>
        obtain ⟨c, cs, hc, -⟩ := i.head
        exact fun he => List.cons_ne_nil c cs (hc.symm.trans he)
    obtain ⟨c, cs, hc⟩ := List.exists_cons_of_ne_nil hne
    exact ⟨c, cs, hc, h.chars c (hc ▸ List.mem_cons_self)⟩

theorem exists_last (a : Side) : ∃ cs c, a.text = cs ++ [c] ∧ isIdentChar c := by
  obtain ⟨c, cs, hc, -⟩ := a.exists_head
  have hne : a.text ≠ [] := hc ▸ List.cons_ne_nil c cs
  refine ⟨_, _, (List.dropLast_append_getLast hne).symm, ?_⟩
  by_cases h : a.IsWord
  case pos => exact h.chars _ (List.getLast_mem hne)
  case neg =>
    obtain ⟨k, hk, rfl⟩ := eq_span_of_not_isWord h
    have hd : (span k hk).text.getLast hne = (Nat.toDigits 10 k).getLast Nat.toDigits_ne_nil :=
      List.getLast_append_of_ne_nil _ Nat.toDigits_ne_nil
    exact hd ▸ isIdentChar_of_mem_toDigits (List.getLast_mem _)

theorem slash_notMem (a : Side) : '/' ∉ a.text := by
  intro h
  by_cases hw : a.IsWord
  case pos => exact absurd (hw.chars _ h) (by decide)
  case neg =>
    obtain ⟨k, hk, rfl⟩ := eq_span_of_not_isWord hw
    cases List.mem_append.mp h
    case inl h => exact absurd h (by decide)
    case inr h => exact absurd (isIdentChar_of_mem_toDigits h) (by decide)

theorem gStrstrip_text (a : Side) : gStrstrip (List.replicate k ' ' ++ (a.text ++ List.replicate m ' ')) = a.text := by
  rw [gStrstrip, dropWhile_replicate_append rfl a.exists_head fun _ => not_gAsciiIsspace_of_isIdentChar]
  exact rdropWhile_append_replicate rfl a.exists_last fun _ => not_gAsciiIsspace_of_isIdentChar

theorem spanOf_span (hk : 0 < k) (ht : Ends t) : GridLines.spanOf ((span k hk).text ++ t) = some (min k tracksMax) := by
  have hp : gStrHasPrefix ((span k hk).text ++ t) "span ".toList := by
    rw [text, List.append_assoc]
    exact List.isPrefixOf_iff_prefix.mpr (List.prefix_append _ _)
  have hd : ((span k hk).text ++ t).drop 5 = Nat.toDigits 10 k ++ t := by
    rw [text, List.append_assoc]
    exact List.drop_left' rfl
  have hs : (Nat.toDigits 10 k ++ t).dropWhile (fun c => decide (c = ' ' ∨ c = '\t')) = Nat.toDigits 10 k ++ t := by
    obtain ⟨c, cs, hc, hd⟩ := exists_digit_cons_toDigits k
    rw [hc, List.cons_append]
    refine List.dropWhile_cons_of_neg fun h => ?_
    obtain rfl | rfl := of_decide_eq_true h <;> exact absurd hd (by decide)
  have hn := ht.gAsciiStrtoll?_formatInt64 (n := k)
  rw [formatInt64, if_neg (by omega), Int.natAbs_natCast] at hn
  rw [GridLines.spanOf, if_pos hp, hd, nsParseInt, hs, hn]
  have hmin : int64Min ≤ min (k : Int) int64Max := by
    simp only [int64Min, int64Max]
    omega
  have hc : clampInt64 k = min (k : Int) int64Max := by rw [clampInt64, Int.max_eq_right hmin]
  simp only [hc, int64Max, tracksMax, Option.some.injEq]
  omega

-- A number does not end in the last letter of `-start` or `-end`.
theorem areaName_span (hk : 0 < k) : GridLines.areaName (span k hk).text = none := by
  have hlast (p : CString) (c : Char) (hc : c.isDigit = false) (n : Nat)
      (h : (span k hk).text.drop n = p ++ [c]) : False := by
    have hd := List.dropLast_append_getLast (Nat.toDigits_ne_nil (n := k) (b := 10))
    have ht : "span ".toList ++ (Nat.toDigits 10 k).dropLast ++ [(Nat.toDigits 10 k).getLast Nat.toDigits_ne_nil] =
        (span k hk).text.take n ++ p ++ [c] := by
      rw [List.append_assoc, hd, List.append_assoc, ← h, List.take_append_drop]
      rfl
    have he := List.head_eq_of_cons_eq (List.append_inj' ht rfl).right
    rw [← he, isDigit_of_mem_toDigits (List.getLast_mem _)] at hc
    cases hc
  rw [GridLines.areaName, if_neg fun h => hlast "-star".toList 't' rfl _ h.right,
    if_neg fun h => hlast "-en".toList 'd' rfl _ h.right]

end Side

namespace GridLines

variable (gl : GridLines) (nTracks : Nat) {a : Side} {k after : Nat}

theorem gridNamedLine_of_space {s : CString} (h : ' ' ∈ s) (hs : areaName s = none) :
    gl.gridNamedLine s after = 0 := by
  have hn : gl.names.find? (fun ln => after < ln.line ∧ ln.name = s) = none := by
    refine List.find?_eq_none.mpr fun ln _ hln => ln.word ?_
    exact (of_decide_eq_true hln).right ▸ h
  have ha : gl.areasLine s after = none := by
    rw [areasLine, hs]
    rfl
  rw [gridNamedLine, hn, ha]
  split <;> rfl

-- Numbers that `strtol` cuts off are lines of no grid.
theorem foundLine_line {n : Int} (hn : n ≠ 0) (ht : nTracks ≤ 2147483647) :
    gl.foundLine nTracks after (.line n hn) =
      if clampInt64 n = 0 then 0
      else if lineIndex nTracks (clampInt64 n) < 1 ∨ tracksMax + 1 < lineIndex nTracks (clampInt64 n) then 0
      else (lineIndex nTracks (clampInt64 n)).toNat := by
  have hc : InInt64 n ∧ clampInt64 n = n ∨ n < int64Min ∧ clampInt64 n = int64Min ∨
      int64Max < n ∧ clampInt64 n = int64Max := by
    simp only [InInt64, clampInt64, int64Min, int64Max]
    omega
  simp only [int64Min, int64Max] at hc
  rw [foundLine]
  obtain ⟨-, hc⟩ | ⟨hlt, hc⟩ | ⟨hlt, hc⟩ := hc <;> rw [hc] <;> simp only [lineIndex, tracksMax]
  case inl => split_ifs <;> omega
  case inr.inl => split_ifs <;> omega
  case inr.inr => split_ifs <;> omega

variable (after) in
theorem gridResolveLineFrom_text (ht : nTracks ≤ 2147483647) : gl.gridResolveLineFrom nTracks (a.text ++ List.replicate k ' ') after =
    gl.foundLine nTracks after a := by
  have hd := dropWhile_replicate_append (p := fun c => decide (c = ' ')) (k := 0) (t := List.replicate k ' ') rfl
    a.exists_head fun c hc => decide_eq_false fun he => absurd hc (he ▸ by decide)
  have hr := rdropWhile_append_replicate (p := fun c => decide (c = ' ')) (k := k) rfl a.exists_last
    fun c hc => decide_eq_false fun he => absurd hc (he ▸ by decide)
  have hs : (List.replicate k ' ').dropWhile (fun c => decide (c = ' ')) = [] :=
    List.dropWhile_eq_nil_iff.mpr fun c hc => decide_eq_true (List.eq_of_mem_replicate hc)
  rw [List.replicate_zero, List.nil_append] at hd
  have hnone (h : gAsciiStrtoll? (a.text ++ List.replicate k ' ') = none) :
      gl.gridResolveLineFrom nTracks (a.text ++ List.replicate k ' ') after = gl.gridNamedLine a.text after := by
    simp only [gridResolveLineFrom, hd, h, hr]
  cases a
  case auto =>
    exact hnone (ends_replicate.gAsciiStrtoll?_eq_none (Side.IsWord.chars (a := .auto) trivial)
      ⟨_, _, rfl, rfl⟩ fun c cs h => absurd (List.cons.inj h).left (by decide))
  case name i =>
    exact hnone (ends_replicate.gAsciiStrtoll?_eq_none i.chars i.head i.no_number)
  case span n hn =>
    refine (hnone ?_).trans ?_
    · rw [Side.text, List.append_assoc]
      exact Ends.gAsciiStrtoll?_eq_none (s := "span".toList) (t := ' ' :: (Nat.toDigits 10 n ++ List.replicate k ' '))
        (fun c h => Option.some.inj h ▸ rfl) (List.all_eq_true.mp rfl) ⟨_, _, rfl, rfl⟩
        fun c cs h => absurd (List.cons.inj h).left (by decide)
    · exact gl.gridNamedLine_of_space (by simp [Side.text]) (Side.areaName_span hn)
  case line n hn =>
    simp only [gridResolveLineFrom, hd]
    simp only [Side.text, ends_replicate.gAsciiStrtoll?_formatInt64, ends_replicate.strtolEnd_formatInt64, hs]
    rw [gl.foundLine_line nTracks hn ht]
    simp only [ne_eq, not_true_eq_false, false_or, lineIndex]
    congr

@[simp]
theorem spanTo_zero {e : Nat} : spanTo 0 e = none :=
  if_neg fun h => lt_irrefl 0 h.left

@[simp]
theorem spanTo_zero_right {n : Nat} : spanTo n 0 = none :=
  if_neg fun h => Nat.not_lt_zero n h.right

@[simp]
theorem startOf_zero : startOf 0 = none :=
  rfl

variable {t : CString} {b : Option Slashed} {d : Declared}

theorem spanOf_text (ht : Ends t) : spanOf (a.text ++ t) = a.span? := by
  by_cases h : a.IsWord
  case pos => rw [h.spanOf ht, Side.span?.eq_def]; cases a <;> first | rfl | exact h.elim
  case neg =>
    obtain ⟨k, hk, rfl⟩ := Side.eq_span_of_not_isWord h
    exact Side.spanOf_span hk ht

theorem spanOf_text' : spanOf a.text = a.span? := by
  have h := spanOf_text (a := a) ends_nil
  rwa [List.append_nil] at h

variable (after) in
theorem foundLine_of_span? (h : a.span?.isSome) : gl.foundLine nTracks after a = 0 := by
  cases a <;> first | rfl | cases h

variable (ht : nTracks ≤ 2147483647)

include ht

theorem gridResolveLineFrom_text' : gl.gridResolveLineFrom nTracks a.text after = gl.foundLine nTracks after a := by
  have h := gl.gridResolveLineFrom_text nTracks (a := a) (k := 0) after ht
  rwa [List.replicate_zero, List.append_nil] at h

theorem gridLineNum_text : gl.gridLineNum nTracks (some a.text) after = gl.foundLine nTracks after a := by
  rw [gridLineNum, spanOf_text']
  split
  case isTrue h  => exact (gl.foundLine_of_span? nTracks after h).symm
  case isFalse h => exact gl.gridResolveLineFrom_text' nTracks ht

theorem gridPosSpan_shorthand {r : Route} (hr : r = { start := a, stop := b.map Slashed.side }) :
    gl.gridPosSpan nTracks (some (a.text ++ (b.map Slashed.text).getD [])) =
      (startOf (gl.routeLine nTracks r), (r.start.span?.or ((r.stop.bind Side.span?).or (r.stop.bind fun e =>
        spanTo (gl.routeLine nTracks r) (gl.foundLine nTracks (gl.routeLine nTracks r) e)))).getD 1) := by
  subst hr
  have hends : Ends ((b.map Slashed.text).getD []) := by
    cases b
    case none   => exact ends_nil
    case some s => exact ends_slash
  rw [gridPosSpan, spanOf_text hends, routeLine]
  cases hs : a.span?
  case some k =>
    rw [gl.foundLine_of_span? nTracks 0 (hs ▸ rfl)]
    rfl
  case none =>
    cases b
    case none =>
      simp only [Option.map_none, Option.getD_none, List.append_nil, a.slash_notMem, if_false, gridResolveLineNumber,
        gl.gridResolveLineFrom_text' nTracks ht]
      rfl
    case some s =>
      have hne : ∀ c ∈ a.text ++ List.replicate s.before ' ', decide (c ≠ '/') = true := by
        intro c hc
        refine decide_eq_true fun he => ?_
        cases List.mem_append.mp hc
        case inl h => exact a.slash_notMem (he ▸ h)
        case inr h => exact absurd (List.eq_of_mem_replicate h) (he ▸ by decide)
      have hst : a.text ++ s.text = (a.text ++ List.replicate s.before ' ') ++
          '/' :: (List.replicate s.after ' ' ++ s.side.text) := by
        rw [Slashed.text, List.append_assoc]
      have htake : (a.text ++ s.text).takeWhile (· ≠ '/') = a.text ++ List.replicate s.before ' ' := by
        rw [hst, List.takeWhile_append_of_pos hne, List.takeWhile_cons_of_neg (by decide), List.append_nil]
      have hdrop : (a.text ++ s.text).dropWhile (· ≠ '/') = '/' :: (List.replicate s.after ' ' ++ s.side.text) := by
        rw [hst, List.dropWhile_append_of_pos hne, List.dropWhile_cons_of_neg (by decide)]
      have hb : (List.replicate s.after ' ' ++ s.side.text).dropWhile (· = ' ') = s.side.text := by
        have h := dropWhile_replicate_append (p := fun c => decide (c = ' ')) (k := s.after) (t := []) rfl
          s.side.exists_head fun c hc => decide_eq_false fun he => absurd hc (he ▸ by decide)
        rwa [List.append_nil] at h
      have hslash : '/' ∈ a.text ++ s.text := by simp [Slashed.text]
      simp only [Option.map_some, Option.getD_some, hslash, if_true, htake, hdrop, List.tail_cons, hb, spanOf_text',
        gridResolveLineNumber, gl.gridResolveLineFrom_text nTracks _ ht, gl.gridResolveLineFrom_text' nTracks ht,
        Option.bind_some]
      rfl

-- The parts of an area are its sides.
omit ht in
theorem map_gStrstrip_area {more : List Slashed} (k : Nat) :
    ((List.replicate k ' ' ++ (a.text ++ more.flatMap Slashed.text)).splitOn '/').map gStrstrip =
      a.text :: more.map fun s => s.side.text := by
  have hno {a : Side} {k m : Nat} : '/' ∉ List.replicate k ' ' ++ (a.text ++ List.replicate m ' ') := by
    intro h
    obtain h | h | h := List.mem_append.mp h |>.imp id List.mem_append.mp
    · exact absurd (List.eq_of_mem_replicate h) (by decide)
    · exact a.slash_notMem h
    · exact absurd (List.eq_of_mem_replicate h) (by decide)
  induction more generalizing a k
  case nil =>
    have h := a.gStrstrip_text (k := k) (m := 0)
    have hn := hno (a := a) (k := k) (m := 0)
    rw [List.replicate_zero] at h hn
    rw [List.flatMap_nil, List.splitOn_eq_singleton hn, List.map_cons, h]
    rfl
  case cons s more hi =>
    have h : List.replicate k ' ' ++ (a.text ++ (s :: more).flatMap Slashed.text) =
        (List.replicate k ' ' ++ (a.text ++ List.replicate s.before ' ')) ++
          '/' :: (List.replicate s.after ' ' ++ (s.side.text ++ more.flatMap Slashed.text)) := by
      simp [Slashed.text]
    rw [h, List.splitOn_append_cons_self_of_not_mem hno, List.map_cons, a.gStrstrip_text, hi]
    rfl

omit ht in
theorem parts_area {more : List Slashed} : (gStrsplitAll (a.text ++ more.flatMap Slashed.text) '/').map gStrstrip =
    a.text :: more.map fun s => s.side.text := by
  obtain ⟨c, cs, hc, -⟩ := a.exists_head
  rw [gStrsplitAll, if_neg (by simp [hc])]
  exact map_gStrstrip_area 0

omit ht in
theorem gAsciiStrtoll?_text : gAsciiStrtoll? a.text = none ↔ a.repeated = some a := by
  have h (hn : gAsciiStrtoll? (a.text ++ []) = none) (hr : a.repeated = some a) :
      gAsciiStrtoll? a.text = none ↔ a.repeated = some a :=
    iff_of_true (a.text.append_nil ▸ hn) hr
  cases a
  case auto =>
    exact h (ends_nil.gAsciiStrtoll?_eq_none (Side.IsWord.chars (a := .auto) trivial)
      ⟨_, _, rfl, rfl⟩ fun c cs h => absurd (List.cons.inj h).left (by decide)) rfl
  case name i => exact h (ends_nil.gAsciiStrtoll?_eq_none i.chars i.head i.no_number) rfl
  case span k hk =>
    refine h ?_ rfl
    rw [List.append_nil]
    exact Ends.gAsciiStrtoll?_eq_none (s := "span".toList) (t := ' ' :: Nat.toDigits 10 k)
      (fun c h => Option.some.inj h ▸ rfl) (List.all_eq_true.mp rfl) ⟨_, _, rfl, rfl⟩
      fun c cs h => absurd (List.cons.inj h).left (by decide)
  case line n hn =>
    have hs := ends_nil.gAsciiStrtoll?_formatInt64 (n := n)
    rw [List.append_nil] at hs
    exact iff_of_false (fun h => nomatch h.symm.trans hs) nofun

-- What the areas' way finds from some span on.
theorem gridAreaAxisPos_area {span : Nat} : gl.gridAreaAxisPos nTracks d.areaText span =
    match d.areaRoute gl.rowAxis with
    | none   => (none, span)
    | some r => (startOf (gl.routeLine nTracks r), ((r.stop.bind Side.span?).or (r.stop.bind fun e =>
        spanTo (gl.routeLine nTracks r) (gl.foundLine nTracks (gl.routeLine nTracks r) e))).getD
          (if 0 < gl.routeLine nTracks r then 1 else r.start.span?.getD span)) := by
  rw [gridAreaAxisPos, Declared.areaText, Declared.areaRoute]
  cases d.area
  case none =>
    cases gl.rowAxis <;> rfl
  case some x =>
    obtain ⟨a, more⟩ := x
    have hparts : (gStrsplitAll ((Option.map (fun x : Side × List Slashed => x.1.text ++ x.2.flatMap Slashed.text)
        (some (a, more))).getD []) '/').map gStrstrip = a.text :: more.map fun s => s.side.text :=
      parts_area
    have hstart : (a.text :: more.map fun s => s.side.text)[if gl.rowAxis then 0 else 1]? =
        (if gl.rowAxis then some a else more[0]?.map Slashed.side).map Side.text := by
      cases gl.rowAxis
      case false => simp only [Bool.false_eq_true, if_false, List.getElem?_cons_succ, List.getElem?_map, Option.map_map]; rfl
      case true  => rfl
    have hstop : (a.text :: more.map fun s => s.side.text)[if gl.rowAxis then 2 else 3]? =
        more[if gl.rowAxis then 1 else 2]?.map fun s => s.side.text := by
      cases gl.rowAxis <;> simp
    simp only [hparts, hstart, hstop, Option.bind_some]
    cases if gl.rowAxis then some a else more[0]?.map Slashed.side
    case none   => rfl
    case some s =>
      have hn : gl.gridResolveLineNumber nTracks s.text = gl.foundLine nTracks 0 s :=
        gl.gridResolveLineFrom_text' nTracks ht
      simp only [Option.map_some, hn, spanOf_text']
      cases more[if gl.rowAxis then 1 else 2]?
      case some e =>
        simp only [Option.map_some, Option.some_or, Option.bind_some, spanOf_text', gl.gridResolveLineFrom_text' nTracks ht]
        rfl
      case none   =>
        by_cases hs : gAsciiStrtoll? s.text = none
        case pos =>
          simp only [Option.map_none, Option.none_or, hs, if_true, gAsciiStrtoll?_text.mp hs, Option.bind_some,
            gl.gridResolveLineFrom_text' nTracks ht, routeLine]
          cases hk : s.span?
          case none   => rfl
          case some k =>
            have h₀ := gl.foundLine_of_span? nTracks 0 (hk ▸ rfl : s.span?.isSome)
            simp only [h₀, spanTo_zero]
            rfl
        case neg =>
          have hr : s.repeated = none := by
            cases s
            case line => rfl
            all_goals exact absurd (gAsciiStrtoll?_text.mpr rfl) hs
          simp only [Option.map_none, Option.none_or, hs, if_false, hr, Option.bind_none, spanTo_zero_right]
          rfl

omit ht in
theorem startOf_isSome {n : Nat} : (startOf n).isSome ↔ 0 < n := by
  rw [startOf]
  split
  case isTrue h  => exact iff_of_true rfl h
  case isFalse h => exact iff_of_false (by decide) h

variable {r : Route}

omit ht in
theorem span?_of_routeLine (h : 0 < gl.routeLine nTracks r) : r.start.span? = none := by
  by_contra hs
  exact h.ne' (gl.foundLine_of_span? nTracks 0 (Option.isSome_iff_ne_none.mpr hs))

theorem gridPosSpan_of_line (hr : d.shorthandRoute = some r) (hl : 0 < gl.routeLine nTracks r) :
    gl.gridPosSpan nTracks d.axisStyle.shorthand = (startOf (gl.routeLine nTracks r), gl.routeSpan nTracks r) := by
  obtain ⟨⟨a, b⟩, hd, rfl⟩ := Option.map_eq_some_iff.mp hr
  rw [Declared.axisStyle, hd, Option.map_some, gl.gridPosSpan_shorthand nTracks ht rfl, gl.span?_of_routeLine nTracks hl]
  rfl

theorem gridPosSpan_of_no_line (h : ∀ r ∈ d.shorthandRoute, gl.routeLine nTracks r = 0) :
    gl.gridPosSpan nTracks d.axisStyle.shorthand =
      (none, (d.shorthandRoute.bind fun r => r.start.span?.or (r.stop.bind Side.span?)).getD 1) := by
  rw [Declared.axisStyle, Declared.shorthandRoute] at *
  cases hd : d.shorthand
  case none   => rfl
  case some x =>
    have h₀ := h _ (by rw [hd]; rfl)
    rw [Option.map_some, gl.gridPosSpan_shorthand nTracks ht rfl]
    simp only [h₀, spanTo_zero, startOf_zero, Option.map_some, Option.bind_some]
    cases x.2 <;> simp

theorem gridAreaAxisPos_of_line {span : Nat} (hr : d.areaRoute gl.rowAxis = some r) (hl : 0 < gl.routeLine nTracks r) :
    gl.gridAreaAxisPos nTracks d.areaText span = (startOf (gl.routeLine nTracks r), gl.routeSpan nTracks r) := by
  have hk : r.kept = 1 := by
    obtain ⟨x, -, hx⟩ := Option.bind_eq_some_iff.mp hr
    obtain ⟨s, -, rfl⟩ := Option.map_eq_some_iff.mp hx
    rfl
  rw [gl.gridAreaAxisPos_area nTracks ht, hr]
  simp only [if_pos hl, routeSpan, hk]

theorem gridAreaAxisPos_of_no_line {span : Nat} (h : ∀ r ∈ d.areaRoute gl.rowAxis, gl.routeLine nTracks r = 0) :
    gl.gridAreaAxisPos nTracks d.areaText span =
      (none, ((d.areaRoute gl.rowAxis).bind fun r => (r.stop.bind Side.span?).or r.start.span?).getD span) := by
  rw [gl.gridAreaAxisPos_area nTracks ht]
  cases hr : d.areaRoute gl.rowAxis
  case none   => rfl
  case some r =>
    simp only [h r hr, spanTo_zero, startOf_zero, Option.bind_some]
    cases r.stop <;> simp

-- The longhands, from the span that is set already.
theorem longhands_declared {kept : Nat} (hk : d.kept gl.rowAxis = kept) :
    (let sl := gl.gridLineNum nTracks d.axisStyle.start 0
     let el := gl.gridLineNum nTracks d.axisStyle.stop sl
     if 0 < sl then (startOf sl, ((spanTo sl el).or (d.axisStyle.stop.bind spanOf)).getD kept)
     else (none, ((d.axisStyle.start.bind spanOf).or (d.axisStyle.stop.bind spanOf)).getD kept)) =
    match (d.longhandRoute gl.rowAxis).filter fun r => 0 < gl.routeLine nTracks r with
    | some r => (startOf (gl.routeLine nTracks r), gl.routeSpan nTracks r)
    | none   => (none, d.looseSpan gl.rowAxis) := by
  have hbind (o : Option Side) : (o.map Side.text).bind spanOf = o.bind Side.span? := by
    cases o
    case none   => rfl
    case some a => exact spanOf_text'
  simp only [Declared.axisStyle, hbind, Declared.longhandRoute, Declared.looseSpan, hk]
  cases d.start
  case none   => rfl
  case some a =>
    simp only [Option.map_some, gl.gridLineNum_text nTracks ht]
    by_cases hl : 0 < gl.foundLine nTracks 0 a
    case neg =>
      simp only [routeLine, Option.filter_some, hl, if_false, decide_false, Bool.false_eq_true]
    case pos =>
      simp only [routeSpan, routeLine, Option.filter_some, hl, if_true, decide_true, Prod.mk.injEq, true_and]
      refine congrArg (fun o => Option.getD o kept) ?_
      cases d.stop
      case none   => rw [Option.map_none, gridLineNum, spanTo_zero_right]; rfl
      case some b =>
        rw [Option.map_some, gl.gridLineNum_text nTracks ht, Option.bind_some, Option.bind_some]
        cases hb : b.span?
        case none   => rw [Option.or_none, Option.none_or]
        case some k =>
          have h₀ := gl.foundLine_of_span? nTracks (gl.foundLine nTracks 0 a) (hb ▸ rfl : b.span?.isSome)
          rw [h₀, spanTo_zero_right, Option.none_or, Option.or_none]

omit ht in
theorem find?_toList {p : Route → Bool} {o : Option Route} : o.toList.find? p = o.filter p := by
  cases o
  case none   => rfl
  case some r => cases h : p r <;> simp [h, Option.filter_some]

-- The first route that starts at a line decides.
theorem gridResolvePos_declared : gl.gridResolvePos nTracks d.areaText d.axisStyle =
    match (d.routes gl.rowAxis).find? fun r => 0 < gl.routeLine nTracks r with
    | some r => (startOf (gl.routeLine nTracks r), gl.routeSpan nTracks r)
    | none   => (none, d.looseSpan gl.rowAxis) := by
  rw [Declared.routes, List.find?_append, List.find?_append, find?_toList, find?_toList, find?_toList]
  rw [gridResolvePos]
  by_cases hs : ∃ r ∈ d.shorthandRoute, 0 < gl.routeLine nTracks r
  case pos =>
    obtain ⟨r, hr, hl⟩ := hs
    rw [Option.mem_def.mp hr, gl.gridPosSpan_of_line nTracks ht hr hl]
    simp only [startOf_isSome.mpr hl, if_true, Option.filter_some, hl, decide_true, Option.some_or]
  case neg =>
    have hs r (hr : r ∈ d.shorthandRoute) : gl.routeLine nTracks r = 0 :=
      Nat.eq_zero_of_not_pos fun hl => hs ⟨r, hr, hl⟩
    have hf : (d.shorthandRoute.filter fun r => 0 < gl.routeLine nTracks r) = none :=
      Option.filter_eq_none_iff.mpr fun r hr => by simp [hs r hr]
    rw [gl.gridPosSpan_of_no_line nTracks ht hs, hf, Option.none_or]
    simp only [Option.isSome_none, Bool.false_eq_true, if_false]
    by_cases ha : ∃ r ∈ d.areaRoute gl.rowAxis, 0 < gl.routeLine nTracks r
    case pos =>
      obtain ⟨r, hr, hl⟩ := ha
      rw [Option.mem_def.mp hr, gl.gridAreaAxisPos_of_line nTracks ht hr hl]
      simp only [startOf_isSome.mpr hl, if_true, Option.filter_some, hl, decide_true, Option.some_or]
    case neg =>
      have ha r (hr : r ∈ d.areaRoute gl.rowAxis) : gl.routeLine nTracks r = 0 :=
        Nat.eq_zero_of_not_pos fun hl => ha ⟨r, hr, hl⟩
      have hf : ((d.areaRoute gl.rowAxis).filter fun r => 0 < gl.routeLine nTracks r) = none :=
        Option.filter_eq_none_iff.mpr fun r hr => by simp [ha r hr]
      rw [gl.gridAreaAxisPos_of_no_line nTracks ht ha, hf, Option.none_or]
      simp only [Option.isSome_none, Bool.false_eq_true, if_false]
      refine gl.longhands_declared nTracks ht ?_
      rw [Declared.kept, Option.getD_or]

-- The longhands are read as the shorthand is.
theorem gridResolvePos_longhands {b : Slashed} :
    gl.gridResolvePos nTracks none (Declared.ofDecls [.start a, .stop b.side]).axisStyle =
      gl.gridResolvePos nTracks none (Declared.ofDecls [.shorthand a (some b)]).axisStyle := by
  have hl := gl.gridResolvePos_declared nTracks (d := Declared.ofDecls [.start a, .stop b.side]) ht
  have hs := gl.gridResolvePos_declared nTracks (d := Declared.ofDecls [.shorthand a (some b)]) ht
  refine hl.trans (Eq.trans ?_ hs.symm)
  by_cases h : 0 < gl.foundLine nTracks 0 a
  case pos => simp [Declared.ofDecls, Declared.add, Declared.routes, Declared.shorthandRoute, Declared.areaRoute,
    Declared.longhandRoute, routeLine, routeSpan, Declared.kept, h]
  case neg => simp [Declared.ofDecls, Declared.add, Declared.routes, Declared.shorthandRoute, Declared.areaRoute,
    Declared.longhandRoute, routeLine, Declared.kept, Declared.looseSpan, h]

omit ht in
theorem gridResolvePos_longhands_span :
    gridResolvePos { names := [], areas := [], rowAxis := false } 3 none
        (Declared.ofDecls [.start (.line 2 (by decide)), .stop (.span 3 (by decide))]).axisStyle =
      gridResolvePos { names := [], areas := [], rowAxis := false } 3 none
        (Declared.ofDecls [.shorthand (.line 2 (by decide))
          (some { before := 1, after := 1, side := .span 3 (by decide) })]).axisStyle :=
  gridResolvePos_longhands _ 3 (by decide) (b := { before := 1, after := 1, side := .span 3 (by decide) })

-- Between two numbers a line is found if the first one is not the later one and both are in the grid.
omit ht in
theorem meets_lines_iff {m n : Int} (hm : m ≠ 0) (hn : n ≠ 0) {p q : Nat} :
    gl.Meets nTracks [.shorthand (.line m hm) (some { before := p, after := q, side := .line n hn })] ↔
      1 ≤ lineIndex nTracks m ∧ lineIndex nTracks m ≤ tracksMax + 1 ∧ lineIndex nTracks m ≤ lineIndex nTracks n ∧
      (lineIndex nTracks n ≤ tracksMax + 1 ∨ lineIndex nTracks n = lineIndex nTracks m + 1) := by
  have hc : gl.cssPosition nTracks (.line m hm, .line n hn) =
      (some (min (lineIndex nTracks m) (lineIndex nTracks n)),
        max 1 (lineIndex nTracks n - lineIndex nTracks m).natAbs) := rfl
  have hr (r : Option Route) : (r.toList ++ (none : Option Route).toList ++ (none : Option Route).toList) = r.toList := by
    simp
  rw [Meets]
  change gl.cssPosition nTracks (.line m hm, .line n hn) = _ ↔ _
  simp only [Declared.ofDecls, List.foldl, Declared.add, Declared.routes, Declared.shorthandRoute, Declared.areaRoute,
    Declared.longhandRoute, Option.map_some, Option.bind_none, Option.map_none, hr, find?_toList, Option.filter_some,
    routeLine, routeSpan, foundLine, hc]
  by_cases hl : 1 ≤ lineIndex nTracks m ∧ lineIndex nTracks m ≤ tracksMax + 1
  case neg =>
    simp only [if_neg hl, lt_irrefl, decide_false, Bool.false_eq_true, if_false, Prod.mk.injEq, reduceCtorEq,
      false_and, false_iff]
    exact fun h => hl ⟨h.left, h.right.left⟩
  case pos =>
    have h0 : 0 < (lineIndex nTracks m).toNat := by omega
    simp only [if_pos hl, h0, decide_true, if_true, Prod.mk.injEq, Option.some.injEq, spanTo, true_and,
      Option.bind_some, Side.span?, Option.none_or]
    by_cases hl' : 1 ≤ lineIndex nTracks n ∧ lineIndex nTracks n ≤ tracksMax + 1
    case pos =>
      rw [if_pos hl']
      by_cases hlt : (lineIndex nTracks m).toNat < (lineIndex nTracks n).toNat
      case pos =>
        rw [if_pos hlt, Option.getD_some]
        omega
      case neg =>
        rw [if_neg hlt, Option.getD_none]
        omega
    case neg =>
      rw [if_neg hl', if_neg (Nat.not_lt_zero _), Option.getD_none]
      omega

end GridLines

end Nordstjernen.Layout.Grid
