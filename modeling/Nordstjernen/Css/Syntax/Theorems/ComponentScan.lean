import Nordstjernen.Css.Syntax.Theorems.Components

open Nordstjernen.Glib Nordstjernen.Lib

namespace Nordstjernen.Css.Syntax

variable {ts st st' : List Char} {q : Option Char} {c d : Char} {cs p xs : CString} {k m n : Nat}

section Forward

theorem forward_zero (r : Nat × Char) : forward 0 r = r := by
  rw [forward, Nat.zero_add]

theorem forward_forward (r : Nat × Char) : forward m (forward n r) = forward (m + n) r := by
  rw [forward, forward, forward, Nat.add_assoc]

theorem scanLoop_nil : scanLoop ts k q st [] = (0, '\x00') := by
  rw [scanLoop]

theorem scanLoop_skip (h : k ≤ p.length) :
    scanLoop ts k q st p = forward k (scanLoop ts 0 q st (p.drop k)) := by
  induction p generalizing k
  case nil =>
    obtain rfl := Nat.le_zero.mp h
    exact (forward_zero _).symm
  case cons c cs hi =>
    cases k
    case zero   => exact (forward_zero _).symm
    case succ k =>
      rw [scanLoop, hi (Nat.le_of_succ_le_succ h), forward_forward, Nat.add_comm]
      rfl

end Forward

section Tails

-- The characters that the scan takes no note of.
def specials : List Char :=
  ['/', '\\', '"', '\'', ';', ',', '\x00', '(', ')', '[', ']', '{', '}']

def Plain (c : Char) : Prop :=
  c ∉ specials

theorem plain_of {f : Char → Bool} (hf : ∀ x ∈ specials, f x = false) (hc : f c) : Plain c := by
  intro hm
  rw [hf c hm] at hc
  cases hc

theorem Plain.ne (h : Plain c) {x : Char} (hx : x ∈ specials) : c ≠ x := by
  rintro rfl
  exact h hx

theorem plain_of_isDigit (h : c.isDigit) : Plain c :=
  plain_of (by decide) h

theorem plain_of_isWs (h : isWs c) : Plain c :=
  plain_of (by decide) h

theorem plain_of_gAsciiIsxdigit (h : gAsciiIsxdigit c) : Plain c :=
  plain_of (by decide) h

theorem plain_of_syntaxName (h : syntaxName c) : Plain c :=
  plain_of (by decide) h

theorem take_length_takeWhile (f : Char → Bool) (s : CString) :
    s.take (s.takeWhile f).length = s.takeWhile f :=
  (List.prefix_iff_eq_take.mp (List.takeWhile_prefix f)).symm

-- What follows the first two characters of an escape.
theorem escapeLength_tail (h : escapeLength ('\\' :: c :: cs) = m + 1) :
    ∃ j, m = j + 1 ∧ j ≤ cs.length ∧ ∀ y ∈ cs.take j, gAsciiIsxdigit y ∨ isWs y := by
  rw [escapeLength] at h
  split_ifs at h with hx hn
  case pos =>
    rw [List.take_succ_cons, List.takeWhile_cons_of_pos hx, List.length_cons] at h
    dsimp only at h
    rw [List.drop_succ_cons] at h
    obtain ⟨ds, hds⟩ : ∃ ds, (cs.take 5).takeWhile gAsciiIsxdigit = ds := ⟨_, rfl⟩
    have hpre : ds <+: cs := hds ▸ (List.takeWhile_prefix _).trans (List.take_prefix 5 cs)
    have htake : cs.take ds.length = ds := (List.prefix_iff_eq_take.mp hpre).symm
    have hdigits : ∀ y ∈ ds, gAsciiIsxdigit y := fun y hy => List.mem_takeWhile_imp (hds ▸ hy)
    rw [hds] at h
    cases hr : cs.drop ds.length
    case nil =>
      rw [hr] at h
      refine ⟨ds.length, by simp at h; omega, hpre.length_le, fun y hy => ?_⟩
      exact .inl (hdigits y (htake ▸ hy))
    case cons y rest =>
      have hlen := congrArg List.length hr
      rw [List.length_drop, List.length_cons] at hlen
      rw [hr, List.head?_cons, Option.any_some] at h
      split at h
      case isTrue hw =>
        refine ⟨ds.length + 1, by omega, by omega, fun z hz => ?_⟩
        rw [List.take_add, htake, hr, List.mem_append] at hz
        rcases hz with hz | hz
        · exact .inl (hdigits z hz)
        · exact .inr (List.mem_singleton.mp hz ▸ hw)
      case isFalse =>
        refine ⟨ds.length, by omega, hpre.length_le, fun z hz => ?_⟩
        exact .inl (hdigits z (htake ▸ hz))
  case neg => exact ⟨0, by omega, Nat.zero_le _, by simp⟩

end Tails

section Passes

-- The scan goes over some characters, and has other brackets then.
def Passes (ts st st' : List Char) (n : Nat) (p : CString) : Prop :=
  scanLoop ts 0 none st p = forward n (scanLoop ts 0 none st' (p.drop n))

theorem passes_zero (p : CString) : Passes ts st st 0 p :=
  (forward_zero _).symm

-- Behind the end of a text there are no brackets.
theorem Passes.of_end {st'' : List Char} (h : Passes ts st st' n p) (hn : p.length ≤ n) :
    Passes ts st st'' n p := by
  rw [Passes, List.drop_of_length_le hn, scanLoop_nil] at h
  rw [Passes, List.drop_of_length_le hn, scanLoop_nil, h]

theorem Passes.trans {st₁ st₂ st₃ : List Char} (h : Passes ts st₁ st₂ m p) (h' : Passes ts st₂ st₃ n (p.drop m)) :
    Passes ts st₁ st₃ (m + n) p := by
  rw [Passes, h, h', forward_forward, List.drop_drop]

-- A character that is no escape, no quote, and where the scan does not stop.
theorem passes_char (hcomment : ¬(c == '/' && cs.head? == some '*') = true) (hescape : c ≠ '\\' ∨ cs = [])
    (hquote : c ≠ '"' ∧ c ≠ '\'') (hstop : st = [] → c ∉ ts ∧ c ≠ '\x00') :
    Passes ts st (scanStack st c) 1 (c :: cs) := by
  rw [Passes, scanLoop, if_neg hcomment, if_neg, if_neg, if_neg]
  · rfl
  · simpa using hstop
  · simpa using hquote
  · simpa [or_iff_not_imp_left] using hescape

theorem closingOf_eq_none (h : Plain c) : closingOf c = none := by
  rw [closingOf, if_neg, if_neg, if_neg]
  all_goals simpa using h.ne (by decide)

variable (hts : ∀ t ∈ ts, t = ';' ∨ t = ',') (hst : ∀ d ∈ st, isClosing d)

include hst in
theorem scanStack_plain (h : Plain c) : scanStack st c = st := by
  rw [scanStack, closingOf_eq_none h]
  refine if_neg fun hc => ?_
  have hclosing := hst c (List.mem_of_head? hc)
  have hne : c ≠ ')' ∧ c ≠ ']' ∧ c ≠ '}' := ⟨h.ne (by decide), h.ne (by decide), h.ne (by decide)⟩
  simp [isClosing, hne] at hclosing

include hts hst

theorem passes_plain (h : Plain c) : Passes ts st st 1 (c :: cs) := by
  have hslash : c ≠ '/' := h.ne (by decide)
  have hin : c ∉ ts := by
    intro hc
    rcases hts c hc with rfl | rfl
    all_goals exact h (by decide)
  have hp : Passes ts st (scanStack st c) 1 (c :: cs) :=
    passes_char (by simp [hslash]) (.inl (h.ne (by decide))) ⟨h.ne (by decide), h.ne (by decide)⟩
      fun _ => ⟨hin, h.ne (by decide)⟩
  rwa [scanStack_plain hst h] at hp

theorem passes_take (h : ∀ c ∈ p.take n, Plain c) (hn : n ≤ p.length) : Passes ts st st n p := by
  induction n generalizing p
  case zero => exact passes_zero p
  case succ n hi =>
    cases p
    case nil => cases hn
    case cons c cs =>
      rw [List.take_succ_cons, List.forall_mem_cons] at h
      rw [Nat.add_comm]
      exact (passes_plain hts hst h.left).trans (hi h.right (Nat.le_of_succ_le_succ hn))

theorem passes_escape (h : escapeLength p = m + 1) : Passes ts st st (m + 1) p := by
  rcases p with _ | ⟨a, _ | ⟨c, cs⟩⟩
  case nil => cases h
  case cons.nil =>
    rw [escapeLength.eq_def] at h
    split at h
    case h_1 _ _ he =>
      obtain ⟨rfl, rfl⟩ := List.cons.inj he
      obtain rfl : 0 = m := Nat.succ.inj h
      have hin : '\\' ∉ ts := by
        intro hc
        rcases hts _ hc with he | he
        all_goals cases he
      exact (passes_char (by decide) (.inr rfl) (by decide) fun _ => ⟨hin, by decide⟩).of_end (Nat.le_refl _)
    case h_2 => cases h
  case cons.cons =>
    have ha : a = '\\' := by
      rw [escapeLength.eq_def] at h
      split at h
      case h_1 _ _ he => exact (List.cons.inj he).left
      case h_2        => cases h
    subst ha
    obtain ⟨j, rfl, hj, htail⟩ := escapeLength_tail h
    have htwo : Passes ts st st 2 ('\\' :: c :: cs) := by
      rw [Passes, scanLoop, if_neg (by simp), if_pos (by simp), scanLoop, forward_forward]
      rfl
    rw [Nat.add_comm j, Nat.add_assoc, Nat.add_comm j, ← Nat.add_assoc]
    refine htwo.trans (passes_take hts hst (fun y hy => ?_) hj)
    exact (htail y hy).elim plain_of_gAsciiIsxdigit plain_of_isWs

omit hts hst in
theorem nameLength_skip (h : k ≤ p.length) : nameLength k p = k + nameLength 0 (p.drop k) := by
  induction p generalizing k
  case nil =>
    obtain rfl := Nat.le_zero.mp h
    rfl
  case cons c cs hi =>
    cases k
    case zero   => exact (Nat.zero_add _).symm
    case succ k =>
      rw [nameLength, hi (Nat.le_of_succ_le_succ h), List.drop_succ_cons]
      omega

theorem passes_name (p : CString) : Passes ts st st (nameLength 0 p) p := by
  obtain ⟨n, hn⟩ : ∃ n, p.length ≤ n := ⟨_, Nat.le_refl _⟩
  induction n generalizing p
  case zero =>
    obtain rfl := List.length_eq_zero_iff.mp (Nat.le_zero.mp hn)
    exact passes_zero []
  case succ n hi =>
    cases p
    case nil => exact passes_zero []
    case cons c cs =>
      rw [nameLength]
      split
      case isTrue hc =>
        exact (passes_plain hts hst (plain_of_syntaxName hc)).trans (hi cs (Nat.le_of_succ_le_succ hn))
      case isFalse =>
        split
        case h_1 => exact passes_zero _
        case h_2 k hk =>
          have hle := hk ▸ escapeLength_le (c :: cs)
          rw [nameLength_skip (Nat.le_of_succ_le_succ hle), ← Nat.add_assoc, Nat.add_comm 1 k]
          refine (passes_escape hts hst hk).trans (hi _ ?_)
          rw [List.length_drop]
          exact Nat.le_trans (Nat.sub_le _ _) (Nat.le_of_succ_le_succ hn)

omit hts hst in
theorem plain_take_digits (p : CString) : ∀ x ∈ p.take (digitsLength p), Plain x := by
  intro x hx
  rw [digitsLength, take_length_takeWhile] at hx
  exact plain_of_isDigit (List.mem_takeWhile_imp hx)

omit hts hst in
theorem plain_take_sign (p : CString) : ∀ x ∈ p.take (signLength p), Plain x := by
  intro x hx
  cases p
  case nil => cases hx
  case cons a p =>
    rw [signLength, List.head?_cons, Option.any_some] at hx
    split at hx
    case isTrue ha =>
      obtain rfl := List.mem_singleton.mp hx
      exact plain_of (by decide) ha
    case isFalse => cases hx

omit hts hst in
theorem plain_take_add (hm : ∀ x ∈ p.take m, Plain x) (hn : ∀ x ∈ (p.drop m).take n, Plain x) :
    ∀ x ∈ p.take (m + n), Plain x := by
  rw [List.take_add]
  exact List.forall_mem_append.mpr ⟨hm, hn⟩

omit hts hst in
theorem plain_take_fraction (p : CString) : ∀ x ∈ p.take (fractionLength p), Plain x := by
  rw [fractionLength.eq_def]
  split
  case h_1 cs =>
    split
    case isTrue  => simp
    case isFalse =>
      rw [Nat.add_comm, List.take_succ_cons]
      exact List.forall_mem_cons.mpr ⟨by simp [Plain, specials], plain_take_digits cs⟩
  case h_2 => simp

omit hts hst in
theorem plain_take_exponent (p : CString) : ∀ x ∈ p.take (exponentLength p), Plain x := by
  rw [exponentLength.eq_def]
  split
  case h_1 => simp
  case h_2 e cs =>
    split
    case isTrue he =>
      dsimp only
      split
      case isTrue  => simp
      case isFalse =>
        rw [Nat.add_assoc, Nat.add_comm 1, List.take_succ_cons]
        refine List.forall_mem_cons.mpr ⟨?_, plain_take_add (plain_take_sign cs) (plain_take_digits _)⟩
        exact plain_of (f := fun e => e == 'e' || e == 'E') (by decide) he
    case isFalse => simp

omit hts hst in
theorem plain_take_number (p : CString) : ∀ x ∈ p.take (numberLength p), Plain x := by
  have hwhole := plain_take_add (plain_take_sign p) (plain_take_digits _)
  have hdecimal := plain_take_add hwhole (plain_take_fraction _)
  exact plain_take_add hdecimal (plain_take_exponent _)

end Passes

section Strings

variable {quote : Char}

theorem scanLoop_quoted (h : ∀ x ∈ p.take n, x ≠ '\\' ∧ x ≠ quote) (hn : n ≤ p.length) :
    scanLoop ts 0 (some quote) st p = forward n (scanLoop ts 0 (some quote) st (p.drop n)) := by
  induction n generalizing p
  case zero => exact (forward_zero _).symm
  case succ n hi =>
    cases p
    case nil => cases hn
    case cons c cs =>
      rw [List.take_succ_cons, List.forall_mem_cons] at h
      rw [scanLoop, if_neg (by simp [h.left.left]), if_neg (by simp [h.left.right]),
        hi h.right (Nat.le_of_succ_le_succ hn), forward_forward, List.drop_succ_cons, Nat.add_comm]

theorem stringBody_skip (h : k ≤ p.length) : (stringBody quote k p).2 =
    (k + (stringBody quote 0 (p.drop k)).2.1, (stringBody quote 0 (p.drop k)).2.2) := by
  induction p generalizing k
  case nil =>
    obtain rfl := Nat.le_zero.mp h
    rfl
  case cons c cs hi =>
    cases k
    case zero   => simp
    case succ k =>
      rw [stringBody, List.drop_succ_cons]
      change ((stringBody quote k cs).2.1 + 1, (stringBody quote k cs).2.2) = _
      rw [hi (Nat.le_of_succ_le_succ h)]
      simp only [Prod.mk.injEq, and_true]
      omega

theorem ne_of_quote {f : Char → Bool} (hq : quote = '"' ∨ quote = '\'') (hf : f '"' = false ∧ f '\'' = false)
    (hc : f c) : c ≠ quote := by
  rintro rfl
  rcases hq with rfl | rfl
  · rw [hf.left] at hc
    cases hc
  · rw [hf.right] at hc
    cases hc

-- Inside of a string, which has to be well-formed.
theorem scanLoop_string (hq : quote = '"' ∨ quote = '\'') (p : CString) (hv : (stringBody quote 0 p).2.2 = true) :
    scanLoop ts 0 (some quote) st p =
      forward (stringBody quote 0 p).2.1 (scanLoop ts 0 none st (p.drop (stringBody quote 0 p).2.1)) := by
  obtain ⟨n, hn⟩ : ∃ n, p.length ≤ n := ⟨_, Nat.le_refl _⟩
  have hbackslash : '\\' ≠ quote := by
    rcases hq with rfl | rfl
    all_goals decide
  induction n generalizing p
  case zero =>
    obtain rfl := List.length_eq_zero_iff.mp (Nat.le_zero.mp hn)
    rw [stringBody, List.drop_nil, scanLoop_nil, scanLoop_nil, forward_zero]
  case succ n hi =>
    cases p
    case nil => rw [stringBody, List.drop_nil, scanLoop_nil, scanLoop_nil, forward_zero]
    case cons c cs =>
      have hcs : cs.length ≤ n := Nat.le_of_succ_le_succ hn
      rw [stringBody] at hv ⊢
      split_ifs at hv ⊢ with hend hnew hescape
      case pos =>
        have hc : c = quote := eq_of_beq hend
        rw [scanLoop, if_neg (by simp [hc, hbackslash.symm]), if_pos hend]
        rfl
      case pos =>
        obtain ⟨hc, hne⟩ : c = '\\' ∧ cs ≠ [] := by simpa using hescape
        obtain ⟨x, cs', rfl⟩ := List.exists_cons_of_ne_nil hne
        subst hc
        cases hk : escapeLength ('\\' :: x :: cs')
        case zero =>
          rw [hk] at hv
          cases hv
        case succ m =>
          rw [hk] at hv
          obtain ⟨j, rfl, hj, htail⟩ := escapeLength_tail hk
          have hle : j + 1 ≤ (x :: cs').length := Nat.succ_le_succ hj
          have hskip : (stringBody quote (j + 1) (x :: cs')).2 = _ := stringBody_skip hle
          rw [List.drop_succ_cons] at hskip
          have hv : (stringBody quote (j + 1) (x :: cs')).2.2 = true := hv
          have hquiet : ∀ y ∈ cs'.take j, y ≠ '\\' ∧ y ≠ quote := by
            intro y hy
            rcases htail y hy with h | h
            · exact ⟨(plain_of_gAsciiIsxdigit h).ne (by decide), ne_of_quote hq (by decide) h⟩
            · exact ⟨(plain_of_isWs h).ne (by decide), ne_of_quote hq (by decide) h⟩
          rw [hskip] at hv
          have hlen : (cs'.drop j).length ≤ n := by
            rw [List.length_drop]
            exact Nat.le_trans (Nat.sub_le _ _) (Nat.le_of_succ_le hcs)
          rw [scanLoop, if_pos (by simp), scanLoop, forward_forward, scanLoop_quoted hquiet hj, forward_forward,
            hi _ hv hlen, forward_forward, List.drop_drop]
          change _ = forward ((stringBody quote (j + 1) (x :: cs')).2.1 + 1) (scanLoop ts 0 none st
            (('\\' :: x :: cs').drop ((stringBody quote (j + 1) (x :: cs')).2.1 + 1)))
          rw [hskip, List.drop_succ_cons, Nat.add_right_comm j 1, List.drop_succ_cons]
          congr 1
          omega
      case neg =>
        rw [scanLoop, if_neg hescape, if_neg hend, hi cs hv hcs, forward_forward, Nat.add_comm]
        rfl

end Strings

section Consume

variable {offset : Nat} {type : ComponentType} (hts : ∀ t ∈ ts, t = ';' ∨ t = ',') (hst : ∀ d ∈ st, isClosing d)

-- The scan passes a component, and the bracket that a block or a function begins with.
def Consumed.Passed (ts st : List Char) (t : Consumed) (p : CString) : Prop :=
  Passes ts st (t.closing.toList ++ st) t.length p

theorem consumeString_passed (hq : c = '"' ∨ c = '\'') (hv : (consumeString offset c cs).valid) :
    (consumeString offset c cs).Passed ts st (c :: cs) := by
  have hslash : c ≠ '/' ∧ c ≠ '\\' := by
    rcases hq with rfl | rfl
    all_goals decide
  have hquote : (c == '"' || c == '\'') = true := by simpa using hq
  change Passes ts st st ((stringBody c 0 cs).2.1 + 1) (c :: cs)
  rw [Passes, scanLoop, if_neg (by simp [hslash]), if_neg (by simp [hslash]), if_pos hquote,
    scanLoop_string hq cs hv, forward_forward, Nat.add_comm, List.drop_succ_cons]

include hts hst

theorem consumeNumeric_passed (p : CString) : (consumeNumeric offset p).Passed ts st p := by
  have hnumber := passes_take hts hst (plain_take_number p) (numberLength_le p)
  rw [Consumed.Passed, consumeNumeric]
  dsimp only
  split
  case isTrue h =>
    refine hnumber.trans ?_
    cases hr : p.drop (numberLength p)
    case nil =>
      rw [hr] at h
      cases h
    case cons a rest =>
      rw [hr] at h
      obtain rfl : a = '%' := by simpa using h
      exact passes_plain hts hst (by simp [Plain, specials])
  case isFalse =>
    split
    case isTrue  => exact hnumber.trans (passes_name hts hst _)
    case isFalse => exact hnumber

theorem consumeMarked_passed (h : Plain c) : (consumeMarked type offset cs).Passed ts st (c :: cs) := by
  have hp : Passes ts st st (1 + nameLength 0 cs) (c :: cs) :=
    (passes_plain hts hst h).trans (passes_name hts hst cs)
  rwa [Nat.add_comm] at hp

omit hst in
theorem passes_open (hd : closingOf c = some d) (hlen : st.length < stackMax) :
    Passes ts st (d :: st) 1 (c :: cs) := by
  have hc : c = '(' ∨ c = '[' ∨ c = '{' := by
    rw [closingOf] at hd
    split_ifs at hd with h₁ h₂ h₃
    · exact .inl (eq_of_beq h₁)
    · exact .inr (.inl (eq_of_beq h₂))
    · exact .inr (.inr (eq_of_beq h₃))
  have hne : c ≠ '/' ∧ c ≠ '\\' ∧ c ≠ '"' ∧ c ≠ '\'' ∧ c ≠ ';' ∧ c ≠ ',' ∧ c ≠ '\x00' := by
    rcases hc with rfl | rfl | rfl
    all_goals decide
  obtain ⟨hslash, hescape, hquote, hquote', hsemicolon, hcomma, hnul⟩ := hne
  have hin : c ∉ ts := fun hc => (hts c hc).elim hsemicolon hcomma
  have hp : Passes ts st (scanStack st c) 1 (c :: cs) :=
    passes_char (by simp [hslash]) (.inl hescape) ⟨hquote, hquote'⟩ fun _ => ⟨hin, hnul⟩
  have hstack : scanStack st c = d :: st := by
    rw [scanStack, hd]
    exact if_pos hlen
  rwa [hstack] at hp

theorem consumeIdent_passed (hlen : (consumeIdent offset p).closing.isSome → st.length < stackMax) :
    (consumeIdent offset p).Passed ts st p := by
  rw [consumeIdent] at hlen ⊢
  by_cases h : ((p.drop (nameLength 0 p)).head? == some '(') = true
  case pos =>
    rw [if_pos h] at hlen ⊢
    refine (passes_name hts hst p).trans ?_
    cases hr : p.drop (nameLength 0 p)
    case nil =>
      rw [hr] at h
      cases h
    case cons a rest =>
      rw [hr] at h
      obtain rfl : a = '(' := by simpa using h
      exact passes_open hts rfl (hlen rfl)
  case neg =>
    rw [if_neg h]
    exact passes_name hts hst p

-- A backslash that is no escape is in front of a newline or at the end.
theorem passes_backslash (h : ¬startsIdent ('\\' :: cs) = true) : Passes ts st st 1 ('\\' :: cs) := by
  cases cs
  case nil =>
    have hin : '\\' ∉ ts := by
      intro hc
      rcases hts _ hc with he | he
      all_goals cases he
    exact (passes_char (by decide) (.inr rfl) (by decide) fun _ => ⟨hin, by decide⟩).of_end (Nat.le_refl _)
  case cons x cs =>
    have hx : isNewline x := by simpa [startsIdent, syntaxNameStart, validEscape] using h
    have hws : isWs x := by
      simp only [isNewline, isWs, Bool.or_eq_true] at hx ⊢
      tauto
    have hp : Passes ts st st 1 (x :: cs) := passes_plain hts hst (plain_of_isWs hws)
    rw [Passes, scanLoop, if_neg (by simp), if_pos (by simp), scanLoop]
    exact congrArg (forward 1) hp.symm

theorem consumeDelim_passed (hclosing : ¬isClosing c = true)
    (hcomment : ¬(c == '/' && cs.head? == some '*') = true) (hident : ¬startsIdent (c :: cs) = true)
    (hquote : ¬(c == '"' || c == '\'') = true)
    (hstop : st = [] → c ∉ ts ∧ c ≠ '\x00')
    (hlen : (consumeDelim offset c).closing.isSome → st.length < stackMax) :
    (consumeDelim offset c).Passed ts st (c :: cs) := by
  rw [consumeDelim] at hlen ⊢
  cases hd : closingOf c
  case some d =>
    rw [hd] at hlen
    exact passes_open hts hd (hlen rfl)
  case none =>
    change Passes ts st st 1 (c :: cs)
    by_cases hc : c = '\\'
    case pos =>
      subst hc
      exact passes_backslash hts hst hident
    case neg =>
      have hstack : scanStack st c = st := by
        rw [scanStack, hd]
        exact if_neg fun he => hclosing (hst c (List.mem_of_head? he))
      have hp : Passes ts st (scanStack st c) 1 (c :: cs) :=
        passes_char hcomment (.inl hc) (by simpa using hquote) hstop
      rwa [hstack] at hp

theorem consume_passed (hclosing : ¬isClosing c = true) (hcomment : ¬(c == '/' && cs.head? == some '*') = true)
    (hstop : st = [] → c ∉ ts ∧ c ≠ '\x00') (hv : (consume offset c cs).valid)
    (hlen : (consume offset c cs).closing.isSome → st.length < stackMax) :
    (consume offset c cs).Passed ts st (c :: cs) := by
  rw [consume] at hv hlen ⊢
  split_ifs at hv hlen ⊢ with hw hq hn hat hhash hid
  case pos =>
    refine passes_take hts hst (fun x hx => ?_) (List.takeWhile_prefix isWs).length_le
    rw [take_length_takeWhile] at hx
    exact plain_of_isWs (List.mem_takeWhile_imp hx)
  case pos => exact consumeString_passed (by simpa using hq) hv
  case pos => exact consumeNumeric_passed hts hst _
  case pos =>
    simp only [Bool.and_eq_true, beq_iff_eq] at hat
    exact consumeMarked_passed hts hst (by simp [hat.left, Plain, specials])
  case pos =>
    simp only [Bool.and_eq_true, beq_iff_eq] at hhash
    exact consumeMarked_passed hts hst (by simp [hhash.left, Plain, specials])
  case pos => exact consumeIdent_passed hts hst hlen
  case neg => exact consumeDelim_passed hts hst hclosing hcomment hid hq hstop hlen

end Consume

section Parse

variable {fuel offset : Nat} {closing : Option Char} {type : ComponentType} {r inner : Parsed} {e : Char}

theorem consume_type (h : IsDelimiter d type) : (consume offset c cs).component.type = type ↔ c = d := by
  constructor
  case mp =>
    intro ht
    rw [consume] at ht
    split_ifs at ht
    case pos => cases h <;> cases ht
    case pos => cases h <;> cases ht
    case pos =>
      rw [consumeNumeric] at ht
      dsimp only at ht
      split_ifs at ht
      all_goals cases h <;> cases ht
    case pos => cases h <;> cases ht
    case pos => cases h <;> cases ht
    case pos =>
      rw [consumeIdent] at ht
      split_ifs at ht
      all_goals cases h <;> cases ht
    case neg =>
      rw [consumeDelim] at ht
      split at ht
      case h_1 => cases h <;> cases ht
      case h_2 =>
        dsimp only at ht
        split_ifs at ht with hcolon hsemicolon hcomma
        all_goals cases h <;> cases ht
        · exact eq_of_beq hsemicolon
        · exact eq_of_beq hcomma
  case mpr =>
    rintro rfl
    cases h
    all_goals rfl

theorem passes_comment (hc : (c == '/' && cs.head? == some '*') = true) :
    Passes ts st st ((c :: cs).length - (cssSkipComment (c :: cs)).length) (c :: cs) := by
  obtain ⟨hpos, -⟩ := sound_comment (List.drop_zero (l := c :: cs)) hc
  obtain ⟨n, hn⟩ : ∃ n, (c :: cs).length - (cssSkipComment (c :: cs)).length = n + 1 :=
    ⟨_, (Nat.succ_pred_eq_of_pos hpos).symm⟩
  have hle : n ≤ cs.length := by
    rw [List.length_cons] at hn
    omega
  rw [hn, Passes, scanLoop, if_pos hc, commentLength, hn, Nat.add_sub_cancel, scanLoop_skip hle, forward_forward,
    Nat.add_comm, List.drop_succ_cons]

-- What a round of the loop makes of a text.
inductive Round (fuel : Nat) (closing : Option Char) (offset : Nat) (c : Char) (cs : CString) : Parsed → Prop
  | comment {n : Nat} {r : Parsed} (hc : (c == '/' && cs.head? == some '*') = true)
      (hn : (c :: cs).length - (cssSkipComment (c :: cs)).length = n)
      (hr : parseList fuel closing (offset + n) ((c :: cs).drop n) = some r) :
      Round fuel closing offset c cs (r.after n true)
  | closes (hc : ¬(c == '/' && cs.head? == some '*') = true) (he : closing = some c) :
      Round fuel closing offset c cs ⟨.nil, 1, true⟩
  | invalid {r : Parsed} (hv : r.valid = false) : Round fuel closing offset c cs r
  | component {t : Consumed} {inner r : Parsed} (hc : ¬(c == '/' && cs.head? == some '*') = true)
      (he : ¬isClosing c = true) (ht : consume offset c cs = t) (hn : t.closing = none → inner = ⟨.nil, 0, true⟩)
      (hi : ∀ d ∈ t.closing, parseList fuel (some d) (offset + t.length) ((c :: cs).drop t.length) = some inner)
      (hr : parseList fuel closing (offset + (t.length + inner.length))
        ((c :: cs).drop (t.length + inner.length)) = some r) :
      Round fuel closing offset c cs { r.after (t.length + inner.length) (t.valid && inner.valid) with
        components := .node { t.component with stop := offset + (t.length + inner.length) } inner.components
          r.components }

theorem parseList_cons (hr : parseList (fuel + 1) closing offset (c :: cs) = some r) :
    Round fuel closing offset c cs r := by
  rw [parseList] at hr
  split_ifs at hr with hcomment hclosing hbracket hsome
  case pos =>
    obtain ⟨-, hrest, -⟩ := sound_comment (List.drop_zero (l := c :: cs)) hcomment
    obtain ⟨r', hr', rfl⟩ := Option.map_eq_some_iff.mp hr
    exact .comment hcomment rfl (hrest ▸ hr')
  case pos =>
    cases hr
    exact .closes hcomment hclosing
  case pos =>
    cases hr
    exact .invalid rfl
  case neg =>
    obtain ⟨r', hr', rfl⟩ := Option.map_eq_some_iff.mp hr
    exact .invalid rfl
  case neg =>
    dsimp only at hr
    cases ht : (consume offset c cs).closing
    case none =>
      rw [ht] at hr
      obtain ⟨inner, hinner, hr⟩ := Option.bind_eq_some_iff.mp hr
      cases hinner
      obtain ⟨r', hr', he⟩ := Option.bind_eq_some_iff.mp hr
      cases he
      rw [List.drop_drop] at hr'
      exact .component hcomment hbracket rfl (fun _ => rfl) (fun d hd => by rw [ht] at hd; cases hd) hr'
    case some d =>
      rw [ht] at hr
      obtain ⟨inner, hinner, hr⟩ := Option.bind_eq_some_iff.mp hr
      obtain ⟨r', hr', he⟩ := Option.bind_eq_some_iff.mp hr
      cases he
      rw [List.drop_drop] at hr'
      refine .component hcomment hbracket rfl (fun hn => by rw [ht] at hn; cases hn) (fun e he => ?_) hr'
      obtain rfl : d = e := Option.some.inj (ht.symm.trans he)
      exact hinner

theorem eq_of_isClosing (h : isClosing c) : c = ')' ∨ c = ']' ∨ c = '}' := by
  simpa [isClosing, or_assoc] using h

theorem nesting_node {t : Consumed} {a : Component} {kids sibs : Forest Component} (ht : t.Reads offset p)
    (ha : a.inner = t.component.inner) (h : k + nesting (.node a kids sibs) ≤ stackMax) :
    (t.closing.isSome → k + (nesting kids + 1) ≤ stackMax) ∧ k + nesting sibs ≤ stackMax := by
  rw [nesting, ha, ht.inner, Option.isSome_map] at h
  constructor
  · intro hc
    rw [if_pos hc] at h
    omega
  · omega

theorem forall_isClosing_cons (hd : isClosing d) (hst : ∀ x ∈ st, isClosing x) : ∀ x ∈ d :: st, isClosing x :=
  List.forall_mem_cons.mpr ⟨hd, hst⟩

-- The scan passes a component with all that is in it.
theorem passes_component {t : Consumed} (hts : ∀ x ∈ ts, x = ';' ∨ x = ',') (hst : ∀ x ∈ st, isClosing x)
    (hc : ¬(c == '/' && cs.head? == some '*') = true) (he : ¬isClosing c = true) (ht : consume offset c cs = t)
    (hn : t.closing = none → inner = ⟨.nil, 0, true⟩) (hv : t.valid) (hstop : st = [] → c ∉ ts ∧ c ≠ '\x00')
    (hlen : t.closing.isSome → st.length < stackMax)
    (hi : ∀ d ∈ t.closing, Passes ts (d :: st) st inner.length ((c :: cs).drop t.length)) :
    Passes ts st st (t.length + inner.length) (c :: cs) := by
  subst ht
  have hp := consume_passed hts hst he hc hstop hv hlen
  rw [Consumed.Passed] at hp
  cases hclosing : (consume offset c cs).closing
  case none =>
    rw [hclosing] at hp
    rw [hn hclosing]
    exact hp
  case some d =>
    rw [hclosing] at hp
    exact hp.trans (hi d hclosing)

theorem length_component_le {t : Consumed} (ht : t.Reads offset p)
    (hn : t.closing = none → inner = ⟨.nil, 0, true⟩)
    (hi : ∀ d ∈ t.closing, inner.length ≤ (p.drop t.length).length) : t.length + inner.length ≤ p.length := by
  cases hclosing : t.closing
  case none =>
    rw [hn hclosing]
    exact ht.le
  case some d =>
    have hle := hi d hclosing
    rw [List.length_drop] at hle
    exact Nat.add_le_of_le_sub' ht.le hle

-- A valid list is no longer than its text.
theorem parseList_length_le (hr : parseList fuel closing offset p = some r) (hv : r.valid) :
    r.length ≤ p.length := by
  induction fuel generalizing closing offset p r
  case zero => cases hr
  case succ fuel hind =>
    cases p
    case nil =>
      cases hr
      exact Nat.zero_le _
    case cons c cs =>
      cases parseList_cons hr
      case comment n r hc hn hr' =>
        have hle : n ≤ (c :: cs).length := hn ▸ Nat.sub_le _ _
        have hrest := hind hr' hv
        rw [List.length_drop] at hrest
        exact Nat.add_le_of_le_sub' hle hrest
      case closes hc he => exact Nat.succ_le_succ (Nat.zero_le _)
      case invalid hv' =>
        rw [hv'] at hv
        cases hv
      case component t inner r hc he ht hn hi hr' =>
        obtain ⟨⟨-, hiv⟩, hrv⟩ : (t.valid = true ∧ inner.valid = true) ∧ r.valid = true := by
          simpa [Parsed.after] using hv
        have hreads : t.Reads offset (c :: cs) := ht ▸ consume_reads offset c cs
        have hle := length_component_le hreads hn fun d hd => hind (hi d hd) hiv
        have hrest := hind hr' hrv
        rw [List.length_drop] at hrest
        exact Nat.add_le_of_le_sub' hle hrest

-- Inside of brackets the scan stops nowhere.
theorem parseList_passes (hts : ∀ x ∈ ts, x = ';' ∨ x = ',') (hst : ∀ x ∈ e :: st, isClosing x)
    (hr : parseList fuel (some e) offset p = some r) (hv : r.valid)
    (hh : st.length + 1 + nesting r.components ≤ stackMax) : Passes ts (e :: st) st r.length p := by
  induction fuel generalizing e st offset p r
  case zero => cases hr
  case succ fuel hind =>
    cases p
    case nil =>
      cases hr
      exact (passes_zero []).of_end (Nat.le_refl _)
    case cons c cs =>
      cases parseList_cons hr
      case comment n r hc hn hr' => exact (hn ▸ passes_comment hc).trans (hind hst hr' hv hh)
      case closes hc he =>
        obtain rfl : e = c := Option.some.inj he
        have hclosing := hst e List.mem_cons_self
        have hne : closingOf e = none ∧ e ≠ '\\' ∧ e ≠ '"' ∧ e ≠ '\'' := by
          rcases eq_of_isClosing hclosing with rfl | rfl | rfl
          all_goals decide
        obtain ⟨hnone, hescape, hquote⟩ := hne
        have hp : Passes ts (e :: st) (scanStack (e :: st) e) 1 (e :: cs) :=
          passes_char hc (.inl hescape) hquote fun h => by cases h
        have hstack : scanStack (e :: st) e = st := by
          rw [scanStack, hnone]
          exact if_pos rfl
        rwa [hstack] at hp
      case invalid hv' =>
        rw [hv'] at hv
        cases hv
      case component t inner r hc he ht hn hi hr' =>
        obtain ⟨⟨htv, hiv⟩, hrv⟩ : (t.valid = true ∧ inner.valid = true) ∧ r.valid = true := by
          simpa [Parsed.after] using hv
        have hreads : t.Reads offset (c :: cs) := ht ▸ consume_reads offset c cs
        obtain ⟨hin, hout⟩ := nesting_node hreads rfl hh
        refine (passes_component hts hst hc he ht hn htv (fun h => by cases h) (fun h => ?_) fun d hd => ?_).trans
          (hind hst hr' hrv hout)
        · have hle := hin h
          rw [List.length_cons]
          omega
        · have hle := hin (Option.isSome_of_mem hd)
          refine hind (forall_isClosing_cons (hreads.ends d hd) hst) (hi d hd) hiv ?_
          rw [List.length_cons]
          omega

theorem scanLoop_delimiter (h : IsDelimiter d type) : scanLoop [d] 0 none [] (d :: cs) = (0, d) := by
  cases h
  all_goals
    rw [scanLoop, if_neg (by simp), if_neg (by simp), if_neg (by decide), if_pos (by decide)]

theorem parseList_first (h : IsDelimiter d type) (hr : parseList fuel none offset p = some r) (hv : r.valid)
    (hnul : '\x00' ∉ p) (hh : nesting r.components ≤ stackMax) :
    offset + (scanLoop [d] 0 none [] p).1 =
      ((firstOfType type r.components).map (·.start)).getD (offset + p.length) := by
  have hts : ∀ x ∈ [d], x = ';' ∨ x = ',' := by
    intro x hx
    obtain rfl := List.mem_singleton.mp hx
    cases h
    · exact .inl rfl
    · exact .inr rfl
  have hst : ∀ x ∈ ([] : List Char), isClosing x := by simp
  -- What is passed over does not matter.
  have hskip {offset n : Nat} {p : CString} {f : Forest Component} (hp : Passes [d] [] [] n p) (hn : n ≤ p.length)
      (hi : offset + n + (scanLoop [d] 0 none [] (p.drop n)).1 =
        ((firstOfType type f).map (·.start)).getD (offset + n + (p.drop n).length)) :
      offset + (scanLoop [d] 0 none [] p).1 = ((firstOfType type f).map (·.start)).getD (offset + p.length) := by
    rw [List.length_drop, Nat.add_assoc, Nat.add_assoc, Nat.add_sub_cancel' hn] at hi
    rw [hp, ← hi]
    rfl
  induction fuel generalizing offset p r
  case zero => cases hr
  case succ fuel hind =>
    cases p
    case nil =>
      cases hr
      rw [scanLoop_nil]
      rfl
    case cons c cs =>
      have hnul' (n : Nat) : '\x00' ∉ (c :: cs).drop n := fun hm => hnul (List.mem_of_mem_drop hm)
      cases parseList_cons hr
      case comment n r hc hn hr' =>
        have hle : n ≤ (c :: cs).length := hn ▸ Nat.sub_le _ _
        exact hskip (hn ▸ passes_comment hc) hle (hind (r := r) hr' hv (hnul' n) hh)
      case closes hc he => cases he
      case invalid hv' =>
        rw [hv'] at hv
        cases hv
      case component t inner r hc he ht hn hi hr' =>
        obtain ⟨⟨htv, hiv⟩, hrv⟩ : (t.valid = true ∧ inner.valid = true) ∧ r.valid = true := by
          simpa [Parsed.after] using hv
        have hreads : t.Reads offset (c :: cs) := ht ▸ consume_reads offset c cs
        obtain ⟨hin, hout⟩ := nesting_node hreads rfl ((Nat.zero_add _).trans_le hh)
        rw [Nat.zero_add] at hout
        by_cases hcd : c = d
        case pos =>
          subst hcd
          have htype : t.component.type = type := ht ▸ (consume_type h).mpr rfl
          rw [scanLoop_delimiter h, firstOfType, Forest.tops, List.find?_cons_of_pos (by simpa using htype)]
          exact hreads.start.symm
        case neg =>
          have htype : t.component.type ≠ type := fun he => hcd ((consume_type h).mp (ht ▸ he))
          have hpass : Passes [d] [] [] (t.length + inner.length) (c :: cs) := by
            refine passes_component hts hst hc he ht hn htv (fun _ => ⟨?_, ?_⟩) (fun _ => by decide) fun e hd => ?_
            · exact fun hm => hcd (List.mem_singleton.mp hm)
            · exact fun he => hnul (he ▸ List.mem_cons_self)
            · have hle := hin (Option.isSome_of_mem hd)
              refine parseList_passes hts (forall_isClosing_cons (hreads.ends e hd) hst) (hi e hd) hiv ?_
              rw [List.length_nil]
              omega
          rw [firstOfType, Forest.tops, List.find?_cons_of_neg (by simpa using htype)]
          refine hskip hpass ?_ (hind hr' hrv (hnul' _) hout)
          exact length_component_le hreads hn fun e hd => parseList_length_le (hi e hd) hiv

theorem cssSyntaxScan_first {input : CString} (h : IsDelimiter d type)
    (hr : cssComponentValuesParse input = some r) (hv : r.valid) (hnul : '\x00' ∉ input)
    (hh : nesting r.components ≤ stackMax) :
    (cssSyntaxScan input [d]).1 = ((firstOfType type r.components).map (·.start)).getD input.length := by
  have hfirst := parseList_first h hr hv hnul hh
  rwa [Nat.zero_add, Nat.zero_add] at hfirst

theorem cssSyntaxScan_first_comma : ∃ r, cssComponentValuesParse "a(;),b;c".toList = some r ∧ r.valid ∧
    (cssSyntaxScan "a(;),b;c".toList [',']).1 = ((firstOfType .comma r.components).map (·.start)).getD 8 :=
  ⟨_, rfl, rfl, cssSyntaxScan_first .comma rfl rfl (by decide) (by decide)⟩

-- So many brackets that the stack has no room for the last one, which a semicolon is in.
def tooDeep : CString :=
  List.replicate (stackMax + 1) '(' ++ List.replicate stackMax ')' ++ [';', ')']

theorem cssSyntaxScan_not_first :
    (¬∀ {input : CString} {r : Parsed} {d : Char} {type : ComponentType}, IsDelimiter d type →
      cssComponentValuesParse input = some r → r.valid → '\x00' ∉ input →
      (cssSyntaxScan input [d]).1 = ((firstOfType type r.components).map (·.start)).getD input.length) ∧
    ¬∀ {input : CString} {r : Parsed} {d : Char} {type : ComponentType}, IsDelimiter d type →
      cssComponentValuesParse input = some r → r.valid → nesting r.components ≤ stackMax →
      (cssSyntaxScan input [d]).1 = ((firstOfType type r.components).map (·.start)).getD input.length := by
  constructor
  · intro h
    have hp : (cssComponentValuesParse tooDeep).map (fun r =>
        (r.valid, ((firstOfType .semicolon r.components).map (·.start)).getD tooDeep.length)) = some (true, 259) := by
      decide +kernel
    obtain ⟨r, hr, hp⟩ := Option.map_eq_some_iff.mp hp
    obtain ⟨hv, hfirst⟩ := Prod.mk.inj hp
    have hscan : (cssSyntaxScan tooDeep [';']).1 = 257 := by decide +kernel
    have heq := h .semicolon hr hv (by decide +kernel)
    rw [hscan, hfirst] at heq
    cases heq
  · intro h
    have hp : (cssComponentValuesParse "\x00;".toList).map (fun r =>
        (r.valid, decide (nesting r.components ≤ stackMax),
          ((firstOfType .semicolon r.components).map (·.start)).getD "\x00;".toList.length)) =
        some (true, true, 1) := by decide +kernel
    obtain ⟨r, hr, hp⟩ := Option.map_eq_some_iff.mp hp
    obtain ⟨hv, hp⟩ := Prod.mk.inj hp
    obtain ⟨hn, hfirst⟩ := Prod.mk.inj hp
    have hscan : (cssSyntaxScan "\x00;".toList [';']).1 = 0 := by decide +kernel
    have heq := h .semicolon hr hv (of_decide_eq_true hn)
    rw [hscan, hfirst] at heq
    cases heq

end Parse

end Nordstjernen.Css.Syntax
