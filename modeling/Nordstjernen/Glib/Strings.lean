import Mathlib.Data.List.Basic
import Mathlib.Data.List.DropRight
import Mathlib.Data.List.TakeDrop

namespace Nordstjernen.Glib

-- A C string is the list of its bytes, each written as the character with that code.
abbrev CString := List Char

-- The characters of a text are looked at one by one, not all characters that there are.
instance (priority := 2000) decidableForallMem (p : Char → Prop) [DecidablePred p] (s : CString) :
    Decidable (∀ c ∈ s, p c) :=
  List.decidableBAll p s

-- What is read of some bytes as a C string, which ends at the first `\x00`.
def gStrndup (text : CString) : CString :=
  text.takeWhile (· != '\x00')

def gAsciiTolower (c : Char) : Char :=
  if c.isUpper then Char.ofNat (c.toNat + 32) else c

def gAsciiStrdown (s : CString) : CString :=
  s.map gAsciiTolower

-- The test `g_ascii_strcasecmp(a, b) == 0`.
def strcaseEq (a b : CString) : Bool :=
  gAsciiStrdown a == gAsciiStrdown b

-- The test `g_ascii_strncasecmp(s, p, strlen(p)) == 0`.
def hasCasePrefix (s p : CString) : Bool :=
  gAsciiStrdown (s.take p.length) == gAsciiStrdown p

def gStrHasPrefix (s p : CString) : Bool :=
  p.isPrefixOf s

-- Whether `strstr` finds the second string in the first one.
def strstr (s p : CString) : Bool :=
  s.tails.any (gStrHasPrefix · p)

def gAsciiIsspace (c : Char) : Bool :=
  c == ' ' || c == '\t' || c == '\n' || c == '\x0c' || c == '\r'

def gStrchomp (s : CString) : CString :=
  s.rdropWhile gAsciiIsspace

def gStrstrip (s : CString) : CString :=
  gStrchomp (s.dropWhile gAsciiIsspace)

def splitMax (d : Char) : Nat → CString → List CString
  | 0,     s => [s]
  | n + 1, s =>
    match s.span (· != d) with
    | (hd, [])      => [hd]
    | (hd, _ :: tl) => hd :: splitMax d n tl

-- `g_strsplit(s, d, max)` yields no token at all for the empty string, and at most `max` tokens
-- otherwise, the last of which keeps any further delimiters.
def gStrsplit (s : CString) (d : Char) (max : Nat) : List CString :=
  if s = [] then [] else splitMax d (max - 1) s

-- `g_strsplit(s, d, -1)`.
def gStrsplitAll (s : CString) (d : Char) : List CString :=
  if s = [] then [] else s.splitOn d

def int64Min : Int := -9223372036854775808

def int64Max : Int := 9223372036854775807

def InInt64 (n : Int) : Prop :=
  int64Min ≤ n ∧ n ≤ int64Max

instance : Decidable (InInt64 n) :=
  inferInstanceAs (Decidable (_ ∧ _))

-- Two's complement wrap-around of a 64 bit sum.
def wrapInt64 (n : Int) : Int :=
  n.bmod 18446744073709551616

def clampInt64 (n : Int) : Int :=
  max int64Min (min n int64Max)

def strtollIsspace (c : Char) : Bool :=
  gAsciiIsspace c || c == '\x0b'

def strtollDigits (s : CString) : Option Nat :=
  match s.takeWhile Char.isDigit with
  | []      => none
  | c :: cs => some (Nat.ofDigitChars 10 (c :: cs) 0)

-- `g_ascii_strtoll(s, &end, 10)`, which saturates at the limits of `gint64`. The result is `none`
-- when no digit was read, in which case the C function returns 0 and leaves `end` at `s`.
def gAsciiStrtoll? (s : CString) : Option Int :=
  match s.dropWhile strtollIsspace with
  | '-' :: tl => (strtollDigits tl).map fun n : Nat => clampInt64 (-(n : Int))
  | '+' :: tl => (strtollDigits tl).map fun n : Nat => clampInt64 (n : Int)
  | tl        => (strtollDigits tl).map fun n : Nat => clampInt64 (n : Int)

def gAsciiStrtoll (s : CString) : Int :=
  (gAsciiStrtoll? s).getD 0

-- The conversion `"%" G_GINT64_FORMAT`.
def formatInt64 (n : Int) : CString :=
  if n < 0 then '-' :: Nat.toDigits 10 n.natAbs else Nat.toDigits 10 n.natAbs

section Case

theorem gAsciiTolower_eq_iff {c d : Char} (h : d.isAlpha = false) : gAsciiTolower c = d ↔ c = d := by
  obtain ⟨hu, hl⟩ := Bool.or_eq_false_iff.mp h
  rw [gAsciiTolower]
  split
  case isFalse => rfl
  case isTrue hc =>
    have hr : 'A'.val ≤ c.val ∧ c.val ≤ 'Z'.val := of_decide_eq_true hc
    rw [UInt32.le_iff_toNat_le, UInt32.le_iff_toNat_le] at hr
    have h₁ : 65 ≤ c.toNat := hr.left
    have h₂ : c.toNat ≤ 90 := hr.right
    have hv : (c.toNat + 32).isValidChar := .inl (by omega)
    have ht : (Char.ofNat (c.toNat + 32)).toNat = c.toNat + 32 := by
      rw [Char.ofNat, dif_pos hv]
      rfl
    constructor <;> intro he
    case mp =>
      rw [he] at ht
      have h₃ : 97 ≤ d.toNat := by omega
      have h₄ : d.toNat ≤ 122 := by omega
      have hlow : d.isLower = true :=
        Bool.and_eq_true_iff.mpr ⟨decide_eq_true (UInt32.le_iff_toNat_le.mpr h₃),
          decide_eq_true (UInt32.le_iff_toNat_le.mpr h₄)⟩
      cases hl.symm.trans hlow
    case mpr =>
      rw [← he, hc] at hu
      cases hu

theorem strcaseEq_iff {a b : CString} : strcaseEq a b ↔ gAsciiStrdown a = gAsciiStrdown b := by
  simp [strcaseEq]

@[simp]
theorem strcaseEq_refl (a : CString) : strcaseEq a a := by
  simp [strcaseEq]

@[simp]
theorem gAsciiStrdown_append (a b : CString) :
    gAsciiStrdown (a ++ b) = gAsciiStrdown a ++ gAsciiStrdown b :=
  List.map_append

@[simp]
theorem length_gAsciiStrdown (a : CString) : (gAsciiStrdown a).length = a.length :=
  List.length_map _

end Case

section Split

variable {d : Char} {s t : CString}

theorem span_ne_append_cons (h : d ∉ s) : (s ++ d :: t).span (· != d) = (s, d :: t) := by
  simp only [List.span_eq_takeWhile_dropWhile]
  have hs : ∀ c ∈ s, (c != d) = true := fun c hc => by
    simpa using fun e : c = d => h (e ▸ hc)
  simp [List.takeWhile_append_of_pos hs, List.dropWhile_append_of_pos hs]

@[simp]
theorem splitMax_zero : splitMax d 0 s = [s] :=
  rfl

theorem splitMax_append_cons {n : Nat} (h : d ∉ s) :
    splitMax d (n + 1) (s ++ d :: t) = s :: splitMax d n t := by
  rw [splitMax, span_ne_append_cons h]

theorem splitMax_of_not_mem {n : Nat} (h : d ∉ s) : splitMax d n s = [s] := by
  cases n
  case zero   => rfl
  case succ n =>
    have hs : ∀ c ∈ s, (c != d) = true := fun c hc => by
      simpa using fun e : c = d => h (e ▸ hc)
    simp [splitMax, List.span_eq_takeWhile_dropWhile, List.dropWhile_eq_nil_iff.mpr hs,
      List.takeWhile_eq_self_iff.mpr hs]

theorem gStrsplitAll_append_cons (h : d ∉ s) :
    gStrsplitAll (s ++ d :: t) d = s :: t.splitOn d := by
  rw [gStrsplitAll, if_neg (by simp)]
  exact List.splitOn_append_cons_self_of_not_mem h t

theorem not_mem_of_mem_splitOn (h : t ∈ s.splitOn d) : d ∉ t := by
  induction s generalizing t
  case nil =>
    rw [List.splitOn_nil, List.mem_singleton] at h
    rw [h]
    exact List.not_mem_nil
  case cons c s hi =>
    rw [List.splitOn_cons_eq_if_modifyHead] at h
    split at h
    case isTrue =>
      rcases List.mem_cons.mp h with rfl | h
      · exact List.not_mem_nil
      · exact hi h
    case isFalse hc =>
      cases hs : s.splitOn d
      case nil => exact absurd hs (List.splitOn_ne_nil d s)
      case cons u us =>
        rw [hs, List.modifyHead_cons] at h
        rcases List.mem_cons.mp h with rfl | h
        · have hu := hi (hs ▸ List.mem_cons_self)
          exact List.not_mem_cons_of_ne_of_not_mem (fun he => hc (he ▸ beq_self_eq_true _)) hu
        · exact hi (hs ▸ List.mem_cons_of_mem _ h)

end Split

theorem gStrndup_eq_self {s : CString} (h : '\x00' ∉ s) : gStrndup s = s :=
  List.takeWhile_eq_self_iff.mpr fun c hc => by simpa using fun he : c = '\x00' => h (he ▸ hc)

section Chomp

theorem gStrchomp_append_of_isspace {s : CString} {c : Char} (h : gAsciiIsspace c) :
    gStrchomp (s ++ [c]) = gStrchomp s :=
  List.rdropWhile_concat_pos _ _ _ h

theorem gStrchomp_of_getLast {s : CString} {c : Char} (h : gAsciiIsspace c = false) :
    gStrchomp (s ++ [c]) = s ++ [c] :=
  List.rdropWhile_concat_neg _ _ _ (by simp [h])

theorem gStrstrip_cons {s : CString} {c : Char} (h : gAsciiIsspace c) : gStrstrip (c :: s) = gStrstrip s := by
  rw [gStrstrip, List.dropWhile_cons_of_pos h, gStrstrip]

-- What is taken off the ends of a text is blank.
theorem exists_gStrstrip (s : CString) : ∃ lead trail, s = lead ++ gStrstrip s ++ trail ∧
    (∀ c ∈ lead, gAsciiIsspace c) ∧ ∀ c ∈ trail, gAsciiIsspace c := by
  refine ⟨s.takeWhile gAsciiIsspace, (s.dropWhile gAsciiIsspace).rtakeWhile gAsciiIsspace, ?_,
    fun c hc => List.mem_takeWhile_imp hc, fun c hc => List.mem_rtakeWhile_imp hc⟩
  rw [gStrstrip, gStrchomp, List.append_assoc, List.rdropWhile_append_rtakeWhile,
    List.takeWhile_append_dropWhile]

theorem gStrstrip_append {lead s trail : CString} (hl : ∀ c ∈ lead, gAsciiIsspace c)
    (ht : ∀ c ∈ trail, gAsciiIsspace c) (hs : s ≠ []) (hh : ∀ c ∈ s.head?, gAsciiIsspace c = false)
    (he : ∀ c ∈ s.getLast?, gAsciiIsspace c = false) : gStrstrip (lead ++ s ++ trail) = s := by
  obtain ⟨c, s', rfl⟩ := List.exists_cons_of_ne_nil hs
  have hd : (lead ++ (c :: s') ++ trail).dropWhile gAsciiIsspace = (c :: s') ++ trail := by
    rw [List.append_assoc, List.dropWhile_append_of_pos hl, List.cons_append,
      List.dropWhile_cons_of_neg (by simp [hh c rfl])]
  have hlast := he ((c :: s').getLast (by simp)) (List.getLast?_eq_some_getLast _)
  rw [gStrstrip, gStrchomp, hd, List.rdropWhile, List.reverse_append,
    List.dropWhile_append_of_pos fun c hc => ht c (List.mem_reverse.mp hc), ← List.rdropWhile]
  exact List.rdropWhile_eq_self_iff.mpr fun _ => by simp [hlast]

theorem gStrstrip_eq_self {s : CString} (hh : ∀ c ∈ s.head?, gAsciiIsspace c = false)
    (he : ∀ c ∈ s.getLast?, gAsciiIsspace c = false) : gStrstrip s = s := by
  by_cases hs : s = []
  case pos => subst hs; rfl
  case neg =>
    have h := gStrstrip_append (List.forall_mem_nil (gAsciiIsspace ·)) (List.forall_mem_nil (gAsciiIsspace ·)) hs hh he
    rwa [List.nil_append, List.append_nil] at h

end Chomp

section Strtoll

theorem clampInt64_of_inInt64 {n : Int} (h : InInt64 n) : clampInt64 n = n := by
  have ⟨h₁, h₂⟩ := h
  rw [clampInt64, Int.min_eq_left h₂, Int.max_eq_right h₁]

theorem takeWhile_isDigit_toDigits (n : Nat) :
    (Nat.toDigits 10 n).takeWhile Char.isDigit = Nat.toDigits 10 n :=
  List.takeWhile_eq_self_iff.mpr fun _ h => Nat.isDigit_of_mem_toDigits (by omega) (by omega) h

theorem not_strtollIsspace_of_isDigit {c : Char} (h : c.isDigit) : strtollIsspace c = false := by
  have hc : 48 ≤ c.toNat := (Char.isDigit_iff_toNat.mp h).left
  have ne (d : Char) (hd : d.toNat < 48) : (c == d) = false := by
    simp only [beq_eq_false_iff_ne]
    rintro rfl
    omega
  simp only [strtollIsspace, gAsciiIsspace, Bool.or_eq_false_iff]
  exact ⟨⟨⟨⟨⟨ne _ (by decide), ne _ (by decide)⟩, ne _ (by decide)⟩, ne _ (by decide)⟩,
    ne _ (by decide)⟩, ne _ (by decide)⟩

theorem exists_digit_cons_toDigits (n : Nat) :
    ∃ c cs, Nat.toDigits 10 n = c :: cs ∧ c.isDigit := by
  obtain ⟨c, cs, hc⟩ := List.exists_cons_of_ne_nil (Nat.toDigits_ne_nil (n := n) (b := 10))
  exact ⟨c, cs, hc, Nat.isDigit_of_mem_toDigits (by omega) (by omega) (hc ▸ List.mem_cons_self)⟩

-- What stands behind a number in a text does not go on with it.
section Append

variable {t : CString} (h : t.takeWhile Char.isDigit = [])

include h

theorem takeWhile_toDigits_append (n : Nat) :
    (Nat.toDigits 10 n ++ t).takeWhile Char.isDigit = Nat.toDigits 10 n := by
  rw [List.takeWhile_append_of_pos (List.takeWhile_eq_self_iff.mp (takeWhile_isDigit_toDigits n)), h,
    List.append_nil]

theorem strtollDigits_append (n : Nat) : strtollDigits (Nat.toDigits 10 n ++ t) = some n := by
  rw [strtollDigits, takeWhile_toDigits_append h]
  cases hc : Nat.toDigits 10 n
  case nil       => exact absurd hc Nat.toDigits_ne_nil
  case cons c cs => simp [← hc, Nat.ofDigitChars_ten_toDigits]

theorem gAsciiStrtoll?_append (n : Int) : gAsciiStrtoll? (formatInt64 n ++ t) = some (clampInt64 n) := by
  rw [formatInt64]
  split
  case isTrue hn =>
    have hw : ¬strtollIsspace '-' := by decide
    have ha : -(n.natAbs : Int) = n := by omega
    rw [List.cons_append, gAsciiStrtoll?, List.dropWhile_cons_of_neg hw]
    simp only [strtollDigits_append h, Option.map_some, ha]
  case isFalse hn =>
    have ⟨c, cs, hc, hd⟩ := exists_digit_cons_toDigits n.natAbs
    have hw : ¬strtollIsspace c := by rw [not_strtollIsspace_of_isDigit hd]; decide
    have hs := strtollDigits_append h n.natAbs
    have ha : (n.natAbs : Int) = n := by omega
    rw [hc, List.cons_append] at hs ⊢
    rw [gAsciiStrtoll?, List.dropWhile_cons_of_neg hw]
    split
    case h_1 heq => exact absurd hd ((List.cons.inj heq).left ▸ by decide)
    case h_2 heq => exact absurd hd ((List.cons.inj heq).left ▸ by decide)
    case h_3     => rw [hs, Option.map_some, ha]

theorem gAsciiStrtoll_append (n : Int) : gAsciiStrtoll (formatInt64 n ++ t) = clampInt64 n := by
  rw [gAsciiStrtoll, gAsciiStrtoll?_append h, Option.getD_some]

end Append

theorem gAsciiStrtoll_formatInt64 {n : Int} (h : InInt64 n) :
    gAsciiStrtoll (formatInt64 n) = n := by
  have ha := gAsciiStrtoll_append (t := []) rfl n
  rwa [List.append_nil, clampInt64_of_inInt64 h] at ha

end Strtoll

end Nordstjernen.Glib
