import Mathlib.Algebra.Field.Rat
import Mathlib.Data.List.DropRight
import Mathlib.Tactic.IntervalCases

namespace Nordstjernen.Js

section Trim

-- White space and line terminators.
def isWhiteSpace (c : Char) : Bool :=
  c ∈ ['\t', '\n', '\x0b', '\x0c', '\r', ' ', '\u00a0', '\u1680', '\u2028', '\u2029', '\u202f',
    '\u205f', '\u3000', '\ufeff'] || ('\u2000' ≤ c && c ≤ '\u200a')

def trimStart (s : List Char) : List Char :=
  s.dropWhile isWhiteSpace

def trim (s : List Char) : List Char :=
  (trimStart s).rdropWhile isWhiteSpace

end Trim

section Numbers

-- A sign at the front, and what follows.
def sign : List Char → Bool × List Char
  | '-' :: s => (true, s)
  | '+' :: s => (false, s)
  | s        => (false, s)

def digitsValue (s : List Char) : Nat :=
  Nat.ofDigitChars 10 s 0

-- `parseInt(s, 10)`, where `none` is `NaN`. The number is exact, as it is in JavaScript up to 2^53.
def parseInt (s : List Char) : Option Int :=
  let (negative, s) := sign (trimStart s)
  match s.takeWhile Char.isDigit with
  | [] => none
  | ds => some (if negative then -digitsValue ds else digitsValue ds)

-- The numbers of JavaScript without `NaN`, with no law but that a decimal below none is zero only as
-- `0`.
class Number (D : Type) extends Zero D, Add D where
  -- `± m * 10 ^ e`, rounded.
  ofDecimal : Bool → Nat → Int → D
  infinity  : Bool → D
  truthy    : D → Bool
  eq_zero (m : Nat) (e : Int) : truthy (ofDecimal false m e) = false → ofDecimal false m e = 0

-- The exact numbers, which have no `Infinity`.
instance : Number ℚ where
  toZero := MulZeroClass.toZero
  ofDecimal negative m e := (if negative then -(m : ℚ) else m) * 10 ^ e
  infinity _ := 0
  truthy x   := decide (x ≠ 0)
  eq_zero _ _ h := not_not.mp (of_decide_eq_false h)

variable {D : Type} [Number D]

-- `e`, a sign and digits.
def exponent : List Char → Int
  | c :: s =>
    if c = 'e' ∨ c = 'E' then
      let (negative, s) := sign s
      let e : Int := digitsValue (s.takeWhile Char.isDigit)
      if negative then -e else e
    else 0
  | [] => 0

-- The digits behind a point, if there is one, and what follows.
def fraction : List Char → List Char × List Char
  | '.' :: s => (s.takeWhile Char.isDigit, s.dropWhile Char.isDigit)
  | s        => ([], s)

-- `parseFloat(s)`, where `none` is `NaN`.
def parseFloat (s : List Char) : Option D :=
  let (negative, s) := sign (trimStart s)
  if "Infinity".toList.isPrefixOf s then some (Number.infinity negative)
  else
    let whole := s.takeWhile Char.isDigit
    let (frac, s) := fraction (s.dropWhile Char.isDigit)
    if whole = [] ∧ frac = [] then none
    else some (Number.ofDecimal negative (digitsValue (whole ++ frac)) (exponent s - frac.length))

-- `x || 0`
def orZero (x : Option D) : D :=
  match x with
  | some x => if Number.truthy x then x else 0
  | none   => 0

-- A number as a text.
def numberText : Option Int → List Char
  | none   => "NaN".toList
  | some n => if n < 0 then '-' :: Nat.toDigits 10 n.natAbs else Nat.toDigits 10 n.natAbs

end Numbers

section Lemmas

variable {c : Char} {s a b : List Char}

theorem not_isWhiteSpace_of_isDigit (h : c.isDigit) : isWhiteSpace c = false := by
  have hn : 48 ≤ c.toNat ∧ c.toNat ≤ 57 := by
    simpa [Char.isDigit, UInt32.le_iff_toNat_le] using h
  have hc : c = Char.ofNat c.toNat := (Char.ofNat_toNat c).symm
  rw [hc]
  obtain ⟨h₁, h₂⟩ := hn
  generalize c.toNat = n at h₁ h₂
  interval_cases n <;> rfl

theorem not_isWhiteSpace_of_any (h : s.any isWhiteSpace = false) : ∀ c ∈ s, isWhiteSpace c = false :=
  fun c hc => by simpa using List.any_eq_false.mp h c hc

theorem trimStart_of_head (h : ∀ c ∈ s.head?, isWhiteSpace c = false) : trimStart s = s := by
  cases s
  case nil  => rfl
  case cons => exact List.dropWhile_cons_of_neg (by simp [h _ rfl])

-- Trimming stops at a character that is no white space, from the end too.
theorem trim_append_cons (h : ∀ d ∈ (a ++ c :: b).head?, isWhiteSpace d = false)
    (hc : isWhiteSpace c = false) : trim (a ++ c :: b) = a ++ c :: b.rdropWhile isWhiteSpace := by
  rw [trim, trimStart_of_head h, List.rdropWhile, List.rdropWhile, List.reverse_append,
    List.reverse_cons, List.append_assoc, List.singleton_append, List.dropWhile_append]
  split
  case isTrue hb =>
    rw [List.isEmpty_iff.mp hb, List.dropWhile_cons_of_neg (by simp [hc])]
    simp
  case isFalse => simp

theorem trim_eq_self (h : ∀ c ∈ s, isWhiteSpace c = false) : trim s = s := by
  have hd : s.reverse.dropWhile isWhiteSpace = s.reverse := by
    cases hs : s.reverse
    case nil => rfl
    case cons c tl =>
      have hc : c ∈ s := List.mem_reverse.mp (hs ▸ List.mem_cons_self)
      exact List.dropWhile_cons_of_neg (by simp [h c hc])
  rw [trim, trimStart_of_head (fun c hc => h c (List.mem_of_mem_head? hc)), List.rdropWhile, hd,
    List.reverse_reverse]

theorem takeWhile_isDigit_append (h : ∀ c ∈ s, c.isDigit = true)
    (hb : ∀ c ∈ b.head?, c.isDigit = false) : (s ++ b).takeWhile Char.isDigit = s := by
  rw [List.takeWhile_append_of_pos h]
  cases b
  case nil  => simp
  case cons => rw [List.takeWhile_cons_of_neg (by simp [hb _ rfl]), List.append_nil]

theorem dropWhile_isDigit_append (h : ∀ c ∈ s, c.isDigit = true)
    (hb : ∀ c ∈ b.head?, c.isDigit = false) : (s ++ b).dropWhile Char.isDigit = b := by
  rw [List.dropWhile_append_of_pos h]
  cases b
  case nil  => rfl
  case cons => exact List.dropWhile_cons_of_neg (by simp [hb _ rfl])

-- A digit or a point.
def StartsNumber (s : List Char) : Prop :=
  ∀ c ∈ s.head?, c.isDigit = true ∨ c = '.'

theorem StartsNumber.trimStart (h : StartsNumber s) : trimStart s = s := by
  refine trimStart_of_head fun c hc => ?_
  rcases h c hc with h | rfl
  · exact not_isWhiteSpace_of_isDigit h
  · rfl

theorem StartsNumber.sign (h : StartsNumber s) : sign s = (false, s) := by
  fun_cases Js.sign s
  case case1 => exact absurd (h _ rfl) (by decide)
  case case2 => exact absurd (h _ rfl) (by decide)
  case case3 => rfl

theorem StartsNumber.not_isPrefixOf (h : StartsNumber s) :
    "Infinity".toList.isPrefixOf s = false := by
  cases s
  case nil => rfl
  case cons c s =>
    have hc : c ≠ 'I' := by
      rintro rfl
      exact absurd (h _ rfl) (by decide)
    have hb : ('I' == c) = false := beq_false_of_ne hc.symm
    have hl : "Infinity".toList = 'I' :: "nfinity".toList := rfl
    rw [hl, List.isPrefixOf, hb, Bool.false_and]

theorem parseInt_digits (hs : s ≠ []) (h : ∀ c ∈ s, c.isDigit = true) :
    parseInt s = some (digitsValue s : Int) := by
  have hh : StartsNumber s := fun c hc => .inl (h c (List.mem_of_mem_head? hc))
  rw [parseInt, hh.trimStart, hh.sign]
  have ht := takeWhile_isDigit_append (b := []) h (by simp)
  rw [List.append_nil] at ht
  obtain ⟨c, tl, rfl⟩ := List.exists_cons_of_ne_nil hs
  simp only [ht]
  rfl

-- What a decimal begins with: digits, then maybe a point and digits, then something else.
theorem parseFloat_append {D : Type} [Number D] {f : List Char} (hs : ∀ c ∈ s, c.isDigit = true)
    (hh : StartsNumber (s ++ a)) (ha : ∀ c ∈ a.head?, c.isDigit = false)
    (hf : fraction a = (f, b)) (hn : s ++ f ≠ []) (he : exponent b = 0) :
    parseFloat (D := D) (s ++ a) = some (Number.ofDecimal false (digitsValue (s ++ f)) (-f.length)) := by
  have hn : ¬ (s = [] ∧ f = []) := fun ⟨h₁, h₂⟩ => hn (by rw [h₁, h₂]; rfl)
  rw [parseFloat, hh.trimStart, hh.sign]
  simp only [hh.not_isPrefixOf, takeWhile_isDigit_append hs ha, dropWhile_isDigit_append hs ha, hf, hn,
    he, if_false, Bool.false_eq_true]
  rw [zero_sub]

theorem orZero_ofDecimal {D : Type} [Number D] (m : Nat) (e : Int) :
    orZero (some (Number.ofDecimal false m e)) = (Number.ofDecimal false m e : D) := by
  rw [orZero]
  split
  case isTrue    => rfl
  case isFalse h => exact (Number.eq_zero m e (Bool.not_eq_true _ ▸ h)).symm

theorem numberText_natCast (n : Nat) : numberText (some (n : Int)) = Nat.toDigits 10 n := by
  rw [numberText, if_neg (by omega), Int.natAbs_natCast]

end Lemmas

end Nordstjernen.Js
