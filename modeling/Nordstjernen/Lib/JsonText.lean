import Mathlib.Data.List.Basic

namespace Nordstjernen.Lib.JsonText

-- The texts of JSON as a grammar. What counts as a string and as a number in it is left open.

structure Lexemes where
  isString : List Char → Prop
  isNumber : List Char → Prop

def isBlank (c : Char) : Bool :=
  c == ' ' || c == '\t' || c == '\n' || c == '\r'

abbrev Blank (w : List Char) : Prop :=
  ∀ c ∈ w, isBlank c

def literals : List (List Char) :=
  [['t', 'r', 'u', 'e'], ['f', 'a', 'l', 's', 'e'], ['n', 'u', 'l', 'l']]

-- The characters of a text that are neither blank nor in a string or a number.
def structural : List Char :=
  ['[', ']', '{', '}', ':', ',', 't', 'r', 'u', 'e', 'f', 'a', 'l', 's', 'n']

def opens (object : Bool) : Char :=
  if object then '{' else '['

def closes (object : Bool) : Char :=
  if object then '}' else ']'

-- A value, or what stands between the brackets of an array or an object.
inductive Part
  | value
  | row (object : Bool)

section Grammar

variable (L : Lexemes)

-- What is in front of a value of a row.
inductive IsKey : Bool → List Char → Prop
  | array : IsKey false []
  | object {s w} : L.isString s → Blank w → IsKey true (s ++ (w ++ [':']))

-- The values that are nested at most so deep.
inductive Derives : Part → Nat → List Char → Prop
  | string {n s} : L.isString s → Derives .value n s
  | number {n s} : L.isNumber s → Derives .value n s
  | literal {n s} : s ∈ literals → Derives .value n s
  | empty {n w} (object : Bool) : Blank w → Derives .value n (opens object :: (w ++ [closes object]))
  | full {n t} (object : Bool) : Derives (.row object) n t →
    Derives .value (n + 1) (opens object :: (t ++ [closes object]))
  | last {n w₁ key w₂ v w₃} {object : Bool} : Blank w₁ → IsKey L object key → Blank w₂ → Derives .value n v →
    Blank w₃ → Derives (.row object) n (w₁ ++ (key ++ (w₂ ++ (v ++ w₃))))
  | more {n w₁ key w₂ v w₃ t} {object : Bool} : Blank w₁ → IsKey L object key → Blank w₂ → Derives .value n v →
    Blank w₃ → Derives (.row object) n t →
    Derives (.row object) n (w₁ ++ (key ++ (w₂ ++ (v ++ (w₃ ++ ',' :: t)))))

def IsText (s : List Char) : Prop :=
  ∃ w v w' n, Blank w ∧ Derives L .value n v ∧ Blank w' ∧ s = w ++ (v ++ w')

-- Whether a value is at the beginning of a text.
def Begins (s : List Char) : Prop :=
  ∃ w v r n, Blank w ∧ Derives L .value n v ∧ s = w ++ (v ++ r)

variable {L} {L' : Lexemes}

theorem IsKey.mono (hs : ∀ {s}, L.isString s → L'.isString s) {object : Bool} {key : List Char}
    (h : IsKey L object key) : IsKey L' object key := by
  cases h
  case array        => exact .array
  case object hk hw => exact .object (hs hk) hw

theorem Derives.mono (hs : ∀ {s}, L.isString s → L'.isString s) (hn : ∀ {s}, L.isNumber s → L'.isNumber s)
    {p : Part} {n : Nat} {t : List Char} (h : Derives L p n t) : Derives L' p n t := by
  induction h
  case string h                  => exact .string (hs h)
  case number h                  => exact .number (hn h)
  case literal h                 => exact .literal h
  case empty object h            => exact .empty object h
  case full object _ hi          => exact .full object hi
  case last h₁ hk h₂ _ h₃ hi     => exact .last h₁ (hk.mono hs) h₂ hi h₃
  case more h₁ hk h₂ _ h₃ _ hi ht => exact .more h₁ (hk.mono hs) h₂ hi h₃ ht

-- Blanks may be put in front of a row.
theorem Derives.blank {object : Bool} {n : Nat} {w t : List Char} (h : Derives L (.row object) n t)
    (hw : Blank w) : Derives L (.row object) n (w ++ t) := by
  have hblank {w' : List Char} (hw' : Blank w') : Blank (w ++ w') := fun c hc =>
    (List.mem_append.mp hc).elim (hw c) (hw' c)
  cases h
  case last h₁ h₂ h₃ hk hv =>
    rw [← List.append_assoc]
    exact .last (hblank h₁) hk h₂ hv h₃
  case more h₁ h₂ h₃ hk hv ht =>
    rw [← List.append_assoc]
    exact .more (hblank h₁) hk h₂ hv h₃ ht

theorem IsKey.all {P : Char → Prop} (hlex : ∀ {s}, L.isString s ∨ L.isNumber s → ∀ c ∈ s, P c)
    (hrest : ∀ c, isBlank c ∨ c ∈ structural → P c) {object : Bool} {key : List Char} (h : IsKey L object key) :
    ∀ c ∈ key, P c := by
  cases h
  case array => exact fun c hc => absurd hc List.not_mem_nil
  case object hs hw =>
    intro c hc
    rcases List.mem_append.mp hc with hc | hc
    · exact hlex (.inl hs) c hc
    · rcases List.mem_append.mp hc with hc | hc
      · exact hrest c (.inl (hw c hc))
      · exact hrest c (.inr (by rw [List.mem_singleton.mp hc]; decide))

-- The characters of a text are those of its strings, its numbers and the syntax.
theorem Derives.all {P : Char → Prop} (hlex : ∀ {s}, L.isString s ∨ L.isNumber s → ∀ c ∈ s, P c)
    (hrest : ∀ c, isBlank c ∨ c ∈ structural → P c) {p : Part} {n : Nat} {t : List Char} (h : Derives L p n t) :
    ∀ c ∈ t, P c := by
  have hblank {w : List Char} (hw : Blank w) (c : Char) (hc : c ∈ w) : P c := hrest c (.inl (hw c hc))
  have hopen (object : Bool) : P (opens object) := hrest _ (.inr (by cases object <;> decide))
  have hclose (object : Bool) : P (closes object) := hrest _ (.inr (by cases object <;> decide))
  induction h
  case string h  => exact hlex (.inl h)
  case number h  => exact hlex (.inr h)
  case literal s h =>
    have hall : ∀ s ∈ literals, ∀ c ∈ s, c ∈ structural := by decide
    exact fun c hc => hrest c (.inr (hall s h c hc))
  case empty object hw =>
    simp only [List.forall_mem_cons, List.forall_mem_append]
    exact ⟨hopen object, hblank hw, hclose object, fun c hc => absurd hc List.not_mem_nil⟩
  case full object _ hi =>
    simp only [List.forall_mem_cons, List.forall_mem_append]
    exact ⟨hopen object, hi, hclose object, fun c hc => absurd hc List.not_mem_nil⟩
  case last h₁ hk h₂ _ h₃ hi =>
    simp only [List.forall_mem_append]
    exact ⟨hblank h₁, hk.all hlex hrest, hblank h₂, hi, hblank h₃⟩
  case more h₁ hk h₂ _ h₃ _ hi ht =>
    simp only [List.forall_mem_append, List.forall_mem_cons]
    exact ⟨hblank h₁, hk.all hlex hrest, hblank h₂, hi, hblank h₃, hrest ',' (.inr (by decide)), ht⟩

end Grammar

-- Where in a text one is, as far as strings are concerned.
inductive Lex
  | outside
  | inString
  | escaped
deriving DecidableEq

namespace Lex

def step : Lex → Char → Lex
  | outside,  c => if c = '"' then inString else outside
  | inString, c => if c = '\\' then escaped else if c = '"' then outside else inString
  | escaped,  _ => inString

def after (l : Lex) (s : List Char) : Lex :=
  s.foldl step l

@[simp]
theorem after_nil (l : Lex) : l.after [] = l :=
  rfl

@[simp]
theorem after_cons (l : Lex) (c : Char) (s : List Char) : l.after (c :: s) = (l.step c).after s :=
  rfl

@[simp]
theorem after_append (l : Lex) (s t : List Char) : l.after (s ++ t) = (l.after s).after t :=
  List.foldl_append

end Lex

-- A text without the blanks outside of its strings.
def compact : Lex → List Char → List Char
  | _, []      => []
  | l, c :: cs => (if l = .outside ∧ isBlank c then [] else [c]) ++ compact (l.step c) cs

theorem compact_append {l : Lex} {s t : List Char} :
    compact l (s ++ t) = compact l s ++ compact (l.after s) t := by
  induction s generalizing l
  case nil => rfl
  case cons c s hi => rw [List.cons_append, compact, compact, hi, List.append_assoc, Lex.after_cons]

-- Whether the brackets outside of the strings are nested at most so deep, where some are open.
def Within (limit : Nat) : Lex → Nat → List Char → Prop
  | _, _, []      => True
  | l, d, c :: cs =>
    if l = .outside ∧ (c = '[' ∨ c = '{') then d < limit ∧ Within limit (l.step c) (d + 1) cs
    else if l = .outside ∧ (c = ']' ∨ c = '}') then Within limit (l.step c) (d - 1) cs
    else Within limit (l.step c) d cs

def NestedAtMost (limit : Nat) (s : List Char) : Prop :=
  Within limit .outside 0 s

section Nesting

variable {limit d : Nat} {l : Lex} {c : Char} {s t r : List Char}

-- A text with no brackets and no part of a string.
def Plain (s : List Char) : Prop :=
  ∀ c ∈ s, c ≠ '"' ∧ c ≠ '[' ∧ c ≠ '{' ∧ c ≠ ']' ∧ c ≠ '}'

-- A text that ends outside of strings and whose brackets are all in strings.
structure Atom (s : List Char) : Prop where
  after  : Lex.outside.after s = .outside
  within : ∀ {limit d r}, Within limit .outside d (s ++ r) ↔ Within limit .outside d r

theorem Plain.atom (h : Plain s) : Atom s := by
  induction s
  case nil => exact ⟨rfl, Iff.rfl⟩
  case cons c s hi =>
    obtain ⟨hq, h₁, h₂, h₃, h₄⟩ := h c List.mem_cons_self
    have hs := hi fun c hc => h c (List.mem_cons_of_mem _ hc)
    have hstep : Lex.outside.step c = .outside := if_neg hq
    constructor
    case after => rw [Lex.after_cons, hstep, hs.after]
    case within =>
      intro limit d r
      rw [List.cons_append, Within, hstep, if_neg fun h => h.right.elim h₁ h₂, if_neg fun h => h.right.elim h₃ h₄]
      exact hs.within

theorem Atom.append (hs : Atom s) (ht : Atom t) : Atom (s ++ t) where
  after  := by rw [Lex.after_append, hs.after, ht.after]
  within := by
    intro limit d r
    rw [List.append_assoc, hs.within, ht.within]

theorem Blank.plain (h : Blank s) : Plain s := by
  intro c hc
  have hb := h c hc
  refine ⟨?_, ?_, ?_, ?_, ?_⟩ <;> (rintro rfl; exact absurd hb (by decide))

theorem Blank.atom (h : Blank s) : Atom s :=
  h.plain.atom

theorem compact_blank (h : Blank s) : compact .outside s = [] := by
  induction s
  case nil => rfl
  case cons c s hi =>
    have hstep : Lex.outside.step c = .outside := if_neg (h.plain c List.mem_cons_self).left
    rw [compact, if_pos ⟨rfl, h c List.mem_cons_self⟩, hstep]
    exact hi fun c hc => h c (List.mem_cons_of_mem _ hc)

theorem literal_plain (h : s ∈ literals) : Plain s := by
  have hall : ∀ s ∈ literals, ∀ c ∈ s, c ≠ '"' ∧ c ≠ '[' ∧ c ≠ '{' ∧ c ≠ ']' ∧ c ≠ '}' := by decide
  exact hall s h

variable {L : Lexemes} (hL : ∀ {s}, L.isString s ∨ L.isNumber s → Atom s)
include hL

theorem IsKey.atom {object : Bool} (h : IsKey L object s) : Atom s := by
  cases h
  case array => exact ⟨rfl, Iff.rfl⟩
  case object hs hw =>
    have hcolon : Plain [':'] := fun c hc => by
      rw [List.mem_singleton.mp hc]
      decide
    exact (hL (.inl hs)).append (hw.atom.append hcolon.atom)

-- A value in a text whose brackets are nested at most so deep is nested no deeper.
theorem Derives.of_within {p : Part} {n : Nat} (h : Derives L p n s) (hw : Within limit .outside d (s ++ r)) :
    Derives L p (limit - d) s ∧ Within limit .outside d r := by
  have hopen (object : Bool) : opens object = '[' ∨ opens object = '{' := by cases object <;> decide
  have hnot (object : Bool) : ¬(closes object = '[' ∨ closes object = '{') := by cases object <;> decide
  have hclose (object : Bool) : closes object = ']' ∨ closes object = '}' := by cases object <;> decide
  have hstep₁ (object : Bool) : Lex.outside.step (opens object) = .outside := by cases object <;> rfl
  have hstep₂ (object : Bool) : Lex.outside.step (closes object) = .outside := by cases object <;> rfl
  have hend {object : Bool} {d : Nat} {r : List Char}
      (hw : Within limit .outside (d + 1) (closes object :: r)) : Within limit .outside d r := by
    rw [Within, if_neg fun h => hnot object h.right, if_pos ⟨rfl, hclose object⟩, hstep₂] at hw
    exact hw
  induction h generalizing d r
  case string h  => exact ⟨.string h, (hL (.inl h)).within.mp hw⟩
  case number h  => exact ⟨.number h, (hL (.inr h)).within.mp hw⟩
  case literal h => exact ⟨.literal h, (literal_plain h).atom.within.mp hw⟩
  case empty object h =>
    rw [List.cons_append, Within, if_pos ⟨rfl, hopen object⟩, hstep₁, List.append_assoc, h.atom.within] at hw
    exact ⟨.empty object h, hend hw.right⟩
  case full object _ hi =>
    rw [List.cons_append, Within, if_pos ⟨rfl, hopen object⟩, hstep₁, List.append_assoc] at hw
    obtain ⟨hd, hrest⟩ := hi hw.right
    have hlevel : limit - d = limit - (d + 1) + 1 := by omega
    rw [hlevel]
    exact ⟨.full object hd, hend hrest⟩
  case last h₁ hk h₂ _ h₃ hi =>
    simp only [List.append_assoc] at hw
    rw [h₁.atom.within, (hk.atom hL).within, h₂.atom.within] at hw
    obtain ⟨hd, hrest⟩ := hi hw
    exact ⟨.last h₁ hk h₂ hd h₃, h₃.atom.within.mp hrest⟩
  case more h₁ hk h₂ _ h₃ _ hi ht =>
    simp only [List.append_assoc, List.cons_append] at hw
    rw [h₁.atom.within, (hk.atom hL).within, h₂.atom.within] at hw
    obtain ⟨hd, hrest⟩ := hi hw
    have hcomma : Plain [','] := fun c hc => by
      rw [List.mem_singleton.mp hc]
      decide
    obtain ⟨ht, hrest⟩ := ht (hcomma.atom.within.mp (h₃.atom.within.mp hrest))
    exact ⟨.more h₁ hk h₂ hd h₃ ht, hrest⟩

end Nesting

section Strings

-- What follows the first quote of a string, up to the last one.
inductive Body (plain : Char → Prop) (escape : List Char → Prop) : List Char → Prop
  | close : Body plain escape ['"']
  | char {c t} : c ≠ '"' → c ≠ '\\' → plain c → Body plain escape t → Body plain escape (c :: t)
  | escape {e t} : escape e → Body plain escape t → Body plain escape ('\\' :: (e ++ t))

def IsHex (c : Char) : Prop :=
  c.isDigit ∨ 'a' ≤ c ∧ c ≤ 'f' ∨ 'A' ≤ c ∧ c ≤ 'F'

-- What may follow a backslash.
inductive IsEscape : List Char → Prop
  | char {c} : c ∈ ['"', '\\', '/', 'b', 'f', 'n', 'r', 't'] → IsEscape [c]
  | code {a b c d} : IsHex a → IsHex b → IsHex c → IsHex d → IsEscape ['u', a, b, c, d]

def Digits (s : List Char) : Prop :=
  s ≠ [] ∧ ∀ c ∈ s, c.isDigit

-- A number: a sign, an integer without a zero in front, a fraction and an exponent.
def IsNumber (s : List Char) : Prop :=
  ∃ sign int frac exp, s = sign ++ (int ++ (frac ++ exp)) ∧ sign ∈ [[], ['-']] ∧
    (int = ['0'] ∨ Digits int ∧ int.head? ≠ some '0') ∧
    (frac = [] ∨ ∃ ds, frac = '.' :: ds ∧ Digits ds) ∧
    (exp = [] ∨ ∃ e esign ds, exp = e :: (esign ++ ds) ∧ (e = 'e' ∨ e = 'E') ∧
      esign ∈ [[], ['+'], ['-']] ∧ Digits ds)

-- The strings and the numbers of JSON, in bytes: a byte that is not of ASCII belongs to a character.
def strict : Lexemes where
  isString s := ∃ t, s = '"' :: t ∧ Body (fun c => 0x20 ≤ c.toNat) IsEscape t
  isNumber   := IsNumber

-- Any character may follow a backslash, and any may stand in a string.
def LooseBody : List Char → Prop :=
  Body (fun _ => True) (·.length = 1)

variable {t : List Char}

theorem LooseBody.after (h : LooseBody t) : Lex.inString.after t = .outside := by
  induction h
  case close => rfl
  case char hq hb _ _ hi => rw [Lex.after_cons, Lex.step, if_neg hb, if_neg hq, hi]
  case escape he _ hi =>
    obtain ⟨c, rfl⟩ := List.length_eq_one_iff.mp he
    exact hi

theorem LooseBody.within (h : LooseBody t) {limit d : Nat} {r : List Char} :
    Within limit .inString d (t ++ r) ↔ Within limit .outside d r := by
  have hno {c : Char} {l : Lex} (hl : l ≠ .outside) {d : Nat} {s : List Char} :
      Within limit l d (c :: s) = Within limit (l.step c) d s := by
    rw [Within, if_neg fun h => hl h.left, if_neg fun h => hl h.left]
  induction h
  case close => exact Iff.of_eq (hno (by decide))
  case char hq hb _ _ hi =>
    rw [List.cons_append, hno (by decide), Lex.step, if_neg hb, if_neg hq]
    exact hi
  case escape he _ hi =>
    obtain ⟨c, rfl⟩ := List.length_eq_one_iff.mp he
    rw [List.cons_append, List.append_assoc, hno (by decide), List.singleton_append, hno (by decide)]
    exact hi

theorem LooseBody.atom (h : LooseBody t) : Atom ('"' :: t) where
  after  := h.after
  within := by
    intro limit d r
    rw [List.cons_append, Within, if_neg (by decide), if_neg (by decide)]
    exact h.within

theorem Body.loose {plain : Char → Prop} (h : Body plain IsEscape t) : LooseBody t := by
  induction h
  case close => exact .close
  case char hq hb _ _ hi => exact .char hq hb trivial hi
  case escape he _ hi =>
    cases he
    case char => exact .escape rfl hi
    case code ha hb hc hd =>
      have hne {c : Char} (h : IsHex c) : c ≠ '"' ∧ c ≠ '\\' := by
        constructor <;> (rintro rfl; revert h; unfold IsHex; decide)
      have hx {c : Char} {t : List Char} (h : IsHex c) (ht : LooseBody t) : LooseBody (c :: t) :=
        .char (hne h).left (hne h).right trivial ht
      exact .escape (e := ['u']) rfl (hx ha (hx hb (hx hc (hx hd hi))))

end Strings

end Nordstjernen.Lib.JsonText
