import Nordstjernen.Ipc.Json

open Nordstjernen.Glib

namespace Nordstjernen.Ipc

def IsNameChar (c : Char) : Prop :=
  c.isAlphanum ∨ c = '_'

instance : Decidable (IsNameChar c) :=
  inferInstanceAs (Decidable (_ ∨ _))

theorem IsNameChar.ne {c : Char} (h : IsNameChar c) (d : Char) (hd : ¬IsNameChar d) : c ≠ d := by
  rintro rfl
  exact hd h

section Escape

variable {c : Char} {key s : CString}

theorem jsonEscapeChar_of_isNameChar (h : IsNameChar c) : jsonEscapeChar c = [c] := by
  have hc : ¬c.toNat < 0x20 := by
    rcases h with h | rfl
    · delta Char.isAlphanum Char.isAlpha Char.isUpper Char.isLower Char.isDigit at h
      simp only [Bool.or_eq_true, Bool.and_eq_true, decide_eq_true_eq, ge_iff_le, UInt32.le_iff_toNat_le] at h
      change ¬c.val.toNat < 0x20
      have h₁ : ('A'.val).toNat = 65 := rfl
      have h₂ : ('a'.val).toNat = 97 := rfl
      have h₃ : ('0'.val).toNat = 48 := rfl
      omega
    · decide
  have hq : ¬(c = '"' ∨ c = '\\') := by
    rw [not_or]
    exact ⟨h.ne _ (by decide), h.ne _ (by decide)⟩
  rw [jsonEscapeChar, if_neg hq, if_neg (h.ne _ (by decide)), if_neg (h.ne _ (by decide)),
    if_neg (h.ne _ (by decide)), if_neg hc]

-- What is no part of a name is written with a first character that is none either.
theorem exists_jsonEscapeChar_eq (h : ¬IsNameChar c) :
    ∃ a t, jsonEscapeChar c = a :: t ∧ a ≠ '"' ∧ ¬IsNameChar a := by
  have hb : '\\' ≠ '"' ∧ ¬IsNameChar '\\' := by decide
  rw [jsonEscapeChar]
  split
  case isTrue => exact ⟨_, _, rfl, hb⟩
  case isFalse hq =>
    repeat' split
    case isFalse => exact ⟨_, _, rfl, fun he => hq (.inl he), h⟩
    all_goals exact ⟨_, _, rfl, hb⟩

theorem not_mem_jsonEscapeChar (h : c ≠ '"') : '"' ∉ jsonEscapeChar c := by
  have hd (n : Nat) : '"' ≠ Nat.digitChar (n % 16) := by
    have hlt : n % 16 < 16 := Nat.mod_lt _ (by decide)
    generalize n % 16 = m at hlt
    revert m
    decide
  have hu : '"' ∉ '\\' :: 'u' :: hex4 c.toNat := by
    simp only [hex4, List.map_cons, List.map_nil, List.mem_cons, List.not_mem_nil, or_false, not_or]
    exact ⟨by decide, by decide, hd _, hd _, hd _, hd _⟩
  rw [jsonEscapeChar]
  split
  case isTrue hq =>
    obtain rfl := hq.resolve_left h
    decide
  case isFalse =>
    repeat' split
    case isFalse.isFalse.isFalse.isTrue  => exact hu
    case isFalse.isFalse.isFalse.isFalse => simpa using Ne.symm h
    all_goals decide

-- A name with its closing quotation mark begins a string only if it is the whole of it.
theorem prefix_escaped_iff (rest : CString) (hk : ∀ c ∈ key, IsNameChar c) :
    key ++ ['"'] <+: s.flatMap jsonEscapeChar ++ '"' :: rest ↔ s = key := by
  induction key generalizing s
  case nil =>
    cases s
    case nil       => simp
    case cons c cs =>
      by_cases hc : IsNameChar c
      case pos =>
        simp [jsonEscapeChar_of_isNameChar hc, Ne.symm (hc.ne '"' (by decide))]
      case neg =>
        have ⟨a, t, ha, hq, _⟩ := exists_jsonEscapeChar_eq hc
        simp [ha, Ne.symm hq]
  case cons k ks hi =>
    have hk' := hk k List.mem_cons_self
    cases s
    case nil       => simp [hk'.ne '"' (by decide)]
    case cons c cs =>
      by_cases hc : IsNameChar c
      case pos =>
        rw [List.flatMap_cons, jsonEscapeChar_of_isNameChar hc]
        simp only [List.cons_append, List.nil_append, List.cons_prefix_cons,
          hi fun c hc => hk c (List.mem_cons_of_mem _ hc), List.cons.injEq]
        exact and_congr_left fun _ => eq_comm
      case neg =>
        have ⟨a, t, ha, _, hn⟩ := exists_jsonEscapeChar_eq hc
        have h₁ : k ≠ a := by rintro rfl; exact hn hk'
        have h₂ : c ≠ k := by rintro rfl; exact hc hk'
        simp [ha, h₁, h₂]

end Escape

-- What stands behind a value.
def EndsValue (t : CString) : Prop :=
  ∃ c r, t = c :: r ∧ (c = ',' ∨ c = '}')

section Find

variable {key a b s t : CString} {c : Char}

theorem jsonFindValue_cons_of_ne (h : c ≠ '"') : jsonFindValue key (c :: t) = jsonFindValue key t := by
  rw [jsonFindValue, if_neg fun hc => h hc.left]

theorem jsonFindValue_append (h : '"' ∉ a) : jsonFindValue key (a ++ b) = jsonFindValue key b := by
  induction a
  case nil => rfl
  case cons c cs hi =>
    rw [List.mem_cons, not_or] at h
    rw [List.cons_append, jsonFindValue_cons_of_ne (Ne.symm h.left), hi h.right]

theorem jsonFindValue_quote (key t : CString) :
    jsonFindValue key ('"' :: t) =
      if key ++ ['"'] <+: t then some ((t.drop (key.length + 1)).dropWhile fun q => q == ' ' || q == ':')
      else jsonFindValue key t := by
  rw [jsonFindValue]
  simp only [gStrHasPrefix, List.isPrefixOf_iff_prefix, true_and]

theorem dropWhile_endsValue (h : EndsValue t) : (t.dropWhile fun q => q == ' ' || q == ':') = t := by
  obtain ⟨_, _, rfl, rfl | rfl⟩ := h <;> rfl

theorem jsonFindValue_closing (hk : IsName key) (h : EndsValue t) :
    jsonFindValue key ('"' :: t) = jsonFindValue key t := by
  obtain ⟨k, ks, rfl⟩ := List.exists_cons_of_ne_nil hk.left
  have hn : IsNameChar k := hk.right k List.mem_cons_self
  have hp : ¬(k :: ks ++ ['"'] <+: t) := by
    obtain ⟨_, _, rfl, rfl | rfl⟩ := h
    · simp [hn.ne ',' (by decide)]
    · simp [hn.ne '}' (by decide)]
  rw [jsonFindValue_quote, if_neg hp]

theorem flatMap_jsonEscapeChar (hk : ∀ c ∈ key, IsNameChar c) : key.flatMap jsonEscapeChar = key := by
  induction key
  case nil => rfl
  case cons c cs hi =>
    rw [List.flatMap_cons, jsonEscapeChar_of_isNameChar (hk c List.mem_cons_self),
      hi fun c hc => hk c (List.mem_cons_of_mem _ hc), List.singleton_append]

-- The opening quotation mark of a string, or one in it with what follows it there.
theorem jsonFindValue_inside (hk : IsName key) (h : EndsValue t) :
    jsonFindValue key ('"' :: (s.flatMap jsonEscapeChar ++ '"' :: t)) =
      if s = key then some t else jsonFindValue key (s.flatMap jsonEscapeChar ++ '"' :: t) := by
  rw [jsonFindValue_quote]
  simp only [prefix_escaped_iff _ hk.right]
  split
  case isFalse => rfl
  case isTrue he =>
    have hd : (key ++ '"' :: t).drop (key.length + 1) = t := by
      simp
    rw [he, flatMap_jsonEscapeChar hk.right, hd, dropWhile_endsValue h]

theorem jsonFindValue_escaped (hk : IsName key) (h : EndsValue t) :
    jsonFindValue key (s.flatMap jsonEscapeChar ++ '"' :: t) =
      if '"' :: key <:+ s then some t else jsonFindValue key t := by
  induction s
  case nil =>
    rw [if_neg (by simp)]
    exact jsonFindValue_closing hk h
  case cons c cs hi =>
    rw [List.flatMap_cons, List.append_assoc]
    by_cases hc : c = '"'
    case pos =>
      have he : '"' :: key = c :: cs ↔ cs = key := by simp [hc, eq_comm]
      have hq : jsonEscapeChar c = ['\\', '"'] := by rw [hc]; rfl
      rw [hq, List.cons_append, jsonFindValue_cons_of_ne (by decide), List.cons_append, List.nil_append,
        jsonFindValue_inside hk h, hi]
      simp only [List.suffix_cons_iff, he]
      by_cases hcs : cs = key
      case pos => rw [if_pos hcs, if_pos (.inl hcs)]
      case neg => simp [hcs]
    case neg =>
      have he : '"' :: key ≠ c :: cs := fun he => hc (List.cons.inj he).left.symm
      rw [jsonFindValue_append (not_mem_jsonEscapeChar hc), hi]
      simp only [List.suffix_cons_iff, he, false_or]

end Find

theorem not_mem_toDigits {c : Char} (h : ¬c.isDigit) (n : Nat) : c ∉ Nat.toDigits 10 n :=
  fun hc => h (Nat.isDigit_of_mem_toDigits (by omega) (by omega) hc)

namespace JsonValue

-- A value in front of the one that is sought which is taken for its name.
def Hides (key : CString) : JsonValue → Prop
  | string s  => s.length ≤ maxEscaped ∧ (s = key ∨ '"' :: key <:+ s)
  | number _  => False
  | whole _ _ => False

-- A value that its accessor's type has, and that is short enough to be escaped.
def Fits : JsonValue → Prop
  | string s  => s.length ≤ maxEscaped
  | number n  => InInt64 n
  | whole _ _ => True

-- What the accessor yields where it finds no value of its type.
def IsMissing : JsonValue → Prop
  | string _  => False
  | number n  => n = 0
  | whole n _ => n = 0

variable (v : JsonValue) {key t : CString}

instance : Decidable (v.Hides key) :=
  match v with
  | string _  => inferInstanceAs (Decidable (_ ∧ _))
  | number _  => inferInstanceAs (Decidable False)
  | whole _ _ => inferInstanceAs (Decidable False)

theorem jsonFindValue_string {s : CString} (hk : IsName key) (h : EndsValue t) :
    jsonFindValue key ((string s).text ++ t) =
      if s.length ≤ maxEscaped ∧ (s = key ∨ '"' :: key <:+ s) then some t else jsonFindValue key t := by
  rw [text, written, jsonEscape]
  split
  case isTrue hs =>
    have hn : ¬(s.length ≤ maxEscaped ∧ (s = key ∨ '"' :: key <:+ s)) := fun hc => by omega
    have he := jsonFindValue_inside (s := []) hk h
    rw [if_neg hk.left.symm, List.flatMap_nil, List.nil_append] at he
    rw [if_neg hn, Option.getD_none]
    exact he.trans (jsonFindValue_closing hk h)
  case isFalse hs =>
    have hle : s.length ≤ maxEscaped := by omega
    simp only [Option.getD_some, List.cons_append, List.append_assoc, List.nil_append,
      jsonFindValue_inside hk h, jsonFindValue_escaped hk h, hle, true_and]
    by_cases he : s = key
    case pos => rw [if_pos he, if_pos (.inl he)]
    case neg => simp only [he, if_false, false_or]

theorem jsonFindValue_text (hk : IsName key) (h : EndsValue t) :
    jsonFindValue key (v.text ++ t) = if v.Hides key then some t else jsonFindValue key t := by
  cases v
  case string s  => exact jsonFindValue_string hk h
  case number n =>
    have hq : '"' ∉ formatInt64 n := by
      rw [formatInt64]
      split
      · rw [List.mem_cons, not_or]
        exact ⟨by decide, not_mem_toDigits (by decide) _⟩
      · exact not_mem_toDigits (by decide) _
    exact (jsonFindValue_append hq).trans (if_neg id).symm
  case whole n _ =>
    have hq : '"' ∉ Nat.toDigits 10 n ++ ".000000".toList := by
      rw [List.mem_append, not_or]
      exact ⟨not_mem_toDigits (by decide) _, by decide⟩
    exact (jsonFindValue_append hq).trans (if_neg id).symm

-- A value begins with none of what stands between a name and its value.
theorem dropWhile_text : ((v.text ++ t).dropWhile fun q => q == ' ' || q == ':') = v.text ++ t := by
  have hd (n : Nat) (r : CString) :
      ((Nat.toDigits 10 n ++ r).dropWhile fun q => q == ' ' || q == ':') = Nat.toDigits 10 n ++ r := by
    have ⟨c, cs, hc, hd⟩ := exists_digit_cons_toDigits n
    have h₁ : c ≠ ' ' := by rintro rfl; cases hd
    have h₂ : c ≠ ':' := by rintro rfl; cases hd
    rw [hc, List.cons_append, List.dropWhile_cons_of_neg (by simp [h₁, h₂])]
  cases v
  case string s => rfl
  case number n =>
    rw [text, formatInt64]
    split
    · rfl
    · exact hd _ _
  case whole n _ =>
    rw [text, List.append_assoc]
    exact hd _ _

end JsonValue

theorem jsonFindValue_field {key t : CString} {f : JsonField} (hk : IsName key) (hf : IsName f.name) :
    jsonFindValue key (f.text ++ t) =
      if f.name = key then some (f.value.text ++ t) else jsonFindValue key (f.value.text ++ t) := by
  have he : f.name.flatMap jsonEscapeChar = f.name := flatMap_jsonEscapeChar hf.right
  have hq : '"' ∉ f.name := fun hc => (IsNameChar.ne (hf.right _ hc) '"' (by decide)) rfl
  obtain ⟨k, ks, hks⟩ := List.exists_cons_of_ne_nil hk.left
  have hn : IsNameChar k := hk.right k (hks ▸ List.mem_cons_self)
  have hp (r : CString) : ¬(key ++ ['"'] <+: ':' :: r) := by
    rw [hks]
    simp [hn.ne ':' (by decide)]
  have hi := prefix_escaped_iff (':' :: (f.value.text ++ t)) (s := f.name) hk.right
  rw [he] at hi
  rw [JsonField.text, List.cons_append, List.cons_append, List.append_assoc, List.cons_append,
    List.cons_append, jsonFindValue_quote]
  simp only [hi]
  split
  case isTrue hfk =>
    have hd : (f.name ++ '"' :: ':' :: (f.value.text ++ t)).drop (key.length + 1) =
        ':' :: (f.value.text ++ t) := by
      rw [hfk]
      simp
    rw [hd, List.dropWhile_cons_of_pos (by decide), JsonValue.dropWhile_text]
  case isFalse =>
    rw [jsonFindValue_append hq, jsonFindValue_quote, if_neg (hp _), jsonFindValue_cons_of_ne (by decide)]

section Fields

-- The fields of an object from one of them on, up to the end of the text.
def fieldsText (fs : List JsonField) : CString :=
  [','].intercalate (fs.map JsonField.text) ++ ['}']

variable {f : JsonField}

theorem fieldsText_cons (f : JsonField) (fs : List JsonField) :
    ∃ t, EndsValue t ∧ fieldsText (f :: fs) = f.text ++ t ∧ (fs ≠ [] → t = ',' :: fieldsText fs) := by
  cases fs
  case nil       => exact ⟨['}'], ⟨_, _, rfl, .inr rfl⟩, by simp [fieldsText], fun h => absurd rfl h⟩
  case cons g gs =>
    refine ⟨',' :: fieldsText (g :: gs), ⟨_, _, rfl, .inl rfl⟩, ?_, fun _ => rfl⟩
    simp [fieldsText, List.intercalate]

-- The name is found where it names the field, or in the first string that hides it.
theorem jsonFindValue_fieldsText (pre post : List JsonField) (hf : IsName f.name) (hn : ∀ e ∈ pre, IsName e.name)
    (hne : ∀ e ∈ pre, e.name ≠ f.name) :
    ∃ t, EndsValue t ∧ jsonFindValue f.name (fieldsText (pre ++ f :: post)) =
      some (if ∃ e ∈ pre, e.value.Hides f.name then t else f.value.text ++ t) := by
  induction pre
  case nil =>
    have ⟨t, ht, he, _⟩ := fieldsText_cons f post
    refine ⟨t, ht, ?_⟩
    rw [List.nil_append, he, jsonFindValue_field hf hf, if_pos rfl, if_neg (by simp)]
  case cons e es hi =>
    have ⟨t, ht, he, hs⟩ := fieldsText_cons e (es ++ f :: post)
    have hnext := hs (by simp)
    rw [List.cons_append, he, jsonFindValue_field hf (hn e List.mem_cons_self),
      if_neg (hne e List.mem_cons_self), JsonValue.jsonFindValue_text e.value hf ht]
    by_cases hh : e.value.Hides f.name
    case pos =>
      refine ⟨t, ht, ?_⟩
      rw [if_pos hh, if_pos ⟨e, List.mem_cons_self, hh⟩]
    case neg =>
      have ⟨r, hr, her⟩ := hi (fun e he => hn e (List.mem_cons_of_mem _ he))
        fun e he => hne e (List.mem_cons_of_mem _ he)
      refine ⟨r, hr, ?_⟩
      rw [if_neg hh, hnext, jsonFindValue_cons_of_ne (by decide), her]
      simp [hh]

end Fields

section Unescape

variable {c : Char} {t : CString}

-- A character in front of which there is no backslash stands for itself.
theorem jsonUnescape_cons (h₁ : c ≠ '"') (h₂ : c ≠ '\\') : jsonUnescape (c :: t) = c :: jsonUnescape t := by
  rw [jsonUnescape]
  · exact h₁
  all_goals
    intros
    simp_all

theorem hexDigitValue_digitChar : ∀ n < 16, hexDigitValue (Nat.digitChar n) = some n := by
  decide

theorem jsonHex4_hex4 {n : Nat} (h : n < 0x10000) : jsonHex4 (hex4 n ++ t) = some n := by
  have hd (m : Nat) : hexDigitValue (Nat.digitChar (m % 16)) = some (m % 16) :=
    hexDigitValue_digitChar _ (Nat.mod_lt _ (by decide))
  simp only [hex4, List.map_cons, List.map_nil, List.cons_append, List.nil_append, jsonHex4, hd,
    Option.bind_eq_bind, Option.bind_some, Option.pure_def]
  congr 1
  omega

-- Each character is read back from the way in which it is written.
theorem jsonUnescape_jsonEscapeChar (c : Char) (t : CString) :
    jsonUnescape (jsonEscapeChar c ++ t) = c :: jsonUnescape t := by
  rw [jsonEscapeChar]
  split
  case isTrue h =>
    rcases h with rfl | rfl
    · simp [jsonUnescape]
    · simp [jsonUnescape]
  case isFalse h =>
    rw [not_or] at h
    repeat' split
    case isTrue h => simp [h, jsonUnescape]
    case isFalse.isTrue h => simp [h, jsonUnescape]
    case isFalse.isFalse.isTrue h => simp [h, jsonUnescape]
    case isFalse.isFalse.isFalse.isTrue hc =>
      have hs : lowSurrogate c.toNat t = none := by
        rw [lowSurrogate.eq_def]
        split
        · exact if_neg (by omega)
        · rfl
      have he : jsonUtf8Encode c.toNat = [c] := by
        rw [jsonUtf8Encode, if_pos (by omega), Char.ofNat_toNat]
      have hl : (hex4 c.toNat ++ t).drop 4 = t := rfl
      rw [List.cons_append, List.cons_append, jsonUnescape, jsonHex4_hex4 (by omega)]
      simp only [hl, hs, he, List.singleton_append]
    case isFalse.isFalse.isFalse.isFalse => exact jsonUnescape_cons h.left h.right

theorem jsonUnescape_escaped (s t : CString) :
    jsonUnescape (s.flatMap jsonEscapeChar ++ '"' :: t) = s := by
  induction s
  case nil => rw [List.flatMap_nil, List.nil_append, jsonUnescape]
  case cons c cs hi => rw [List.flatMap_cons, List.append_assoc, jsonUnescape_jsonEscapeChar, hi]

end Unescape

section Numbers

variable {t : CString}

theorem EndsValue.not_digit (h : EndsValue t) : t.takeWhile Char.isDigit = [] := by
  obtain ⟨_, _, rfl, rfl | rfl⟩ := h <;> rfl

theorem decimalValue_toDigits (n : Nat) (h : EndsValue t) :
    decimalValue (Nat.toDigits 10 n ++ ".000000".toList ++ t) = n := by
  have ⟨c, cs, hc, hd⟩ := exists_digit_cons_toDigits n
  have hs : signed (Nat.toDigits 10 n ++ ".000000".toList ++ t) =
      (1, Nat.toDigits 10 n ++ ".000000".toList ++ t) := by
    rw [hc, signed.eq_def]
    split
    case h_1 heq => exact absurd hd ((List.cons.inj heq).left ▸ by decide)
    case h_2 heq => exact absurd hd ((List.cons.inj heq).left ▸ by decide)
    case h_3     => rfl
  have hall : ∀ c ∈ Nat.toDigits 10 n, c.isDigit :=
    List.takeWhile_eq_self_iff.mp (takeWhile_isDigit_toDigits n)
  have ht : (Nat.toDigits 10 n ++ ".000000".toList ++ t).takeWhile Char.isDigit = Nat.toDigits 10 n := by
    rw [List.append_assoc]
    exact takeWhile_toDigits_append rfl n
  have hr : (Nat.toDigits 10 n ++ ".000000".toList ++ t).dropWhile Char.isDigit = ".000000".toList ++ t := by
    rw [List.append_assoc, List.dropWhile_append_of_pos hall]
    rfl
  have hz : Nat.ofDigitChars 10 (Nat.toDigits 10 n) 0 = n := Nat.ofDigitChars_ten_toDigits
  obtain ⟨e, r, rfl, he⟩ := h
  have hde : e.isDigit = false := by obtain rfl | rfl := he <;> rfl
  have hf : fraction (1 / 10) ('0' :: '0' :: '0' :: '0' :: '0' :: '0' :: e :: r) = 0 := by
    simp [fraction, hde]
  have hne : ¬(e = 'e' ∨ e = 'E') := by obtain rfl | rfl := he <;> decide
  have hl : ".000000".toList ++ e :: r = '.' :: '0' :: '0' :: '0' :: '0' :: '0' :: '0' :: e :: r := rfl
  have hw : ('0' :: '0' :: '0' :: '0' :: '0' :: '0' :: e :: r).dropWhile Char.isDigit = e :: r := by
    simp [hde]
  rw [decimalValue]
  simp only [hs, ht, hr, hz, hl, hw, hf, if_neg hne, one_mul, add_zero]

end Numbers

namespace JsonValue

variable (v : JsonValue) {body key t : CString}

-- The accessor on a text in which it finds the value.
theorem readFrom_of_find (ht : EndsValue t) (h : jsonFindValue key body = some (v.text ++ t)) :
    v.ReadFrom body key ↔ v.Fits := by
  cases v
  case string s =>
    have hg : jsonGetStr body key = some (if s.length > maxEscaped then [] else s) := by
      rw [jsonGetStr, h, text, written, jsonEscape]
      split
      case h_2 hn => exact absurd rfl (hn _)
      case h_1 heq =>
        rw [List.cons_append, List.cons_append, Option.some.injEq, List.cons.injEq] at heq
        rw [← heq.right, List.append_assoc]
        split
        · rw [Option.getD_none, List.nil_append, List.cons_append, jsonUnescape]
        · rw [Option.getD_some, List.cons_append, List.nil_append, jsonUnescape_escaped]
    simp only [ReadFrom, Fits, hg, Option.some.injEq]
    constructor <;> intro hr
    case mp =>
      by_contra hn
      rw [if_pos (by omega)] at hr
      rw [← hr] at hn
      exact hn (Nat.zero_le _)
    case mpr => rw [if_neg (by omega)]
  case number n =>
    simp only [ReadFrom, jsonGetLong, h, text, Option.map_some, gAsciiStrtoll_append ht.not_digit,
      Option.some.injEq, Fits]
    constructor <;> intro hr
    case mp =>
      rw [InInt64, ← hr, clampInt64]
      constructor
      case left  => exact Int.le_max_left _ _
      case right => exact Int.max_le.mpr ⟨by decide, Int.min_le_right _ _⟩
    case mpr => exact clampInt64_of_inInt64 hr
  case whole n _ =>
    simp only [ReadFrom, jsonGetDouble, h, text, Option.map_some, decimalValue_toDigits n ht, Fits]

-- The accessor on a text in which it stops in front of the value.
theorem readFrom_of_hidden (ht : EndsValue t) (h : jsonFindValue key body = some t) :
    v.ReadFrom body key ↔ v.IsMissing := by
  cases v
  case string s =>
    have hg : jsonGetStr body key = none := by
      obtain ⟨c, r, rfl, rfl | rfl⟩ := ht
      · simp [jsonGetStr, h]
      · simp [jsonGetStr, h]
    simp [ReadFrom, IsMissing, hg]
  case number n =>
    have hg : gAsciiStrtoll t = 0 := by
      obtain ⟨c, r, rfl, rfl | rfl⟩ := ht <;> rfl
    simp only [ReadFrom, jsonGetLong, h, Option.map_some, hg, Option.some.injEq, IsMissing]
    exact eq_comm
  case whole n _ =>
    have hg : decimalValue t = 0 := by
      obtain ⟨c, r, rfl, rfl | rfl⟩ := ht
      · simp [decimalValue, signed]
      · simp [decimalValue, signed]
    simp only [ReadFrom, jsonGetDouble, h, Option.map_some, hg, Option.some.injEq, IsMissing]
    exact eq_comm.trans Rat.natCast_eq_zero_iff

end JsonValue

namespace JsonObject

variable (o : JsonObject) (i : Fin o.fields.length)

def field : JsonField :=
  o.fields.get i

-- Whether a string in front of a field is the name of the field, or ends with that in quotation marks.
def Hidden : Prop :=
  ∃ e ∈ o.fields.take i, e.value.Hides (o.field i).name

instance : Decidable (o.Hidden i) :=
  inferInstanceAs (Decidable (∃ e ∈ _, _))

theorem fields_eq : o.fields = o.fields.take i ++ o.field i :: o.fields.drop (i + 1) := by
  simp [field]

theorem isName_of_mem {e : JsonField} (h : e ∈ o.fields) : IsName e.name :=
  o.names.left _ (List.mem_map_of_mem h)

theorem name_ne_of_mem_take {e : JsonField} (h : e ∈ o.fields.take i) : e.name ≠ (o.field i).name := by
  intro he
  have hn := o.names.right
  rw [o.fields_eq i, List.map_append, List.map_cons] at hn
  exact List.disjoint_of_nodup_append hn (List.mem_map_of_mem h) (he ▸ List.mem_cons_self)

theorem exists_jsonFindValue_text : ∃ t, EndsValue t ∧ jsonFindValue (o.field i).name o.text =
    some (if o.Hidden i then t else (o.field i).value.text ++ t) := by
  have ⟨t, ht, hf⟩ := jsonFindValue_fieldsText (f := o.field i) (o.fields.take i) (o.fields.drop (i + 1))
    (o.isName_of_mem (List.get_mem _ i)) (fun _ he => o.isName_of_mem (List.mem_of_mem_take he))
    fun _ he => o.name_ne_of_mem_take i he
  rw [← o.fields_eq i] at hf
  exact ⟨t, ht, (jsonFindValue_cons_of_ne (by decide)).trans hf⟩

-- A field is read back unless a string in front of it ends as its quoted name does, which the accessor
-- takes for the name. What it yields then is the value only if that is a zero.
theorem readFrom_iff : (o.field i).value.ReadFrom o.text (o.field i).name ↔
    if o.Hidden i then (o.field i).value.IsMissing else (o.field i).value.Fits := by
  have ⟨t, ht, hf⟩ := o.exists_jsonFindValue_text i
  split
  case isTrue h  => exact JsonValue.readFrom_of_hidden _ ht (hf.trans (by rw [if_pos h]))
  case isFalse h => exact JsonValue.readFrom_of_find _ ht (hf.trans (by rw [if_neg h]))

-- What is searched for is the name of a field behind it.
theorem find_direction_lost : ¬∀ (o : JsonObject) (i : Fin o.fields.length),
    (o.field i).value.ReadFrom o.text (o.field i).name := by
  intro h
  have hr : jsonGetLong (Rproc.find "direction".toList false 1 0).text "direction".toList = some 1 :=
    h (Rproc.find "direction".toList false 1 0) ⟨2, by decide⟩
  exact absurd hr (by decide)

end JsonObject

end Nordstjernen.Ipc
