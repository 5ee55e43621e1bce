import Nordstjernen.Dom.Attr
import Nordstjernen.Lib.Words

open Nordstjernen.Glib Nordstjernen.Lib
open scoped Computability

namespace Nordstjernen.Dom

def emailLocalChar (c : Char) : Bool :=
  c.isAlphanum || ".!#$%&'*+/=?^_`\x7b|\x7d~-".toList.contains c

-- What is asked of the text between two dots.
def emailLabelValid (label : CString) : Bool :=
  label ≠ [] && label.length ≤ 63 && label.head?.any Char.isAlphanum && label.getLast?.any Char.isAlphanum &&
    label.tail.dropLast.all fun c => c.isAlphanum || c == '-'

def emailDomainValid (domain : CString) : Bool :=
  (domain.splitOn '.').all emailLabelValid

def emailTokenValid (token : CString) : Bool :=
  match (gStrstrip token).span (· != '@') with
  | (before, _ :: after) =>
    before ≠ [] && after ≠ [] && !after.contains '@' && before.all emailLocalChar && emailDomainValid after
  | (_, [])              => false

def inputEmailValueValid (input : Option Element) (value : CString) : Bool :=
  value = [] ||
    if (input.bind (·.getAttr "multiple".toList)).isNone then emailTokenValid value
    else (value.splitOn ',').all emailTokenValid

-- `[a-zA-Z0-9](?:[a-zA-Z0-9-]{0,61}[a-zA-Z0-9])?`
def emailLabel : Language Char :=
  letter (·.isAlphanum) * (1 + upTo 61 (letter fun c => c.isAlphanum ∨ c = '-') * letter (·.isAlphanum))

-- The expression that the HTML Standard gives for a valid e-mail address: some of the local characters, an
-- `@`, and labels with dots between them.
def emailAddress : Language Char :=
  letter (emailLocalChar ·) * (letter (emailLocalChar ·))∗ * letter (· = '@') * joined '.' emailLabel

-- A text of a language with white space around it.
def padded (l : Language Char) : Language Char :=
  (letter (gAsciiIsspace ·))∗ * l * (letter (gAsciiIsspace ·))∗

section Address

variable {s t label domain : CString} {c : Char}

-- A label is one letter or digit, or two with a few characters between them.
theorem mem_emailLabel : label ∈ emailLabel ↔
    (∃ a, a.isAlphanum ∧ label = [a]) ∨
    ∃ a m b, a.isAlphanum ∧ b.isAlphanum ∧ m.length ≤ 61 ∧ (∀ c ∈ m, c.isAlphanum ∨ c = '-') ∧
      label = a :: (m ++ [b]) := by
  rw [emailLabel, mul_add, mul_one, Language.mem_add, Language.mem_mul]
  refine or_congr Iff.rfl ⟨?_, ?_⟩
  · rintro ⟨_, ⟨a, ha, rfl⟩, _, ⟨m, hm, _, ⟨b, hb, rfl⟩, rfl⟩, rfl⟩
    obtain ⟨hlen, hall⟩ := mem_upTo_letter.mp hm
    exact ⟨a, m, b, ha, hb, hlen, hall, rfl⟩
  · rintro ⟨a, m, b, ha, hb, hlen, hall, rfl⟩
    exact ⟨[a], ⟨a, ha, rfl⟩, m ++ [b], ⟨m, mem_upTo_letter.mpr ⟨hlen, hall⟩, [b], ⟨b, hb, rfl⟩, rfl⟩, rfl⟩

theorem emailLabelValid_between {a b : Char} {m : CString} : emailLabelValid (a :: (m ++ [b])) ↔
    m.length ≤ 61 ∧ a.isAlphanum ∧ b.isAlphanum ∧ ∀ c ∈ m, c.isAlphanum ∨ c = '-' := by
  have hlast : (a :: (m ++ [b])).getLast? = some b := by rw [← List.cons_append, List.getLast?_concat]
  have hlen : (a :: (m ++ [b])).length ≤ 63 ↔ m.length ≤ 61 := by
    rw [List.length_cons, List.length_append, List.length_singleton]
    omega
  simp only [emailLabelValid, hlast, hlen, List.tail_cons, List.dropLast_concat]
  simp [and_assoc]

theorem emailLabelValid_iff : emailLabelValid label ↔ label ∈ emailLabel := by
  rw [mem_emailLabel]
  cases label
  case nil => simp [emailLabelValid]
  case cons a t =>
    obtain rfl | ⟨m, b, rfl⟩ := t.eq_nil_or_concat'
    · simp [emailLabelValid]
    · rw [emailLabelValid_between]
      constructor
      · exact fun ⟨hlen, ha, hb, hall⟩ => .inr ⟨a, m, b, ha, hb, hlen, hall, rfl⟩
      · rintro (⟨_, _, he⟩ | ⟨a', m', b', ha, hb, hlen, hall, he⟩)
        · simp at he
        · obtain ⟨rfl, ht⟩ := List.cons.inj he
          obtain ⟨rfl, hb'⟩ := List.append_inj' ht rfl
          obtain rfl := List.singleton_injective hb'
          exact ⟨hlen, ha, hb, hall⟩

theorem forall_mem_emailLabel (h : label ∈ emailLabel) : ∀ c ∈ label, c.isAlphanum ∨ c = '-' := by
  intro c hc
  obtain ⟨a, ha, rfl⟩ | ⟨a, m, b, ha, hb, -, hall, rfl⟩ := mem_emailLabel.mp h
  · exact .inl (List.mem_singleton.mp hc ▸ ha)
  · obtain rfl | hc := List.mem_cons.mp hc
    · exact .inl ha
    · obtain hc | hc := List.mem_append.mp hc
      · exact hall c hc
      · exact .inl (List.mem_singleton.mp hc ▸ hb)

theorem not_mem_emailLabel (h : label ∈ emailLabel) : '.' ∉ label :=
  fun hd => absurd (forall_mem_emailLabel h '.' hd) (by decide)

theorem emailDomainValid_iff : emailDomainValid domain ↔ domain ∈ joined '.' emailLabel := by
  rw [mem_joined_iff fun _ => not_mem_emailLabel, emailDomainValid, List.all_eq_true]
  exact forall₂_congr fun label _ => emailLabelValid_iff

theorem forall_mem_domain (h : domain ∈ joined '.' emailLabel) :
    ∀ c ∈ domain, (c.isAlphanum ∨ c = '-') ∨ c = '.' :=
  forall_mem_joined h (.inr rfl) fun _ hv c hc => .inl (forall_mem_emailLabel hv c hc)

theorem mem_emailAddress : s ∈ emailAddress ↔ ∃ before after, before ≠ [] ∧ (∀ c ∈ before, emailLocalChar c) ∧
    after ∈ joined '.' emailLabel ∧ s = before ++ '@' :: after := by
  constructor
  · rintro ⟨_, ⟨_, ⟨_, ⟨a, ha, rfl⟩, u, hu, rfl⟩, _, ⟨_, rfl, rfl⟩, rfl⟩, after, hafter, rfl⟩
    refine ⟨a :: u, after, List.cons_ne_nil a u, ?_, hafter, by simp⟩
    exact List.forall_mem_cons.mpr ⟨ha, mem_letter_kstar.mp hu⟩
  · rintro ⟨before, after, hne, hall, hafter, rfl⟩
    obtain ⟨a, u, rfl⟩ := List.exists_cons_of_ne_nil hne
    obtain ⟨ha, hu⟩ := List.forall_mem_cons.mp hall
    have ha := singleton_mem_letter (p := (emailLocalChar ·)) ha
    have hlocal := Language.append_mem_mul ha (mem_letter_kstar.mpr hu)
    have hat := Language.append_mem_mul hlocal (singleton_mem_letter (p := (· = '@')) rfl)
    have h := Language.append_mem_mul hat hafter
    rwa [List.append_assoc, List.append_assoc] at h

theorem emailTokenValid_iff_gStrstrip : emailTokenValid t ↔ gStrstrip t ∈ emailAddress := by
  rw [emailTokenValid, mem_emailAddress]
  generalize gStrstrip t = s
  constructor
  case mp =>
    intro h
    split at h
    case h_1 before at' after hs =>
      simp only [Bool.and_eq_true, decide_eq_true_eq, List.all_eq_true, emailDomainValid_iff] at h
      rw [List.span_eq_takeWhile_dropWhile] at hs
      obtain ⟨hb, ha⟩ := Prod.mk.inj hs
      have hat : at' = '@' := by
        have h := List.head?_dropWhile_not (· != '@') s
        simpa [ha] using h
      refine ⟨before, after, h.1.1.1.1, h.1.2, h.2, ?_⟩
      rw [← hat, ← hb, ← ha, List.takeWhile_append_dropWhile]
    case h_2 => cases h
  case mpr =>
    rintro ⟨before, after, hne, hall, hafter, rfl⟩
    have hb : '@' ∉ before := fun h => absurd (hall '@' h) (by decide)
    have ha : '@' ∉ after := fun h => absurd (forall_mem_domain hafter '@' h) (by decide)
    have hnil : after ≠ [] := by
      rintro rfl
      exact absurd (emailDomainValid_iff.mpr hafter) (by decide)
    rw [span_ne_append_cons hb]
    simp only [Bool.and_eq_true, decide_eq_true_eq, List.all_eq_true, emailDomainValid_iff]
    exact ⟨⟨⟨⟨hne, hnil⟩, by simpa using ha⟩, hall⟩, hafter⟩

-- No character of an address is trimmed off.
theorem not_isspace_of_mem (h : s ∈ emailAddress) (hc : c ∈ s) : gAsciiIsspace c = false := by
  have hchar : emailLocalChar c ∨ c = '@' ∨ (c.isAlphanum ∨ c = '-') ∨ c = '.' := by
    obtain ⟨before, after, -, hall, hafter, rfl⟩ := mem_emailAddress.mp h
    obtain hc | hc := List.mem_append.mp hc
    · exact .inl (hall c hc)
    · obtain rfl | hc := List.mem_cons.mp hc
      · exact .inr (.inl rfl)
      · exact .inr (.inr (forall_mem_domain hafter c hc))
  rw [← Bool.not_eq_true]
  intro hs
  simp only [gAsciiIsspace, Bool.or_eq_true, beq_iff_eq] at hs
  obtain (((rfl | rfl) | rfl) | rfl) | rfl := hs <;> exact absurd hchar (by decide)

theorem emailTokenValid_iff : emailTokenValid t ↔ t ∈ padded emailAddress := by
  rw [emailTokenValid_iff_gStrstrip]
  constructor
  case mp =>
    intro h
    obtain ⟨lead, trail, ht, hl, hr⟩ := exists_gStrstrip t
    have hs := Language.append_mem_mul (mem_letter_kstar.mpr hl) h
    have hp := Language.append_mem_mul hs (mem_letter_kstar.mpr hr)
    exact ht ▸ hp
  case mpr =>
    rintro ⟨_, ⟨lead, hl, s, hs, rfl⟩, trail, hr, rfl⟩
    have hne : s ≠ [] := by
      obtain ⟨before, after, -, -, -, rfl⟩ := mem_emailAddress.mp hs
      simp
    have hstrip := gStrstrip_append (mem_letter_kstar.mp hl) (mem_letter_kstar.mp hr) hne
      (fun _ hc => not_isspace_of_mem hs (List.mem_of_mem_head? hc))
      fun _ hc => not_isspace_of_mem hs (List.mem_of_mem_getLast? hc)
    exact hstrip.symm ▸ hs

end Address

-- What `type=email` asks of a value.
theorem inputEmailValueValid_iff (input : Option Element) (value : CString) :
    inputEmailValueValid input value ↔
      value = [] ∨
      (if (input.bind (·.getAttr "multiple".toList)).isNone then value ∈ padded emailAddress
       else ∀ token ∈ value.splitOn ',', token ∈ padded emailAddress) := by
  rw [inputEmailValueValid, Bool.or_eq_true, decide_eq_true_eq]
  refine or_congr Iff.rfl ?_
  split
  case isTrue  => exact emailTokenValid_iff
  case isFalse =>
    rw [List.all_eq_true]
    exact forall₂_congr fun token _ => emailTokenValid_iff

-- The empty value is no address, and neither is one with a blank in front.
theorem inputEmailValueValid_blank :
    inputEmailValueValid none [] ∧ [] ∉ emailAddress ∧
      inputEmailValueValid none " a@b".toList ∧ " a@b".toList ∉ emailAddress := by
  have hnil : [] ∉ emailAddress := fun h => by
    obtain ⟨before, after, -, -, -, he⟩ := mem_emailAddress.mp h
    simp at he
  have hblank : " a@b".toList ∉ emailAddress := fun h =>
    absurd (not_isspace_of_mem (c := ' ') h (by decide)) (by decide)
  exact ⟨by decide, hnil, by decide, hblank⟩

end Nordstjernen.Dom
