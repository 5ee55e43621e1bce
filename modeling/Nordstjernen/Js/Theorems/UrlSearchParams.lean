import Nordstjernen.Js.UrlSearchParams
import Mathlib.Data.List.TakeDrop

namespace Nordstjernen.Js

-- The equations of what is matched on most are derived here, once for all the proofs below.
section
attribute [local simp] octetAt UrlSearchParams.percentDecode decodeFrom octetsAt UrlSearchParams.scalarOf
end

theorem octetCount_of_utf8 {c : Char} {b : UInt8} {bs : List UInt8}
    (h : String.utf8EncodeChar c = b :: bs) : octetCount b = some (bs.length + 1) := by
  have hv : c.val.toNat < 1114112 := by
    rcases c.valid with hc | ⟨-, hc⟩
    · exact Nat.lt_trans hc (by decide)
    · exact hc
  simp only [String.utf8EncodeChar] at h
  -- One case for each range of characters, which is told by the first octet.
  split at h
  case isTrue =>
    cases h
    rw [octetCount, UInt8.toNat_ofNat', if_pos (by omega)]
    rfl
  case isFalse =>
    split at h
    case isTrue =>
      cases h
      rw [octetCount, UInt8.toNat_ofNat', if_neg (by omega), if_neg (by omega), if_pos (by omega)]
      rfl
    case isFalse =>
      split at h
      case isTrue =>
        cases h
        rw [octetCount, UInt8.toNat_ofNat', if_neg (by omega), if_neg (by omega), if_neg (by omega),
          if_pos (by omega)]
        rfl
      case isFalse =>
        cases h
        rw [octetCount, UInt8.toNat_ofNat', if_neg (by omega), if_neg (by omega), if_neg (by omega),
          if_neg (by omega), if_pos (by omega)]
        rfl

theorem decodeOctets_eq_some_iff {octets : List UInt8} {c : Char} :
    decodeOctets octets = some c ↔ String.utf8EncodeChar c = octets := by
  rw [decodeOctets, Option.filter_eq_some_iff]
  constructor
  case mp => exact fun h => of_decide_eq_true h.right
  case mpr =>
    rintro rfl
    have h := ByteArray.utf8DecodeChar?_utf8EncodeChar_append (b := .empty) (c := c)
    rw [ByteArray.append_empty] at h
    exact ⟨h, decide_eq_true rfl⟩

namespace UrlSearchParams

theorem Escapes.append {e e' : JsString} {os os' : List UInt8} (h : Escapes e os)
    (h' : Escapes e' os') : Escapes (e ++ e') (os ++ os') := by
  induction h
  case nil              => exact h'
  case cons hx hy _ ih  => exact .cons hx hy ih

-- What a first octet is escaped as begins with `%`.
theorem Escapes.exists_cons {e : JsString} {b : UInt8} {bs : List UInt8} (h : Escapes e (b :: bs)) :
    ∃ tl, e = .char '%' :: tl := by
  cases h
  exact ⟨_, rfl⟩

theorem octetAt_eq_some_iff {s rest : JsString} {b : UInt8} :
    octetAt s = some (b, rest) ↔ ∃ e, Escapes e [b] ∧ s = e ++ rest := by
  constructor
  case mp =>
    intro h
    rw [octetAt.eq_def] at h
    split at h
    case h_2 => cases h
    case h_1 =>
      split at h
      case h_2 => cases h
      case h_1 hx hy =>
        cases h
        exact ⟨_, .cons hx hy .nil, rfl⟩
  case mpr =>
    rintro ⟨_, he, rfl⟩
    cases he
    case cons hx hy he =>
      cases he
      simp only [List.cons_append, List.nil_append, octetAt, hx, hy]

theorem octetsAt_eq_some_iff {n : Nat} {s rest : JsString} {octets : List UInt8} :
    octetsAt n s = some (octets, rest) ↔
      ∃ e, Escapes e octets ∧ octets.length = n ∧ s = e ++ rest := by
  induction n generalizing s octets
  case zero =>
    constructor
    case mp =>
      intro h
      cases h
      exact ⟨[], .nil, rfl, rfl⟩
    case mpr =>
      rintro ⟨e, he, hl, rfl⟩
      cases List.eq_nil_of_length_eq_zero hl
      cases he
      rfl
  case succ n ih =>
    constructor
    case mp =>
      intro h
      obtain ⟨⟨b, _⟩, h₁, h⟩ := Option.bind_eq_some_iff.mp h
      obtain ⟨⟨bs, _⟩, h₂, h⟩ := Option.bind_eq_some_iff.mp h
      cases h
      obtain ⟨_, he, rfl⟩ := octetAt_eq_some_iff.mp h₁
      obtain ⟨_, hs, hl, rfl⟩ := ih.mp h₂
      exact ⟨_, he.append hs, congrArg Nat.succ hl, (List.append_assoc ..).symm⟩
    case mpr =>
      rintro ⟨_, he, hl, rfl⟩
      cases he
      case nil => cases hl
      case cons a b x y e bs hx hy he =>
        have h₁ : octetAt (.char '%' :: .char a :: .char b :: e ++ rest) = _ :=
          octetAt_eq_some_iff.mpr ⟨_, .cons hx hy .nil, rfl⟩
        have h₂ : octetsAt n (e ++ rest) = some (bs, rest) :=
          ih.mpr ⟨e, he, Nat.succ.inj hl, rfl⟩
        rw [octetsAt, h₁]
        simp [h₂]

theorem utf8EncodeChar_ne_nil (c : Char) : String.utf8EncodeChar c ≠ [] := by
  intro h
  have hl := congrArg List.length h
  rw [String.length_utf8EncodeChar] at hl
  exact absurd hl (Nat.ne_of_gt c.utf8Size_pos)

theorem unescape_eq_some_iff {s rest : JsString} {c : Char} :
    unescape s = some (c, rest) ↔ ∃ e, Escapes e (String.utf8EncodeChar c) ∧ s = e ++ rest := by
  constructor
  case mp =>
    intro h
    obtain ⟨⟨b, _⟩, -, h⟩ := Option.bind_eq_some_iff.mp h
    obtain ⟨n, -, h⟩ := Option.bind_eq_some_iff.mp h
    obtain ⟨⟨octets, _⟩, h₁, h⟩ := Option.bind_eq_some_iff.mp h
    obtain ⟨d, h₂, h⟩ := Option.bind_eq_some_iff.mp h
    cases h
    obtain ⟨e, he, -, hs⟩ := octetsAt_eq_some_iff.mp h₁
    rw [decodeOctets_eq_some_iff.mp h₂]
    exact ⟨e, he, hs⟩
  case mpr =>
    rintro ⟨e, he, rfl⟩
    obtain ⟨b, bs, hb⟩ := List.exists_cons_of_ne_nil (utf8EncodeChar_ne_nil c)
    have h₁ : octetsAt (bs.length + 1) (e ++ rest) = some (b :: bs, rest) :=
      octetsAt_eq_some_iff.mpr ⟨e, hb ▸ he, rfl, rfl⟩
    obtain ⟨⟨_, _⟩, h₂, h₃⟩ := Option.bind_eq_some_iff.mp h₁
    obtain ⟨⟨_, _⟩, h₄, h₅⟩ := Option.bind_eq_some_iff.mp h₃
    cases h₅
    rw [unescape, h₂]
    simp [octetCount_of_utf8 hb, h₁, decodeOctets_eq_some_iff.mpr hb]

section Decode

variable {s : JsString} {cs : List Char} {n : Nat}

theorem decodeFrom_of_spells (h : Spells s cs) (hn : s.length ≤ n) :
    decodeFrom n s = some (ofChars cs) := by
  induction h generalizing n
  case nil => cases n <;> rfl
  case char c s cs hc _ ih =>
    obtain ⟨n, rfl⟩ := Nat.exists_eq_succ_of_ne_zero (Nat.ne_of_gt (Nat.lt_of_lt_of_le
      (Nat.succ_pos _) hn))
    have hp : CodePoint.char c ≠ .char '%' := fun e => hc (CodePoint.char.inj e)
    rw [decodeFrom, if_neg hp, ih (Nat.le_of_succ_le_succ hn)]
    rfl
  case escape c e s cs he _ ih =>
    have hu : unescape (e ++ s) = some (c, s) := unescape_eq_some_iff.mpr ⟨e, he, rfl⟩
    obtain ⟨b, bs, hb⟩ := List.exists_cons_of_ne_nil (utf8EncodeChar_ne_nil c)
    obtain ⟨tl, rfl⟩ := (hb ▸ he).exists_cons
    rw [List.cons_append] at hu hn ⊢
    obtain ⟨n, rfl⟩ := Nat.exists_eq_succ_of_ne_zero (Nat.ne_of_gt (Nat.lt_of_lt_of_le
      (Nat.succ_pos _) hn))
    have hl : s.length ≤ n := by
      rw [List.length_cons, List.length_append] at hn
      omega
    rw [decodeFrom, if_pos rfl, hu]
    simp only [Option.bind_eq_bind, Option.bind_some, ih hl]
    rfl

theorem eq_nil_of_ofChars (h : some [] = some (ofChars cs)) : cs = [] :=
  List.map_eq_nil_iff.mp (Option.some.inj h).symm

theorem exists_cons_of_ofChars {p : CodePoint} {tl : JsString} (h : p :: tl = ofChars cs) :
    ∃ c ds, cs = c :: ds ∧ p = .char c ∧ tl = ofChars ds := by
  obtain ⟨c, ds, rfl, hp, ht⟩ := List.map_eq_cons_iff.mp h.symm
  exact ⟨c, ds, rfl, hp.symm, ht.symm⟩

theorem spells_of_decodeFrom (h : decodeFrom n s = some (ofChars cs)) : Spells s cs := by
  induction n generalizing s cs
  case zero =>
    cases s
    case nil  => exact eq_nil_of_ofChars h ▸ .nil
    case cons => cases h
  case succ n ih =>
    cases s
    case nil  => exact eq_nil_of_ofChars h ▸ .nil
    case cons p s =>
      rw [decodeFrom] at h
      split at h
      case isTrue =>
        obtain ⟨⟨c, rest⟩, hu, h⟩ := Option.bind_eq_some_iff.mp h
        obtain ⟨tl, ht, h⟩ := Option.bind_eq_some_iff.mp h
        obtain ⟨_, ds, rfl, hc, rfl⟩ := exists_cons_of_ofChars (Option.some.inj h)
        cases hc
        obtain ⟨e, he, hs⟩ := unescape_eq_some_iff.mp hu
        exact hs ▸ .escape he (ih ht)
      case isFalse hp =>
        obtain ⟨tl, ht, h⟩ := Option.bind_eq_some_iff.mp h
        obtain ⟨c, ds, rfl, rfl, rfl⟩ := exists_cons_of_ofChars (Option.some.inj h)
        exact .char (fun e => hp (congrArg _ e)) (ih ht)

end Decode

-- The code's decoder yields characters exactly for what spells them.
theorem decodeKV_eq_ofChars_iff {s : JsString} {cs : List Char} :
    decodeKV s = some (ofChars cs) ↔ Spells (plusToSpace s) cs where
  mp := spells_of_decodeFrom
  mpr h := decodeFrom_of_spells h (Nat.le_refl _)

section Parser

variable (D : Utf8Decoder)

theorem Escapes.percentDecode {e s : JsString} {octets : List UInt8} (h : Escapes e octets) :
    percentDecode ((e ++ s).map scalarOf) = octets ++ percentDecode (s.map scalarOf) := by
  induction h
  case nil => rfl
  case cons hx hy _ ih =>
    simp only [List.cons_append, List.map_cons, scalarOf, UrlSearchParams.percentDecode, hx, hy, ih]

theorem percentDecode_cons_of_ne {c : Char} {s : List Char} (h : c ≠ '%') :
    percentDecode (c :: s) = String.utf8EncodeChar c ++ percentDecode s := by
  rw [percentDecode.eq_def]
  split
  case h_1 e => exact absurd (List.cons.inj e).left h
  case h_2 e => cases e; rfl
  case h_3 e => cases e

theorem Spells.percentDecode {s : JsString} {cs : List Char} (h : Spells s cs) :
    percentDecode (s.map scalarOf) = cs.flatMap String.utf8EncodeChar := by
  induction h
  case nil => rfl
  case char hc _ ih =>
    rw [List.map_cons, scalarOf, percentDecode_cons_of_ne hc, ih, List.flatMap_cons]
  case escape he _ ih =>
    rw [he.percentDecode, ih, List.flatMap_cons]

theorem formDecode_of_spells {s : JsString} {cs : List Char} (h : Spells (plusToSpace s) cs) :
    formDecode D s = cs := by
  rw [formDecode, h.percentDecode, D.decode_encode]

-- The code decodes a name or value as the standard does exactly if it is well spelled.
theorem decodeKV_eq_formDecode_iff {s : JsString} :
    decodeKV s = some (ofChars (formDecode D s)) ↔ WellSpelled s := by
  constructor
  case mp => exact fun h => ⟨_, decodeKV_eq_ofChars_iff.mp h⟩
  case mpr =>
    rintro ⟨cs, h⟩
    rw [formDecode_of_spells D h]
    exact decodeKV_eq_ofChars_iff.mpr h

theorem wellSpelled_nil : WellSpelled [] :=
  ⟨[], .nil⟩

theorem formDecode_nil : formDecode D [] = [] :=
  formDecode_of_spells D .nil

theorem parsePart_eq_formPair_iff {part : JsString} :
    parsePart part = some (formPair D part) ↔ PartWellSpelled part := by
  rw [PartWellSpelled, parsePart, formPair]
  rcases splitPart part with ⟨name, _ | value⟩
  case none =>
    simp only [Option.getD_none, formDecode_nil]
    rw [and_iff_left wellSpelled_nil, ← decodeKV_eq_formDecode_iff D]
    cases decodeKV name <;> simp [ofChars]
  case some =>
    simp only [Option.getD_some]
    rw [← decodeKV_eq_formDecode_iff D, ← decodeKV_eq_formDecode_iff D]
    cases decodeKV name <;> cases decodeKV value <;> simp

end Parser

section Serializer

variable {c : Char} {cs : List Char}

-- How a character is serialized.
def formText (c : Char) : List Char :=
  if c = ' ' then ['+'] else if isUnreserved c then [c] else escapeChar c

theorem hexValue_hexDigit {n : Nat} (h : n < 16) : hexValue (hexDigit n) = some n :=
  (by decide : ∀ n : Fin 16, hexValue (hexDigit n) = some n.val) ⟨n, h⟩

theorem hexDigit_ne {n : Nat} (h : n < 16) (hc : hexValue c = none) : hexDigit n ≠ c := by
  intro e
  have hv := hexValue_hexDigit h
  rw [e, hc] at hv
  cases hv

theorem ofNat_ne_space {n : Nat} (h : n < 256) (hn : n ≠ 0x20) : UInt8.ofNat n ≠ 0x20 := by
  intro e
  have hb := congrArg UInt8.toNat e
  rw [UInt8.toNat_ofNat', Nat.mod_eq_of_lt h] at hb
  exact hn hb

theorem octet_ne_space (h : c ≠ ' ') : ∀ b ∈ String.utf8EncodeChar c, b ≠ 0x20 := by
  have hc : c.val.toNat ≠ 0x20 := fun e => h (Char.ext (UInt32.toNat_inj.mp e))
  intro b hb
  simp only [String.utf8EncodeChar] at hb
  -- Only an ASCII character is below 128, and it is its own octet.
  split at hb
  case isTrue =>
    rw [List.mem_singleton] at hb
    exact hb ▸ ofNat_ne_space (by omega) (by omega)
  case isFalse =>
    split at hb
    case isTrue =>
      simp only [List.mem_cons, List.not_mem_nil, or_false] at hb
      rcases hb with rfl | rfl <;> exact ofNat_ne_space (by omega) (by omega)
    case isFalse =>
      split at hb
      case isTrue =>
        simp only [List.mem_cons, List.not_mem_nil, or_false] at hb
        rcases hb with rfl | rfl | rfl <;> exact ofNat_ne_space (by omega) (by omega)
      case isFalse =>
        simp only [List.mem_cons, List.not_mem_nil, or_false] at hb
        rcases hb with rfl | rfl | rfl | rfl <;> exact ofNat_ne_space (by omega) (by omega)

theorem escapes_escapeOctet (b : UInt8) : Escapes (ofChars (escapeOctet b)) [b] := by
  have hb := b.toNat_lt
  have h : Escapes (ofChars (escapeOctet b)) [UInt8.ofNat (16 * (b.toNat / 16) + b.toNat % 16)] :=
    .cons (hexValue_hexDigit (by omega)) (hexValue_hexDigit (by omega)) .nil
  rwa [Nat.div_add_mod, UInt8.ofNat_toNat] at h

theorem escapes_flatMap (octets : List UInt8) :
    Escapes (ofChars (octets.flatMap escapeOctet)) octets := by
  induction octets
  case nil            => exact .nil
  case cons b bs ih   =>
    rw [List.flatMap_cons, ofChars, List.map_append]
    exact (escapes_escapeOctet b).append ih

theorem spacesToPlus_cons_of_ne {s : List Char} (h : c ≠ '%') :
    spacesToPlus (c :: s) = c :: spacesToPlus s := by
  rw [spacesToPlus.eq_def]
  split
  case h_1 e => exact absurd (List.cons.inj e).left h
  case h_2 e => cases e; rfl
  case h_3 e => cases e

theorem spacesToPlus_escapeOctet {b : UInt8} {s : List Char} (h : b ≠ 0x20) :
    spacesToPlus (escapeOctet b ++ s) = escapeOctet b ++ spacesToPlus s := by
  have hb := b.toNat_lt
  have h₁ := hexDigit_ne (n := b.toNat / 16) (c := '%') (by omega) rfl
  have h₂ := hexDigit_ne (n := b.toNat % 16) (c := '%') (by omega) rfl
  have hv₁ := hexValue_hexDigit (n := b.toNat / 16) (by omega)
  have hv₂ := hexValue_hexDigit (n := b.toNat % 16) (by omega)
  simp only [escapeOctet, List.cons_append, List.nil_append]
  rw [spacesToPlus.eq_def]
  split
  case h_1 e =>
    -- The digits are those of 0x20 only if the octet is.
    injection e with _ e
    injection e with e₁ e
    injection e with e₂ _
    rw [e₁] at hv₁
    rw [e₂] at hv₂
    have hv₁ := Option.some.inj hv₁
    have hv₂ := Option.some.inj hv₂
    exact absurd (UInt8.toNat_inj.mp (by simp at *; omega)) h
  case h_2 e =>
    cases e
    rw [spacesToPlus_cons_of_ne h₁, spacesToPlus_cons_of_ne h₂]
  case h_3 e => cases e

theorem spacesToPlus_escapes {octets : List UInt8} {s : List Char} (h : ∀ b ∈ octets, b ≠ 0x20) :
    spacesToPlus (octets.flatMap escapeOctet ++ s) =
      octets.flatMap escapeOctet ++ spacesToPlus s := by
  induction octets
  case nil => rfl
  case cons b bs ih =>
    rw [List.flatMap_cons, List.append_assoc, spacesToPlus_escapeOctet (h b List.mem_cons_self),
      ih (fun b hb => h b (List.mem_cons_of_mem _ hb)), List.append_assoc]

theorem spacesToPlus_texts (cs : List Char) :
    spacesToPlus (cs.flatMap fun c => if isUnreserved c then [c] else escapeChar c) =
      cs.flatMap formText := by
  induction cs
  case nil => rfl
  case cons c cs ih =>
    rw [List.flatMap_cons, List.flatMap_cons, ← ih, formText]
    by_cases hc : c = ' '
    case pos =>
      cases hc
      rfl
    case neg =>
      rw [if_neg hc]
      split
      case isTrue hu =>
        have h : c ≠ '%' := by
          rintro rfl
          cases hu
        exact spacesToPlus_cons_of_ne h
      case isFalse =>
        exact spacesToPlus_escapes (octet_ne_space hc)

theorem mapM_encodeCodePoint (cs : List Char) :
    (ofChars cs).mapM encodeCodePoint =
      some (cs.map fun c => if isUnreserved c then [c] else escapeChar c) := by
  rw [ofChars]
  induction cs
  case nil => rfl
  case cons ih =>
    rw [List.map_cons, List.mapM_cons, ih]
    rfl

theorem encodeKV_ofChars (cs : List Char) :
    encodeKV (ofChars cs) = some (ofChars (cs.flatMap formText)) := by
  rw [encodeKV, encodeURIComponent, mapM_encodeCodePoint, ← spacesToPlus_texts]
  rfl

theorem mem_escapeChar {p : Char} (h : p ∈ escapeChar c) : p = '%' ∨ ∃ n < 16, p = hexDigit n := by
  obtain ⟨b, -, h⟩ := List.mem_flatMap.mp h
  have hb := b.toNat_lt
  simp only [escapeOctet, List.mem_cons, List.not_mem_nil, or_false] at h
  rcases h with h | h | h
  · exact .inl h
  · exact .inr ⟨_, by omega, h⟩
  · exact .inr ⟨_, by omega, h⟩

-- A character that is neither unreserved nor part of an escape is never written for itself.
theorem notMem_formText {p : Char} (hu : isUnreserved p = false) (hp : p ≠ '%')
    (hx : hexValue p = none) (hs : c = ' ' → p ≠ '+') : p ∉ formText c := by
  rw [formText]
  split
  case isTrue hc => exact fun h => hs hc (List.mem_singleton.mp h)
  case isFalse =>
    split
    case isTrue hc =>
      intro h
      rw [List.mem_singleton.mp h, hc] at hu
      cases hu
    case isFalse =>
      intro h
      rcases mem_escapeChar h with h | ⟨n, hn, h⟩
      · exact hp h
      · exact hexDigit_ne hn hx h.symm

theorem notMem_texts {p : Char} (hu : isUnreserved p = false) (hp : p ≠ '%')
    (hx : hexValue p = none) (hs : p ≠ '+') : CodePoint.char p ∉ ofChars (cs.flatMap formText) := by
  intro h
  obtain ⟨_, hm, e⟩ := List.mem_map.mp h
  cases e
  obtain ⟨c, -, h⟩ := List.mem_flatMap.mp hm
  exact notMem_formText hu hp hx (fun _ => hs) h

theorem plusToSpace_of_notMem {s : JsString} (h : CodePoint.char '+' ∉ s) : plusToSpace s = s := by
  rw [plusToSpace, List.map_congr_left, List.map_id]
  intro p hp
  exact if_neg fun (e : p = .char '+') => h (e ▸ hp)

theorem spells_texts (cs : List Char) : Spells (plusToSpace (ofChars (cs.flatMap formText))) cs := by
  induction cs
  case nil => exact .nil
  case cons c cs ih =>
    rw [List.flatMap_cons, ofChars, List.map_append, plusToSpace, List.map_append]
    by_cases hc : c = ' '
    case pos =>
      cases hc
      exact .char (by decide) ih
    case neg =>
      have hm : CodePoint.char '+' ∉ ofChars (formText c) := by
        intro h
        obtain ⟨_, hm, e⟩ := List.mem_map.mp h
        cases e
        exact notMem_formText rfl (by decide) rfl (fun h => absurd h hc) hm
      have ht := plusToSpace_of_notMem hm
      rw [plusToSpace, ofChars] at ht
      rw [ht, formText, if_neg hc]
      split
      case isTrue hu =>
        have h : c ≠ '%' := by
          rintro rfl
          cases hu
        exact .char h ih
      case isFalse   => exact .escape (escapes_flatMap _) ih

theorem decodeKV_texts (cs : List Char) :
    decodeKV (ofChars (cs.flatMap formText)) = some (ofChars cs) :=
  decodeKV_eq_ofChars_iff.mpr (spells_texts cs)

end Serializer

section RoundTrip

def pairText (pair : List Char × List Char) : JsString :=
  ofChars (pair.fst.flatMap formText) ++ .char '=' :: ofChars (pair.snd.flatMap formText)

theorem serializePair_ofChars (name value : List Char) :
    serializePair (ofChars name, ofChars value) = some (pairText (name, value)) := by
  rw [serializePair, encodeKV_ofChars, encodeKV_ofChars]
  rfl

theorem toString_ofPairs (pairs : List (List Char × List Char)) :
    toString (ofPairs pairs) = some ([.char '&'].intercalate (pairs.map pairText)) := by
  have h : (ofPairs pairs).mapM serializePair = some (pairs.map pairText) := by
    rw [ofPairs]
    induction pairs
    case nil => rfl
    case cons ih =>
      rw [List.map_cons, List.mapM_cons, serializePair_ofChars, ih]
      rfl
  rw [toString, h]
  rfl

theorem splitPart_pairText (name value : List Char) :
    splitPart (pairText (name, value)) =
      (ofChars (name.flatMap formText), some (ofChars (value.flatMap formText))) := by
  have hm : CodePoint.char '=' ∉ ofChars (name.flatMap formText) :=
    notMem_texts rfl (by decide) rfl (by decide)
  have h : ∀ p ∈ ofChars (name.flatMap formText), (p != .char '=') = true := by
    intro p hp
    rw [bne_iff_ne]
    exact fun e => hm (e ▸ hp)
  rw [splitPart, pairText, List.span_eq_takeWhile_dropWhile, List.takeWhile_append_of_pos h,
    List.dropWhile_append_of_pos h, List.takeWhile_cons_of_neg (by decide),
    List.dropWhile_cons_of_neg (by decide), List.append_nil]

theorem parsePart_pairText (name value : List Char) :
    parsePart (pairText (name, value)) = some (ofChars name, ofChars value) := by
  rw [parsePart, splitPart_pairText]
  simp only [decodeKV_texts]
  rfl

theorem notMem_pairText {p : Char} {pair : List Char × List Char} (hu : isUnreserved p = false)
    (hp : p ≠ '%') (hx : hexValue p = none) (hs : p ≠ '+') (he : p ≠ '=') :
    CodePoint.char p ∉ pairText pair := by
  intro h
  rcases List.mem_append.mp h with h | h
  · exact notMem_texts hu hp hx hs h
  · rcases List.mem_cons.mp h with h | h
    · exact he (CodePoint.char.inj h)
    · exact notMem_texts hu hp hx hs h

theorem pairText_ne_nil (pair : List Char × List Char) : pairText pair ≠ [] :=
  List.append_ne_nil_of_right_ne_nil _ (List.cons_ne_nil _ _)

theorem parse_eq_mapM (init : JsString) : parse init = (partsOf init).mapM parsePart := by
  rw [parse]
  split
  case isTrue h =>
    rw [partsOf, h]
    rfl
  case isFalse => rfl

theorem withoutQuestionMark_of_notMem {s : JsString} (h : CodePoint.char '?' ∉ s) :
    withoutQuestionMark s = s := by
  fun_cases withoutQuestionMark s
  case case1 => exact absurd List.mem_cons_self h
  case case2 => rfl

theorem notMem_intercalate {p q : CodePoint} {ls : List JsString} (hp : p ≠ q)
    (h : ∀ l ∈ ls, p ∉ l) : p ∉ [q].intercalate ls := by
  induction ls
  case nil => exact List.not_mem_nil
  case cons l ls ih =>
    obtain ⟨hl, hs⟩ := List.forall_mem_cons.mp h
    by_cases hn : ls = []
    case pos =>
      rw [hn, List.intercalate_singleton]
      exact hl
    case neg =>
      rw [List.intercalate_cons_of_ne_nil hn, List.mem_append, List.mem_append]
      rintro ((h | h) | h)
      · exact hl h
      · exact hp (List.mem_singleton.mp h)
      · exact ih hs h

theorem partsOf_texts (pairs : List (List Char × List Char)) :
    partsOf ([.char '&'].intercalate (pairs.map pairText)) = pairs.map pairText := by
  have hq : CodePoint.char '?' ∉ [.char '&'].intercalate (pairs.map pairText) := by
    refine notMem_intercalate (by decide) fun l hl => ?_
    obtain ⟨pair, -, rfl⟩ := List.mem_map.mp hl
    exact notMem_pairText rfl (by decide) rfl (by decide) (by decide)
  rw [partsOf, withoutQuestionMark_of_notMem hq]
  by_cases hn : pairs = []
  case pos =>
    cases hn
    rfl
  case neg =>
    rw [List.splitOn_intercalate, List.filter_eq_self]
    · intro l hl
      obtain ⟨pair, -, rfl⟩ := List.mem_map.mp hl
      exact decide_eq_true (pairText_ne_nil pair)
    · intro l hl
      obtain ⟨pair, -, rfl⟩ := List.mem_map.mp hl
      exact notMem_pairText rfl (by decide) rfl (by decide) (by decide)
    · exact fun h => hn (List.map_eq_nil_iff.mp h)

theorem parse_texts (pairs : List (List Char × List Char)) :
    parse ([.char '&'].intercalate (pairs.map pairText)) = some (ofPairs pairs) := by
  rw [parse_eq_mapM, partsOf_texts, ofPairs]
  induction pairs
  case nil => rfl
  case cons pair pairs ih =>
    rw [List.map_cons, List.mapM_cons, parsePart_pairText, ih]
    rfl

theorem ofChars_injective {cs ds : List Char} (h : ofChars cs = ofChars ds) : cs = ds :=
  List.map_injective_iff.mpr (fun _ _ => CodePoint.char.inj) h

theorem ofPairs_injective {ps qs : List (List Char × List Char)} (h : ofPairs ps = ofPairs qs) :
    ps = qs := by
  refine List.map_injective_iff.mpr ?_ h
  rintro ⟨_, _⟩ ⟨_, _⟩ e
  obtain ⟨e₁, e₂⟩ := Prod.mk.inj e
  rw [ofChars_injective e₁, ofChars_injective e₂]

theorem mapM_eq_some_map_iff {α β : Type} {f : α → Option β} {g : α → β} {l : List α} :
    l.mapM f = some (l.map g) ↔ ∀ a ∈ l, f a = some (g a) := by
  induction l
  case nil => simp
  case cons a l ih =>
    rw [List.mapM_cons, List.forall_mem_cons, ← ih, List.map_cons]
    cases f a <;> cases l.mapM f <;> simp

-- The constructor follows the parser exactly on the strings whose parts are well spelled, and what
-- is serialized is parsed back.
theorem parse_iff_wellSpelled_and_round_trip (D : Utf8Decoder) :
    (∀ init, parse init = some (formParse D init) ↔ ∀ part ∈ partsOf init, PartWellSpelled part) ∧
    (∀ pairs, ∃ text, toString (ofPairs pairs) = some text ∧ parse text = some (ofPairs pairs)) ∧
    (∀ ps qs, toString (ofPairs ps) = toString (ofPairs qs) → ps = qs) := by
  refine ⟨fun init => ?_, fun pairs => ⟨_, toString_ofPairs pairs, parse_texts pairs⟩,
    fun ps qs h => ?_⟩
  · rw [parse_eq_mapM, formParse, mapM_eq_some_map_iff]
    exact forall₂_congr fun _ _ => parsePart_eq_formPair_iff D
  · rw [toString_ofPairs, toString_ofPairs] at h
    have hp := congrArg parse (Option.some.inj h)
    rw [parse_texts, parse_texts] at hp
    exact ofPairs_injective (Option.some.inj hp)

-- A `%` that begins no escape throws, where the parser keeps it.
theorem not_parse_percent : ¬ ∀ init, parse init = some (formParse strictDecoder init) := by
  intro h
  have hp : parse [.char '%'] = none := by decide
  have hs := h [.char '%']
  rw [hp] at hs
  cases hs

end RoundTrip

end UrlSearchParams

end Nordstjernen.Js
