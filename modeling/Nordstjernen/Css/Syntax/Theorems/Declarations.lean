import Mathlib.Data.List.Infix
import Nordstjernen.Css.Syntax.Scan
import Nordstjernen.Css.Syntax.Declarations

open Nordstjernen.Glib

namespace Nordstjernen.Css.Syntax

variable {p : CString} {blank : Char → Bool} {terms : List Char} {quote : Option Char} {n : Nesting}
  {k : Nat} {c : Char} {cs : CString}

-- The equations of what is matched on most are derived here, once for all the proofs below.
section
attribute [local simp] scanUntil skipping readIdent passOver
end

section Skipping

theorem skipping_suffix : skipping blank k p <:+ p := by
  induction p generalizing k
  case nil            => cases k <;> exact List.suffix_refl _
  case cons c cs hind =>
    have hs {k} : skipping blank k cs <:+ c :: cs := hind.trans (List.suffix_cons c cs)
    cases k
    case succ k => exact hs
    case zero   =>
      rw [skipping]
      split
      · exact hs
      · split
        · exact hs
        · exact List.suffix_refl _

theorem skipping_cons (hb : blank c = false) (hc : c ≠ '/') : skipping blank 0 (c :: cs) = c :: cs := by
  simp [skipping, hb, hc]

end Skipping

section ScanUntil

@[simp]
theorem Scanned.cons_rest {s : Scanned} : (s.cons c).rest = s.rest :=
  rfl

@[simp]
theorem Scanned.cons_term {s : Scanned} : (s.cons c).term = s.term :=
  rfl

@[simp]
theorem Scanned.cons_taken {s : Scanned} : (s.cons c).taken = c :: s.taken :=
  rfl

-- A scan takes the text apart.
theorem scanUntil_append :
    (scanUntil terms k quote n p).taken ++ (scanUntil terms k quote n p).rest = p := by
  induction p generalizing k quote n
  case nil            => cases k <;> rfl
  case cons c cs hind =>
    cases k
    case succ k => simp [scanUntil, hind]
    case zero   =>
      rw [scanUntil]
      split
      · simp [hind]
      · split
        · rfl
        · simp [hind]

theorem scanUntil_suffix : (scanUntil terms k quote n p).rest <:+ p :=
  ⟨_, scanUntil_append⟩

end ScanUntil

theorem passOver_none (h : c ≠ '/' ∧ c ≠ '\\' ∧ c ≠ '"' ∧ c ≠ '\'') : passOver none c cs = none := by
  simp [passOver, h]

-- A scan for a character that stands at its start stops right there.
theorem cssScanUntil_cons (ht : c ∈ terms ∨ c = '\x00') (h : c ≠ '/' ∧ c ≠ '\\' ∧ c ≠ '"' ∧ c ≠ '\'') :
    cssScanUntil (c :: cs) terms = ⟨[], c :: cs, c⟩ := by
  rw [cssScanUntil, scanUntil, passOver_none h]
  exact if_pos (by simpa using ht)

theorem cssScanUntil_suffix : (cssScanUntil p terms).rest <:+ p :=
  scanUntil_suffix

-- A scan gets past a character that it is not for.
theorem cssScanUntil_lt (ht : c ∉ terms) (h0 : c ≠ '\x00') :
    (cssScanUntil (c :: cs) terms).rest.length < (c :: cs).length := by
  have hs {k quote n} : (scanUntil terms k quote n cs).rest.length < (c :: cs).length :=
    Nat.lt_succ_of_le scanUntil_suffix.length_le
  rw [cssScanUntil, scanUntil]
  split
  · exact hs
  · rw [if_neg (by simp [ht, h0])]
    exact hs

section Idents

theorem readIdent_suffix : (readIdent k p).snd <:+ p := by
  induction p generalizing k
  case nil            => cases k <;> exact List.suffix_refl _
  case cons c cs hind =>
    have hs {k} : (readIdent k cs).snd <:+ c :: cs := hind.trans (List.suffix_cons c cs)
    cases k
    case succ k => exact hs
    case zero   =>
      rw [readIdent]
      split
      · split
        · exact List.suffix_cons c _
        · split
          · exact List.suffix_cons c _
          · split <;> exact hs
      · split
        · exact hs
        · exact List.suffix_refl _

-- An identifier has a character.
theorem readIdent_lt (h : (readIdent 0 p).fst ≠ []) : (readIdent 0 p).snd.length < p.length := by
  cases p
  case nil       => exact absurd rfl h
  case cons c cs =>
    have hs {k} : (readIdent k cs).snd.length < (c :: cs).length :=
      Nat.lt_succ_of_le readIdent_suffix.length_le
    rw [readIdent] at h ⊢
    split
    · split
      · exact Nat.lt_succ_self _
      · split
        · exact Nat.lt_succ_self _
        · split <;> exact hs
    · split
      · exact hs
      · simp_all

theorem readIdent_cons (hc : c ≠ '\\') (hi : isIdent c = false) :
    readIdent 0 (c :: cs) = ([], c :: cs) := by
  simp [readIdent, hc, hi]

theorem readCssIdent_suffix : (readCssIdent p).snd <:+ p :=
  readIdent_suffix

theorem readCssIdent_lt (h : (readCssIdent p).fst ≠ []) : (readCssIdent p).snd.length < p.length := by
  refine readIdent_lt fun hn => h ?_
  simp [readCssIdent, hn, gStrndup]

end Idents

end Nordstjernen.Css.Syntax

open Nordstjernen.Glib Nordstjernen.Lib

namespace Nordstjernen.Css.Syntax

namespace Block

variable {δ : Type*} {expander : Expander δ} {b b' : Block δ} {p : CString} {pname rawVtext : CString}

-- A cursor from which the recovery after a missing name does not get away.
def stalls (p : CString) : Bool :=
  p.head? == some '{' || p.head? == some '\x00'

-- Every iteration brings the cursor forward or leaves the loop, and one leaves it.
structure Terminates (expander : Expander δ) (b : Block δ) : Prop where
  returns  : Returns (iteration expander) b
  advances : ∀ b', Visits (iteration expander) b b' → ∀ b'', iteration expander b' = .yield b'' →
    b''.p <:+ b'.p ∧ b''.p.length < b'.p.length

section Resync

theorem resync_suffix : resync p <:+ p := by
  rw [resync]
  split
  · exact (List.tail_suffix _).trans cssScanUntil_suffix
  · exact cssScanUntil_suffix

theorem resync_of_stalls (h : stalls p) : resync p = p := by
  cases p
  case nil       => rfl
  case cons c cs =>
    have hc : c = '{' ∨ c = '\x00' := by simpa [stalls] using h
    have hs : cssScanSegment (c :: cs) = ⟨[], c :: cs, c⟩ := by
      refine cssScanUntil_cons ?_ ?_ <;> rcases hc with rfl | rfl <;> decide
    rw [resync, hs]
    exact if_neg (by rcases hc with rfl | rfl <;> simp)

theorem resync_lt (hc : closed p = false) (hs : stalls p = false) : (resync p).length < p.length := by
  cases p
  case nil       => simp [closed] at hc
  case cons c cs =>
    have hc : c ≠ '}' := by simpa [closed] using hc
    have hs : c ≠ '{' ∧ c ≠ '\x00' := by simpa [stalls] using hs
    by_cases hse : c = ';'
    case pos =>
      have hscan : cssScanSegment (c :: cs) = ⟨[], c :: cs, c⟩ := by
        refine cssScanUntil_cons ?_ ?_ <;> rw [hse] <;> decide
      rw [resync, hscan, if_pos hse]
      exact Nat.lt_succ_self _
    case neg =>
      have hlt : (cssScanSegment (c :: cs)).rest.length < (c :: cs).length :=
        cssScanUntil_lt (by simp [hc, hs, hse]) hs.right
      rw [resync]
      split
      · exact Nat.lt_of_le_of_lt (List.length_tail ▸ Nat.sub_le _ _) hlt
      · exact hlt

end Resync

section Iteration

theorem afterValue_suffix : afterValue (cssScanDeclarationValue p) <:+ p := by
  rw [afterValue]
  split
  · exact (List.tail_suffix _).trans cssScanUntil_suffix
  · exact cssScanUntil_suffix

theorem iteration_of_stalls (h : stalls b.p) : iteration expander b = .yield b := by
  obtain ⟨c, cs, hp, hc⟩ : ∃ c cs, b.p = c :: cs ∧ (c = '{' ∨ c = '\x00') := by
    cases hp : b.p
    case nil       => simp [stalls, hp] at h
    case cons c cs => exact ⟨c, cs, rfl, by simpa [stalls, hp] using h⟩
  have hcl : closed b.p = false := by
    rcases hc with rfl | rfl <;> simp [closed, hp]
  have hs : skipping (fun c => isWs c || c == ';') 0 b.p = b.p := by
    rw [hp]
    rcases hc with rfl | rfl <;> exact skipping_cons (by decide) (by decide)
  have hr : readCssIdent b.p = ([], b.p) := by
    rw [hp, readCssIdent, readIdent_cons]
    · rfl
    all_goals rcases hc with rfl | rfl <;> decide
  simp only [iteration, hs, hcl, hr, resync_of_stalls h]
  rfl

-- An iteration that does not leave brings the cursor forward, but for such a cursor.
theorem iteration_yield (h : iteration expander b = .yield b') (hs : stalls b.p = false) :
    b'.p <:+ b.p ∧ b'.p.length < b.p.length := by
  have hsk := @skipping_suffix b.p (fun c => isWs c || c == ';') 0
  rw [iteration] at h
  generalize skipping (fun c => isWs c || c == ';') 0 b.p = p₁ at h hsk
  have hid := @readCssIdent_suffix p₁
  split at h
  case isTrue  => cases h
  case isFalse hc =>
    dsimp only at h
    split at h
    case isTrue  => cases h
    case isFalse hc₁ =>
      split at h
      case isTrue hn =>
        -- Without a name, the recovery is from where the name would be.
        cases h
        have hp₂ := hid.trans hsk
        refine ⟨resync_suffix.trans hp₂, ?_⟩
        obtain hlt | he := Nat.lt_or_eq_of_le hp₂.length_le
        · exact Nat.lt_of_le_of_lt resync_suffix.length_le hlt
        · have hb : (readCssIdent p₁).snd = b.p := hp₂.eq_of_length he
          rw [hb]
          exact resync_lt (Bool.eq_false_iff.mpr hc) hs
      case isFalse hn =>
        have hlt := Nat.lt_of_lt_of_le (readCssIdent_lt hn) hsk.length_le
        have hws : skipping isWs 0 (readCssIdent p₁).snd <:+ (readCssIdent p₁).snd := skipping_suffix
        split at h
        case isTrue  =>
          cases h
          have hr := resync_suffix.trans hws
          exact ⟨hr.trans (hid.trans hsk), Nat.lt_of_le_of_lt hr.length_le hlt⟩
        case isFalse =>
          cases h
          have hv := afterValue_suffix.trans ((List.tail_suffix _).trans hws)
          exact ⟨hv.trans (hid.trans hsk), Nat.lt_of_le_of_lt hv.length_le hlt⟩

theorem iteration_measure (b b' : Block δ) (h : iteration expander b = .yield b') :
    b' = b ∨ b'.p.length < b.p.length := by
  cases hs : stalls b.p
  case false => exact .inr (iteration_yield h hs).right
  case true  =>
    rw [iteration_of_stalls hs] at h
    cases h
    exact .inl rfl

theorem stalls_iff : stalls b.p ↔ iteration expander b = .yield b := by
  constructor
  · exact iteration_of_stalls
  · intro h
    by_contra hs
    exact absurd (iteration_yield h (Bool.eq_false_iff.mpr hs)).right (Nat.lt_irrefl _)

theorem returns_iff_not_stalls : Returns (iteration expander) b ↔
    ∀ b', Visits (iteration expander) b b' → stalls b'.p = false := by
  rw [returns_iff iteration_measure]
  refine forall₂_congr fun b' _ => ?_
  rw [ne_eq, ← stalls_iff, Bool.not_eq_true]

theorem visits_suffix (h : Visits (iteration expander) b b') : b'.p <:+ b.p := by
  induction h
  case refl => exact List.suffix_refl _
  case tail b₁ b₂ hv hb hind =>
    cases hs : stalls b₁.p
    case false => exact (iteration_yield hb hs).left.trans hind
    case true  =>
      rw [iteration_of_stalls hs] at hb
      cases hb
      exact hind

-- A block without a brace in it ends.
theorem returns_of_not_mem (h : '{' ∉ b.p ∧ '\x00' ∉ b.p) : Returns (iteration expander) b := by
  refine returns_iff_not_stalls.mpr fun b' hv => Bool.eq_false_iff.mpr fun hs => ?_
  have hp {c} (hc : b'.p.head? = some c) : c ∈ b.p :=
    (visits_suffix hv).subset (List.mem_of_mem_head? hc)
  obtain hc | hc := by simpa [stalls] using hs
  · exact h.left (hp hc)
  · exact h.right (hp hc)

theorem isSome_parseDeclarationBlock_iff :
    (parseDeclarationBlock expander b).isSome ↔ Returns (iteration expander) b := by
  rw [parseDeclarationBlock, Option.isSome_map, Option.isSome_iff_ne_none, ne_eq,
    loop_eq_none_iff iteration_measure (Nat.lt_succ_self _), not_not]

end Iteration

-- The loop ends, and every iteration of it advances, if no iteration begins at a brace that opens a
-- block, or at the byte `\x00`.
theorem terminates_iff (expander : Expander δ) (b : Block δ) :
    Terminates expander b ↔ ∀ b', Visits (iteration expander) b b' → stalls b'.p = false := by
  rw [← returns_iff_not_stalls]
  constructor
  · exact fun h => h.returns
  · intro h
    refine ⟨h, fun b' hv b'' hy => iteration_yield hy ?_⟩
    exact returns_iff_not_stalls.mp h b' hv

theorem not_terminates_nestedBrace :
    ¬∀ (expander : Expander Unit) (b : Block Unit), Terminates expander b := by
  intro h
  have hv : Visits (iteration fun _ _ _ => []) (⟨"x{}: initial;".toList, [], none⟩ : Block Unit)
      ⟨"{}: initial;".toList, [], none⟩ :=
    .single rfl
  have hs := returns_iff_not_stalls.mp (h _ _).returns _ hv
  exact absurd hs (by decide)

end Block

-- A name without a brace in it is answered.
theorem isSome_nsCssNamedPropertySupported {δ : Type*} {expander : Expander δ} {isProp : CString → Bool}
    {name : CString} (h : '{' ∉ name ∧ '\x00' ∉ name) :
    (nsCssNamedPropertySupported expander isProp name).isSome := by
  have ht : Returns (Block.iteration expander) { p := name ++ ": initial;".toList } := by
    refine Block.returns_of_not_mem ?_
    simp only [List.mem_append, not_or]
    exact ⟨⟨h.left, by decide⟩, ⟨h.right, by decide⟩⟩
  simp only [nsCssNamedPropertySupported]
  repeat' split
  all_goals first | rfl | rw [Option.isSome_map, Block.isSome_parseDeclarationBlock_iff]; exact ht

theorem isSome_nsCssNamedPropertySupported_color :
    (nsCssNamedPropertySupported (δ := Unit) (fun _ _ _ => []) (fun _ => false) "color".toList).isSome :=
  isSome_nsCssNamedPropertySupported (by decide)

end Nordstjernen.Css.Syntax
