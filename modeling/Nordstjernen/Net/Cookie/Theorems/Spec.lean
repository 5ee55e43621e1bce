import Nordstjernen.Net.Cookie.History

open Nordstjernen.Glib

namespace Nordstjernen.Net.Cookie

theorem gAsciiStrdown_drop (s : CString) (n : Nat) :
    gAsciiStrdown (s.drop n) = (gAsciiStrdown s).drop n :=
  List.map_drop

theorem strcaseEq_drop_iff {host d : CString} :
    (d.length ≤ host.length ∧ strcaseEq (host.drop (host.length - d.length)) d) ↔
      gAsciiStrdown d <:+ gAsciiStrdown host := by
  rw [strcaseEq_iff, gAsciiStrdown_drop, List.suffix_iff_eq_drop, length_gAsciiStrdown,
    length_gAsciiStrdown]
  constructor
  case mp => exact fun ⟨_, h⟩ => h.symm
  case mpr =>
    intro h
    have hl := congrArg List.length h
    simp only [List.length_drop, length_gAsciiStrdown] at hl
    exact ⟨by omega, h.symm⟩

theorem gAsciiTolower_eq_dot {c : Char} : gAsciiTolower c = '.' ↔ c = '.' :=
  gAsciiTolower_eq_iff (by decide)

theorem domainMatches_congr {host a b : CString} (h : gAsciiStrdown a = gAsciiStrdown b) :
    domainMatches host a = domainMatches host b := by
  have hl : a.length = b.length := by simpa using congrArg List.length h
  have hc (s : CString) : strcaseEq s a = strcaseEq s b := by simp [strcaseEq, h]
  cases a <;> cases b
  case nil.nil   => rfl
  case nil.cons  => simp at hl
  case cons.nil  => simp at hl
  case cons.cons c d c' d' =>
    obtain ⟨h₁, h₂⟩ : gAsciiTolower c = gAsciiTolower c' ∧ gAsciiStrdown d = gAsciiStrdown d' := by
      simpa [gAsciiStrdown] using h
    have hd : strcaseEq host d = strcaseEq host d' := by simp [strcaseEq, h₂]
    by_cases hdot : c = '.'
    case pos =>
      have hdot' : c' = '.' := gAsciiTolower_eq_dot.mp (h₁ ▸ gAsciiTolower_eq_dot.mpr hdot)
      subst hdot hdot'
      simp only [domainMatches, hl, hc, hd]
    case neg =>
      have hdot' : c' ≠ '.' := fun e =>
        hdot (gAsciiTolower_eq_dot.mp (h₁ ▸ gAsciiTolower_eq_dot.mpr e))
      simp [domainMatches, hdot, hdot', hc]

namespace Line

variable {l w : Line} {parts : UrlParts} {now time : Nat}

theorem domainMatches_eq (hr : l.Readable) (host : CString) :
    domainMatches host l.write.fileDomain ↔ Spec.domainReaches host l.write := by
  rw [Spec.domainReaches]
  cases ht : l.write.tail
  case false =>
    have hd := hr.domain ht
    rw [if_neg (by simp)]
    cases hf : l.write.fileDomain <;> rw [hf] at hd
    case nil => simp [domainMatches, strcaseEq_iff]
    case cons c d =>
      have hc : c ≠ '.' := by simpa using hd
      simp [domainMatches, strcaseEq_iff, hc]
  case true =>
    rw [if_pos rfl]
    cases hf : l.write.fileDomain <;> have hd := l.sound.domain_tail ht <;> rw [hf] at hd
    case nil => simp at hd
    case cons c d =>
      obtain rfl : c = '.' := by simpa using hd
      simp only [domainMatches, Bool.or_eq_true, Bool.and_eq_true, decide_eq_true_iff,
        strcaseEq_drop_iff]
      rw [strcaseEq_iff, or_comm]
      rfl

theorem pathMatches_eq (path : CString) :
    pathMatches path l.write.path ↔ Spec.pathReaches path l.write := by
  have hn : l.write.path.isEmpty = false := by simpa using l.sound.path_ne
  simp only [pathMatches, hn, Bool.false_or, Bool.and_eq_true, Bool.or_eq_true, beq_iff_eq,
    gStrHasPrefix, List.isPrefixOf_iff_prefix, Spec.pathReaches]
  refine and_congr_right fun hp => ?_
  obtain ⟨t, ht⟩ := hp
  have he : path[l.write.path.length]? = none ↔ path = l.write.path := by
    rw [← ht]
    simp
  rw [he]
  tauto

theorem reaches_eq (hr : l.Readable) : reaches parts l.write ↔ Spec.reaches parts l.write := by
  simp only [reaches, touches, Bool.and_eq_true, Bool.or_eq_true, Spec.reaches, domainMatches_eq hr,
    pathMatches_eq, and_assoc]
  cases l.write.secure <;> simp

-- An unexpired write has the expiry its attributes ask for, and it is never 0.
theorem expiry_of_deadline (hr : l.Readable) (he : l.write.expired = false) {t : Int}
    (ht : l.write.lifetime.deadline l.write.now = some t) : l.write.expiry = t ∧ 0 < t := by
  have hm := hr.expiry t ht
  have hx := l.sound.expired_eq ▸ he
  have hp : 0 < t := by
    cases hl : l.write.lifetime <;> rw [hl] at ht hx
    case session    => simp [Lifetime.deadline] at ht
    case maxAge ma  => simp [Lifetime.deadline, Lifetime.removes] at ht hx; omega
    case expires t' => simp [Lifetime.deadline, Lifetime.removes] at ht hx; omega
  have hw := l.sound.expiry_eq he
  rw [ht, Option.getD_some, wrapInt64_of_inInt64 ⟨by simp only [int64Min]; omega, hm⟩] at hw
  exact ⟨hw, hp⟩

theorem dead_eq (hr : l.Readable) (he : l.write.expired = false) :
    l.dead now = false ↔ Spec.live now l.write := by
  have hx := l.sound.expired_eq ▸ he
  rw [Spec.live, hx, dead]
  cases hd : l.write.lifetime.deadline l.write.now
  case none =>
    have hw := l.sound.expiry_eq he
    simp [hw, hd, wrapInt64]
  case some t =>
    obtain ⟨hw, hp⟩ := expiry_of_deadline hr he hd
    simp only [hw, true_and, Option.mem_def, Option.some.injEq, forall_eq', Bool.and_eq_false_iff]
    simp
    omega

theorem dead_mono (h : time ≤ now) (hd : l.dead time) : l.dead now := by
  simp only [dead, Bool.and_eq_true, decide_eq_true_iff] at hd ⊢
  exact ⟨hd.left, by omega⟩

theorem not_dead_mono (h : time ≤ now) (hd : l.dead now = false) : l.dead time = false := by
  cases ht : l.dead time
  case false => rfl
  case true  => exact absurd (dead_mono h ht) (by simp [hd])

theorem Covers.dead (h : w.Covers l) (hd : l.dead now = false) : w.dead now = false := by
  simp only [Line.dead, Bool.and_eq_false_iff, bne_eq_false_iff_eq, decide_eq_false_iff_not] at hd ⊢
  cases h.outlives
  case inl h => exact .inl h
  case inr h => have := hd.resolve_left h.left; right; omega

theorem touches_of_key (hk : w.key = l.key) : touches parts w.write = touches parts l.write := by
  simp only [key, Write.key, Prod.mk.injEq] at hk
  obtain ⟨hd, hp, -⟩ := hk
  rw [touches, touches, domainMatches_congr hd, hp]

theorem reaches_of_key (hk : w.key = l.key) (hs : w.write.secure → l.write.secure)
    (hr : reaches parts l.write) : reaches parts w.write := by
  simp only [reaches, Bool.and_eq_true, touches_of_key hk] at hr ⊢
  refine ⟨hr.left, ?_⟩
  cases h : w.write.secure
  case false => rfl
  case true  => simpa [hs h] using hr.right

theorem name_eq_of_key (hk : w.key = l.key) : w.name = l.name :=
  (Prod.ext_iff.mp (Prod.ext_iff.mp hk).right).right

end Line

end Nordstjernen.Net.Cookie
