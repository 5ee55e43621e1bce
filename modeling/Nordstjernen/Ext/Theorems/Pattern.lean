import Nordstjernen.Ext.Filter

open Nordstjernen.Glib

namespace Nordstjernen.Ext

-- The equations of what is matched on most are derived here, once for all the proofs below.
section
attribute [local simp] wildcard matchHere
end

section Filter

variable {cs endAnchor : Bool} {f c : Char} {p u v s url : CString}

-- A letter stays one.
theorem isAlpha_gAsciiTolower (c : Char) : (gAsciiTolower c).isAlpha = c.isAlpha := by
  cases h : (gAsciiTolower c).isAlpha
  case false =>
    have he : c = gAsciiTolower c := (gAsciiTolower_eq_iff h).mp rfl
    exact ((congrArg Char.isAlpha he).trans h).symm
  case true  =>
    cases hc : c.isAlpha
    case false =>
      rw [(gAsciiTolower_eq_iff hc).mpr rfl, hc] at h
      cases h
    case true  => rfl

theorem isSeparator_gAsciiTolower (c : Char) : isSeparator (gAsciiTolower c) = isSeparator c := by
  cases hc : c.isAlpha
  case false => rw [(gAsciiTolower_eq_iff hc).mpr rfl]
  case true  => simp [isSeparator, Char.isAlphanum, isAlpha_gAsciiTolower, hc]

@[simp]
theorem fold_nil : fold cs [] = [] := by
  cases cs <;> rfl

-- Folding is character by character.
def foldChar (cs : Bool) (c : Char) : Char :=
  if cs then c else gAsciiTolower c

theorem fold_eq_map : fold cs s = s.map (foldChar cs) := by
  cases cs
  case false => rfl
  case true  => exact (List.map_id s).symm

theorem sameChar_iff : SameChar cs f c ↔ foldChar cs f = foldChar cs c := by
  cases cs <;> rfl

theorem isSeparator_foldChar : isSeparator (foldChar cs c) = isSeparator c := by
  cases cs
  case false => exact isSeparator_gAsciiTolower c
  case true  => rfl

theorem foldChar_eq_iff {d : Char} (h : d.isAlpha = false) : foldChar cs f = d ↔ f = d := by
  cases cs
  case false => exact gAsciiTolower_eq_iff h
  case true  => rfl

-- What the pattern means, beginning at a text.
def Accepts (cs endAnchor : Bool) (p url : CString) : Prop :=
  ∃ u v, url = u ++ v ∧ (endAnchor → v = []) ∧ Matches cs p u v

namespace Accepts

theorem nil_iff : Accepts cs endAnchor [] url ↔ (endAnchor → url = []) := by
  constructor
  · rintro ⟨u, v, rfl, hv, hm⟩
    cases hm
    exact hv
  · exact fun h => ⟨[], url, rfl, h, .nil⟩

theorem star_iff : Accepts cs endAnchor ('*' :: p) url ↔
    ∃ t t', url = t ++ t' ∧ Accepts cs endAnchor p t' := by
  constructor
  · rintro ⟨u, v, rfl, hv, hm⟩
    cases hm
    case star t u hm => exact ⟨t, u ++ v, by rw [List.append_assoc], u, v, rfl, hv, hm⟩
    case char hf _ _ => exact absurd rfl hf.left
  · rintro ⟨t, _, rfl, u, v, rfl, hv, hm⟩
    exact ⟨t ++ u, v, (List.append_assoc t u v).symm, hv, .star hm⟩

theorem separator_nil_iff : Accepts cs endAnchor ('^' :: p) [] ↔ Accepts cs endAnchor p [] := by
  constructor
  · rintro ⟨u, v, he, hv, hm⟩
    obtain ⟨rfl, rfl⟩ := List.append_eq_nil_iff.mp he.symm
    cases hm
    case finish hm => exact ⟨[], [], rfl, hv, hm⟩
  · rintro ⟨u, v, he, hv, hm⟩
    obtain ⟨rfl, rfl⟩ := List.append_eq_nil_iff.mp he.symm
    exact ⟨[], [], rfl, hv, .finish hm⟩

theorem separator_cons_iff : Accepts cs endAnchor ('^' :: p) (c :: url) ↔
    isSeparator c ∧ Accepts cs endAnchor p url := by
  constructor
  · rintro ⟨u, v, he, hv, hm⟩
    cases hm
    case separator u hc hm =>
      obtain ⟨rfl, rfl⟩ := List.cons_eq_cons.mp he
      exact ⟨hc, u, v, rfl, hv, hm⟩
    case finish     => cases he
    case char hf _ _ => exact absurd rfl hf.right
  · rintro ⟨hc, u, v, rfl, hv, hm⟩
    exact ⟨c :: u, v, rfl, hv, .separator hc hm⟩

theorem char_nil_iff (hf : f ≠ '*' ∧ f ≠ '^') : ¬Accepts cs endAnchor (f :: p) [] := by
  rintro ⟨u, v, he, _, hm⟩
  obtain ⟨rfl, rfl⟩ := List.append_eq_nil_iff.mp he.symm
  generalize hu : ([] : CString) = u at hm
  cases hm
  case star   => exact hf.left rfl
  case finish => exact hf.right rfl
  case separator => cases hu
  case char => cases hu

theorem char_cons_iff (hf : f ≠ '*' ∧ f ≠ '^') :
    Accepts cs endAnchor (f :: p) (c :: url) ↔ SameChar cs f c ∧ Accepts cs endAnchor p url := by
  constructor
  · rintro ⟨u, v, he, hv, hm⟩
    cases hm
    case star      => exact absurd rfl hf.left
    case separator => exact absurd rfl hf.right
    case finish    => exact absurd rfl hf.right
    case char u _ hc hm =>
      obtain ⟨rfl, rfl⟩ := List.cons_eq_cons.mp he
      exact ⟨hc, u, v, rfl, hv, hm⟩
  · rintro ⟨hc, u, v, rfl, hv, hm⟩
    exact ⟨c :: u, v, rfl, hv, .char hf hc hm⟩

end Accepts

theorem fold_append : fold cs (u ++ v) = fold cs u ++ fold cs v := by
  simp [fold_eq_map]

theorem matchesExactly (p : CString) : MatchesExactly p := by
  intro cs endAnchor url
  change _ ↔ Accepts cs endAnchor p url
  induction p generalizing url
  case nil =>
    rw [fold_nil, Accepts.nil_iff, matchHere]
    cases endAnchor <;> simp [fold_eq_map]
  case cons f p hind =>
    have hfold : fold cs (f :: p) = foldChar cs f :: fold cs p := by simp [fold_eq_map]
    rw [hfold]
    by_cases hs : f = '*'
    case pos =>
      subst hs
      rw [(foldChar_eq_iff rfl).mpr rfl, Accepts.star_iff]
      simp only [matchHere, Bool.or_eq_true, List.isEmpty_iff, List.any_eq_true, List.mem_tails]
      constructor
      · rintro (he | ⟨t, ht, hm⟩)
        · have hp : p = [] := by simpa [fold_eq_map] using he
          subst hp
          exact ⟨url, [], (List.append_nil url).symm, Accepts.nil_iff.mpr fun _ => rfl⟩
        · obtain ⟨r, hr⟩ := ht
          rw [fold_eq_map, eq_comm, List.map_eq_append_iff] at hr
          obtain ⟨t', u', rfl, _, rfl⟩ := hr
          rw [← fold_eq_map] at hm
          exact ⟨t', u', rfl, (hind u').mp hm⟩
      · rintro ⟨t, t', rfl, h⟩
        exact .inr ⟨fold cs t', fold_append ▸ List.suffix_append _ _, (hind t').mpr h⟩
    case neg =>
      by_cases hh : f = '^'
      case pos =>
        subst hh
        rw [(foldChar_eq_iff rfl).mpr rfl]
        cases url
        case nil       => rw [fold_nil, matchHere, Accepts.separator_nil_iff, ← hind, fold_nil]
        case cons c url =>
          have hc : fold cs (c :: url) = foldChar cs c :: fold cs url := by simp [fold_eq_map]
          rw [hc, matchHere, Bool.and_eq_true, isSeparator_foldChar, hind, Accepts.separator_cons_iff]
      case neg =>
        have hf : foldChar cs f ≠ '*' ∧ foldChar cs f ≠ '^' :=
          ⟨fun h => hs ((foldChar_eq_iff rfl).mp h), fun h => hh ((foldChar_eq_iff rfl).mp h)⟩
        cases url
        case nil        =>
          refine iff_of_false ?_ (Accepts.char_nil_iff ⟨hs, hh⟩)
          rw [fold_nil, matchHere]
          · exact Bool.false_ne_true
          · exact hf.left
          · exact hf.right
        case cons c url =>
          have hc : fold cs (c :: url) = foldChar cs c :: fold cs url := by simp [fold_eq_map]
          rw [hc, matchHere, Bool.and_eq_true, beq_iff_eq, hind, Accepts.char_cons_iff ⟨hs, hh⟩,
            sameChar_iff, eq_comm]
          · exact hf.left
          · exact hf.right

end Filter

section Glob

variable {c : Char} {p s : CString}

theorem mem_glob_nil : s ∈ glob [] ↔ s = [] := by
  simp [glob, Language.mem_one]

theorem mem_glob_star : s ∈ glob ('*' :: p) ↔ ∃ t t', s = t ++ t' ∧ t' ∈ glob p := by
  simp only [glob, List.map_cons, List.prod_cons, if_true, Language.mem_mul]
  constructor
  · rintro ⟨t, _, t', h, rfl⟩
    exact ⟨t, t', rfl, h⟩
  · rintro ⟨t, t', rfl, h⟩
    exact ⟨t, trivial, t', h, rfl⟩

theorem mem_glob_cons (hc : c ≠ '*') : s ∈ glob (c :: p) ↔ ∃ t, s = c :: t ∧ t ∈ glob p := by
  simp only [glob, List.map_cons, List.prod_cons, if_neg hc, Language.mem_mul]
  constructor
  · rintro ⟨_, rfl, t', h, rfl⟩
    exact ⟨t', rfl, h⟩
  · rintro ⟨t, rfl, h⟩
    exact ⟨[c], rfl, t, h, rfl⟩

-- The pattern without its stars.
def letters (p : CString) : CString :=
  p.filter (· ≠ '*')

def EndsTwoStars (p : CString) : Prop :=
  ['*', '*'] <:+ p

theorem EndsTwoStars.cons (h : EndsTwoStars p) : EndsTwoStars (c :: p) :=
  h.trans (List.suffix_cons c p)

theorem endsTwoStars_cons_iff : EndsTwoStars (c :: p) ↔ c = '*' ∧ p = ['*'] ∨ EndsTwoStars p := by
  rw [EndsTwoStars, List.suffix_cons_iff, List.cons_eq_cons, eq_comm (a := '*'), eq_comm (b := p)]
  exact Iff.rfl

theorem letters_mem_glob (p : CString) : letters p ∈ glob p := by
  induction p
  case nil           => exact mem_glob_nil.mpr rfl
  case cons c p hind =>
    by_cases hc : c = '*'
    case pos =>
      subst hc
      exact mem_glob_star.mpr ⟨[], letters p, by simp [letters], hind⟩
    case neg => exact (mem_glob_cons hc).mpr ⟨letters p, by simp [letters, hc], hind⟩

-- Only a pattern of stars matches the empty text.
theorem eq_star_of_nil_mem (h : [] ∈ glob p) : ∀ c ∈ p, c = '*' := by
  induction p
  case nil           => simp
  case cons c p hind =>
    by_cases hc : c = '*'
    case pos =>
      subst hc
      obtain ⟨t, t', he, ht⟩ := mem_glob_star.mp h
      obtain ⟨rfl, rfl⟩ := List.append_eq_nil_iff.mp he.symm
      simpa using hind ht
    case neg =>
      obtain ⟨t, he, _⟩ := (mem_glob_cons hc).mp h
      cases he

theorem endsTwoStars_of_stars (hp : p ≠ []) (h : ∀ c ∈ p, c = '*') : EndsTwoStars ('*' :: p) := by
  induction p
  case nil           => exact absurd rfl hp
  case cons c p hind =>
    obtain ⟨hc, hcs⟩ := List.forall_mem_cons.mp h
    subst hc
    by_cases hn : p = []
    case pos => exact hn ▸ List.suffix_rfl
    case neg => exact (hind hn hcs).cons

theorem wildcard_star_iff (hp : p ≠ []) : wildcard ('*' :: p) s ↔
    ∃ t t', s = t ++ t' ∧ t' ≠ [] ∧ wildcard p t' := by
  have he : p.isEmpty = false := by simpa using hp
  simp only [wildcard, he, Bool.false_or, List.any_eq_true, List.mem_tails, Bool.and_eq_true,
    Bool.not_eq_true']
  constructor
  · rintro ⟨t', ⟨t, rfl⟩, hn, hw⟩
    exact ⟨t, t', rfl, by simpa using hn, hw⟩
  · rintro ⟨t, t', rfl, hn, hw⟩
    exact ⟨t', List.suffix_append t t', by simpa using hn, hw⟩

theorem wildcard_cons_iff (hc : c ≠ '*') : wildcard (c :: p) s ↔ ∃ t, s = c :: t ∧ wildcard p t := by
  cases s
  case nil =>
    rw [wildcard]
    · simp
    · exact hc
  case cons d s =>
    rw [wildcard]
    · simp only [Bool.and_eq_true, beq_iff_eq]
      constructor
      · rintro ⟨rfl, hw⟩
        exact ⟨s, rfl, hw⟩
      · rintro ⟨t, he, hw⟩
        cases he
        exact ⟨rfl, hw⟩
    · exact hc

theorem wildcard_iff (h : ¬EndsTwoStars p) : wildcard p s ↔ s ∈ glob p := by
  induction p generalizing s
  case nil           => rw [mem_glob_nil, wildcard, List.isEmpty_iff]
  case cons c p hind =>
    have hind {s} := @hind s fun hp => h hp.cons
    by_cases hc : c = '*'
    case pos =>
      subst hc
      rw [mem_glob_star]
      by_cases hp : p = []
      case pos =>
        subst hp
        refine iff_of_true rfl ⟨s, [], (List.append_nil s).symm, mem_glob_nil.mpr rfl⟩
      case neg =>
        rw [wildcard_star_iff hp]
        constructor
        · rintro ⟨t, t', rfl, _, hw⟩
          exact ⟨t, t', rfl, hind.mp hw⟩
        · rintro ⟨t, t', rfl, hg⟩
          refine ⟨t, t', rfl, ?_, hind.mpr hg⟩
          rintro rfl
          exact h (endsTwoStars_of_stars hp (eq_star_of_nil_mem hg))
    case neg =>
      rw [wildcard_cons_iff hc, mem_glob_cons hc]
      simp only [hind]

-- The last of several stars at the end never gets the empty text.
theorem length_lt_of_wildcard (h : EndsTwoStars p) (hw : wildcard p s) : (letters p).length < s.length := by
  induction p generalizing s
  case nil           => simp [EndsTwoStars] at h
  case cons c p hind =>
    by_cases hc : c = '*'
    case pos =>
      subst hc
      have hp : p ≠ [] := by
        rintro rfl
        simp [EndsTwoStars, List.suffix_cons_iff] at h
      obtain ⟨t, t', rfl, hn, hwt⟩ := (wildcard_star_iff hp).mp hw
      have hl : letters ('*' :: p) = letters p := by simp [letters]
      rw [hl, List.length_append]
      obtain ⟨_, rfl⟩ | h := endsTwoStars_cons_iff.mp h
      · exact Nat.lt_of_lt_of_le (List.length_pos_iff.mpr hn) (Nat.le_add_left _ _)
      · exact Nat.lt_of_lt_of_le (hind h hwt) (Nat.le_add_left _ _)
    case neg =>
      obtain ⟨t, rfl, hwt⟩ := (wildcard_cons_iff hc).mp hw
      obtain ⟨he, _⟩ | h := endsTwoStars_cons_iff.mp h
      · exact absurd he hc
      · have hl : letters (c :: p) = c :: letters p := by simp [letters, hc]
        rw [hl]
        exact Nat.succ_lt_succ (hind h hwt)

theorem globsExactly_iff : GlobsExactly p ↔ ¬EndsTwoStars p := by
  constructor
  · intro h he
    exact absurd (length_lt_of_wildcard he ((h _).mpr (letters_mem_glob p))) (Nat.lt_irrefl _)
  · exact fun h _ => wildcard_iff h

end Glob

-- The url filters match what they mean, and the globs do unless they end in two stars.
theorem matchesExactly_and_globsExactly_iff (filter pattern : CString) :
    MatchesExactly filter ∧ GlobsExactly pattern ↔ ¬['*', '*'] <:+ pattern := by
  rw [globsExactly_iff]
  exact and_iff_right (matchesExactly filter)

theorem not_globsExactly_twoStars :
    ¬∀ filter pattern, MatchesExactly filter ∧ GlobsExactly pattern := by
  intro h
  have hw : wildcard "/**".toList "/".toList :=
    ((h [] "/**".toList).right _).mpr (letters_mem_glob "/**".toList)
  exact absurd hw (by decide)

end Nordstjernen.Ext
