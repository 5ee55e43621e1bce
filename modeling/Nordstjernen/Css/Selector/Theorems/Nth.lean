import Nordstjernen.Css.Selector.Tree
import Nordstjernen.Css.Selector.Theorems.AnB

open Nordstjernen.Glib

namespace Nordstjernen.Css.Selector

-- The equations of what is matched on most are derived here, once for all the proofs below.
section
attribute [local simp] siblingCountsForNth countChildren answers
end

-- The division of C leaves no rest if and only if the index is a multiple away, whatever the signs are.
theorem matchAnb_iff {a b idx : Int} : matchAnb a b idx ↔ ∃ n : Nat, idx = a * n + b := by
  rw [matchAnb]
  split
  case isTrue ha =>
    subst ha
    simp
  case isFalse ha =>
    simp only [Bool.and_eq_true, beq_iff_eq, Bool.not_eq_true', decide_eq_false_iff_not, Int.not_lt]
    constructor
    · rintro ⟨hm, hd⟩
      obtain ⟨k, hk⟩ := Int.dvd_of_tmod_eq_zero hm
      rw [hk, Int.mul_tdiv_cancel_left _ ha] at hd
      refine ⟨k.toNat, ?_⟩
      rw [Int.toNat_of_nonneg hd]
      omega
    · rintro ⟨n, rfl⟩
      have he : a * n + b - b = a * n := by omega
      rw [he, Int.mul_tdiv_cancel_left _ ha]
      exact ⟨Int.tmod_eq_zero_of_dvd (Int.dvd_mul_right a n), Int.natCast_nonneg n⟩

variable {ν : Type*} {σ : Type} [DecidableEq ν] {links : Links ν} {groupMatches : List σ → ν → Bool}
  {el p s : ν} {pc : PseudoPred σ} {cache : NthCache ν}

section Walk

omit [DecidableEq ν] in
theorem getElem?_append_cons_iff {x y : List ν} {i : Nat} (h : (x ++ el :: y).Nodup) :
    (x ++ el :: y)[i]? = some el ↔ i = x.length := by
  have hx : (x ++ el :: y)[x.length]? = some el := by simp
  constructor
  · intro hi
    exact ((List.getElem?_inj (by simp) h).mp (hx.trans hi.symm)).symm
  · rintro rfl
    exact hx

-- What the walk counts is in front of the element among those that count.
omit [DecidableEq ν] in
theorem counted_eq (hel : links.isElement el) (hg : ∀ group ∈ pc.ofGroup, groupMatches group el) :
    ∃ x y, counted links groupMatches el pc = x ++ el :: y ∧ (x ++ el :: y).Nodup ∧
      x.length = (if pc.kind.reverse then links.next el else links.prev el).countP
        (countsSibling links groupMatches el pc) := by
  have hsome := links.named hel
  have hp : (countsSibling links groupMatches el pc) = fun s =>
      links.isElement s && (!pc.kind.typed || links.name s == links.name el) &&
        pc.ofGroup.all (groupMatches · s) := by
    funext s
    simp [countsSibling, hsome]
  have hself : countsSibling links groupMatches el pc el := by
    rw [hp]
    simp only [hel, Bool.true_and, beq_self_eq_true, Bool.or_true]
    cases ho : pc.ofGroup
    case none       => rfl
    case some group => exact hg group ho
  have hnd := links.nodup el
  rw [counted, ← hp]
  cases pc.kind.reverse
  case false =>
    have he : ((links.prev el).reverse ++ el :: links.next el).filter (countsSibling links groupMatches el pc) =
        (links.prev el).reverse.filter (countsSibling links groupMatches el pc) ++
          el :: (links.next el).filter (countsSibling links groupMatches el pc) := by
      rw [List.filter_append, List.filter_cons_of_pos hself]
    refine ⟨_, _, he, he ▸ hnd.filter _, ?_⟩
    rw [← List.countP_eq_length_filter, List.countP_reverse]
    rfl
  case true =>
    have he : ((links.prev el).reverse ++ el :: links.next el).reverse.filter
        (countsSibling links groupMatches el pc) =
        (links.next el).reverse.filter (countsSibling links groupMatches el pc) ++
          el :: (links.prev el).filter (countsSibling links groupMatches el pc) := by
      rw [List.reverse_append, List.reverse_reverse, List.reverse_cons, List.append_assoc, List.filter_append,
        List.singleton_append, List.filter_cons_of_pos hself]
    refine ⟨_, _, he, he ▸ ((List.reverse_perm _).nodup_iff.mpr hnd).filter _, ?_⟩
    rw [← List.countP_eq_length_filter, List.countP_reverse]
    rfl

theorem matchNth_none (el : ν) (pc : PseudoPred σ) : matchNth links groupMatches none el pc =
    ((walkSiblings links groupMatches el pc).any (matchAnb pc.a pc.b), none) :=
  rfl

theorem matchNth_iff (hel : links.isElement el) :
    (matchNth links groupMatches none el pc).fst ↔ NthMatches links groupMatches el pc := by
  rw [matchNth_none, walkSiblings]
  split
  case isTrue hg =>
    -- The element itself is not in the group.
    refine iff_of_false (by simp) ?_
    rintro ⟨i, n, hi, _⟩
    have hm := List.of_mem_filter (List.mem_of_getElem? hi)
    cases ho : pc.ofGroup
    case none       => simp [ho] at hg
    case some group =>
      have hf : groupMatches group el = false := by simpa [ho] using hg
      simp [ho, hf] at hm
  case isFalse hg =>
    have hg : ∀ group ∈ pc.ofGroup, groupMatches group el := by
      intro group ho
      rw [Option.mem_def.mp ho] at hg
      simpa using hg
    obtain ⟨x, y, he, hnd, hx⟩ := counted_eq hel hg
    rw [Option.any_some, matchAnb_iff, NthMatches, he]
    constructor
    · rintro ⟨n, hn⟩
      exact ⟨x.length, n, (getElem?_append_cons_iff hnd).mpr rfl, by rw [hx]; omega⟩
    · rintro ⟨i, n, hi, hn⟩
      obtain rfl := (getElem?_append_cons_iff hnd).mp hi
      exact ⟨n, by rw [hx] at hn; omega⟩

end Walk

section Batch

variable {ss x y : List ν} {indices : ν → Option Int} {c : Int}

theorem countChildren_snd : (countChildren links ss indices c).snd = c + ss.countP links.isElement := by
  induction ss generalizing indices c
  case nil            => simp [countChildren]
  case cons s ss hind =>
    rw [countChildren]
    split
    case isTrue hs  => rw [hind, List.countP_cons_of_pos hs]; push_cast; omega
    case isFalse hs => rw [hind, List.countP_cons_of_neg hs]

theorem countChildren_of_not_mem (h : s ∉ ss) : (countChildren links ss indices c).fst s = indices s := by
  induction ss generalizing indices c
  case nil             => rfl
  case cons s' ss hind =>
    obtain ⟨hne, hm⟩ := not_or.mp (mt List.mem_cons.mpr h)
    rw [countChildren]
    split
    case isTrue  => rw [hind hm, Function.update_of_ne hne]
    case isFalse => rw [hind hm]

-- A child gets the number of the elements up to it.
theorem countChildren_of_split (h : (x ++ s :: y).Nodup) (hs : links.isElement s) :
    (countChildren links (x ++ s :: y) indices c).fst s = some (c + x.countP links.isElement + 1) := by
  induction x generalizing indices c
  case nil =>
    have hy : s ∉ y := (List.nodup_cons.mp h).left
    rw [List.nil_append, countChildren, if_pos hs, countChildren_of_not_mem hy, Function.update_self]
    simp
  case cons s' x hind =>
    have hx := (List.nodup_cons.mp h).right
    rw [List.cons_append, countChildren]
    split
    case isTrue hs'  => rw [hind hx, List.countP_cons_of_pos hs']; push_cast; congr 1; omega
    case isFalse hs' => rw [hind hx, List.countP_cons_of_neg hs']

-- Where a parent is counted, its children have their numbers.
structure Filled (links : Links ν) (cache : NthCache ν) : Prop where
  count : ∀ p c, cache.counts p = some c → c = (links.children p).countP links.isElement
  index : ∀ p c, cache.counts p = some c → ∀ s ∈ links.children p, links.isElement s →
    cache.indices s = some (1 + ((links.prev s).countP links.isElement : Int))

theorem Filled.fillCache (h : Filled links cache) (p : ν) :
    Filled links (fillCache links p cache) ∧ ((fillCache links p cache).counts p).isSome := by
  rw [Selector.fillCache]
  split
  case isTrue hs => exact ⟨h, hs⟩
  case isFalse   =>
    refine ⟨⟨fun q c hq => ?_, fun q c hq s hm hs => ?_⟩, by simp⟩
    · dsimp only at hq
      by_cases hqp : q = p
      case pos =>
        subst hqp
        rw [Function.update_self, Option.some_inj] at hq
        rw [← hq, countChildren_snd, Int.zero_add]
      case neg =>
        rw [Function.update_of_ne hqp] at hq
        exact h.count q c hq
    · dsimp only at hq ⊢
      by_cases hqp : q = p
      case pos =>
        subst hqp
        have hsib := links.siblings (links.owner hm)
        rw [hsib, countChildren_of_split (hsib ▸ links.nodup s) hs, List.countP_reverse]
        congr 1
        omega
      case neg =>
        rw [Function.update_of_ne hqp] at hq
        have hnm : s ∉ links.children p := fun hm' =>
          hqp (Option.some_inj.mp ((links.owner hm).symm.trans (links.owner hm')))
        rw [countChildren_of_not_mem hnm]
        exact h.index q c hq s hm hs

-- The index that is read from the cache is the one of the walk.
theorem Filled.siblingCountsForNth (h : Filled links cache) (groupMatches : List σ → ν → Bool)
    (pc : PseudoPred σ) (hel : links.isElement el) :
    ∃ cache', Selector.siblingCountsForNth links groupMatches (some cache) el pc =
      (walkSiblings links groupMatches el pc, some cache') ∧ Filled links cache' := by
  cases hp : (if pc.ofGroup.isNone && (pc.kind = .nthChild || pc.kind = .nthLastChild) then links.parent el
    else none)
  case none =>
    refine ⟨cache, ?_, h⟩
    rw [Selector.siblingCountsForNth]
    simp only [hp]
  case some p =>
    obtain ⟨hc, hpar⟩ : (pc.ofGroup = none ∧ (pc.kind = .nthChild ∨ pc.kind = .nthLastChild)) ∧
        links.parent el = some p := by
      split at hp
      case isTrue hc => exact ⟨by simpa using hc, hp⟩
      case isFalse   => cases hp
    obtain ⟨hf, hs⟩ := h.fillCache p
    obtain ⟨c, hcount⟩ := Option.isSome_iff_exists.mp hs
    have hsib := links.siblings hpar
    have hidx := hf.index p c hcount el (by rw [hsib]; simp) hel
    have hc' := hf.count p c hcount
    refine ⟨Selector.fillCache links p cache, ?_, hf⟩
    rw [Selector.siblingCountsForNth]
    simp only [hp, cachedIndex, hidx, hcount, Option.getD_some, Option.map_some, Prod.map_apply, id]
    have hcs : countsSibling links groupMatches el pc = links.isElement := by
      funext s
      have ht : pc.kind.typed = false := by
        obtain hk | hk := hc.right <;> rw [hk] <;> rfl
      simp [countsSibling, ht, hc.left]
    rw [walkSiblings, hcs, hc.left]
    obtain hk | hk := hc.right
    · simp [hk, Pseudo.reverse]
    · simp only [hk, Pseudo.reverse, decide_true, if_true, Option.any_none, Bool.false_eq_true, if_false,
        Bool.true_or]
      have he : c - (1 + ((links.prev el).countP links.isElement : Nat)) + 1 =
          1 + ((links.next el).countP links.isElement : Nat) := by
        rw [hc', hsib, List.countP_append, List.countP_reverse, List.countP_cons_of_pos hel]
        omega
      rw [he]

theorem answers_of_filled (h : Filled links cache) {qs : List (ν × PseudoPred σ)}
    (hqs : ∀ q ∈ qs, links.isElement q.fst) :
    answers links groupMatches (some cache) qs = answers links groupMatches none qs := by
  induction qs generalizing cache
  case nil           => rfl
  case cons q qs hind =>
    obtain ⟨el, pc⟩ := q
    obtain ⟨hel, hqs⟩ := List.forall_mem_cons.mp hqs
    obtain ⟨cache', he, h'⟩ := h.siblingCountsForNth groupMatches pc hel
    rw [answers, answers, matchNth_none, matchNth, he]
    simp only [hind h' hqs]

omit [DecidableEq ν] in
theorem filled_empty : Filled links {} :=
  ⟨fun _ _ h => by simp at h, fun _ _ h => by simp at h⟩

theorem nthExact (links : Links ν) (groupMatches : List σ → ν → Bool) : NthExact links groupMatches :=
  ⟨fun _ _ hel => matchNth_iff hel, fun _ hqs => answers_of_filled filled_empty hqs⟩

end Batch

-- `parse_anb` takes what is in the microsyntax, and the tests match what they mean, unless white space that
-- is dropped is where the microsyntax has none.
theorem anbExact_and_nthExact_iff (text : CString) (links : Links ν) (groupMatches : List σ → ν → Bool) :
    AnbExact text ∧ NthExact links groupMatches ↔ AnbRegular text := by
  rw [← anbExact_iff]
  exact and_iff_left (nthExact links groupMatches)

theorem not_anbExact_blankInNumber : ¬∀ text, AnbExact text := by
  intro h
  obtain ⟨a, b, ht, _⟩ := (h "1 2".toList 0 12).mp (by decide)
  obtain ⟨r, n, hn, he⟩ := (isAnPlusB_iff.mp ht).right.left ['1'] ' ' ['2'] (by decide) (by decide)
  have hm : n ∈ squeeze ['1'] := by
    obtain he | ⟨sign, _, he⟩ := he <;> rw [he] <;> simp
  obtain rfl : n = '1' := List.mem_singleton.mp hm
  rcases hn with hn | hn <;> exact absurd hn (by decide)

end Nordstjernen.Css.Selector
