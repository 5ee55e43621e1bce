import Nordstjernen.Css.Selector.Theorems.Compound

open Nordstjernen.Glib Nordstjernen.Css.Syntax

namespace Nordstjernen.Css.Selector

variable {ts item j r lead trail : List Tok} {t : Tok} {cs : List SimpleToken}

section Items

theorem items_nil : items [] = [[]] :=
  rfl

theorem items_comma : items (.comma :: ts) = [] :: items ts := by
  simp [items, List.splitOnP_cons_eq_if_modifyHead, Tok.isComma]

theorem items_cons (h : t.isComma = false) : ∃ first others,
    items ts = first :: others ∧ items (t :: ts) = (t :: first) :: others := by
  cases hs : items ts
  case nil             => exact absurd hs (List.splitOnP_ne_nil _ _)
  case cons first rest =>
    refine ⟨first, rest, rfl, ?_⟩
    rw [items] at hs ⊢
    simp [List.splitOnP_cons_eq_if_modifyHead, h, hs]

end Items

section Fits

def Gaps (ts : List Tok) : Prop :=
  ∀ t ∈ ts, t.isGap

theorem Gaps.nil : Gaps [] :=
  fun _ ht => absurd ht List.not_mem_nil

theorem Gaps.cons {b : Bool} (h : Gaps ts) : Gaps (.gap b :: ts) :=
  List.forall_mem_cons.mpr ⟨rfl, h⟩

-- The rest of an item from a compound on.
def FromCompound (ts : List Tok) : Prop :=
  ∃ r trail, ts = r ++ trail ∧ IsComplex r ∧ Gaps trail

-- White space, comments, and at most one combinator.
structure Joins (ts : List Tok) : Prop where
  joins  : ∀ t ∈ ts, t.isGap ∨ t.isComb
  single : ts.countP Tok.isComb ≤ 1

-- The rest of an item, by where it begins.
def Phase.Fits : Phase → List Tok → Prop
  | .compound, ts => Gaps ts ∨ ∃ j r, ts = j ++ r ∧ IsJoint j ∧ FromCompound r
  | .gap,      ts => Gaps ts ∨ ∃ j r, ts = j ++ r ∧ Joins j ∧ FromCompound r
  | _,         ts => IsItem ts

theorem FromCompound.isItem (h : FromCompound ts) : IsItem ts := by
  obtain ⟨r, trail, rfl, hr, ht⟩ := h
  exact ⟨[], r, trail, rfl, hr, Gaps.nil, ht⟩

theorem IsItem.gap {b : Bool} (h : IsItem ts) : IsItem (.gap b :: ts) := by
  obtain ⟨lead, r, trail, rfl, hr, hl, ht⟩ := h
  exact ⟨.gap b :: lead, r, trail, rfl, hr, Gaps.cons hl, ht⟩

-- A compound, and what may stand behind it.
theorem Phase.Fits.fromCompound (h : Phase.compound.Fits ts) (hn : cs ≠ []) (hw : ∀ t ∈ cs, t.wellFormed) :
    FromCompound (.compound cs :: ts) := by
  obtain hg | ⟨j, _, rfl, hj, r, trail, rfl, hr, ht⟩ := h
  case inl => exact ⟨[.compound cs], ts, rfl, .compound hn hw, hg⟩
  case inr => exact ⟨.compound cs :: (j ++ r), trail, by simp, .join hn hw hj hr, ht⟩

theorem IsItem.joined {c : Gather.Comb} (h : IsItem ts) :
    ∃ j r, .comb c :: ts = j ++ r ∧ IsJoint j ∧ FromCompound r := by
  obtain ⟨lead, r, trail, rfl, hr, hl, ht⟩ := h
  have hc : lead.countP Tok.isComb = 0 := by
    refine List.countP_eq_zero.mpr fun t htl => ?_
    have hg := hl t htl
    cases t <;> simp_all [Tok.isGap, Tok.isComb]
  refine ⟨.comb c :: lead, r ++ trail, by simp, ⟨List.cons_ne_nil _ _, ?_, ?_⟩, r, trail, rfl, hr, ht⟩
  · exact List.forall_mem_cons.mpr ⟨.inr rfl, fun t htl => .inl (hl t htl)⟩
  · simp [List.countP_cons, hc, Tok.isComb]

theorem Phase.Fits.compound_of_comb {c : Gather.Comb} (h : Phase.comb.Fits ts) :
    Phase.compound.Fits (.comb c :: ts) :=
  .inr (IsItem.joined h)

theorem Phase.Fits.gap_of_comb {c : Gather.Comb} (h : Phase.comb.Fits ts) : Phase.gap.Fits (.comb c :: ts) := by
  obtain ⟨j, r, he, hj, hr⟩ := @IsItem.joined _ c h
  exact .inr ⟨j, r, he, ⟨hj.joins, hj.single⟩, hr⟩

theorem Phase.Fits.gap_of_fromCompound (h : FromCompound ts) : Phase.gap.Fits ts :=
  .inr ⟨[], ts, rfl, ⟨fun _ ht => absurd ht List.not_mem_nil, Nat.zero_le 1⟩, h⟩

theorem Phase.Fits.compound_of_gap {b : Bool} (h : Phase.gap.Fits ts) : Phase.compound.Fits (.gap b :: ts) := by
  obtain hg | ⟨j, r, rfl, hj, hr⟩ := h
  case inl => exact .inl hg.cons
  case inr =>
    refine .inr ⟨.gap b :: j, r, rfl, ⟨List.cons_ne_nil _ _, ?_, ?_⟩, hr⟩
    · exact List.forall_mem_cons.mpr ⟨.inl rfl, hj.joins⟩
    · simpa [List.countP_cons, Tok.isComb] using hj.single

end Fits

section Overlooks

variable {checked seen : Bool} {ok : List SimpleToken → Bool} {φ : Phase}

def HasCompound (item : List Tok) : Prop :=
  ∃ t ∈ item, t.isCompound

-- Whether an item has had no selector so far.
def Phase.opens : Phase → Bool
  | .item  => true
  | .blank => true
  | _      => false

-- The first of the items may have begun before.
def Splits (φ : Phase) (ts : List Tok) : Prop :=
  ∃ first others, items ts = first :: others ∧ φ.Fits first ∧ ∀ item ∈ others, IsItem item

-- The items have selectors, the first one possibly before it begins here.
def Selects (φ : Phase) (ts : List Tok) : Prop :=
  ∃ first others, items ts = first :: others ∧ (φ.opens → HasCompound first) ∧ ∀ item ∈ others, HasCompound item

theorem Splits.nil (h : φ.Fits []) : Splits φ [] :=
  ⟨[], [], rfl, h, fun _ hi => absurd hi List.not_mem_nil⟩

theorem Splits.comma (h : φ.Fits []) (hs : Splits .item ts) : Splits φ (.comma :: ts) := by
  obtain ⟨first, others, he, hf, ho⟩ := hs
  exact ⟨[], items ts, items_comma, h, he ▸ List.forall_mem_cons.mpr ⟨hf, ho⟩⟩

theorem Splits.cons {ψ : Phase} (hc : t.isComma = false) (h : ∀ ts, ψ.Fits ts → φ.Fits (t :: ts))
    (hs : Splits ψ ts) : Splits φ (t :: ts) := by
  obtain ⟨first, others, he, hf, ho⟩ := hs
  obtain ⟨first', others', he', hs'⟩ := @items_cons ts t hc
  obtain ⟨rfl, rfl⟩ := List.cons.inj (he.symm.trans he')
  exact ⟨t :: first, others, hs', h first hf, ho⟩

theorem Selects.comma (h : Selects φ (.comma :: ts)) : φ.opens = false ∧ Selects .item ts := by
  obtain ⟨first, others, he, hf, ho⟩ := h
  obtain ⟨rfl, rfl⟩ := List.cons.inj (items_comma.symm.trans he)
  constructor
  · by_contra hc
    obtain ⟨t, ht, -⟩ := hf (Bool.of_not_eq_false hc)
    cases ht
  · cases hs : items ts
    case nil         => exact absurd hs (List.splitOnP_ne_nil _ _)
    case cons i rest =>
      rw [hs] at ho
      obtain ⟨hi, hr⟩ := List.forall_mem_cons.mp ho
      exact ⟨i, rest, hs, fun _ => hi, hr⟩

theorem Selects.cons {ψ : Phase} (hc : t.isComma = false) (hψ : ψ.opens → φ.opens ∧ t.isCompound = false)
    (h : Selects φ (t :: ts)) : Selects ψ ts := by
  obtain ⟨first, others, he, hf, ho⟩ := h
  obtain ⟨first', others', he', hs'⟩ := @items_cons ts t hc
  obtain ⟨rfl, rfl⟩ := List.cons.inj (hs'.symm.trans he)
  refine ⟨first', others', he', fun hop => ?_, ho⟩
  obtain ⟨hop, ht⟩ := hψ hop
  obtain ⟨u, hu, huc⟩ := hf hop
  obtain rfl | hu := List.mem_cons.mp hu
  case inl => rw [ht] at huc; cases huc
  case inr => exact ⟨u, hu, huc⟩

-- Without the flaws, what the parser overlooks is nothing.
theorem splits_of_overlooks (hok : ∀ cs, ok cs → cs.any SimpleToken.isNameless = false → ∀ t ∈ cs, t.wellFormed)
    (hn : ∀ cs, .compound cs ∈ ts → cs ≠ []) (hf : ∀ t ∈ ts, t.isFlaw = false) (hφ : φ ≠ .brackets)
    (hs : Selects φ ts) (h : overlooks checked ok seen φ ts) : Splits φ ts := by
  induction ts generalizing φ seen
  case nil          =>
    have hg : Phase.compound.Fits [] := .inl Gaps.nil
    obtain ⟨first, others, he, hf, -⟩ := hs
    obtain ⟨rfl, rfl⟩ := List.cons.inj (items_nil.symm.trans he)
    cases φ
    case item | blank =>
      obtain ⟨t, ht, -⟩ := hf rfl
      cases ht
    case brackets => exact absurd rfl hφ
    case compound => exact .nil hg
    case gap      => exact .nil (.inl Gaps.nil)
    case comb     => simp [overlooks] at h
  case cons t ts hi =>
    obtain ⟨hft, hft'⟩ := List.forall_mem_cons.mp hf
    have hn' : ∀ cs, .compound cs ∈ ts → cs ≠ [] := fun cs hc => hn cs (List.mem_cons_of_mem t hc)
    cases t
    case brace   => cases hft
    case other c => cases hft
    case comma   =>
      obtain ⟨ho, hs⟩ := hs.comma
      have hi {seen} := @hi seen .item hn' hft' (by rintro ⟨⟩) hs
      cases φ
      case item | blank => cases ho
      case brackets     => exact absurd rfl hφ
      case compound     => exact .comma (.inl Gaps.nil) (hi (by simpa [overlooks] using h))
      case gap          => exact .comma (.inl Gaps.nil) (hi (by simpa [overlooks] using h))
      case comb         => simp [overlooks] at h
    case gap b =>
      have hi {ψ : Phase} {seen} (hψ : ψ ≠ .brackets) (hop : ψ.opens → φ.opens) :=
        @hi seen ψ hn' hft' hψ (hs.cons rfl fun ho => ⟨hop ho, rfl⟩)
      cases φ
      case item     =>
        rw [overlooks] at h
        split at h
        case isTrue  =>
          exact .cons rfl (fun i (hfi : Phase.blank.Fits i) => IsItem.gap hfi) (hi (by rintro ⟨⟩) (fun _ => rfl) h)
        case isFalse =>
          exact .cons rfl (fun i (hfi : Phase.item.Fits i) => IsItem.gap hfi) (hi (by rintro ⟨⟩) (fun _ => rfl) h)
      case blank    =>
        rw [overlooks] at h
        exact .cons rfl (fun i (hfi : Phase.blank.Fits i) => IsItem.gap hfi) (hi (by rintro ⟨⟩) (fun _ => rfl) h)
      case brackets => exact absurd rfl hφ
      case compound =>
        rw [overlooks] at h
        exact .cons rfl (fun _ => Phase.Fits.compound_of_gap) (hi (by rintro ⟨⟩) (by rintro ⟨⟩) h)
      case gap      => simp [overlooks] at h
      case comb     =>
        rw [overlooks] at h
        exact .cons rfl (fun i (hfi : Phase.comb.Fits i) => IsItem.gap hfi) (hi (by rintro ⟨⟩) (by rintro ⟨⟩) h)
    case comb c =>
      have hi {ψ : Phase} {seen} (hψ : ψ ≠ .brackets) (hop : ψ.opens → φ.opens) :=
        @hi seen ψ hn' hft' hψ (hs.cons rfl fun ho => ⟨hop ho, rfl⟩)
      cases φ
      case item | blank | comb => simp [overlooks] at h
      case brackets            => exact absurd rfl hφ
      case compound            =>
        rw [overlooks] at h
        exact .cons rfl (fun _ => Phase.Fits.compound_of_comb) (hi (by rintro ⟨⟩) (by rintro ⟨⟩) h)
      case gap                 =>
        rw [overlooks] at h
        exact .cons rfl (fun _ => Phase.Fits.gap_of_comb) (hi (by rintro ⟨⟩) (by rintro ⟨⟩) h)
    case compound cs =>
      have hcs : cs ≠ [] := hn cs List.mem_cons_self
      have hna : cs.all SimpleToken.isNameless = false := by
        obtain ⟨t, cs, rfl⟩ := List.exists_cons_of_ne_nil hcs
        simp_all [Tok.isFlaw]
      have hi {seen} := @hi seen .compound hn' hft' (by rintro ⟨⟩) (hs.cons rfl (by rintro ⟨⟩))
      have hw (ho : ok cs) : ∀ i, Phase.compound.Fits i → FromCompound (.compound cs :: i) :=
        fun i hfi => hfi.fromCompound hcs (hok cs ho hft)
      cases φ
      case item =>
        simp only [overlooks, hna, Bool.false_eq_true, if_false, Bool.and_eq_true] at h
        exact .cons rfl (fun i hfi => (hw h.left i hfi).isItem) (hi h.right)
      case blank =>
        simp only [overlooks, hna, Bool.false_eq_true, if_false, Bool.and_eq_true] at h
        exact .cons rfl (fun i hfi => (hw h.left i hfi).isItem) (hi h.right)
      case brackets => exact absurd rfl hφ
      case compound => simp [overlooks] at h
      case gap      =>
        simp only [overlooks, hna, Bool.not_false, Bool.and_true, Bool.and_eq_true] at h
        exact .cons rfl (fun i hfi => .gap_of_fromCompound (hw h.left i hfi)) (hi h.right)
      case comb     =>
        simp only [overlooks, hna, Bool.not_false, Bool.and_true, Bool.and_eq_true] at h
        exact .cons rfl (fun i hfi => (hw h.left i hfi).isItem) (hi h.right)

end Overlooks

section Flawless

theorem exists_item_of_mem (h : t ∈ ts) : t.isComma ∨ ∃ item ∈ items ts, t ∈ item := by
  induction ts
  case nil          => cases h
  case cons u ts hi =>
    cases hc : u.isComma
    case true  =>
      cases u
      case comma =>
        rw [items_comma]
        obtain rfl | h := List.mem_cons.mp h
        case inl => exact .inl rfl
        case inr =>
          obtain hc | ⟨item, hm, ht⟩ := hi h
          case inl => exact .inl hc
          case inr => exact .inr ⟨item, List.mem_cons_of_mem _ hm, ht⟩
      all_goals cases hc
    case false =>
      obtain ⟨first, others, he, hs⟩ := @items_cons ts u hc
      rw [hs]
      obtain rfl | h := List.mem_cons.mp h
      case inl => exact .inr ⟨t :: first, List.mem_cons_self, List.mem_cons_self⟩
      case inr =>
        obtain hc | ⟨item, hm, ht⟩ := hi h
        case inl => exact .inl hc
        case inr =>
          rw [he] at hm
          obtain rfl | hm := List.mem_cons.mp hm
          case inl => exact .inr ⟨u :: item, List.mem_cons_self, List.mem_cons_of_mem u ht⟩
          case inr => exact .inr ⟨item, List.mem_cons_of_mem _ hm, ht⟩

theorem compound_isFlaw (h : ∀ t ∈ cs, t.wellFormed) : (Tok.compound cs).isFlaw = false := by
  refine List.any_eq_false.mpr fun t ht hn => ?_
  have hw := h t ht
  cases t
  case nameless nsPrefix => cases hw
  all_goals cases hn

theorem isFlaw_of_joins (h : t.isGap ∨ t.isComb) : t.isFlaw = false := by
  cases t <;> simp_all [Tok.isGap, Tok.isComb, Tok.isFlaw]

theorem IsComplex.isFlaw (h : IsComplex r) : ∀ t ∈ r, t.isFlaw = false := by
  induction h
  case compound hn hw =>
    intro t ht
    rw [List.mem_singleton.mp ht]
    exact compound_isFlaw hw
  case join hn hw hj hr hi =>
    intro t ht
    obtain rfl | ht := List.mem_cons.mp ht
    case inl => exact compound_isFlaw hw
    case inr =>
      obtain ht | ht := List.mem_append.mp ht
      case inl => exact isFlaw_of_joins (hj.joins t ht)
      case inr => exact hi t ht

theorem IsComplex.hasCompound (h : IsComplex r) : HasCompound r := by
  cases h
  case compound => exact ⟨_, List.mem_cons_self, rfl⟩
  case join     => exact ⟨_, List.mem_cons_self, rfl⟩

theorem IsItem.isFlaw (h : IsItem item) : ∀ t ∈ item, t.isFlaw = false := by
  obtain ⟨lead, r, trail, rfl, hr, hl, ht⟩ := h
  intro t hm
  obtain hm | hm := List.mem_append.mp hm
  case inr => exact isFlaw_of_joins (.inl (ht t hm))
  case inl =>
    obtain hm | hm := List.mem_append.mp hm
    case inl => exact isFlaw_of_joins (.inl (hl t hm))
    case inr => exact hr.isFlaw t hm

theorem IsItem.hasCompound (h : IsItem item) : HasCompound item := by
  obtain ⟨lead, r, trail, rfl, hr, -, -⟩ := h
  obtain ⟨t, ht, hc⟩ := hr.hasCompound
  exact ⟨t, List.mem_append_left trail (List.mem_append_right lead ht), hc⟩

theorem IsSelectorList.flawless (h : IsSelectorList ts) : Flawless ts where
  tokens t ht := by
    obtain hc | ⟨item, hi, hm⟩ := exists_item_of_mem ht
    case inl => cases t <;> simp_all [Tok.isComma, Tok.isFlaw]
    case inr => exact (h item hi).isFlaw t hm
  items item hi := (h item hi).hasCompound

-- Of what the parser accepts, what has no flaws is a list of selectors.
theorem isSelectorList_iff {checked seen : Bool} {ok : List SimpleToken → Bool}
    (hok : ∀ cs, ok cs → cs.any SimpleToken.isNameless = false → ∀ t ∈ cs, t.wellFormed)
    (hn : ∀ cs, .compound cs ∈ ts → cs ≠ []) (h : overlooks checked ok seen .item ts) :
    IsSelectorList ts ↔ Flawless ts where
  mp hs  := hs.flawless
  mpr hf := by
    have hs : Selects .item ts := by
      cases hi : items ts
      case nil             => exact absurd hi (List.splitOnP_ne_nil _ _)
      case cons first rest =>
        obtain ⟨hc, hr⟩ := List.forall_mem_cons.mp (hi ▸ hf.items)
        exact ⟨first, rest, hi, fun _ => hc, hr⟩
    obtain ⟨first, rest, hi, hc, hr⟩ := splits_of_overlooks hok hn hf.tokens (by rintro ⟨⟩) hs h
    rw [IsSelectorList, hi]
    exact List.forall_mem_cons.mpr ⟨hc, hr⟩

end Flawless

end Nordstjernen.Css.Selector
