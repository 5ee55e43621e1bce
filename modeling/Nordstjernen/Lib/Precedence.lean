import Mathlib.Data.Set.Insert
import Mathlib.Order.Defs.LinearOrder

namespace Nordstjernen.Lib

-- Votes with a rank, of which only those of the highest rank count.

variable {π κ : Type*} [LinearOrder π] {floor rank top : π} {kind : κ} {votes : Set (π × κ)}
  {kinds : κ → Prop}

-- A kind wins if the highest votes are all of this kind.
def Wins (votes : Set (π × κ)) (kind : κ) : Prop :=
  ∃ rank, (rank, kind) ∈ votes ∧ ∀ v ∈ votes, v.1 ≤ rank ∧ (v.1 = rank → v.2 = kind)

-- What a loop over the votes knows: the highest rank from `floor` on, and which kinds have a vote of it.
structure Leads (floor : π) (votes : Set (π × κ)) (top : π) (kinds : κ → Prop) : Prop where
  upper   : ∀ v ∈ votes, v.1 ≤ top
  reached : top = floor ∨ floor < top ∧ ∃ kind, (top, kind) ∈ votes
  kinds   : ∀ kind, kinds kind ↔ (top, kind) ∈ votes

namespace Leads

theorem congr {kinds' : κ → Prop} (h : Leads floor votes top kinds) (he : ∀ k, kinds' k ↔ kinds k) :
    Leads floor votes top kinds' :=
  { h with kinds := fun k => (he k).trans (h.kinds k) }

theorem empty (floor : π) : Leads floor (∅ : Set (π × κ)) floor fun _ => False where
  upper   := fun _ h => h.elim
  reached := .inl rfl
  kinds   := fun _ => Iff.rfl

theorem higher (h : Leads floor votes top kinds) (hr : top < rank) :
    Leads floor (insert (rank, kind) votes) rank (· = kind) where
  upper v hv := by
    rcases Set.mem_insert_iff.mp hv with rfl | hv
    · exact le_rfl
    · exact (h.upper v hv).trans hr.le
  reached := by
    refine .inr ⟨?_, kind, Set.mem_insert _ _⟩
    rcases h.reached with rfl | ⟨hf, -⟩
    · exact hr
    · exact hf.trans hr
  kinds k := by
    rw [Set.mem_insert_iff, Prod.mk.injEq, and_iff_right rfl, or_iff_left]
    exact fun hv => hr.not_ge (h.upper _ hv)

theorem level (h : Leads floor votes top kinds) :
    Leads floor (insert (top, kind) votes) top fun k => k = kind ∨ kinds k where
  upper v hv := by
    rcases Set.mem_insert_iff.mp hv with rfl | hv
    · exact le_rfl
    · exact h.upper v hv
  reached := h.reached.imp_right fun ⟨hf, k, hk⟩ => ⟨hf, k, Set.mem_insert_of_mem _ hk⟩
  kinds k := by
    rw [Set.mem_insert_iff, Prod.mk.injEq, and_iff_right rfl, h.kinds]

theorem lower (h : Leads floor votes top kinds) (hr : rank < top) :
    Leads floor (insert (rank, kind) votes) top kinds where
  upper v hv := by
    rcases Set.mem_insert_iff.mp hv with rfl | hv
    · exact hr.le
    · exact h.upper v hv
  reached := h.reached.imp_right fun ⟨hf, k, hk⟩ => ⟨hf, k, Set.mem_insert_of_mem _ hk⟩
  kinds k := by
    rw [Set.mem_insert_iff, Prod.mk.injEq, h.kinds, or_iff_right]
    exact fun he => hr.ne' he.left

-- The winner is known as soon as some vote is above the floor.
theorem wins_iff (h : Leads floor votes top kinds) :
    (floor < top ∧ kinds kind ∧ ∀ k, kinds k → k = kind) ↔
      Wins votes kind ∧ ∃ v ∈ votes, floor < v.1 := by
  constructor
  case mp =>
    rintro ⟨hf, hk, ho⟩
    have hm := (h.kinds kind).mp hk
    refine ⟨⟨top, hm, fun v hv => ⟨h.upper v hv, fun he => ?_⟩⟩, _, hm, hf⟩
    exact ho v.2 ((h.kinds v.2).mpr (he ▸ hv))
  case mpr =>
    rintro ⟨⟨rank, hm, hall⟩, v, hv, hf⟩
    have ht : floor < top := hf.trans_le (h.upper v hv)
    obtain ⟨-, k, hk⟩ := h.reached.resolve_left ht.ne'
    obtain rfl : top = rank := le_antisymm (hall _ hk).left (h.upper _ hm)
    exact ⟨ht, (h.kinds kind).mpr hm, fun j hj => (hall _ ((h.kinds j).mp hj)).right rfl⟩

end Leads

end Nordstjernen.Lib
