import Mathlib.Data.List.Basic

namespace Nordstjernen.Lib.Hoist

variable {α β β' γ γ' : Type*}
variable {own : α → List β} {own' : α → List β'} {nested : α → List γ} {nested' : α → List γ'}
variable {as : List α} {a : α} {P : β → Prop}

-- Nothing that is moved to the front passes over something that stays.
def Ahead (own : α → List β) (nested : α → List γ) (as : List α) : Prop :=
  ∀ above a below, as = above ++ a :: below → nested a ≠ [] → below.flatMap own = []

theorem Ahead.cons_iff :
    Ahead own nested (a :: as) ↔ (nested a ≠ [] → as.flatMap own = []) ∧ Ahead own nested as where
  mp h  := ⟨h [] a as rfl, fun above b below he => h (a :: above) b below (congrArg (a :: ·) he)⟩
  mpr h := by
    intro above b below he hb
    cases above
    case nil =>
      obtain ⟨rfl, rfl⟩ := List.cons.inj he
      exact h.left hb
    case cons c above =>
      obtain ⟨-, rfl⟩ := List.cons.inj he
      exact h.right above b below rfl hb

theorem Ahead.congr (ho : ∀ a ∈ as, own a = [] ↔ own' a = []) (hn : ∀ a ∈ as, nested a = [] ↔ nested' a = []) :
    Ahead own nested as ↔ Ahead own' nested' as := by
  have hflat {above below : List α} {a : α} (he : as = above ++ a :: below) :
      below.flatMap own = [] ↔ below.flatMap own' = [] := by
    rw [List.flatMap_eq_nil_iff, List.flatMap_eq_nil_iff]
    exact forall₂_congr fun b hb => ho b (by rw [he]; simp [hb])
  have hhere {above below : List α} {a : α} (he : as = above ++ a :: below) : nested a = [] ↔ nested' a = [] :=
    hn a (by rw [he]; simp)
  constructor
  case mp  => exact fun h above a below he hne => (hflat he).mp (h above a below he (mt (hhere he).mp hne))
  case mpr => exact fun h above a below he hne => (hflat he).mpr (h above a below he (mt (hhere he).mpr hne))

variable {moved nested : α → List β}

theorem flatMap_eq_iff (hl : ∀ a ∈ as, (moved a).length = (nested a).length) :
    as.flatMap moved = as.flatMap nested ↔ ∀ a ∈ as, moved a = nested a := by
  refine ⟨fun h => ?_, List.flatMap_congr⟩
  induction as
  case nil          => exact fun a ha => absurd ha List.not_mem_nil
  case cons a as hi =>
    rw [List.flatMap_cons, List.flatMap_cons] at h
    obtain ⟨ha, has⟩ := List.append_inj h (hl a List.mem_cons_self)
    exact List.forall_mem_cons.mpr ⟨ha, hi (fun b hb => hl b (List.mem_cons_of_mem a hb)) has⟩

-- Where what is moved can be told from what stays, the order is kept only if nothing is passed over.
theorem flatMap_append_eq_iff (hl : ∀ a ∈ as, (moved a).length = (nested a).length)
    (ho : ∀ a ∈ as, ∀ b ∈ own a, P b) (hn : ∀ a ∈ as, ∀ b ∈ nested a, ¬P b) :
    (as.flatMap own ++ as.flatMap moved = as.flatMap fun a => own a ++ nested a) ↔
      Ahead own nested as ∧ ∀ a ∈ as, moved a = nested a := by
  induction as
  case nil          => exact ⟨fun _ => ⟨fun above a below he => by simp at he, by simp⟩, fun _ => rfl⟩
  case cons a as hi =>
    obtain ⟨hla, hl⟩ := List.forall_mem_cons.mp hl
    obtain ⟨-, ho⟩ := List.forall_mem_cons.mp ho
    obtain ⟨hna, hn⟩ := List.forall_mem_cons.mp hn
    have hi := hi hl ho hn
    rw [Ahead.cons_iff, List.forall_mem_cons, List.flatMap_cons, List.flatMap_cons, List.flatMap_cons]
    rw [List.append_assoc, List.append_assoc, List.append_cancel_left_eq]
    by_cases ha : nested a = []
    case pos =>
      have hm : moved a = [] := List.eq_nil_of_length_eq_zero (by rw [hla, ha, List.length_nil])
      simp only [ha, hm, List.nil_append, hi, ne_eq, not_true_eq_false, false_implies, true_and]
    case neg =>
      by_cases has : as.flatMap own = []
      case pos =>
        have hnil (b) (hb : b ∈ as) : own b = [] := List.flatMap_eq_nil_iff.mp has b hb
        have hrest : (as.flatMap fun b => own b ++ nested b) = as.flatMap nested :=
          List.flatMap_congr fun b hb => by rw [hnil b hb, List.nil_append]
        rw [has, List.nil_append, hrest] at hi ⊢
        constructor
        case mp =>
          intro h
          obtain ⟨hm, hms⟩ := List.append_inj h hla
          exact ⟨⟨fun _ => rfl, (hi.mp hms).left⟩, hm, (hi.mp hms).right⟩
        case mpr =>
          intro h
          rw [h.right.left, hi.mpr ⟨h.left.right, h.right.right⟩]
      case neg =>
        refine ⟨fun h => ?_, fun h => absurd (h.left.left ha) has⟩
        -- The first element is moved on the one side, and is one that stays on the other.
        obtain ⟨b, bs, hb⟩ := List.exists_cons_of_ne_nil has
        obtain ⟨c, cs, hc⟩ := List.exists_cons_of_ne_nil ha
        rw [hb, hc, List.cons_append, List.cons_append] at h
        obtain ⟨d, hd, hbd⟩ := List.mem_flatMap.mp (hb ▸ List.mem_cons_self : b ∈ as.flatMap own)
        have := hna c (by rw [hc]; exact List.mem_cons_self)
        exact absurd ((List.cons.inj h).left ▸ ho d hd b hbd) this

end Nordstjernen.Lib.Hoist
