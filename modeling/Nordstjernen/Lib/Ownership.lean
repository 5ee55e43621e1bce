import Mathlib.Data.Fintype.Card
import Mathlib.Data.Set.Finite.Basic
import Mathlib.Logic.Relation

namespace Nordstjernen.Lib

-- Things of which each is owned by one other at most.

open Relation

variable {α : Type*} {owns : α → α → Prop} {a b c d r : α}

abbrev Below (owns : α → α → Prop) : α → α → Prop :=
  ReflTransGen owns

namespace Below

section Unique

variable (hu : Relator.LeftUnique owns)

include hu

-- One of two things above the same one is above the other.
theorem total (ha : Below owns a c) (hb : Below owns b c) : Below owns a b ∨ Below owns b a := by
  have hright : Relator.RightUnique (Function.swap owns) := fun _ _ _ h h' => hu h h'
  rcases ReflTransGen.total_of_right_unique hright ha.swap hb.swap with h | h
  · exact .inr h.swap
  · exact .inl h.swap

-- What is below something without owner does not own itself.
theorem acyclic (hr : ∀ a, ¬owns a r) (h : Below owns r a) : ¬TransGen owns a a := by
  induction h
  case refl =>
    intro ht
    obtain ⟨b, -, hb⟩ := TransGen.tail'_iff.mp ht
    exact hr b hb
  case tail b c hb hbc hi =>
    intro ht
    obtain ⟨b', hb', hbc'⟩ := TransGen.tail'_iff.mp ht
    obtain rfl := hu hbc hbc'
    exact hi (TransGen.head' hbc hb')

-- What two things own that have the same owner has nothing in common.
theorem disjoint (ha : ¬TransGen owns a a) (hb : owns a b) (hc : owns a c) (hne : b ≠ c)
    (hbd : Below owns b d) : ¬Below owns c d := by
  intro hcd
  rcases total hu hbd hcd with h | h
  · rcases h.cases_tail with rfl | ⟨e, he, hec⟩
    · exact hne rfl
    · obtain rfl := hu hc hec
      exact ha (TransGen.head' hb he)
  · rcases h.cases_tail with rfl | ⟨e, he, heb⟩
    · exact hne rfl
    · obtain rfl := hu hb heb
      exact ha (TransGen.head' hc he)

-- Something is shown of what has no owner if it is shown of things once it holds of what they own.
theorem induction (hr : ∀ a, ¬owns a r) (hf : { a | Below owns r a }.Finite) {P : α → Prop}
    (h : ∀ a, Below owns r a → (∀ b, owns a b → P b) → P a) : P r := by
  have hfin : Finite { a // Below owns r a } := hf.to_subtype
  let up (x y : { a // Below owns r a }) := TransGen owns y.val x.val
  have htrans : IsTrans _ up := ⟨fun _ _ _ hxy hyz => hyz.trans hxy⟩
  have hirrefl : Std.Irrefl up := ⟨fun x => acyclic hu hr x.property⟩
  have hwf : WellFounded up := Finite.wellFounded_of_trans_of_irrefl up
  have hall (x : { a // Below owns r a }) : P x.val := by
    induction x using hwf.induction
    case h x hi =>
      exact h x.val x.property fun b hb => hi ⟨b, x.property.tail hb⟩ (.single hb)
  exact hall ⟨r, .refl⟩

end Unique

theorem not_below_of_owns (ha : ¬TransGen owns a a) (h : owns a b) : ¬Below owns b a :=
  fun hb => ha (TransGen.head' h hb)

end Below

end Nordstjernen.Lib
