import Mathlib.Data.List.Induction

namespace Nordstjernen.Lib

-- Items that are given their places one after another, by a procedure with a state.

variable {ι α σ : Type*}

def placeAll (step : σ → ι → α × σ) (s : σ) : List ι → List (ι × α)
  | []      => []
  | x :: xs => (x, (step s x).1) :: placeAll step (step s x).2 xs

-- Whether every step meets a condition on the state, the items placed so far and the next item.
def PlacingMeets (C : σ → List (ι × α) → ι → Prop) (step : σ → ι → α × σ) (pre : List (ι × α))
    (s : σ) : List ι → Prop
  | []      => True
  | x :: xs =>
    C s pre x ∧ PlacingMeets C step (pre ++ [(x, (step s x).1)]) (step s x).2 xs

section Invariant

variable {step : σ → ι → α × σ} {C : σ → List (ι × α) → ι → Prop} {I : σ → List (ι × α) → Prop}
  {Ok : List (ι × α) → ι × α → Prop} {Q : ι → Prop} {s : σ} {pre : List (ι × α)} {xs : List ι}

-- Where each step keeps an invariant and puts its item well, every item ends up well.
theorem placeAll_ok
    (hstep : ∀ s pre x, Q x → I s pre → C s pre x →
      Ok pre (x, (step s x).1) ∧ I (step s x).2 (pre ++ [(x, (step s x).1)]))
    (hq : ∀ x ∈ xs, Q x) (hs : I s pre) (hc : PlacingMeets C step pre s xs)
    {mid post : List (ι × α)} {p : ι × α} (h : placeAll step s xs = mid ++ p :: post) :
    Ok (pre ++ mid) p := by
  induction xs generalizing s pre mid
  case nil => simp [placeAll] at h
  case cons x xs hi =>
    have ⟨hok, hinv⟩ := hstep s pre x (hq x List.mem_cons_self) hs hc.left
    cases mid
    case nil =>
      obtain ⟨rfl, -⟩ := List.cons.inj h
      simpa using hok
    case cons m mid =>
      have ⟨hm, hmid⟩ := List.cons.inj h
      subst hm
      simpa using hi (fun y hy => hq y (List.mem_cons_of_mem _ hy)) hinv hc.right hmid

theorem map_fst_placeAll (step : σ → ι → α × σ) (s : σ) (xs : List ι) :
    (placeAll step s xs).map Prod.fst = xs := by
  induction xs generalizing s
  case nil => rfl
  case cons x xs hi => rw [placeAll, List.map_cons, hi]

end Invariant

section Measure

variable {step : σ → ι → α × σ} {m : σ → Nat} {s : σ} {xs : List ι} {p : ι × α}

theorem le_foldl {f : σ → ι → σ} (mono : ∀ s x, m s ≤ m (f s x)) : m s ≤ m (xs.foldl f s) := by
  induction xs generalizing s
  case nil          => exact Nat.le_refl _
  case cons x xs hi => exact Nat.le_trans (mono s x) hi

theorem le_foldl_of_mem {f : Nat → ι → Nat} {k n : Nat} {x : ι} (mono : ∀ n x, n ≤ f n x) (hk : ∀ n, k ≤ f n x)
    (h : x ∈ xs) : k ≤ xs.foldl f n := by
  induction xs generalizing n
  case nil => cases h
  case cons y ys hi =>
    cases List.mem_cons.mp h
    case inl h =>
      subst h
      exact Nat.le_trans (hk n) (le_foldl (m := id) mono)
    case inr h => exact hi h

-- Each item is put where a step puts it. A measure that no step lowers is at the end as large as it is
-- after that step.
theorem exists_step_of_mem_placeAll (mono : ∀ s x, m s ≤ m (step s x).2) (h : p ∈ placeAll step s xs) :
    ∃ s', p.2 = (step s' p.1).1 ∧ m (step s' p.1).2 ≤ m (xs.foldl (fun s x => (step s x).2) s) := by
  induction xs generalizing s
  case nil => cases h
  case cons x xs hi =>
    cases List.mem_cons.mp h
    case inl h =>
      subst h
      exact ⟨s, rfl, le_foldl mono⟩
    case inr h => exact hi h

end Measure

theorem pairwise_of_split {R : α → α → Prop} {as : List α}
    (h : ∀ pre p post, as = pre ++ p :: post → ∀ q ∈ pre, R q p) : as.Pairwise R := by
  induction as using List.reverseRecOn
  case nil => exact .nil
  case append_singleton as a hi =>
    refine List.pairwise_append.mpr ⟨hi fun pre p post he => ?_, List.pairwise_singleton R a, ?_⟩
    · exact h pre p (post ++ [a]) (by simp [he])
    · intro q hq b hb
      exact List.mem_singleton.mp hb ▸ h as a [] rfl q hq

section Overlap

variable {Overlaps : α → α → Prop} {auto : ι → Prop} {Permitted : ι → α → Prop}

-- An item that is put on an automatic one before it only where no other place is left to that one,
-- and that, if it is automatic itself, is put on something only where no place is left to it.
structure Spares (Overlaps : α → α → Prop) (auto : ι → Prop) (Permitted : ι → α → Prop)
    (pre : List (ι × α)) (p : ι × α) : Prop where
  spares : ∀ before q after, pre = before ++ q :: after → auto q.1 → Overlaps p.2 q.2 →
    ∀ a, Permitted q.1 a → (∃ r ∈ before ++ after, Overlaps a r.2) ∨ Overlaps a p.2
  free   : auto p.1 → (∀ q ∈ pre, ¬Overlaps p.2 q.2) ∨
    ∀ a, Permitted p.1 a → ∃ q ∈ pre, Overlaps a q.2

-- Then no automatic item overlaps any other one, earlier or later, while something is free for it.
theorem Spares.overlap {ps pre post : List (ι × α)} {p : ι × α}
    (symm : ∀ {a b}, Overlaps a b → Overlaps b a)
    (hps : ∀ {pre p post}, ps = pre ++ p :: post → Spares Overlaps auto Permitted pre p)
    (h : ps = pre ++ p :: post) (ha : auto p.1) (ho : ∃ q ∈ pre ++ post, Overlaps p.2 q.2) {a : α}
    (hp : Permitted p.1 a) : ∃ q ∈ pre ++ post, Overlaps a q.2 := by
  obtain ⟨q, hq, ho⟩ := ho
  cases List.mem_append.mp hq
  case inl hq =>
    have ⟨r, hr, har⟩ := ((hps h).free ha).resolve_left (fun hn => hn q hq ho) a hp
    exact ⟨r, List.mem_append_left _ hr, har⟩
  case inr hq =>
    -- The later item was put here because nothing was left to this one then.
    obtain ⟨mid, post', rfl⟩ := List.append_of_mem hq
    have hsplit : ps = (pre ++ p :: mid) ++ q :: post' := by simp [h]
    have hs := hps hsplit
    cases hs.spares pre p mid rfl ha (symm ho) a hp
    case inl ho =>
      have ⟨r, hr, har⟩ := ho
      exact ⟨r, List.mem_append.mpr ((List.mem_append.mp hr).imp_right (List.mem_append_left _)), har⟩
    case inr ho => exact ⟨q, by simp, ho⟩

end Overlap

end Nordstjernen.Lib
