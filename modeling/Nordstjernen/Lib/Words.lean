import Mathlib.Computability.Language

open scoped Computability

namespace Nordstjernen.Lib

variable {α : Type*} {p : α → Prop} {l : Language α} {w : List α} {d : α} {n : Nat}

-- The words of a single letter of this kind.
def letter (p : α → Prop) : Language α :=
  {w | ∃ a, p a ∧ w = [a]}

-- What an expression with the bounds `{0,n}` matches.
def upTo (n : Nat) (l : Language α) : Language α :=
  {w | ∃ k ≤ n, w ∈ l ^ k}

-- The words of a language with this letter between them.
def joined (d : α) (l : Language α) : Language α :=
  l * (letter (· = d) * l)∗

theorem singleton_mem_letter {a : α} (h : p a) : [a] ∈ letter p :=
  ⟨a, h, rfl⟩

theorem forall_mem_flatten {ws : List (List α)} (h : ∀ v ∈ ws, v ∈ letter p) : ∀ a ∈ ws.flatten, p a := by
  intro a ha
  obtain ⟨v, hv, hav⟩ := List.mem_flatten.mp ha
  obtain ⟨b, hb, rfl⟩ := h v hv
  exact List.mem_singleton.mp hav ▸ hb

theorem length_flatten_letters {ws : List (List α)} (h : ∀ v ∈ ws, v ∈ letter p) :
    ws.flatten.length = ws.length := by
  induction ws
  case nil => rfl
  case cons v ws hi =>
    obtain ⟨a, -, rfl⟩ := h v List.mem_cons_self
    have hw := hi fun u hu => h u (List.mem_cons_of_mem _ hu)
    rw [List.flatten_cons, List.length_append, hw, List.length_singleton, List.length_cons, Nat.add_comm]

theorem forall_mem_letters (h : ∀ a ∈ w, p a) : ∀ v ∈ w.map ([·]), v ∈ letter p := by
  intro v hv
  obtain ⟨a, ha, rfl⟩ := List.mem_map.mp hv
  exact singleton_mem_letter (h a ha)

theorem mem_letter_kstar : w ∈ (letter p)∗ ↔ ∀ a ∈ w, p a := by
  rw [Language.mem_kstar]
  constructor
  case mp =>
    rintro ⟨ws, rfl, h⟩
    exact forall_mem_flatten h
  case mpr => exact fun h => ⟨w.map ([·]), (List.flatMap_singleton' w).symm, forall_mem_letters h⟩

theorem mem_letter_pow : w ∈ letter p ^ n ↔ w.length = n ∧ ∀ a ∈ w, p a := by
  rw [Language.mem_pow]
  constructor
  case mp =>
    rintro ⟨ws, rfl, rfl, h⟩
    exact ⟨length_flatten_letters h, forall_mem_flatten h⟩
  case mpr =>
    rintro ⟨rfl, h⟩
    exact ⟨w.map ([·]), (List.flatMap_singleton' w).symm, List.length_map _, forall_mem_letters h⟩

theorem mem_upTo_letter : w ∈ upTo n (letter p) ↔ w.length ≤ n ∧ ∀ a ∈ w, p a := by
  constructor
  case mp =>
    rintro ⟨k, hk, h⟩
    obtain ⟨rfl, ha⟩ := mem_letter_pow.mp h
    exact ⟨hk, ha⟩
  case mpr => exact fun h => ⟨w.length, h.left, mem_letter_pow.mpr ⟨rfl, h.right⟩⟩

theorem intercalate_cons (ps : List (List α)) :
    [d].intercalate (w :: ps) = w ++ (ps.map (d :: ·)).flatten := by
  induction ps generalizing w
  case nil => rw [List.intercalate_singleton, List.map_nil, List.flatten_nil, List.append_nil]
  case cons p ps hi =>
    rw [List.intercalate_cons_cons, hi, List.map_cons, List.flatten_cons, List.append_assoc,
      List.singleton_append, List.cons_append]

theorem forall_mem_joined {P : α → Prop} (h : w ∈ joined d l) (hd : P d) (hl : ∀ v ∈ l, ∀ a ∈ v, P a) :
    ∀ a ∈ w, P a := by
  obtain ⟨v, hv, t, ht, rfl⟩ := h
  obtain ⟨ws, rfl, hws⟩ := Language.mem_kstar.mp ht
  intro a ha
  obtain ha | ha := List.mem_append.mp ha
  · exact hl v hv a ha
  · obtain ⟨x, hx, hax⟩ := List.mem_flatten.mp ha
    obtain ⟨_, ⟨b, rfl, rfl⟩, y, hy, rfl⟩ := Language.mem_mul.mp (hws x hx)
    obtain rfl | hay := List.mem_cons.mp hax
    · exact hd
    · exact hl y hy a hay

theorem mem_joined : w ∈ joined d l ↔ ∃ v vs, (∀ u ∈ v :: vs, u ∈ l) ∧ w = [d].intercalate (v :: vs) := by
  constructor
  case mp =>
    rintro ⟨v, hv, t, ht, rfl⟩
    obtain ⟨ws, rfl, hws⟩ := Language.mem_kstar.mp ht
    have hcons : ∀ x ∈ ws, x.tail ∈ l ∧ d :: x.tail = x := by
      intro x hx
      obtain ⟨_, ⟨a, rfl, rfl⟩, y, hy, rfl⟩ := Language.mem_mul.mp (hws x hx)
      exact ⟨hy, rfl⟩
    refine ⟨v, ws.map List.tail, fun u hu => ?_, ?_⟩
    · obtain rfl | hu := List.mem_cons.mp hu
      · exact hv
      · obtain ⟨x, hx, rfl⟩ := List.mem_map.mp hu
        exact (hcons x hx).left
    · have hm : (ws.map List.tail).map (d :: ·) = ws := by
        rw [List.map_map]
        exact (List.map_congr_left fun x hx => (hcons x hx).right).trans (List.map_id' ws)
      rw [intercalate_cons, hm]
  case mpr =>
    rintro ⟨v, vs, h, rfl⟩
    rw [intercalate_cons]
    refine Language.append_mem_mul (h v List.mem_cons_self) (Language.mem_kstar.mpr ⟨_, rfl, fun x hx => ?_⟩)
    obtain ⟨u, hu, rfl⟩ := List.mem_map.mp hx
    exact Language.append_mem_mul (singleton_mem_letter (p := (· = d)) rfl) (h u (List.mem_cons_of_mem _ hu))

-- The letters in between are found again where the words have none of them.
theorem mem_joined_iff [DecidableEq α] (h : ∀ w ∈ l, d ∉ w) : w ∈ joined d l ↔ ∀ v ∈ w.splitOn d, v ∈ l := by
  rw [mem_joined]
  constructor
  case mp =>
    rintro ⟨v, vs, hv, rfl⟩
    rwa [List.splitOn_intercalate d (fun u hu => h u (hv u hu)) (List.cons_ne_nil v vs)]
  case mpr =>
    intro hw
    obtain ⟨v, vs, hs⟩ := List.exists_cons_of_ne_nil (List.splitOn_ne_nil d w)
    exact ⟨v, vs, hs ▸ hw, by rw [← hs, List.intercalate_splitOn]⟩

end Nordstjernen.Lib
