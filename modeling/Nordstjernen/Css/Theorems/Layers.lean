import Mathlib.Data.List.Dedup
import Nordstjernen.Css.Layers
import Nordstjernen.Lib.PathOrder

open Nordstjernen.Glib Nordstjernen.Lib

namespace Nordstjernen.Css

section Parts

variable {n q : CString} {ps : List CString}

theorem join_layerParts (q : CString) : join (layerParts q) = q :=
  List.intercalate_splitOn '.'

theorem layerParts_inj {r : CString} (h : layerParts q = layerParts r) : q = r := by
  rw [← join_layerParts q, h, join_layerParts]

theorem layerParts_ne_nil (q : CString) : layerParts q ≠ [] :=
  List.splitOn_ne_nil '.' q

theorem layerParts_join (hps : ps ≠ []) (h : ps <+: layerParts n) : layerParts (join ps) = ps :=
  List.splitOn_intercalate '.' (fun _ hp => not_mem_of_mem_splitOn (h.subset hp)) hps

theorem mem_inits_tail_iff {α : Type*} {p l : List α} (hl : l ≠ []) :
    p ∈ l.inits.tail ↔ p ≠ [] ∧ p <+: l := by
  cases l
  case nil       => exact absurd rfl hl
  case cons x xs =>
    cases p
    case nil      => simp
    case cons y p => simp [List.cons_prefix_cons, eq_comm, and_comm]

theorem mem_layerPrefixes_iff : q ∈ layerPrefixes n ↔ Within n q := by
  simp only [layerPrefixes, List.mem_map, mem_inits_tail_iff (List.splitOn_ne_nil '.' n)]
  constructor
  · rintro ⟨ps, ⟨hne, hp⟩, rfl⟩
    rw [Within, layerParts_join hne hp]
    exact hp
  · exact fun h => ⟨layerParts q, ⟨layerParts_ne_nil q, h⟩, join_layerParts q⟩

end Parts

section First

variable {first : CString → Option Nat} {iterated : LayerRanks} {n q : CString} {i : Nat}

-- The smaller one of an index that is noted and a new one.
def noteIndex (i : Nat) : Option Nat → Option Nat
  | some prev => some (min prev i)
  | none      => some i

theorem noteIndex_noteIndex (o : Option Nat) : noteIndex i (noteIndex i o) = noteIndex i o := by
  cases o <;> simp [noteIndex]

theorem notePrefix_apply {p : CString} :
    notePrefix i first p q = if q = p then noteIndex i (first q) else first q := by
  by_cases hq : q = p
  case pos =>
    subst hq
    rw [notePrefix, if_pos rfl]
    cases hf : first q
    case none      => simp [noteIndex]
    case some prev =>
      dsimp only
      split
      case isTrue hle   => rw [hf, noteIndex, min_eq_left hle]
      case isFalse hlt  => simp [noteIndex, (not_le.mp hlt).le]
  case neg =>
    rw [notePrefix, if_neg hq]
    cases first p
    case none      => exact Function.update_of_ne hq _ _
    case some prev =>
      dsimp only
      split
      · rfl
      · exact Function.update_of_ne hq _ _

theorem layerPrefixNote_apply :
    layerPrefixNote first (n, i) q = if Within n q then noteIndex i (first q) else first q := by
  rw [← if_congr mem_layerPrefixes_iff rfl rfl, layerPrefixNote]
  generalize layerPrefixes n = ps
  induction ps generalizing first
  case nil           => simp
  case cons p ps hind =>
    rw [List.foldl_cons, hind, notePrefix_apply]
    by_cases hq : q = p
    case pos => simp [hq, noteIndex_noteIndex]
    case neg => simp [hq]

-- What the table has of a layer: the smallest rank of a name that is the layer or below it.
structure Earliest (iterated : LayerRanks) (q : CString) (o : Option Nat) : Prop where
  found : (∃ n i, (n, i) ∈ iterated ∧ Within n q) → o.isSome
  least : ∀ i, o = some i →
    (∃ n, (n, i) ∈ iterated ∧ Within n q) ∧ ∀ n j, (n, j) ∈ iterated → Within n q → i ≤ j

theorem earliest_layerFirst (iterated : LayerRanks) (q : CString) :
    Earliest iterated q (layerFirst iterated q) := by
  induction iterated using List.reverseRecOn
  case nil => exact ⟨by simp, by simp [layerFirst]⟩
  case append_singleton iterated entry hind =>
    obtain ⟨n, i⟩ := entry
    have he : layerFirst (iterated ++ [(n, i)]) q =
        if Within n q then noteIndex i (layerFirst iterated q) else layerFirst iterated q := by
      rw [layerFirst, List.foldl_append, List.foldl_cons, List.foldl_nil, layerPrefixNote_apply]
      rfl
    rw [he]
    by_cases hw : Within n q
    case neg =>
      have hmem {m j} (hm : (m, j) ∈ iterated ++ [(n, i)]) (hmq : Within m q) : (m, j) ∈ iterated := by
        obtain hm | hm := List.mem_append.mp hm
        · exact hm
        · cases List.mem_singleton.mp hm
          exact absurd hmq hw
      rw [if_neg hw]
      refine ⟨fun ⟨m, j, hm, hmq⟩ => hind.found ⟨m, j, hmem hm hmq, hmq⟩, fun k hk => ?_⟩
      obtain ⟨⟨m, hm, hmq⟩, hle⟩ := hind.least k hk
      exact ⟨⟨m, List.mem_append_left _ hm, hmq⟩, fun m j hm hmq => hle m j (hmem hm hmq) hmq⟩
    case pos =>
      rw [if_pos hw]
      cases ho : layerFirst iterated q
      case none =>
        have hno {m j} (hm : (m, j) ∈ iterated) : ¬Within m q := fun hmq => by
          have hs := hind.found ⟨m, j, hm, hmq⟩
          rw [ho] at hs
          cases hs
        refine ⟨fun _ => rfl, fun k hk => ?_⟩
        cases hk
        refine ⟨⟨n, by simp, hw⟩, fun m j hm hmq => ?_⟩
        obtain hm | hm := List.mem_append.mp hm
        · exact absurd hmq (hno hm)
        · cases List.mem_singleton.mp hm
          exact le_rfl
      case some prev =>
        obtain ⟨⟨p, hp, hpq⟩, hle⟩ := hind.least prev ho
        refine ⟨fun _ => rfl, fun k hk => ?_⟩
        cases hk
        constructor
        · obtain hpi | hip := le_total prev i
          · exact ⟨p, by simp [hp, min_eq_left hpi], hpq⟩
          · exact ⟨n, by simp [min_eq_right hip], hw⟩
        · intro m j hm hmq
          obtain hm | hm := List.mem_append.mp hm
          · exact (min_le_left _ _).trans (hle m j hm hmq)
          · cases List.mem_singleton.mp hm
            exact min_le_right _ _

end First

section Table

variable {names : List CString} {table : LayerRanks}

-- The table after some names: each of them has the number of names that were new before it.
structure Registers (names : List CString) (table : LayerRanks) : Prop where
  mem   : ∀ n, n ∈ names ↔ ∃ i, (n, i) ∈ table
  bound : ∀ n i, (n, i) ∈ table → i < table.length
  fst   : ∀ n i j, (n, i) ∈ table → (n, j) ∈ table → i = j
  snd   : ∀ n m i, (n, i) ∈ table → (m, i) ∈ table → n = m
  seen  : ∀ n i, (n, i) ∈ table →
    ∃ before after, names = before ++ n :: after ∧ ∀ m, m ∈ before ↔ ∃ j < i, (m, j) ∈ table

theorem Registers.addName {x : CString} (h : Registers names table) :
    Registers (names ++ [x]) (table.addName x) := by
  have hx : (table.any (·.fst == x)) = true ↔ x ∈ names := by
    rw [h.mem, List.any_eq_true]
    constructor
    · rintro ⟨⟨n, i⟩, hm, he⟩
      exact ⟨i, beq_iff_eq.mp he ▸ hm⟩
    · rintro ⟨i, hm⟩
      exact ⟨(x, i), hm, beq_self_eq_true x⟩
  rw [LayerRanks.addName]
  split
  case isTrue hin =>
    have hxn := hx.mp hin
    refine ⟨fun n => ?_, h.bound, h.fst, h.snd, fun n i hm => ?_⟩
    · rw [← h.mem, List.mem_append, List.mem_singleton]
      exact ⟨fun ho => ho.elim id fun he => he ▸ hxn, .inl⟩
    · obtain ⟨before, after, rfl, hb⟩ := h.seen n i hm
      exact ⟨before, after ++ [x], by simp, hb⟩
  case isFalse hin =>
    have hxn : x ∉ names := mt hx.mpr hin
    have hxt {i} : (x, i) ∉ table := fun hm => hxn ((h.mem x).mpr ⟨i, hm⟩)
    have hmem {n i} :
        (n, i) ∈ table ++ [(x, table.length)] ↔ (n, i) ∈ table ∨ n = x ∧ i = table.length := by
      simp
    constructor
    case mem =>
      intro n
      simp only [hmem, List.mem_append, List.mem_singleton, h.mem, exists_or, exists_and_left, exists_eq,
        and_true]
    case bound =>
      intro n i hm
      rw [List.length_append]
      obtain hm | ⟨_, rfl⟩ := hmem.mp hm
      · exact Nat.lt_succ_of_lt (h.bound n i hm)
      · exact Nat.lt_succ_self _
    case fst =>
      intro n i j hi hj
      obtain hi | ⟨rfl, rfl⟩ := hmem.mp hi <;> obtain hj | ⟨hn, rfl⟩ := hmem.mp hj
      · exact h.fst n i j hi hj
      · exact absurd (hn ▸ hi) hxt
      · exact absurd hj hxt
      · rfl
    case snd =>
      intro n m i hn hm
      obtain hnt | ⟨hnx, hi⟩ := hmem.mp hn <;> obtain hmt | ⟨hmx, hj⟩ := hmem.mp hm
      · exact h.snd n m i hnt hmt
      · exact absurd (h.bound n i hnt) (hj ▸ Nat.lt_irrefl _)
      · exact absurd (h.bound m i hmt) (hi ▸ Nat.lt_irrefl _)
      · exact hnx.trans hmx.symm
    case seen =>
      intro n i hm
      obtain hm | ⟨rfl, rfl⟩ := hmem.mp hm
      · obtain ⟨before, after, rfl, hb⟩ := h.seen n i hm
        refine ⟨before, after ++ [x], by simp, fun m => ?_⟩
        rw [hb]
        refine exists_congr fun j => and_congr_right fun hj => ?_
        rw [hmem]
        refine ⟨.inl, fun ho => ho.elim id ?_⟩
        rintro ⟨_, rfl⟩
        exact absurd (hj.trans (h.bound n i hm)) (Nat.lt_irrefl _)
      · refine ⟨names, [], rfl, fun m => ?_⟩
        rw [h.mem]
        constructor
        · rintro ⟨j, hj⟩
          exact ⟨j, h.bound m j hj, hmem.mpr (.inl hj)⟩
        · rintro ⟨j, hlt, hj⟩
          obtain hj | ⟨_, rfl⟩ := hmem.mp hj
          · exact ⟨j, hj⟩
          · exact absurd hlt (Nat.lt_irrefl _)

theorem registers_foldl (sheets : List (List CString)) :
    Registers sheets.flatten (sheets.foldl LayerRanks.addSheet []) := by
  have hf : sheets.foldl LayerRanks.addSheet [] = sheets.flatten.foldl LayerRanks.addName [] := by
    rw [List.foldl_flatten]
    rfl
  rw [hf]
  induction sheets.flatten using List.reverseRecOn
  case nil => constructor <;> simp
  case append_singleton names x hind =>
    rw [List.foldl_append]
    exact hind.addName

end Table

section Tree

variable {sheets : List (List CString)} {iterated : LayerRanks} {names : List CString}

def layerRank (iterated : LayerRanks) (ps : List CString) : WithTop Nat :=
  (layerFirst iterated (join ps)).elim ⊤ WithTop.some

-- The paths to the layers, and the one to their root.
def layerPaths (names : List CString) : Set (List CString) :=
  { ps | ps = [] ∨ ∃ n ∈ names, ps <+: layerParts n }

theorem layerParts_mem_layerPaths {q : CString} : layerParts q ∈ layerPaths names ↔ IsLayer names q :=
  or_iff_right (layerParts_ne_nil q)

theorem within_join {n : CString} {ps : List CString} (hps : ps ≠ []) (h : ps <+: layerParts n) :
    Within n (join ps) := by
  rw [Within, layerParts_join hps h]
  exact h

namespace Iterations

theorem mem_iterated (h : Iterations sheets iterated names) {n : CString} :
    n ∈ sheets.flatten ↔ ∃ i, (n, i) ∈ iterated := by
  rw [(registers_foldl sheets).mem]
  exact exists_congr fun i => (h.perm.mem_iff).symm

-- The rank of a layer is that of the first name that is it or below it.
theorem exists_first (h : Iterations sheets iterated names) {q : CString} (hq : IsLayer sheets.flatten q) :
    ∃ i, layerFirst iterated q = some i := by
  obtain ⟨n, hn, hw⟩ := hq
  obtain ⟨i, hi⟩ := h.mem_iterated.mp hn
  exact Option.isSome_iff_exists.mp ((earliest_layerFirst iterated q).found ⟨n, i, hi, hw⟩)

theorem isSome_layerFirst_iff (h : Iterations sheets iterated names) {q : CString} :
    (layerFirst iterated q).isSome ↔ IsLayer sheets.flatten q := by
  constructor
  · intro hs
    obtain ⟨i, hi⟩ := Option.isSome_iff_exists.mp hs
    obtain ⟨⟨n, hn, hw⟩, _⟩ := (earliest_layerFirst iterated q).least i hi
    exact ⟨n, h.mem_iterated.mpr ⟨i, hn⟩, hw⟩
  · intro hq
    exact Option.isSome_iff_exists.mpr (h.exists_first hq)

theorem exists_rank (h : Iterations sheets iterated names) {d : List CString} {x : CString}
    (hx : d ++ [x] ∈ layerPaths sheets.flatten) : ∃ i, layerFirst iterated (join (d ++ [x])) = some i := by
  obtain hnil | ⟨n, hn, hp⟩ := hx
  · simp at hnil
  · exact h.exists_first ⟨n, hn, within_join (by simp) hp⟩

theorem rankedTree (h : Iterations sheets iterated names) :
    RankedTree (layerRank iterated) (layerPaths sheets.flatten) := by
  constructor
  case up =>
    rintro p q (rfl | ⟨n, hn, hp⟩) hq
    · exact .inl (List.prefix_nil.mp hq)
    · exact .inr ⟨n, hn, hq.trans hp⟩
  case ranked =>
    intro d x hx
    obtain ⟨i, hi⟩ := h.exists_rank hx
    simp [layerRank, hi]
  case apart =>
    rintro d x y (hnil | ⟨n, hn, hp⟩) (hnil' | ⟨m, hm, hq⟩) he
    · simp at hnil
    · simp at hnil
    · simp at hnil'
    · obtain ⟨i, hi⟩ := h.exists_first ⟨n, hn, within_join (by simp) hp⟩
      obtain ⟨j, hj⟩ := h.exists_first ⟨m, hm, within_join (by simp) hq⟩
      have hij : i = j := by simpa [layerRank, hi, hj] using he
      subst hij
      obtain ⟨⟨n', hn', hw⟩, _⟩ := (earliest_layerFirst iterated _).least i hi
      obtain ⟨⟨m', hm', hw'⟩, _⟩ := (earliest_layerFirst iterated _).least i hj
      have hnm := (registers_foldl sheets).snd n' m' i (h.perm.mem_iff.mp hn') (h.perm.mem_iff.mp hm')
      subst hnm
      rw [Within, layerParts_join (by simp) hp] at hw
      rw [Within, layerParts_join (by simp) hq] at hw'
      have hxy := (List.prefix_of_prefix_length_le hw hw' (by simp)).eq_of_length (by simp)
      simpa using hxy

end Iterations

end Tree

section Compare

variable {first : CString → Option Nat} {iterated : LayerRanks} {names : List CString}
  {sheets : List (List CString)}

def layerKey (iterated : LayerRanks) (q : CString) : List (WithTop Nat) :=
  pathKey (layerRank iterated) [] (layerParts q)

-- The comparison of two names is that of their keys.
structure Compares (c : Int) (k k' : List (WithTop Nat)) : Prop where
  lt : c < 0 ↔ k < k'
  gt : 0 < c ↔ k' < k

theorem Compares.of_lt {c : Int} {k k' : List (WithTop Nat)} (h : k < k') (hc : c < 0) : Compares c k k' :=
  ⟨iff_of_true hc h, iff_of_false hc.asymm h.asymm⟩

theorem Compares.of_gt {c : Int} {k k' : List (WithTop Nat)} (h : k' < k) (hc : 0 < c) : Compares c k k' :=
  ⟨iff_of_false hc.asymm h.asymm, iff_of_true hc h⟩

theorem Compares.le_zero {c : Int} {k k' : List (WithTop Nat)} (h : Compares c k k') : c ≤ 0 ↔ k ≤ k' := by
  rw [← not_lt, h.gt, not_lt]

theorem Compares.eq_zero {c : Int} {k k' : List (WithTop Nat)} (h : Compares c k k') : c = 0 ↔ k = k' := by
  have hlt := h.lt
  have hgt := h.gt
  constructor
  · rintro rfl
    exact le_antisymm (h.le_zero.mp le_rfl) (not_lt.mp (mt hlt.mpr (lt_irrefl 0)))
  · rintro rfl
    exact le_antisymm (h.le_zero.mpr le_rfl) (not_lt.mp (mt hlt.mp (lt_irrefl _)))

theorem compares_layerPartsCmp (h : Iterations sheets iterated names) {a b : CString}
    {done xs ys : List CString} (hxs : xs ≠ []) (hys : ys ≠ []) (ha : done ++ xs ∈ layerPaths sheets.flatten)
    (hb : done ++ ys ∈ layerPaths sheets.flatten) :
    Compares (layerPartsCmp (layerFirst iterated) a b done xs ys)
      (pathKey (layerRank iterated) done xs) (pathKey (layerRank iterated) done ys) := by
  have ht := h.rankedTree
  induction xs generalizing done ys
  case nil => exact absurd rfl hxs
  case cons x xs hind =>
    cases ys
    case nil       => exact absurd rfl hys
    case cons y ys =>
      have hx := ht.up_append ha
      have hy := ht.up_append hb
      rw [layerPartsCmp, pathKey_cons, pathKey_cons]
      by_cases hxy : x = y
      case pos =>
        subst hxy
        rw [if_pos rfl]
        -- Behind a part that the names share, one that ends there is the larger one.
        have hlt {z} {zs} (hz : done ++ x :: z :: zs ∈ layerPaths sheets.flatten) :
            pathKey (layerRank iterated) (done ++ [x]) (z :: zs) <
              pathKey (layerRank iterated) (done ++ [x]) [] :=
          have hr := ht.ranked (ht.up_append (d := done ++ [x]) (p := zs) (by simpa using hz))
          List.cons_lt_cons_iff.mpr (.inl hr.lt_top)
        cases xs <;> cases ys
        case nil.nil       => constructor <;> simp
        case nil.cons z ys => exact .of_gt (List.cons_lt_cons_iff.mpr (.inr ⟨rfl, hlt hb⟩)) (by simp)
        case cons.nil z xs => exact .of_lt (List.cons_lt_cons_iff.mpr (.inr ⟨rfl, hlt ha⟩)) (by simp)
        case cons.cons z xs z' ys =>
          have hi := @hind (done ++ [x]) (z' :: ys) (by simp) (by simp) (by simpa using ha)
            (by simpa using hb)
          rw [if_neg (by simp), if_neg (by simp), if_neg (by simp)]
          constructor
          · rw [List.cons_lt_cons_iff]
            simpa using hi.lt
          · rw [List.cons_lt_cons_iff]
            simpa using hi.gt
      case neg =>
        rw [if_neg hxy]
        have hr : layerRank iterated (done ++ [x]) ≠ layerRank iterated (done ++ [y]) :=
          fun he => hxy (ht.apart hx hy he)
        obtain ⟨i, hi⟩ := h.exists_rank hx
        obtain ⟨j, hj⟩ := h.exists_rank hy
        have hij : i ≠ j := fun he => hr (by rw [layerRank, layerRank, hi, hj, he])
        simp only [layerFirstIndex, hi, hj, Option.getD_some, ne_eq, hij, not_false_eq_true, if_true]
        have hlt {k l} {i j : Nat} {p q : List CString} (hi : layerFirst iterated (join p) = some i)
            (hj : layerFirst iterated (join q) = some j) (hij : i < j) :
            layerRank iterated p :: k < layerRank iterated q :: l :=
          List.cons_lt_cons_iff.mpr (.inl (by simpa [layerRank, hi, hj] using hij))
        obtain hlt' | hgt := Nat.lt_or_gt_of_ne hij
        · exact .of_lt (hlt hi hj hlt') (by simp [hlt'])
        · exact .of_gt (hlt hj hi hgt) (by simp [hgt.asymm])

theorem layerKey_inj (h : Iterations sheets iterated names) {a b : CString} (ha : IsLayer sheets.flatten a)
    (hb : IsLayer sheets.flatten b) (hk : layerKey iterated a = layerKey iterated b) : a = b :=
  layerParts_inj (h.rankedTree.pathKey_inj (d := []) (layerParts_mem_layerPaths.mpr ha)
    (layerParts_mem_layerPaths.mpr hb) hk)

theorem compares_layerNameCmp (h : Iterations sheets iterated names) {a b : CString}
    (ha : IsLayer sheets.flatten a) (hb : IsLayer sheets.flatten b) :
    Compares (layerNameCmp (layerFirst iterated) a b) (layerKey iterated a) (layerKey iterated b) :=
  compares_layerPartsCmp h (layerParts_ne_nil a) (layerParts_ne_nil b) (layerParts_mem_layerPaths.mpr ha)
    (layerParts_mem_layerPaths.mpr hb)

theorem totallyOrders_layerNameCmp (h : Iterations sheets iterated names) :
    TotallyOrders (layerNameCmp (layerFirst iterated)) (IsLayer sheets.flatten) := by
  constructor
  case eq_zero =>
    intro a b ha hb
    rw [(compares_layerNameCmp h ha hb).eq_zero]
    exact ⟨layerKey_inj h ha hb, congrArg _⟩
  case swap =>
    intro a b ha hb
    rw [(compares_layerNameCmp h ha hb).lt, (compares_layerNameCmp h hb ha).gt]
  case trans =>
    intro a b c ha hb hc hab hbc
    rw [(compares_layerNameCmp h ha hb).lt] at hab
    rw [(compares_layerNameCmp h hb hc).lt] at hbc
    exact (compares_layerNameCmp h ha hc).lt.mpr (hab.trans hbc)

end Compare

section Ranks

variable {iterated : LayerRanks} {names : List CString} {sheets : List (List CString)}

theorem isLayer_of_mem (h : Iterations sheets iterated names) {q : CString} (hq : q ∈ names) :
    IsLayer sheets.flatten q :=
  h.isSome_layerFirst_iff.mp ((h.mem q).mp hq)

-- The sorted names come by their keys.
theorem pairwise_layerKey (h : Iterations sheets iterated names) :
    (gArraySort (layerNameCmp (layerFirst iterated)) names).Pairwise
      (layerKey iterated · < layerKey iterated ·) := by
  have hp := gArraySort_perm (layerNameCmp (layerFirst iterated)) names
  have hle : (gArraySort (layerNameCmp (layerFirst iterated)) names).Pairwise
      (layerKey iterated · ≤ layerKey iterated ·) := by
    have hs : (gArraySort (layerNameCmp (layerFirst iterated)) names).map (layerKey iterated) =
        (names.map (layerKey iterated)).insertionSort (· ≤ ·) :=
      List.map_insertionSort _ _ _ names fun a ha b hb =>
        (compares_layerNameCmp h (isLayer_of_mem h ha) (isLayer_of_mem h hb)).le_zero
    rw [← List.pairwise_map, hs]
    exact List.pairwise_insertionSort _ _
  have hnd : (gArraySort (layerNameCmp (layerFirst iterated)) names).Nodup := hp.nodup_iff.mpr h.nodup
  refine (hle.and hnd).imp_of_mem fun {a b} ha hb hab => lt_of_le_of_ne hab.left fun he => hab.right ?_
  exact layerKey_inj h (isLayer_of_mem h (hp.mem_iff.mp ha)) (isLayer_of_mem h (hp.mem_iff.mp hb)) he

theorem mem_layerRanksFinalize_iff {q : CString} {i : Nat} : (q, i) ∈ layerRanksFinalize iterated names ↔
    (gArraySort (layerNameCmp (layerFirst iterated)) names)[i]? = some q :=
  List.mem_zipIdx_iff_getElem?

theorem isLayer_of_rank (h : Iterations sheets iterated names) {q : CString} {i : Nat}
    (hq : (q, i) ∈ layerRanksFinalize iterated names) : IsLayer sheets.flatten q :=
  isLayer_of_mem h ((gArraySort_perm _ names).mem_iff.mp
    (List.mem_of_getElem? (mem_layerRanksFinalize_iff.mp hq)))

-- The ranks come as the keys do.
theorem rank_lt_iff (h : Iterations sheets iterated names) {q r : CString} {i j : Nat}
    (hq : (q, i) ∈ layerRanksFinalize iterated names) (hr : (r, j) ∈ layerRanksFinalize iterated names) :
    i < j ↔ layerKey iterated q < layerKey iterated r := by
  have hp := pairwise_layerKey h
  obtain ⟨hi, hqi⟩ := List.getElem?_eq_some_iff.mp (mem_layerRanksFinalize_iff.mp hq)
  obtain ⟨hj, hrj⟩ := List.getElem?_eq_some_iff.mp (mem_layerRanksFinalize_iff.mp hr)
  have hlt {i j} {hi hj} (hij : i < j) := List.pairwise_iff_getElem.mp hp i j hi hj hij
  constructor
  · intro hij
    have hk := @hlt i j hi hj hij
    rwa [hqi, hrj] at hk
  · intro hk
    by_contra hn
    obtain hji | rfl := Nat.lt_or_eq_of_le (not_lt.mp hn)
    · have hk' := @hlt j i hj hi hji
      rw [hqi, hrj] at hk'
      exact hk.asymm hk'
    · rw [hqi] at hrj
      exact absurd hk (hrj ▸ lt_irrefl _)

theorem rank_le_iff (h : Iterations sheets iterated names) {q r : CString} {i j : Nat}
    (hq : (q, i) ∈ layerRanksFinalize iterated names) (hr : (r, j) ∈ layerRanksFinalize iterated names) :
    i ≤ j ↔ layerKey iterated q ≤ layerKey iterated r := by
  rw [← not_lt, rank_lt_iff h hr hq, not_lt]

-- Of two siblings the one that is seen first has the smaller index.
theorem seenBefore_iff (h : Iterations sheets iterated names) {q r : CString} {i j : Nat}
    (hi : layerFirst iterated q = some i) (hj : layerFirst iterated r = some j) :
    SeenBefore sheets.flatten q r ↔ i < j := by
  have hr := registers_foldl sheets
  obtain ⟨⟨n, hn, hnq⟩, hlq⟩ := (earliest_layerFirst iterated q).least i hi
  obtain ⟨⟨m, hm, hmr⟩, hlr⟩ := (earliest_layerFirst iterated r).least j hj
  constructor
  · intro ⟨before, n', after, he, hw, hno⟩
    have hn' : n' ∈ sheets.flatten := he ▸ by simp
    obtain ⟨i', hi'⟩ := h.mem_iterated.mp hn'
    refine Nat.lt_of_le_of_lt (hlq n' i' hi' hw) ?_
    -- What is below the second layer is seen only behind what is below the first one.
    obtain ⟨before', after', he', hb'⟩ := hr.seen m j (h.perm.mem_iff.mp hm)
    have hmem : n' ∈ before' := by
      have hmn : m ∉ before ++ [n'] := fun hin => hno m hin hmr
      rw [he] at he'
      obtain ⟨c, rfl, hc⟩ | ⟨c, rfl, hc⟩ := List.append_eq_append_iff.mp he' <;> cases c
      · cases hc
        simp at hmn
      · cases hc
        simp
      · cases hc
        simp at hmn
      · cases hc
        simp at hmn
    obtain ⟨k, hk, hkn⟩ := (hb' n').mp hmem
    exact hr.fst n' k i' hkn (h.perm.mem_iff.mp hi') ▸ hk
  · intro hij
    obtain ⟨before, after, he, hb⟩ := hr.seen n i (h.perm.mem_iff.mp hn)
    refine ⟨before, n, after, he, hnq, fun p hp hpr => ?_⟩
    obtain hp | hp := List.mem_append.mp hp
    · obtain ⟨k, hk, hkp⟩ := (hb p).mp hp
      exact absurd (hlr p k (h.perm.mem_iff.mpr hkp) hpr) (not_le.mpr (hk.trans hij))
    · cases List.mem_singleton.mp hp
      exact absurd (hlr n i hn hpr) (not_le.mpr hij)

theorem ranksLayers (h : Iterations sheets iterated names) :
    RanksLayers sheets.flatten (layerRanksFinalize iterated names) := by
  constructor
  case layers =>
    intro q
    have hp := gArraySort_perm (layerNameCmp (layerFirst iterated)) names
    rw [← h.isSome_layerFirst_iff, ← h.mem, ← hp.mem_iff, List.mem_iff_getElem?]
    exact exists_congr fun i => mem_layerRanksFinalize_iff.symm
  case inj =>
    intro q r i j hq hr
    constructor
    · rintro rfl
      exact le_antisymm ((rank_le_iff h hq hr).mpr le_rfl) ((rank_le_iff h hr hq).mpr le_rfl)
    · rintro rfl
      exact layerKey_inj h (isLayer_of_rank h hq) (isLayer_of_rank h hr)
        (le_antisymm ((rank_le_iff h hq hr).mp le_rfl) ((rank_le_iff h hr hq).mp le_rfl))
  case siblings =>
    intro q r i j hq hr hs
    obtain ⟨i', hi'⟩ := h.exists_first (isLayer_of_rank h hq)
    obtain ⟨j', hj'⟩ := h.exists_first (isLayer_of_rank h hr)
    have hq' := List.dropLast_append_getLast (layerParts_ne_nil q)
    have hr' := List.dropLast_append_getLast (layerParts_ne_nil r)
    rw [← hs.right] at hr'
    have hrank {p k} (hk : layerFirst iterated p = some k) :
        layerRank iterated (layerParts p) = WithTop.some k := by
      rw [layerRank, join_layerParts, hk]
      rfl
    calc i < j ↔ layerKey iterated q < layerKey iterated r := rank_lt_iff h hq hr
      _ ↔ layerRank iterated (layerParts q) < layerRank iterated (layerParts r) := by
        rw [layerKey, layerKey, ← hq', ← hr', pathKey_concat_lt_iff]
      _ ↔ i' < j' := by rw [hrank hi', hrank hj', WithTop.coe_lt_coe]
      _ ↔ SeenBefore sheets.flatten q r := (seenBefore_iff h hi' hj').symm
  case after =>
    intro q r i j hq hr hw hne
    rw [rank_lt_iff h hq hr]
    exact h.rankedTree.pathKey_lt_of_prefix (layerParts_mem_layerPaths.mpr (isLayer_of_rank h hq)) hw
      fun he => hne (layerParts_inj he.symm)
  case contiguous =>
    intro p a b c i j k ha hb hc hij hjk hap hcp
    refine h.rankedTree.prefix_of_between_keys (layerParts_mem_layerPaths.mpr (isLayer_of_rank h hb))
      hap hcp ?_ ((rank_le_iff h ha hb).mp hij) ((rank_le_iff h hb hc).mp hjk)
    exact h.rankedTree.up (layerParts_mem_layerPaths.mpr (isLayer_of_rank h ha)) hap

-- There is such an order for all sheets.
theorem iterations_dedup (sheets : List (List CString)) :
    Iterations sheets (sheets.foldl LayerRanks.addSheet [])
      ((sheets.foldl LayerRanks.addSheet []).flatMap fun entry => layerPrefixes entry.fst).dedup := by
  refine ⟨.refl _, List.nodup_dedup _, fun name => ?_⟩
  rw [List.mem_dedup, List.mem_flatMap]
  constructor
  · rintro ⟨⟨n, i⟩, hn, hm⟩
    exact (earliest_layerFirst _ name).found ⟨n, i, hn, mem_layerPrefixes_iff.mp hm⟩
  · intro hs
    obtain ⟨i, hi⟩ := Option.isSome_iff_exists.mp hs
    obtain ⟨⟨n, hn, hw⟩, _⟩ := (earliest_layerFirst _ name).least i hi
    exact ⟨(n, i), hn, mem_layerPrefixes_iff.mpr hw⟩

end Ranks

-- The ranks order the layers of the sheets as the cascade needs them, by a total order of their names.
theorem ranksLayers_and_totallyOrders {sheets : List (List CString)} {iterated : LayerRanks}
    {names : List CString} (h : Iterations sheets iterated names) :
    RanksLayers sheets.flatten (layerRanksFinalize iterated names) ∧
      TotallyOrders (layerNameCmp (layerFirst iterated)) (IsLayer sheets.flatten) :=
  ⟨ranksLayers h, totallyOrders_layerNameCmp h⟩

theorem ranksLayers_nestedAndImplied :
    RanksLayers ["a.b".toList, "c".toList, "a.d".toList, "c".toList, "c.e".toList]
      [("a.b".toList, 0), ("a.d".toList, 1), ("a".toList, 2), ("c.e".toList, 3), ("c".toList, 4)] := by
  have h := iterations_dedup [["a.b".toList, "c".toList], ["a.d".toList, "c".toList, "c.e".toList]]
  exact (ranksLayers_and_totallyOrders h).left

end Nordstjernen.Css
