import Nordstjernen.Dom.Theorems.DocumentOrder

open Nordstjernen.Glib Nordstjernen.Lib

namespace Nordstjernen.Dom

namespace Tree

variable {t : Tree} {n m : Node}

section Search

variable {cmp : Node → Int} {arr before after : List Node} {fuel lo hi : Nat}

-- The search ends between what comes before and what comes after.
theorem search_eq (hb : ∀ m ∈ before, 0 < cmp m) (ha : ∀ m ∈ after, cmp m < 0) (hlo : lo ≤ before.length)
    (hhi : before.length ≤ hi) (hlen : hi ≤ (before ++ after).length) (hf : hi - lo ≤ fuel) :
    search cmp (before ++ after) fuel lo hi = some before.length := by
  induction fuel generalizing lo hi
  case zero =>
    have he : lo = before.length := by omega
    rw [search, he]
  case succ fuel hi' =>
    rw [search]
    split
    case isFalse h =>
      have he : lo = before.length := by omega
      rw [he]
    case isTrue h =>
      have hmid : (lo + hi) / 2 < (before ++ after).length := by omega
      rw [List.getElem?_eq_getElem hmid]
      dsimp only
      by_cases hm : (lo + hi) / 2 < before.length
      case pos =>
        rw [List.getElem_append_left hm]
        have hc := hb _ (List.getElem_mem hm)
        rw [if_neg (by omega), if_neg (by omega)]
        exact hi' (by omega) hhi hlen (by omega)
      case neg =>
        have he : (before ++ after)[(lo + hi) / 2] ∈ after := by
          rw [List.getElem_append_right (Nat.not_lt.mp hm)]
          exact List.getElem_mem _
        have hc := ha _ he
        rw [if_neg (by omega), if_pos hc]
        exact hi' hlo (by omega) (by omega) (by omega)

-- It ends at the node itself if it is there.
theorem search_eq_none (hb : ∀ m ∈ before, 0 < cmp m) (ha : ∀ m ∈ after, cmp m < 0) (hn : cmp n = 0)
    (hlo : lo ≤ before.length) (hhi : before.length < hi) (hlen : hi ≤ (before ++ n :: after).length)
    (hf : hi - lo ≤ fuel) : search cmp (before ++ n :: after) fuel lo hi = none := by
  induction fuel generalizing lo hi
  case zero => omega
  case succ fuel hi' =>
    have hmid : (lo + hi) / 2 < (before ++ n :: after).length := by omega
    rw [search, if_pos (by omega), List.getElem?_eq_getElem hmid]
    dsimp only
    obtain hm | hm | hm := Nat.lt_trichotomy ((lo + hi) / 2) before.length
    case inl =>
      rw [List.getElem_append_left hm]
      have hc := hb _ (List.getElem_mem hm)
      rw [if_neg (by omega), if_neg (by omega)]
      exact hi' (by omega) hhi hlen (by omega)
    case inr.inl =>
      have he : (before ++ n :: after)[(lo + hi) / 2] = n := by simp [hm]
      rw [he, if_pos hn]
    case inr.inr =>
      have he : (before ++ n :: after)[(lo + hi) / 2] ∈ after := by
        rw [List.getElem_append_right (Nat.le_of_lt hm)]
        obtain ⟨k, hk⟩ := Nat.exists_eq_add_of_lt (Nat.sub_pos_of_lt hm)
        simp only [hk, Nat.zero_add, List.getElem_cons_succ]
        exact List.getElem_mem _
      have hc := ha _ he
      rw [if_neg (by omega), if_pos hc]
      exact hi' hlo (by omega) (by omega) (by omega)

end Search

section Insert

variable {w arr : List Node} {q : Node → Bool}

-- Whether the nodes of a list stand in document order.
def InOrder (t : Tree) (w : List Node) : Prop :=
  t.kids.height < domMaxDepth ∧ w.Sublist t.whole.labels

theorem InOrder.nodup (h : t.InOrder w) : w.Nodup :=
  t.nodup.sublist h.right

theorem documentOrderCmp_self : t.documentOrderCmp n n = 0 := by
  rw [documentOrderCmp, if_pos rfl]

theorem InOrder.cmp {before after : List Node} (h : t.InOrder (before ++ n :: after)) :
    (∀ m ∈ before, 0 < t.documentOrderCmp n m) ∧ ∀ m ∈ after, t.documentOrderCmp n m < 0 := by
  refine ⟨fun m hm => ?_, fun m hm => ?_⟩
  · have hs : [m, n].Sublist (before ++ n :: after) :=
      (List.singleton_sublist.mpr hm).append (List.singleton_sublist.mpr List.mem_cons_self)
    rw [(documentOrderCmp_of_sublist h.left (hs.trans h.right)).right]
    exact Int.one_pos
  · have hs : [n, m].Sublist (before ++ n :: after) :=
      ((List.singleton_sublist.mpr hm).cons_cons n).trans (List.sublist_append_right _ _)
    rw [(documentOrderCmp_of_sublist h.left (hs.trans h.right)).left]
    decide

theorem insertIdx_length {before after : List Node} :
    (before ++ after).insertIdx before.length n = before ++ n :: after := by
  induction before
  case nil            => rfl
  case cons b before hi => rw [List.length_cons, List.cons_append, List.insertIdx_succ_cons, hi, List.cons_append]

-- Not the end of the list where there is something that does not come before the node.
theorem getLast?_all_eq_false {before after : List Node} {p : Node → Bool} (hne : after ≠ [])
    (ha : ∀ m ∈ after, p m = false) : (before ++ after).getLast?.all p = false := by
  rw [List.getLast?_append, List.getLast?_eq_some_getLast hne, Option.some_or, Option.all_some]
  exact ha _ (List.getLast_mem hne)

-- A node comes to its place among some nodes that stand in document order.
theorem orderedInsert_filter (h : t.InOrder w) (hn : n ∈ w) :
    t.orderedInsert false (w.filter q) n = w.filter fun m => q m || m = n := by
  obtain ⟨before, after, rfl⟩ := List.append_of_mem hn
  obtain ⟨hb, ha⟩ := h.cmp
  have hnd := h.nodup
  have hnb : n ∉ before := fun hm => by
    have hp := hb n hm
    rw [documentOrderCmp_self] at hp
    omega
  have hna : n ∉ after := fun hm => by
    have hp := ha n hm
    rw [documentOrderCmp_self] at hp
    omega
  have hsame {l : List Node} (hl : n ∉ l) : l.filter (fun m => q m || m = n) = l.filter q := by
    refine List.filter_congr fun m hm => ?_
    have hmn : m ≠ n := fun he => hl (he ▸ hm)
    simp [hmn]
  have hb' : ∀ m ∈ before.filter q, 0 < t.documentOrderCmp n m := fun m hm => hb m (List.mem_of_mem_filter hm)
  have ha' : ∀ m ∈ after.filter q, t.documentOrderCmp n m < 0 := fun m hm => ha m (List.mem_of_mem_filter hm)
  have hright : (before ++ n :: after).filter (fun m => q m || m = n) =
      before.filter q ++ n :: after.filter q := by
    simp [List.filter_append, hsame hnb, hsame hna]
  rw [hright, List.filter_append]
  cases hq : q n
  case true =>
    have hend : ∀ m ∈ n :: after.filter q, decide (t.documentOrderCmp n m > 0) = false := by
      intro m hm
      obtain rfl | hm := List.mem_cons.mp hm
      · simp [documentOrderCmp_self]
      · simpa using Int.le_of_lt (ha' m hm)
    rw [List.filter_cons_of_pos hq, orderedInsert, if_neg Bool.false_ne_true,
      getLast?_all_eq_false (List.cons_ne_nil _ _) hend, if_neg Bool.false_ne_true,
      search_eq_none hb' ha' documentOrderCmp_self (Nat.zero_le _) (by simp) (Nat.le_refl _) (by omega)]
  case false =>
    rw [List.filter_cons_of_neg (by simp [hq]), orderedInsert, if_neg Bool.false_ne_true]
    split
    case isFalse =>
      rw [search_eq hb' ha' (Nat.zero_le _) (by simp) (Nat.le_refl _) (by omega)]
      exact insertIdx_length
    case isTrue hl =>
      -- There is nothing after the node.
      have he : after.filter q = [] := by
        by_contra hne
        have hall := @getLast?_all_eq_false (before.filter q) _ _ hne fun m hm =>
          decide_eq_false (Int.not_lt.mpr (Int.le_of_lt (ha' m hm)))
        rw [hall] at hl
        cases hl
      rw [he, List.append_nil]

-- To put a node in twice is to put it in once.
theorem orderedInsert_idem (h : t.InOrder w) (hn : n ∈ w) :
    t.orderedInsert false (t.orderedInsert false (w.filter q) n) n = t.orderedInsert false (w.filter q) n := by
  rw [orderedInsert_filter h hn, orderedInsert_filter h hn]
  simp

theorem orderedInsert_building_idem :
    t.orderedInsert true (t.orderedInsert true arr n) n = t.orderedInsert true arr n := by
  by_cases h : arr.getLast? = some n <;> simp [orderedInsert, h]

end Insert

section Keys

variable {building : Bool} {idx : NodeIndex} {key k : CString} {ks : List CString}
  {keys : Info → List CString} {info : Node → Info}

theorem addKey_getD : (t.addKey building n idx key k).getD [] =
    if k = key then t.orderedInsert building ((idx k).getD []) n else (idx k).getD [] := by
  rw [addKey]
  split
  case isFalse   => rfl
  case isTrue hk =>
    subst hk
    cases idx k
    case some arr => rfl
    case none     => cases building <;> rfl

theorem foldl_addKey_getD
    (h : t.orderedInsert building (t.orderedInsert building ((idx k).getD []) n) n =
      t.orderedInsert building ((idx k).getD []) n) :
    (ks.foldl (t.addKey building n) idx k).getD [] =
      if k ∈ ks then t.orderedInsert building ((idx k).getD []) n else (idx k).getD [] := by
  induction ks generalizing idx
  case nil            => rfl
  case cons key ks hi =>
    rw [List.foldl_cons]
    by_cases hk : k = key
    case neg => rw [hi] <;> simp [addKey_getD, hk, h]
    case pos => rw [hi] <;> simp [addKey_getD, hk] <;> simp_all

theorem removeKey_getD (h : ((idx k).getD []).Nodup) : (removeKey n idx key k).getD [] =
    if k = key then ((idx k).getD []).filter (· ≠ n) else (idx k).getD [] := by
  rw [removeKey]
  split
  case isFalse   => rfl
  case isTrue hk =>
    subst hk
    cases hx : idx k
    case none     => rfl
    case some arr =>
      rw [hx] at h
      refine (h.erase_eq_filter n).trans (List.filter_congr fun m _ => ?_)
      by_cases hm : m = n <;> simp [hm]

theorem foldl_removeKey_getD (h : ((idx k).getD []).Nodup) :
    (ks.foldl (removeKey n) idx k).getD [] =
      if k ∈ ks then ((idx k).getD []).filter (· ≠ n) else (idx k).getD [] := by
  induction ks generalizing idx
  case nil            => rfl
  case cons key ks hi =>
    rw [List.foldl_cons]
    have hr := @removeKey_getD n idx key k h
    by_cases hk : k = key
    case neg =>
      rw [if_neg hk] at hr
      rw [hi (hr ▸ h), hr]
      simp [hk]
    case pos =>
      rw [if_pos hk] at hr
      rw [hi (hr ▸ h.filter _), hr]
      simp [hk]

end Keys

section Filed

variable {idx : NodeIndex} {w : List Node} {q q' : CString → Node → Bool} {keys : Info → List CString}
  {info : Node → Info} {nodes : List Node} {ks : List CString}

-- What an index holds, by the nodes in their order and by which of them are under a key.
def Filed (idx : NodeIndex) (w : List Node) (q : CString → Node → Bool) : Prop :=
  ∀ k, (idx k).getD [] = w.filter (q k)

theorem Filed.congr (h : Filed idx w q) (hq : ∀ k, ∀ m ∈ w, q k m = q' k m) : Filed idx w q' :=
  fun k => (h k).trans (List.filter_congr (hq k))

theorem Filed.addNode (h : Filed idx w q) (hw : t.InOrder w) (hn : n ∈ w) :
    Filed (t.addNode keys info false idx n) w fun k m => q k m || (m = n && (keys (info m)).contains k) := by
  intro k
  have hid := orderedInsert_idem (q := q k) hw hn
  rw [← h k] at hid
  rw [Tree.addNode, foldl_addKey_getD hid, h k]
  split
  case isTrue hk  =>
    rw [orderedInsert_filter hw hn]
    refine List.filter_congr fun m _ => ?_
    by_cases hm : m = n <;> simp [hm, hk]
  case isFalse hk =>
    refine List.filter_congr fun m _ => ?_
    by_cases hm : m = n <;> simp [hm, hk]

theorem Filed.addNodes (h : Filed idx w q) (hw : t.InOrder w) (hn : nodes ⊆ w) :
    Filed (nodes.foldl (t.addNode keys info false) idx) w
      fun k m => q k m || (m ∈ nodes && (keys (info m)).contains k) := by
  induction nodes generalizing idx q
  case nil             => exact h.congr (by simp)
  case cons n nodes hi =>
    obtain ⟨hnw, hns⟩ := List.cons_subset.mp hn
    refine (hi (h.addNode hw hnw) hns).congr fun k m _ => ?_
    simp [Bool.and_or_distrib_right, Bool.or_assoc]

theorem Filed.removeNode (h : Filed idx w q) (hw : w.Nodup) :
    Filed (Tree.removeNode keys info idx n) w fun k m => q k m && !(m = n && (keys (info m)).contains k) := by
  intro k
  have hd : ((idx k).getD []).Nodup := by
    rw [h k]
    exact hw.filter _
  rw [Tree.removeNode, foldl_removeKey_getD hd, h k]
  split
  case isTrue hk  =>
    rw [List.filter_filter]
    refine List.filter_congr fun m _ => ?_
    by_cases hm : m = n <;> simp [hm, hk]
  case isFalse hk =>
    refine List.filter_congr fun m _ => ?_
    by_cases hm : m = n <;> simp [hm, hk]

theorem Filed.removeNodes (h : Filed idx w q) (hw : w.Nodup) :
    Filed (nodes.foldl (Tree.removeNode keys info) idx) w
      fun k m => q k m && !(m ∈ nodes && (keys (info m)).contains k) := by
  induction nodes generalizing idx q
  case nil             => exact h.congr (by simp)
  case cons n nodes hi =>
    refine (hi (h.removeNode hw)).congr fun k m _ => ?_
    simp [Bool.and_or_distrib_right, Bool.and_assoc]

-- The nodes come in document order while an index is being built.
theorem foldl_addNode_building (hn : nodes.Nodup) :
    Filed (nodes.foldl (t.addNode keys info true) fun _ => none) nodes fun k m => (keys (info m)).contains k := by
  induction nodes using List.reverseRecOn
  case nil                       => exact fun k => rfl
  case append_singleton nodes n hi =>
    obtain ⟨hns, -, hd⟩ := List.nodup_append.mp hn
    intro k
    have hlast : (nodes.filter fun m => (keys (info m)).contains k).getLast? ≠ some n := fun he =>
      hd n (List.mem_of_mem_filter (List.mem_of_getLast? he)) n List.mem_cons_self rfl
    rw [List.foldl_concat, Tree.addNode, foldl_addKey_getD orderedInsert_building_idem, hi hns k,
      List.filter_append, orderedInsert, if_pos rfl, if_neg hlast]
    split <;> simp_all

end Filed

end Tree

end Nordstjernen.Dom
