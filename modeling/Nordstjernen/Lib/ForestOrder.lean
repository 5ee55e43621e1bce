import Mathlib.Data.List.Nodup
import Nordstjernen.Lib.TreeWalk

namespace Nordstjernen.Lib.Forest

-- The nodes of a forest whose labels are all different, the ways up from them, and their order.

variable {α : Type*} {f g : Forest α} {a b n r x : α}

-- The labels in document order.
def labels : Forest α → List α
  | nil              => []
  | node a kids sibs => a :: (labels kids ++ labels sibs)

-- The labels of the row that a forest begins with.
def tops : Forest α → List α
  | nil           => []
  | node a _ sibs => a :: tops sibs

theorem tops_sublist : f.tops.Sublist f.labels := by
  induction f
  case nil                => exact .slnil
  case node a kids sibs _ hs => exact (hs.trans (List.sublist_append_right _ _)).cons_cons a

-- The labels that a walk comes to. It leaves some trees out, does not go below some nodes, and may go
-- down a number of levels only.
section Reached

variable (skips stops : α → Bool)

def reached (levels : Option Nat) : Forest α → List α
  | nil              => []
  | node a kids sibs =>
    if levels = some 0 then []
    else
      (if skips a then [] else a :: if stops a then [] else reached (levels.map (· - 1)) kids) ++
        reached levels sibs

def height : Forest α → Nat
  | nil              => 0
  | node _ kids sibs => max (height kids + 1) (height sibs)

variable {skips stops} {l : Option Nat} {k : Nat}

theorem labels_eq_reached : f.labels = f.reached (fun _ => false) (fun _ => false) none := by
  induction f
  case nil                => rfl
  case node a kids sibs hk hs => simp [labels, reached, hk, hs]

-- The limit makes no difference to a forest that is not that high.
theorem reached_of_height (h : f.height ≤ k) :
    f.reached skips stops (some k) = f.reached skips stops none := by
  induction f generalizing k
  case nil => rfl
  case node a kids sibs hk hs =>
    obtain ⟨hka, hsi⟩ := Nat.max_le.mp h
    cases k
    case zero   => exact absurd hka (Nat.not_succ_le_zero _)
    case succ k => simp [reached, hk (Nat.le_of_succ_le_succ hka), hs hsi]

theorem reached_pred_sublist :
    (f.reached skips stops (l.map (· - 1))).Sublist (f.reached skips stops l) := by
  induction f generalizing l
  case nil => exact .slnil
  case node a kids sibs hk hs =>
    by_cases h : l.map (· - 1) = some 0
    case pos => simp [reached, h]
    case neg =>
      have hl : l ≠ some 0 := by
        rintro rfl
        exact h rfl
      rw [reached, reached, if_neg h, if_neg hl]
      refine List.Sublist.append ?_ hs
      split
      · exact .slnil
      · split
        · exact .refl _
        · exact hk.cons_cons a

theorem reached_sublist_labels : (f.reached skips stops l).Sublist f.labels := by
  induction f generalizing l
  case nil => exact .slnil
  case node a kids sibs hk hs =>
    rw [reached, labels, ← List.cons_append]
    split
    · exact List.nil_sublist _
    · refine List.Sublist.append ?_ hs
      split
      · exact List.nil_sublist _
      · refine List.Sublist.cons_cons a ?_
        split
        · exact List.nil_sublist _
        · exact hk

theorem reached_subset_labels : f.reached skips stops l ⊆ f.labels :=
  reached_sublist_labels.subset

end Reached

section DecEq

variable [DecidableEq α]

-- What is below a node.
def kids? : Forest α → α → Option (Forest α)
  | nil,              _ => none
  | node a kids sibs, n => if a = n then some kids else (kids? kids n).or (kids? sibs n)

-- The way up from a node: the node, its parent, and so on.
def lineage : Forest α → α → Option (List α)
  | nil,              _ => none
  | node a kids sibs, n =>
    if a = n then some [a] else ((lineage kids n).map (· ++ [a])).or (lineage sibs n)

-- Changes what is below a node.
def onKids (p : α) (g : Forest α → Forest α) : Forest α → Forest α
  | nil              => nil
  | node a kids sibs => if a = p then node a (g kids) sibs else node a (onKids p g kids) (onKids p g sibs)

-- Takes a node away, with all that is below it.
def remove (n : α) : Forest α → Forest α
  | nil              => nil
  | node a kids sibs => if a = n then sibs else node a (remove n kids) (remove n sibs)

-- Puts a tree into a row before a node, or at its end.
def insertBefore (ref : Option α) (r : α) (below : Forest α) : Forest α → Forest α
  | nil              => node r below nil
  | node a kids sibs =>
    if ref = some a then node r below (node a kids sibs) else node a kids (insertBefore ref r below sibs)

section Lineage

theorem isSome_lineage : (f.lineage n).isSome ↔ n ∈ f.labels := by
  induction f
  case nil                 => simp [lineage, labels]
  case node a kids sibs hk hs =>
    rw [lineage]
    split
    case isTrue h  => simp [labels, h]
    case isFalse h => simp [labels, hk, hs, Ne.symm h]

theorem lineage_eq_none (h : n ∉ f.labels) : f.lineage n = none := by
  rwa [← isSome_lineage, Bool.not_eq_true, Option.isSome_eq_false_iff, Option.isNone_iff_eq_none] at h

theorem exists_lineage (h : n ∈ f.labels) : ∃ l, f.lineage n = some (n :: l) := by
  induction f
  case nil                 => simp [labels] at h
  case node a kids sibs hk hs =>
    rw [lineage]
    split
    case isTrue hn  => exact ⟨[], by rw [hn]⟩
    case isFalse hn =>
      have hm : n ∈ kids.labels ∨ n ∈ sibs.labels := by simpa [labels, Ne.symm hn] using h
      by_cases hkids : n ∈ kids.labels
      case pos =>
        obtain ⟨l, hl⟩ := hk hkids
        exact ⟨l ++ [a], by simp [hl]⟩
      case neg =>
        obtain ⟨l, hl⟩ := hs (hm.resolve_left hkids)
        exact ⟨l, by simp [hl, lineage_eq_none hkids]⟩

end Lineage

-- The labels of the tree at a node.
def treeLabels (f : Forest α) (n : α) : List α :=
  match f.kids? n with
  | some kids => n :: kids.labels
  | none      => []

section TreeLabels

variable {kids sibs : Forest α}

theorem kids?_eq_none (h : n ∉ f.labels) : f.kids? n = none := by
  induction f
  case nil => rfl
  case node a kids sibs hk hs =>
    obtain ⟨ha, hn⟩ := not_or.mp fun ho => h (List.mem_cons.mpr ho)
    obtain ⟨hnk, hns⟩ := not_or.mp fun ho => hn (List.mem_append.mpr ho)
    rw [kids?, if_neg (Ne.symm ha), hk hnk, hs hns, Option.none_or]

theorem isSome_kids? : (f.kids? n).isSome ↔ n ∈ f.labels := by
  induction f
  case nil                 => simp [kids?, labels]
  case node a kids sibs hk hs =>
    rw [kids?]
    split
    case isTrue h  => simp [labels, h]
    case isFalse h => simp [labels, hk, hs, Ne.symm h]

theorem treeLabels_eq_nil (h : n ∉ f.labels) : f.treeLabels n = [] := by
  rw [treeLabels, kids?_eq_none h]

theorem treeLabels_self : (node a kids sibs).treeLabels a = a :: kids.labels := by
  rw [treeLabels, kids?, if_pos rfl]

theorem treeLabels_kids (ha : a ≠ n) (h : n ∈ kids.labels) :
    (node a kids sibs).treeLabels n = kids.treeLabels n := by
  obtain ⟨k, hk⟩ := Option.isSome_iff_exists.mp (isSome_kids?.mpr h)
  rw [treeLabels, treeLabels, kids?, if_neg ha, hk, Option.some_or]

theorem treeLabels_sibs (ha : a ≠ n) (h : n ∉ kids.labels) :
    (node a kids sibs).treeLabels n = sibs.treeLabels n := by
  rw [treeLabels, treeLabels, kids?, if_neg ha, kids?_eq_none h, Option.none_or]

theorem mem_treeLabels_self (h : n ∈ f.labels) : n ∈ f.treeLabels n := by
  obtain ⟨k, hk⟩ := Option.isSome_iff_exists.mp (isSome_kids?.mpr h)
  rw [treeLabels, hk]
  exact List.mem_cons_self

theorem treeLabels_subset : f.treeLabels n ⊆ f.labels := by
  induction f
  case nil => simp [treeLabels, kids?]
  case node a kids sibs hk hs =>
    by_cases ha : a = n
    case pos =>
      subst ha
      rw [treeLabels_self]
      exact List.cons_subset_cons a (List.subset_append_left _ _)
    case neg =>
      by_cases hn : n ∈ kids.labels
      case pos =>
        rw [treeLabels_kids ha hn]
        exact fun x hx => List.mem_cons_of_mem a (List.mem_append_left _ (hk hx))
      case neg =>
        rw [treeLabels_sibs ha hn]
        exact fun x hx => List.mem_cons_of_mem a (List.mem_append_right _ (hs hx))

omit [DecidableEq α] in
theorem nodup_node (h : (node a kids sibs).labels.Nodup) : a ∉ kids.labels ∧ a ∉ sibs.labels ∧
    kids.labels.Nodup ∧ sibs.labels.Nodup ∧ ∀ x ∈ kids.labels, x ∉ sibs.labels := by
  obtain ⟨ha, hn⟩ := List.nodup_cons.mp h
  obtain ⟨hk, hs, hd⟩ := List.nodup_append.mp hn
  obtain ⟨hak, has⟩ := not_or.mp (fun ho => ha (List.mem_append.mpr ho))
  exact ⟨hak, has, hk, hs, fun x hx hx' => hd x hx x hx' rfl⟩

theorem mem_treeLabels_node (hf : (node a kids sibs).labels.Nodup) :
    x ∈ (node a kids sibs).treeLabels n ↔
      n = a ∧ (x = a ∨ x ∈ kids.labels) ∨ x ∈ kids.treeLabels n ∨ x ∈ sibs.treeLabels n := by
  obtain ⟨hak, has, -, -, hd⟩ := nodup_node hf
  by_cases ha : a = n
  case pos =>
    subst ha
    simp [treeLabels_self, treeLabels_eq_nil hak, treeLabels_eq_nil has]
  case neg =>
    by_cases hn : n ∈ kids.labels
    case pos => simp [treeLabels_kids ha hn, treeLabels_eq_nil (hd n hn), Ne.symm ha]
    case neg => simp [treeLabels_sibs ha hn, treeLabels_eq_nil hn, Ne.symm ha]

-- The node of a tree is on the way up from each of its labels, and from no others.
theorem mem_lineage_iff (hf : f.labels.Nodup) :
    (∃ l ∈ f.lineage n, r ∈ l) ↔ n ∈ f.treeLabels r := by
  induction f
  case nil => simp [lineage, treeLabels, kids?]
  case node a kids sibs hk hs =>
    obtain ⟨hak, has, hkn, hsn, hd⟩ := nodup_node hf
    rw [mem_treeLabels_node hf, ← hk hkn, ← hs hsn, lineage]
    split
    case isTrue ha =>
      subst ha
      simp [lineage_eq_none hak, lineage_eq_none has, eq_comm]
    case isFalse ha =>
      by_cases hn : n ∈ kids.labels
      case pos =>
        obtain ⟨l, hl⟩ := exists_lineage hn
        simp only [hl, lineage_eq_none (hd n hn), Option.map_some, Option.some_or, Option.mem_def,
          Option.some.injEq, exists_eq_left', List.mem_append, List.mem_singleton]
        simp [Ne.symm ha, hn, or_comm]
      case neg => simp [lineage_eq_none hn, Ne.symm ha, hn]

end TreeLabels

section Remove

variable {kids sibs : Forest α}

theorem remove_of_not_mem (h : n ∉ f.labels) : f.remove n = f := by
  induction f
  case nil => rfl
  case node a kids sibs hk hs =>
    obtain ⟨ha, hn⟩ := not_or.mp fun ho => h (List.mem_cons.mpr ho)
    obtain ⟨hnk, hns⟩ := not_or.mp fun ho => hn (List.mem_append.mpr ho)
    rw [remove, if_neg (Ne.symm ha), hk hnk, hs hns]

theorem height_remove_le : (f.remove n).height ≤ f.height := by
  induction f
  case nil => exact Nat.le_refl _
  case node a kids sibs hk hs =>
    rw [remove]
    split
    · exact Nat.le_max_right _ _
    · simp only [height]
      omega

-- A walk leaves out what has been taken away.
theorem reached_remove {skips stops : α → Bool} {l : Option Nat} (hf : f.labels.Nodup) :
    (f.remove n).reached skips stops l =
      (f.reached skips stops l).filter (· ∉ f.treeLabels n) := by
  induction f generalizing l
  case nil => rfl
  case node a kids sibs hk hs =>
    obtain ⟨hak, has, hkn, hsn, hd⟩ := nodup_node hf
    have hmem {x} := mem_treeLabels_node (n := n) (x := x) hf
    by_cases hl : l = some 0
    case pos => subst hl; cases hr : (node a kids sibs).remove n <;> simp [reached]
    case neg =>
      rw [remove]
      split
      case isTrue ha =>
        subst ha
        have hall : ∀ x ∈ sibs.reached skips stops l, x ∉ (node a kids sibs).treeLabels a := by
          intro x hx hm
          have hxs := reached_subset_labels hx
          rw [treeLabels_self] at hm
          obtain rfl | hm := List.mem_cons.mp hm
          · exact has hxs
          · exact hd x hm hxs
        have hnone : ∀ x ∈ (if skips a then [] else a :: if stops a then [] else
            kids.reached skips stops (l.map (· - 1))), x ∈ (node a kids sibs).treeLabels a := by
          intro x hx
          rw [treeLabels_self]
          have hsub := @reached_subset_labels _ kids skips stops (l.map (· - 1)) x
          grind
        rw [reached, if_neg hl, List.filter_append, List.filter_eq_nil_iff.mpr fun x hx => ?_,
          List.nil_append]
        · exact (List.filter_eq_self.mpr fun x hx => by simpa using hall x hx).symm
        · simpa using hnone x hx
      case isFalse ha =>
        have ha' : a ∉ (node a kids sibs).treeLabels n := by
          rw [hmem]
          rintro (⟨he, -⟩ | h | h)
          · exact ha he.symm
          · exact hak (treeLabels_subset h)
          · exact has (treeLabels_subset h)
        have hkids : (kids.remove n).reached skips stops (l.map (· - 1)) =
            (kids.reached skips stops (l.map (· - 1))).filter
              (· ∉ (node a kids sibs).treeLabels n) := by
          rw [hk hkn]
          refine List.filter_congr fun x hx => ?_
          have hxs : x ∉ sibs.treeLabels n := fun h =>
            hd x (reached_subset_labels hx) (treeLabels_subset h)
          simp [hmem, Ne.symm ha, hxs]
        have hsibs : (sibs.remove n).reached skips stops l =
            (sibs.reached skips stops l).filter (· ∉ (node a kids sibs).treeLabels n) := by
          rw [hs hsn]
          refine List.filter_congr fun x hx => ?_
          have hxk : x ∉ kids.treeLabels n := fun h =>
            hd x (treeLabels_subset h) (reached_subset_labels hx)
          simp [hmem, Ne.symm ha, hxk]
        rw [reached, reached, if_neg hl, if_neg hl, List.filter_append, hsibs, hkids]
        congr 1
        split
        · rfl
        · split <;> simp [ha']

theorem labels_remove (hf : f.labels.Nodup) :
    (f.remove n).labels = f.labels.filter (· ∉ f.treeLabels n) := by
  rw [labels_eq_reached, labels_eq_reached]
  exact reached_remove hf

end Remove

-- A walk that comes to something below a node comes to it from that node too.
theorem reached_kids {skips stops : α → Bool} {l : Option Nat} {kids : Forest α} (hf : f.labels.Nodup)
    (hr : f.kids? r = some kids) (hx : x ∈ kids.labels) (h : x ∈ f.reached skips stops l) :
    stops r = false ∧ x ∈ kids.reached skips stops l := by
  induction f generalizing l
  case nil => simp [kids?] at hr
  case node a ka sa hk hs =>
    obtain ⟨hak, has, hkn, hsn, hd⟩ := nodup_node hf
    have hsub {y} : y ∈ sa.reached skips stops l → y ∈ sa.labels := fun hm => reached_subset_labels hm
    rw [reached] at h
    rw [kids?] at hr
    split at h
    case isTrue   => simp at h
    case isFalse =>
      split at hr
      case isTrue ha =>
        -- It is below the node that the row begins with.
        subst ha
        cases hr
        have hne : x ≠ a := fun he => hak (he ▸ hx)
        have hns : x ∉ sa.reached skips stops l := fun hm => hd x hx (hsub hm)
        have h' : stops a = false ∧ x ∈ kids.reached skips stops (l.map (· - 1)) := by
          grind
        exact ⟨h'.left, reached_pred_sublist.subset h'.right⟩
      case isFalse ha =>
        have htree {g : Forest α} (hg : g.kids? r = some kids) : x ∈ g.labels := by
          refine treeLabels_subset (n := r) ?_
          rw [treeLabels, hg]
          exact List.mem_cons_of_mem r hx
        cases hkr : ka.kids? r
        case some kr =>
          rw [hkr, Option.some_or] at hr
          cases hr
          have hxk := htree hkr
          have hne : x ≠ a := fun he => hak (he ▸ hxk)
          have hns : x ∉ sa.reached skips stops l := fun hm => hd x hxk (hsub hm)
          have h' : x ∈ ka.reached skips stops (l.map (· - 1)) := by
            grind
          obtain ⟨hst, hm⟩ := hk hkn hkr h'
          exact ⟨hst, reached_pred_sublist.subset hm⟩
        case none =>
          rw [hkr, Option.none_or] at hr
          have hxs := htree hr
          have hne : x ≠ a := fun he => has (he ▸ hxs)
          have hnk : x ∉ ka.reached skips stops (l.map (· - 1)) := fun hm =>
            hd x (reached_subset_labels hm) hxs
          exact hs hsn hr (by grind)

-- What a walk without a limit finds from there is found from the whole too, in the same order.
theorem reached_kids_sublist {skips stops : α → Bool} {kids : Forest α} (hf : f.labels.Nodup)
    (hr : f.kids? r = some kids) (hx : x ∈ kids.labels) (h : x ∈ f.reached skips stops none) :
    (r :: kids.reached skips stops none).Sublist (f.reached skips stops none) := by
  induction f
  case nil => simp [kids?] at hr
  case node a ka sa hk hs =>
    obtain ⟨hak, has, hkn, hsn, hd⟩ := nodup_node hf
    have hstep : (node a ka sa).reached skips stops none =
        (if skips a then [] else a :: if stops a then [] else ka.reached skips stops none) ++
          sa.reached skips stops none := by
      simp [reached]
    have hin : x ∈ (if skips a then [] else a :: if stops a then [] else ka.reached skips stops none) ∨
        x ∈ sa.reached skips stops none := by
      rwa [hstep, List.mem_append] at h
    rw [hstep]
    rw [kids?] at hr
    split at hr
    case isTrue ha =>
      subst ha
      cases hr
      have hne : x ≠ a := fun he => hak (he ▸ hx)
      have hns : x ∉ sa.reached skips stops none := fun hm => hd x hx (reached_subset_labels hm)
      have h' : skips a = false ∧ stops a = false := by
        grind
      simp [h']
    case isFalse ha =>
      have htree {g : Forest α} (hg : g.kids? r = some kids) : x ∈ g.labels := by
        refine treeLabels_subset (n := r) ?_
        rw [treeLabels, hg]
        exact List.mem_cons_of_mem r hx
      cases hkr : ka.kids? r
      case some kr =>
        rw [hkr, Option.some_or] at hr
        cases hr
        have hxk := htree hkr
        have hne : x ≠ a := fun he => hak (he ▸ hxk)
        have hns : x ∉ sa.reached skips stops none := fun hm => hd x hxk (reached_subset_labels hm)
        have h' : skips a = false ∧ stops a = false ∧ x ∈ ka.reached skips stops none := by
          grind
        have hsub := hk hkn hkr h'.right.right
        simpa [h'] using (hsub.cons a).trans (List.sublist_append_left _ (sa.reached skips stops none))
      case none =>
        rw [hkr, Option.none_or] at hr
        have hxs := htree hr
        have hne : x ≠ a := fun he => has (he ▸ hxs)
        have hnk : x ∉ ka.reached skips stops none := fun hm => hd x (reached_subset_labels hm) hxs
        have h' : x ∈ sa.reached skips stops none := by
          grind
        exact (hs hsn hr h').trans (List.sublist_append_right _ _)

theorem labels_kids?_sublist {kids : Forest α} (h : f.kids? r = some kids) :
    kids.labels.Sublist f.labels := by
  induction f
  case nil => simp [kids?] at h
  case node a ka sa hk hs =>
    rw [kids?] at h
    rw [labels]
    split at h
    case isTrue  =>
      cases h
      exact (List.sublist_append_left _ _).cons a
    case isFalse =>
      cases hkr : ka.kids? r
      case some kr =>
        rw [hkr, Option.some_or] at h
        exact ((hk (hkr.trans h)).trans (List.sublist_append_left _ _)).cons a
      case none    =>
        rw [hkr, Option.none_or] at h
        exact ((hs h).trans (List.sublist_append_right _ _)).cons a

theorem height_kids?_le {kids : Forest α} (h : f.kids? r = some kids) : kids.height ≤ f.height := by
  induction f
  case nil => simp [kids?] at h
  case node a ka sa hk hs =>
    rw [kids?] at h
    rw [height]
    split at h
    case isTrue  => cases h; omega
    case isFalse =>
      cases hkr : ka.kids? r
      case some kr =>
        rw [hkr, Option.some_or] at h
        have := hk (hkr.trans h)
        omega
      case none    =>
        rw [hkr, Option.none_or] at h
        have := hs h
        omega

section Suffix

variable {up u v : List α} {m : α}

theorem lineage_node_self {kids sibs : Forest α} : (node a kids sibs).lineage a = some [a] := by
  rw [lineage, if_pos rfl]

theorem lineage_node_kids {kids sibs : Forest α} (ha : a ≠ n) (h : kids.lineage n = some up) :
    (node a kids sibs).lineage n = some (up ++ [a]) := by
  rw [lineage, if_neg ha, h, Option.map_some, Option.some_or]

theorem lineage_node_sibs {kids sibs : Forest α} (ha : a ≠ n) (h : n ∉ kids.labels) :
    (node a kids sibs).lineage n = sibs.lineage n := by
  rw [lineage, if_neg ha, lineage_eq_none h, Option.map_none, Option.none_or]

theorem lineage_subset (h : f.lineage n = some up) : up ⊆ f.labels := by
  induction f generalizing up
  case nil => simp [lineage] at h
  case node a kids sibs hk hs =>
    by_cases ha : a = n
    case pos =>
      subst ha
      rw [lineage_node_self] at h
      cases h
      simp [labels]
    case neg =>
      cases hw : kids.lineage n
      case some w =>
        rw [lineage_node_kids ha hw] at h
        cases h
        have hsub := hk hw
        intro x hx
        rw [labels]
        grind
      case none =>
        have hn : n ∉ kids.labels := fun hm => by simp [← isSome_lineage, hw] at hm
        rw [lineage_node_sibs ha hn] at h
        exact fun x hx => List.mem_cons_of_mem a (List.mem_append_right _ (hs h hx))

-- The way up from a node above is a part of the way up.
theorem lineage_suffix (hf : f.labels.Nodup) (h : f.lineage n = some (u ++ m :: v)) :
    f.lineage m = some (m :: v) := by
  induction f generalizing u v
  case nil => simp [lineage] at h
  case node a kids sibs hk hs =>
    obtain ⟨hak, has, hkn, hsn, hd⟩ := nodup_node hf
    by_cases ha : a = n
    case pos =>
      subst ha
      rw [lineage_node_self, Option.some.injEq] at h
      obtain ⟨rfl, rfl, rfl⟩ : u = [] ∧ m = a ∧ v = [] := by
        cases u <;> simp_all
      exact lineage_node_self
    case neg =>
      cases hw : kids.lineage n
      case some w =>
        rw [lineage_node_kids ha hw, Option.some.injEq] at h
        obtain rfl | ⟨v, b, rfl⟩ := List.eq_nil_or_concat v
        case inl =>
          obtain ⟨-, rfl⟩ := List.append_singleton_inj.mp h
          exact lineage_node_self
        case inr =>
          rw [List.concat_eq_append, ← List.cons_append, ← List.append_assoc] at h
          obtain ⟨rfl, rfl⟩ := List.append_singleton_inj.mp h
          have hm := hk hkn hw
          have hne : a ≠ m := fun he => hak (he ▸ lineage_subset hm List.mem_cons_self)
          simpa using lineage_node_kids hne hm
      case none =>
        have hn : n ∉ kids.labels := fun hm => by simp [← isSome_lineage, hw] at hm
        rw [lineage_node_sibs ha hn] at h
        have hm := hs hsn h
        have hms := lineage_subset hm List.mem_cons_self
        have hne : a ≠ m := fun he => has (he ▸ hms)
        rw [lineage_node_sibs hne fun hmk => hd m hmk hms, hm]

end Suffix

section Order

variable {kids sibs : Forest α} {up : List α}

-- The row that a node stands in, by what is above it.
def row (f : Forest α) : List α → List α
  | []     => f.tops
  | p :: _ => ((f.kids? p).getD nil).tops

theorem exists_top (h : f.lineage n = some up) : ∃ u x, up = u ++ [x] ∧ x ∈ f.tops := by
  induction f generalizing up
  case nil => simp [lineage] at h
  case node a kids sibs hk hs =>
    rw [lineage] at h
    split at h
    case isTrue  => cases h; exact ⟨[], a, rfl, List.mem_cons_self⟩
    case isFalse =>
      cases hw : kids.lineage n
      case some w =>
        rw [hw] at h
        cases h
        exact ⟨w, a, rfl, List.mem_cons_self⟩
      case none   =>
        rw [hw] at h
        obtain ⟨u, x, rfl, hx⟩ := hs h
        exact ⟨u, x, rfl, List.mem_cons_of_mem a hx⟩

theorem nodup_row (hf : f.labels.Nodup) {c : List α} : (f.row c).Nodup := by
  cases c
  case nil      => exact hf.sublist tops_sublist
  case cons p c =>
    rw [row]
    cases hk : f.kids? p
    case none   => exact List.nodup_nil
    case some k => exact (hf.sublist (labels_kids?_sublist hk)).sublist tops_sublist

-- Either a node is above another one, or their ways up come together at two nodes of one row.
def Before (f : Forest α) (ua ub : List α) : Prop :=
  (∃ w, w ≠ [] ∧ ub = w ++ ua) ∨
    ∃ x y u v c, ua = u ++ x :: c ∧ ub = v ++ y :: c ∧ [x, y].Sublist (f.row c)

theorem row_kids {c : List α} (hf : (node a kids sibs).labels.Nodup) (hc : c ⊆ kids.labels) :
    (node a kids sibs).row (c ++ [a]) = kids.row c := by
  obtain ⟨hak, -⟩ := nodup_node hf
  cases c
  case nil      => simp [row, kids?]
  case cons p c =>
    have hp := hc List.mem_cons_self
    have hne : a ≠ p := fun he => hak (he ▸ hp)
    obtain ⟨k, hk⟩ := Option.isSome_iff_exists.mp (isSome_kids?.mpr hp)
    simp [row, kids?, hne, hk]

theorem row_sibs {c : List α} (hf : (node a kids sibs).labels.Nodup) (hc : c ⊆ sibs.labels) :
    (sibs.row c).Sublist ((node a kids sibs).row c) := by
  obtain ⟨-, has, -, -, hd⟩ := nodup_node hf
  cases c
  case nil      => exact List.sublist_cons_self a _
  case cons p c =>
    have hp := hc List.mem_cons_self
    have hne : a ≠ p := fun he => has (he ▸ hp)
    have hpk : p ∉ kids.labels := fun h => hd p h hp
    simp [row, kids?, hne, kids?_eq_none hpk]

omit [DecidableEq α] in
theorem pair_sublist_append {l₁ l₂ : List α} (h : [a, b].Sublist (l₁ ++ l₂)) :
    [a, b].Sublist l₁ ∨ (a ∈ l₁ ∧ b ∈ l₂) ∨ [a, b].Sublist l₂ := by
  obtain ⟨k₁, k₂, he, h₁, h₂⟩ := List.sublist_append_iff.mp h
  obtain ⟨rfl, rfl⟩ | ⟨k, rfl, hk⟩ := List.cons_eq_append_iff.mp he
  case inl => exact .inr (.inr h₂)
  case inr =>
    obtain ⟨rfl, rfl⟩ | ⟨k', rfl, hk'⟩ := List.cons_eq_append_iff.mp hk
    · exact .inr (.inl ⟨List.singleton_sublist.mp h₁, List.singleton_sublist.mp h₂⟩)
    · obtain rfl := (List.append_eq_nil_iff.mp hk'.symm).left
      exact .inl h₁

-- What comes first in document order is above, or in an earlier tree of the row.
theorem before_of_sublist (hf : f.labels.Nodup) (h : [a, b].Sublist f.labels) :
    ∃ ua ub, f.lineage a = some ua ∧ f.lineage b = some ub ∧ f.Before ua ub := by
  induction f
  case nil => simp [labels] at h
  case node r kids sibs hk hs =>
    obtain ⟨hrk, hrs, hkn, hsn, hd⟩ := nodup_node hf
    have hne {m} (hm : m ∈ kids.labels ∨ m ∈ sibs.labels) : r ≠ m := by
      rintro rfl
      exact hm.elim hrk hrs
    -- A node of the first tree, and one of a tree after it.
    have hfirst {u ub} (hb : b ∈ sibs.labels) (hub : sibs.lineage b = some ub) :
        (node r kids sibs).Before (u ++ [r]) ub := by
      obtain ⟨v, y, rfl, hy⟩ := exists_top hub
      refine .inr ⟨r, y, u, v, [], rfl, rfl, ?_⟩
      exact (List.singleton_sublist.mpr hy).cons_cons r
    rw [labels, List.cons_sublist_cons'] at h
    obtain h | ⟨rfl, h⟩ := h
    case inr =>
      obtain hb | hb := List.mem_append.mp (List.singleton_sublist.mp h)
      · obtain ⟨w, hw⟩ := exists_lineage hb
        refine ⟨[a], _, lineage_node_self, lineage_node_kids (hne (.inl hb)) hw, ?_⟩
        exact .inl ⟨b :: w, by simp, rfl⟩
      · obtain ⟨w, hw⟩ := exists_lineage hb
        have hbk : b ∉ kids.labels := fun hm => hd b hm hb
        refine ⟨[a], _, lineage_node_self, (lineage_node_sibs (hne (.inr hb)) hbk).trans hw, ?_⟩
        exact hfirst (u := []) hb hw
    case inl =>
      obtain h | ⟨ha, hb⟩ | h := pair_sublist_append h
      case inl =>
        obtain ⟨ua, ub, hua, hub, hB⟩ := hk hkn h
        have ha : a ∈ kids.labels := h.subset (by simp)
        have hb : b ∈ kids.labels := h.subset (by simp)
        refine ⟨_, _, lineage_node_kids (hne (.inl ha)) hua, lineage_node_kids (hne (.inl hb)) hub, ?_⟩
        obtain ⟨w, hw, rfl⟩ | ⟨x, y, u, v, c, rfl, rfl, hrow⟩ := hB
        · exact .inl ⟨w, hw, by simp⟩
        · refine .inr ⟨x, y, u, v, c ++ [r], by simp, by simp, ?_⟩
          rwa [row_kids hf]
          exact fun z hz => lineage_subset hua (by simp [hz])
      case inr.inl =>
        obtain ⟨u, hu⟩ := exists_lineage ha
        obtain ⟨v, hv⟩ := exists_lineage hb
        have hbk : b ∉ kids.labels := fun hm => hd b hm hb
        exact ⟨_, _, lineage_node_kids (hne (.inl ha)) hu,
          (lineage_node_sibs (hne (.inr hb)) hbk).trans hv, hfirst hb hv⟩
      case inr.inr =>
        obtain ⟨ua, ub, hua, hub, hB⟩ := hs hsn h
        have ha : a ∈ sibs.labels := h.subset (by simp)
        have hb : b ∈ sibs.labels := h.subset (by simp)
        refine ⟨ua, ub, (lineage_node_sibs (hne (.inr ha)) fun hm => hd a hm ha).trans hua,
          (lineage_node_sibs (hne (.inr hb)) fun hm => hd b hm hb).trans hub, ?_⟩
        refine hB.imp_right ?_
        rintro ⟨x, y, u, v, c, rfl, rfl, hrow⟩
        refine ⟨x, y, u, v, c, rfl, rfl, hrow.trans (row_sibs hf fun z hz => ?_)⟩
        exact lineage_subset hua (by simp [hz])

theorem length_lineage_le (h : f.lineage n = some up) : up.length ≤ f.height := by
  induction f generalizing up
  case nil => simp [lineage] at h
  case node a kids sibs hk hs =>
    rw [height]
    by_cases ha : a = n
    case pos =>
      subst ha
      rw [lineage_node_self] at h
      cases h
      rw [List.length_singleton]
      omega
    case neg =>
      cases hw : kids.lineage n
      case some w =>
        rw [lineage_node_kids ha hw] at h
        cases h
        have hl := hk hw
        rw [List.length_append, List.length_singleton]
        omega
      case none   =>
        have hn : n ∉ kids.labels := fun hm => by simp [← isSome_lineage, hw] at hm
        rw [lineage_node_sibs ha hn] at h
        have hl := hs h
        omega

end Order

section Insert

-- Some labels have come into a list at one place.
def Splice (new l l' : List α) : Prop :=
  ∃ l₁ l₂, l = l₁ ++ l₂ ∧ l' = l₁ ++ new ++ l₂

variable {skips stops : α → Bool} {l : Option Nat} {ref : Option α} {below kids sibs : Forest α}
  {xs ys new : List α} {p : α}

omit [DecidableEq α] in
theorem Splice.nil : Splice [] xs xs :=
  ⟨xs, [], by simp, by simp⟩

omit [DecidableEq α] in
theorem Splice.append_left (h : Splice new xs ys) (zs : List α) : Splice new (zs ++ xs) (zs ++ ys) := by
  obtain ⟨l₁, l₂, rfl, rfl⟩ := h
  exact ⟨zs ++ l₁, l₂, by simp, by simp⟩

omit [DecidableEq α] in
theorem Splice.append_right (h : Splice new xs ys) (zs : List α) : Splice new (xs ++ zs) (ys ++ zs) := by
  obtain ⟨l₁, l₂, rfl, rfl⟩ := h
  exact ⟨l₁, l₂ ++ zs, by simp, by simp⟩

omit [DecidableEq α] in
theorem Splice.cons (h : Splice new xs ys) : Splice new (a :: xs) (a :: ys) :=
  h.append_left [a]

omit [DecidableEq α] in
theorem Splice.perm (h : Splice new xs ys) : ys.Perm (new ++ xs) := by
  obtain ⟨l₁, l₂, rfl, rfl⟩ := h
  rw [List.append_assoc]
  exact List.perm_append_comm_assoc l₁ new l₂

omit [DecidableEq α] in
theorem Splice.mem_iff (h : Splice new xs ys) : x ∈ ys ↔ x ∈ new ∨ x ∈ xs := by
  rw [h.perm.mem_iff, List.mem_append]

omit [DecidableEq α] in
theorem Splice.nodup (h : Splice new xs ys) (hx : xs.Nodup) (hn : new.Nodup) (hd : ∀ x ∈ new, x ∉ xs) :
    ys.Nodup := by
  rw [h.perm.nodup_iff, List.nodup_append]
  exact ⟨hn, hx, fun x hx y hy he => hd x hx (he ▸ hy)⟩

theorem Splice.filter_not_mem (h : Splice new xs ys) (hd : ∀ x ∈ new, x ∉ xs) :
    ys.filter (· ∉ new) = xs := by
  obtain ⟨l₁, l₂, rfl, rfl⟩ := h
  have hl : ∀ x ∈ l₁ ++ l₂, x ∉ new := fun x hx hn => hd x hn hx
  have hn : new.filter (· ∉ new) = [] := List.filter_eq_nil_iff.mpr (by simp)
  rw [List.filter_append, List.filter_append, hn, List.append_nil, ← List.filter_append]
  exact List.filter_eq_self.mpr (by simpa using hl)

theorem reached_insertBefore : Splice ((node r below nil).reached skips stops l)
    (f.reached skips stops l) ((insertBefore ref r below f).reached skips stops l) := by
  induction f
  case nil => exact ⟨[], [], rfl, by simp [insertBefore]⟩
  case node a kids sibs hk hs =>
    rw [insertBefore]
    by_cases hl : l = some 0
    case pos =>
      simp only [reached, hl, if_pos]
      split <;> simp [reached, Splice.nil]
    case neg =>
      split
      case isTrue  => exact ⟨[], (node a kids sibs).reached skips stops l, rfl, by simp [reached, hl]⟩
      case isFalse =>
        have hs' := hs.append_left (if skips a then [] else a :: if stops a then [] else
          kids.reached skips stops (l.map (· - 1)))
        simpa only [reached, if_neg hl] using hs'

theorem onKids_of_not_mem {g : Forest α → Forest α} (h : p ∉ f.labels) : f.onKids p g = f := by
  induction f
  case nil => rfl
  case node a kids sibs hk hs =>
    obtain ⟨ha, hn⟩ := not_or.mp fun ho => h (List.mem_cons.mpr ho)
    obtain ⟨hnk, hns⟩ := not_or.mp fun ho => hn (List.mem_append.mpr ho)
    rw [onKids, if_neg (Ne.symm ha), hk hnk, hs hns]

-- What a walk finds of a tree that is put below a node: nothing if it does not go below the node.
theorem reached_onKids (hf : f.labels.Nodup) : ∃ new,
    Splice new (f.reached skips stops l)
      ((f.onKids p (insertBefore ref r below)).reached skips stops l) ∧
    new ⊆ (node r below nil).reached skips stops l ∧
    (p ∈ f.reached skips stops l ∧ stops p = false → l = none →
      new = (node r below nil).reached skips stops none) ∧
    (¬(p ∈ f.reached skips stops l ∧ stops p = false) → new = []) := by
  induction f generalizing l
  case nil => exact ⟨[], .nil, by simp, by simp [reached], by simp⟩
  case node a kids sibs hk hs =>
    obtain ⟨hak, has, hkn, hsn, hd⟩ := nodup_node hf
    rw [onKids]
    by_cases hl : l = some 0
    case pos =>
      refine ⟨[], ?_, by simp, by simp [hl, reached], by simp⟩
      split <;> simp [reached, hl, Splice.nil]
    case neg =>
      split
      case isTrue ha =>
        subst ha
        have hns : a ∉ sibs.reached skips stops l := fun hm => has (reached_subset_labels hm)
        have hins := @reached_insertBefore _ kids r _ skips stops (l.map (· - 1)) ref below
        have hsub := @reached_pred_sublist _ (node r below nil) skips stops l
        cases hsk : skips a
        case true  => exact ⟨[], by simp [reached, hl, hsk, Splice.nil], by simp, by simp [reached, hl, hsk, hns], by simp⟩
        case false =>
          cases hst : stops a
          case true  => exact ⟨[], by simp [reached, hl, hsk, hst, Splice.nil], by simp, by simp, by simp⟩
          case false =>
            refine ⟨_, ?_, hsub.subset, by rintro - rfl; rfl, by simp [reached, hl, hsk]⟩
            simpa [reached, hl, hsk, hst] using (hins.cons).append_right (sibs.reached skips stops l)
      case isFalse ha =>
        have hpa : p ≠ a := Ne.symm ha
        by_cases hp : p ∈ kids.labels
        case pos =>
          have hns : p ∉ sibs.reached skips stops l := fun hm => hd p hp (reached_subset_labels hm)
          rw [onKids_of_not_mem (hd p hp)]
          obtain ⟨new, hspl, hsub, hall, hnone⟩ := @hk (l.map (· - 1)) hkn
          cases hsk : skips a
          case true  => exact ⟨[], by simp [reached, hl, hsk, Splice.nil], by simp, by simp [reached, hl, hsk, hns], by simp⟩
          case false =>
            cases hst : stops a
            case true  =>
              exact ⟨[], by simp [reached, hl, hsk, hst, Splice.nil], by simp,
                by simp [reached, hl, hsk, hst, hns, hpa], by simp⟩
            case false =>
              have hin : p ∈ (node a kids sibs).reached skips stops l ↔
                  p ∈ kids.reached skips stops (l.map (· - 1)) := by
                simp [reached, hl, hsk, hst, hns, hpa]
              rw [hin]
              refine ⟨new, ?_, List.Subset.trans hsub reached_pred_sublist.subset, ?_, hnone⟩
              · simpa [reached, hl, hsk, hst] using hspl.cons.append_right (sibs.reached skips stops l)
              · rintro he rfl
                exact hall he rfl
        case neg =>
          have hnk : p ∉ kids.reached skips stops (l.map (· - 1)) := fun hm => hp (reached_subset_labels hm)
          rw [onKids_of_not_mem hp]
          obtain ⟨new, hspl, hsub, hall, hnone⟩ := @hs l hsn
          have hin : p ∈ (node a kids sibs).reached skips stops l ↔ p ∈ sibs.reached skips stops l := by
            rw [reached, if_neg hl, List.mem_append]
            grind
          rw [hin]
          refine ⟨new, ?_, hsub, hall, hnone⟩
          have hspl' := hspl.append_left (if skips a then [] else a :: if stops a then [] else
            kids.reached skips stops (l.map (· - 1)))
          simpa only [reached, if_neg hl] using hspl'

theorem height_insertBefore : (node r below nil).height ≤ (insertBefore ref r below f).height := by
  induction f
  case nil => exact Nat.le_refl _
  case node a kids sibs hk hs =>
    rw [insertBefore]
    split <;> simp only [height] at hs ⊢ <;> omega

theorem height_onKids (hp : p ∈ f.labels) :
    (node r below nil).height ≤ (f.onKids p (insertBefore ref r below)).height := by
  induction f
  case nil => exact absurd hp List.not_mem_nil
  case node a kids sibs hk hs =>
    rw [onKids]
    split
    case isTrue     =>
      have hi := @height_insertBefore _ kids r _ ref below
      simp only [height] at hi ⊢
      omega
    case isFalse ha =>
      have hm := List.mem_append.mp ((List.mem_cons.mp hp).resolve_left (Ne.symm ha))
      have hh := hm.imp hk hs
      simp only [height] at hh ⊢
      omega

theorem labels_onKids (hf : f.labels.Nodup) (hp : p ∈ f.labels) :
    Splice (r :: below.labels) f.labels (f.onKids p (insertBefore ref r below)).labels := by
  obtain ⟨new, hspl, -, hall, -⟩ :=
    @reached_onKids _ f r _ (fun _ => false) (fun _ => false) none ref below p hf
  have hnew := hall ⟨labels_eq_reached ▸ hp, rfl⟩ rfl
  rw [← labels_eq_reached] at hnew
  rw [← labels_eq_reached, ← labels_eq_reached, hnew] at hspl
  simpa [labels] using hspl

end Insert

-- A walk comes to a node by nodes that it does not leave out.
theorem not_skips_of_mem_lineage {skips stops : α → Bool} {l : Option Nat} {up : List α}
    (hf : f.labels.Nodup) (h : n ∈ f.reached skips stops l) (hu : f.lineage n = some up) (hx : x ∈ up) :
    skips x = false := by
  induction f generalizing l up
  case nil => simp [reached] at h
  case node a kids sibs hk hs =>
    obtain ⟨hak, has, hkn, hsn, hd⟩ := nodup_node hf
    rw [reached] at h
    rw [lineage] at hu
    split at h
    case isTrue   => simp at h
    case isFalse =>
      split at hu
      case isTrue ha =>
        subst ha
        cases hu
        obtain rfl := List.mem_singleton.mp hx
        have hns : x ∉ sibs.reached skips stops l := fun hm => has (reached_subset_labels hm)
        grind
      case isFalse ha =>
        by_cases hn : n ∈ kids.labels
        case pos =>
          obtain ⟨w, hw⟩ := exists_lineage hn
          rw [hw, Option.map_some, Option.some_or] at hu
          cases hu
          have hns : n ∉ sibs.reached skips stops l := fun hm => hd n hn (reached_subset_labels hm)
          have hm : skips a = false ∧ n ∈ kids.reached skips stops (l.map (· - 1)) := by
            grind
          obtain hx | hx := List.mem_append.mp hx
          · exact hk hkn hm.right hw hx
          · rw [List.mem_singleton.mp hx, hm.left]
        case neg =>
          rw [lineage_eq_none hn, Option.map_none, Option.none_or] at hu
          have hnk : n ∉ kids.reached skips stops (l.map (· - 1)) := fun hm => hn (reached_subset_labels hm)
          have hns : n ∈ sibs.reached skips stops l := by
            grind
          exact hs hsn hns hu hx

section Parent

variable {k k' : Forest α} {n' o : α}

theorem lineage_of_mem_tops (hf : f.labels.Nodup) (h : o ∈ f.tops) : f.lineage o = some [o] := by
  induction f
  case nil => cases h
  case node a kids sibs _ hs =>
    obtain ⟨hak, has, -, hsn, hd⟩ := nodup_node hf
    rcases List.mem_cons.mp h with rfl | ho
    case inl => exact lineage_node_self
    case inr =>
      have hm := tops_sublist.subset ho
      rw [lineage_node_sibs (ne_of_mem_of_not_mem hm has).symm fun hk => hd o hk hm]
      exact hs hsn ho

-- The way up from a child begins with its parent.
theorem lineage_of_mem_kids (hf : f.labels.Nodup) (h : f.kids? n = some k) (ho : o ∈ k.tops) :
    ∃ up, f.lineage o = some (o :: n :: up) := by
  induction f
  case nil => cases h
  case node a kids sibs hk hs =>
    obtain ⟨hak, has, hkn, hsn, hd⟩ := nodup_node hf
    rw [kids?] at h
    split at h
    case isTrue he =>
      obtain rfl := Option.some.inj h
      subst he
      have hne := ne_of_mem_of_not_mem (tops_sublist.subset ho) hak
      exact ⟨[], lineage_node_kids hne.symm (lineage_of_mem_tops hkn ho)⟩
    case isFalse =>
      cases hkk : kids.kids? n
      case some k' =>
        rw [hkk, Option.some_or] at h
        obtain rfl := Option.some.inj h
        obtain ⟨up, hup⟩ := hk hkn hkk
        have hm := (labels_kids?_sublist hkk).subset (tops_sublist.subset ho)
        exact ⟨up ++ [a], lineage_node_kids (ne_of_mem_of_not_mem hm hak).symm hup⟩
      case none =>
        rw [hkk, Option.none_or] at h
        obtain ⟨up, hup⟩ := hs hsn h
        have hm := (labels_kids?_sublist h).subset (tops_sublist.subset ho)
        exact ⟨up, (lineage_node_sibs (ne_of_mem_of_not_mem hm has).symm fun hk => hd o hk hm).trans hup⟩

theorem parent_unique (hf : f.labels.Nodup) (h : f.kids? n = some k) (ho : o ∈ k.tops)
    (h' : f.kids? n' = some k') (ho' : o ∈ k'.tops) : n = n' := by
  obtain ⟨up, hup⟩ := lineage_of_mem_kids hf h ho
  obtain ⟨up', hup'⟩ := lineage_of_mem_kids hf h' ho'
  have he := Option.some.inj (hup.symm.trans hup')
  exact (List.cons.inj (List.cons.inj he).right).left

theorem notMem_kids (hf : f.labels.Nodup) (h : f.kids? n = some k) : n ∉ k.labels := by
  induction f
  case nil => cases h
  case node a kids sibs hk hs =>
    obtain ⟨hak, -, hkn, hsn, -⟩ := nodup_node hf
    rw [kids?] at h
    split at h
    case isTrue he =>
      obtain rfl := Option.some.inj h
      exact he ▸ hak
    case isFalse =>
      cases hkk : kids.kids? n
      case some =>
        rw [hkk, Option.some_or] at h
        exact hk hkn (hkk.trans h)
      case none =>
        rw [hkk, Option.none_or] at h
        exact hs hsn h

theorem kids?_node_kids (ha : a ≠ n) (h : k.kids? n = some k') : (node a k f).kids? n = some k' := by
  rw [kids?, if_neg ha, h, Option.some_or]

theorem kids?_node_sibs (ha : a ≠ n) (hk : n ∉ k.labels) : (node a k f).kids? n = f.kids? n := by
  rw [kids?, if_neg ha, kids?_eq_none hk, Option.none_or]

theorem mem_labels_of_kids? (h : f.kids? n = some k) : n ∈ f.labels :=
  isSome_kids?.mp (h ▸ rfl)

-- What is below a node below another one.
theorem kids?_kids? (hf : f.labels.Nodup) (h : f.kids? n = some k) (h' : k.kids? n' = some k') :
    f.kids? n' = some k' := by
  induction f
  case nil => cases h
  case node a kids sibs hk hs =>
    obtain ⟨hak, has, hkn, hsn, hd⟩ := nodup_node hf
    rw [kids?] at h
    split at h
    case isTrue =>
      obtain rfl := Option.some.inj h
      exact kids?_node_kids (ne_of_mem_of_not_mem (mem_labels_of_kids? h') hak).symm h'
    case isFalse =>
      cases hkk : kids.kids? n
      case some k'' =>
        rw [hkk, Option.some_or] at h
        obtain rfl := Option.some.inj h
        have hr := hk hkn hkk
        exact kids?_node_kids (ne_of_mem_of_not_mem (mem_labels_of_kids? hr) hak).symm hr
      case none =>
        rw [hkk, Option.none_or] at h
        have hr := hs hsn h
        have hm := mem_labels_of_kids? hr
        rw [kids?_node_sibs (ne_of_mem_of_not_mem hm has).symm fun hk => hd n' hk hm]
        exact hr

end Parent

end DecEq

end Nordstjernen.Lib.Forest
