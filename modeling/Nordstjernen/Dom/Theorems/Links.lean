import Nordstjernen.Dom.Links

open Function (update)
open Nordstjernen.Lib

namespace Nordstjernen.Dom.Heap

variable {h h' : Heap} {kids : Node → List Node} {c d n p : Node} {xs ys : List Node}

theorem linked_empty : empty.Linked fun _ => [] where
  nodup    := List.nodup_nil
  row      := fun _ hn => absurd hn List.not_mem_nil
  first    := fun _ hn => absurd hn List.not_mem_nil
  last     := fun _ hn => absurd hn List.not_mem_nil
  mem_kids := fun _ hn => absurd hn List.not_mem_nil
  parent   := fun _ hn => absurd hn List.not_mem_nil
  alone    := fun _ hn => absurd hn List.not_mem_nil

namespace Linked

variable (hl : h.Linked kids)

include hl

theorem mem_of_parent (hc : c ∈ h.live) (hp : h.parent c = some p) : c ∈ kids p :=
  (hl.mem_kids p (hl.parent c hc p hp) c).mpr ⟨hc, hp⟩

theorem parent_of_mem (hn : n ∈ h.live) (hc : c ∈ kids n) : h.parent c = some n :=
  ((hl.mem_kids n hn c).mp hc).right

theorem live_of_mem (hn : n ∈ h.live) (hc : c ∈ kids n) : c ∈ h.live :=
  ((hl.mem_kids n hn c).mp hc).left

theorem newNode (hn : n ∉ h.live) : (h.newNode n).Linked (update kids n []) := by
  have hne {m : Node} (hm : m ∈ h.live) : m ≠ n := ne_of_mem_of_not_mem hm hn
  have hself : (h.newNode n).parent n = none := Function.update_self ..
  have hold {m : Node} (hm : m ∈ h.live) : (h.newNode n).parent m = h.parent m := Function.update_of_ne (hne hm) ..
  constructor
  case nodup => exact List.nodup_cons.mpr ⟨hn, hl.nodup⟩
  case row =>
    intro m hm
    rcases List.mem_cons.mp hm with rfl | hm
    · rw [Function.update_self]
      exact ⟨List.nodup_nil, .nil⟩
    · rw [Function.update_of_ne (hne hm)]
      obtain ⟨hd, hr⟩ := hl.row m hm
      have hc (c : Node) (hc : c ∈ kids m) : c ≠ n := hne (hl.live_of_mem hm hc)
      exact ⟨hd, hr.congr (fun c h => Function.update_of_ne (hc c h) ..)
        fun c h => Function.update_of_ne (hc c h) ..⟩
  case first =>
    intro m hm
    rcases List.mem_cons.mp hm with rfl | hm
    · simp [Heap.newNode]
    · simp [Heap.newNode, hne hm, hl.first m hm]
  case last =>
    intro m hm
    rcases List.mem_cons.mp hm with rfl | hm
    · simp [Heap.newNode]
    · simp [Heap.newNode, hne hm, hl.last m hm]
  case mem_kids =>
    intro m hm c
    rcases List.mem_cons.mp hm with rfl | hm
    · rw [Function.update_self]
      refine iff_of_false List.not_mem_nil fun ⟨hc, hp⟩ => ?_
      rcases List.mem_cons.mp hc with rfl | hc
      · rw [hself] at hp
        cases hp
      · rw [hold hc] at hp
        exact hn (hl.parent c hc _ hp)
    · rw [Function.update_of_ne (hne hm), hl.mem_kids m hm]
      by_cases hc : c = n
      case pos => simp [Heap.newNode, hc, hn]
      case neg => simp [Heap.newNode, hc]
  case parent =>
    intro m hm p hp
    rcases List.mem_cons.mp hm with rfl | hm
    · rw [hself] at hp
      cases hp
    · rw [hold hm] at hp
      exact List.mem_cons_of_mem n (hl.parent m hm p hp)
  case alone =>
    intro m hm hp
    rcases List.mem_cons.mp hm with rfl | hm
    · simp [Heap.newNode]
    · rw [hold hm] at hp
      simpa [Heap.newNode, hne hm] using hl.alone m hm hp

omit hl in
-- What a detachment writes.
theorem detach_eq (hp : h.parent c = some p) (hprev : h.prev c = xs.getLast?) (hnext : h.next c = ys.head?)
    (hx : c ∉ xs) : h.detach c =
      { h with
        parent := update h.parent c none
        first  := if xs = [] then update h.first p ys.head? else h.first
        last   := if ys = [] then update h.last p xs.getLast? else h.last
        prev   := update (redirect h.prev ys.head? xs.getLast?) c none
        next   := update (redirect h.next xs.getLast? ys.head?) c none } := by
  rw [detach, hp]
  rcases List.eq_nil_or_concat' xs with rfl | ⟨xs, x, rfl⟩
  case inl =>
    cases ys
    case nil  => simp [hprev, hnext, redirect]
    case cons => simp [hprev, hnext, redirect]
  case inr =>
    have hxc : c ≠ x := fun he => hx (he ▸ List.mem_concat_self)
    cases ys
    case nil  => simp [hprev, hnext, redirect, hxc]
    case cons => simp [hprev, hnext, redirect, hxc]

theorem eq_of_mem {m : Node} (hn : n ∈ h.live) (hm : m ∈ h.live) (hcn : c ∈ kids n) (hcm : c ∈ kids m) : n = m :=
  Option.some.inj ((hl.parent_of_mem hn hcn).symm.trans (hl.parent_of_mem hm hcm))

-- The list of one node is changed, which a node joins or leaves.
theorem relist {zs : List Node} {q : Option Node} (hp : p ∈ h.live) (hc : c ∈ h.live)
    (hold : ∀ m, h.parent c = some m → m = p) (hq : ∀ m, q = some m → m = p)
    (hlive : h'.live = h.live) (hparent : h'.parent = update h.parent c q)
    (hframe : ∀ m, m ≠ p → h'.first m = h.first m ∧ h'.last m = h.last m)
    (hsib : ∀ d, h.parent d ≠ some p → d ≠ c → h'.prev d = h.prev d ∧ h'.next d = h.next d)
    (hrow : zs.Nodup ∧ DoubleLinked h'.prev h'.next zs)
    (hends : h'.first p = zs.head? ∧ h'.last p = zs.getLast?)
    (hmem : ∀ d, d ∈ zs ↔ d ∈ h.live ∧ h'.parent d = some p)
    (halone : q = none → h'.prev c = none ∧ h'.next c = none) : h'.Linked (update kids p zs) := by
  have hself : h'.parent c = q := by rw [hparent, Function.update_self]
  have hne {d : Node} (hd : d ≠ c) : h'.parent d = h.parent d := by rw [hparent, Function.update_of_ne hd]
  have hother {m d : Node} (hm : m ∈ h.live) (hmp : m ≠ p) (hd : d ∈ kids m) : h.parent d ≠ some p ∧ d ≠ c := by
    have hdm := hl.parent_of_mem hm hd
    refine ⟨fun he => hmp (Option.some.inj (hdm.symm.trans he)), ?_⟩
    rintro rfl
    exact hmp (hold m hdm)
  constructor
  case nodup => exact hlive ▸ hl.nodup
  case row =>
    intro m hm
    rw [hlive] at hm
    by_cases hmp : m = p
    case pos =>
      rw [hmp, Function.update_self]
      exact hrow
    case neg =>
      rw [Function.update_of_ne hmp]
      obtain ⟨hd, hr⟩ := hl.row m hm
      have hf (d : Node) (hd : d ∈ kids m) := hsib d (hother hm hmp hd).left (hother hm hmp hd).right
      exact ⟨hd, hr.congr (fun d h => (hf d h).left) fun d h => (hf d h).right⟩
  case first =>
    intro m hm
    rw [hlive] at hm
    by_cases hmp : m = p
    case pos => rw [hmp, Function.update_self, hends.left]
    case neg => rw [Function.update_of_ne hmp, (hframe m hmp).left, hl.first m hm]
  case last =>
    intro m hm
    rw [hlive] at hm
    by_cases hmp : m = p
    case pos => rw [hmp, Function.update_self, hends.right]
    case neg => rw [Function.update_of_ne hmp, (hframe m hmp).right, hl.last m hm]
  case mem_kids =>
    intro m hm d
    rw [hlive] at hm ⊢
    by_cases hmp : m = p
    case pos => rw [hmp, Function.update_self, hmem]
    case neg =>
      rw [Function.update_of_ne hmp, hl.mem_kids m hm]
      by_cases hdc : d = c
      case neg => rw [hne hdc]
      case pos =>
        rw [hdc, hself]
        exact iff_of_false (fun he => hmp (hold m he.right)) fun he => hmp (hq m he.right)
  case parent =>
    intro d hd m hm
    rw [hlive] at hd ⊢
    by_cases hdc : d = c
    case pos =>
      rw [hdc, hself] at hm
      exact hq m hm ▸ hp
    case neg =>
      rw [hne hdc] at hm
      exact hl.parent d hd m hm
  case alone =>
    intro d hd hm
    rw [hlive] at hd
    by_cases hdc : d = c
    case pos =>
      rw [hdc, hself] at hm
      rw [hdc]
      exact halone hm
    case neg =>
      rw [hne hdc] at hm
      obtain ⟨hpd, hnd⟩ := hsib d (fun he => by rw [hm] at he; cases he) hdc
      rw [hpd, hnd]
      exact hl.alone d hd hm

theorem detach (hc : c ∈ h.live) (hp : h.parent c = some p) (hk : kids p = xs ++ c :: ys) :
    (h.detach c).Linked (update kids p (xs ++ ys)) := by
  have hpl : p ∈ h.live := hl.parent c hc p hp
  obtain ⟨hnd, hrow⟩ := hl.row p hpl
  have hfirst := hl.first p hpl
  have hlast := hl.last p hpl
  have hmem := hl.mem_kids p hpl
  rw [hk] at hnd hrow hfirst hlast
  obtain ⟨hprev, hnext⟩ := hrow xs c ys rfl
  have hcx : c ∉ xs ++ ys := (List.nodup_cons.mp (List.nodup_middle.mp hnd)).left
  have hxy : (xs ++ ys).Nodup := (List.nodup_cons.mp (List.nodup_middle.mp hnd)).right
  have hchild {d : Node} (hd : d ∈ xs ++ ys) : h.parent d = some p := by
    refine hl.parent_of_mem hpl ?_
    rw [hk]
    exact ((List.sublist_cons_self c ys).append_left xs).subset hd
  rw [detach_eq hp hprev hnext fun h => hcx (List.mem_append_left _ h)]
  refine hl.relist hpl hc (q := none) (fun m hm => Option.some.inj (hm.symm.trans hp)) (fun m hm => by cases hm)
    rfl rfl ?_ ?_ ⟨hxy, ?_⟩ ⟨?_, ?_⟩ ?_ ?_
  · intro m hm
    constructor
    · show (if xs = [] then update h.first p ys.head? else h.first) m = h.first m
      split
      case isTrue  => exact Function.update_of_ne hm ..
      case isFalse => rfl
    · show (if ys = [] then update h.last p xs.getLast? else h.last) m = h.last m
      split
      case isTrue  => exact Function.update_of_ne hm ..
      case isFalse => rfl
  · intro d hd hdc
    have hy : ys.head? ≠ some d := fun he => hd (hchild (List.mem_append_right _ (List.mem_of_mem_head? he)))
    have hx : xs.getLast? ≠ some d := fun he => hd (hchild (List.mem_append_left _ (List.mem_of_getLast? he)))
    exact ⟨(Function.update_of_ne hdc ..).trans (redirect_of_ne hy),
      (Function.update_of_ne hdc ..).trans (redirect_of_ne hx)⟩
  · exact (hrow.unlink hnd).congr (fun d hd => Function.update_of_ne (ne_of_mem_of_not_mem hd hcx) ..)
      fun d hd => Function.update_of_ne (ne_of_mem_of_not_mem hd hcx) ..
  · cases xs
    case nil  => simp
    case cons => simpa using hfirst
  · cases ys
    case nil  => simp
    case cons => simpa using hlast
  · intro d
    show d ∈ xs ++ ys ↔ d ∈ h.live ∧ update h.parent c none d = some p
    by_cases hdc : d = c
    case pos => simpa [hdc] using hcx
    case neg =>
      rw [Function.update_of_ne hdc, ← hmem, hk]
      simp [hdc]
  · intro _
    exact ⟨Function.update_self .., Function.update_self ..⟩

theorem exists_detach (hc : c ∈ h.live) :
    (∃ kids', (h.detach c).Linked kids') ∧ (h.detach c).live = h.live ∧ (h.detach c).content = h.content ∧
      (h.detach c).parent = update h.parent c none := by
  cases hp : h.parent c
  case none =>
    have he : h.detach c = h := by rw [Heap.detach, hp]
    rw [he, ← hp, Function.update_eq_self]
    exact ⟨⟨kids, hl⟩, rfl, rfl, rfl⟩
  case some p =>
    have hm := hl.mem_of_parent hc hp
    obtain ⟨xs, ys, hk⟩ := List.append_of_mem hm
    have hpl := hl.parent c hc p hp
    obtain ⟨hnd, hrow⟩ := hl.row p hpl
    rw [hk] at hnd hrow
    obtain ⟨hprev, hnext⟩ := hrow xs c ys rfl
    have hcx : c ∉ xs ++ ys := (List.nodup_cons.mp (List.nodup_middle.mp hnd)).left
    have he := detach_eq hp hprev hnext fun h => hcx (List.mem_append_left _ h)
    exact ⟨⟨_, hl.detach hc hp hk⟩, by rw [he], by rw [he], by rw [he]⟩

-- A node without parent becomes the last child.
theorem push (hp : p ∈ h.live) (hc : c ∈ h.live) (hn : h.parent c = none)
    (hlive : h'.live = h.live) (hparent : h'.parent = update h.parent c (some p))
    (hprev : h'.prev = update h.prev c (h.last p)) (hnext : h'.next = redirect h.next (h.last p) (some c))
    (hfirst : h'.first = if h.last p = none then update h.first p (some c) else h.first)
    (hlast : h'.last = update h.last p (some c)) : h'.Linked (update kids p (kids p ++ [c])) := by
  obtain ⟨hnd, hrow⟩ := hl.row p hp
  have hcx : c ∉ kids p := by
    intro hm
    have he := hl.parent_of_mem hp hm
    rw [hn] at he
    cases he
  have hlp := hl.last p hp
  have hnd' : (kids p ++ [c]).Nodup := List.nodup_append.mpr
    ⟨hnd, List.nodup_singleton c, fun x hx y hy => List.mem_singleton.mp hy ▸ ne_of_mem_of_not_mem hx hcx⟩
  refine hl.relist hp hc (q := some p) (fun m hm => ?_) (fun m hm => (Option.some.inj hm).symm)
    hlive hparent ?_ ?_ ⟨hnd', ?_⟩ ⟨?_, ?_⟩ ?_ ?_
  · rw [hn] at hm
    cases hm
  · intro m hm
    rw [hfirst, hlast, Function.update_of_ne hm]
    refine ⟨?_, rfl⟩
    split
    case isTrue  => exact Function.update_of_ne hm ..
    case isFalse => rfl
  · intro d hd hdc
    rw [hprev, hnext, Function.update_of_ne hdc]
    refine ⟨rfl, redirect_of_ne fun he => hd (hl.parent_of_mem hp ?_)⟩
    rw [hlp] at he
    exact List.mem_of_getLast? he
  · rw [hnext, hlp]
    refine DoubleLinked.push ?_ hnd' ?_ (hl.alone c hc hn).right
    · exact hrow.congr (fun d hd => by rw [hprev, Function.update_of_ne (ne_of_mem_of_not_mem hd hcx)])
        fun _ _ => rfl
    · rw [hprev, Function.update_self, hlp]
  · rw [hfirst, hlp]
    cases hk : kids p
    case nil        => simp
    case cons x xs => simp [hl.first p hp, hk]
  · rw [hlast, Function.update_self, List.getLast?_concat]
  · intro d
    rw [hparent, List.mem_append, List.mem_singleton, hl.mem_kids p hp]
    by_cases hdc : d = c
    case pos => simp [hdc, hc]
    case neg => simp [hdc]
  · intro he
    cases he

theorem exists_append (hp : p ∈ h.live) (hc : c ∈ h.live) :
    (∃ kids', (h.appendChild p c).Linked kids') ∧ (h.appendChild p c).live = h.live ∧
      (h.appendChild p c).content = h.content ∧ (h.appendChild p c).parent = update h.parent c (some p) := by
  obtain ⟨⟨kids', hl'⟩, hlive, hcontent, hparent⟩ := hl.exists_detach hc
  rw [Heap.appendChild]
  generalize h.detach c = h₁ at hl' hlive hcontent hparent
  rw [← hlive] at hp hc
  have hn : h₁.parent c = none := by rw [hparent, Function.update_self]
  rw [← hlive, ← hcontent]
  have hup : update h.parent c (some p) = update h₁.parent c (some p) := by rw [hparent, Function.update_idem]
  rw [hup]
  cases hlp : h₁.last p
  case none =>
    refine ⟨⟨_, hl'.push hp hc hn ?_ ?_ ?_ ?_ ?_ ?_⟩, ?_⟩ <;> simp [hlp, redirect]
  case some l =>
    refine ⟨⟨_, hl'.push hp hc hn ?_ ?_ ?_ ?_ ?_ ?_⟩, ?_⟩ <;> simp [hlp, redirect]

end Linked

end Nordstjernen.Dom.Heap
