import Nordstjernen.Dom.Theorems.Links

open Function (update)
open Nordstjernen.Lib

namespace Nordstjernen.Dom.Heap

variable {h h' h'' h₀ : Heap} {kids : Node → List Node} {S T : Node → Prop} {c f m n : Node}
  {cs todo todo' stack stack' stack'' freed freed' : List Node} {k k' : Nat}

-- Whether a node is as it was.
structure SameAt (h h' : Heap) (n : Node) : Prop where
  parent  : h'.parent n = h.parent n
  first   : h'.first n = h.first n
  last    : h'.last n = h.last n
  prev    : h'.prev n = h.prev n
  next    : h'.next n = h.next n
  content : h'.content n = h.content n

theorem SameAt.trans (h₁ : SameAt h h' n) (h₂ : SameAt h' h'' n) : SameAt h h'' n where
  parent  := h₂.parent.trans h₁.parent
  first   := h₂.first.trans h₁.first
  last    := h₂.last.trans h₁.last
  prev    := h₂.prev.trans h₁.prev
  next    := h₂.next.trans h₁.next
  content := h₂.content.trans h₁.content

-- Some nodes are freed, and the others are as they were.
structure Leaves (S : Node → Prop) (h h' : Heap) : Prop where
  nodup : h'.live.Nodup
  live  : ∀ n, n ∈ h'.live ↔ n ∈ h.live ∧ ¬S n
  same  : ∀ n, ¬S n → SameAt h h' n

theorem Leaves.trans (h₁ : Leaves S h h') (h₂ : Leaves T h' h'') : Leaves (fun n => S n ∨ T n) h h'' where
  nodup := h₂.nodup
  live  := fun n => by rw [h₂.live, h₁.live, and_assoc, not_or]
  same  := fun n hn => (h₁.same n fun hs => hn (.inl hs)).trans (h₂.same n fun ht => hn (.inr ht))

-- The nodes of a set that have not been touched, of a heap with these children.
structure Whole (h₀ : Heap) (kids : Node → List Node) (S : Node → Prop) (h : Heap) : Prop where
  old     : ∀ n, S n → n ∈ h₀.live
  live    : ∀ n, S n → n ∈ h.live
  content : ∀ n, S n → h.content n = h₀.content n
  first   : ∀ n, S n → h.first n = (kids n).head?
  next    : ∀ n, S n → ∀ us c vs, kids n = us ++ c :: vs → h.next c = vs.head?

-- The nodes of a set, once each, and none before what it owns.
structure Ordered (h₀ : Heap) (S : Node → Prop) (freed : List Node) : Prop where
  nodup : freed.Nodup
  mem   : ∀ n, n ∈ freed ↔ S n
  order : ∀ n m, n ∈ freed → h₀.Owns n m → [m, n].Sublist freed

theorem Ordered.append (hs : Ordered h₀ S freed) (ht : Ordered h₀ T freed') (hd : ∀ n, S n → ¬T n) :
    Ordered h₀ (fun n => S n ∨ T n) (freed ++ freed') where
  nodup := List.nodup_append.mpr ⟨hs.nodup, ht.nodup, fun a ha b hb he =>
    hd a ((hs.mem a).mp ha) ((ht.mem a).mp (he ▸ hb))⟩
  mem n := by rw [List.mem_append, hs.mem, ht.mem]
  order n m hn ho := by
    rcases List.mem_append.mp hn with hn | hn
    · exact (hs.order n m hn ho).trans (List.sublist_append_left _ _)
    · exact (ht.order n m hn ho).trans (List.sublist_append_right _ _)

theorem Ordered.concat (hs : Ordered h₀ S freed) (hn : ¬S n) (ho : ∀ m, h₀.Owns n m → S m) :
    Ordered h₀ (fun m => S m ∨ m = n) (freed ++ [n]) where
  nodup := List.nodup_append.mpr ⟨hs.nodup, List.nodup_singleton n, fun a ha b hb he =>
    hn ((hs.mem n).mp (List.mem_singleton.mp hb ▸ he ▸ ha))⟩
  mem m := by rw [List.mem_append, List.mem_singleton, hs.mem]
  order m d hm hd := by
    rcases List.mem_append.mp hm with hm | hm
    · exact (hs.order m d hm hd).trans (List.sublist_append_left _ _)
    · obtain rfl := List.mem_singleton.mp hm
      exact (List.singleton_sublist.mpr ((hs.mem d).mpr (ho d hd))).append (List.Sublist.refl [m])

-- So many turns of the loop lead from one heap and stack to others, and free these nodes.
def Runs (k : Nat) (h : Heap) (stack : List Node) (h' : Heap) (stack' freed : List Node) : Prop :=
  ∀ fuel before, freeLoop (fuel + k) h stack before = freeLoop fuel h' stack' (before ++ freed)

theorem Runs.refl (h : Heap) (stack : List Node) : Runs 0 h stack h stack [] := by
  intro fuel before
  rw [List.append_nil, Nat.add_zero]

theorem Runs.trans (hr : Runs k h stack h' stack' freed) (hr' : Runs k' h' stack' h'' stack'' freed') :
    Runs (k' + k) h stack h'' stack'' (freed ++ freed') := by
  intro fuel before
  rw [← Nat.add_assoc, hr, hr', List.append_assoc]

-- The nodes at the top of the stack are taken from it, and the nodes of the set are freed.
def Clears (h₀ : Heap) (S : Node → Prop) (h : Heap) (todo stack : List Node) : Prop :=
  ∃ k freed h', k ≤ 3 * freed.length ∧ Runs k h (todo ++ stack) h' stack freed ∧ Ordered h₀ S freed ∧ Leaves S h h'

namespace Clears

theorem nil (hn : h.live.Nodup) : Clears h₀ (fun _ => False) h [] stack := by
  refine ⟨0, [], h, Nat.zero_le _, .refl h stack, ⟨List.nodup_nil, ?_, ?_⟩, ⟨hn, ?_, ?_⟩⟩
  · exact fun n => iff_of_false List.not_mem_nil id
  · exact fun n m hn => absurd hn List.not_mem_nil
  · exact fun n => by rw [not_false_eq_true, and_true]
  · exact fun n _ => ⟨rfl, rfl, rfl, rfl, rfl, rfl⟩

theorem append (hc : Clears h₀ S h todo (todo' ++ stack)) (hd : ∀ n, S n → ¬T n)
    (hc' : ∀ h', Leaves S h h' → Clears h₀ T h' todo' stack) :
    Clears h₀ (fun n => S n ∨ T n) h (todo ++ todo') stack := by
  obtain ⟨k, freed, h', hk, hr, ho, hl⟩ := hc
  obtain ⟨k', freed', h'', hk', hr', ho', hl'⟩ := hc' h' hl
  refine ⟨k' + k, freed ++ freed', h'', ?_, ?_, ho.append ho' hd, hl.trans hl'⟩
  · rw [List.length_append]
    omega
  · rw [List.append_assoc]
    exact hr.trans hr'

end Clears

theorem Whole.mono (hw : Whole h₀ kids S h) (hs : ∀ n, T n → S n) : Whole h₀ kids T h where
  old n hn     := hw.old n (hs n hn)
  live n hn    := hw.live n (hs n hn)
  content n hn := hw.content n (hs n hn)
  first n hn   := hw.first n (hs n hn)
  next n hn    := hw.next n (hs n hn)

theorem Whole.congr (hw : Whole h₀ kids S h) (hlive : ∀ n, S n → n ∈ h'.live)
    (hcontent : ∀ n, S n → h'.content n = h.content n) (hfirst : ∀ n, S n → h'.first n = h.first n)
    (hnext : ∀ n, S n → ∀ c ∈ kids n, h'.next c = h.next c) : Whole h₀ kids S h' where
  old          := hw.old
  live         := hlive
  content n hn := (hcontent n hn).trans (hw.content n hn)
  first n hn   := (hfirst n hn).trans (hw.first n hn)
  next n hn us c vs hk := by
    have hc : c ∈ kids n := by
      rw [hk]
      exact List.mem_append_right us List.mem_cons_self
    exact (hnext n hn c hc).trans (hw.next n hn us c vs hk)

theorem Whole.leaves (hw : Whole h₀ kids T h) (hl : Leaves S h h') (hd : ∀ n, T n → ¬S n)
    (hk : ∀ n, T n → ∀ c ∈ kids n, T c) : Whole h₀ kids T h' :=
  hw.congr (fun n hn => (hl.live n).mpr ⟨hw.live n hn, hd n hn⟩) (fun n hn => (hl.same n (hd n hn)).content)
    (fun n hn => (hl.same n (hd n hn)).first) fun n hn c hc => (hl.same c (hd c (hk n hn c hc))).next

theorem Leaves.of_same (hl : Leaves S h' h'') (hlive : h'.live = h.live) (hs : ∀ n, ¬S n → SameAt h h' n) :
    Leaves S h h'' where
  nodup := hl.nodup
  live  := fun n => by rw [hl.live, hlive]
  same  := fun n hn => (hs n hn).trans (hl.same n hn)

section Unchain

variable {fuel : Nat}

theorem exists_unchain (stack : List Node) (hn : cs.Nodup) (hlive : ∀ c ∈ cs, c ∈ h.live)
    (hnext : ∀ us c vs, cs = us ++ c :: vs → h.next c = vs.head?) (hf : cs.length ≤ fuel) :
    ∃ h', unchain fuel h cs.head? stack = .ok (h', cs.reverse ++ stack) ∧ h'.live = h.live ∧
      ∀ m, (h'.first m = h.first m ∧ h'.last m = h.last m ∧ h'.prev m = h.prev m ∧ h'.content m = h.content m) ∧
        (m ∉ cs → h'.parent m = h.parent m ∧ h'.next m = h.next m) := by
  induction cs generalizing h stack fuel
  case nil =>
    refine ⟨h, ?_, rfl, fun m => ⟨⟨rfl, rfl, rfl, rfl⟩, fun _ => ⟨rfl, rfl⟩⟩⟩
    rw [List.head?_nil, unchain]
    rfl
  case cons c cs hi =>
    obtain ⟨hc, hn⟩ := List.nodup_cons.mp hn
    cases fuel
    case zero => cases hf
    case succ fuel =>
      let h₁ : Heap := { h with next := update h.next c none, parent := update h.parent c none }
      have hnext' : ∀ us d vs, cs = us ++ d :: vs → h₁.next d = vs.head? := by
        intro us d vs he
        have hd : d ≠ c := fun hdc => hc (by rw [he, ← hdc]; exact List.mem_append_right _ List.mem_cons_self)
        exact (Function.update_of_ne hd ..).trans (hnext (c :: us) d vs (by rw [he]; rfl))
      obtain ⟨h', hrun, hl, hsame⟩ := hi (h := h₁) (c :: stack) hn
        (fun d hd => hlive d (List.mem_cons_of_mem c hd)) hnext' (Nat.le_of_succ_le_succ hf)
      refine ⟨h', ?_, hl, fun m => ⟨(hsame m).left, fun hm => ?_⟩⟩
      · rw [List.head?_cons, unchain, if_pos (hlive c List.mem_cons_self), hnext [] c cs rfl, hrun]
        simp
      · obtain ⟨hmc, hmcs⟩ := not_or.mp fun ho => hm (List.mem_cons.mpr ho)
        obtain ⟨hp, hx⟩ := (hsame m).right hmcs
        exact ⟨hp.trans (Function.update_of_ne hmc ..), hx.trans (Function.update_of_ne hmc ..)⟩

end Unchain

-- The contents of templates are nodes without a parent, of one template each.
structure Contents (h : Heap) : Prop where
  content : ∀ t ∈ h.live, ∀ f, h.content t = some f → f ∈ h.live ∧ h.parent f = none
  unique  : ∀ s ∈ h.live, ∀ t ∈ h.live, ∀ f, h.content s = some f → h.content t = some f → s = t

section Free

variable (hl : h₀.Linked kids) (hc : h₀.Contents)

include hl in
theorem owns_of_mem_kids (hn : n ∈ h₀.live) (hm : m ∈ kids n) : h₀.Owns n m :=
  ⟨hn, .inl ((hl.mem_kids n hn m).mp hm)⟩

include hc in
theorem leftUnique_owns : Relator.LeftUnique h₀.Owns := by
  rintro a b c ⟨ha, ⟨-, hpa⟩ | hca⟩ ⟨hb, ⟨-, hpb⟩ | hcb⟩
  · exact Option.some.inj (hpa.symm.trans hpb)
  · rw [(hc.content b hb c hcb).right] at hpa
    cases hpa
  · rw [(hc.content a ha c hca).right] at hpb
    cases hpb
  · exact hc.unique a ha b hb c hca hcb

include hl in
theorem owns_iff (hn : n ∈ h₀.live) : h₀.Owns n m ↔ m ∈ kids n ∨ h₀.content n = some m := by
  rw [Owns, and_iff_right hn, hl.mem_kids n hn]

-- What the loop makes of a node on the stack, if what is below it has not been touched.
def Visits (h₀ : Heap) (kids : Node → List Node) (n : Node) : Prop :=
  ∀ h stack, Whole h₀ kids (Below h₀.Owns n) h → h.live.Nodup → Clears h₀ (Below h₀.Owns n) h [n] stack

include hl in
theorem below_kids (hw : Whole h₀ kids (Below h₀.Owns c) h) (hn : Below h₀.Owns c n) (hm : m ∈ kids n) :
    Below h₀.Owns c m :=
  hn.tail (owns_of_mem_kids hl (hw.old n hn) hm)

include hl in
theorem clears_nodes (stack : List Node) (hv : ∀ c ∈ cs, Visits h₀ kids c)
    (hw : ∀ c ∈ cs, Whole h₀ kids (Below h₀.Owns c) h) (hn : h.live.Nodup)
    (hd : cs.Pairwise fun c d => ∀ m, Below h₀.Owns c m → ¬Below h₀.Owns d m) :
    Clears h₀ (fun m => ∃ c ∈ cs, Below h₀.Owns c m) h cs stack := by
  induction cs generalizing h
  case nil =>
    have hs : (fun m => ∃ c ∈ ([] : List Node), Below h₀.Owns c m) = fun _ => False := by simp
    rw [hs]
    exact .nil hn
  case cons c cs hi =>
    obtain ⟨hdc, hd⟩ := List.pairwise_cons.mp hd
    have hs : (fun m => ∃ x ∈ c :: cs, Below h₀.Owns x m) =
        fun m => Below h₀.Owns c m ∨ ∃ x ∈ cs, Below h₀.Owns x m := by simp
    rw [hs]
    change Clears h₀ _ h ([c] ++ cs) stack
    refine Clears.append (hv c List.mem_cons_self h _ (hw c List.mem_cons_self) hn) ?_ ?_
    · rintro m hm ⟨d, hdm, hb⟩
      exact hdc d hdm m hm hb
    · intro h' hl'
      refine hi (fun d hd => hv d (List.mem_cons_of_mem c hd)) (fun d hd => ?_) hl'.nodup hd
      have hwd := hw d (List.mem_cons_of_mem c hd)
      exact hwd.leaves hl' (fun m hm hcm => hdc d hd m hcm hm) fun m hm x hx => below_kids hl hwd hm hx

-- The first turns at a node: its content is freed.
theorem exists_content (stack : List Node) (hw : Whole h₀ kids (Below h₀.Owns n) h) (hn : h.live.Nodup)
    (hv : ∀ c, h₀.Owns n c → Visits h₀ kids c) (hacyc : ¬Relation.TransGen h₀.Owns n n) :
    ∃ k freed h₁, k ≤ 3 * freed.length + 1 ∧ Runs k h (n :: stack) h₁ (n :: stack) freed ∧
      Ordered h₀ (fun m => ∃ f, h₀.content n = some f ∧ Below h₀.Owns f m) freed ∧
      Leaves (fun m => ∃ f, h₀.content n = some f ∧ Below h₀.Owns f m)
        { h with content := update h.content n none } h₁ := by
  have hlive := hw.live n .refl
  have hold := hw.old n .refl
  have hcontent := hw.content n .refl
  cases hf : h₀.content n
  case none =>
    have hs : (fun m => ∃ f, (none : Option Node) = some f ∧ Below h₀.Owns f m) = fun _ => False := by simp
    have he : { h with content := update h.content n none } = h := by
      rw [← hf, ← hcontent, Function.update_eq_self]
    rw [hs, he]
    have hnil : Clears h₀ (fun _ => False) h [] (n :: stack) := .nil hn
    obtain ⟨k, freed, h', hk, hr⟩ := hnil
    exact ⟨k, freed, h', Nat.le_succ_of_le hk, hr⟩
  case some f =>
    have hs : (fun m => ∃ g, some f = some g ∧ Below h₀.Owns g m) = Below h₀.Owns f := by simp
    rw [hs]
    have ho : h₀.Owns n f := ⟨hold, .inr hf⟩
    have hnf : ¬Below h₀.Owns f n := Below.not_below_of_owns hacyc ho
    let h₁ : Heap := { h with content := update h.content n none }
    have hw₁ : Whole h₀ kids (Below h₀.Owns f) h₁ := by
      refine (hw.mono fun m hm => .head ho hm).congr (fun m hm => hw.live m (.head ho hm)) (fun m hm => ?_)
        (fun _ _ => rfl) fun _ _ _ _ => rfl
      refine Function.update_of_ne ?_ ..
      rintro rfl
      exact hnf hm
    obtain ⟨k, freed, h₂, hk, hr, hord, hlv⟩ := hv f ho h₁ (n :: stack) hw₁ hn
    refine ⟨k + 1, freed, h₂, Nat.succ_le_succ hk, fun fuel before => ?_, hord, hlv⟩
    rw [← Nat.add_assoc, freeLoop, if_pos hlive, hcontent, hf]
    exact hr fuel before

include hl hc in
-- The children of a node have nothing below them in common.
theorem pairwise_kids (hn : n ∈ h₀.live) (hacyc : ¬Relation.TransGen h₀.Owns n n) :
    (kids n).Pairwise fun c d => ∀ m, Below h₀.Owns c m → ¬Below h₀.Owns d m := by
  refine (hl.row n hn).left.imp_of_mem fun hx hy hne m => ?_
  exact Below.disjoint (leftUnique_owns hc) hacyc (owns_of_mem_kids hl hn hx) (owns_of_mem_kids hl hn hy) hne

include hl hc in
-- The turns at a node after that: its children are freed.
theorem exists_children (stack : List Node) (hw : ∀ c ∈ kids n, Whole h₀ kids (Below h₀.Owns c) h)
    (hn : h.live.Nodup) (hv : ∀ c, h₀.Owns n c → Visits h₀ kids c) (hacyc : ¬Relation.TransGen h₀.Owns n n)
    (hold : n ∈ h₀.live) (hlive : n ∈ h.live) (hcontent : h.content n = none) (hfirst : h.first n = (kids n).head?)
    (hnext : ∀ us c vs, kids n = us ++ c :: vs → h.next c = vs.head?) :
    ∃ k freed h₂, k ≤ 3 * freed.length + 1 ∧ Runs k h (n :: stack) h₂ (n :: stack) freed ∧
      Ordered h₀ (fun m => ∃ c ∈ kids n, Below h₀.Owns c m) freed ∧
      Leaves (fun m => ∃ c ∈ kids n, Below h₀.Owns c m) { h with first := update h.first n none } h₂ := by
  obtain ⟨hnodup, -⟩ := hl.row n hold
  have hclive : ∀ c ∈ kids n, c ∈ h.live := fun c hc => (hw c hc).live c .refl
  cases hk : kids n
  case nil =>
    rw [hk] at hfirst
    have he : { h with first := update h.first n none } = h := by
      rw [← List.head?_nil (α := Node), ← hfirst, Function.update_eq_self]
    have hs : (fun m => ∃ c ∈ ([] : List Node), Below h₀.Owns c m) = fun _ => False := by simp
    rw [hs, he]
    have hnil : Clears h₀ (fun _ => False) h [] (n :: stack) := .nil hn
    obtain ⟨k, freed, h', hk, hr⟩ := hnil
    exact ⟨k, freed, h', Nat.le_succ_of_le hk, hr⟩
  case cons c cs =>
    let h₁ : Heap := { h with first := update h.first n none }
    have hlen : (kids n).length ≤ h.live.length := (hnodup.subperm hclive).length_le
    obtain ⟨h₂, hun, hlive₂, hsame⟩ := exists_unchain (h := h₁) (n :: stack) hnodup hclive hnext hlen
    have hstep : ∀ fuel before, freeLoop (fuel + 1) h (n :: stack) before =
        freeLoop fuel h₂ ((kids n).reverse ++ n :: stack) before := by
      intro fuel before
      have hun' : unchain h.live.length { h with first := update h.first n none } (kids n).head? (n :: stack) =
          .ok (h₂, (kids n).reverse ++ n :: stack) := hun
      rw [hk, List.head?_cons] at hun'
      rw [freeLoop, if_pos hlive, hcontent, hfirst]
      simp only [hk, List.head?_cons, hun']
    have hw₂ : ∀ c ∈ (kids n).reverse, Whole h₀ kids (Below h₀.Owns c) h₂ := by
      intro c hc'
      rw [List.mem_reverse] at hc'
      have ho := owns_of_mem_kids hl hold hc'
      refine (hw c hc').congr (fun m hm => hlive₂ ▸ (hw c hc').live m hm)
        (fun m _ => (hsame m).left.right.right.right) (fun m hm => ?_)
        fun m hm d hd => ((hsame d).right fun hdn => ?_).right
      · refine (hsame m).left.left.trans (Function.update_of_ne ?_ ..)
        rintro rfl
        exact Below.not_below_of_owns hacyc ho hm
      · obtain rfl := hl.eq_of_mem hold ((hw c hc').old m hm) hdn hd
        exact Below.not_below_of_owns hacyc ho hm
    have hd : (kids n).reverse.Pairwise fun c d => ∀ m, Below h₀.Owns c m → ¬Below h₀.Owns d m :=
      List.pairwise_reverse.mpr ((pairwise_kids hl hc hold hacyc).imp fun h m hm hm' => h m hm' hm)
    obtain ⟨k, freed, h₃, hk', hr, hord, hlv⟩ :=
      clears_nodes hl (n :: stack) (fun c hc => hv c (owns_of_mem_kids hl hold (List.mem_reverse.mp hc)))
        hw₂ (hlive₂ ▸ hn) hd
    rw [← hk]
    have hs : (fun m => ∃ c ∈ (kids n).reverse, Below h₀.Owns c m) = fun m => ∃ c ∈ kids n, Below h₀.Owns c m := by
      simp
    rw [hs] at hord hlv
    refine ⟨k + 1, freed, h₃, Nat.succ_le_succ hk', fun fuel before => ?_, hord, hlv.of_same hlive₂ fun m hm => ?_⟩
    · rw [← Nat.add_assoc, hstep]
      exact hr fuel before
    · have hmk : m ∉ kids n := fun hmk => hm ⟨m, hmk, .refl⟩
      obtain ⟨⟨hf, hla, hp, hco⟩, hrest⟩ := hsame m
      obtain ⟨hpa, hne⟩ := hrest hmk
      exact ⟨hpa, hf, hla, hp, hne, hco⟩

include hl in
-- What is below a node: what is below its content, what is below its children, and the node.
theorem below_iff (hn : n ∈ h₀.live) : Below h₀.Owns n m ↔
    ((∃ f, h₀.content n = some f ∧ Below h₀.Owns f m) ∨ ∃ c ∈ kids n, Below h₀.Owns c m) ∨ m = n := by
  rw [Below, Relation.ReflTransGen.cases_head_iff, or_comm, eq_comm]
  refine or_congr_left ?_
  simp only [owns_iff hl hn]
  constructor
  case mp =>
    rintro ⟨c, hc | hc, hm⟩
    · exact .inr ⟨c, hc, hm⟩
    · exact .inl ⟨c, hc, hm⟩
  case mpr =>
    rintro (⟨f, hf, hm⟩ | ⟨c, hc, hm⟩)
    · exact ⟨f, .inr hf, hm⟩
    · exact ⟨c, .inl hc, hm⟩

include hl hc in
theorem visits (hacyc : ¬Relation.TransGen h₀.Owns n n) (hv : ∀ c, h₀.Owns n c → Visits h₀ kids c) :
    Visits h₀ kids n := by
  intro h stack hw hn
  have hold := hw.old n .refl
  have hlive := hw.live n .refl
  have hcontent (m : Node) : (∃ f, h₀.content n = some f ∧ Below h₀.Owns f m) →
      m ≠ n ∧ ∀ c ∈ kids n, ¬Below h₀.Owns c m := by
    rintro ⟨f, hf, hm⟩
    have ho : h₀.Owns n f := ⟨hold, .inr hf⟩
    constructor
    · rintro rfl
      exact Below.not_below_of_owns hacyc ho hm
    · intro c hck
      refine Below.disjoint (leftUnique_owns hc) hacyc ho (owns_of_mem_kids hl hold hck) ?_ hm
      rintro rfl
      have hp := (hc.content n hold f hf).right
      rw [hl.parent_of_mem hold hck] at hp
      cases hp
  have hchild (m : Node) (hm : ∃ c ∈ kids n, Below h₀.Owns c m) : m ≠ n := by
    rintro rfl
    obtain ⟨c, hck, hm⟩ := hm
    exact Below.not_below_of_owns hacyc (owns_of_mem_kids hl hold hck) hm
  obtain ⟨k, freed, h₁, hk, hr, hord, hlv⟩ := exists_content stack hw hn hv hacyc
  have hn₁ : ¬∃ f, h₀.content n = some f ∧ Below h₀.Owns f n := fun he => (hcontent n he).left rfl
  have hkid (c : Node) (hck : c ∈ kids n) : ¬∃ f, h₀.content n = some f ∧ Below h₀.Owns f c :=
    fun he => (hcontent c he).right c hck .refl
  have hw₁ : ∀ c ∈ kids n, Whole h₀ kids (Below h₀.Owns c) h₁ := by
    intro c hck
    have ho := owns_of_mem_kids hl hold hck
    have hwc : Whole h₀ kids (Below h₀.Owns c) { h with content := update h.content n none } := by
      refine (hw.mono fun m hm => .head ho hm).congr (fun m hm => hw.live m (.head ho hm)) (fun m hm => ?_)
        (fun _ _ => rfl) fun _ _ _ _ => rfl
      exact Function.update_of_ne (hchild m ⟨c, hck, hm⟩) ..
    exact hwc.leaves hlv (fun m hm he => (hcontent m he).right c hck hm) fun m hm x hx => below_kids hl hwc hm hx
  have hsame := hlv.same n hn₁
  obtain ⟨k', freed', h₂, hk', hr', hord', hlv'⟩ := exists_children hl hc stack hw₁ hlv.nodup hv hacyc hold
    ((hlv.live n).mpr ⟨hlive, hn₁⟩) (hsame.content.trans (Function.update_self ..))
    (hsame.first.trans (hw.first n .refl))
    fun us c vs he => by
      have hck : c ∈ kids n := by
        rw [he]
        exact List.mem_append_right us List.mem_cons_self
      exact (hlv.same c (hkid c hck)).next.trans (hw.next n .refl us c vs he)
  have hn₂ : ¬∃ c ∈ kids n, Below h₀.Owns c n := fun he => hchild n he rfl
  have hs : Below h₀.Owns n = fun m =>
      ((∃ f, h₀.content n = some f ∧ Below h₀.Owns f m) ∨ ∃ c ∈ kids n, Below h₀.Owns c m) ∨ m = n := by
    funext m
    exact propext (below_iff hl hold)
  have hall := (hord.append hord' fun m he ⟨c, hck, hm⟩ => (hcontent m he).right c hck hm)
  have hsame' := hlv'.same n hn₂
  rw [hs]
  refine ⟨1 + (k' + k), freed ++ freed' ++ [n], { h₂ with live := h₂.live.erase n }, ?_, ?_,
    hall.concat (not_or.mpr ⟨hn₁, hn₂⟩) fun m ho => ?_, ?_⟩
  · rw [List.length_append, List.length_append, List.length_singleton]
    omega
  · -- The node has nothing left, and is freed.
    refine (hr.trans hr').trans fun fuel before => ?_
    have hl₂ : n ∈ h₂.live := (hlv'.live n).mpr ⟨(hlv.live n).mpr ⟨hlive, hn₁⟩, hn₂⟩
    have hc₂ : h₂.content n = none := hsame'.content.trans (hsame.content.trans (Function.update_self ..))
    have hf₂ : h₂.first n = none := hsame'.first.trans (Function.update_self ..)
    rw [freeLoop, if_pos hl₂, hc₂, hf₂]
  · rcases (owns_iff hl hold).mp ho with hm | hm
    · exact .inr ⟨m, hm, .refl⟩
    · exact .inl ⟨m, hm, .refl⟩
  · refine ⟨hlv'.nodup.erase n, fun m => ?_, fun m hm => ?_⟩
    · rw [hlv'.nodup.mem_erase_iff, hlv'.live, hlv.live, not_or, not_or]
      tauto
    · obtain ⟨⟨hma, hmb⟩, hmn⟩ := (not_or.mp hm).imp_left not_or.mp
      have h₁m := hlv.same m hma
      have h₂m := hlv'.same m hmb
      refine ⟨h₂m.parent.trans h₁m.parent, ?_, h₂m.last.trans h₁m.last, h₂m.prev.trans h₁m.prev,
        h₂m.next.trans h₁m.next, ?_⟩
      · exact h₂m.first.trans ((Function.update_of_ne hmn ..).trans h₁m.first)
      · exact h₂m.content.trans (h₁m.content.trans (Function.update_of_ne hmn ..))

include hc in
theorem live_of_owns (ho : h₀.Owns n m) : m ∈ h₀.live := by
  obtain ⟨hn, hm | hm⟩ := ho
  · exact hm.left
  · exact (hc.content n hn m hm).left

include hc in
theorem live_of_below (hn : n ∈ h₀.live) (hm : Below h₀.Owns n m) : m ∈ h₀.live := by
  rcases hm.cases_tail with rfl | ⟨p, -, ho⟩
  · exact hn
  · exact live_of_owns hc ho

include hl hc in
theorem exists_nodeFree (hr : h₀.IsRoot n) :
    ∃ h' freed, h₀.FreesBelow n h' freed ∧ Leaves (Below h₀.Owns n) h₀ h' := by
  have hlive (m : Node) (hm : Below h₀.Owns n m) : m ∈ h₀.live := live_of_below hc hr.left hm
  have hfin : { m | Below h₀.Owns n m }.Finite := h₀.live.finite_toSet.subset hlive
  have hwhole : Whole h₀ kids (Below h₀.Owns n) h₀ :=
    ⟨hlive, hlive, fun _ _ => rfl, fun m hm => hl.first m (hlive m hm),
      fun m hm us c vs hk => ((hl.row m (hlive m hm)).right us c vs hk).right⟩
  have hv : Visits h₀ kids n := Below.induction (leftUnique_owns hc) hr.right hfin fun m hm hi =>
    visits hl hc (Below.acyclic (leftUnique_owns hc) hr.right hm) hi
  obtain ⟨k, freed, h', hk, hrun, hord, hlv⟩ := hv h₀ [] hwhole hl.nodup
  have hlen : freed.length ≤ h₀.live.length :=
    (hord.nodup.subperm fun m hm => hlive m ((hord.mem m).mp hm)).length_le
  refine ⟨h', freed, ⟨?_, hord.nodup, hord.mem, hord.order, hlv.live⟩, hlv⟩
  obtain ⟨fuel, hf⟩ := Nat.le.dest (hk.trans (Nat.mul_le_mul_left 3 hlen))
  have hfuel : 3 * h₀.live.length + 1 = (fuel + 1) + k := by omega
  rw [nodeFree, hfuel]
  exact hrun (fuel + 1) []

end Free

section Step

variable {e : Event} {p t : Node}

-- What stays owns what stays.
theorem Contents.not_below (hc : h.Contents) (hr : h.IsRoot n) (ho : h.Owns m c) (hm : ¬Below h.Owns n m) :
    ¬Below h.Owns n c := by
  intro hb
  rcases hb.cases_tail with rfl | ⟨p, hp, hpc⟩
  · exact hr.right m ho
  · exact hm (leftUnique_owns hc hpc ho ▸ hp)

theorem Linked.of_leaves (hl : h.Linked kids) (hc : h.Contents) (hr : h.IsRoot n)
    (hlv : Leaves (Below h.Owns n) h h') : h'.Linked kids := by
  have hkid {m c : Node} (hm : m ∈ h'.live) (hck : c ∈ kids m) : ¬Below h.Owns n c :=
    have ⟨hml, hmb⟩ := (hlv.live m).mp hm
    hc.not_below hr (owns_of_mem_kids hl hml hck) hmb
  constructor
  case nodup => exact hlv.nodup
  case row =>
    intro m hm
    obtain ⟨hn, hrow⟩ := hl.row m ((hlv.live m).mp hm).left
    exact ⟨hn, hrow.congr (fun c hck => (hlv.same c (hkid hm hck)).prev)
      fun c hck => (hlv.same c (hkid hm hck)).next⟩
  case first =>
    intro m hm
    obtain ⟨hml, hmb⟩ := (hlv.live m).mp hm
    rw [(hlv.same m hmb).first, hl.first m hml]
  case last =>
    intro m hm
    obtain ⟨hml, hmb⟩ := (hlv.live m).mp hm
    rw [(hlv.same m hmb).last, hl.last m hml]
  case mem_kids =>
    intro m hm c
    rw [hlv.live]
    constructor
    case mp =>
      intro hck
      have hcb := hkid hm hck
      have hml := ((hlv.live m).mp hm).left
      rw [(hlv.same c hcb).parent]
      exact ⟨⟨hl.live_of_mem hml hck, hcb⟩, hl.parent_of_mem hml hck⟩
    case mpr =>
      rintro ⟨⟨hcl, hcb⟩, hp⟩
      rw [(hlv.same c hcb).parent] at hp
      exact hl.mem_of_parent hcl hp
  case parent =>
    intro c hcl p hp
    obtain ⟨hcl, hcb⟩ := (hlv.live c).mp hcl
    rw [(hlv.same c hcb).parent] at hp
    have hpl := hl.parent c hcl p hp
    exact (hlv.live p).mpr ⟨hpl, fun hb => hcb (hb.tail ⟨hpl, .inl ⟨hcl, hp⟩⟩)⟩
  case alone =>
    intro c hcl hp
    obtain ⟨hcl, hcb⟩ := (hlv.live c).mp hcl
    rw [(hlv.same c hcb).parent] at hp
    rw [(hlv.same c hcb).prev, (hlv.same c hcb).next]
    exact hl.alone c hcl hp

theorem Contents.of_leaves (hc : h.Contents) (hr : h.IsRoot n) (hlv : Leaves (Below h.Owns n) h h') :
    h'.Contents := by
  have hold {t f : Node} (ht : t ∈ h'.live) (hf : h'.content t = some f) :
      t ∈ h.live ∧ h.content t = some f ∧ ¬Below h.Owns n f := by
    obtain ⟨htl, htb⟩ := (hlv.live t).mp ht
    rw [(hlv.same t htb).content] at hf
    exact ⟨htl, hf, hc.not_below hr ⟨htl, .inr hf⟩ htb⟩
  constructor
  case content =>
    intro t ht f hf
    obtain ⟨htl, hf, hfb⟩ := hold ht hf
    obtain ⟨hfl, hp⟩ := hc.content t htl f hf
    exact ⟨(hlv.live f).mpr ⟨hfl, hfb⟩, (hlv.same f hfb).parent.trans hp⟩
  case unique =>
    intro s hs t ht f hfs hft
    obtain ⟨hsl, hfs, -⟩ := hold hs hfs
    obtain ⟨htl, hft, -⟩ := hold ht hft
    exact hc.unique s hsl t htl f hfs hft

theorem contents_empty : empty.Contents where
  content := fun _ ht => absurd ht List.not_mem_nil
  unique  := fun _ hs => absurd hs List.not_mem_nil

theorem Contents.newNode (hc : h.Contents) (hn : n ∉ h.live) : (h.newNode n).Contents := by
  have hold {t f : Node} (ht : t ∈ (h.newNode n).live) (hf : (h.newNode n).content t = some f) :
      t ∈ h.live ∧ h.content t = some f := by
    rcases List.mem_cons.mp ht with rfl | ht
    · simp [Heap.newNode] at hf
    · have hne : t ≠ n := ne_of_mem_of_not_mem ht hn
      exact ⟨ht, (Function.update_of_ne hne ..).symm.trans hf⟩
  constructor
  case content =>
    intro t ht f hf
    obtain ⟨ht, hf⟩ := hold ht hf
    obtain ⟨hfl, hp⟩ := hc.content t ht f hf
    have hne : f ≠ n := ne_of_mem_of_not_mem hfl hn
    exact ⟨List.mem_cons_of_mem n hfl, (Function.update_of_ne hne ..).trans hp⟩
  case unique =>
    intro s hs t ht f hfs hft
    obtain ⟨hs, hfs⟩ := hold hs hfs
    obtain ⟨ht, hft⟩ := hold ht hft
    exact hc.unique s hs t ht f hfs hft

-- A node that is no content gets another parent, or none.
theorem Contents.relink {q : Option Node} (hc : h.Contents) (hlive : h'.live = h.live)
    (hcontent : h'.content = h.content) (hparent : h'.parent = update h.parent c q)
    (hq : q = none ∨ ∀ t ∈ h.live, h.content t ≠ some c) : h'.Contents := by
  constructor
  case content =>
    intro t ht f hf
    rw [hlive] at ht ⊢
    rw [hcontent] at hf
    obtain ⟨hfl, hp⟩ := hc.content t ht f hf
    refine ⟨hfl, ?_⟩
    rw [hparent]
    by_cases hfc : f = c
    case pos =>
      subst hfc
      rw [Function.update_self]
      exact hq.resolve_right fun hn => hn t ht hf
    case neg => rw [Function.update_of_ne hfc, hp]
  case unique =>
    rw [hlive, hcontent]
    exact hc.unique

theorem Linked.withContent {content : Node → Option Node} (hl : h.Linked kids) :
    Linked { h with content } kids :=
  ⟨hl.nodup, hl.row, hl.first, hl.last, hl.mem_kids, hl.parent, hl.alone⟩

-- A template gets a new node for its content.
theorem Contents.give (hc : h.Contents) (ht : t ∈ h.live) (hn : n ∉ h.live) :
    Contents { h.newNode n with content := update (h.newNode n).content t (some n) } := by
  have hc' := hc.newNode hn
  have hnone : ∀ s ∈ (h.newNode n).live, (h.newNode n).content s ≠ some n := by
    intro s hs hf
    rcases List.mem_cons.mp hs with rfl | hs
    · simp [Heap.newNode] at hf
    · have hne : s ≠ n := ne_of_mem_of_not_mem hs hn
      exact hn (hc.content s hs n ((Function.update_of_ne hne ..).symm.trans hf)).left
  constructor
  case content =>
    intro s hs f hf
    by_cases hst : s = t
    case pos =>
      subst hst
      obtain rfl : n = f := by simpa using hf
      exact ⟨List.mem_cons_self, Function.update_self ..⟩
    case neg => exact hc'.content s hs f ((Function.update_of_ne hst ..).symm.trans hf)
  case unique =>
    intro s hs u hu f hfs hfu
    have hself (hf : update (h.newNode n).content t (some n) t = some f) : n = f := by simpa using hf
    by_cases hst : s = t
    case pos =>
      subst hst
      obtain rfl := hself hfs
      by_contra hsu
      exact hnone u hu ((Function.update_of_ne (Ne.symm hsu) ..).symm.trans hfu)
    case neg =>
      have hfs' := (Function.update_of_ne hst ..).symm.trans hfs
      by_cases hut : u = t
      case pos =>
        subst hut
        obtain rfl := hself hfu
        exact absurd hfs' (hnone s hs)
      case neg => exact hc'.unique s hs u hu f hfs' ((Function.update_of_ne hut ..).symm.trans hfu)

theorem step_linked (hl : h.Linked kids) (hc : h.Contents) (hs : Step h e h') (he : e.keepsContent h) :
    (∃ kids', h'.Linked kids') ∧ h'.Contents := by
  cases hs
  case new hn => exact ⟨⟨_, hl.newNode hn⟩, hc.newNode hn⟩
  case append hp hcl =>
    obtain ⟨hl', hlive, hcontent, hparent⟩ := hl.exists_append hp hcl
    exact ⟨hl', hc.relink hlive hcontent hparent (.inr he)⟩
  case remove hcl =>
    obtain ⟨hl', hlive, hcontent, hparent⟩ := hl.exists_detach hcl
    exact ⟨hl', hc.relink hlive hcontent hparent (.inl rfl)⟩
  case content t f ht hf =>
    rw [templateContentGet]
    split
    case h_1 => exact ⟨⟨kids, hl⟩, hc⟩
    case h_2 => exact ⟨⟨_, (hl.newNode hf).withContent⟩, hc.give ht hf⟩
  case free r freed hr hf =>
    obtain ⟨h₁, freed₁, hb, hlv⟩ := exists_nodeFree hl hc hr
    obtain ⟨rfl, -⟩ := Prod.mk.inj (Except.ok.inj (hf.symm.trans hb.run))
    exact ⟨⟨kids, hl.of_leaves hc hr hlv⟩, hc.of_leaves hr hlv⟩

theorem linked_of_reached (hr : Reached Event.keepsContent h) : (∃ kids, h.Linked kids) ∧ h.Contents := by
  induction hr
  case empty => exact ⟨⟨_, linked_empty⟩, contents_empty⟩
  case step hs he hi =>
    obtain ⟨⟨kids, hl⟩, hc⟩ := hi
    exact step_linked hl hc hs he

end Step

-- As long as no content of a template is made a child, the pointers are those of lists of children, and what is
-- below a root is freed once each, in the order.
theorem consistent_of_reached (hr : Reached Event.keepsContent h) : h.Consistent := by
  obtain ⟨⟨kids, hl⟩, hc⟩ := linked_of_reached hr
  refine ⟨⟨kids, hl⟩, fun r hroot => ?_⟩
  obtain ⟨h', freed, hb, -⟩ := exists_nodeFree hl hc hroot
  exact ⟨h', freed, hb⟩

section Shared

-- A node with a template and another child, and the content of the template.
def templatePage : Heap :=
  (((((empty.newNode 0).newNode 1).newNode 2).appendChild 0 1).appendChild 0 2).templateContentGet 1 3

theorem up_of_none (hp : h.parent n = none) : h.Up n m ↔ n = m := by
  rw [Up, Relation.ReflTransGen.cases_head_iff, hp]
  simp

theorem up_of_some {p : Node} (hp : h.parent n = some p) : h.Up n m ↔ n = m ∨ h.Up p m := by
  rw [Up, Relation.ReflTransGen.cases_head_iff, hp]
  simp

theorem reached_templatePage {ok : Heap → Event → Prop} (hok : ∀ h e, (∀ p c, e = .append p c →
    h.parent p = none ∧ p ≠ c ∧ ∀ t ∈ h.live, h.content t = none) → ok h e) : Reached ok templatePage := by
  have hnew (h : Heap) (n : Node) : ok h (.new n) := hok h _ fun _ _ he => by cases he
  have h₁ : Reached ok (((empty.newNode 0).newNode 1).newNode 2) :=
    .step (.step (.step .empty (.new (by decide)) (hnew _ 0)) (.new (by decide)) (hnew _ 1)) (.new (by decide))
      (hnew _ 2)
  have h₂ := Reached.step h₁ (.append (p := 0) (c := 1) (by decide) (by decide)) <| hok _ _ fun p c he => by
    cases he
    decide
  have h₃ := Reached.step h₂ (.append (p := 0) (c := 2) (by decide) (by decide)) <| hok _ _ fun p c he => by
    cases he
    decide
  exact .step h₃ (.content (by decide) (by decide)) (hok _ _ fun _ _ he => by cases he)

theorem consistent_templatePage : templatePage.Consistent := by
  refine consistent_of_reached (reached_templatePage fun h e he => ?_)
  cases e
  case append p c =>
    intro t ht
    rw [(he p c rfl).right.right t ht]
    exact fun hs => by cases hs
  all_goals exact trivial

-- If the content is made a child, it is freed a second time.
theorem not_consistent_shared : ¬ ∀ h, Reached Event.keepsForest h → h.Consistent := by
  intro hall
  have hr : Reached Event.keepsForest (templatePage.appendChild 2 3) := by
    refine .step (reached_templatePage fun h e he => ?_) (.append (p := 2) (c := 3) (by decide) (by decide)) ?_
    · cases e
      case append p c => exact fun hu => (he p c rfl).right.left ((up_of_none (he p c rfl).left).mp hu)
      all_goals exact trivial
    · have h₂ : templatePage.parent 2 = some 0 := rfl
      have h₀ : templatePage.parent 0 = none := rfl
      intro hu
      rw [up_of_some h₂, up_of_none h₀] at hu
      exact absurd hu (by decide)
  have hroot : (templatePage.appendChild 2 3).IsRoot 0 := by
    refine ⟨by decide, fun m ⟨hm, ho⟩ => ?_⟩
    have hp : (templatePage.appendChild 2 3).parent 0 = none := rfl
    have hc : ∀ m ∈ (templatePage.appendChild 2 3).live, (templatePage.appendChild 2 3).content m ≠ some 0 := by
      decide
    rcases ho with ⟨-, ho⟩ | ho
    · rw [hp] at ho
      cases ho
    · exact hc m hm ho
  obtain ⟨h', freed, hf⟩ := (hall _ hr).free 0 hroot
  have he : (templatePage.appendChild 2 3).nodeFree 0 = .error .freed := rfl
  rw [hf.run] at he
  cases he

end Shared

end Nordstjernen.Dom.Heap
