import Nordstjernen.Css.Cascade
import Nordstjernen.Lib.PathOrder

open Nordstjernen.Glib Nordstjernen.Lib

namespace Nordstjernen.Css

section Comparison

variable {a b c : MatchEntry} {x y rest : Int}

theorem thenCmp_neg_iff : thenCmp x y rest < 0 ↔ x < y ∨ x = y ∧ rest < 0 := by
  rw [thenCmp]
  split <;> try split
  all_goals omega

theorem thenCmp_ne_zero (h : rest ≠ 0) : thenCmp x y rest ≠ 0 := by
  rw [thenCmp]
  split <;> try split
  all_goals omega

theorem matchCmp_ne_zero (a b : MatchEntry) : matchCmp a b ≠ 0 := by
  have h : (if a.declOrder < b.declOrder then (-1 : Int) else 1) ≠ 0 := by split <;> omega
  iterate 9 apply thenCmp_ne_zero
  exact h

theorem matchCmp_neg_iff : matchCmp a b < 0 ↔ a.key < b.key := by
  have h : (if a.declOrder < b.declOrder then (-1 : Int) else 1) < 0 ↔ a.declOrder < b.declOrder := by
    split <;> simp_all
  simp only [matchCmp, sourceCmp, thenCmp_neg_iff, h, MatchEntry.key, Declared.level,
    Declared.ranks, MatchEntry.declared, List.cons_append, List.nil_append, List.cons_lt_cons_iff,
    List.lt_irrefl, and_false, or_false]

theorem matchCmp_nonpos_iff : matchCmp a b ≤ 0 ↔ a.key < b.key := by
  rw [← matchCmp_neg_iff, Int.lt_iff_le_and_ne, and_iff_left (matchCmp_ne_zero a b)]

end Comparison

section Slots

variable {c : Captured} {items : List Item} {b : Block} {i n r : Nat}

-- The declarations of a block with their orders, in the order of the text. `n` declarations come before
-- the rest of the block, and `r` of the `var()` kind since the last of them.
def slotted (n r : Nat) : List Item → List (Decl × Bool × Int)
  | []                                  => []
  | .plain ds :: items                  =>
    (ds.zipIdx n).map (fun (d, i) => (d, d.important, cssDeclSlot i)) ++
      slotted (n + ds.length) (if ds = [] then r else 0) items
  | .pending important expansion :: items =>
    expansion.map
        (fun d => (d, important || d.important, cssPendingDeclSlot ⟨important, n, r, expansion⟩)) ++
      slotted n (r + 1) items

namespace Captured

def slots (c : Captured) : List (Decl × Bool × Int) :=
  c.decls.zipIdx.map (fun (d, i) => (d, d.important, cssDeclSlot i)) ++
    c.pending.flatMap fun pd =>
      pd.expansion.map fun d => (d, pd.important || d.important, cssPendingDeclSlot pd)

-- The pending declarations stand before declarations that are there or come next.
def Indexed (c : Captured) : Prop :=
  ∀ pd ∈ c.pending, pd.declIndex ≤ c.decls.length

theorem Indexed.add (h : c.Indexed) (item : Item) : (c.add item).Indexed := by
  cases item
  case plain ds =>
    intro pd hp
    exact (h pd hp).trans (by simp [Captured.add])
  case pending important expansion =>
    intro pd hp
    cases List.mem_append.mp hp
    case inl hp => exact h pd hp
    case inr hp => exact List.mem_singleton.mp hp ▸ Nat.le_refl _

theorem nextRank_plain (h : c.Indexed) (ds : List Decl) :
    (c.add (.plain ds)).nextRank = if ds = [] then c.nextRank else 0 := by
  cases ds
  case nil => simp [Captured.add, nextRank]
  case cons d ds =>
    simp only [nextRank, Captured.add, List.length_append, List.length_cons, reduceCtorEq, ↓reduceIte]
    cases hl : c.pending.getLast?
    case none => rfl
    case some prev =>
      have := h prev (List.mem_of_getLast? hl)
      exact if_neg (by omega)

theorem nextRank_pending (important : Bool) (expansion : List Decl) :
    (c.add (.pending important expansion)).nextRank = c.nextRank + 1 := by
  simp [nextRank, Captured.add]

-- The parser gives the declarations their orders as they come.
theorem slots_foldl (h : c.Indexed) (items : List Item) :
    (items.foldl Captured.add c).slots.Perm (c.slots ++ slotted c.decls.length c.nextRank items) := by
  induction items generalizing c
  case nil => simp [slotted]
  case cons item items hi =>
    refine (hi (h.add item)).trans ?_
    cases item
    case plain ds =>
      simp only [nextRank_plain h, slotted]
      simp only [slots, Captured.add, List.zipIdx_append, List.map_append, List.length_append,
        List.append_assoc, Nat.zero_add]
      refine List.Perm.append_left _ ?_
      rw [← List.append_assoc, ← List.append_assoc]
      exact List.Perm.append_right _ List.perm_append_comm
    case pending important expansion =>
      simp only [nextRank_pending, slotted]
      simp [slots, Captured.add, List.append_assoc]

theorem pending_subset_foldl (c : Captured) (items : List Item) :
    c.pending ⊆ (items.foldl Captured.add c).pending := by
  induction items generalizing c
  case nil => exact List.Subset.refl _
  case cons item items hi =>
    refine List.Subset.trans ?_ (hi (c.add item))
    cases item
    case plain   => exact List.Subset.refl _
    case pending => exact List.subset_append_left _ _

theorem length_le_foldl (c : Captured) (items : List Item) :
    c.decls.length ≤ (items.foldl Captured.add c).decls.length := by
  induction items generalizing c
  case nil => exact Nat.le_refl _
  case cons item items hi =>
    refine Nat.le_trans ?_ (hi (c.add item))
    cases item <;> simp [Captured.add]

theorem Tame.of_foldl (h : (items.foldl Captured.add c).Tame) : c.Tame where
  size       := (length_le_foldl c items).trans_lt h.size
  ranks _ hp := h.ranks _ (pending_subset_foldl c items hp)
  once _ hp  := h.once _ (pending_subset_foldl c items hp)

theorem Tame.nextRank_le (h : c.Tame) : c.nextRank ≤ 63 := by
  rw [nextRank]
  split
  case h_1 prev hl =>
    have := h.ranks prev (List.mem_of_getLast? hl)
    split <;> omega
  case h_2 => omega

end Captured

theorem cssDeclSlot_eq (h : i < 33554432) : cssDeclSlot i = 64 * i := by
  simp only [cssDeclSlot, wrapInt32, declSlotSpan]
  omega

theorem cssPendingDeclSlot_eq {pd : PendingDecl} (hi : pd.declIndex < 33554432)
    (hr : pd.declRank < 63) : cssPendingDeclSlot pd = 64 * pd.declIndex - 63 + pd.declRank := by
  have hlt : pd.declRank < declSlotSpan - 1 := by simpa [declSlotSpan] using hr
  simp only [cssPendingDeclSlot, cssDeclSlot_eq hi, if_pos hlt, wrapInt32]
  simp only [declSlotSpan]
  omega

-- The orders increase with the text, save that those of one expansion are the same.
theorem slotted_increasing (hc : c.Indexed) (h : (items.foldl Captured.add c).Tame) :
    (∀ x ∈ slotted c.decls.length c.nextRank items,
      64 * (c.decls.length : Int) - 63 + c.nextRank ≤ x.2.2) ∧
    (slotted c.decls.length c.nextRank items).Pairwise fun x y =>
      x.1.prop ≠ y.1.prop ∨ x.2.2 < y.2.2 := by
  induction items generalizing c
  case nil => simp [slotted]
  case cons item items hi =>
    have ⟨hle, hpw⟩ := hi (hc.add item) h
    have htame : (c.add item).Tame := .of_foldl h
    have hrank := (Captured.Tame.of_foldl (show ([item].foldl _ c).Tame from htame)).nextRank_le
    have hsize := htame.size
    cases item
    case plain ds =>
      rw [Captured.nextRank_plain hc] at hle hpw
      simp only [Captured.add, List.length_append] at hle hpw hsize
      rw [slotted]
      cases hds : ds
      case nil =>
        subst hds
        exact ⟨by simpa using hle, by simpa using hpw⟩
      case cons d ds' =>
        rw [← hds]
        rw [if_neg (by simp [hds])] at hle hpw ⊢
        have hlen : 0 < ds.length := by simp [hds]
        have hslot : ∀ x ∈ ds.zipIdx c.decls.length, c.decls.length ≤ x.2 ∧
            x.2 < c.decls.length + ds.length ∧ cssDeclSlot x.2 = 64 * x.2 := by
          intro x hx
          have ⟨hx, hx', _⟩ := List.mem_zipIdx hx
          exact ⟨hx, hx', cssDeclSlot_eq (by omega)⟩
        refine ⟨?_, List.pairwise_append.mpr ⟨?_, hpw, ?_⟩⟩
        · intro x hx
          cases List.mem_append.mp hx
          case inl hx =>
            obtain ⟨y, hy, rfl⟩ := List.mem_map.mp hx
            have := hslot y hy
            simp only
            omega
          case inr hx => have := hle x hx; omega
        · have hlt : (ds.zipIdx c.decls.length).Pairwise (·.2 < ·.2) := by
            rw [← List.pairwise_map, List.zipIdx_map_snd]
            exact List.pairwise_lt_range'
          refine List.pairwise_map.mpr (hlt.imp_of_mem fun hx hy hxy => .inr ?_)
          have := hslot _ hx
          have := hslot _ hy
          simp only
          omega
        · intro x hx y hy
          obtain ⟨z, hz, rfl⟩ := List.mem_map.mp hx
          have := hslot z hz
          have := hle y hy
          exact .inr (by simp only; omega)
    case pending important expansion =>
      rw [Captured.nextRank_pending] at hle hpw
      simp only [Captured.add] at hle hpw hsize
      have hpd : ⟨important, c.decls.length, c.nextRank, expansion⟩ ∈
          (c.add (.pending important expansion)).pending := by simp [Captured.add]
      have hpd := Captured.pending_subset_foldl _ items hpd
      have hslot := @cssPendingDeclSlot_eq ⟨important, c.decls.length, c.nextRank, expansion⟩
        hsize (h.ranks _ hpd)
      rw [slotted, hslot]
      refine ⟨?_, List.pairwise_append.mpr ⟨?_, hpw, ?_⟩⟩
      · intro x hx
        cases List.mem_append.mp hx
        case inl hx => obtain ⟨y, hy, rfl⟩ := List.mem_map.mp hx; exact le_rfl
        case inr hx => have := hle x hx; omega
      · exact List.pairwise_map.mpr ((h.once _ hpd).imp .inl)
      · intro x hx y hy
        obtain ⟨z, hz, rfl⟩ := List.mem_map.mp hx
        have := hle y hy
        exact .inr (by simp only; omega)

theorem slots_capture : (capture items).slots.Perm (slotted 0 0 items) :=
  Captured.slots_foldl (c := {}) (by simp [Captured.Indexed]) items

theorem slotted_fst : (slotted n r items).map (·.1) = items.flatMap (·.decls) := by
  induction items generalizing n r
  case nil => rfl
  case cons item items hi =>
    cases item <;> simp [slotted, hi, Item.decls, Function.comp_def]

-- Whether the orders of two declarations of a block agree with the text if they set the same property.
def InStep (x y : Decl × Bool × Int) : Prop :=
  x.1.prop = y.1.prop →
    x = y ∨ x.1.place < y.1.place ∧ x.2.2 < y.2.2 ∨ y.1.place < x.1.place ∧ y.2.2 < x.2.2

theorem inStep_of_mem {x y : Decl × Bool × Int} (h : (capture b.items).Tame)
    (hx : x ∈ (capture b.items).slots) (hy : y ∈ (capture b.items).slots) : InStep x y := by
  have hplace : (slotted 0 0 b.items).Pairwise fun x y => x.1.place < y.1.place := by
    have := b.ordered
    rwa [← slotted_fst (n := 0) (r := 0), List.pairwise_map] at this
  have hslot := (slotted_increasing (c := {}) (by simp [Captured.Indexed]) h).right
  have hboth := hplace.and hslot
  refine List.Pairwise.forall_of_forall_of_flip (R := InStep) ?_ ?_ ?_
    (slots_capture.mem_iff.mp hx) (slots_capture.mem_iff.mp hy)
  · exact fun x _ _ => .inl rfl
  · exact hboth.imp fun ⟨hp, hs⟩ he => .inr (.inl ⟨hp, hs.resolve_left fun hn => hn he⟩)
  · exact hboth.imp fun ⟨hp, hs⟩ he => .inr (.inr ⟨hp, hs.resolve_left fun hn => hn he.symm⟩)

end Slots

section Entries

variable {ms : List Matched} {a b e : MatchEntry} {d : Declared} {m m' : Matched}

theorem slotted_declared (source : Source) (n r : Nat) (items : List Item) :
    (slotted n r items).map (fun x => ⟨source, x.2.1, x.1⟩) = items.flatMap (·.declared source) := by
  induction items generalizing n r
  case nil => rfl
  case cons item items hi =>
    cases item
    case plain ds =>
      have hds := congrArg (List.map fun d : Decl => (⟨source, d.important, d⟩ : Declared))
        (List.zipIdx_map_fst n ds)
      rw [List.map_map] at hds
      simp only [slotted, List.map_append, List.map_map, hi, List.flatMap_cons]
      exact congrArg (· ++ _) hds
    case pending =>
      simp only [slotted, List.map_append, List.map_map, hi, List.flatMap_cons]
      rfl

theorem mem_matchEntries : e ∈ matchEntries ms ↔
    ∃ m ∈ ms, ∃ x ∈ (capture m.block.items).slots, ⟨m.source, x.2.2, x.2.1, x.1⟩ = e := by
  simp only [matchEntries, List.mem_append, List.mem_flatMap, (gArraySort_perm _ _).mem_iff,
    Matched.entries, Matched.pendings, PendingMatch.resolve, Captured.slots, List.mem_map]
  grind

theorem mem_declarations : d ∈ declarations ms ↔ ∃ e ∈ matchEntries ms, e.declared = d := by
  have hslots (m : Matched) : d ∈ m.block.items.flatMap (·.declared m.source) ↔
      ∃ x ∈ (capture m.block.items).slots, ⟨m.source, x.2.1, x.1⟩ = d := by
    rw [← slotted_declared m.source 0 0, List.mem_map]
    simp only [slots_capture.mem_iff]
  simp only [declarations, List.mem_flatMap, hslots, mem_matchEntries]
  constructor
  case mp =>
    intro ⟨m, hm, x, hx, he⟩
    exact ⟨_, ⟨m, hm, x, hx, rfl⟩, he⟩
  case mpr =>
    intro ⟨_, ⟨m, hm, x, hx, rfl⟩, he⟩
    exact ⟨m, hm, x, hx, he⟩

theorem Matched.Apart.symm (h : m.Apart m') : m'.Apart m :=
  fun ⟨ho, hs, hk⟩ => h ⟨ho.symm, hs.symm, hk.symm⟩

theorem Tame.eq_of_not_apart (h : Tame ms) (hm : m ∈ ms) (hm' : m' ∈ ms) (ha : ¬m.Apart m') :
    m = m' := by
  have key := List.Pairwise.forall_of_forall_of_flip (R := fun m m' => m = m' ∨ m.Apart m')
    (fun m _ => .inl rfl) (h.apart.imp .inr) (h.apart.imp fun h => .inr h.symm)
  exact (key hm hm').resolve_right ha

-- Two entries for one property that stand in the same place are in the order of the text.
theorem Tame.inStep (h : Tame ms) (ha : a ∈ matchEntries ms) (hb : b ∈ matchEntries ms)
    (hp : a.decl.prop = b.decl.prop) (ho : a.source.keys.origin = b.source.keys.origin)
    (hs : a.source.keys.sheetIndex = b.source.keys.sheetIndex)
    (hk : a.source.keys.sourceOrder = b.source.keys.sourceOrder) :
    a = b ∨ a.decl.place < b.decl.place ∧ a.declOrder < b.declOrder ∨
      b.decl.place < a.decl.place ∧ b.declOrder < a.declOrder := by
  obtain ⟨m, hm, x, hx, rfl⟩ := mem_matchEntries.mp ha
  obtain ⟨m', hm', y, hy, rfl⟩ := mem_matchEntries.mp hb
  obtain rfl := h.eq_of_not_apart hm hm' (not_not.mpr ⟨ho, hs, hk⟩)
  refine (inStep_of_mem (h.blocks m hm) hx hy hp).imp_left ?_
  rintro rfl
  rfl

end Entries

section Keys

variable {ms : List Matched} {a b : MatchEntry} {d : Declared}

theorem level_eq_iff {d d' : Declared} : d.level = d'.level ↔
    d.important = d'.important ∧ d.source.keys.origin = d'.source.keys.origin := by
  have htoNat : (d.important.toNat : Int) = d'.important.toNat ↔ d.important = d'.important := by
    cases d.important <;> cases d'.important <;> decide
  simp only [Declared.level, List.cons.injEq, and_true, htoNat, reversed]
  refine and_congr_right fun h => ?_
  rw [h]
  split <;> omega

theorem length_level_eq (d d' : Declared) : d.level.length = d'.level.length :=
  rfl

theorem length_ranks_eq (d d' : Declared) : d.ranks.length = d'.ranks.length :=
  rfl

theorem key_lt_iff : a.key < b.key ↔ a.declared.level < b.declared.level ∨
    a.declared.level = b.declared.level ∧ (a.declared.ranks < b.declared.ranks ∨
      a.declared.ranks = b.declared.ranks ∧ a.declOrder < b.declOrder) := by
  rw [MatchEntry.key, MatchEntry.key, append_lt_append_iff (length_level_eq _ _),
    append_lt_append_iff (length_ranks_eq _ _)]
  simp [List.cons_lt_cons_iff]

theorem precedence_lt_iff {d d' : Declared} : d.precedence < d'.precedence ↔ d.level < d'.level ∨
    d.level = d'.level ∧ (d.source.isInline < d'.source.isInline ∨
      d.source.isInline = d'.source.isInline ∧ (d.ranks < d'.ranks ∨
        d.ranks = d'.ranks ∧ d.decl.place < d'.decl.place)) := by
  have htoNat : (d.source.isInline.toNat : Int) = d'.source.isInline.toNat ↔
      d.source.isInline = d'.source.isInline := by
    cases d.source.isInline <;> cases d'.source.isInline <;> decide
  have hlt : (d.source.isInline.toNat : Int) < d'.source.isInline.toNat ↔
      d.source.isInline < d'.source.isInline := by
    cases d.source.isInline <;> cases d'.source.isInline <;> decide
  rw [Declared.precedence, Declared.precedence, append_lt_append_iff (length_level_eq _ _),
    List.cons_lt_cons_iff, append_lt_append_iff (length_ranks_eq _ _), htoNat, hlt]
  simp [List.cons_lt_cons_iff]

theorem ranks_eq {d d' : Declared} (h : d.ranks = d'.ranks) :
    d.source.keys.sheetIndex = d'.source.keys.sheetIndex ∧
      d.source.keys.sourceOrder = d'.source.keys.sourceOrder := by
  simp only [Declared.ranks, List.cons.injEq] at h
  exact ⟨h.right.right.right.right.right.left, h.right.right.right.right.right.right.left⟩

-- Apart from the style attribute, `match_cmp` follows the cascade.
theorem Tame.key_lt_iff_precedence_lt (h : Tame ms) (ha : a ∈ matchEntries ms)
    (hb : b ∈ matchEntries ms) (hp : a.decl.prop = b.decl.prop)
    (hi : a.declared.level = b.declared.level → a.source.isInline = b.source.isInline) :
    a.key < b.key ↔ a.declared.precedence < b.declared.precedence := by
  rw [key_lt_iff, precedence_lt_iff]
  refine or_congr_right (and_congr_right fun hl => ?_)
  rw [show a.declared.source.isInline = b.declared.source.isInline from hi hl]
  simp only [lt_self_iff_false, false_or, true_and]
  refine or_congr_right (and_congr_right fun hr => ?_)
  have ⟨hs, hk⟩ := ranks_eq hr
  have hstep := h.inStep ha hb hp (level_eq_iff.mp hl).right hs hk
  obtain rfl | ⟨hpl, hord⟩ | ⟨hpl, hord⟩ := hstep
  · exact iff_of_false (lt_irrefl _) (lt_irrefl _)
  · exact iff_of_true hord hpl
  · exact iff_of_false (lt_asymm hord) (lt_asymm hpl)

theorem Tame.key_lt_or_gt (h : Tame ms) (ha : a ∈ matchEntries ms) (hb : b ∈ matchEntries ms)
    (hp : a.decl.prop = b.decl.prop) (hne : a ≠ b) : a.key < b.key ∨ b.key < a.key := by
  refine lt_or_gt_of_ne fun he => ?_
  have ⟨hl, he⟩ := List.append_inj he (length_level_eq _ _)
  have ⟨hr, he⟩ := List.append_inj he (length_ranks_eq _ _)
  have ho := (List.cons.inj he).left
  have ⟨hs, hk⟩ := ranks_eq hr
  have hstep := h.inStep ha hb hp (level_eq_iff.mp hl).right hs hk
  obtain he | ⟨-, hord⟩ | ⟨-, hord⟩ := hstep
  · exact hne he
  · omega
  · omega

-- Only a rule of a sheet is at the level of the style attribute.
theorem authorRule_of_level_eq {d i : Declared} (hl : d.level = i.level)
    (hi : i.source.isInline = true) (hd : d.source.isInline = false) :
    i.source = .inlineStyle ∧ d.important = i.important ∧
      ∃ sheet keys, d.source = .authorRule sheet keys := by
  have ⟨himp, ho⟩ := level_eq_iff.mp hl
  have hsi : i.source = .inlineStyle := by
    cases hs : i.source <;> simp [hs, Source.isInline] at hi
    rfl
  refine ⟨hsi, himp, ?_⟩
  cases hs : d.source
  case uaRule => simp [hs, hsi, Source.keys, RuleKeys.sourceKeys, Origin.code] at ho
  case authorRule sheet keys => exact ⟨sheet, keys, rfl⟩
  case presentationalHints => simp [hs, hsi, Source.keys, Origin.code] at ho
  case inlineStyle => simp [hs, Source.isInline] at hd

theorem level_eq_of_authorRule {d i : Declared} {sheet : Nat} {keys : RuleKeys}
    (hi : i.source = .inlineStyle) (hd : d.source = .authorRule sheet keys)
    (himp : d.important = i.important) : d.level = i.level :=
  level_eq_iff.mpr ⟨himp, by rw [hi, hd]; rfl⟩

-- By the cascade the style attribute goes before it,
theorem precedence_lt_inline {d i : Declared} {sheet : Nat} {keys : RuleKeys}
    (hi : i.source = .inlineStyle) (hd : d.source = .authorRule sheet keys)
    (himp : d.important = i.important) : d.precedence < i.precedence := by
  refine precedence_lt_iff.mpr (.inr ⟨level_eq_of_authorRule hi hd himp, .inl ?_⟩)
  rw [hi, hd]
  exact Bool.false_lt_true

-- and by `match_cmp` unless it is overtaken.
theorem ranks_lt_iff {d i : Declared} {sheet : Nat} {keys : RuleKeys}
    (hi : i.source = .inlineStyle) (hd : d.source = .authorRule sheet keys)
    (himp : d.important = i.important) :
    (i.ranks < d.ranks ↔ if keys.layer.isSome then i.important else 1000 ≤ keys.specA) ∧
    (d.ranks < i.ranks ↔ ¬if keys.layer.isSome then i.important else 1000 ≤ keys.specA) := by
  simp only [Declared.ranks, hi, hd, himp, Source.keys, RuleKeys.sourceKeys, RuleKeys.layerOrder,
    reversed, layerNone, intMax, List.cons_lt_cons_iff]
  cases hlayer : keys.layer <;> cases himp : i.important <;> simp <;> omega

theorem key_lt_iff_overtakes (h : Overtakes a.declared b.declared) : b.key < a.key := by
  obtain ⟨hi, himp, sheet, keys, hs, ho⟩ := h
  refine key_lt_iff.mpr (.inr ⟨(level_eq_of_authorRule hi hs himp).symm, .inl ?_⟩)
  exact (ranks_lt_iff hi hs himp).left.mpr ho

theorem overtakes_of_key_lt (hl : a.declared.level = b.declared.level)
    (hb : b.source.isInline = true) (ha : a.source.isInline = false) (h : b.key < a.key) :
    Overtakes a.declared b.declared := by
  obtain ⟨hi, himp, sheet, keys, hs⟩ := authorRule_of_level_eq hl hb ha
  refine ⟨hi, himp, sheet, keys, hs, ?_⟩
  by_contra hno
  have hlt := (ranks_lt_iff hi hs himp).right.mpr hno
  have hkey : a.key < b.key := key_lt_iff.mpr (.inr ⟨hl, .inl hlt⟩)
  exact lt_asymm h hkey

end Keys

section Last

variable {ms : List Matched} {p : Nat} {e : MatchEntry}

theorem applied_sorted (ms : List Matched) : (applied ms).Pairwise (·.key ≤ ·.key) :=
  have h (a b : MatchEntry) : matchCmp a b ≤ 0 ↔ a.key < b.key := matchCmp_nonpos_iff
  gArraySort_pairwise h _

theorem getLast?_le {α : Type*} {R : α → α → Prop} {xs : List α} {x y : α} (h : xs.Pairwise R)
    (hy : xs.getLast? = some y) (hx : x ∈ xs) : x = y ∨ R x y := by
  obtain ⟨ys, rfl⟩ := List.getLast?_eq_some_iff.mp hy
  cases List.mem_append.mp hx
  case inl hx =>
    exact .inr ((List.pairwise_append.mp h).right.right x hx y (List.mem_singleton.mpr rfl))
  case inr hx => exact .inl (List.mem_singleton.mp hx)

-- The entry that is applied last is the one with the largest key.
theorem Tame.lastApplied_eq_some_iff (h : Tame ms) : lastApplied ms p = some e ↔
    e ∈ matchEntries ms ∧ e.decl.prop = p ∧
      ∀ a ∈ matchEntries ms, a.decl.prop = p → a ≠ e → a.key < e.key := by
  have hmem (a : MatchEntry) : a ∈ (applied ms).filter (·.decl.prop = p) ↔
      a ∈ matchEntries ms ∧ a.decl.prop = p := by
    simp [applied, (gArraySort_perm _ _).mem_iff]
  have hlast {e : MatchEntry} (he : lastApplied ms p = some e) : e ∈ matchEntries ms ∧
      e.decl.prop = p ∧ ∀ a ∈ matchEntries ms, a.decl.prop = p → a ≠ e → a.key < e.key := by
    have ⟨hme, hpe⟩ := (hmem e).mp (List.mem_of_getLast? he)
    refine ⟨hme, hpe, fun a ha hpa hne => ?_⟩
    have hle := (getLast?_le ((applied_sorted ms).filter _) he ((hmem a).mpr ⟨ha, hpa⟩)).resolve_left hne
    exact (h.key_lt_or_gt ha hme (hpa.trans hpe.symm) hne).resolve_right (not_lt.mpr hle)
  refine ⟨hlast, fun ⟨hme, hpe, hmax⟩ => ?_⟩
  cases hl : lastApplied ms p
  case none =>
    have hnil := List.getLast?_eq_none_iff.mp hl
    exact absurd ((hmem e).mpr ⟨hme, hpe⟩) (by simp [hnil])
  case some l =>
    have ⟨hml, hpl, hlmax⟩ := hlast hl
    by_cases hle : l = e
    case pos => rw [hle]
    case neg => exact absurd (hmax l hml hpl hle) (lt_asymm (hlmax e hme hpe (Ne.symm hle)))

end Last

section Winner

variable {ms : List Matched} {p : Nat} {d : Declared}

theorem Wins.unique {d' : Declared} (h : Wins ms p d) (h' : Wins ms p d') : d = d' := by
  by_contra hne
  exact lt_asymm (h.top d' h'.mem h'.prop (Ne.symm hne)) (h'.top d h.mem h.prop hne)

-- The declaration that is applied last wins unless a rule wrongly overtakes the style attribute.
theorem Tame.wins_of_lastApplied (h : Tame ms) (ho : Outranked ms p) {e : MatchEntry}
    (he : lastApplied ms p = some e) : Wins ms p e.declared := by
  have ⟨hm, hp, hmax⟩ := h.lastApplied_eq_some_iff.mp he
  refine ⟨mem_declarations.mpr ⟨e, hm, rfl⟩, hp, fun d hd hdp hne => ?_⟩
  obtain ⟨a, ha, rfl⟩ := mem_declarations.mp hd
  have hkey := hmax a ha hdp (fun hae => hne (hae ▸ rfl))
  by_cases hcross : a.declared.level = e.declared.level → a.source.isInline = e.source.isInline
  case pos => exact (h.key_lt_iff_precedence_lt ha hm (hdp.trans hp.symm) hcross).mp hkey
  case neg =>
    have ⟨hl, hi⟩ := Classical.not_imp.mp hcross
    cases hae : a.source.isInline
    case false =>
      have hei : e.source.isInline = true := by simpa [hae] using Ne.symm hi
      obtain ⟨hi, himp, sheet, keys, hs⟩ := authorRule_of_level_eq hl hei hae
      exact precedence_lt_inline hi hs himp
    case true =>
      have hei : e.source.isInline = false := by simpa [hae] using Ne.symm hi
      have hover := overtakes_of_key_lt hl.symm hae hei hkey
      obtain ⟨d, hd, hdp', hlt⟩ := ho _ hd hdp _ (mem_declarations.mpr ⟨e, hm, rfl⟩) hp hover
      obtain ⟨b, hb, rfl⟩ := mem_declarations.mp hd
      have hbe : e.key < b.key := key_lt_iff.mpr (.inl (hl ▸ hlt))
      have hne : b ≠ e := fun hbe' => lt_irrefl _ (hbe' ▸ hbe)
      exact absurd (hmax b hb hdp' hne) (lt_asymm hbe)

theorem Tame.outranked_of_wins (h : Tame ms)
    (hw : ∀ e, lastApplied ms p = some e → Wins ms p e.declared) : Outranked ms p := by
  intro i hi hip e he hep hover
  by_contra hno
  obtain ⟨b, hb, rfl⟩ := mem_declarations.mp he
  cases hl : lastApplied ms p
  case none =>
    have hnil := List.filter_eq_nil_iff.mp (List.getLast?_eq_none_iff.mp hl) b
      ((gArraySort_perm _ _).mem_iff.mpr hb)
    exact hnil (decide_eq_true hep)
  case some l =>
    have ⟨hml, hpl, hmax⟩ := h.lastApplied_eq_some_iff.mp hl
    have hwin := hw l hl
    have hiInline : i.source.isInline = true := by rw [hover.left]; rfl
    -- Nothing is above the level of the style attribute, so the winner belongs to it.
    have ⟨hlevel, hinline⟩ : l.declared.level = i.level ∧ l.declared.source.isInline = true := by
      by_cases hil : i = l.declared
      case pos => exact ⟨by rw [hil], by rw [← hil]; exact hiInline⟩
      case neg =>
        obtain hlt | ⟨heq, hrest⟩ := precedence_lt_iff.mp (hwin.top i hi hip hil)
        · exact absurd ⟨_, hwin.mem, hwin.prop, hlt⟩ hno
        · refine ⟨heq.symm, ?_⟩
          rw [hiInline] at hrest
          obtain hlt | ⟨heq, -⟩ := hrest
          · exact absurd hlt (by cases l.declared.source.isInline <;> decide)
          · exact heq.symm
    have hsource : l.declared.source = .inlineStyle := by
      cases hs : l.declared.source <;> simp [hs, Source.isInline] at hinline
      rfl
    have himp := (level_eq_iff.mp hlevel).left
    have hover' : Overtakes b.declared l.declared := by
      obtain ⟨-, hbi, sheet, keys, hs, ho⟩ := hover
      exact ⟨hsource, hbi.trans himp.symm, sheet, keys, hs, by rwa [himp]⟩
    have hlt := key_lt_iff_overtakes hover'
    have hne : b ≠ l := fun hbl => lt_irrefl _ (hbl ▸ hlt)
    exact lt_asymm hlt (hmax b hb hep hne)

theorem matchCmp_orders : MatchCmpOrders where
  total hne := by
    have hpos {a b : MatchEntry} (h : a.key < b.key) : matchCmp a b < 0 ∧ 0 < matchCmp b a := by
      refine ⟨matchCmp_neg_iff.mpr h, ?_⟩
      exact Int.not_le.mp (mt matchCmp_nonpos_iff.mp (lt_asymm h))
    obtain hlt | hlt := lt_or_gt_of_ne hne
    · exact .inl (hpos hlt)
    · exact .inr (hpos hlt).symm
  trans hab hbc :=
    matchCmp_neg_iff.mpr (lt_trans (matchCmp_neg_iff.mp hab) (matchCmp_neg_iff.mp hbc))

-- The cascade applies the winner of a property last exactly when whatever overtakes the style attribute
-- is outranked anyway.
theorem lastApplied_wins_iff (h : Tame ms) (p : Nat) :
    MatchCmpOrders ∧
    ((∀ d, (lastApplied ms p).map (·.declared) = some d ↔ Wins ms p d) ↔ Outranked ms p) := by
  refine ⟨matchCmp_orders, fun hw => ?_, fun ho d => ⟨fun hd => ?_, fun hd => ?_⟩⟩
  · exact h.outranked_of_wins fun e he => (hw _).mp (by rw [he]; rfl)
  · obtain ⟨e, he, rfl⟩ := Option.map_eq_some_iff.mp hd
    exact h.wins_of_lastApplied ho he
  · obtain ⟨a, ha, rfl⟩ := mem_declarations.mp hd.mem
    cases hl : lastApplied ms p
    case none =>
      have hnil := List.filter_eq_nil_iff.mp (List.getLast?_eq_none_iff.mp hl) a
        ((gArraySort_perm _ _).mem_iff.mpr ha)
      exact absurd (decide_eq_true hd.prop) hnil
    case some l => exact congrArg some ((h.wins_of_lastApplied ho hl).unique hd)

end Winner

section Examples

-- A declaration of a rule and one of the style attribute, both of the property 0.
def ruleAndStyle (keys : RuleKeys) (important : Bool) : List Matched :=
  [⟨.authorRule 0 keys, ⟨[.plain [⟨0, "red".toList, important, 0⟩]], by simp [Item.decls]⟩⟩,
    ⟨.inlineStyle, ⟨[.plain [⟨0, "blue".toList, important, 0⟩]], by simp [Item.decls]⟩⟩]

example : (lastApplied (ruleAndStyle ⟨0, 1, 0, none, 0, 0⟩ false) 0).map (·.decl.value) =
    some "blue".toList := by decide

theorem lastApplied_wins_iff_ruleAndStyle :
    MatchCmpOrders ∧
    ((∀ d, (lastApplied (ruleAndStyle ⟨0, 1, 0, none, 0, 0⟩ false) 0).map (·.declared) = some d ↔
      Wins (ruleAndStyle ⟨0, 1, 0, none, 0, 0⟩ false) 0 d) ↔
    Outranked (ruleAndStyle ⟨0, 1, 0, none, 0, 0⟩ false) 0) := by
  refine lastApplied_wins_iff ⟨?_, ?_⟩ 0
  · simp [ruleAndStyle, Matched.Apart, Source.keys, RuleKeys.sourceKeys]
  · simp only [ruleAndStyle, List.forall_mem_cons, List.not_mem_nil, false_implies, implies_true]
    exact ⟨⟨by decide, by decide, by decide⟩, ⟨by decide, by decide, by decide⟩, trivial⟩

-- An important declaration in a layer is applied after the important one of the style attribute.
theorem not_wins_of_layeredImportant :
    ¬∀ (ms : List Matched) (p : Nat) (d : Declared),
      (lastApplied ms p).map (·.declared) = some d ↔ Wins ms p d := by
  intro h
  have hw := (h (ruleAndStyle ⟨0, 1, 0, some 0, 0, 0⟩ true) 0
    ⟨.authorRule 0 ⟨0, 1, 0, some 0, 0, 0⟩, true, ⟨0, "red".toList, true, 0⟩⟩).mp (by decide)
  have hlt := hw.top ⟨.inlineStyle, true, ⟨0, "blue".toList, true, 0⟩⟩ (by decide) rfl (by decide)
  revert hlt
  decide

end Examples

end Nordstjernen.Css
