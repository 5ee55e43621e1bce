import Nordstjernen.Css.StyleShare

open Nordstjernen.Lib

namespace Nordstjernen.Css

variable {G K R : Type*} {S : Sheets G K R} {p : Pass G K R} {prev prev' : Nat → Option (Shared R)}
  {s t : State G K R} {x y : Site K R} {v w : Visit K R} {c d : Ctx K R}

-- What a context is without the share ids.
def Ctx.bare (c : Ctx K R) : Ctx K R :=
  { c with parentStyle := c.parentStyle.map fun q => ⟨q.style, 0⟩ }

-- Whether two styles may go by the same id, as parents of elements that share theirs.
def Visit.Alike (v w : Visit K R) : Prop :=
  v.shared.style = w.shared.style ∧ v.childLayoutParent = w.childLayoutParent

-- Below a style that was not kept, the parents come from a visit of the pass.
def State.Knows (s : State G K R) (c : Ctx K R) : Prop :=
  c.underDirty = true → ∃ w ∈ s.visits, w.reused = false ∧
    c.parentStyle = some w.shared ∧ c.layoutParent = w.childLayoutParent

namespace Ctx

theorem bare_parentStyle (h : c.bare = d.bare) :
    c.parentStyle.map (·.style) = d.parentStyle.map (·.style) := by
  have hp := congrArg (fun b => b.parentStyle.map (·.style)) h
  simpa [bare, Function.comp_def] using hp

end Ctx

namespace Site

theorem inputs_congr (hel : x.el = y.el) (hr : x.rootPx = y.rootPx) (hc : x.ctx.bare = y.ctx.bare) :
    x.inputs S = y.inputs S := by
  have hp := Ctx.bare_parentStyle hc
  simp only [Ctx.bare, Ctx.mk.injEq] at hc
  obtain ⟨-, hl, hv, hq, -, -, hd⟩ := hc
  simp only [inputs, gathered, hel, hr, hp, hl, hv, hq, hd]

theorem compute_congr (hel : x.el = y.el) (hr : x.rootPx = y.rootPx)
    (hc : x.ctx.bare = y.ctx.bare) : x.compute S = y.compute S := by
  rw [compute, compute, inputs_congr hel hr hc, hel]

theorem compute_eq (hi : x.inputs S = y.inputs S)
    (hn : x.el.isCheckboxOrRadio = y.el.isCheckboxOrRadio) : x.compute S = y.compute S := by
  rw [compute, compute, hi]
  simp only [stripNativeWidgetDecorations, hn]

end Site

-- The entries of a table are the styles of the elements that did not keep theirs.
structure TableFor [DecidableEq G] [DecidableEq K] (S : Sheets G K R)
    (table : List (Key G K × Shared R)) (visits : List (Visit K R)) : Prop where
  entry  : ∀ v ∈ visits, v.reused = false → table.lookup (v.site.styleShareKey S) = some v.shared
  origin : ∀ {k shared}, table.lookup k = some shared → ∃ v ∈ visits, v.HasKey S k ∧ v.shared = shared

-- What holds of the state of a walk that shares styles.
structure State.Coherent [DecidableEq G] [DecidableEq K] (S : Sheets G K R) (s : State G K R) :
    Prop where
  table    : ∃ table, s.styleShare = some table ∧ TableFor S table s.visits
  ids      : ∀ v ∈ s.visits, v.reused = false → v.shared.shareId ≤ s.nextId
  alike    : ∀ v ∈ s.visits, ∀ w ∈ s.visits, v.reused = false → w.reused = false →
    v.shared.shareId = w.shared.shareId → v.Alike w
  computed : ∀ v ∈ s.visits, v.reused = false → v.shared.style = v.site.compute S
  known    : ∀ v ∈ s.visits, s.Knows v.site.ctx

@[simp]
theorem State.insert_visits : (s.insert v).visits = v :: s.visits :=
  rfl

@[simp]
theorem State.insert_styleShare : (s.insert v).styleShare = s.styleShare :=
  rfl

theorem State.Knows.insert (h : s.Knows c) : (s.insert v).Knows c := by
  intro hd
  have ⟨w, hw, h⟩ := h hd
  exact ⟨w, List.mem_cons_of_mem _ hw, h⟩

def State.SameBelow (s : State G K R) (c d : Ctx K R) : Prop :=
  s.Knows c ∧ c.bare = d.bare

def SamePrev (prev prev' : Nat → Option (Shared R)) : Prop :=
  ∀ n, (prev n).map (·.style) = (prev' n).map (·.style)

theorem reusable_congr (hp : SamePrev prev prev') (hel : x.el = y.el)
    (hc : x.ctx.bare = y.ctx.bare) :
    (p.reusable prev x).map (·.style) = (p.reusable prev' y).map (·.style) := by
  have hd : x.ctx.underDirty = y.ctx.underDirty := congrArg (·.underDirty) hc
  rw [Pass.reusable, Pass.reusable, hel, hd]
  split
  · rfl
  · exact hp _

-- The style that an element should get.
def Pass.ownStyle (p : Pass G K R) (prev : Nat → Option (Shared R)) (x : Site K R) : NsStyle R :=
  match p.reusable prev x with
  | some kept => kept.style
  | none      => x.compute p.sheets

theorem ownStyle_congr (hp : SamePrev prev prev') (hel : x.el = y.el) (hr : x.rootPx = y.rootPx)
    (hc : x.ctx.bare = y.ctx.bare) : p.ownStyle prev x = p.ownStyle prev' y := by
  have hreuse := reusable_congr (p := p) hp hel hc
  rw [Pass.ownStyle, Pass.ownStyle]
  cases hx : p.reusable prev x <;> cases hy : p.reusable prev' y <;>
    simp only [hx, hy, Option.map_some, Option.map_none, reduceCtorEq, Option.some.injEq] at hreuse
  · exact Site.compute_congr hel hr hc
  · exact hreuse

theorem keptStyles_same {q q' : Option (Nat → Option (Shared R))} (h : Option.Rel SamePrev q q') :
    SamePrev (p.keptStyles q) (p.keptStyles q') := by
  rw [Pass.keptStyles, Pass.keptStyles]
  split
  · cases h with
    | none   => exact fun _ => rfl
    | some h => exact h
  · exact fun _ => rfl

theorem below_bare (hc : c.bare = d.bare) (node : Nat) :
    (p.below c node).bare = (p.below d node).bare := by
  simp only [Ctx.bare, Ctx.mk.injEq] at hc
  simp only [Ctx.bare, Pass.below, hc]

-- What the children of an element inherit from it but for the share ids.
theorem below_element_bare (hc : v.site.ctx.bare = w.site.ctx.bare)
    (hs : v.shared.style = w.shared.style) (hr : v.reused = w.reused) (node : Nat) :
    Ctx.bare { p.below v.site.ctx node with
      parentStyle  := some v.shared
      layoutParent := v.childLayoutParent
      underDirty   := !v.reused } =
    Ctx.bare { p.below w.site.ctx node with
      parentStyle  := some w.shared
      layoutParent := w.childLayoutParent
      underDirty   := !w.reused } := by
  simp only [Ctx.bare, Ctx.mk.injEq] at hc
  simp only [Ctx.bare, Pass.below, Visit.childLayoutParent, hc, hs, hr, Option.map_some]

theorem insert_rootPx_congr (hr : s.rootPx = t.rootPx) (hs : v.shared.style = w.shared.style) :
    (s.insert v).rootPx = (t.insert w).rootPx := by
  rw [State.insert, State.insert, hr, hs]

variable [DecidableEq G] [DecidableEq K] {table : List (Key G K × Shared R)}
  {visits : List (Visit K R)}

namespace TableFor

theorem reuse (h : TableFor S table visits) (hv : v.reused = true) :
    TableFor S table (v :: visits) where
  entry w hw hr := by
    obtain rfl | hw := List.mem_cons.mp hw
    · simp [hv] at hr
    · exact h.entry w hw hr
  origin hl := by
    have ⟨w, hw, ho⟩ := h.origin hl
    exact ⟨w, List.mem_cons_of_mem _ hw, ho⟩

theorem hit (h : TableFor S table visits)
    (hl : table.lookup (v.site.styleShareKey S) = some v.shared) : TableFor S table (v :: visits) where
  entry w hw hr := by
    obtain rfl | hw := List.mem_cons.mp hw
    · exact hl
    · exact h.entry w hw hr
  origin hl := by
    have ⟨w, hw, ho⟩ := h.origin hl
    exact ⟨w, List.mem_cons_of_mem _ hw, ho⟩

theorem miss (h : TableFor S table visits) (hv : v.reused = false)
    (hl : table.lookup (v.site.styleShareKey S) = none) :
    TableFor S ((v.site.styleShareKey S, v.shared) :: table) (v :: visits) where
  entry w hw hr := by
    obtain rfl | hw := List.mem_cons.mp hw
    · exact List.lookup_cons_self
    · have hwl := h.entry w hw hr
      have hne : w.site.styleShareKey S ≠ v.site.styleShareKey S := fun he => by simp [he, hl] at hwl
      rw [List.lookup_cons, beq_false_of_ne hne]
      exact hwl
  origin {k shared} ho := by
    by_cases hk : k = v.site.styleShareKey S
    · rw [hk, List.lookup_cons_self] at ho
      exact ⟨v, List.mem_cons_self, ⟨hv, hk.symm⟩, Option.some.inj ho⟩
    · rw [List.lookup_cons, beq_false_of_ne hk] at ho
      have ⟨w, hw, ho⟩ := h.origin ho
      exact ⟨w, List.mem_cons_of_mem _ hw, ho⟩

end TableFor

namespace State

namespace Coherent

variable (h : s.Coherent S)

include h

-- The id stands for the style of the parent and for the style around it.
theorem sameParents (hx : s.Knows x.ctx) (hok : Pass.ShareOk S s x) (hv : v ∈ s.visits)
    (hk : v.HasKey S (x.styleShareKey S)) : v.site.ctx.SameParents x.ctx := by
  cases hd : v.site.ctx.underDirty && x.ctx.underDirty
  case false => exact hok.parents v hv hk hd
  case true =>
    rw [Bool.and_eq_true] at hd
    obtain ⟨a, ha, har, hap, hal⟩ := h.known v hv hd.left
    obtain ⟨b, hb, hbr, hbp, hbl⟩ := hx hd.right
    have hid := congrArg (·.parentId) hk.right
    simp only [Site.styleShareKey, hap, hbp, Option.map_some, Option.getD_some] at hid
    have ⟨hs, hl⟩ := h.alike a ha b hb har hbr hid
    exact ⟨by simp [hap, hbp, hs], by rw [hal, hbl, hl]⟩

theorem inputs_eq (hx : s.Knows x.ctx) (hok : Pass.ShareOk S s x) (hv : v ∈ s.visits)
    (hk : v.HasKey S (x.styleShareKey S)) : v.site.inputs S = x.inputs S := by
  have ⟨hp, hl⟩ := h.sameParents hx hok hv hk
  have hkey := hk.right
  have hu := hok.unkeyed v hv hk
  simp only [Site.styleShareKey, Key.mk.injEq] at hkey
  simp only [Site.unkeyed, Unkeyed.mk.injEq] at hu
  simp only [Site.inputs, hkey.right.left, hkey.right.right.right, hp, hl, hu]

theorem compute_eq (hx : s.Knows x.ctx) (hok : Pass.ShareOk S s x) (hv : v ∈ s.visits)
    (hk : v.HasKey S (x.styleShareKey S)) : v.site.compute S = x.compute S :=
  Site.compute_eq (h.inputs_eq hx hok hv hk) (congrArg (·.nativeWidget) (hok.unkeyed v hv hk))

-- The conditions on what a visit adds, the table apart.
theorem insert {t : State G K R} (hv : t.visits = s.visits) (hn : s.nextId ≤ t.nextId)
    (ht : ∃ table, t.styleShare = some table ∧ TableFor S table (v :: s.visits))
    (hi : v.reused = false → v.shared.shareId ≤ t.nextId)
    (ha : v.reused = false → ∀ w ∈ s.visits, w.reused = false →
      w.shared.shareId = v.shared.shareId → w.Alike v)
    (hc : v.reused = false → v.shared.style = v.site.compute S) (hk : s.Knows v.site.ctx) :
    (t.insert v).Coherent S where
  table    := by simpa [hv] using ht
  ids      := by
    simp only [insert_visits, hv]
    exact List.forall_mem_cons.mpr ⟨hi, fun w hw hr => (h.ids w hw hr).trans hn⟩
  alike    := by
    simp only [insert_visits, hv, List.forall_mem_cons]
    refine ⟨⟨fun _ _ _ => ⟨rfl, rfl⟩, fun w hw hr hwr he => ?_⟩,
      fun w hw => ⟨fun hwr hr => ha hr w hw hwr, h.alike w hw⟩⟩
    have ⟨hs, hl⟩ := ha hr w hw hwr he.symm
    exact ⟨hs.symm, hl.symm⟩
  computed := by
    simp only [insert_visits, hv]
    exact List.forall_mem_cons.mpr ⟨hc, h.computed⟩
  known    := by
    have hkn {c : Ctx K R} (hk : s.Knows c) : (t.insert v).Knows c := by
      simpa [Knows, hv] using hk.insert (v := v)
    simp only [insert_visits, hv]
    exact List.forall_mem_cons.mpr ⟨hkn hk, fun w hw => hkn (h.known w hw)⟩

end Coherent

end State

section Element

theorem share_coherent (h : s.Coherent S) (hx : s.Knows x.ctx) (hok : Pass.ShareOk S s x) :
    (s.share S x).1.style = x.compute S ∧
    ((s.share S x).2.insert ⟨x, false, (s.share S x).1⟩).Coherent S := by
  obtain ⟨table, hs, ht⟩ := h.table
  cases hl : table.lookup (x.styleShareKey S)
  case some shared =>
    have ⟨v, hv, hkey, hvs⟩ := ht.origin hl
    have hstyle : shared.style = x.compute S := by
      rw [← hvs, h.computed v hv hkey.left, h.compute_eq hx hok hv hkey]
    have hshare : s.share S x = (shared, s) := by simp only [State.share, hs, hl]
    rw [hshare]
    refine ⟨hstyle, h.insert rfl le_rfl ⟨table, hs, ht.hit hl⟩ ?_ ?_ (fun _ => hstyle) hx⟩
    · exact fun _ => hvs ▸ h.ids v hv hkey.left
    · intro _ w hw hwr hid
      have ⟨hws, hwl⟩ := h.alike w hw v hv hwr hkey.left (hid.trans (congrArg (·.shareId) hvs.symm))
      have ⟨_, hlp⟩ := h.sameParents hx hok hv hkey
      have hvl : v.childLayoutParent = (⟨x, false, shared⟩ : Visit K R).childLayoutParent := by
        simp [Visit.childLayoutParent, hvs, hlp]
      exact ⟨hws.trans (congrArg (·.style) hvs), hwl.trans hvl⟩
  case none =>
    have hid : s.newId = s.nextId + 1 := Nat.mod_eq_of_lt hok.fresh
    have hshare : s.share S x = (⟨x.compute S, s.newId⟩, { s with
        styleShare := some ((x.styleShareKey S, ⟨x.compute S, s.newId⟩) :: table)
        nextId     := s.newId }) := by
      simp only [State.share, hs, hl]
    rw [hshare]
    refine ⟨rfl, h.insert rfl (by simp [hid]) ⟨_, rfl, ?_⟩ (fun _ => le_rfl) ?_ (fun _ => rfl) hx⟩
    · exact ht.miss (v := ⟨x, false, ⟨x.compute S, s.newId⟩⟩) rfl hl
    · intro _ w hw hwr he
      have hle := h.ids w hw hwr
      simp only [hid] at he
      omega

theorem cascadeElement_coherent (h : s.Coherent p.sheets) (hx : s.Knows x.ctx)
    (hok : p.reusable prev x = none → Pass.ShareOk p.sheets s x) :
    (p.cascadeElement prev s x).1.shared.style = p.ownStyle prev x ∧
    ((p.cascadeElement prev s x).2.insert (p.cascadeElement prev s x).1).Coherent p.sheets := by
  rw [Pass.ownStyle, Pass.cascadeElement]
  cases hr : p.reusable prev x
  case some kept =>
    obtain ⟨table, hs, ht⟩ := h.table
    exact ⟨rfl, h.insert rfl le_rfl ⟨table, hs, ht.reuse rfl⟩ nofun nofun nofun hx⟩
  case none => exact share_coherent h hx (hok hr)

-- Without a table an element just gets its style.
theorem cascadeElement_plain (ht : t.styleShare = none) :
    (p.cascadeElement prev t x).1.shared.style = p.ownStyle prev x ∧
    (p.cascadeElement prev t x).2 = t := by
  rw [Pass.ownStyle, Pass.cascadeElement]
  cases p.reusable prev x <;> simp [State.share, ht]

theorem cascadeElement_site : (p.cascadeElement prev s x).1.site = x := by
  rw [Pass.cascadeElement]
  split <;> rfl

theorem cascadeElement_reused :
    (p.cascadeElement prev s x).1.reused = (p.reusable prev x).isSome := by
  rw [Pass.cascadeElement]
  split <;> simp_all

theorem cascadeElement_visits : (p.cascadeElement prev s x).2.visits = s.visits := by
  rw [Pass.cascadeElement, State.share]
  repeat' split
  all_goals rfl

theorem cascadeElement_rootPx : (p.cascadeElement prev s x).2.rootPx = s.rootPx := by
  rw [Pass.cascadeElement, State.share]
  repeat' split
  all_goals rfl

end Element

section Walk

-- A state of the walk that shares styles and one of the walk that does not.
structure State.Related (S : Sheets G K R) (s t : State G K R) : Prop where
  coherent : s.Coherent S
  plain    : t.styleShare = none
  rootPx   : s.rootPx = t.rootPx
  styles   : s.styles = t.styles

namespace State.Related

theorem insert (h : State.Related S s t) {s' t' : State G K R} (hs : (s'.insert v).Coherent S)
    (hsv : s'.visits = s.visits) (hsr : s'.rootPx = s.rootPx) (ht : t' = t)
    (hv : v.shared.style = w.shared.style) (hn : v.site.el = w.site.el) :
    State.Related S (s'.insert v) (t'.insert w) where
  coherent := hs
  plain    := by simpa [ht] using h.plain
  rootPx   := insert_rootPx_congr (by rw [hsr, ht, h.rootPx]) hv
  styles   := by
    have hst := h.styles
    simp only [State.styles] at hst
    simp [State.styles, hsv, ht, hv, hn, hst]

theorem lookup (h : State.Related S s t) : SamePrev s.lookup t.lookup := by
  have hl (u : State G K R) (n : Nat) :
      (u.lookup n).map (·.style) = (u.styles.find? (·.1 = n)).map (·.2) := by
    simp [State.lookup, State.styles, List.find?_map, Function.comp_def]
  intro n
  rw [hl, hl, h.styles]

end State.Related

theorem cascadeVisit_of_deep {n : DomNode} (h : maxCascadeDepth ≤ c.depth) :
    p.cascadeVisit prev c s n = (none, s) :=
  if_pos h

theorem cascadeVisit_element {el : Element} (h : ¬maxCascadeDepth ≤ c.depth) :
    p.cascadeVisit prev c s (.element el) =
      (some { p.below c el.node with
          parentStyle  := some (p.cascadeElement prev s ⟨el, c, s.rootPx⟩).1.shared
          layoutParent := (p.cascadeElement prev s ⟨el, c, s.rootPx⟩).1.childLayoutParent
          underDirty   := !(p.cascadeElement prev s ⟨el, c, s.rootPx⟩).1.reused },
        (p.cascadeElement prev s ⟨el, c, s.rootPx⟩).2.insert
          (p.cascadeElement prev s ⟨el, c, s.rootPx⟩).1) :=
  if_neg h

theorem cascadeVisit_document {node : Nat} {frame : Option (ℚ × ℚ)}
    (h : ¬maxCascadeDepth ≤ c.depth) :
    p.cascadeVisit prev c s (.document node frame) =
      (some { p.below c node with
          viewport := Pass.frameViewport c.viewport frame, inDocument := true }, s) :=
  if_neg h

theorem cascadeVisit_other {node : Nat} (h : ¬maxCascadeDepth ≤ c.depth) :
    p.cascadeVisit prev c s (.other node) = (some (p.below c node), s) :=
  if_neg h

-- Each visit keeps the two walks related, an element as `cascadeElement_coherent` says.
theorem visitsRelate (hp : SamePrev prev prev') :
    Forest.VisitsRelate (p.OnShares prev (Pass.ShareOk p.sheets)) (p.cascadeVisit prev)
      (p.cascadeVisit prev') (State.Related p.sheets) State.SameBelow := by
  have hdepth {c d : Ctx K R} (hc : c.bare = d.bare) : c.depth = d.depth :=
    congrArg (·.depth) hc
  have helement {c d : Ctx K R} {s t : State G K R} {el : Element} (hs : State.Related p.sheets s t)
      (hx : s.SameBelow c d)
      (hok : p.reusable prev ⟨el, c, s.rootPx⟩ = none → Pass.ShareOk p.sheets s ⟨el, c, s.rootPx⟩) :
      (p.cascadeElement prev s ⟨el, c, s.rootPx⟩).1.shared.style =
        (p.cascadeElement prev' t ⟨el, d, t.rootPx⟩).1.shared.style := by
    have hown := ownStyle_congr (p := p) (x := ⟨el, c, s.rootPx⟩) (y := ⟨el, d, t.rootPx⟩) hp rfl
      hs.rootPx hx.right
    rw [(cascadeElement_coherent hs.coherent hx.left hok).left, hown,
      (cascadeElement_plain hs.plain).left]
  constructor
  case state =>
    intro c d s t n hs hx hok
    have hcd := hdepth hx.right
    by_cases hc : maxCascadeDepth ≤ c.depth
    · rwa [cascadeVisit_of_deep hc, cascadeVisit_of_deep (hcd ▸ hc)]
    · cases n with
      | document node frame =>
        rwa [cascadeVisit_document hc, cascadeVisit_document (hcd ▸ hc)]
      | other node =>
        rwa [cascadeVisit_other hc, cascadeVisit_other (hcd ▸ hc)]
      | element el =>
        have hok := hok (Nat.lt_of_not_le hc)
        have ⟨_, hcoh⟩ := cascadeElement_coherent hs.coherent hx.left hok
        rw [cascadeVisit_element hc, cascadeVisit_element (hcd ▸ hc)]
        exact hs.insert hcoh cascadeElement_visits cascadeElement_rootPx
          (cascadeElement_plain hs.plain).right (helement hs hx hok)
          (by rw [cascadeElement_site, cascadeElement_site])
  case below =>
    intro c d s t n hs hx hok
    have hcd := hdepth hx.right
    have hbelow (node : Nat) : (p.below c node).bare = (p.below d node).bare :=
      below_bare hx.right node
    by_cases hc : maxCascadeDepth ≤ c.depth
    · rw [cascadeVisit_of_deep hc, cascadeVisit_of_deep (hcd ▸ hc)]
      exact .none
    · cases n with
      | document node frame =>
        rw [cascadeVisit_document hc, cascadeVisit_document (hcd ▸ hc)]
        have hv : c.viewport = d.viewport := congrArg (·.viewport) hx.right
        refine .some ⟨hx.left, ?_⟩
        have hb := hbelow node
        simp only [Ctx.bare, Ctx.mk.injEq] at hb ⊢
        simp only [hb, hv, and_self]
      | other node =>
        rw [cascadeVisit_other hc, cascadeVisit_other (hcd ▸ hc)]
        exact .some ⟨hx.left, hbelow node⟩
      | element el =>
        rw [cascadeVisit_element hc, cascadeVisit_element (hcd ▸ hc)]
        refine .some ⟨fun hd => ⟨_, List.mem_cons_self, by simpa using hd, rfl, rfl⟩, ?_⟩
        have hb := below_element_bare (p := p)
          (v := (p.cascadeElement prev s ⟨el, c, s.rootPx⟩).1)
          (w := (p.cascadeElement prev' t ⟨el, d, t.rootPx⟩).1)
        simp only [cascadeElement_site, cascadeElement_reused] at hb ⊢
        refine hb hx.right (helement hs hx (hok (Nat.lt_of_not_le hc))) ?_ el.node
        have hr := congrArg Option.isSome
          (reusable_congr (p := p) (x := ⟨el, c, s.rootPx⟩) (y := ⟨el, d, t.rootPx⟩) hp rfl hx.right)
        simpa using hr
  case keeps =>
    intro c d s t n c' d' hs hx hok hx'
    by_cases hc : maxCascadeDepth ≤ c.depth
    · rwa [cascadeVisit_of_deep hc]
    · cases n with
      | document node frame => rwa [cascadeVisit_document hc]
      | other node          => rwa [cascadeVisit_other hc]
      | element el          =>
        rw [cascadeVisit_element hc]
        refine ⟨?_, hx'.right⟩
        have hk := hx'.left.insert (v := (p.cascadeElement prev s ⟨el, c, s.rootPx⟩).1)
        simpa [State.Knows, cascadeElement_visits] using hk

end Walk

section Passes

variable {q q' : Option (Nat → Option (Shared R))} {ps : List (Pass G K R)}

theorem start_related : State.Related S (Pass.start (R := R) true) (Pass.start false) where
  coherent := {
    table    := ⟨[], rfl, by simp [Pass.start], by simp⟩
    ids      := by simp [Pass.start]
    alike    := by simp [Pass.start]
    computed := by simp [Pass.start]
    known    := by simp [Pass.start]
  }
  plain    := rfl
  rootPx   := rfl
  styles   := rfl

theorem nsCssCompute_related (h : Option.Rel SamePrev q q') 
    (hok : p.SharesMeet (Pass.ShareOk p.sheets) q) :
    State.Related p.sheets (p.nsCssCompute true q) (p.nsCssCompute false q') :=
  have hx : (Pass.start (R := R) true : State G K R).SameBelow p.ctx p.ctx :=
    ⟨by simp [State.Knows, Pass.ctx], rfl⟩
  (visitsRelate (keptStyles_same h)).walk start_related hx hok |>.left

theorem nextPrev_same (h : Option.Rel SamePrev q q') (hs : State.Related S s t) :
    Option.Rel SamePrev (p.nextPrev q s) (p.nextPrev q' t) := by
  rw [Pass.nextPrev, Pass.nextPrev]
  split
  · exact .some hs.lookup
  · split
    · exact .none
    · exact h

theorem passStates_styles (h : Option.Rel SamePrev q q') (hok : PassesOk q ps) :
    (passStates true q ps).map (·.styles) = (passStates false q' ps).map (·.styles) := by
  induction ps generalizing q q'
  case nil => rfl
  case cons p ps hi =>
    have hs := nsCssCompute_related h hok.left
    simp only [passStates, List.map_cons, hs.styles, hi (nextPrev_same h hs) hok.right]

-- The states of a session are those of walks that share styles.
theorem passStates_coherent (h : Option.Rel SamePrev q q') (hok : PassesOk q ps) :
    ∀ r ∈ ps.zip (passStates true q ps), r.2.Coherent r.1.sheets := by
  induction ps generalizing q q'
  case nil => nofun
  case cons p ps hi =>
    have hs := nsCssCompute_related h hok.left
    rw [passStates, List.zip_cons_cons, List.forall_mem_cons]
    exact ⟨hs.coherent, hi (nextPrev_same h hs) hok.right⟩

theorem State.Coherent.compute_eq_of_hasKey (h : s.Coherent S) (hv : v ∈ s.visits)
    (hw : w ∈ s.visits) (hr : v.reused = false) (hk : w.HasKey S (v.site.styleShareKey S)) :
    v.site.compute S = w.site.compute S := by
  obtain ⟨table, -, ht⟩ := h.table
  have hvw := ht.entry w hw hk.left
  rw [hk.right, ht.entry v hv hr] at hvw
  rw [← h.computed v hv hr, ← h.computed w hw hk.left, Option.some.inj hvw]

-- Sharing is transparent in every session whose visits all meet the condition.
theorem transparent_of_passesOk (h : PassesOk none ps) : Transparent ps where
  styles             := passStates_styles .none h
  sameKey r hr _ hv _ hw :=
    (passStates_coherent .none h r hr).compute_eq_of_hasKey hv hw

end Passes

section Clear

-- A condition that can be evaluated: no element shares its style with another one below a kept style.
def Pass.ShareClear (S : Sheets G K R) (s : State G K R) (x : Site K R) : Prop :=
  s.nextId + 1 < 2 ^ 32 ∧ ∀ v ∈ s.visits, v.HasKey S (x.styleShareKey S) →
    v.site.unkeyed = x.unkeyed ∧ (v.site.ctx.underDirty && x.ctx.underDirty) = true

omit [DecidableEq G] [DecidableEq K] in
theorem Pass.ShareClear.ok (h : Pass.ShareClear S s x) : Pass.ShareOk S s x where
  unkeyed v hv hk    := (h.right v hv hk).left
  parents v hv hk hd := by simp [(h.right v hv hk).right] at hd
  fresh              := h.left

theorem Pass.SharesMeet.of_clear {q : Option (Nat → Option (Shared R))}
    (h : p.SharesMeet (Pass.ShareClear p.sheets) q) : p.SharesMeet (Pass.ShareOk p.sheets) q := by
  refine Forest.VisitsMeet.mono (fun {c s n} hn => ?_) h
  cases n with
  | element el => exact fun hd hr => (hn hd hr).ok
  | _          => trivial

instance {S : Sheets G K R} {s : State G K R} {x : Site K R} : Decidable (Pass.ShareClear S s x) :=
  inferInstanceAs (Decidable (_ ∧ _))

instance {C : State G K R → Site K R → Prop} [∀ s x, Decidable (C s x)] {n : DomNode} :
    Decidable (p.OnShares prev C c s n) :=
  match n with
  | .element _    => inferInstanceAs (Decidable (_ → _))
  | .document _ _ => isTrue trivial
  | .other _      => isTrue trivial

instance {C : State G K R → Site K R → Prop} [∀ s x, Decidable (C s x)]
    {q : Option (Nat → Option (Shared R))} : Decidable (p.SharesMeet C q) :=
  inferInstanceAs (Decidable (Forest.VisitsMeet _ _ _ _ _))

end Clear

section Examples

-- What the sheet of the user agent says about `input`.
def inputValues : NsCssProp → Option NsCssValue
  | .fontSize => some (.lengthPx 16)
  | .paddingTop | .paddingBottom => some (.lengthPx 1)
  | .paddingRight | .paddingLeft => some (.lengthPx 2)
  | .backgroundColor => some (.other "#ffffff".toList)
  | .borderTopWidth | .borderRightWidth | .borderBottomWidth | .borderLeftWidth =>
    some (.lengthPx 2)
  | .borderTopStyle | .borderRightStyle | .borderBottomStyle | .borderLeftStyle =>
    some (.keyword "inset".toList)
  | .borderTopColor | .borderRightColor | .borderBottomColor | .borderLeftColor =>
    some (.other "#767676".toList)
  | _ => none

-- The sheet matches the nodes from 3 on, with the same rules.
def inputSheets : Sheets Bool Unit Unit where
  gather node _ _    := decide (3 ≤ node)
  needContainer _    := false
  cascadeFor i       :=
    { values p := if i.gathered ∨ p = .fontSize then inputValues p else none
      display  := .normal
      rest     := () }
  pseudoElements _ s := s

-- A document with two inputs, the second of which is marked.
def inputPass (first second : String) : Pass Bool Unit Unit where
  doc       :=
    let input (node : Nat) (type : String) : DomNode :=
      .element ⟨node, "input".toList, some type.toList⟩
    .node (.document 0 none) (.node (.element ⟨1, "html".toList, none⟩)
      (.node (.element ⟨2, "body".toList, none⟩)
        (.node (input 3 first) .nil (.node (input 4 second) .nil .nil)) .nil) .nil) .nil
  sheets    := inputSheets
  viewport  := (800, 600)
  cqMap     := none
  dirty n   := n = 4
  usable    := true
  unchanged := true

def borders (s : State Bool Unit Unit) : List (Nat × Option NsCssValue) :=
  s.styles.map fun q => (q.1, q.2.values .borderTopWidth)

example : borders ((inputPass "submit" "checkbox").nsCssCompute false none) =
    [(4, none), (3, some (.lengthPx 2)), (2, none), (1, none)] := by decide +kernel

-- Two buttons share a style; then the second one is computed again, and the others keep theirs.
theorem transparent_of_passesOk_buttons :
    Transparent [inputPass "submit" "button", inputPass "submit" "button"] :=
  transparent_of_passesOk
    ⟨.of_clear (by decide +kernel), .of_clear (by decide +kernel), trivial⟩

-- A checkbox gets the style of the button in front of it.
theorem not_transparent_of_checkbox : ¬∀ ps : List (Pass Bool Unit Unit), Transparent ps := by
  intro h
  have hs := (h [inputPass "submit" "checkbox"]).styles
  have hb : borders ((inputPass "submit" "checkbox").nsCssCompute true none) =
      borders ((inputPass "submit" "checkbox").nsCssCompute false none) := by
    simp only [passStates, List.map_cons, List.map_nil, List.cons.injEq, and_true] at hs
    rw [borders, borders, hs]
  revert hb
  decide +kernel

end Examples

end Nordstjernen.Css
