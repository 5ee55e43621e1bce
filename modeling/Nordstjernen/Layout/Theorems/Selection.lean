import Nordstjernen.Layout.Selection

open Nordstjernen.Glib Nordstjernen.Lib

namespace Nordstjernen.Layout

section Walk

variable {σ : Type} {cb : σ → Placed → σ} {s : σ} {parents : List Box} {f : Forest Box}

theorem walk_eq_foldl :
    f.walk (fun parents s b => (some (b :: parents), if b.isInline then cb s ⟨b, parents⟩ else s)) parents s =
      (BoxTree.inlineBoxes parents f).foldl cb s := by
  induction f generalizing parents s
  case nil => rfl
  case node b kids sibs hk hs =>
    rw [Forest.walk, BoxTree.inlineBoxes]
    dsimp only
    rw [hk, hs, List.foldl_append, List.foldl_append]
    split <;> rfl

theorem walkInlinePre_eq (t : BoxTree) : walkInlinePre t cb s = t.inlines.foldl cb s :=
  walk_eq_foldl

theorem inlineBoxes_sublist : ((BoxTree.inlineBoxes parents f).map (·.box)).Sublist f.labels := by
  induction f generalizing parents
  case nil => exact List.Sublist.slnil
  case node b kids sibs hk hs =>
    rw [BoxTree.inlineBoxes, Forest.labels, List.map_append, List.map_append, List.append_assoc]
    have hrow := (@hk (b :: parents)).append (@hs parents)
    split
    case isTrue  => exact hrow.cons_cons b
    case isFalse => exact hrow.cons b

theorem BoxTree.nodup_inlines (t : BoxTree) : (t.inlines.map (·.box.id)).Nodup := by
  have hs : (t.inlines.map (·.box)).Sublist (Forest.node t.root t.kids .nil).labels := inlineBoxes_sublist
  have hi := (hs.map Box.id).nodup t.distinct
  rwa [List.map_map] at hi

end Walk

section Order

variable {a b : Option Nat} {ctx : FoundEndpoints} {p : Placed} {ps : List Placed} {t : BoxTree} {sel : Selection}

theorem findEndpointsCb_comm : findEndpointsCb a b = findEndpointsCb b a := by
  funext ctx p
  simp only [findEndpointsCb, or_comm (a := some p.box.id = a), eq_comm (a := a) (b := b)]

theorem first_of_seen (h : ctx.seen ≠ 0) : (ps.foldl (findEndpointsCb a b) ctx).first = ctx.first := by
  induction ps generalizing ctx
  case nil => rfl
  case cons p ps hi =>
    have hstep : (findEndpointsCb a b ctx p).first = ctx.first ∧ (findEndpointsCb a b ctx p).seen ≠ 0 := by
      rw [findEndpointsCb]
      split
      case isTrue h₂ => exact ⟨rfl, h⟩
      case isFalse =>
        split
        case isTrue  => exact ⟨rfl, by simp⟩
        case isFalse => exact ⟨rfl, h⟩
    rw [List.foldl_cons, hi hstep.right, hstep.left]

-- The first box that is one of the endpoints.
theorem first_eq : (ps.foldl (findEndpointsCb a b) {}).first =
    (ps.find? fun p => some p.box.id = a ∨ some p.box.id = b).map (·.box.id) := by
  induction ps
  case nil => rfl
  case cons p ps hi =>
    rw [List.foldl_cons, List.find?_cons]
    by_cases hp : some p.box.id = a ∨ some p.box.id = b
    case pos =>
      rw [decide_eq_true hp, first_of_seen]
      · simp only [findEndpointsCb, hp, if_true]
        split <;> [exact absurd ‹_› (by decide); skip]
        split <;> rfl
      · simp only [findEndpointsCb, hp, if_true]
        split <;> [exact absurd ‹_› (by decide); skip]
        split <;> simp
    case neg =>
      have hstep : findEndpointsCb a b {} p = {} := by
        simp only [findEndpointsCb, hp, if_false]
        split <;> rfl
      rw [decide_eq_false hp, hstep, hi]

theorem hasRange_swap : sel.swap.hasRange = sel.hasRange := by
  simp only [Selection.hasRange, Selection.swap, ne_comm (a := sel.focus)]
  cases sel.active <;> cases sel.anchor.box.isSome <;> cases sel.focus.box.isSome <;> rfl

-- The order of the endpoints is that of the text, unless none of them is in the tree.
theorem orderEndpoints_swap : orderEndpoints t sel.swap = orderEndpoints t sel ∨
    ∀ p ∈ t.inlines, some p.box.id ≠ sel.anchor.box ∧ some p.box.id ≠ sel.focus.box := by
  obtain ⟨a, f, active⟩ := sel
  change orderEndpoints t ⟨f, a, active⟩ = orderEndpoints t ⟨a, f, active⟩ ∨ _
  unfold orderEndpoints
  dsimp only
  by_cases hb : a.box = f.box
  case pos =>
    left
    rw [if_pos hb, if_pos hb.symm]
    rcases Nat.lt_trichotomy a.byte f.byte with hlt | heq | hlt
    · rw [if_neg (Nat.not_le.mpr hlt), if_pos (Nat.le_of_lt hlt)]
    · have he : a = f := by
        cases a
        cases f
        cases hb
        cases heq
        rfl
      rw [if_pos (Nat.le_of_eq heq.symm), if_pos (Nat.le_of_eq heq), he]
    · rw [if_pos (Nat.le_of_lt hlt), if_neg (Nat.not_le.mpr hlt)]
  case neg =>
    have hfirst := @first_eq a.box f.box t.inlines
    rw [← walkInlinePre_eq] at hfirst
    have hswap := hfirst
    rw [findEndpointsCb_comm] at hswap
    rw [if_neg hb, if_neg (Ne.symm hb)]
    cases hf : t.inlines.find? fun p => some p.box.id = a.box ∨ some p.box.id = f.box
    case none =>
      right
      intro p hp
      have hn := List.find?_eq_none.mp hf p hp
      exact not_or.mp fun h => hn (decide_eq_true h)
    case some p =>
      left
      rw [hf, Option.map_some] at hfirst hswap
      have hp : some p.box.id = a.box ∨ some p.box.id = f.box :=
        of_decide_eq_true
          (List.find?_some (p := fun p : Placed => some p.box.id = a.box ∨ some p.box.id = f.box) hf)
      rcases hp with hp | hp
      · rw [if_pos (hfirst.trans hp), if_neg fun h => hb (hp.symm.trans (hswap.symm.trans h))]
      · rw [if_neg fun h => hb ((hfirst.symm.trans h).symm.trans hp), if_pos (hswap.trans hp)]

theorem orderEndpoints_or : orderEndpoints t sel = (sel.anchor, sel.focus) ∨
    orderEndpoints t sel = (sel.focus, sel.anchor) := by
  rw [orderEndpoints]
  split <;> split <;> simp

end Order

section Lookup

variable {α β κ : Type} [DecidableEq κ] {key : α → κ} {xs : List α} {rs : List (α × β)}

-- What is looked up along a list, if it was put in for some of its elements in their order.
theorem filterMap_lookup (hx : (xs.map key).Nodup) (hs : (rs.map Prod.fst).Sublist xs) :
    xs.filterMap (fun x => ((rs.map fun r => (key r.1, r.2)).lookup (key x)).map (x, ·)) = rs := by
  induction xs generalizing rs
  case nil =>
    have hn : rs = [] := List.map_eq_nil_iff.mp (List.sublist_nil.mp hs)
    rw [hn]
    rfl
  case cons x xs hi =>
    rw [List.map_cons, List.nodup_cons] at hx
    cases rs
    case nil => exact List.filterMap_eq_nil_iff.mpr fun _ _ => rfl
    case cons r rs =>
      rw [List.map_cons] at hs
      by_cases hr : r.1 = x
      case pos =>
        subst hr
        have htail := hi hx.right (List.cons_sublist_cons.mp hs)
        have hne : ∀ y ∈ xs, (((r :: rs).map fun r => (key r.1, r.2)).lookup (key y)).map (y, ·) =
            ((rs.map fun r => (key r.1, r.2)).lookup (key y)).map (y, ·) := by
          intro y hy
          have hk : key y ≠ key r.1 := fun he => hx.left (he ▸ List.mem_map_of_mem hy)
          rw [List.map_cons, List.lookup_cons, beq_eq_false_iff_ne.mpr hk]
        rw [List.filterMap_cons, List.filterMap_congr hne, htail, List.map_cons, List.lookup_cons,
          beq_self_eq_true]
        rfl
      case neg =>
        have hs' : ((r :: rs).map Prod.fst).Sublist xs := List.Sublist.of_cons_of_ne hr hs
        have hn : ((r :: rs).map fun r => (key r.1, r.2)).lookup (key x) = none := by
          refine List.lookup_eq_none_iff.mpr fun q hq => bne_iff_ne.mpr fun he => ?_
          obtain ⟨r', hr', rfl⟩ := List.mem_map.mp hq
          exact hx.left (he ▸ List.mem_map_of_mem (hs'.subset (List.mem_map_of_mem hr')))
        rw [List.filterMap_cons, hn]
        exact hi hx.right hs'

end Lookup

section Selected

-- The range between two bytes of a box, if there is something in it.
def clip (p : Placed) (start stop : Nat) : List (Placed × Run) :=
  if p.userSelectable ∧ min start p.text.length < min stop p.text.length then
    [(p, ⟨min start p.text.length, min stop p.text.length⟩)]
  else []

-- What is between two endpoints.
def selected (first last : Endpoint) : Progress → List Placed → List (Placed × Run)
  | .behind, _       => []
  | _,       []      => []
  | .before, p :: ps =>
    if some p.box.id = first.box then
      if first.box = last.box then clip p first.byte last.byte
      else clip p first.byte p.text.length ++ selected first last .inside ps
    else selected first last .before ps
  | .inside, p :: ps =>
    if some p.box.id = last.box then clip p 0 last.byte
    else clip p 0 p.text.length ++ selected first last .inside ps

variable {first last : Endpoint} {p : Placed} {ps : List Placed} {table : RunTable} {start stop : Nat}
  {state : Progress}

def entry (r : Placed × Run) : Nat × Run :=
  (r.1.box.id, r.2)

theorem selected_behind : selected first last .behind ps = [] := by
  rw [selected]

theorem clip_sublist : ((clip p start stop).map Prod.fst).Sublist [p] := by
  rw [clip]
  split
  case isTrue  => exact List.Sublist.refl _
  case isFalse => exact List.nil_sublist _

theorem selected_sublist : ((selected first last state ps).map Prod.fst).Sublist ps := by
  induction ps generalizing state
  case nil => cases state <;> exact List.Sublist.slnil
  case cons p ps hi =>
    have hone {i j : Nat} : ((clip p i j).map Prod.fst).Sublist (p :: ps) :=
      clip_sublist.trans (List.singleton_sublist.mpr List.mem_cons_self)
    have hmore {i j : Nat} :
        ((clip p i j ++ selected first last .inside ps).map Prod.fst).Sublist (p :: ps) := by
      rw [List.map_append]
      exact clip_sublist.append hi
    cases state
    case behind => exact List.nil_sublist _
    case before =>
      rw [selected]
      split_ifs
      · exact hone
      · exact hmore
      · exact hi.cons p
    case inside =>
      rw [selected]
      split_ifs
      · exact hone
      · exact hmore

theorem rangesRecord_eq (h : ∀ r ∈ table, r.1 ≠ p.box.id) :
    rangesRecord table p start stop = table ++ (clip p start stop).map entry := by
  rw [rangesRecord, clip]
  cases ht : p.box.text
  case none =>
    have hl : p.text = [] := by rw [Placed.text, ht]; rfl
    simp [hl]
  case some text =>
    have hl : p.text = text := by rw [Placed.text, ht]; rfl
    have hf : table.filter (·.1 ≠ p.box.id) = table :=
      List.filter_eq_self.mpr fun r hr => by simpa using h r hr
    rw [hl]
    cases hu : p.userSelectable
    case false => simp
    case true =>
      by_cases hlt : min start text.length < min stop text.length
      case pos =>
        simp only [hlt, Nat.not_le.mpr hlt, RunTable.insert, hf, entry, Bool.not_true, Bool.false_eq_true,
          and_self, if_true, if_false, List.map_cons, List.map_nil]
      case neg => simp [hlt, Nat.not_lt.mp hlt]

-- What the walk over the ranges adds to a table.
theorem table_rangesWalkCb (hn : (ps.map (·.box.id)).Nodup) (ht : ∀ r ∈ table, ∀ p ∈ ps, r.1 ≠ p.box.id)
    (hs : state = .inside → first.box ≠ last.box) :
    (ps.foldl (rangesWalkCb first last) ⟨table, state⟩).table =
      table ++ (selected first last state ps).map entry := by
  induction ps generalizing table state
  case nil => cases state <;> simp [selected]
  case cons p ps hi =>
    rw [List.map_cons, List.nodup_cons] at hn
    have hp : ∀ r ∈ table, r.1 ≠ p.box.id := fun r hr => ht r hr p List.mem_cons_self
    have htail : ∀ r ∈ table, ∀ q ∈ ps, r.1 ≠ q.box.id := fun r hr q hq => ht r hr q (List.mem_cons_of_mem _ hq)
    have hclip {i j : Nat} : ∀ r ∈ table ++ (clip p i j).map entry, ∀ q ∈ ps, r.1 ≠ q.box.id := by
      intro r hr q hq
      cases List.mem_append.mp hr
      case inl hr => exact htail r hr q hq
      case inr hr =>
        obtain ⟨c, hc, rfl⟩ := List.mem_map.mp hr
        have he : c.1 = p := List.mem_singleton.mp (clip_sublist.subset (List.mem_map_of_mem hc))
        dsimp only [entry]
        rw [he]
        exact fun hpq => hn.left (hpq ▸ List.mem_map_of_mem hq)
    have hout {state : Progress} (h : state ≠ .inside) : state = .inside → first.box ≠ last.box :=
      fun he => absurd he h
    have hbehind : Progress.behind ≠ .inside := by decide
    have hbefore : Progress.before ≠ .inside := by decide
    rw [List.foldl_cons, rangesWalkCb.eq_def]
    cases state
    case behind =>
      dsimp only
      rw [hi hn.right htail (hout hbehind), selected_behind, selected_behind]
    case before =>
      dsimp only
      rw [selected]
      by_cases hb : first.box = last.box
      case pos =>
        rw [if_pos hb, if_pos hb]
        split
        case isTrue  => rw [rangesRecord_eq hp, hi hn.right hclip (hout hbehind)]; simp [selected_behind]
        case isFalse => rw [hi hn.right htail (hout hbefore)]
      case neg =>
        rw [if_neg hb, if_neg hb, if_pos rfl]
        split
        case isTrue  => rw [rangesRecord_eq hp, hi hn.right hclip fun _ => hb, List.map_append, List.append_assoc]
        case isFalse => rw [hi hn.right htail (hout hbefore)]
    case inside =>
      have hb := hs rfl
      dsimp only
      rw [selected, if_neg hb, if_neg (by decide)]
      split
      case isTrue  => rw [rangesRecord_eq hp, hi hn.right hclip (hout hbehind)]; simp [selected_behind]
      case isFalse =>
        split
        case isTrue =>
          rw [rangesRecord_eq hp, hi hn.right hclip fun _ => hb, List.map_append, List.append_assoc]
        case isFalse ht =>
          have hc : clip p 0 p.text.length = [] := by simp [clip, not_not.mp ht]
          rw [hi hn.right htail fun _ => hb, hc, List.nil_append]

variable {ctx : CollectCtx}

theorem collectSelectable_eq : collectSelectable ctx p (min start p.text.length) (min stop p.text.length) =
    match clip p start stop with
    | []            => ctx
    | (p, run) :: _ =>
      { ctx with
        out       := (if ctx.out ≠ [] ∧ p.containingBlock ≠ ctx.prevBlock then ctx.out ++ ['\n'] else ctx.out) ++
          appendCopiedRun (run.of p)
        prevBlock := p.containingBlock } := by
  rw [collectSelectable, clip]
  cases hu : p.userSelectable
  case false => simp
  case true =>
    by_cases hlt : min start p.text.length < min stop p.text.length
    case neg => simp [hlt, collectAppend, Nat.not_lt.mp hlt]
    case pos =>
      have ht : p.box.text.isNone = false := by
        cases ht : p.box.text
        case some => rfl
        case none =>
          have hl : p.text = [] := by rw [Placed.text, ht]; rfl
          simp [hl] at hlt
      have hnot : ¬(min stop p.text.length ≤ min start p.text.length ∨ p.box.text.isNone) := by
        rw [ht]
        exact not_or.mpr ⟨Nat.not_le.mpr hlt, Bool.false_ne_true⟩
      rw [if_pos rfl, if_pos ⟨rfl, hlt⟩, collectAppend, if_neg hnot]
      simp only [List.length_pos_iff]
      rfl

theorem state_collectSelectable :
    { collectSelectable ctx p start stop with state := ctx.state } = collectSelectable ctx p start stop := by
  rw [collectSelectable]
  split
  case isTrue =>
    rw [collectAppend]
    split <;> rfl
  case isFalse => rfl

-- What the walk over the text copies.
theorem out_collectWalkCb (hf : ∀ p ∈ ps, some p.box.id = first.box → p.text ≠ [])
    (hs : ctx.state = .inside → first.box ≠ last.box) :
    (ps.foldl (collectWalkCb first last) ctx).out =
      copyRanges ctx.out ctx.prevBlock (selected first last ctx.state ps) := by
  induction ps generalizing ctx
  case nil => cases hs : ctx.state <;> simp [selected, copyRanges]
  case cons p ps hi =>
    have htail : ∀ p ∈ ps, some p.box.id = first.box → p.text ≠ [] :=
      fun q hq => hf q (List.mem_cons_of_mem _ hq)
    -- One box is copied, and the walk goes on as it has to.
    have hclip (i j : Nat) {state : Progress} (hs : state = .inside → first.box ≠ last.box) :
        (ps.foldl (collectWalkCb first last)
          { collectSelectable ctx p (min i p.text.length) (min j p.text.length) with state }).out =
        copyRanges ctx.out ctx.prevBlock (clip p i j ++ selected first last state ps) := by
      rw [hi htail hs, collectSelectable_eq]
      cases hc : clip p i j
      case nil => rfl
      case cons r rs =>
        have hn : rs = [] := by
          rw [clip] at hc
          split at hc
          case isTrue  => exact (List.cons.inj hc).right.symm
          case isFalse => cases hc
        rw [hn, List.singleton_append, copyRanges]
    have hout {state : Progress} (h : state ≠ .inside) : state = .inside → first.box ≠ last.box :=
      fun he => absurd he h
    have hbehind : Progress.behind ≠ .inside := by decide
    have hbefore : Progress.before ≠ .inside := by decide
    obtain ⟨out, state, prev⟩ := ctx
    rw [List.foldl_cons, collectWalkCb.eq_def]
    cases state
    case behind =>
      dsimp only
      rw [hi htail (hout hbehind), selected_behind, selected_behind]
    case before =>
      dsimp only
      rw [selected]
      by_cases ht : p.text = []
      case pos =>
        have hp : some p.box.id ≠ first.box := fun he => hf p List.mem_cons_self he ht
        rw [if_pos ht, if_neg fun h => hbefore h.left, hi htail (hout hbefore), if_neg hp]
      case neg =>
        rw [if_neg ht]
        by_cases hp : some p.box.id = first.box
        case neg => rw [if_neg hp, if_neg hp, if_neg hp, if_pos rfl, ite_self, hi htail (hout hbefore)]
        case pos =>
          rw [if_pos hp, if_pos hp, if_pos hp, if_pos rfl]
          by_cases hb : first.box = last.box
          case pos =>
            rw [if_pos hb, if_pos hb, hclip _ _ (hout hbehind), selected_behind, List.append_nil]
          case neg =>
            have hc := @hclip first.byte p.text.length .inside fun _ => hb
            rw [Nat.min_self] at hc
            rw [if_neg hb, if_neg hb, hc]
    case inside =>
      have hb := hs rfl
      dsimp only
      rw [selected]
      by_cases ht : p.text = []
      case pos =>
        have hc {j : Nat} : clip p 0 j = [] := by simp [clip, ht]
        rw [if_pos ht, hc, hc, List.nil_append]
        by_cases hp : some p.box.id = last.box
        case pos => rw [if_pos ⟨rfl, hp⟩, if_pos hp, hi htail (hout hbehind), selected_behind]
        case neg => rw [if_neg fun h => hp h.right, if_neg hp, hi htail fun _ => hb]
      case neg =>
        rw [if_neg ht, if_neg hb, if_neg (by decide)]
        by_cases hp : some p.box.id = last.box
        case pos =>
          have hc := @hclip 0 last.byte .behind (hout hbehind)
          rw [Nat.zero_min, selected_behind, List.append_nil] at hc
          rw [if_pos hp, if_pos hp, hc]
        case neg =>
          have hc := @hclip 0 p.text.length .inside fun _ => hb
          rw [Nat.zero_min, Nat.min_self] at hc
          rw [if_neg hp, if_neg hp, ← hc]
          exact congrArg (fun ctx => (ps.foldl (collectWalkCb first last) ctx).out) state_collectSelectable.symm

end Selected

section Copy

variable {text : CString} {u n : Nat}

theorem copyRun_eq_drop : copyRun n text = copyRun 0 (text.drop n) := by
  induction text generalizing n
  case nil => rw [List.drop_nil]; cases n <;> rfl
  case cons c cs hi =>
    cases n
    case zero   => rfl
    case succ n => rw [copyRun, hi, List.drop_succ_cons]

theorem pos_of_char (h : gUtf8GetCharValidated text = some (u, n)) : 0 < n := by
  cases text
  case nil => cases h
  case cons c cs =>
    rw [gUtf8GetCharValidated] at h
    split_ifs at h
    · cases h
      decide
    · obtain ⟨⟨len, bits, least⟩, hl, h⟩ := Option.bind_eq_some_iff.mp h
      obtain ⟨wc, -, h⟩ := Option.bind_eq_some_iff.mp h
      obtain ⟨-, -, h⟩ := Option.bind_eq_some_iff.mp h
      cases h
      unfold utf8Lead at hl
      split_ifs at hl <;> cases hl <;> decide

-- A character that takes three bytes stands behind these bytes.
theorem isPrefix_of_char (h : gUtf8GetCharValidated text = some (u, n)) (hu : 0x800 ≤ u ∧ u < 0x10000) :
    [Char.ofNat (0xe0 + u / 0x1000), Char.ofNat (0x80 + u / 0x40 % 0x40), Char.ofNat (0x80 + u % 0x40)] <+:
      text := by
  cases text
  case nil => cases h
  case cons c cs =>
    rw [gUtf8GetCharValidated] at h
    split_ifs at h with hascii hnul
    · cases h
      omega
    · obtain ⟨⟨len, bits, least⟩, hl, hrest⟩ := Option.bind_eq_some_iff.mp h
      obtain ⟨wc, hr, hrest⟩ := Option.bind_eq_some_iff.mp hrest
      obtain ⟨_, hg, he⟩ := Option.bind_eq_some_iff.mp hrest
      cases he
      clear h hrest
      have hleast : least ≤ u := by
        by_contra hn
        rw [guard, if_neg fun hg => hn hg.left] at hg
        cases hg
      unfold utf8Lead at hl
      split_ifs at hl
      all_goals cases hl
      · -- Two bytes are not enough.
        cases cs
        case nil => cases hr
        case cons d cs =>
          simp only [utf8Rest] at hr
          split at hr
          case isFalse => cases hr
          case isTrue =>
            obtain rfl := Option.some.inj hr
            omega
      · cases cs
        case nil => cases hr
        case cons d cs =>
          cases cs
          case nil =>
            simp only [utf8Rest, ite_self] at hr
            cases hr
          case cons e cs =>
            simp only [utf8Rest] at hr
            split at hr
            case isFalse => cases hr
            case isTrue hd =>
              split at hr
              case isFalse => cases hr
              case isTrue he =>
                obtain rfl := Option.some.inj hr
                have hc : 0xe0 + ((c.toNat % 0x10 * 0x40 + d.toNat % 0x40) * 0x40 + e.toNat % 0x40) / 0x1000 =
                    c.toNat := by omega
                have hd : 0x80 + ((c.toNat % 0x10 * 0x40 + d.toNat % 0x40) * 0x40 + e.toNat % 0x40) / 0x40 % 0x40 =
                    d.toNat := by omega
                have he : 0x80 + ((c.toNat % 0x10 * 0x40 + d.toNat % 0x40) * 0x40 + e.toNat % 0x40) % 0x40 =
                    e.toNat := by omega
                rw [hc, hd, he, Char.ofNat_toNat, Char.ofNat_toNat, Char.ofNat_toNat]
                exact ⟨cs, rfl⟩
      all_goals omega

-- A text in which nothing is changed is copied as it is.
theorem appendCopiedRun_eq_self (h : ∀ s ∈ changedChars, ¬s <:+: text) : appendCopiedRun text = text := by
  rw [appendCopiedRun]
  induction hl : text.length using Nat.strong_induction_on generalizing text
  case h l hi =>
    cases text
    case nil => rfl
    case cons c cs =>
      have hrest {t : CString} (ht : t <:+ cs) : copyRun 0 t = t := by
        refine hi t.length ?_ (fun s hs hin => ?_) rfl
        · have hlen := ht.length_le
          rw [List.length_cons] at hl
          omega
        · exact h s hs (hin.trans (ht.isInfix.trans (List.suffix_cons c cs).isInfix))
      rw [copyRun]
      cases hu : gUtf8GetCharValidated (c :: cs)
      case none => exact congrArg (c :: ·) (hrest (List.suffix_refl cs))
      case some r =>
        obtain ⟨u, step⟩ := r
        have hsame : copyChar u ((c :: cs).take step) = (c :: cs).take step := by
          have hno {v : Nat} (hv : 0x800 ≤ v ∧ v < 0x10000) (hm : [Char.ofNat (0xe0 + v / 0x1000),
              Char.ofNat (0x80 + v / 0x40 % 0x40), Char.ofNat (0x80 + v % 0x40)] ∈ changedChars) : u ≠ v := by
            rintro rfl
            exact h _ hm (isPrefix_of_char hu hv).isInfix
          have h₁ : u ≠ 0x2028 := hno (by decide) (by decide)
          have h₂ : u ≠ 0x2029 := hno (by decide) (by decide)
          have h₃ : u ≠ 0x200b := hno (by decide) (by decide)
          have h₄ : u ≠ 0xfeff := hno (by decide) (by decide)
          rw [copyChar, if_neg (not_or.mpr ⟨h₁, h₂⟩), if_pos ⟨h₃, h₄⟩]
        obtain ⟨step, rfl⟩ := Nat.exists_eq_succ_of_ne_zero (Nat.ne_of_gt (pos_of_char hu))
        dsimp only
        rw [hsame, copyRun_eq_drop, Nat.succ_sub_one, hrest (List.drop_suffix step cs)]
        exact List.take_append_drop (step + 1) (c :: cs)

end Copy

section Reported

variable {t : BoxTree} {sel : Selection} {first last : Endpoint}

theorem table_eq : (walkInlinePre t (rangesWalkCb first last) {}).table =
    (selected first last .before t.inlines).map entry := by
  have h := @table_rangesWalkCb first last t.inlines [] .before t.nodup_inlines
    (fun _ h => absurd h List.not_mem_nil) (fun h => absurd h (by decide))
  rwa [List.nil_append, ← walkInlinePre_eq] at h

theorem reported_eq : t.reported (walkInlinePre t (rangesWalkCb first last) {}).table =
    selected first last .before t.inlines := by
  rw [table_eq]
  have h : (t.inlines.map fun p => p.box.id).Nodup := t.nodup_inlines
  exact filterMap_lookup h selected_sublist

theorem getD_ranges (h : sel.hasRange) (ho : orderEndpoints t sel = (first, last)) :
    (ranges t sel).getD [] = (walkInlinePre t (rangesWalkCb first last) {}).table := by
  rw [ranges, if_pos h, ho]
  dsimp only
  split
  case isTrue hn => rw [hn]; rfl
  case isFalse   => rfl

theorem text_ne_nil {e : Endpoint} (h : t.HasText e) {p : Placed} (hp : p ∈ t.inlines)
    (he : some p.box.id = e.box) : p.text ≠ [] := by
  obtain ⟨q, hq, hqe, ht⟩ := h
  have hid : p.box.id = q.box.id := Option.some.inj (he.trans hqe.symm)
  rwa [List.inj_on_of_nodup_map t.nodup_inlines hp hq hid]

-- Nothing is selected where the endpoints are not in the tree.
theorem selected_of_not_mem {ps : List Placed} (h : ∀ p ∈ ps, some p.box.id ≠ first.box) :
    selected first last .before ps = [] := by
  induction ps
  case nil => rw [selected]; exact fun hn => absurd hn (by decide)
  case cons p ps hi =>
    rw [selected, if_neg (h p List.mem_cons_self)]
    exact hi fun q hq => h q (List.mem_cons_of_mem _ hq)

theorem copied_eq (ha : t.HasText sel.anchor) (hf : t.HasText sel.focus) :
    (collectText t sel).getD [] = copyRanges [] none (t.reported ((ranges t sel).getD [])) := by
  by_cases h : sel.hasRange
  case neg =>
    have hn : t.reported [] = [] := List.filterMap_eq_nil_iff.mpr fun _ _ => rfl
    rw [collectText, ranges, if_neg h, if_neg h]
    exact congrArg (copyRanges [] none) hn.symm
  case pos =>
    obtain ⟨first, last, ho⟩ : ∃ first last, orderEndpoints t sel = (first, last) := ⟨_, _, rfl⟩
    have hfirst : ∀ p ∈ t.inlines, some p.box.id = first.box → p.text ≠ [] := by
      intro p hp he
      rcases @orderEndpoints_or t sel with h' | h'
      · exact text_ne_nil ha hp (he.trans (congrArg Endpoint.box (Prod.mk.inj (ho.symm.trans h')).left))
      · exact text_ne_nil hf hp (he.trans (congrArg Endpoint.box (Prod.mk.inj (ho.symm.trans h')).left))
    rw [getD_ranges h ho, reported_eq, collectText, if_pos h, ho, Option.getD_some, walkInlinePre_eq]
    exact out_collectWalkCb hfirst fun he => absurd he (by decide)

theorem walks_swap : ranges t sel.swap = ranges t sel ∧ collectText t sel.swap = collectText t sel := by
  rw [ranges, ranges, collectText, collectText, hasRange_swap]
  rcases @orderEndpoints_swap t sel with he | hno
  · rw [he]
    exact ⟨rfl, rfl⟩
  · -- Both walks pass by.
    have hnone {sel' : Selection} (h : orderEndpoints t sel' = (sel.anchor, sel.focus) ∨
        orderEndpoints t sel' = (sel.focus, sel.anchor)) :
        ∀ p ∈ t.inlines, some p.box.id ≠ (orderEndpoints t sel').1.box := by
      intro p hp
      rcases h with h | h
      · rw [h]
        exact (hno p hp).left
      · rw [h]
        exact (hno p hp).right
    have hall {sel' : Selection} (h : ∀ p ∈ t.inlines, some p.box.id ≠ (orderEndpoints t sel').1.box) :
        (walkInlinePre t (rangesWalkCb (orderEndpoints t sel').1 (orderEndpoints t sel').2) {}).table = [] ∧
          (walkInlinePre t (collectWalkCb (orderEndpoints t sel').1 (orderEndpoints t sel').2) {}).out = [] := by
      constructor
      case left => rw [table_eq, selected_of_not_mem h]; rfl
      case right =>
        rw [walkInlinePre_eq,
          out_collectWalkCb (fun p hp he => absurd he (h p hp)) (fun he => absurd he (by decide)),
          selected_of_not_mem h]
        rfl
    have h₁ := hall (hnone orderEndpoints_or)
    have h₂ := hall (hnone (@orderEndpoints_or t sel.swap).symm)
    dsimp only
    rw [h₁.left, h₁.right, h₂.left, h₂.right]
    exact ⟨rfl, rfl⟩

theorem copyRanges_same {rs : List (Placed × Run)} {out : CString} {block : Option Nat}
    (hb : ∀ r ∈ rs, r.1.containingBlock = block)
    (hc : ∀ r ∈ rs, appendCopiedRun (r.2.of r.1) = r.2.of r.1) :
    copyRanges out block rs = out ++ rs.flatMap fun r => r.2.of r.1 := by
  induction rs generalizing out
  case nil => exact (List.append_nil out).symm
  case cons r rs hi =>
    obtain ⟨p, run⟩ := r
    have hp : p.containingBlock = block := hb _ List.mem_cons_self
    have hr : appendCopiedRun (run.of p) = run.of p := hc _ List.mem_cons_self
    rw [copyRanges, hr, hp, if_neg fun h => h.right rfl, List.flatMap_cons, ← List.append_assoc]
    exact hi (fun r hr => hb r (List.mem_cons_of_mem _ hr)) fun r hr => hc r (List.mem_cons_of_mem _ hr)

-- The text of a selection is that of its ranges, each in its copy, and it does not matter which end was first.
theorem selects (ha : t.HasText sel.anchor) (hf : t.HasText sel.focus) : Selects t sel where
  ranges_swap := walks_swap.left
  text_swap   := walks_swap.right
  copied      := copied_eq ha hf
  plain hb hc := by
    rw [copied_eq ha hf]
    cases hr : t.reported ((ranges t sel).getD [])
    case nil => rfl
    case cons r rs =>
      rw [hr] at hb hc
      have hcopy : ∀ q ∈ r :: rs, appendCopiedRun (q.2.of q.1) = q.2.of q.1 :=
        fun q hq => appendCopiedRun_eq_self (hc q hq)
      obtain ⟨p, run⟩ := r
      rw [copyRanges, if_neg fun h => h.left rfl, hcopy _ List.mem_cons_self]
      exact copyRanges_same (fun q hq => hb q (List.mem_cons_of_mem _ hq) _ List.mem_cons_self)
        fun q hq => hcopy q (List.mem_cons_of_mem _ hq)

end Reported

section Paragraphs

-- Two paragraphs of one letter each.
def twoParagraphs : BoxTree where
  parents  := []
  root     := ⟨0, false, none, none⟩
  kids     :=
    .node ⟨1, false, none, none⟩ (.node ⟨2, true, some ['a'], none⟩ .nil .nil)
      (.node ⟨3, false, none, none⟩ (.node ⟨4, true, some ['b'], none⟩ .nil .nil) .nil)
  distinct := by decide

def acrossParagraphs : Selection where
  anchor := ⟨some 2, 0⟩
  focus  := ⟨some 4, 1⟩
  active := true

theorem hasText_twoParagraphs : twoParagraphs.HasText acrossParagraphs.anchor ∧
    twoParagraphs.HasText acrossParagraphs.focus :=
  ⟨⟨_, List.mem_cons_self, rfl, by decide⟩, ⟨_, List.mem_cons_of_mem _ List.mem_cons_self, rfl, by decide⟩⟩

theorem selects_twoParagraphs : Selects twoParagraphs acrossParagraphs :=
  selects hasText_twoParagraphs.left hasText_twoParagraphs.right

-- A line break comes between the paragraphs, which is in none of the ranges.
theorem not_concatenated_twoParagraphs : ¬∀ (t : BoxTree) (sel : Selection),
    t.HasText sel.anchor → t.HasText sel.focus →
      (collectText t sel).getD [] = (t.reported ((ranges t sel).getD [])).flatMap fun r => r.2.of r.1 := by
  intro h
  have he := h twoParagraphs acrossParagraphs hasText_twoParagraphs.left hasText_twoParagraphs.right
  revert he
  decide

end Paragraphs

end Nordstjernen.Layout
