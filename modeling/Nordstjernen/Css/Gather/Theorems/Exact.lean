import Nordstjernen.Css.Gather.Theorems.Gather

open Nordstjernen.Lib

namespace Nordstjernen.Css.Gather

namespace Found

variable {ρ : Type*} {a b : Found ρ} {fs : List (Found ρ)} {p : Placed ρ}

-- Where the entries come from.
def placed (a : Found ρ) : List (Placed ρ) :=
  a.out.map (·.toPlaced) ++ a.vars.map (·.toPlaced) ++ a.pending.map (·.toPlaced)

theorem Perm.mem_placed (h : a.Perm b) : p ∈ a.placed ↔ p ∈ b.placed := by
  simp only [placed, List.mem_append, List.mem_map, h.out.mem_iff, h.vars.mem_iff, h.pending.mem_iff]

theorem Perm.refl (a : Found ρ) : a.Perm a :=
  ⟨.refl _, .refl _, .refl _⟩

theorem mem_placed_join : p ∈ (join fs).placed ↔ ∃ f ∈ fs, p ∈ f.placed := by
  simp only [placed, join, List.mem_append, List.mem_map, List.mem_flatMap]
  grind

end Found

namespace Page

section Best

variable {ι ρ σ ν π : Type*} [DecidableEq ν] {P : Page ι ρ σ ν π} {q : Request ι ν} {dst : Dest}
  {cand : Candidate} {r : ρ} {ri dd : Nat} {k : Key} {key : WithBot Key} {p : Placed ρ}

theorem offer?_eq_some : P.offer? q dst cand = some k ↔ ∃ r sel,
    (P.sheet q.sheet).rules[cand.ruleIdx]? = some r ∧
    (P.rule r).selectors[cand.selectorIdx]? = some sel ∧ P.keyOf? q.el dst.pe r sel = some k := by
  simp [offer?, Option.bind_eq_some_iff]

theorem le_best {sel : Option σ} (hs : sel ∈ (P.rule r).selectors)
    (hk : P.keyOf? q.el dst.pe r sel = some k) : k ≤ P.best q.el dst.pe r :=
  List.le_maximum_of_mem' (List.mem_filterMap.mpr ⟨sel, hs, hk⟩)

theorem le_bestOf (hd : q.dests[dd]? = some dst) (hc : cand ∈ P.taken q)
    (hk : P.offer? q dst cand = some k) : k ≤ bestOf (P.offers q) cand.ruleIdx dd := by
  have ho : ⟨cand.ruleIdx, dd, k⟩ ∈ P.offers q := mem_offers.mpr ⟨cand, hc, rfl, dst, hd, hk⟩
  exact List.le_maximum_of_mem' (List.mem_map.mpr ⟨_, List.mem_filter.mpr ⟨ho, by simp⟩, rfl⟩)

theorem exists_of_bestOf (hd : q.dests[dd]? = some dst) (h : bestOf (P.offers q) ri dd = k) :
    ∃ cand ∈ P.taken q, cand.ruleIdx = ri ∧ P.offer? q dst cand = some k := by
  obtain ⟨o, ho, rfl⟩ := List.mem_map.mp (List.maximum_mem h)
  obtain ⟨ho, he⟩ := List.mem_filter.mp ho
  simp only [decide_eq_true_eq] at he
  obtain ⟨cand, hc, hr, dst', hd', hk⟩ := mem_offers.mp ho
  rw [he.right, hd] at hd'
  obtain rfl := Option.some.inj hd'
  exact ⟨cand, hc, hr.trans he.left, hk⟩

-- What a call sees of a rule is no more than what there is.
theorem bestOf_le (hr : (P.sheet q.sheet).rules[ri]? = some r) (hd : q.dests[dd]? = some dst) :
    bestOf (P.offers q) ri dd ≤ P.best q.el dst.pe r := by
  cases hb : bestOf (P.offers q) ri dd
  case bot => exact bot_le
  case coe k =>
    obtain ⟨cand, -, rfl, hk⟩ := exists_of_bestOf hd hb
    obtain ⟨r', sel, hr', hs, hk⟩ := offer?_eq_some.mp hk
    rw [hr] at hr'
    obtain rfl := Option.some.inj hr'
    exact le_best (List.mem_of_getElem? hs) hk

theorem le_bestOf_of_nothingMissed (h : P.NothingMissed q) (hr : (P.sheet q.sheet).rules[ri]? = some r)
    (hd : q.dests[dd]? = some dst) (hg : P.Gives r dst) :
    P.best q.el dst.pe r ≤ bestOf (P.offers q) ri dd := by
  refine List.maximum_le_of_forall_le fun k hk => ?_
  obtain ⟨sel, hs, hk⟩ := List.mem_filterMap.mp hk
  obtain ⟨si, hs⟩ := List.getElem?_of_mem hs
  have ho : P.offer? q dst ⟨ri, si⟩ = some k := offer?_eq_some.mpr ⟨r, sel, hr, hs, hk⟩
  have hbucket : ∃ bucket ∈ (P.ruleIndexBuild q.sheet).buckets (P.node q.el), ⟨ri, si⟩ ∈ bucket :=
    exists_bucket hr hs hk
  obtain ⟨bucket, hb, hc⟩ := hbucket
  obtain ht | hl := mem_fillPool hb hc
  · exact le_bestOf hd ht ho
  · have hm := h dst (List.mem_of_getElem? hd) ⟨ri, si⟩ hl k ho fun r' hr' => by
      rw [hr] at hr'
      exact Option.some.inj hr' ▸ hg
    obtain ⟨cand, ht, rfl, k', hk', hle⟩ := hm
    exact (WithBot.coe_le_coe.mpr hle).trans (le_bestOf hd ht hk')

end Best

section Placed

variable {ι ρ σ ν π : Type*} {P : Page ι ρ σ ν π} {q : Request ι ν} {dst : Dest} {r r' : ρ}
  {key key' : WithBot Key} {p : Placed ρ}

-- What the entries of a rule have in common.
def placedOf (P : Page ι ρ σ ν π) (q : Request ι ν) (r : ρ) (slot : Slot) : Placed ρ where
  origin      := q.origin
  specA       := slot.specA
  specB       := slot.specB
  specC       := slot.specC
  sheetIndex  := q.sheetIndex
  layerOrder  := cssLayerRankFor q.layerRanks (P.rule r).layerName
  scopeOrder  := slot.scopeOrder
  sourceOrder := (P.rule r).sourceOrder
  rule        := r

theorem placed_emit {slot : Slot} :
    (P.emit q (cssLayerRankFor q.layerRanks (P.rule r).layerName) r dst slot).placed =
      List.replicate (P.rule r).decls.length (P.placedOf q r slot) ++
      List.replicate (if dst.vars then (P.rule r).vars.length else 0) (P.placedOf q r slot) ++
      List.replicate (if dst.pending then (P.rule r).pending.length else 0) (P.placedOf q r slot) := by
  rw [Found.placed]
  congr
  · simp [emit, placedOf, Function.comp_def, List.map_const']
  · cases hv : dst.vars <;> simp [emit, placedOf, hv, Function.comp_def, List.map_const']
  · cases hv : dst.pending <;> simp [emit, placedOf, hv, Function.comp_def, List.map_const']

theorem mem_placed_emitKey : p ∈ (P.emitKey q dst r key).placed ↔
    key ≠ ⊥ ∧ P.Gives r dst ∧ p = P.placedOf q r (Slot.ofKey key) := by
  rw [emitKey]
  split
  case isTrue h  => simp [h, Found.placed]
  case isFalse h =>
    rw [placed_emit, and_iff_right h, Gives]
    cases dst.vars <;> cases dst.pending <;> simp [List.mem_replicate] <;> tauto

theorem placedOf_inj (hk : key ≠ ⊥) (hk' : key' ≠ ⊥)
    (h : P.placedOf q r (Slot.ofKey key) = P.placedOf q r' (Slot.ofKey key')) : r = r' ∧ key = key' := by
  cases key <;> cases key'
  case coe.coe k k' =>
    obtain ⟨a, b, c, o⟩ := k
    obtain ⟨a', b', c', o'⟩ := k'
    simp only [placedOf, Placed.mk.injEq] at h
    obtain ⟨-, ha, hb, hc, -, -, ho, -, hr⟩ := h
    obtain rfl : a = a' := ha
    obtain rfl : b = b' := hb
    obtain rfl : c = c' := hc
    obtain rfl : o = o' := ho
    exact ⟨hr, rfl⟩
  all_goals contradiction

end Placed

section Exact

variable {ι ρ σ ν π : Type*} [DecidableEq ν] {P : Page ι ρ σ ν π} {q : Request ι ν} {dst : Dest}
  {dd : Nat} {matched : List Nat}

theorem forall₂_zipIdx {α β : Type*} {R : α → β → Prop} {f : α × Nat → β} {xs : List α} :
    List.Forall₂ R xs (xs.zipIdx.map f) ↔ ∀ x i, xs[i]? = some x → R x (f (x, i)) := by
  simp only [List.forall₂_iff_get, List.length_map, List.length_zipIdx, List.get_eq_getElem, List.getElem_map,
    List.getElem_zipIdx, Nat.zero_add, true_and, List.getElem?_eq_some_iff]
  grind

theorem exact_found_iff : P.Exact q (P.found q matched) ↔ ∀ dst dd, q.dests[dd]? = some dst →
    (Found.join (matched.map (P.emitAt q (bestOf (P.offers q)) · (dst, dd)))).Perm (P.tested q dst) :=
  forall₂_zipIdx

theorem mem_placed_tested {p : Placed ρ} : p ∈ (P.tested q dst).placed ↔
    ∃ r ∈ (P.sheet q.sheet).rules, P.best q.el dst.pe r ≠ ⊥ ∧ P.Gives r dst ∧
      p = P.placedOf q r (Slot.ofKey (P.best q.el dst.pe r)) := by
  simp only [tested, Found.mem_placed_join, List.mem_map, exists_exists_and_eq_and, mem_placed_emitKey]

theorem mem_placed_found {p : Placed ρ} : p ∈ (Found.join
      (matched.map (P.emitAt q (bestOf (P.offers q)) · (dst, dd)))).placed ↔
    ∃ ri ∈ matched, ∃ r, (P.sheet q.sheet).rules[ri]? = some r ∧ bestOf (P.offers q) ri dd ≠ ⊥ ∧
      P.Gives r dst ∧ p = P.placedOf q r (Slot.ofKey (bestOf (P.offers q) ri dd)) := by
  simp only [Found.mem_placed_join, List.mem_map, exists_exists_and_eq_and, emitAt]
  refine exists_congr fun ri => and_congr_right fun _ => ?_
  cases (P.sheet q.sheet).rules[ri]?
  case none   => simp [Found.placed]
  case some r => simp [mem_placed_emitKey]

-- The order in which the rules are met makes no difference.
theorem found_perm_tested (hn : matched.Nodup)
    (hlt : ∀ ri ∈ matched, ri < (P.sheet q.sheet).rules.length)
    (hm : ∀ ri, ri ∈ matched ↔ ∃ o ∈ P.offers q, o.ruleIdx = ri)
    (hb : ∀ ri r, (P.sheet q.sheet).rules[ri]? = some r → P.Gives r dst →
      bestOf (P.offers q) ri dd = P.best q.el dst.pe r) :
    (Found.join (matched.map (P.emitAt q (bestOf (P.offers q)) · (dst, dd)))).Perm (P.tested q dst) := by
  have hp : matched.Perm ((List.range (P.sheet q.sheet).rules.length).filter (· ∈ matched)) := by
    refine (List.perm_ext_iff_of_nodup hn (List.nodup_range.filter _)).mpr fun ri => ?_
    simpa using hlt ri
  have he : (List.range (P.sheet q.sheet).rules.length).map (P.emitAt q (bestOf (P.offers q)) · (dst, dd)) =
      (P.sheet q.sheet).rules.map fun r => P.emitKey q dst r (P.best q.el dst.pe r) := by
    refine List.ext_getElem (by simp) fun ri h _ => ?_
    have hlt : ri < (P.sheet q.sheet).rules.length := by simpa using h
    have hr := List.getElem?_eq_getElem hlt
    simp only [List.getElem_map, List.getElem_range, emitAt, hr, Option.elim_some]
    by_cases hg : P.Gives (P.sheet q.sheet).rules[ri] dst
    case pos => rw [hb ri _ hr hg]
    case neg => rw [emitKey_of_not_gives hg, emitKey_of_not_gives hg]
  refine (Found.join_perm (hp.map _)).trans ?_
  rw [Found.join_filter, he]
  · exact Found.Perm.refl _
  · intro ri _ hri
    have hbot : bestOf (P.offers q) ri dd = ⊥ :=
      bestOf_eq_bot fun o ho he => by simp [(hm ri).mpr ⟨o, ho, he⟩] at hri
    cases h : (P.sheet q.sheet).rules[ri]? <;> simp [emitAt, h, hbot, emitKey]

-- The best match of each rule is seen exactly where none that is better is left out.
theorem exact_iff (hn : matched.Nodup) (hlt : ∀ ri ∈ matched, ri < (P.sheet q.sheet).rules.length)
    (hm : ∀ ri, ri ∈ matched ↔ ∃ o ∈ P.offers q, o.ruleIdx = ri) :
    P.Exact q (P.found q matched) ↔ P.NothingMissed q := by
  rw [exact_found_iff]
  constructor
  · intro h dst hd cand hc k hk hg
    obtain ⟨dd, hd⟩ := List.getElem?_of_mem hd
    obtain ⟨r, sel, hr, hs, hkey⟩ := offer?_eq_some.mp hk
    have hle : k ≤ P.best q.el dst.pe r := le_best (List.mem_of_getElem? hs) hkey
    have hne : P.best q.el dst.pe r ≠ ⊥ := fun he => by simp [he] at hle
    have hp := mem_placed_tested.mpr ⟨r, List.mem_of_getElem? hr, hne, hg r hr, rfl⟩
    obtain ⟨ri, hri, r', hr', hne', -, he⟩ := mem_placed_found.mp ((h dst dd hd).mem_placed.mpr hp)
    obtain ⟨rfl, hb⟩ := placedOf_inj hne hne' he
    have hri : cand.ruleIdx = ri :=
      (List.getElem?_inj (List.getElem?_eq_some_iff.mp hr).fst (P.sheet q.sheet).nodup).mp (hr.trans hr'.symm)
    subst hri
    obtain ⟨k', hk'⟩ := WithBot.ne_bot_iff_exists.mp hne'
    obtain ⟨cand', ht, he', ho⟩ := exists_of_bestOf hd hk'.symm
    refine ⟨cand', ht, he', k', ho, ?_⟩
    rw [hb, ← hk'] at hle
    exact WithBot.coe_le_coe.mp hle
  · intro h dst dd hd
    exact found_perm_tested hn hlt hm fun ri r hr hg =>
      le_antisymm (bestOf_le hr hd) (le_bestOf_of_nothingMissed h hr hd hg)

theorem fits_iff : P.Fits q ↔ q.dests.length ≤ 9 ∨ P.offers q = [] := by
  refine or_congr_right ⟨fun h => List.eq_nil_iff_forall_not_mem.mpr fun o ho => ?_, fun h dst hd cand hc => ?_⟩
  · obtain ⟨cand, hc, -, dst, hd, hk⟩ := mem_offers.mp ho
    simp [h dst (List.mem_of_getElem? hd) cand hc] at hk
  · by_contra hn
    obtain ⟨k, hk⟩ := Option.ne_none_iff_exists'.mp hn
    obtain ⟨dd, hd⟩ := List.getElem?_of_mem hd
    have ho : ⟨cand.ruleIdx, dd, k⟩ ∈ P.offers q := mem_offers.mpr ⟨cand, hc, rfl, dst, hd, hk⟩
    simp [h] at ho

-- There is nothing to leave out unless the buckets of an element hold more than `2 ^ 28` candidates.
theorem nothingMissed_of_le (h : (((P.ruleIndexBuild q.sheet).buckets (P.node q.el)).map List.length).sum ≤
    268435456) : P.NothingMissed q := by
  intro dst _ cand hc
  rw [leftOut, fillPool_eq (by simpa using h)] at hc
  cases hc

end Exact

section Runs

variable {ι ρ σ ν π : Type*} [DecidableEq ι] [DecidableEq ρ] [DecidableEq σ] [DecidableEq ν]
  {P : Page ι ρ σ ν π} {s t : State ι ρ σ ν} {q : Request ι ν}

omit [DecidableEq ι] in
theorem ok_default : P.Ok {} where
  index   := nofun
  candCap := .inl rfl
  epoch _ := by simp
  cache   := nofun

theorem Ok.step {e : Event ι ν} (h : P.Ok s) (hs : P.step s e = some t) : P.Ok t := by
  cases e
  case cacheBegin => cases hs; exact { h with cache := by simp [CacheOk] }
  case cacheEnd   => cases hs; exact { h with cache := by simp [CacheOk] }
  case gather q   =>
    obtain ⟨-, s', matched, hok, -, -, -, hg⟩ | ⟨-, hg⟩ := gatherMatchesMulti_spec h q <;>
      simp only [Page.step, hg, Option.map_some, Option.map_none, Option.some.injEq, reduceCtorEq] at hs
    exact hs ▸ hok

theorem Ok.run {events : List (Event ι ν)} (h : Lib.run P.step {} events = some s) : P.Ok s :=
  run_preserves (C := fun _ _ => True) (fun _ _ _ hi _ hs => hi.step hs) h
    (stepsMeet_of_forall fun _ _ _ => trivial) ok_default

-- After any calls, a call finds just what testing every selector would find if its destinations fit
-- into the accumulators and the pool leaves out nothing that counts.
theorem gather_exact_iff {events : List (Event ι ν)} (h : Lib.run P.step {} events = some s)
    (q : Request ι ν) :
    (∃ s' founds, P.gatherMatchesMulti s q = some (s', founds) ∧ P.Exact q founds) ↔
      P.Fits q ∧ P.NothingMissed q := by
  obtain ⟨hf, s', matched, -, hn, hlt, hm, hg⟩ | ⟨hf, hg⟩ := gatherMatchesMulti_spec (Ok.run h) q <;>
    rw [hg, fits_iff]
  case inl =>
    rw [and_iff_right hf, ← exact_iff hn hlt hm]
    constructor
    · rintro ⟨_, _, he, hx⟩
      obtain ⟨rfl, rfl⟩ := Prod.mk.inj (Option.some.inj he)
      exact hx
    · exact fun hx => ⟨s', P.found q matched, rfl, hx⟩
  case inr => simp [hf]

end Runs

end Page

section Examples

-- A document of one paragraph, and a sheet with one rule for it and its pseudo-elements.
def paragraphPage (selectors : List PseudoElement) : Page Unit Unit PseudoElement Unit Unit where
  sheet _    := ⟨[()], List.nodup_singleton ()⟩
  rule _     := { selectors := selectors.map some, decls := [⟨0, "red".toList, false⟩] }
  selector p := { compounds := [{ type := some ['p'], tests := () }], pseudoElement := p, specC := 1 }
  node _     := { kind := .element, name := some ['p'] }
  parents _  := []
  prevSiblings _ := []
  matchScope := none
  tests _ _ _ ops := (true, ops)
  containerCondMatches _ := true

def everyPseudoElement : List PseudoElement :=
  [.none, .before, .after, .firstLetter, .firstLine, .selection, .marker, .backdrop, .placeholder,
    .fileSelectorButton]

-- The cascade of the paragraph asks for the pseudo-elements that the sheet has.
def paragraphRequest (selectors : List PseudoElement) : Request Unit Unit where
  sheet      := ()
  origin     := 2
  sheetIndex := 1
  el         := ()
  dests      := selectors.map fun pe => { pe }
  layerRanks := none

theorem gather_exact_nine : ∃ s, Lib.run (paragraphPage everyPseudoElement.dropLast).step {}
      [.cacheBegin, .gather (paragraphRequest everyPseudoElement.dropLast)] = some s ∧
    ∃ s' founds, (paragraphPage everyPseudoElement.dropLast).gatherMatchesMulti s
        (paragraphRequest everyPseudoElement.dropLast) = some (s', founds) ∧
      (paragraphPage everyPseudoElement.dropLast).Exact
        (paragraphRequest everyPseudoElement.dropLast) founds := by
  have hs : (Lib.run (paragraphPage everyPseudoElement.dropLast).step {}
      [.cacheBegin, .gather (paragraphRequest everyPseudoElement.dropLast)]).isSome := by decide
  obtain ⟨s, hs⟩ := Option.isSome_iff_exists.mp hs
  exact ⟨s, hs, (Page.gather_exact_iff hs _).mpr ⟨.inl (by decide), Page.nothingMissed_of_le (by decide)⟩⟩

-- With all nine pseudo-elements there are ten destinations, and a match is counted in a tenth entry
-- that no array has.
theorem not_gather_exact_ten : ¬∃ s' founds, (paragraphPage everyPseudoElement).gatherMatchesMulti {}
      (paragraphRequest everyPseudoElement) = some (s', founds) ∧
    (paragraphPage everyPseudoElement).Exact (paragraphRequest everyPseudoElement) founds := by
  have hn : ((paragraphPage everyPseudoElement).gatherMatchesMulti {}
      (paragraphRequest everyPseudoElement)).isNone := by decide
  rintro ⟨s', founds, he, -⟩
  rw [he] at hn
  cases hn

end Examples

end Nordstjernen.Css.Gather
