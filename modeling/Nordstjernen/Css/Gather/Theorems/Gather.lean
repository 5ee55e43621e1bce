import Nordstjernen.Css.Gather.Theorems.Scan

namespace Nordstjernen.Css.Gather

namespace Found

variable {ρ : Type*} {a b c : Found ρ} {fs : List (Found ρ)}

@[simp]
theorem append_empty : a.append {} = a := by
  simp [append]

@[simp]
theorem empty_append : Found.append {} a = a := by
  simp [append]

theorem append_assoc : (a.append b).append c = a.append (b.append c) := by
  simp [append]

@[simp]
theorem join_nil : join ([] : List (Found ρ)) = {} :=
  rfl

@[simp]
theorem join_cons : join (a :: fs) = a.append (join fs) :=
  rfl

theorem join_perm {fs fs' : List (Found ρ)} (h : fs.Perm fs') : (join fs).Perm (join fs') where
  out     := h.flatMap_right _
  vars    := h.flatMap_right _
  pending := h.flatMap_right _

theorem join_filter {α : Type*} {p : α → Bool} {f : α → Found ρ} {xs : List α}
    (h : ∀ x ∈ xs, p x = false → f x = {}) : join ((xs.filter p).map f) = join (xs.map f) := by
  induction xs
  case nil => rfl
  case cons x xs hi =>
    have hi := hi fun y hy => h y (List.mem_cons_of_mem _ hy)
    cases hp : p x
    case true  => simp [hp, hi]
    case false => simp [hp, hi, h x List.mem_cons_self hp]

theorem Perm.trans (h : a.Perm b) (h' : b.Perm c) : a.Perm c :=
  ⟨h.out.trans h'.out, h.vars.trans h'.vars, h.pending.trans h'.pending⟩

-- What is appended for the rules one after another.
theorem foldl_append {α β : Type*} {g : β → α → Found ρ} {xs : List α} {ys : List β} (f : α → Found ρ) :
    ys.foldl (fun fs y => List.zipWith append fs (xs.map (g y))) (xs.map f) =
      xs.map fun x => (f x).append (join (ys.map (g · x))) := by
  induction ys generalizing f
  case nil => simp
  case cons y ys hi =>
    rw [List.foldl_cons, List.zipWith_map, List.zipWith_self, hi]
    simp [append_assoc]

end Found

namespace Page

variable {ι ρ σ ν π : Type*} {P : Page ι ρ σ ν π} {q : Request ι ν} {dst : Dest} {r : ρ}
  {layerOrder : Int} {slot : Slot} {key key' : WithBot Key}

theorem emit_of_not_gives (h : ¬P.Gives r dst) : P.emit q layerOrder r dst slot = {} := by
  simp only [Gives, not_or, not_and, not_not] at h
  obtain ⟨hd, hv, hp⟩ := h
  simp only [emit, Found.mk.injEq]
  refine ⟨by simp [hd], ?_, ?_⟩
  · split
    case isTrue    => rfl
    case isFalse h => simp [hv (by simpa using h)]
  · split
    case isTrue    => rfl
    case isFalse h => simp [hp (by simpa using h)]

theorem emitKey_of_not_gives (h : ¬P.Gives r dst) : P.emitKey q dst r key = {} := by
  rw [emitKey]
  split
  · rfl
  · exact emit_of_not_gives h

theorem emitKey_key : P.emitKey q dst r slot.key =
    if slot.any then P.emit q (cssLayerRankFor q.layerRanks (P.rule r).layerName) r dst slot else {} := by
  rw [emitKey]
  split
  case isTrue h =>
    have ha : ¬slot.any := fun ha => by simp [Slot.key, ha] at h
    rw [if_neg ha]
  case isFalse h =>
    have ha : slot.any := by
      by_contra ha
      exact h (if_neg ha)
    rw [if_pos ha, Slot.ofKey_key ha]

section EmitRule

variable {s : State ι ρ σ ν} {founds : List (Found ρ)} {ri : Nat} {best : Nat → WithBot Key}

theorem mapM_eq_some {α β : Type*} {g : α → Option β} {f : α → β} {xs : List α}
    (h : ∀ x ∈ xs, g x = some (f x)) : xs.mapM g = some (xs.map f) := by
  induction xs
  case nil => rfl
  case cons x xs hi =>
    rw [List.mapM_cons, h x List.mem_cons_self, hi fun y hy => h y (List.mem_cons_of_mem _ hy)]
    rfl

theorem mapM_eq_none {α β : Type*} {g : α → Option β} {xs : List α} {x : α} (hx : x ∈ xs)
    (h : g x = none) : xs.mapM g = none := by
  induction xs
  case nil => cases hx
  case cons y ys hi =>
    rw [List.mapM_cons]
    cases hx
    case head => rw [h]; rfl
    case tail hx =>
      rw [hi hx]
      cases g y <;> rfl

theorem emitRule_eq (hd : q.dests.length ≤ 9) (hr : (P.sheet q.sheet).rules[ri]? = some r)
    (hl : (s.accum ri).layerOrder = intMin) (hk : ∀ dd : Fin 9, ((s.accum ri).slots dd).key = best dd) :
    let acc := { s.accum ri with layerOrder := cssLayerRankFor q.layerRanks (P.rule r).layerName }
    P.emitRule q (s, founds) ri = some ({ s with accum := Function.update s.accum ri acc },
      List.zipWith Found.append founds
        (q.dests.zipIdx.map fun (dst, dd) => P.emitKey q dst r (best dd))) := by
  simp only [emitRule, hr, hl, if_true]
  rw [mapM_eq_some (f := fun (dst, dd) => P.emitKey q dst r (best dd))]
  · rfl
  · rintro ⟨dst, dd⟩ hm
    have hdd : dd < 9 := by
      obtain ⟨hlt, -⟩ := List.getElem?_eq_some_iff.mp (List.mem_zipIdx_iff_getElem?.mp hm)
      exact Nat.lt_of_lt_of_le hlt hd
    rw [dif_pos hdd, ← emitKey_key, hk]

theorem emitRule_eq_none (hd : 9 < q.dests.length) : P.emitRule q (s, founds) ri = none := by
  have hm : (q.dests[9], 9) ∈ q.dests.zipIdx :=
    List.mem_zipIdx_iff_getElem?.mpr (List.getElem?_eq_getElem hd)
  simp only [emitRule]
  split
  case h_1   => rfl
  case h_2 r =>
    rw [mapM_eq_none hm (dif_neg (Nat.lt_irrefl 9))]
    rfl

-- What the rule at `ri` gives a destination, by the best key of its matches.
def emitAt (P : Page ι ρ σ ν π) (q : Request ι ν) (best : Nat → Nat → WithBot Key) (ri : Nat)
    (dst : Dest × Nat) : Found ρ :=
  (P.sheet q.sheet).rules[ri]?.elim {} fun r => P.emitKey q dst.fst r (best ri dst.snd)

theorem foldlM_emitRule {best : Nat → Nat → WithBot Key} {ms : List Nat} (founds : List (Found ρ))
    (hd : q.dests.length ≤ 9)
    (hn : ms.Nodup) (h : ∀ ri ∈ ms, ri < (P.sheet q.sheet).rules.length ∧
      (s.accum ri).layerOrder = intMin ∧ ∀ dd : Fin 9, ((s.accum ri).slots dd).key = best ri dd) :
    ∃ accum, (∀ ri, (accum ri).epoch = (s.accum ri).epoch) ∧ ms.foldlM (P.emitRule q) (s, founds) =
      some ({ s with accum }, ms.foldl (fun founds ri =>
        List.zipWith Found.append founds (q.dests.zipIdx.map (P.emitAt q best ri))) founds) := by
  induction ms generalizing s founds
  case nil => exact ⟨s.accum, fun _ => rfl, rfl⟩
  case cons ri ms hi =>
    obtain ⟨hni, hn⟩ := List.nodup_cons.mp hn
    obtain ⟨hlt, hl, hk⟩ := h ri List.mem_cons_self
    have hr := List.getElem?_eq_getElem hlt
    have he : (fun (dst, dd) => P.emitKey q dst (P.sheet q.sheet).rules[ri] (best ri dd)) =
        P.emitAt q best ri := by
      funext dst
      rw [emitAt, hr, Option.elim_some]
    rw [List.foldlM_cons, emitRule_eq hd hr hl hk, he]
    let acc := { s.accum ri with
      layerOrder := cssLayerRankFor q.layerRanks (P.rule (P.sheet q.sheet).rules[ri]).layerName }
    obtain ⟨accum, ha, hf⟩ := hi (s := { s with accum := Function.update s.accum ri acc })
      (List.zipWith Found.append founds (q.dests.zipIdx.map (P.emitAt q best ri))) hn fun x hx => by
        have hne : x ≠ ri := fun he => hni (he ▸ hx)
        simpa [hne] using h x (List.mem_cons_of_mem _ hx)
    refine ⟨accum, fun x => (ha x).trans ?_, hf⟩
    by_cases hx : x = ri <;> simp [hx, acc]

end EmitRule

end Page

end Nordstjernen.Css.Gather

open Nordstjernen.Lib

namespace Nordstjernen.Css.Gather.Page

variable {ι ρ σ ν π : Type*} [DecidableEq ι] [DecidableEq ρ] [DecidableEq σ] [DecidableEq ν]
  {P : Page ι ρ σ ν π} {s s' : State ι ρ σ ν} {q : Request ι ν} {founds : List (Found ρ)}

section Offers

omit [DecidableEq ι] [DecidableEq ρ] [DecidableEq σ]

-- The matches that a call sees.
def offers (P : Page ι ρ σ ν π) (q : Request ι ν) : List Offer :=
  (P.taken q).flatMap (P.offersOf q)

-- What a call finds, with the matched rules in the order in which they are met.
def found (P : Page ι ρ σ ν π) (q : Request ι ν) (matched : List Nat) : List (Found ρ) :=
  q.dests.zipIdx.map fun dst => Found.join (matched.map (P.emitAt q (bestOf (P.offers q)) · dst))

theorem found_eq (q : Request ι ν) (matched : List Nat) :
    matched.foldl (fun founds ri => List.zipWith Found.append founds
      (q.dests.zipIdx.map (P.emitAt q (bestOf (P.offers q)) ri))) (q.dests.map fun _ => {}) =
      P.found q matched := by
  have he : (q.dests.map fun _ => ({} : Found ρ)) = q.dests.zipIdx.map fun _ => {} := by
    simp [List.map_const']
  rw [he, Found.foldl_append]
  simp [found]

theorem mem_offers {o : Offer} : o ∈ P.offers q ↔ ∃ cand ∈ P.taken q, cand.ruleIdx = o.ruleIdx ∧
    ∃ dst, q.dests[o.dest]? = some dst ∧ P.offer? q dst cand = some o.key := by
  simp only [offers, offersOf, List.mem_flatMap, Option.mem_toList, Option.map_eq_some_iff, Prod.exists,
    List.mem_zipIdx_iff_getElem?]
  constructor
  · rintro ⟨cand, hc, dst, dd, hd, k, hk, rfl⟩
    exact ⟨cand, hc, rfl, dst, hd, hk⟩
  · rintro ⟨cand, hc, hr, dst, hd, hk⟩
    exact ⟨cand, hc, dst, o.dest, hd, o.key, hk, by rw [hr]⟩

end Offers

section Begin

omit [DecidableEq ι] [DecidableEq ρ] [DecidableEq σ] [DecidableEq ν]

theorem pseudoMask_mono {selectors : List (Option σ)} {mask i : Nat} (h : mask.testBit i) :
    (P.pseudoMask selectors mask).testBit i := by
  refine List.foldlRecOn (motive := fun mask : Nat => mask.testBit i) selectors _ h fun mask hm sel _ => ?_
  split
  · exact hm
  · exact hm
  · simp [hm]

theorem masked_pseudoMask {r : ρ} {mask : Nat} :
    P.Masked r (P.pseudoMask (P.rule r).selectors mask) := by
  intro sel hs hp
  obtain ⟨before, after, he⟩ := List.append_of_mem hs
  rw [he, pseudoMask, List.foldl_append, List.foldl_cons]
  refine pseudoMask_mono ?_
  dsimp only [Option.map_some]
  split
  case h_1 hn => cases hn
  case h_2 hn => exact absurd (Option.some.inj hn) hp
  case h_3 he => simp [Option.some.inj he]

theorem epoch_lt {e e' : UInt32} (h : e ≤ e') (hn : e' + 1 ≠ 0) : e < e' + 1 := by
  have hn : (e' + 1).toNat ≠ 0 := fun he => hn (UInt32.toNat_inj.mp he)
  rw [UInt32.toNat_add, UInt32.toNat_one] at hn
  rw [UInt32.le_iff_toNat_le] at h
  rw [UInt32.lt_iff_toNat_lt, UInt32.toNat_add, UInt32.toNat_one]
  have hlt := e'.toNat_lt
  omega

-- No rule counts as matched when a call begins.
theorem epoch_beginMatch (h : ∀ ri, (s.accum ri).epoch ≤ s.epoch) (n ri : Nat) :
    ((s.beginMatch n).accum ri).epoch < (s.beginMatch n).epoch := by
  simp only [State.beginMatch]
  split
  case isTrue      => exact (by decide : (0 : UInt32) < 1)
  case isFalse hne =>
    dsimp only
    split
    · exact epoch_lt (by simp) hne
    · exact epoch_lt (h ri) hne

theorem le_matchedCap (n : Nat) : n ≤ (s.beginMatch n).matchedCap := by
  simp only [State.beginMatch]
  split
  case isFalse h => omega
  case isTrue    =>
    refine le_growCap ?_
    split <;> simp only [gMaxUint] <;> omega

end Begin

omit [DecidableEq ι] in
theorem Ok.beginMatch (h : P.Ok s) (n : Nat) : P.Ok (s.beginMatch n) :=
  { h with epoch := fun ri => UInt32.le_of_lt (epoch_beginMatch h.epoch n ri) }

omit [DecidableEq ι] in
theorem Ok.tracks {rules : List ρ} (h : P.Ok s) (hm : ∀ r ∈ rules, P.Masked r (s.peMask r)) :
    P.Tracks rules ⟨s.beginMatch rules.length, []⟩ [] where
  ok          := h.beginMatch rules.length
  masked      := hm
  cap         := le_matchedCap rules.length
  nodup       := List.nodup_nil
  lt          := nofun
  seen        := by simp
  current ri  := by simp [UInt32.ne_of_lt (epoch_beginMatch h.epoch rules.length ri)]
  key         := nofun
  layer       := nofun

theorem Ok.ruleIndexEnsure (h : P.Ok s) (sheet : ι) :
    P.Ok (P.ruleIndexEnsure s sheet).fst ∧ (P.ruleIndexEnsure s sheet).snd = P.ruleIndexBuild sheet ∧
      ∀ r ∈ (P.sheet sheet).rules, P.Masked r ((P.ruleIndexEnsure s sheet).fst.peMask r) := by
  rw [Page.ruleIndexEnsure]
  split
  case h_1 idx hi =>
    obtain ⟨rfl, hm⟩ := h.index sheet idx hi
    exact ⟨h, rfl, hm⟩
  case h_2 =>
    have hm : ∀ r ∈ (P.sheet sheet).rules, P.Masked r
        (if r ∈ (P.sheet sheet).rules then P.pseudoMask (P.rule r).selectors (s.peMask r) else s.peMask r) := by
      intro r hr
      rw [if_pos hr]
      exact masked_pseudoMask
    refine ⟨{ h with index := ?_ }, rfl, hm⟩
    intro sheet' idx hi
    dsimp only at hi
    by_cases hs : sheet' = sheet
    case pos =>
      subst hs
      rw [Function.update_self] at hi
      exact ⟨(Option.some.inj hi).symm, hm⟩
    case neg =>
      rw [Function.update_of_ne hs] at hi
      obtain ⟨he, hm'⟩ := h.index sheet' idx hi
      refine ⟨he, fun r hr sel hsel hp => ?_⟩
      dsimp only
      split
      · exact pseudoMask_mono (hm' r hr sel hsel hp)
      · exact hm' r hr sel hsel hp

theorem gatherMatchesMulti_eq (h : P.Ok s) (q : Request ι ν) : ∃ scan₀,
    P.Tracks (P.sheet q.sheet).rules scan₀ [] ∧ P.gatherMatchesMulti s q =
      ((P.taken q).foldlM (P.testCandidate q) scan₀).bind fun scan =>
        scan.matched.foldlM (P.emitRule q) (scan.state, q.dests.map fun _ => {}) := by
  obtain ⟨ho, hi, hm⟩ := h.ruleIndexEnsure q.sheet
  obtain ⟨hp, hc⟩ := @foldl_pushArr { cap := (P.ruleIndexEnsure s q.sheet).fst.candCap }
    ((P.ruleIndexBuild q.sheet).buckets (P.node q.el)) ⟨ho.candCap, by simp⟩
  generalize hpool : ((P.ruleIndexBuild q.sheet).buckets (P.node q.el)).foldl Pool.pushArr
    { cap := (P.ruleIndexEnsure s q.sheet).fst.candCap } = pool at *
  have ho' : P.Ok { (P.ruleIndexEnsure s q.sheet).fst with candCap := pool.cap } :=
    { ho with candCap := hp.cap }
  refine ⟨_, ho'.tracks hm, ?_⟩
  simp only [gatherMatchesMulti, hi, hpool, hc, List.nil_append, List.length_nil]
  rfl

-- Where a call has a result, it is made up of the matches that it sees.
theorem gatherMatchesMulti_spec (h : P.Ok s) (q : Request ι ν) :
    (q.dests.length ≤ 9 ∨ P.offers q = []) ∧ (∃ s' matched, P.Ok s' ∧ matched.Nodup ∧
      (∀ ri ∈ matched, ri < (P.sheet q.sheet).rules.length) ∧
      (∀ ri, ri ∈ matched ↔ ∃ o ∈ P.offers q, o.ruleIdx = ri) ∧
      P.gatherMatchesMulti s q = some (s', P.found q matched)) ∨
    ¬(q.dests.length ≤ 9 ∨ P.offers q = []) ∧ P.gatherMatchesMulti s q = none := by
  obtain ⟨scan₀, ht, he⟩ := gatherMatchesMulti_eq h q
  rw [he]
  have hs : Collects (P.Tracks (P.sheet q.sheet).rules) (fun o => 9 ≤ o.dest)
      (fun scan => (P.taken q).foldlM (P.testCandidate q) scan) (P.offers q) :=
    .foldlM fun cand _ => testCandidate_collects
  obtain ⟨⟨o, ho, hb⟩, hn⟩ | ⟨hg, scan, hscan, ht⟩ := hs scan₀ [] ht <;> dsimp only at *
  case inl =>
    refine .inr ⟨?_, by rw [hn]; rfl⟩
    rintro (hd | hnil)
    · obtain ⟨-, -, -, dst, hdst, -⟩ := mem_offers.mp ho
      have hlt := (List.getElem?_eq_some_iff.mp hdst).fst
      omega
    · simp [hnil] at ho
  case inr =>
    rw [List.nil_append] at ht
    rw [hscan, Option.bind_some]
    by_cases hd : q.dests.length ≤ 9
    case pos =>
      obtain ⟨accum, ha, hf⟩ := foldlM_emitRule (q.dests.map fun _ => {}) hd ht.nodup
        fun ri hri => ⟨ht.lt ri hri, ht.layer ri hri, ht.key ri hri⟩
      refine .inl ⟨.inl hd, { scan.state with accum }, scan.matched, ?_, ht.nodup, ht.lt, ht.seen, ?_⟩
      · exact { ht.ok with epoch := fun ri => ha ri ▸ ht.ok.epoch ri }
      · rw [hf, found_eq]
    case neg =>
      cases hm : scan.matched
      case nil =>
        have hnil : P.offers q = [] := by
          refine List.eq_nil_iff_forall_not_mem.mpr fun o ho => ?_
          have hri := (ht.seen o.ruleIdx).mpr ⟨o, ho, rfl⟩
          simp [hm] at hri
        refine .inl ⟨.inr hnil, scan.state, [], ht.ok, List.nodup_nil, nofun, by simp [hnil], ?_⟩
        rw [← found_eq]
        rfl
      case cons ri ms =>
        have hne : P.offers q ≠ [] := fun hnil => by
          obtain ⟨o, ho, -⟩ := (ht.seen ri).mp (hm ▸ List.mem_cons_self)
          simp [hnil] at ho
        refine .inr ⟨by simp [hd, hne], ?_⟩
        rw [List.foldlM_cons, emitRule_eq_none (by omega)]
        rfl

end Nordstjernen.Css.Gather.Page
