import Mathlib.Tactic.Ring
import Nordstjernen.Css.Gather.Matches
import Nordstjernen.Css.Gather.Theorems.RuleIndex
import Nordstjernen.Lib.Collect

namespace Nordstjernen.Css.Gather

-- The equations of what is matched on most are derived here, once for all the proofs below.
section
attribute [local simp] fillPool Page.testDest growCap
end

section Grow

variable {need last fuel cap j : Nat}

theorem le_growCap (h : gMaxUint / 2 < cap * 2 ^ fuel) : need ≤ growCap need need (fuel + 1) cap := by
  induction fuel generalizing cap <;> rw [growCap]
  case zero           => grind
  case succ fuel hind =>
    have hc : gMaxUint / 2 < 2 * cap * 2 ^ fuel := by
      calc gMaxUint / 2
        _ < cap * 2 ^ (fuel + 1)   := h
        _ = 2 * cap * 2 ^ fuel     := by ring
    have hi := hind hc
    grind

-- The capacities are the powers of two from 64 on.
theorem growCap_eq (last fuel : Nat) (hn : need ≤ gMaxUint) (hf : 27 ≤ fuel + j) :
    growCap need last fuel (64 * 2 ^ j) = last ∧ gMaxUint / 2 < need ∨
    ∃ k, growCap need last fuel (64 * 2 ^ j) = 64 * 2 ^ k ∧ need ≤ 64 * 2 ^ k ∧
      (k = j ∨ 64 * 2 ^ (k - 1) < need) := by
  induction fuel generalizing j <;> rw [growCap]
  case zero =>
    have hp : 2 ^ 27 ≤ 2 ^ j := Nat.pow_le_pow_right (by decide) (by omega)
    exact .inr ⟨j, rfl, by simp only [gMaxUint] at hn; omega, .inl rfl⟩
  case succ fuel hind =>
    split
    case isTrue h    => exact .inr ⟨j, rfl, h, .inl rfl⟩
    case isFalse h =>
      split
      case isTrue hc  => exact .inl ⟨rfl, by omega⟩
      case isFalse hc =>
        have he : 2 * (64 * 2 ^ j) = 64 * 2 ^ (j + 1) := by ring
        rw [he]
        obtain hl | ⟨k, hk, hle, hk'⟩ := hind (j := j + 1) (by omega)
        · exact .inl hl
        · refine .inr ⟨k, hk, hle, .inr ?_⟩
          obtain rfl | hlt := hk'
          · simpa using h
          · exact hlt

end Grow

section Pool

variable {pool : Pool} {arr : List Candidate} {buckets : List (List Candidate)}

-- What the capacity of the pool can be, from the first call on.
def CapOk (cap : Nat) : Prop :=
  cap = 0 ∨ ∃ j ≤ 22, cap = 64 * 2 ^ j

structure Pool.Ok (pool : Pool) : Prop where
  cap : CapOk pool.cap
  le  : pool.cands.length ≤ pool.cap

theorem CapOk.le (h : CapOk cap) : cap ≤ 268435456 := by
  obtain rfl | ⟨j, hj, rfl⟩ := h
  · omega
  · have hp : 2 ^ j ≤ 2 ^ 22 := Nat.pow_le_pow_right (by decide) hj
    omega

theorem Pool.pushArr_eq (h : pool.Ok) (arr : List Candidate) :
    (pool.pushArr arr).Ok ∧ (pool.pushArr arr).cands =
      if pool.cands.length + arr.length ≤ 268435456 then pool.cands ++ arr else pool.cands := by
  have hc := h.cap.le
  have hl := h.le
  rw [pushArr]
  dsimp only
  split
  case isTrue ht =>
    simp only [gMaxUint] at ht
    exact ⟨h, (if_neg (by omega)).symm⟩
  case isFalse hm =>
    split
    case isFalse hn =>
      rw [if_pos (by omega)]
      exact ⟨⟨h.cap, by simpa using hn⟩, rfl⟩
    case isTrue hn =>
      obtain ⟨j, hj, hs⟩ : ∃ j ≤ 22, (if pool.cap < 64 then 64 else pool.cap) = 64 * 2 ^ j := by
        obtain h0 | ⟨j, hj, he⟩ := h.cap
        · exact ⟨0, by omega, by simp [h0]⟩
        · refine ⟨j, hj, ?_⟩
          have hp : 0 < 2 ^ j := Nat.two_pow_pos j
          rw [if_neg (by omega), he]
      rw [hs]
      have hneed : pool.cands.length + arr.length ≤ gMaxUint := by omega
      have hg := growCap_eq (j := j) gMaxUint 32 hneed (by omega)
      obtain ⟨he, hlt⟩ | ⟨k, he, hle, hk⟩ := hg <;> rw [he]
      case inl =>
        simp only [gMaxUint] at hlt
        rw [if_pos (by decide), if_neg (by omega)]
        exact ⟨h, rfl⟩
      case inr =>
        split
        case isTrue ht =>
          simp only [gMaxUint] at ht
          have hk22 : ¬k ≤ 22 := fun hk22 => by
            have hp : 2 ^ k ≤ 2 ^ 22 := Nat.pow_le_pow_right (by decide) hk22
            omega
          have hp : 2 ^ 22 ≤ 2 ^ (k - 1) := Nat.pow_le_pow_right (by decide) (by omega)
          rw [if_neg (by omega)]
          exact ⟨h, rfl⟩
        case isFalse ht =>
          simp only [gMaxUint] at ht
          have hk22 : k ≤ 22 := by
            by_contra hk22
            have hp : 2 ^ 23 ≤ 2 ^ k := Nat.pow_le_pow_right (by decide) (by omega)
            omega
          have hp : 2 ^ k ≤ 2 ^ 22 := Nat.pow_le_pow_right (by decide) hk22
          rw [if_pos (by omega)]
          exact ⟨⟨.inr ⟨k, hk22, rfl⟩, by simpa using hle⟩, rfl⟩

theorem foldl_pushArr (h : pool.Ok) :
    (buckets.foldl Pool.pushArr pool).Ok ∧ (buckets.foldl Pool.pushArr pool).cands =
      pool.cands ++ (fillPool pool.cands.length buckets).fst := by
  induction buckets generalizing pool
  case nil => exact ⟨h, by simp [fillPool]⟩
  case cons b bs hind =>
    obtain ⟨ho, hc⟩ := Pool.pushArr_eq h b
    obtain ⟨ho', hc'⟩ := hind ho
    refine ⟨ho', ?_⟩
    rw [List.foldl_cons, hc', hc, fillPool]
    split <;> simp

end Pool

section FillPool

variable {α : Type*} {n : Nat} {bs : List (List α)} {b : List α} {x : α}

theorem mem_fillPool (hb : b ∈ bs) (hx : x ∈ b) : x ∈ (fillPool n bs).fst ∨ x ∈ (fillPool n bs).snd := by
  induction bs generalizing n
  case nil => cases hb
  case cons b' bs hind =>
    rw [fillPool]
    split <;> dsimp only <;> cases hb
    case isTrue.head      => exact .inl (List.mem_append_left _ hx)
    case isFalse.head     => exact .inr (List.mem_append_left _ hx)
    case isTrue.tail hb   => exact (hind hb).imp_left (List.mem_append_right _)
    case isFalse.tail hb  => exact (hind hb).imp_right (List.mem_append_right _)

-- A pool that has room for all the buckets leaves none out.
theorem fillPool_eq (h : n + (bs.map List.length).sum ≤ 268435456) : fillPool n bs = (bs.flatten, []) := by
  induction bs generalizing n
  case nil => rfl
  case cons b bs hind =>
    simp only [List.map_cons, List.sum_cons] at h
    rw [fillPool, if_pos (by omega), hind (by omega)]
    rfl

end FillPool

end Nordstjernen.Css.Gather

open Nordstjernen.Lib

namespace Nordstjernen.Css.Gather

section Keys

variable {a b c o a' b' c' o' : Int} {slot : Slot} {k : WithBot Key}

theorem toKey_lt_iff : toKey a b c o < toKey a' b' c' o' ↔
    a < a' ∨ a = a' ∧ (b < b' ∨ b = b' ∧ (c < c' ∨ c = c' ∧ o < o')) := by
  change (toLex (a, toLex (b, toLex (c, o))) : ℤ ×ₗ ℤ ×ₗ ℤ ×ₗ ℤ) <
    toLex (a', toLex (b', toLex (c', o'))) ↔ _
  simp [Prod.Lex.toLex_lt_toLex]

theorem Slot.key_mk : Slot.key ⟨true, a, b, c, o⟩ = toKey a b c o :=
  rfl

-- A better match takes the place of what is there.
theorem Slot.key_offer : (slot.offer a b c o).key = max slot.key (toKey a b c o) := by
  obtain ⟨any, a', b', c', o'⟩ := slot
  cases any
  case false =>
    simp [offer, key]
  case true =>
    have hlt := @toKey_lt_iff a' b' c' o' a b c o
    simp only [offer, Bool.not_true, Bool.false_eq_true, false_or]
    split
    case isTrue h =>
      have hk := hlt.mpr (by omega)
      rw [key_mk, key_mk, max_eq_right (WithBot.coe_le_coe.mpr hk.le)]
    case isFalse h =>
      split
      case isTrue h' =>
        have hk := hlt.mpr (by omega)
        obtain ⟨rfl, rfl, rfl, -⟩ := h'
        rw [key_mk, key_mk, max_eq_right (WithBot.coe_le_coe.mpr hk.le)]
      case isFalse h' =>
        have hk := not_lt.mp (mt hlt.mp (by omega))
        rw [key_mk, max_eq_left (WithBot.coe_le_coe.mpr hk)]

theorem Slot.ofKey_key (h : slot.any) : Slot.ofKey slot.key = slot := by
  cases slot
  cases h
  rfl

end Keys

-- A match of the rule at `ruleIdx` for the destination at `dest`.
structure Offer where
  ruleIdx : Nat
  dest    : Nat
  key     : Key

def bestOf (offers : List Offer) (ri dd : Nat) : WithBot Key :=
  ((offers.filter fun o => o.ruleIdx = ri ∧ o.dest = dd).map (·.key)).maximum

section BestOf

variable {offers : List Offer} {o : Offer} {ri dd : Nat}

theorem bestOf_concat : bestOf (offers ++ [o]) ri dd =
    if o.ruleIdx = ri ∧ o.dest = dd then max (bestOf offers ri dd) o.key else bestOf offers ri dd := by
  by_cases h : o.ruleIdx = ri ∧ o.dest = dd
  case pos => simp [bestOf, List.filter_append, h, List.maximum_concat]
  case neg => simp only [bestOf, List.filter_append, List.filter_singleton, h, decide_false, cond_false,
    List.append_nil, if_false]

theorem bestOf_eq_bot (h : ∀ o ∈ offers, o.ruleIdx ≠ ri) : bestOf offers ri dd = ⊥ := by
  rw [bestOf, List.maximum_eq_bot, List.map_eq_nil_iff, List.filter_eq_nil_iff]
  intro o ho
  simp [h o ho]

end BestOf

namespace Page

variable {ι ρ σ ν π : Type*} {P : Page ι ρ σ ν π} {s : State ι ρ σ ν} {scan : Scan ι ρ σ ν}
  {rules : List ρ} {offers : List Offer}

-- The mask of a rule has the pseudo-elements of its selectors.
def Masked (P : Page ι ρ σ ν π) (r : ρ) (mask : Nat) : Prop :=
  ∀ sel, some sel ∈ (P.rule r).selectors → (P.selector sel).pseudoElement ≠ .none →
    mask.testBit (P.selector sel).pseudoElement.code

variable [DecidableEq ρ] [DecidableEq σ] [DecidableEq ν]

def CacheOk (P : Page ι ρ σ ν π) (cache : Option (AList fun _ : CacheKey ρ σ ν => Option Int)) : Prop :=
  ∀ table ∈ cache, ∀ key, ∀ value ∈ table.lookup key,
    value = P.ruleSelectorMatches key.rule key.selector key.element key.pseudo

-- What holds between two calls.
structure Ok (P : Page ι ρ σ ν π) (s : State ι ρ σ ν) : Prop where
  index   : ∀ sheet, ∀ idx ∈ s.index sheet, idx = P.ruleIndexBuild sheet ∧
    ∀ r ∈ (P.sheet sheet).rules, P.Masked r (s.peMask r)
  candCap : CapOk s.candCap
  epoch   : ∀ ri, (s.accum ri).epoch ≤ s.epoch
  cache   : P.CacheOk s.cache

-- What holds in the middle of a call, where these matches have been seen.
structure Tracks (P : Page ι ρ σ ν π) (rules : List ρ) (scan : Scan ι ρ σ ν) (offers : List Offer) :
    Prop where
  ok      : P.Ok scan.state
  masked  : ∀ r ∈ rules, P.Masked r (scan.state.peMask r)
  cap     : rules.length ≤ scan.state.matchedCap
  nodup   : scan.matched.Nodup
  lt      : ∀ ri ∈ scan.matched, ri < rules.length
  seen    : ∀ ri, ri ∈ scan.matched ↔ ∃ o ∈ offers, o.ruleIdx = ri
  current : ∀ ri, ri ∈ scan.matched ↔ (scan.state.accum ri).epoch = scan.state.epoch
  key     : ∀ ri ∈ scan.matched, ∀ dd, ((scan.state.accum ri).slots dd).key = bestOf offers ri dd
  layer   : ∀ ri ∈ scan.matched, (scan.state.accum ri).layerOrder = intMin

theorem Tracks.length_lt (h : P.Tracks rules scan offers) {ri : Nat} (hr : ri < rules.length)
    (hn : ri ∉ scan.matched) : scan.matched.length < scan.state.matchedCap := by
  have hp : (ri :: scan.matched).Nodup := List.nodup_cons.mpr ⟨hn, h.nodup⟩
  have hs : ri :: scan.matched ⊆ List.range rules.length := by
    intro x hx
    rw [List.mem_range]
    obtain rfl | hx := List.mem_cons.mp hx
    · exact hr
    · exact h.lt x hx
  have hl := (List.subperm_of_subset hp hs).length_le
  rw [List.length_range, List.length_cons] at hl
  exact Nat.lt_of_lt_of_le hl h.cap

-- The accumulator of a rule that matches stands for what has been seen of it.
theorem Tracks.renew (h : P.Tracks rules scan offers) (ri : Nat) :
    let acc := (scan.state.accum ri).renew scan.state.epoch
    acc.epoch = scan.state.epoch ∧ acc.layerOrder = intMin ∧
      ∀ dd, (acc.slots dd).key = bestOf offers ri dd := by
  rw [Accum.renew]
  split
  case isTrue he =>
    have hm := (h.current ri).mpr he
    exact ⟨he, h.layer ri hm, h.key ri hm⟩
  case isFalse he =>
    refine ⟨rfl, rfl, fun dd => ?_⟩
    rw [bestOf_eq_bot fun o ho hr => he ((h.current ri).mp ((h.seen ri).mpr ⟨o, ho, hr⟩))]
    rfl

theorem Tracks.matched (h : P.Tracks rules scan offers) {ri : Nat} (hr : ri < rules.length) :
    let matched' :=
      if (scan.state.accum ri).epoch ≠ scan.state.epoch ∧ scan.matched.length < scan.state.matchedCap
      then scan.matched ++ [ri] else scan.matched
    matched'.Nodup ∧ ∀ x, x ∈ matched' ↔ x ∈ scan.matched ∨ x = ri := by
  by_cases hm : ri ∈ scan.matched
  case pos =>
    rw [if_neg fun hc => hc.left ((h.current ri).mp hm)]
    exact ⟨h.nodup, fun x => ⟨.inl, by rintro (hx | rfl) <;> assumption⟩⟩
  case neg =>
    rw [if_pos ⟨fun he => hm ((h.current ri).mpr he), h.length_lt hr hm⟩]
    exact ⟨List.nodup_append.mpr ⟨h.nodup, List.nodup_singleton ri, by grind⟩, by simp⟩

theorem Tracks.record (h : P.Tracks rules scan offers) {ri dd : Nat} {sel : Selector π} {order : Int}
    (hr : ri < rules.length) (hd : dd < 9) : ∃ scan', scan.record ri dd sel order = some scan' ∧
      P.Tracks rules scan' (offers ++ [⟨ri, dd, sel.key order⟩]) := by
  obtain ⟨he, hl, hk⟩ := h.renew ri
  obtain ⟨hnd, hm⟩ := h.matched hr
  rw [Scan.record]
  dsimp only
  rw [dif_pos hd]
  generalize (scan.state.accum ri).renew scan.state.epoch = acc at *
  refine ⟨_, rfl, ?_⟩
  constructor <;> dsimp only
  case ok =>
    refine { h.ok with epoch := fun x => ?_ }
    by_cases hx : x = ri
    case pos => simp [hx, he]
    case neg => simpa [hx] using h.ok.epoch x
  case masked => exact h.masked
  case cap    => exact h.cap
  case nodup  => exact hnd
  case lt =>
    intro x hx
    obtain hx | rfl := (hm x).mp hx
    · exact h.lt x hx
    · exact hr
  case seen =>
    intro x
    rw [hm, h.seen]
    simp [or_and_right, exists_or, eq_comm]
  case current =>
    intro x
    rw [hm, h.current]
    by_cases hx : x = ri
    case pos => simp [hx, he]
    case neg => simp [hx]
  case key =>
    intro x hx dd'
    rw [bestOf_concat]
    by_cases hxr : x = ri
    case pos =>
      subst hxr
      by_cases hdd : dd' = ⟨dd, hd⟩
      case pos => simp [hdd, Slot.key_offer, hk, Selector.key]
      case neg =>
        have hne : dd ≠ dd' := fun he => hdd (Fin.ext he.symm)
        simp [hdd, hne, hk]
    case neg =>
      have hx := ((hm x).mp hx).resolve_right hxr
      simp [hxr, Ne.symm hxr, h.key x hx]
  case layer =>
    intro x hx
    by_cases hxr : x = ri
    case pos => simp [hxr, hl]
    case neg => simpa [hxr] using h.layer x (((hm x).mp hx).resolve_right hxr)

-- The cache changes nothing but itself.
theorem cachedMatch_eq (h : P.CacheOk s.cache) (key : CacheKey ρ σ ν) :
    ∃ cache, P.CacheOk cache ∧ P.cachedMatch s key =
      ({ s with cache }, P.ruleSelectorMatches key.rule key.selector key.element key.pseudo) := by
  rw [cachedMatch]
  split
  case h_1 value hl =>
    obtain ⟨table, ht, hv⟩ := Option.bind_eq_some_iff.mp hl
    exact ⟨s.cache, h, by rw [h table ht key value hv]⟩
  case h_2 =>
    refine ⟨_, ?_, rfl⟩
    intro table ht key' value hv
    obtain ⟨table', ht', rfl⟩ := Option.map_eq_some_iff.mp ht
    split at hv
    case isTrue => exact h table' ht' key' value hv
    case isFalse =>
      by_cases hk : key' = key
      case pos =>
        subst hk
        rw [AList.lookup_insert] at hv
        exact (Option.some.inj hv).symm
      case neg =>
        rw [AList.lookup_insert_ne hk] at hv
        exact h table' ht' key' value hv

theorem Tracks.setCache {cache} (h : P.Tracks rules scan offers) (hc : P.CacheOk cache) (used : Bool) :
    P.Tracks rules ⟨{ scan.state with cache, containerFeaturesUsed := used }, scan.matched⟩ offers :=
  { h with ok := { h.ok with cache := hc } }

section TestDest

variable {el : ν} {ri : Nat} {r : ρ} {sel : Option σ} {dst : Dest} {dd : Nat} {k : Key}

theorem testDest_of_none (h : P.Tracks rules scan offers) (hk : P.keyOf? el dst.pe r sel = none)
    (hc : ¬(P.rule r).containerCondition.any fun cond => !P.containerCondMatches cond) :
    ∃ scan', P.testDest el ri r sel scan (dst, dd) = some scan' ∧ P.Tracks rules scan' offers := by
  rw [keyOf?, if_neg hc] at hk
  simp only [testDest]
  split
  case isTrue  => exact ⟨scan, rfl, h⟩
  case isFalse =>
    split
    case isTrue     => exact ⟨scan, rfl, h⟩
    case isFalse hp =>
      obtain ⟨cache, hcache, he⟩ := cachedMatch_eq h.ok.cache ⟨r, sel, el, dst.pe⟩
      have ht := h.setCache hcache scan.state.containerFeaturesUsed
      rw [he]
      dsimp only
      cases ho : P.ruleSelectorMatches r sel el dst.pe <;> cases sel
      case some.some order s =>
        -- A selector that matches has a key.
        simp_all
      all_goals exact ⟨_, rfl, ht⟩

theorem testDest_of_some (ri dd : Nat) (h : P.Tracks rules scan offers) (hr : r ∈ rules)
    (hs : sel ∈ (P.rule r).selectors) (hk : P.keyOf? el dst.pe r sel = some k) :
    ∃ scan' s order, P.Tracks rules scan' offers ∧ (P.selector s).key order = k ∧
      P.testDest el ri r sel scan (dst, dd) = scan'.record ri dd (P.selector s) order := by
  obtain ⟨s, order, rfl, hp, ho, hk⟩ := keyOf?_eq_some hk
  obtain ⟨cache, hcache, he⟩ := cachedMatch_eq h.ok.cache ⟨r, some s, el, dst.pe⟩
  have hm : ¬(dst.pe ≠ .none ∧ !(scan.state.peMask r).testBit dst.pe.code) := by
    rintro ⟨hn, hb⟩
    rw [← hp] at hn hb
    simp [h.masked r hr s hs hn] at hb
  refine ⟨_, s, order, h.setCache hcache
    (scan.state.containerFeaturesUsed || (P.rule r).containerCondition.isSome), hk, ?_⟩
  simp only [testDest]
  rw [if_neg hm, if_neg (by simp [hp]), he, ho]

theorem testDest_collects (hr : rules[ri]? = some r) (hs : sel ∈ (P.rule r).selectors)
    (hc : ¬(P.rule r).containerCondition.any fun cond => !P.containerCondMatches cond) :
    Collects (P.Tracks rules) (fun o => 9 ≤ o.dest) (P.testDest el ri r sel · (dst, dd))
      ((P.keyOf? el dst.pe r sel).map (Offer.mk ri dd)).toList := by
  intro scan seen ht
  cases hk : P.keyOf? el dst.pe r sel
  case none =>
    obtain ⟨scan', he, ht'⟩ := testDest_of_none ht hk hc
    exact .inr ⟨by simp, scan', he, by simpa using ht'⟩
  case some k =>
    obtain ⟨scan', s, order, ht', rfl, he⟩ := testDest_of_some ri dd ht (List.mem_of_getElem? hr) hs hk
    dsimp only
    rw [he]
    by_cases hd : dd < 9
    case pos =>
      obtain ⟨scan'', hs', ht''⟩ := ht'.record (List.getElem?_eq_some_iff.mp hr).fst hd
      exact .inr ⟨by simpa using hd, scan'', hs', by simpa using ht''⟩
    case neg =>
      refine .inl ⟨by simpa using hd, ?_⟩
      simp [Scan.record, hd]

end TestDest

-- The matches of a candidate.
def offersOf (P : Page ι ρ σ ν π) (q : Request ι ν) (cand : Candidate) : List Offer :=
  q.dests.zipIdx.flatMap fun (dst, dd) => ((P.offer? q dst cand).map (Offer.mk cand.ruleIdx dd)).toList

theorem testCandidate_collects {q : Request ι ν} {cand : Candidate} :
    Collects (P.Tracks (P.sheet q.sheet).rules) (fun o => 9 ≤ o.dest) (P.testCandidate q · cand)
      (P.offersOf q cand) := by
  have hnil (ho : ∀ dst ∈ q.dests, P.offer? q dst cand = none) : P.offersOf q cand = [] := by
    rw [offersOf, List.flatMap_eq_nil_iff]
    rintro ⟨dst, dd⟩ hd
    simp [ho dst (List.fst_mem_of_mem_zipIdx hd)]
  simp only [testCandidate]
  split
  case h_1 hr =>
    rw [hnil fun dst _ => by simp [offer?, hr]]
    exact .of_some fun s seen hi => ⟨s, rfl, hi⟩
  case h_2 r hr =>
    split
    case h_1 hs =>
      rw [hnil fun dst _ => by simp [offer?, hr, hs]]
      exact .of_some fun s seen hi => ⟨s, rfl, hi⟩
    case h_2 sel hs =>
      split
      case isTrue hc =>
        rw [hnil fun dst _ => by simp [offer?, hr, hs, keyOf?, hc]]
        exact .of_some fun s seen hi => ⟨s, rfl, hi⟩
      case isFalse hc =>
        have ho : P.offersOf q cand = q.dests.zipIdx.flatMap fun (dst, dd) =>
            ((P.keyOf? q.el dst.pe r sel).map (Offer.mk cand.ruleIdx dd)).toList := by
          simp [offersOf, offer?, hr, hs]
        rw [ho]
        refine .foldlM ?_
        rintro ⟨dst, dd⟩ -
        exact testDest_collects hr (List.mem_of_getElem? hs) hc

end Page

end Nordstjernen.Css.Gather
