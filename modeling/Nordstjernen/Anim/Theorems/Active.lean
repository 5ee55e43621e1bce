import Mathlib.Algebra.BigOperators.Group.List.Basic
import Mathlib.Data.List.Nodup
import Nordstjernen.Anim.Engine
import Nordstjernen.Lib.Tally

open Nordstjernen.Glib Nordstjernen.Lib

namespace Nordstjernen.Anim

variable {ν D α : Type} {count count' : Nat} {now : Int}

section Generic

variable {g : GenericChan D} {gs : List (GenericChan D)}

def activeIn (gs : List (GenericChan D)) : Nat :=
  gs.countP (·.chan.active)

@[simp]
theorem activeIn_cons : activeIn (g :: gs) = activeIn gs + g.chan.active.toNat := by
  rw [activeIn, List.countP_cons, activeIn]
  cases g.chan.active <;> rfl

end Generic

namespace AnimState

variable {s : AnimState ν D}

-- How many channels run: are active, and not a paused keyframe animation.
def runningChannels (s : AnimState ν D) : Nat :=
  s.activeChannels - (s.anim.active && s.anim.paused).toNat

theorem isActive_iff : s.isActive ↔ 0 < s.runningChannels := by
  have hg : 0 < activeIn s.generic ↔ s.generic.any (·.chan.active) := by
    rw [activeIn, List.countP_pos_iff, List.any_eq_true]
  have hb (x : Bool) : 0 < x.toNat ↔ x := by cases x <;> simp
  have ha : s.anim.active.toNat - (s.anim.active && s.anim.paused).toNat =
      (s.anim.active && !s.anim.paused).toNat := by
    cases s.anim.active <;> cases s.anim.paused <;> rfl
  have hle : (s.anim.active && s.anim.paused).toNat ≤ s.anim.active.toNat := by
    cases s.anim.active <;> cases s.anim.paused <;> decide
  have hr : s.runningChannels = s.opacity.active.toNat + s.transform.active.toNat +
      s.color.active.toNat + s.bg.active.toNat + (s.anim.active && !s.anim.paused).toNat +
      activeIn s.generic := by
    rw [← ha, runningChannels, activeChannels, activeIn]
    omega
  simp only [isActive, Bool.or_eq_true]
  rw [← hg, hr]
  simp only [← hb]
  omega

end AnimState

namespace Engine

variable [DecidableEq ν] {a b : Engine ν D} {s : AnimState ν D} {node : ν}

-- What every reachable engine has.
structure Tracked (a : Engine ν D) : Prop where
  nodup    : (a.states.map (·.node)).Nodup
  count    : a.activeCount = (a.states.map (·.activeChannels)).sum
  atMost   : a.activeCount ≤ maxActive
  distinct : a.active.Nodup
  active   : ∀ node, node ∈ a.active ↔ ∃ s ∈ a.states, s.node = node ∧ s.isActive

theorem of_lookup (h : a.lookup node = some s) : s ∈ a.states ∧ s.node = node :=
  ⟨List.mem_of_find?_eq_some h, by simpa using List.find?_some h⟩

theorem Tracked.change (h : Tracked a) (hs : b.states = a.states.filter (·.node ≠ s.node) ++ [s])
    (hc : Tally maxActive (((a.lookup s.node).map (·.activeChannels)).getD 0) a.activeCount
      s.activeChannels b.activeCount)
    (hd : b.active.Nodup)
    (ha : ∀ node, node ∈ b.active ↔ if node = s.node then s.isActive = true else node ∈ a.active) :
    Tracked b := by
  have ⟨e, l⟩ := hc _ (h.count.trans (sum_eq_rest_add h.nodup))
  refine ⟨?nodup, ?count, l h.atMost, hd, ?active⟩
  case nodup =>
    rw [hs, List.map_append, List.map_singleton, ← List.concat_eq_append, List.nodup_concat]
    refine ⟨fun hm => ?_, h.nodup.sublist (List.filter_sublist.map _)⟩
    have ⟨r, hr, hn⟩ := List.mem_map.mp hm
    exact absurd hn (by simpa using (List.mem_filter.mp hr).right)
  case count =>
    rw [hs, List.map_append, List.sum_append, e]
    rfl
  case active =>
    intro node
    rw [ha, hs]
    by_cases hn : node = s.node
    case pos =>
      subst hn
      constructor <;> intro hm
      case mp => exact ⟨s, by simp, rfl, by simpa using hm⟩
      case mpr =>
        have ⟨r, hr, hn, hi⟩ := hm
        rcases List.mem_append.mp hr with hr | hr
        · exact absurd hn (by simpa using (List.mem_filter.mp hr).right)
        · rw [if_pos rfl, ← List.mem_singleton.mp hr]
          exact hi
    case neg =>
      rw [if_neg hn, h.active]
      constructor <;> intro ⟨r, hr, e, hi⟩
      case mp => exact ⟨r, List.mem_append_left _ (List.mem_filter.mpr ⟨hr, by simpa [e]⟩), e, hi⟩
      case mpr =>
        rcases List.mem_append.mp hr with hr | hr
        · exact ⟨r, (List.mem_filter.mp hr).left, e, hi⟩
        · exact absurd (e ▸ congrArg AnimState.node (List.mem_singleton.mp hr)) hn

omit [DecidableEq ν] in
theorem tracked_new : Tracked ({} : Engine ν D) where
  nodup    := List.nodup_nil
  count    := rfl
  atMost   := Nat.zero_le _
  distinct := List.nodup_nil
  active   := by simp

theorem Tracked.put_track (h : Tracked a)
    (hc : Tally maxActive (((a.lookup s.node).map (·.activeChannels)).getD 0) a.activeCount
      s.activeChannels count) :
    Tracked ((a.put s count).track s) := by
  refine h.change rfl hc ?_ ?_ <;> rw [track, put] <;> dsimp only
  case refine_1 =>
    split
    case isTrue  => exact h.distinct.insert
    case isFalse => exact h.distinct.erase _
  case refine_2 =>
    intro node
    cases ha : s.isActive <;> by_cases hn : node = s.node <;>
      simp [hn, h.distinct.mem_erase_iff, List.mem_insert_iff]

theorem Tracked.dropState (h : Tracked a) (hs : s ∈ a.states) : Tracked (a.dropState s) where
  nodup    := h.nodup.sublist (List.filter_sublist.map _)
  count    := by
    have hl : a.states.find? (·.node = s.node) = some s := find?_key_of_mem h.nodup hs
    have hc := h.count.trans (sum_eq_rest_add (k := s.node) h.nodup)
    rw [hl] at hc
    rw [Engine.dropState, hc]
    exact Nat.add_sub_cancel ..
  atMost   := (Nat.sub_le ..).trans h.atMost
  distinct := h.distinct.erase _
  active   := by
    intro node
    rw [Engine.dropState, h.distinct.mem_erase_iff, h.active]
    constructor <;> intro hr
    case mp =>
      have ⟨hn, r, hm, e, hi⟩ := hr
      exact ⟨r, List.mem_filter.mpr ⟨hm, by simpa [e]⟩, e, hi⟩
    case mpr =>
      have ⟨r, hm, e, hi⟩ := hr
      have ⟨hm, hn⟩ := List.mem_filter.mp hm
      exact ⟨by simpa [e] using hn, r, hm, e, hi⟩

theorem Tracked.foldl_dropState (h : Tracked a) {dead : List (AnimState ν D)}
    (hn : (dead.map (·.node)).Nodup) (hd : ∀ s ∈ dead, s ∈ a.states) :
    Tracked (dead.foldl Engine.dropState a) := by
  induction dead generalizing a
  case nil           => exact h
  case cons s dead ih =>
    have ⟨hs, hn⟩ := List.nodup_cons.mp hn
    refine ih (h.dropState (hd s List.mem_cons_self)) hn fun r hr => ?_
    have he : r.node ≠ s.node := fun e => hs (List.mem_map.mpr ⟨r, hr, e⟩)
    exact List.mem_filter.mpr ⟨hd r (List.mem_cons_of_mem _ hr), by simpa using he⟩

theorem Tracked.prune (h : Tracked a) {live : ν → Bool} : Tracked (a.prune live) :=
  h.foldl_dropState (h.nodup.sublist (List.filter_sublist.map _))
    fun _ hs => (List.mem_filter.mp hs).left

omit [DecidableEq ν] in
theorem Tracked.rebase (h : Tracked a) {base : Int} : Tracked (a.rebase base) where
  nodup    := by
    rw [Engine.rebase, List.map_map]
    exact h.nodup
  count    := by
    rw [Engine.rebase, List.map_map]
    exact h.count
  atMost   := h.atMost
  distinct := h.distinct
  active   := by
    intro node
    rw [Engine.rebase, h.active]
    constructor <;> intro hr
    case mp =>
      have ⟨r, hm, e, hi⟩ := hr
      exact ⟨_, List.mem_map_of_mem hm, e, hi⟩
    case mpr =>
      have ⟨_, hm, e, hi⟩ := hr
      obtain ⟨r, hr, rfl⟩ := List.mem_map.mp hm
      exact ⟨r, hr, e, hi⟩

end Engine

section Steps

variable [Double D]

namespace Chan

variable {ch ch' : Chan D α}

theorem tally_of_observe {cur : α} {differs : α → α → Bool} {e : Option (Entry D)}
    (h : ch.observe count cur differs e now = (ch', count')) :
    Tally maxActive ch.active.toNat count ch'.active.toNat count' := by
  obtain ⟨rfl, rfl⟩ := Prod.ext_iff.mp h
  clear h
  fun_cases observe
  case case1 h => exact .start (Bool.and_eq_true_iff.mp h).right
  case case2   => exact .refl
  case case3   => exact .refl

theorem tally_of_tick (h : ch.tick count now = (ch', count')) :
    Tally maxActive ch.active.toNat count ch'.active.toNat count' := by
  obtain ⟨rfl, rfl⟩ := Prod.ext_iff.mp h
  clear h
  fun_cases tick
  case case2 => exact .refl
  case case1 ha =>
    fun_cases advance
    case case1 => exact .refl
    case case2 => rw [ha]; exact .release
    case case3 => exact .refl

end Chan

section Observe

variable {style : Style D} {e : Option (Entry D)}

theorem tally_of_observeColorChan {ch ch' : Chan D Rgba} {cur : Option Rgba}
    (h : observeColorChan count ch cur e now = (ch', count')) :
    Tally maxActive ch.active.toNat count ch'.active.toNat count' := by
  cases cur
  case none     => cases h; exact .refl
  case some cur => exact Chan.tally_of_observe h

theorem tally_of_observeTransform {ch ch' : Chan D (List (TransformOp D))}
    (h : observeTransform count ch style e now = (ch', count')) :
    Tally maxActive ch.active.toNat count ch'.active.toNat count' := by
  rw [observeTransform] at h
  cases hc : style.transform <;> rw [hc] at h
  case none     => cases h; exact .refl
  case some cur => exact Chan.tally_of_observe h

end Observe

section Generic

variable {gs gs' : List (GenericChan D)}

theorem tally_of_observeGeneric {cur name : CString} {e : Entry D}
    (h : observeGeneric count cur name e now gs = (gs', count')) :
    Tally maxActive (activeIn gs) count (activeIn gs') count' := by
  obtain ⟨rfl, rfl⟩ := Prod.ext_iff.mp h
  clear h
  fun_induction observeGeneric <;> simp only [activeIn_cons]
  case case1 h    => exact (Chan.tally_of_observe h).frame 0
  case case2 h    => exact (Chan.tally_of_observe h).frame _
  case case3 h ih => rw [h] at ih; exact ih.frame_right _

theorem tally_of_observeGenerics {style : Style D} {es : List (Entry D)}
    (h : observeGenerics style now es gs count = (gs', count')) :
    Tally maxActive (activeIn gs) count (activeIn gs') count' := by
  obtain ⟨rfl, rfl⟩ := Prod.ext_iff.mp h
  clear h
  fun_induction observeGenerics
  case case1      => exact .refl
  case case2 h ih => exact (tally_of_observeGeneric h).trans ih
  case case3 ih   => exact ih

theorem tally_of_tickGenerics {node : ν} {events : List (AnimEvent ν D)}
    (h : tickGenerics node now gs count = (gs', count', events)) :
    Tally maxActive (activeIn gs) count (activeIn gs') count' := by
  obtain ⟨rfl, hc⟩ := Prod.ext_iff.mp h
  obtain ⟨rfl, -⟩ := Prod.ext_iff.mp hc
  clear h hc
  fun_induction tickGenerics <;> simp only [activeIn_cons]
  case case1         => exact .refl
  case case2 ha _ _ _ h ih =>
    rw [h] at ih
    rw [(Bool.and_eq_true_iff.mp ha).left]
    exact (Tally.release.frame _).trans (ih.frame_right _)
  case case3 h ih =>
    rw [h] at ih
    exact ih.frame_right _

end Generic

namespace KeyframeAnim

variable {anim anim' : KeyframeAnim D} {any : Bool}

theorem tally_of_advance (h : anim.advance count now = (anim', count', any)) :
    Tally maxActive anim.active.toNat count anim'.active.toNat count' := by
  obtain ⟨rfl, hc⟩ := Prod.ext_iff.mp h
  obtain ⟨rfl, -⟩ := Prod.ext_iff.mp hc
  clear h hc
  fun_cases advance
  case case1 => exact .refl
  case case2 => exact .refl
  case case3 => exact .stop
  case case4 => exact .refl

theorem active_keep {paused : Bool} : (anim.keep paused now).active = anim.active := by
  fun_cases keep <;> rfl

theorem tally_of_observe {style : Style D} {skip : Bool}
    (h : anim.observe count style skip now = (anim', count')) :
    Tally maxActive anim.active.toNat count anim'.active.toNat count' := by
  obtain ⟨rfl, rfl⟩ := Prod.ext_iff.mp h
  clear h
  fun_cases observe
  case case1 ha         => rw [ha]; exact .release
  case case3 ha         => rw [ha]; exact .release
  case case7            => rw [active_keep]; exact .refl
  case case8 hs _ _ _ _ _ _ h => exact (Tally.start hs).trans (tally_of_advance h)
  case case9 hs _ _ _   => exact .start hs
  all_goals exact .refl

section Emit

variable {node : ν} {events : List (AnimEvent ν D)}

theorem active_of_emitStart (h : anim.emitStart node now = (anim', events)) :
    anim'.active = anim.active := by
  rw [emitStart] at h
  split at h <;> cases h <;> rfl

theorem active_of_emitIterations (h : anim.emitIterations node now = (anim', events)) :
    anim'.active = anim.active := by
  rw [emitIterations] at h
  split at h <;> cases h <;> rfl

theorem active_of_emitEnd (h : anim.emitEnd node = (anim', events)) :
    anim'.active = anim.active := by
  rw [emitEnd] at h
  split at h <;> cases h <;> rfl

end Emit

theorem tally_of_tick {node : ν} {events : List (AnimEvent ν D)}
    (h : anim.tick node now count = (anim', count', any, events)) :
    Tally maxActive anim.active.toNat count anim'.active.toNat count' := by
  obtain ⟨rfl, hc⟩ := Prod.ext_iff.mp h
  obtain ⟨rfl, -⟩ := Prod.ext_iff.mp hc
  clear h hc
  fun_cases tick
  case case1 _ _ _ h₁ _ _ h₂ _ _ h₃ _ _ h₄ =>
    simp only [active_of_emitEnd h₄, active_of_emitIterations h₃, active_of_emitStart h₂]
    exact tally_of_advance h₁
  case case2 => exact .refl

end KeyframeAnim

namespace AnimState

variable {s s' : AnimState ν D} {style : Style D} {skip : Bool}

theorem tally_of_observeTransition (h : s.observeTransition count style skip now = (s', count')) :
    Tally maxActive s.activeChannels count s'.activeChannels count' := by
  obtain ⟨rfl, rfl⟩ := Prod.ext_iff.mp h
  clear h
  fun_cases observeTransition
  case case1 => exact .refl
  case case2 => exact .refl
  case case3 _ _ h₁ _ _ h₂ _ _ h₃ _ _ h₄ _ _ h₅ =>
    exact (((((Chan.tally_of_observe h₁).add (tally_of_observeTransform h₂)).add
      (tally_of_observeColorChan h₃)).add (tally_of_observeColorChan h₄)).frame_right _).add
        (tally_of_observeGenerics h₅)

theorem tally_of_observe (h : s.observe count style skip now = (s', count')) :
    Tally maxActive s.activeChannels count s'.activeChannels count' := by
  obtain ⟨rfl, rfl⟩ := Prod.ext_iff.mp h
  clear h
  fun_cases observe
  case case1 h₁ _ _ h₂ =>
    exact (tally_of_observeTransition h₁).trans
      (((KeyframeAnim.tally_of_observe h₂).frame _).frame_right _)

theorem tally_of_tick :
    Tally maxActive s.activeChannels count (s.tick count now).state.activeChannels
      (s.tick count now).count := by
  fun_cases tick
  case case1 _ _ h₁ _ _ h₂ _ _ h₃ _ _ h₄ _ _ _ _ h₅ _ _ _ h₆ =>
    exact (((((Chan.tally_of_tick h₁).add (Chan.tally_of_tick h₂)).add (Chan.tally_of_tick h₃)).add
      (Chan.tally_of_tick h₄)).add (KeyframeAnim.tally_of_tick h₅)).add (tally_of_tickGenerics h₆)

theorem node_observe : (s.observe count style skip now).fst.node = s.node := by
  fun_cases observe
  case case1 h _ _ _ =>
    obtain ⟨rfl, -⟩ := Prod.ext_iff.mp h
    fun_cases observeTransition <;> rfl

theorem node_tick : (s.tick count now).state.node = s.node := by
  fun_cases tick
  rfl

end AnimState

namespace Engine

variable [DecidableEq ν] {a : Engine ν D} {node : ν} {style : Style D} {skip : Bool}

theorem Tracked.observe (h : Tracked a) : Tracked (a.observe node style skip now) := by
  fun_cases Engine.observe
  case case1 s hl s' count ho =>
    have hn : s'.node = s.node := by
      rw [← AnimState.node_observe (s := s), ho]
    apply h.put_track
    rw [hn, (of_lookup hl).right, hl]
    exact AnimState.tally_of_observe ho
  case case2 hl _ s' count ho =>
    have hn : s'.node = (AnimState.new node : AnimState ν D).node := by
      rw [← AnimState.node_observe (s := AnimState.new node), ho]
    apply h.put_track
    rw [hn, AnimState.new, hl]
    exact AnimState.tally_of_observe ho
  case case3 => exact h

theorem Tracked.tickNode (h : Tracked a) (hm : node ∈ a.active) :
    Tracked (a.tickNode now node).fst := by
  fun_cases Engine.tickNode
  case case1 => exact h
  case case2 s hl t b =>
    have hb : b.active = a.active := rfl
    have hn : t.state.node = node := AnimState.node_tick.trans (of_lookup hl).right
    refine h.change (s := t.state) (by rfl) ?_ ?_ ?_ <;> dsimp only
    case refine_1 =>
      rw [hn, hl]
      exact AnimState.tally_of_tick
    case refine_2 =>
      split
      case isTrue  => exact h.distinct
      case isFalse => exact h.distinct.erase _
    case refine_3 =>
      intro other
      rw [hn]
      cases t.state.isActive <;> by_cases ho : other = node <;>
        simp [ho, hm, hb, h.distinct.mem_erase_iff]

theorem mem_active_tickNode (h : node ∈ a.active) {other : ν} (hn : node ≠ other) :
    node ∈ (a.tickNode now other).fst.active := by
  fun_cases Engine.tickNode
  case case1 => exact h
  case case2 =>
    dsimp only
    split
    case isTrue  => exact h
    case isFalse => exact (List.mem_erase_of_ne hn).mpr h

theorem Tracked.tickNodes (h : Tracked a) {nodes : List ν} (hn : nodes.Nodup)
    (hm : ∀ node ∈ nodes, node ∈ a.active) : Tracked (tickNodes now nodes a).fst := by
  induction nodes generalizing a
  case nil            => exact h
  case cons n rest ih =>
    have ⟨ho, hn⟩ := List.nodup_cons.mp hn
    refine ih (h.tickNode (hm n List.mem_cons_self)) hn fun node hr => ?_
    exact mem_active_tickNode (hm node (List.mem_cons_of_mem _ hr)) fun e => ho (e ▸ hr)

theorem Tracked.tick (h : Tracked a) {order : HashOrder ν} : Tracked (a.tick order now).fst :=
  have hp := order.perm a.active
  h.tickNodes (hp.nodup_iff.mpr h.distinct) fun _ => hp.mem_iff.mp

theorem Tracked.step (h : Tracked a) {call : Call ν D} : Tracked (a.step call) := by
  cases call
  case observe     => exact h.observe
  case tick        => exact h.tick
  case prune       => exact h.prune
  case rebase      => exact h.rebase
  case drainEvents => exact ⟨h.nodup, h.count, h.atMost, h.distinct, h.active⟩

theorem Tracked.foldl_step (h : Tracked a) {calls : List (Call ν D)} :
    Tracked (calls.foldl Engine.step a) := by
  induction calls generalizing a
  case nil        => exact h
  case cons _ _ i => exact i h.step

-- The counter and the set of an engine after any calls. A paused animation counts as active, but a
-- tick has nothing to do for it.
theorem counted_and_tracked_run (calls : List (Call ν D)) :
    (run calls).activeCount = ((run calls).states.map (·.activeChannels)).sum ∧
    (run calls).activeCount ≤ maxActive ∧
    ∀ node, node ∈ (run calls).active ↔
      ∃ s ∈ (run calls).states, s.node = node ∧ 0 < s.runningChannels := by
  have h : Tracked (run calls) := tracked_new.foldl_step
  refine ⟨h.count, h.atMost, fun node => ?_⟩
  simp only [h.active, AnimState.isActive_iff]

end Engine

end Steps

-- An element whose only channel is a keyframe animation that starts paused.
def pausedCalls : List (Call Unit ℚ) :=
  let entry : Entry ℚ :=
    { name := some "spin".toList, durationMs := 1000, delayMs := 0, iterCount := 0, paused := true }
  [.observe () { animation := some [entry] } false 0]

theorem not_active_paused :
    ¬∀ node, node ∈ (Engine.run pausedCalls).active ↔
      ∃ s ∈ (Engine.run pausedCalls).states, s.node = node ∧ 0 < s.activeChannels := by
  intro h
  have hn : () ∉ (Engine.run pausedCalls).active := by decide +kernel
  have hs : ∃ s ∈ (Engine.run pausedCalls).states, s.node = () ∧ 0 < s.activeChannels := by
    decide +kernel
  exact hn ((h ()).mpr hs)

end Nordstjernen.Anim
