import Nordstjernen.Anim.History
import Nordstjernen.Anim.Theorems.Active

open Nordstjernen.Glib Nordstjernen.Lib

namespace Nordstjernen.Anim

variable {ν D : Type}

namespace Engine

variable [DecidableEq ν] {a : Engine ν D} {s : AnimState ν D} {node other : ν} {count : Nat}

theorem lookup_put_self : (a.put s count).lookup s.node = some s := by
  have hnone : (a.states.filter (·.node ≠ s.node)).find? (·.node = s.node) = none :=
    List.find?_eq_none.mpr fun s' hs' => by simpa using (List.mem_filter.mp hs').2
  rw [lookup, put, List.find?_append, hnone]
  simp

theorem lookup_filter {live : AnimState ν D → Bool} (hl : ∀ s, s.node = node → live s = true) :
    (a.states.filter live).find? (·.node = node) = a.lookup node := by
  rw [lookup, List.find?_filter]
  congr 1
  funext s
  by_cases hs : s.node = node
  case pos => simp [hs, hl s hs]
  case neg => simp [hs]

theorem lookup_put_of_ne (hn : s.node ≠ node) : (a.put s count).lookup node = a.lookup node := by
  rw [lookup, put, List.find?_append, lookup_filter, List.find?_cons_of_neg (by simpa using hn), List.find?_nil,
    Option.or_none]
  intro s' hs'
  simpa [hs'] using hn.symm

theorem lookup_track : (a.track s).lookup node = a.lookup node :=
  rfl

theorem lookup_dropState : (a.dropState s).lookup node = if s.node = node then none else a.lookup node := by
  split
  case isTrue hs  =>
    refine List.find?_eq_none.mpr fun s' hs' => ?_
    have := (List.mem_filter.mp hs').2
    simpa [← hs] using this
  case isFalse hs =>
    refine lookup_filter fun s' hs' => ?_
    simpa [hs'] using Ne.symm hs

theorem lookup_foldl_dropState {dead : List (AnimState ν D)} : (dead.foldl dropState a).lookup node =
    if node ∈ dead.map (·.node) then none else a.lookup node := by
  induction dead generalizing a
  case nil            => simp
  case cons s dead hi =>
    rw [List.foldl_cons, hi, lookup_dropState, List.map_cons]
    by_cases hm : node ∈ dead.map (·.node)
    case pos => rw [if_pos hm, if_pos (List.mem_cons_of_mem _ hm)]
    case neg =>
      rw [if_neg hm]
      by_cases hs : s.node = node
      case pos => rw [if_pos hs, if_pos (hs ▸ List.mem_cons_self)]
      case neg =>
        rw [if_neg hs, if_neg]
        simpa [Ne.symm hs] using hm

theorem lookup_prune {live : ν → Bool} :
    (a.prune live).lookup node = if live node then a.lookup node else none := by
  rw [prune, lookup_foldl_dropState]
  by_cases hl : live node
  case pos =>
    rw [if_pos hl, if_neg]
    intro hm
    obtain ⟨s, hs, rfl⟩ := List.mem_map.mp hm
    simpa [hl] using (List.mem_filter.mp hs).2
  case neg =>
    rw [if_neg hl]
    split
    case isTrue     => rfl
    case isFalse hm =>
      refine List.find?_eq_none.mpr fun s hs he => hm ?_
      obtain rfl : s.node = node := by simpa using he
      exact List.mem_map_of_mem (List.mem_filter.mpr ⟨hs, by simpa using hl⟩)

variable (a node) in
theorem lookup_rebase (base : Int) : (a.rebase base).lookup node = (a.lookup node).map (·.rebase base) := by
  rw [lookup, rebase, List.find?_map]
  rfl

end Engine

namespace KeyframeAnim

variable {anim anim' : KeyframeAnim D} {h : History D} {count : Nat} {now : Int}

-- What the history knows of an animation that is there.
structure Known (anim : KeyframeAnim D) (h : History D) : Prop where
  named   : ∃ name ∈ anim.name, ∃ q ∈ h.asked, q.Names name anim.iterCount
  fresh   : anim.started = false → h.begun = false
  running : anim.started = true → ∃ name ∈ anim.name, ∃ k : Nat, h.running = some (name, k) ∧ anim.itersEmitted = k

-- And of one that may be there.
def Inv (anim : KeyframeAnim D) (h : History D) : Prop :=
  anim.active → anim.Known h

-- What the history does not tell apart.
structure Like (anim' anim : KeyframeAnim D) : Prop where
  name         : anim'.name = anim.name
  iterCount    : anim'.iterCount = anim.iterCount
  started      : anim'.started = anim.started
  itersEmitted : anim'.itersEmitted = anim.itersEmitted

theorem Known.congr (hk : anim.Known h) (hl : anim'.Like anim) : anim'.Known h where
  named     := by rw [hl.name, hl.iterCount]; exact hk.named
  fresh h   := hk.fresh (hl.started ▸ h)
  running h := by rw [hl.name, hl.itersEmitted]; exact hk.running (hl.started ▸ h)

variable [Double D]

theorem Inv.idle : (KeyframeAnim.idle : KeyframeAnim D).Inv h :=
  fun ha => absurd ha Bool.false_ne_true

theorem keep_like {paused : Bool} : (anim.keep paused now).Like anim := by
  fun_cases keep <;> exact ⟨rfl, rfl, rfl, rfl⟩

variable (anim count now) in
-- What becomes of an animation that is advanced: it may end, but not before it has begun.
theorem advance_cases : (anim.advance count now).1 = anim ∨
    (anim.advance count now).1 = { anim with active := false } ∧ Double.lt (anim.elapsed now) 0 = false := by
  fun_cases advance
  case case1            => exact .inl rfl
  case case2            => exact .inl rfl
  case case3 hlt _ _ _  => exact .inr ⟨rfl, by simpa using hlt⟩
  case case4            => exact .inl rfl

theorem advance_like : (anim.advance count now).1.Like anim := by
  obtain he | ⟨he, -⟩ := advance_cases anim count now
  · rw [he]
    exact ⟨rfl, rfl, rfl, rfl⟩
  · rw [he]
    exact ⟨rfl, rfl, rfl, rfl⟩

section Emit

variable {node : ν}

theorem started_emitStart (hle : Double.le 0 (anim.elapsed now)) : (anim.emitStart node now).1.started := by
  rw [KeyframeAnim.emitStart]
  split
  case isTrue     => rfl
  case isFalse hs => simpa [hle] using hs

theorem started_emitIterations : (anim.emitIterations node now).1.started = anim.started := by
  rw [KeyframeAnim.emitIterations]
  split <;> rfl

theorem node_of_tick {e : AnimEvent ν D}
    (he : e ∈ (anim.tick node now count).2.2.2) : e.node = node := by
  have hstart {anim : KeyframeAnim D} : ∀ e ∈ (anim.emitStart node now).2, e.node = node := by
    rw [emitStart]
    split <;> simp
  have hiter {anim : KeyframeAnim D} : ∀ e ∈ (anim.emitIterations node now).2, e.node = node := by
    rw [emitIterations]
    split <;> simp
  have hend {anim : KeyframeAnim D} : ∀ e ∈ (anim.emitEnd node).2, e.node = node := by
    rw [emitEnd]
    split <;> simp
  rw [tick] at he
  split at he
  case isTrue  =>
    obtain he | he := List.mem_append.mp he
    · exact (List.mem_append.mp he).elim (hstart e) (hiter e)
    · exact hend e he
  case isFalse => cases he

theorem active_and_elapsed_tick (ha : (anim.tick node now count).1.active) :
    anim.active ∧ (anim.tick node now count).1.elapsed now = anim.elapsed now := by
  have hstart {anim : KeyframeAnim D} : (anim.emitStart node now).1.elapsed now = anim.elapsed now := by
    rw [emitStart]
    split <;> rfl
  have hiter {anim : KeyframeAnim D} : (anim.emitIterations node now).1.elapsed now = anim.elapsed now := by
    rw [emitIterations]
    split <;> rfl
  have hend {anim : KeyframeAnim D} : (anim.emitEnd node).1.elapsed now = anim.elapsed now := by
    rw [emitEnd]
    split <;> rfl
  have hadv : (anim.advance count now).1.elapsed now = anim.elapsed now := by
    obtain he | ⟨he, -⟩ := advance_cases anim count now
    · rw [he]
    · rw [he]
      rfl
  rw [tick] at ha ⊢
  split at ha
  case isFalse hn => exact absurd ha hn
  case isTrue hact =>
    rw [if_pos hact]
    exact ⟨hact, (hend.trans hiter).trans (hstart.trans hadv)⟩

end Emit

variable {style : Style D} {skip : Bool}

variable (anim count style skip now) in
-- What an observation does: the animation goes, or is as before, or another one is started.
theorem observe_cases : (anim.observe count style skip now).1.active = false ∨
    style.asked.entry.isSome ∧ (anim.observe count style skip now).1.active = anim.active ∧
      (anim.observe count style skip now).1.Like anim ∨
    ∃ e ∈ style.asked.entry, ∃ name, e.name = some name ∧ anim.starts count style skip = some name ∧
      (anim.observe count style skip now).1.Like { anim with name := some name, iterCount := e.iterCount } := by
  have hentry {e : Entry D} {es : List (Entry D)} (hs : style.animation = some (e :: es)) :
      style.asked.entry = some e := by
    rw [Asked.entry, Style.asked, hs]
    rfl
  have hstarts {e : Entry D} {es : List (Entry D)} {name : CString} (hs : style.animation = some (e :: es))
      (hn : e.name = some name) (h3 : ¬(skip || Double.le e.durationMs 0)) (h2 : ¬anim.isSame name e)
      (h1 : anim.active || decide (count < maxActive)) : anim.starts count style skip = some name := by
    simp only [starts, hs, hn]
    rw [if_neg h3, if_neg h2, if_pos h1]
  fun_cases observe
  case case1            => exact .inl rfl
  case case2 ha         => exact .inl (by simpa using ha)
  case case3            => exact .inl rfl
  case case4 ha         => exact .inl (by simpa using ha)
  case case5 hs _       => exact .inr (.inl ⟨by rw [hentry hs]; rfl, rfl, ⟨rfl, rfl, rfl, rfl⟩⟩)
  case case6 hs _ _ _     => exact .inr (.inl ⟨by rw [hentry hs]; rfl, rfl, ⟨rfl, rfl, rfl, rfl⟩⟩)
  case case7 hs _ _ _ _ _ => exact .inr (.inl ⟨by rw [hentry hs]; rfl, active_keep, keep_like⟩)
  case case8 hs _ hn h3 _ h2 h1 _ _ _ _ _ _ hadv =>
    have hl := hadv ▸ advance_like
    exact .inr (.inr ⟨_, hentry hs, _, hn, hstarts hs hn h3 h2 h1,
      ⟨hl.name, hl.iterCount, hl.started, hl.itersEmitted⟩⟩)
  case case9 hs _ hn h3 _ h2 h1 _ _ _ =>
    exact .inr (.inr ⟨_, hentry hs, _, hn, hstarts hs hn h3 h2 h1, ⟨rfl, rfl, rfl, rfl⟩⟩)
  case case10 hn => exact .inl (Bool.or_eq_false_iff.mp (Bool.not_eq_true _ ▸ hn)).1

end KeyframeAnim

theorem AnimState.anim_observeTransition [Double D] {s : AnimState ν D} {style : Style D} {skip : Bool} {now : Int}
    {count : Nat} : (s.observeTransition count style skip now).1.anim = s.anim := by
  fun_cases observeTransition <;> rfl

section Engine

variable [DecidableEq ν] [Double D] {a : Engine ν D} {s : AnimState ν D} {node other : ν} {style : Style D}
  {skip : Bool} {now : Int} {count : Nat}

omit [Double D] in
theorem moments_endOf {α : Type} {name : CString} {ch ch' : Chan D α} :
    (endOf other name ch ch').filterMap (AnimEvent.moment node) = [] := by
  rw [endOf]
  split <;> simp [AnimEvent.moment]

theorem moments_tickGenerics {gs : List (GenericChan D)} :
    (tickGenerics other now gs count).2.2.filterMap (AnimEvent.moment node) = [] := by
  fun_induction tickGenerics
  case case1               => rfl
  case case2 _ _ _ _ h ih  =>
    rw [h] at ih
    exact (List.filterMap_cons_none (by simp [AnimEvent.moment])).trans ih
  case case3 _ _ _ _ h ih  =>
    rw [h] at ih
    exact ih

-- The events of its transitions are none of the history of a node.
theorem AnimState.tick_spec (s : AnimState ν D) (node : ν) (count : Nat) (now : Int) : ∃ count',
    (s.tick count now).state.anim = (s.anim.tick s.node now count').1 ∧
      (s.tick count now).events.filterMap (AnimEvent.moment node) =
        (s.anim.tick s.node now count').2.2.2.filterMap (AnimEvent.moment node) := by
  refine ⟨_, rfl, ?_⟩
  rw [AnimState.tick]
  dsimp only
  simp only [List.filterMap_append, moments_endOf, List.nil_append]
  exact (congrArg _ moments_tickGenerics).trans (List.append_nil _)

namespace Engine

theorem stateOf_of_lookup (h : a.lookup node = some s) : a.stateOf node = s := by
  rw [stateOf, h]
  rfl

theorem animOf_congr {b : Engine ν D} (h : b.lookup node = a.lookup node) : b.animOf node = a.animOf node := by
  rw [animOf, animOf, stateOf, stateOf, h]

theorem node_stateOf : (a.stateOf node).node = node := by
  rw [stateOf]
  cases h : a.lookup node
  case none   => rfl
  case some s => exact (of_lookup h).2

variable (s count) in
-- An observation that reaches the state of a node.
theorem animOf_put_observe :
    ((a.put ((a.stateOf node).observe a.activeCount style skip now).1 count).track s).animOf node =
      ((a.animOf node).observe ((a.stateOf node).observeTransition a.activeCount style skip now).2
        style skip now).1 := by
  have hnode : ((a.stateOf node).observe a.activeCount style skip now).1.node = node :=
    AnimState.node_observe.trans node_stateOf
  have hlookup : (a.put ((a.stateOf node).observe a.activeCount style skip now).1 count).lookup _ = _ :=
    lookup_put_self
  rw [hnode] at hlookup
  rw [animOf, stateOf_of_lookup (lookup_track.trans hlookup), AnimState.observe]
  dsimp only
  rw [AnimState.anim_observeTransition]
  rfl

theorem animOf_observe_self : (a.observe node style skip now).animOf node = ((a.animOf node).observe
    ((a.stateOf node).observeTransition a.activeCount style skip now).2 style skip now).1 := by
  rw [observe]
  cases hs : a.lookup node
  case some s =>
    rw [← animOf_put_observe (s.observe a.activeCount style skip now).1 (s.observe a.activeCount style skip now).2,
      stateOf_of_lookup hs]
  case none   =>
    have hnew : a.stateOf node = .new node := by
      rw [stateOf, hs]
      rfl
    dsimp only
    split
    case isTrue     =>
      rw [← animOf_put_observe ((AnimState.new node).observe a.activeCount style skip now).1
        ((AnimState.new node).observe a.activeCount style skip now).2, hnew]
    case isFalse hn =>
      -- A node without a state, and a style that gives it none.
      have hidle : a.animOf node = .idle := congrArg AnimState.anim hnew
      have hnone : style.animation = none ∨ style.animation = some [] := by
        rw [isAnimatable] at hn
        match hs : style.animation with
        | none        => exact .inl rfl
        | some []     => exact .inr rfl
        | some (e :: es) => simp [hs] at hn
      rw [hidle]
      obtain hnone | hnone := hnone <;> rw [KeyframeAnim.observe, hnone] <;> rfl

theorem animOf_observe_of_ne (hn : other ≠ node) :
    (a.observe other style skip now).animOf node = a.animOf node := by
  refine animOf_congr ?_
  rw [observe]
  split
  case h_1 s hs =>
    have hnode : (s.observe a.activeCount style skip now).1.node ≠ node :=
      AnimState.node_observe.trans (of_lookup hs).2 ▸ hn
    exact lookup_track.trans (lookup_put_of_ne hnode)
  case h_2      =>
    split
    case isTrue  =>
      have hnode : ((AnimState.new other).observe a.activeCount style skip now).1.node ≠ node := by
        rw [AnimState.node_observe]
        exact hn
      exact lookup_track.trans (lookup_put_of_ne hnode)
    case isFalse => rfl

end Engine

end Engine

variable [DecidableEq D]

namespace History

variable {h : History D} {m : Moment D} {ms ms' : List (Moment D)} {name : CString} {n : Int}

theorem ordered_append : Ordered h (ms ++ ms') ↔ Ordered h ms ∧ Ordered (ms.foldl next h) ms' := by
  induction ms generalizing h
  case nil          => simp [Ordered]
  case cons m ms hi => rw [List.cons_append, Ordered, Ordered, hi, and_assoc, List.foldl_cons]

-- Some iterations of an animation that has been started, as far as they are not too many.
theorem ordered_iterations {k due : Nat} (hr : h.running = some (name, k))
    (hn : ∃ q ∈ h.asked, q.Names name n) (hk : 0 < due → 0 < n → (k : Int) + due ≤ n - 1) :
    Ordered h (List.replicate due (.event .animationiteration name)) ∧
      (List.replicate due (.event .animationiteration name)).foldl next h =
        { h with running := some (name, k + due) } := by
  induction due generalizing h k
  case zero        => exact ⟨trivial, by rw [Nat.add_zero, ← hr]; rfl⟩
  case succ due hi =>
    have hnext : h.next (.event .animationiteration name) = { h with running := some (name, k + 1) } := by
      rw [next, hr]
      rfl
    have hlast (hpos : 0 < n) := hk (Nat.succ_pos due) hpos
    obtain ⟨q, hq, hname⟩ := hn
    have hrest := hi (h := { h with running := some (name, k + 1) }) rfl ⟨q, hq, hname⟩ fun _ hpos => by
      have := hlast hpos
      push_cast at *
      omega
    rw [List.replicate_succ, Ordered, List.foldl_cons, hnext]
    refine ⟨⟨⟨k, hr, q, hq, n, hname, fun hpos => ?_⟩, hrest.1⟩, hrest.2.trans ?_⟩
    · have := hlast hpos
      push_cast at this
      omega
    · rw [Nat.add_assoc, Nat.add_comm 1]

end History

namespace KeyframeAnim

variable {anim anim' : KeyframeAnim D} {h : History D} {q : Asked D}

theorem Known.observed (hk : anim.Known h) (hq : q.entry.isSome) : anim.Known (h.next (.observed q)) where
  named     := by
    obtain ⟨name, hname, q', hq', hn⟩ := hk.named
    exact ⟨name, hname, q', List.mem_cons_of_mem _ hq', hn⟩
  fresh hs  := by
    rw [History.next]
    dsimp only
    split
    · exact hk.fresh hs
    · rfl
  running hs := by
    obtain ⟨name, hname, k, hr, hi⟩ := hk.running hs
    refine ⟨name, hname, k, ?_, hi⟩
    have hsome : ¬q.entry.isNone := by simpa [Option.isSome_iff_ne_none] using hq
    exact (if_neg hsome).trans hr

variable [Double D] {count : Nat} {style : Style D} {skip : Bool} {now : Int}

variable (now) in
-- An observation, under the condition on what it starts.
theorem Inv.observe (hi : anim.Inv h)
    (hc : ∀ name ∈ anim.starts count style skip,
      (anim.started → anim.active ∧ anim.name = some name) ∧ (h.begun → h.asked.head? ≠ some style.asked)) :
    (anim.observe count style skip now).1.Inv (h.next (.observed style.asked)) := by
  intro ha
  obtain hn | ⟨hq, hact, hl⟩ | ⟨e, he, name, hname, hs, hl⟩ := observe_cases anim count now style skip
  · exact absurd (hn ▸ ha) Bool.false_ne_true
  · exact ((hi (hact ▸ ha)).observed hq).congr hl
  · obtain ⟨hstarted, hbegun⟩ := hc name hs
    have hnames : style.asked.Names name e.iterCount := ⟨e, he, hname, rfl⟩
    refine Known.congr ⟨⟨name, rfl, style.asked, List.mem_cons_self, hnames⟩, fun _ => ?_, fun hst => ?_⟩ hl
    · rw [History.next]
      dsimp only
      split
      case isTrue hsame => exact Bool.eq_false_iff.mpr fun hb => hbegun hb hsame
      case isFalse      => rfl
    · obtain ⟨hact, hold⟩ := hstarted hst
      have hsome : style.asked.entry.isSome := Option.isSome_iff_exists.mpr ⟨e, he⟩
      obtain ⟨name', hname', hrun⟩ := ((hi hact).observed hsome).running hst
      obtain rfl : name' = name := Option.some.inj (hname'.symm.trans hold)
      exact ⟨name', rfl, hrun⟩

section Tick

variable [DecidableEq ν] {node : ν}

-- What is emitted about an animation is in order, and the history goes on knowing it.
def Emits (h : History D) (node : ν) (anim : KeyframeAnim D) (events : List (AnimEvent ν D)) : Prop :=
  h.Ordered (events.filterMap (AnimEvent.moment node)) ∧
    anim.Known ((events.filterMap (AnimEvent.moment node)).foldl History.next h)

omit [Double D] in
theorem Emits.nil (hk : anim.Known h) : Emits h node anim [] :=
  ⟨trivial, hk⟩

variable (node now) in
theorem Known.emitStart (hk : anim.Known h) :
    Emits h node (anim.emitStart node now).1 (anim.emitStart node now).2 := by
  rw [KeyframeAnim.emitStart]
  split
  case isFalse    => exact .nil hk
  case isTrue hst =>
    have hst : anim.started = false := by simpa using (Bool.and_eq_true_iff.mp hst).1
    obtain ⟨name, hname, hasked⟩ := hk.named
    have hm : [(⟨node, .animationstart, anim.name.getD [], 0⟩ : AnimEvent ν D)].filterMap (AnimEvent.moment node) =
        [.event .animationstart name] := by
      simp [AnimEvent.moment, Option.mem_def.mp hname]
    rw [Emits, hm]
    obtain ⟨q, hq, hn⟩ := hasked
    refine ⟨⟨⟨hk.fresh hst, q, hq, _, hn⟩, trivial⟩, ?_⟩
    exact ⟨⟨name, hname, q, hq, hn⟩, fun hf => (by cases hf), fun _ => ⟨name, hname, 0, rfl, rfl⟩⟩

variable (node now) in
theorem Known.emitIterations (hk : anim.Known h) :
    Emits h node (anim.emitIterations node now).1 (anim.emitIterations node now).2 := by
  rw [KeyframeAnim.emitIterations]
  split
  case isFalse    => exact .nil hk
  case isTrue hst =>
    have hst : anim.started := (Bool.and_eq_true_iff.mp hst).1
    obtain ⟨name, hname, hasked⟩ := hk.named
    obtain ⟨name', hname', k, hrun, hk'⟩ := hk.running hst
    obtain rfl : name' = name := Option.mem_unique hname' hname
    dsimp only
    generalize hdue : (anim.reached now - anim.itersEmitted).toNat = due
    have hm (is : List Int) : (is.map fun i => (⟨node, .animationiteration, anim.name.getD [],
        Double.ofInt (anim.itersEmitted + i + 1) * anim.durationMs⟩ : AnimEvent ν D)).filterMap
          (AnimEvent.moment node) = List.replicate is.length (.event .animationiteration name') := by
      have hone : (AnimEvent.moment node ∘ fun i : Int => (⟨node, .animationiteration, anim.name.getD [],
          Double.ofInt (anim.itersEmitted + i + 1) * anim.durationMs⟩ : AnimEvent ν D)) =
          some ∘ fun _ => .event .animationiteration name' := by
        funext i
        simp [AnimEvent.moment, Option.mem_def.mp hname]
      rw [List.filterMap_map, hone, List.filterMap_eq_map, List.map_const']
    have hlength : (do let i ← List.range due; pure (i : Int) : List Int).length = due := by simp
    have hbound : 0 < due → 0 < anim.iterCount → (k : Int) + due ≤ anim.iterCount - 1 := by
      intro hpos hn
      have hreach : anim.reached now ≤ anim.iterCount - 1 := by
        rw [reached, if_pos hn]
        exact min_le_right ..
      omega
    obtain ⟨hord, hfold⟩ := History.ordered_iterations hrun hasked hbound
    rw [Emits, hm, hlength, hfold]
    refine ⟨hord, ⟨name', hname', hasked⟩, fun hf => absurd hst (Bool.eq_false_iff.mp hf), fun _ => ?_⟩
    exact ⟨name', hname', k + due, rfl, by rw [hk']; push_cast; rfl⟩

variable (node) in
theorem Known.emitEnd (hk : anim.Known h) (hst : anim.active = false → anim.started) :
    h.Ordered ((anim.emitEnd node).2.filterMap (AnimEvent.moment node)) ∧
      (anim.emitEnd node).1.Inv
        (((anim.emitEnd node).2.filterMap (AnimEvent.moment node)).foldl History.next h) := by
  rw [KeyframeAnim.emitEnd]
  split
  case isTrue     => exact ⟨trivial, fun _ => hk⟩
  case isFalse ha =>
    have ha : anim.active = false := by simpa using ha
    obtain ⟨name, hname, k, hrun, -⟩ := hk.running (hst ha)
    have hm {x : D} : [(⟨node, .animationend, anim.name.getD [], x⟩ : AnimEvent ν D)].filterMap
        (AnimEvent.moment node) = [.event .animationend name] := by
      simp [AnimEvent.moment, Option.mem_def.mp hname]
    dsimp only
    rw [hm]
    exact ⟨⟨⟨k, hrun⟩, trivial⟩, fun hact => absurd (ha ▸ hact) Bool.false_ne_true⟩

variable (node count) in
-- A tick, when the elapsed time is a number.
theorem Inv.tick (hi : anim.Inv h)
    (hnum : anim.active → Double.lt (anim.elapsed now) 0 ∨ Double.le 0 (anim.elapsed now)) :
    h.Ordered ((anim.tick node now count).2.2.2.filterMap (AnimEvent.moment node)) ∧
      (anim.tick node now count).1.Inv
        (((anim.tick node now count).2.2.2.filterMap (AnimEvent.moment node)).foldl History.next h) := by
  rw [KeyframeAnim.tick]
  split
  case isFalse   => exact ⟨trivial, hi⟩
  case isTrue ha =>
    dsimp only
    have hk : (anim.advance count now).1.Known h := (hi ha).congr advance_like
    -- What has ended has begun, and so it has been started by now.
    have hend : (anim.advance count now).1.active = false →
        ((anim.advance count now).1.emitStart node now).1.started := fun hn => by
      obtain he | ⟨he, hlt⟩ := advance_cases anim count now
      · exact absurd (he ▸ hn) (by simp [ha])
      · refine started_emitStart ?_
        rw [he]
        exact (hnum ha).resolve_left (by simp [hlt])
    generalize (anim.advance count now).1 = advanced at hk hend ⊢
    obtain ⟨hord₁, hk₁⟩ := hk.emitStart now node
    have hact₁ : (advanced.emitStart node now).1.active = advanced.active := active_of_emitStart rfl
    generalize advanced.emitStart node now = starts at hord₁ hk₁ hact₁ hend ⊢
    obtain ⟨hord₂, hk₂⟩ := hk₁.emitIterations now node
    have hact₂ : (starts.1.emitIterations node now).1.active = starts.1.active := active_of_emitIterations rfl
    have hst₂ : (starts.1.emitIterations node now).1.started = starts.1.started := started_emitIterations
    generalize starts.1.emitIterations node now = iterations at hord₂ hk₂ hact₂ hst₂ ⊢
    obtain ⟨hord₃, hk₃⟩ := hk₂.emitEnd node fun hn => hst₂ ▸ hend (hact₁ ▸ hact₂ ▸ hn)
    rw [List.filterMap_append, List.filterMap_append, List.foldl_append, List.foldl_append,
      History.ordered_append, History.ordered_append, List.foldl_append]
    exact ⟨⟨⟨hord₁, hord₂⟩, hord₃⟩, hk₃⟩

end Tick

end KeyframeAnim

namespace History

section Kept

variable {h : History D} {ms : List (Moment D)} {q : Asked D} {e : Entry D} {name : CString}

omit [DecidableEq D] in
theorem keeps_tail {m : Moment D} (hk : Keeps q (m :: ms)) : Keeps q ms :=
  fun m hm => hk m (List.mem_cons_of_mem _ hm)

theorem next_observed_self (hq : q.entry = some e) (hh : h.asked.head? = some q) :
    h.next (.observed q) = { h with asked := q :: h.asked } := by
  rw [next, if_pos hh, hq]
  rfl

-- What has ended is not started again.
theorem dispatched_of_ended (hq : q.entry = some e) (hk : Keeps q ms) (hh : h.asked.head? = some q)
    (hb : h.begun = true) (hr : h.running = none) (ho : h.Ordered ms) : ms.filterMap Moment.dispatched = [] := by
  induction ms generalizing h
  case nil          => rfl
  case cons m ms hi =>
    obtain ⟨hm, ho⟩ := ho
    obtain rfl | ⟨type, name, rfl⟩ := hk m List.mem_cons_self
    · rw [next_observed_self hq hh] at ho
      exact hi (h := { h with asked := q :: h.asked }) (keeps_tail hk) rfl hb hr ho
    · cases type
      case transitionend      => exact hm.elim
      case animationstart     => exact absurd (hb.symm.trans hm.1) (by simp)
      case animationiteration =>
        obtain ⟨k, hk', -⟩ := hm
        exact absurd (hr.symm.trans hk') (by simp)
      case animationend       =>
        obtain ⟨k, hk'⟩ := hm
        exact absurd (hr.symm.trans hk') (by simp)

-- What has been started is iterated, and ends.
theorem dispatched_of_running (hq : q.entry = some e) (hk : Keeps q ms) (ha : ∀ q' ∈ h.asked, q' = q)
    (hh : h.asked.head? = some q) (hb : h.begun = true) {k : Nat} (hr : h.running = some (name, k))
    (hn : 0 < e.iterCount → (k : Int) ≤ e.iterCount - 1) (ho : h.Ordered ms) :
    ∃ j : Nat, (0 < e.iterCount → (k : Int) + j ≤ e.iterCount - 1) ∧
      ms.filterMap Moment.dispatched <+:
        List.replicate j (.animationiteration, name) ++ [(.animationend, name)] := by
  induction ms generalizing h k
  case nil          => exact ⟨0, by simpa using hn, List.nil_prefix⟩
  case cons m ms hi =>
    obtain ⟨hm, ho⟩ := ho
    obtain rfl | ⟨type, name', rfl⟩ := hk m List.mem_cons_self
    · rw [next_observed_self hq hh] at ho
      exact hi (h := { h with asked := q :: h.asked }) (keeps_tail hk)
        (List.forall_mem_cons.mpr ⟨rfl, ha⟩) rfl hb hr hn ho
    · cases type
      case transitionend      => exact hm.elim
      case animationstart     => exact absurd (hb.symm.trans hm.1) (by simp)
      case animationiteration =>
        obtain ⟨k', hk', q', hq', n, hnames, hbound⟩ := hm
        obtain ⟨rfl, rfl⟩ := Prod.mk.inj (Option.some.inj (hr.symm.trans hk'))
        obtain ⟨e', he', -, rfl⟩ := ha q' hq' ▸ hnames
        obtain rfl : e = e' := Option.some.inj (hq.symm.trans he')
        have hnext : h.next (.event .animationiteration name) = { h with running := some (name, k + 1) } := by
          rw [next, hr]
          rfl
        rw [hnext] at ho
        obtain ⟨j, hj, hp⟩ := hi (h := { h with running := some (name, k + 1) }) (keeps_tail hk) ha hh hb rfl
          (by exact_mod_cast hbound) ho
        refine ⟨j + 1, fun hpos => ?_, ?_⟩
        · have := hj hpos
          push_cast at this ⊢
          omega
        · exact (List.prefix_cons_inj _).mpr hp
      case animationend       =>
        obtain ⟨k', hk'⟩ := hm
        obtain ⟨rfl, rfl⟩ := Prod.mk.inj (Option.some.inj (hr.symm.trans hk'))
        have hnil := dispatched_of_ended (h := h.next (.event .animationend name)) hq (keeps_tail hk) hh rfl rfl ho
        refine ⟨0, by simpa using hn, ?_⟩
        have hone : (Moment.event .animationend name :: ms).filterMap Moment.dispatched =
            (.animationend, name) :: ms.filterMap Moment.dispatched :=
          rfl
        rw [hone, hnil]
        exact List.prefix_rfl

theorem lifecycle_of_ordered (hq : q.entry = some e) (hname : e.name = some name) (hk : Keeps q ms)
    (ha : ∀ q' ∈ h.asked, q' = q) (hb : h.begun = false) (hr : h.running = none) (ho : h.Ordered ms) :
    Lifecycle name e.iterCount (ms.filterMap Moment.dispatched) := by
  induction ms generalizing h
  case nil          => exact ⟨0, fun _ => by push_cast; omega, List.nil_prefix⟩
  case cons m ms hi =>
    obtain ⟨hm, ho⟩ := ho
    obtain rfl | ⟨type, name', rfl⟩ := hk m List.mem_cons_self
    · refine hi (h := h.next (.observed q)) (keeps_tail hk) (List.forall_mem_cons.mpr ⟨rfl, ha⟩) ?_ ?_ ho
      · rw [next]
        dsimp only
        split
        · exact hb
        · rfl
      · rw [next]
        dsimp only
        split
        · rfl
        · exact hr
    · cases type
      case transitionend      => exact hm.elim
      case animationstart     =>
        obtain ⟨-, q', hq', n, e', he', hname', -⟩ := hm
        obtain rfl := ha q' hq'
        obtain rfl : e = e' := Option.some.inj (hq.symm.trans he')
        obtain rfl : name = name' := Option.some.inj (hname.symm.trans hname')
        have hhead : h.asked.head? = some q' := by
          obtain ⟨q'', hq''⟩ := Option.ne_none_iff_exists'.mp
            (mt List.head?_eq_none_iff.mp (List.ne_nil_of_mem hq'))
          exact hq''.trans (congrArg some (ha q'' (List.mem_of_head? hq'')))
        obtain ⟨j, hj, hp⟩ := dispatched_of_running (h := h.next (.event .animationstart name)) hq
          (keeps_tail hk) ha hhead rfl rfl (fun _ => by push_cast; omega) ho
        exact ⟨j, by simpa using hj, (List.prefix_cons_inj _).mpr hp⟩
      case animationiteration =>
        obtain ⟨k, hk', -⟩ := hm
        exact absurd (hr.symm.trans hk') (by simp)
      case animationend       =>
        obtain ⟨k, hk'⟩ := hm
        exact absurd (hr.symm.trans hk') (by simp)

end Kept

end History

section Run

variable [DecidableEq ν] [Double D] {a : Engine ν D} {h : History D} {node : ν} {now : Int}

namespace Engine

-- Whether the time of a tick is a number for the animation of a node.
def Timely (a : Engine ν D) (node : ν) (now : Int) : Prop :=
  (a.animOf node).active → Double.lt ((a.animOf node).elapsed now) 0 ∨ Double.le 0 ((a.animOf node).elapsed now)

theorem tickNode_spec (other : ν) (hi : (a.animOf node).Inv h) (ht : a.Timely node now) :
    (∃ events, (a.tickNode now other).1.events = a.events ++ events ∧
      h.Ordered (events.filterMap (AnimEvent.moment node)) ∧
        ((a.tickNode now other).1.animOf node).Inv
          ((events.filterMap (AnimEvent.moment node)).foldl History.next h)) ∧
      (a.tickNode now other).1.Timely node now := by
  rw [tickNode]
  split
  case h_1      => exact ⟨⟨[], (List.append_nil _).symm, trivial, hi⟩, ht⟩
  case h_2 s hs =>
    dsimp only
    obtain ⟨count', hanim, hevents⟩ := s.tick_spec node a.activeCount now
    have hnode : (s.tick a.activeCount now).state.node = other := AnimState.node_tick.trans (of_lookup hs).2
    generalize s.tick a.activeCount now = t at hanim hevents hnode ⊢
    by_cases hn : other = node
    case pos =>
      subst hn
      have hold : a.animOf other = s.anim := congrArg AnimState.anim (stateOf_of_lookup hs)
      have hlookup : (a.put t.state t.count).lookup other = some t.state := hnode ▸ lookup_put_self
      have hnew : (a.put t.state t.count).animOf other = (s.anim.tick s.node now count').1 :=
        (congrArg AnimState.anim (stateOf_of_lookup hlookup)).trans hanim
      rw [hold] at hi
      rw [Timely, hold] at ht
      rw [← (of_lookup hs).2] at hnew hevents ⊢
      obtain ⟨hord, hinv⟩ := hi.tick count' s.node ht
      refine ⟨⟨t.events, rfl, ?_, ?_⟩, ?_⟩
      · rw [hevents]
        exact hord
      · rw [hevents]
        exact hnew ▸ hinv
      · intro ha
        obtain ⟨hact, helapsed⟩ := KeyframeAnim.active_and_elapsed_tick (hnew ▸ ha)
        have := ht hact
        rw [← helapsed, ← hnew] at this
        exact this
    case neg =>
      have hnew : (a.put t.state t.count).animOf node = a.animOf node :=
        animOf_congr (lookup_put_of_ne (hnode ▸ hn))
      have hnil : t.events.filterMap (AnimEvent.moment node) = [] := by
        refine hevents.trans (List.filterMap_eq_nil_iff.mpr fun e he => if_neg fun hm => hn ?_)
        exact ((KeyframeAnim.node_of_tick he).trans (of_lookup hs).2).symm.trans hm.1
      refine ⟨⟨t.events, rfl, ?_, ?_⟩, ?_⟩
      · rw [hnil]
        trivial
      · rw [hnil]
        exact hnew ▸ hi
      · intro ha
        have := ht (hnew ▸ ha)
        rw [← hnew] at this
        exact this

theorem tickNodes_spec (nodes : List ν) (hi : (a.animOf node).Inv h) (ht : a.Timely node now) :
    ∃ events, (tickNodes now nodes a).1.events = a.events ++ events ∧
      h.Ordered (events.filterMap (AnimEvent.moment node)) ∧
        ((tickNodes now nodes a).1.animOf node).Inv
          ((events.filterMap (AnimEvent.moment node)).foldl History.next h) := by
  induction nodes generalizing a h
  case nil                 => exact ⟨[], (List.append_nil _).symm, trivial, hi⟩
  case cons other nodes ih =>
    obtain ⟨⟨events, he, hord, hinv⟩, ht'⟩ := tickNode_spec other hi ht
    obtain ⟨events', he', hord', hinv'⟩ := ih hinv ht'
    refine ⟨events ++ events', by rw [← List.append_assoc, ← he]; exact he', ?_, ?_⟩
    · rw [List.filterMap_append]
      exact History.ordered_append.mpr ⟨hord, hord'⟩
    · rw [List.filterMap_append, List.foldl_append]
      exact hinv'

-- A call that conforms keeps to the rule of the events.
theorem step_spec {c : Call ν D} (hi : (a.animOf node).Inv h) (hc : a.Conforms node h c) :
    h.Ordered (a.moments node c) ∧
      ((a.step c).animOf node).Inv ((a.moments node c).foldl History.next h) := by
  cases c
  case observe other style skip now =>
    by_cases hn : other = node
    case pos =>
      subst hn
      rw [moments, if_pos rfl]
      refine ⟨⟨trivial, trivial⟩, ?_⟩
      have he : (a.observe other style skip now).animOf other = _ := animOf_observe_self
      have hinv := hi.observe now (hc rfl)
      rw [← he] at hinv
      exact hinv
    case neg =>
      rw [moments, if_neg hn]
      have he : (a.observe other style skip now).animOf node = a.animOf node := animOf_observe_of_ne hn
      exact ⟨trivial, he.symm ▸ hi⟩
  case tick order now =>
    obtain ⟨events, he, hord, hinv⟩ := tickNodes_spec (order.order a.active) hi hc
    have hmoments : a.moments node (.tick order now) = events.filterMap (AnimEvent.moment node) := by
      rw [moments, tick, he, List.drop_left]
    rw [hmoments]
    exact ⟨hord, hinv⟩
  case prune live  =>
    rw [moments]
    split
    case isTrue hl  =>
      refine ⟨trivial, ?_⟩
      have : (a.prune live).animOf node = a.animOf node := animOf_congr (lookup_prune.trans (if_pos hl))
      exact this.symm ▸ hi
    case isFalse hl =>
      refine ⟨⟨trivial, trivial⟩, ?_⟩
      have : (a.prune live).animOf node = .idle := by
        rw [animOf, stateOf, lookup_prune, if_neg hl]
        rfl
      exact this.symm ▸ KeyframeAnim.Inv.idle
  case rebase base =>
    refine ⟨trivial, fun ha => ?_⟩
    have hlookup := lookup_rebase a node base
    cases hs : a.lookup node
    case none   =>
      rw [hs] at hlookup
      have he : (a.rebase base).animOf node = a.animOf node := animOf_congr (hlookup.trans hs.symm)
      have ha : ((a.rebase base).animOf node).active := ha
      exact he.symm ▸ hi (he ▸ ha)
    case some s =>
      rw [hs] at hlookup
      have hold : a.animOf node = s.anim := congrArg AnimState.anim (stateOf_of_lookup hs)
      have hnew : (a.rebase base).animOf node = (s.rebase base).anim :=
        congrArg AnimState.anim (stateOf_of_lookup hlookup)
      have ha : ((a.rebase base).animOf node).active := ha
      rw [hnew] at ha
      have hk : s.anim.Known h := hold ▸ hi (hold ▸ ha)
      exact hnew.symm ▸ hk.congr ⟨rfl, rfl, rfl, rfl⟩
  case drainEvents => exact ⟨trivial, hi⟩

theorem timeline_spec {cs : List (Call ν D)} (hi : (a.animOf node).Inv h)
    (hc : StepsMeet (fun s c => s.1.Conforms node s.2 c) (stepWith node) (a, h) cs) :
    h.Ordered (timeline node a cs) := by
  induction cs generalizing a h
  case nil          => trivial
  case cons c cs ih =>
    obtain ⟨hfirst, hrest⟩ := hc
    obtain ⟨hord, hinv⟩ := step_spec hi hfirst
    rw [timeline]
    exact History.ordered_append.mpr ⟨hord, ih hinv (hrest _ rfl)⟩

end Engine

end Run

def fade (iterCount : Int) : Style ℚ where
  animation := some [{ name := some "fade".toList, durationMs := 100, delayMs := 0, iterCount }]

def tickAt (now : Int) : Call Unit ℚ :=
  .tick ⟨id, fun _ => .refl _⟩ now

-- Two iterations, with the style observed again between them.
def fadeTwice : List (Call Unit ℚ) :=
  [.observe () (fade 2) false 0, tickAt 50000, .observe () (fade 2) false 60000, tickAt 150000, tickAt 250000]

end Nordstjernen.Anim
