import Mathlib.Algebra.Field.Rat
import Mathlib.Algebra.Order.Ring.Rat
import Nordstjernen.Glib.Strings

open Nordstjernen.Glib

namespace Nordstjernen.Anim

-- The arithmetic of `double`. No law of it is relied on.
class Double (D : Type) extends Zero D, One D, Add D, Sub D, Mul D, Div D where
  lt    : D → D → Bool
  le    : D → D → Bool
  beq   : D → D → Bool
  ofInt : Int → D
  trunc : D → Int

-- Exact arithmetic, as `double` has it for small whole numbers.
scoped instance : Double ℚ where
  lt x y  := decide (x < y)
  le x y  := decide (x ≤ y)
  beq x y := decide (x = y)
  ofInt n := n
  trunc x := x.num.tdiv x.den

structure Rgba where
  r : UInt8
  g : UInt8
  b : UInt8
  a : UInt8
deriving DecidableEq

inductive TransformOpKind
  | translate
  | rotate
  | scale
  | skew
  | matrix
  | matrix3d
  | rotate3d
  | perspective
deriving DecidableEq

-- The parts of `ns_css_transform_op` that tell transforms apart.
structure TransformOp (D : Type) where
  kind : TransformOpKind
  a    : D
  b    : D

-- `ns_css_anim_target`
inductive Target
  | none
  | all
  | opacity
  | transform
  | color
  | bgColor
  | other
deriving DecidableEq

inductive Fill
  | none
  | forwards
  | backwards
  | both
deriving DecidableEq

-- `ns_css_anim_entry`
structure Entry (D : Type) where
  target     : Target := .all
  name       : Option CString := none
  durationMs : D
  delayMs    : D
  iterCount  : Int := 1
  fill       : Fill := .none
  paused     : Bool := false

-- What `ns_anim_observe` reads of an `ns_style`: the values of the properties of its own, where they
-- have the right kind, and the serialized value of any known property.
structure Style (D : Type) where
  transition : Option (List (Entry D)) := none
  opacity    : Option D := none
  transform  : Option (List (TransformOp D)) := none
  color      : Option Rgba := none
  bgColor    : Option Rgba := none
  animation  : Option (List (Entry D)) := none
  playState  : Option CString := none
  value      : CString → Option CString := fun _ => none

-- What is remembered of a property and of the transition that runs on it.
structure Chan (D α : Type) where
  last       : Option α
  active     : Bool
  startUs    : Int
  durationMs : D
  delayMs    : D

-- The fields of `ns_anim_state` about its keyframe animation.
structure KeyframeAnim (D : Type) where
  active        : Bool
  paused        : Bool
  started       : Bool
  itersEmitted  : Int
  elapsedBaseMs : D
  name          : Option CString
  startUs       : Int
  durationMs    : D
  delayMs       : D
  iterCount     : Int
  fill          : Fill

-- `ns_anim_generic_chan`
structure GenericChan (D : Type) where
  prop : CString
  chan : Chan D CString

-- `ns_anim_state`
structure AnimState (ν D : Type) where
  node      : ν
  opacity   : Chan D D
  transform : Chan D (List (TransformOp D))
  color     : Chan D Rgba
  bg        : Chan D Rgba
  anim      : KeyframeAnim D
  generic   : List (GenericChan D)

inductive EventType
  | transitionend
  | animationstart
  | animationiteration
  | animationend
deriving DecidableEq

-- `ns_anim_event`
structure AnimEvent (ν D : Type) where
  node      : ν
  type      : EventType
  name      : CString
  elapsedMs : D

-- `ns_anim`: the table of states, of which each node has at most one, and the set of those that a
-- tick visits.
structure Engine (ν D : Type) where
  states      : List (AnimState ν D) := []
  active      : List ν := []
  activeCount : Nat := 0
  events      : List (AnimEvent ν D) := []

def maxActive : Nat := 64

variable {ν D α : Type} [DecidableEq ν] [Double D]

namespace Double

def abs (x : D) : D :=
  if lt x 0 then 0 - x else x

-- Whether two numbers differ by more than 0.001.
def differ (x y : D) : Bool :=
  lt (1 / ofInt 1000) (abs (x - y))

end Double

-- The milliseconds since a start in microseconds, less a delay.
def elapsedMs (now startUs : Int) (delayMs : D) : D :=
  Double.ofInt (now - startUs) / Double.ofInt 1000 - delayMs

def transformsCompatible (a b : List (TransformOp D)) : Bool :=
  a.map (·.kind) == b.map (·.kind)

def transformsDiffer (last cur : List (TransformOp D)) : Bool :=
  transformsCompatible last cur &&
    (cur.zip last).any fun (c, l) => Double.differ c.a l.a || Double.differ c.b l.b

-- `find_entry`
def findEntry (list : List (Entry D)) (target : Target) : Option (Entry D) :=
  let upTo := list.takeWhile (·.target != target)
  match list.drop upTo.length with
  | e :: _ => some e
  | []     => list.find? (·.target == .all)

namespace Chan

def idle : Chan D α where
  last       := none
  active     := false
  startUs    := 0
  durationMs := 0
  delayMs    := 0

def start (ch : Chan D α) (e : Entry D) (now : Int) : Chan D α :=
  { ch with active := true, startUs := now, durationMs := e.durationMs, delayMs := e.delayMs }

-- How each kind of channel is observed: with an entry of a positive duration a change of the value
-- starts a transition, or turns the running one, if the cap allows it.
def observe (count : Nat) (ch : Chan D α) (cur : α) (differs : α → α → Bool)
    (e : Option (Entry D)) (now : Int) : Chan D α × Nat :=
  match e, ch.last with
  | some e, some last =>
    if Double.lt 0 e.durationMs && differs last cur && (ch.active || count < maxActive) then
      ({ ch.start e now with last := some cur }, if ch.active then count else count + 1)
    else
      ({ ch with last := some cur }, count)
  | _, _ => ({ ch with last := some cur }, count)

-- What `advance_opacity`, `advance_transform` and `advance_color_chan` do to a channel that is
-- active. All of them return `TRUE`.
def advance (count : Nat) (ch : Chan D α) (now : Int) : Chan D α × Nat :=
  let elapsed := elapsedMs now ch.startUs ch.delayMs
  if Double.lt elapsed 0 then (ch, count)
  else if Double.le ch.durationMs elapsed then ({ ch with active := false }, count - 1)
  else (ch, count)

-- The calls of these in `ns_anim_tick`.
def tick (count : Nat) (ch : Chan D α) (now : Int) : Chan D α × Nat :=
  if ch.active then ch.advance count now else (ch, count)

end Chan

-- `observe_color_chan`
def observeColorChan (count : Nat) (ch : Chan D Rgba) (cur : Option Rgba) (e : Option (Entry D))
    (now : Int) : Chan D Rgba × Nat :=
  match cur with
  | none     => (ch, count)
  | some cur => ch.observe count cur (fun last cur => last != cur) e now

def clampOpacity (v : D) : D :=
  let v := if Double.lt v 0 then 0 else v
  if Double.lt 1 v then 1 else v

-- The part of `observe_transition` about the opacity.
def observeOpacity (count : Nat) (ch : Chan D D) (style : Style D) (e : Option (Entry D))
    (now : Int) : Chan D D × Nat :=
  ch.observe count (clampOpacity (style.opacity.getD 1)) (fun last cur => Double.differ cur last) e now

-- The part of `observe_transition` about the transform.
def observeTransform (count : Nat) (ch : Chan D (List (TransformOp D))) (style : Style D)
    (e : Option (Entry D)) (now : Int) : Chan D (List (TransformOp D)) × Nat :=
  match style.transform with
  | none     => (ch, count)
  | some cur => ch.observe count cur transformsDiffer e now

-- `observe_generic_chan`, behind its test of the property.
def observeGeneric (count : Nat) (cur : CString) (name : CString) (e : Entry D) (now : Int) :
    List (GenericChan D) → List (GenericChan D) × Nat
  | []      =>
    let (chan, count) := Chan.idle.observe count cur (fun last cur => last != cur) (some e) now
    ([⟨name, chan⟩], count)
  | g :: gs =>
    if g.prop = name then
      let (chan, count) := g.chan.observe count cur (fun last cur => last != cur) (some e) now
      (⟨g.prop, chan⟩ :: gs, count)
    else
      let (gs, count) := observeGeneric count cur name e now gs
      (g :: gs, count)

-- The last loop of `observe_transition`.
def observeGenerics (style : Style D) (now : Int) :
    List (Entry D) → List (GenericChan D) → Nat → List (GenericChan D) × Nat
  | [],      gs, count => (gs, count)
  | e :: es, gs, count =>
    match e.target, e.name, e.name.bind style.value with
    | .other, some name, some cur =>
      let (gs, count) := observeGeneric count cur name e now gs
      observeGenerics style now es gs count
    | _, _, _ => observeGenerics style now es gs count

namespace KeyframeAnim

def idle : KeyframeAnim D where
  active        := false
  paused        := false
  started       := false
  itersEmitted  := 0
  elapsedBaseMs := 0
  name          := none
  startUs       := 0
  durationMs    := 0
  delayMs       := 0
  iterCount     := 0
  fill          := .none

variable (anim : KeyframeAnim D)

def elapsed (now : Int) : D :=
  if anim.paused then anim.elapsedBaseMs else elapsedMs now anim.startUs anim.delayMs

-- `advance_animation`
def advance (count : Nat) (now : Int) : KeyframeAnim D × Nat × Bool :=
  if anim.name = none then
    (anim, count, false)
  else
    let cycle := if Double.lt 0 anim.durationMs then anim.durationMs else 1
    let elapsed := anim.elapsed now
    if Double.lt elapsed 0 then
      (anim, count, anim.fill == .backwards || anim.fill == .both)
    else
      let iter := elapsed / cycle
      let iter := Double.trunc (if Double.lt (Double.ofInt 1000000000) iter then
        Double.ofInt 1000000000 else iter)
      if 0 < anim.iterCount ∧ anim.iterCount ≤ iter then
        ({ anim with active := false }, if anim.active then count - 1 else count, true)
      else
        (anim, count, true)

-- Whether the style asks for a pause.
def wantsPause (style : Style D) (e : Entry D) : Bool :=
  match style.playState with
  | none   => e.paused
  | some s =>
    if s = "paused".toList then true else if s = "running".toList then false else e.paused

-- The animation goes on as it is, but for a pause or a resumption.
def keep (paused : Bool) (now : Int) : KeyframeAnim D :=
  if paused && !anim.paused then
    let elapsed := elapsedMs now anim.startUs anim.delayMs
    { anim with
      elapsedBaseMs := if Double.lt 0 elapsed then elapsed else 0
      paused        := true }
  else if !paused && anim.paused then
    { anim with
      startUs := now -
        Double.trunc ((anim.elapsedBaseMs + anim.delayMs) * Double.ofInt 1000)
      paused  := false }
  else
    anim

def restart (name : CString) (e : Entry D) (paused : Bool) (now : Int) : KeyframeAnim D :=
  { anim with
    name          := some name
    startUs       := now
    durationMs    := e.durationMs
    delayMs       := e.delayMs
    iterCount     := e.iterCount
    fill          := e.fill
    active        := true
    paused        := paused
    elapsedBaseMs := 0 }

def isSame (name : CString) (e : Entry D) : Bool :=
  anim.active && anim.name == some name && Double.beq anim.durationMs e.durationMs

-- `observe_animation`, where `skip` is `should_skip_motion()`.
def observe (count : Nat) (style : Style D) (skip : Bool) (now : Int) : KeyframeAnim D × Nat :=
  match style.animation with
  | none | some [] =>
    if anim.active then ({ anim with active := false, name := none }, count - 1) else (anim, count)
  | some (e :: _)  =>
    match e.name with
    | none      => (anim, count)
    | some name =>
      if skip || Double.le e.durationMs 0 then
        (anim, count)
      else
        let paused := wantsPause style e
        if anim.isSame name e then
          (anim.keep paused now, count)
        else if anim.active || count < maxActive then
          let count := if anim.active then count else count + 1
          let anim := anim.restart name e paused now
          if paused then
            let (anim, count, _) := anim.advance count now
            (anim, count)
          else
            (anim, count)
        else
          (anim, count)

end KeyframeAnim

namespace AnimState

def new (node : ν) : AnimState ν D where
  node      := node
  opacity   := .idle
  transform := .idle
  color     := .idle
  bg        := .idle
  anim      := .idle
  generic   := []

variable (s : AnimState ν D)

-- `state_is_active`
def isActive : Bool :=
  s.opacity.active || s.transform.active || s.color.active || s.bg.active ||
    (s.anim.active && !s.anim.paused) || s.generic.any (·.chan.active)

-- How many of the channels are active.
def activeChannels : Nat :=
  s.opacity.active.toNat + s.transform.active.toNat + s.color.active.toNat + s.bg.active.toNat +
    s.anim.active.toNat + s.generic.countP (·.chan.active)

-- `observe_transition`
def observeTransition (count : Nat) (style : Style D) (skip : Bool) (now : Int) :
    AnimState ν D × Nat :=
  match style.transition with
  | none    => (s, count)
  | some tv =>
    if skip then
      (s, count)
    else
      let (opacity, count) := observeOpacity count s.opacity style (findEntry tv .opacity) now
      let (transform, count) := observeTransform count s.transform style (findEntry tv .transform) now
      let (color, count) := observeColorChan count s.color style.color (findEntry tv .color) now
      let (bg, count) := observeColorChan count s.bg style.bgColor (findEntry tv .bgColor) now
      let (generic, count) := observeGenerics style now tv s.generic count
      ({ s with opacity, transform, color, bg, generic }, count)

def observe (count : Nat) (style : Style D) (skip : Bool) (now : Int) : AnimState ν D × Nat :=
  let (s, count) := s.observeTransition count style skip now
  let (anim, count) := s.anim.observe count style skip now
  ({ s with anim }, count)

def emit (type : EventType) (name : CString) (elapsedMs : D) : AnimEvent ν D :=
  ⟨s.node, type, name, elapsedMs⟩

end AnimState

-- The `transitionend` of a channel that a tick has made inactive.
def endOf (node : ν) (name : CString) (ch ch' : Chan D α) : List (AnimEvent ν D) :=
  if ch.active && !ch'.active then [⟨node, .transitionend, name, ch'.durationMs⟩] else []

namespace KeyframeAnim

variable (anim : KeyframeAnim D) (node : ν) (now : Int)

-- The three kinds of events that `ns_anim_tick` emits about an animation that was active before.
def emitStart : KeyframeAnim D × List (AnimEvent ν D) :=
  if !anim.started && Double.le 0 (anim.elapsed now) then
    ({ anim with started := true, itersEmitted := 0 },
      [⟨node, .animationstart, anim.name.getD [], 0⟩])
  else
    (anim, [])

def reached : Int :=
  let reached := Double.trunc (anim.elapsed now / anim.durationMs)
  if 0 < anim.iterCount then min reached (anim.iterCount - 1) else reached

def emitIterations : KeyframeAnim D × List (AnimEvent ν D) :=
  if anim.started && Double.lt 0 anim.durationMs then
    let due := (anim.reached now - anim.itersEmitted).toNat
    ({ anim with itersEmitted := anim.itersEmitted + due },
      (List.range due).map fun i =>
        ⟨node, .animationiteration, anim.name.getD [],
          Double.ofInt (anim.itersEmitted + i + 1) * anim.durationMs⟩)
  else
    (anim, [])

def emitEnd : KeyframeAnim D × List (AnimEvent ν D) :=
  if anim.active then
    (anim, [])
  else
    let iterations := if 0 < anim.iterCount then anim.iterCount else 1
    ({ anim with started := false, itersEmitted := 0 },
      [⟨node, .animationend, anim.name.getD [], anim.durationMs * Double.ofInt iterations⟩])

def tick (count : Nat) : KeyframeAnim D × Nat × Bool × List (AnimEvent ν D) :=
  if anim.active then
    let (anim, count, any) := anim.advance count now
    let (anim, starts) := anim.emitStart node now
    let (anim, iterations) := anim.emitIterations node now
    let (anim, ends) := anim.emitEnd node
    (anim, count, any, starts ++ iterations ++ ends)
  else
    (anim, count, false, [])

end KeyframeAnim

-- The loop of `ns_anim_tick` over the generic channels.
def tickGenerics (node : ν) (now : Int) :
    List (GenericChan D) → Nat → List (GenericChan D) × Nat × List (AnimEvent ν D)
  | [],      count => ([], count, [])
  | g :: gs, count =>
    if g.chan.active && Double.le g.chan.durationMs (elapsedMs now g.chan.startUs g.chan.delayMs) then
      let (gs, count, events) := tickGenerics node now gs (count - 1)
      (⟨g.prop, { g.chan with active := false }⟩ :: gs, count,
        ⟨node, .transitionend, g.prop, g.chan.durationMs⟩ :: events)
    else
      let (gs, count, events) := tickGenerics node now gs count
      (g :: gs, count, events)

-- What a tick leaves of a state.
structure Ticked (ν D : Type) where
  state  : AnimState ν D
  count  : Nat
  events : List (AnimEvent ν D)
  any    : Bool

-- The body of the loop of `ns_anim_tick`.
def AnimState.tick (s : AnimState ν D) (count : Nat) (now : Int) : Ticked ν D :=
  let (opacity, count) := s.opacity.tick count now
  let (transform, count) := s.transform.tick count now
  let (color, count) := s.color.tick count now
  let (bg, count) := s.bg.tick count now
  let (anim, count, advanced, animEvents) := s.anim.tick s.node now count
  let (generic, count, genericEvents) := tickGenerics s.node now s.generic count
  { state  := { s with opacity, transform, color, bg, anim, generic }
    count  := count
    events := endOf s.node "opacity".toList s.opacity opacity ++
      endOf s.node "transform".toList s.transform transform ++
      endOf s.node "color".toList s.color color ++
      endOf s.node "background-color".toList s.bg bg ++ animEvents ++ genericEvents
    any    := s.opacity.active || s.transform.active || s.color.active || s.bg.active || advanced ||
      !genericEvents.isEmpty }

def AnimState.rebase (s : AnimState ν D) (base : Int) : AnimState ν D :=
  { s with
    opacity   := { s.opacity with startUs := base }
    transform := { s.transform with startUs := base }
    color     := { s.color with startUs := base }
    bg        := { s.bg with startUs := base }
    anim      := { s.anim with startUs := base } }

-- The order in which GLib iterates over a hash table, which it leaves open.
structure HashOrder (ν : Type) where
  order : List ν → List ν
  perm  : ∀ l, (order l).Perm l

namespace Engine

variable (a : Engine ν D)

-- `g_hash_table_lookup(a->states, node)`
def lookup (node : ν) : Option (AnimState ν D) :=
  a.states.find? (·.node = node)

-- A state that is new or changed.
def put (s : AnimState ν D) (count : Nat) : Engine ν D :=
  { a with
    states      := a.states.filter (·.node ≠ s.node) ++ [s]
    activeCount := count }

-- `anim_track`
def track (s : AnimState ν D) : Engine ν D :=
  { a with
    active := if s.isActive then a.active.insert s.node else a.active.erase s.node }

def isAnimatable (style : Style D) : Bool :=
  style.transition.isSome ||
    match style.animation with
    | none | some [] => false
    | some (_ :: _)  => true

-- `ns_anim_observe`
def observe (node : ν) (style : Style D) (skip : Bool) (now : Int) : Engine ν D :=
  match a.lookup node with
  | some s =>
    let (s, count) := s.observe a.activeCount style skip now
    (a.put s count).track s
  | none   =>
    if isAnimatable style then
      let (s, count) := (AnimState.new node).observe a.activeCount style skip now
      (a.put s count).track s
    else
      a

-- One iteration of the loop of `ns_anim_tick`, and whether it has set `any`.
def tickNode (now : Int) (node : ν) : Engine ν D × Bool :=
  match a.lookup node with
  | none   => (a, false)
  | some s =>
    let t := s.tick a.activeCount now
    let a := { a.put t.state t.count with events := a.events ++ t.events }
    ({ a with active := if t.state.isActive then a.active else a.active.erase node }, t.any)

def tickNodes (now : Int) : List ν → Engine ν D → Engine ν D × Bool
  | [],            a => (a, false)
  | node :: nodes, a =>
    let (a, any) := a.tickNode now node
    let (a, any') := tickNodes now nodes a
    (a, any || any')

-- `ns_anim_tick`
def tick (order : HashOrder ν) (now : Int) : Engine ν D × Bool :=
  tickNodes now (order.order a.active) a

-- The iterations of `ns_anim_prune` for nodes that are not alive.
def dropState (s : AnimState ν D) : Engine ν D :=
  { a with
    states      := a.states.filter (·.node ≠ s.node)
    active      := a.active.erase s.node
    activeCount := a.activeCount - s.activeChannels }

-- `ns_anim_prune`
def prune (live : ν → Bool) : Engine ν D :=
  (a.states.filter (!live ·.node)).foldl dropState a

-- `ns_anim_rebase`
def rebase (base : Int) : Engine ν D :=
  { a with states := a.states.map (·.rebase base) }

end Engine

-- The calls of the engine.
inductive Call (ν D : Type)
  | observe (node : ν) (style : Style D) (skip : Bool) (now : Int)
  | tick (order : HashOrder ν) (now : Int)
  | prune (live : ν → Bool)
  | rebase (base : Int)
  -- `ns_anim_drain_events`
  | drainEvents

def Engine.step (a : Engine ν D) : Call ν D → Engine ν D
  | .observe node style skip now => a.observe node style skip now
  | .tick order now              => (a.tick order now).fst
  | .prune live                  => a.prune live
  | .rebase base                 => a.rebase base
  | .drainEvents                 => { a with events := [] }

def Engine.run (calls : List (Call ν D)) : Engine ν D :=
  calls.foldl step {}

end Nordstjernen.Anim
