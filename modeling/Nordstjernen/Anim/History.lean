import Nordstjernen.Anim.Engine
import Nordstjernen.Lib.Run

open Nordstjernen.Glib Nordstjernen.Lib

namespace Nordstjernen.Anim

deriving instance DecidableEq for Entry

-- What a style asks for about the keyframe animation of a node.
structure Asked (D : Type) where
  animation : Option (List (Entry D))
  playState : Option CString
deriving DecidableEq

def Style.asked {D : Type} (style : Style D) : Asked D where
  animation := style.animation
  playState := style.playState

namespace Asked

variable {D : Type} (q : Asked D)

-- The first entry is the one that counts.
def entry : Option (Entry D) :=
  q.animation.bind List.head?

def Names (name : CString) (n : Int) : Prop :=
  ∃ e ∈ q.entry, e.name = some name ∧ e.iterCount = n

end Asked

-- What comes to pass with the keyframe animation of a node.
inductive Moment (D : Type)
  | observed (asked : Asked D)
  | event (type : EventType) (name : CString)
  | forgotten
deriving DecidableEq

-- What has come to pass with it: what its styles have asked for, whether an animation has been started or has
-- ended since they last changed, and the animation that has been started, with its iterations, unless it has
-- ended or no style asks for an animation any longer.
structure History (D : Type) where
  asked   : List (Asked D)         := []
  begun   : Bool                   := false
  running : Option (CString × Nat) := none

def Moment.dispatched {D : Type} : Moment D → Option (EventType × CString)
  | .event type name => some (type, name)
  | _                => none

namespace History

variable {D : Type} [DecidableEq D] (h : History D)

-- The rule of the events. Nothing is started twice for one style, and what is iterated or ends has been
-- started, with one iteration less than a style has asked for.
def Allows : Moment D → Prop
  | .event .animationstart name     => h.begun = false ∧ ∃ q ∈ h.asked, ∃ n, q.Names name n
  | .event .animationiteration name =>
    ∃ k, h.running = some (name, k) ∧ ∃ q ∈ h.asked, ∃ n, q.Names name n ∧ (0 < n → (k : Int) + 1 ≤ n - 1)
  | .event .animationend name       => ∃ k, h.running = some (name, k)
  | .event .transitionend _         => False
  | _                               => True

def next : Moment D → History D
  | .observed q                     =>
    { asked   := q :: h.asked
      begun   := if h.asked.head? = some q then h.begun else false
      running := if q.entry.isNone then none else h.running }
  | .event .animationstart name     => { h with begun := true, running := some (name, 0) }
  | .event .animationiteration _    => { h with running := h.running.map fun (name, k) => (name, k + 1) }
  | .event .animationend _          => { h with begun := true, running := none }
  | .event .transitionend _         => h
  | .forgotten                      => {}

def Ordered : History D → List (Moment D) → Prop
  | _, []      => True
  | h, m :: ms => h.Allows m ∧ Ordered (h.next m) ms

end History

-- Whether the styles of a node all ask for the same.
def Keeps {D : Type} (q : Asked D) (ms : List (Moment D)) : Prop :=
  ∀ m ∈ ms, m = .observed q ∨ ∃ type name, m = .event type name

-- An animation from its start to its end, with less than `n` iterations between them unless `n` has no limit.
def Lifecycle (name : CString) (n : Int) (events : List (EventType × CString)) : Prop :=
  ∃ k : Nat, (0 < n → (k : Int) ≤ n - 1) ∧
    events <+: (.animationstart, name) :: List.replicate k (.animationiteration, name) ++ [(.animationend, name)]

variable {ν D : Type} [DecidableEq ν] [Double D]

-- The animation that an observation starts.
def KeyframeAnim.starts (anim : KeyframeAnim D) (count : Nat) (style : Style D) (skip : Bool) : Option CString :=
  match style.animation with
  | none | some [] => none
  | some (e :: _)  =>
    match e.name with
    | none      => none
    | some name =>
      if skip || Double.le e.durationMs 0 then none
      else if anim.isSame name e then none
      else if anim.active || count < maxActive then some name
      else none

-- What a dispatched event is in the history of a node.
def AnimEvent.moment (node : ν) (e : AnimEvent ν D) : Option (Moment D) :=
  if e.node = node ∧ e.type ≠ .transitionend then some (.event e.type e.name) else none

namespace Engine

variable (a : Engine ν D) (node : ν)

-- The state of a node, which is a new one where it has none.
def stateOf : AnimState ν D :=
  (a.lookup node).getD (.new node)

def animOf : KeyframeAnim D :=
  (a.stateOf node).anim

-- What a call brings about.
def moments : Call ν D → List (Moment D)
  | .observe other style _ _ => if other = node then [.observed style.asked] else []
  | .tick order now          =>
    ((a.tick order now).fst.events.drop a.events.length).filterMap (AnimEvent.moment node)
  | .prune live              => if live node then [] else [.forgotten]
  | _                        => []

def timeline (node : ν) : Engine ν D → List (Call ν D) → List (Moment D)
  | _, []      => []
  | a, c :: cs => a.moments node c ++ timeline node (a.step c) cs

variable [DecidableEq D]

-- Where the events are in order: what is started is not the animation that has been begun for the same
-- style, and no other one is left started behind it. The elapsed time is a number.
def Conforms (h : History D) : Call ν D → Prop
  | .observe other style skip now =>
    other = node →
      ∀ name ∈ (a.animOf node).starts ((a.stateOf node).observeTransition a.activeCount style skip now).2
          style skip,
        ((a.animOf node).started → (a.animOf node).active ∧ (a.animOf node).name = some name) ∧
          (h.begun → h.asked.head? ≠ some style.asked)
  | .tick _ now                   =>
    (a.animOf node).active →
      Double.lt ((a.animOf node).elapsed now) 0 ∨ Double.le 0 ((a.animOf node).elapsed now)
  | _                             => True

instance {h : History D} : ∀ c, Decidable (a.Conforms node h c)
  | .observe ..   => inferInstanceAs (Decidable (_ → ∀ name ∈ _, _))
  | .tick ..      => inferInstanceAs (Decidable (_ → _))
  | .prune _      => inferInstanceAs (Decidable True)
  | .rebase _     => inferInstanceAs (Decidable True)
  | .drainEvents  => inferInstanceAs (Decidable True)

-- A step of the engine and of the history of a node.
def stepWith (s : Engine ν D × History D) (c : Call ν D) : Option (Engine ν D × History D) :=
  some (s.1.step c, (s.1.moments node c).foldl History.next s.2)

end Engine

end Nordstjernen.Anim
