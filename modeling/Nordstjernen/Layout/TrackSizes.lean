import Mathlib.Algebra.BigOperators.Fin
import Mathlib.Algebra.Field.Rat
import Mathlib.Algebra.Order.Ring.Unbundled.Rat

namespace Nordstjernen.Layout.Grid

-- `ns_css_track_kind`
inductive TrackKind
  | px
  | percent
  | fr
  | auto
  | minContent
  | maxContent
deriving DecidableEq

-- `ns_css_track`, whose `has_min` says whether there is a minimum.
structure Track where
  kind : TrackKind
  v    : ℚ
  min? : Option (TrackKind × ℚ) := none

-- `track_min_px`
def trackMinPx (t : Track) (avail : ℚ) : ℚ :=
  match t.min? with
  | some (.px, v)      => v
  | some (.percent, v) => v * avail / 100
  | _                  => 0

-- `track_is_intrinsic`
def trackIsIntrinsic : TrackKind → Bool
  | .auto | .minContent | .maxContent => true
  | _                                 => false

-- The arguments of `resolve_track_sizes_full`.
structure Sizing (n : Nat) where
  tracks      : Fin n → Track
  avail       : ℚ
  contentMin  : Option (Fin n → ℚ)
  contentMax  : Option (Fin n → ℚ)
  stretchAuto : Bool

namespace Sizing

variable {n : Nat} (s : Sizing n)

def kind (i : Fin n) : TrackKind :=
  (s.tracks i).kind

def minPx (i : Fin n) : ℚ :=
  trackMinPx (s.tracks i) s.avail

section Fixed

def fixedPx (i : Fin n) : ℚ :=
  match s.kind i with
  | .px      => (s.tracks i).v
  | .percent => (s.tracks i).v * s.avail / 100
  | _        => 0

-- The factor of a flexible track.
def frOf (i : Fin n) : ℚ :=
  match s.kind i with
  | .fr => if 0 < (s.tracks i).v then (s.tracks i).v else 0
  | _   => 0

def totalFr : ℚ :=
  ∑ i, s.frOf i

def nAuto : ℚ :=
  ∑ i, if s.kind i = .auto then 1 else 0

def shrinkPx (i : Fin n) : ℚ :=
  match s.kind i, (s.tracks i).min? with
  | .px, some _ | .percent, some _ =>
    if s.minPx i < s.fixedPx i then s.fixedPx i - s.minPx i else 0
  | _, _ => 0

def totalShrink : ℚ :=
  ∑ i, s.shrinkPx i

end Fixed

section Content

-- `auto_base` and `auto_lim` before they are scaled.
def contribution (i : Fin n) : ℚ :=
  match s.contentMin with
  | none            => 0
  | some contentMin => if trackIsIntrinsic (s.kind i) && 0 < contentMin i then contentMin i else 0

def contributionLim (i : Fin n) : ℚ :=
  match s.contentMin with
  | none   => 0
  | some _ =>
    if trackIsIntrinsic (s.kind i) then
      let lim :=
        match s.contentMax with
        | none            => s.contribution i
        | some contentMax => contentMax i
      if s.contribution i < lim then lim else s.contribution i
    else
      0

def autoSum : ℚ :=
  ∑ i, if s.kind i = .auto then s.contribution i else 0

def contentSum : ℚ :=
  ∑ i, if s.kind i = .auto then 0 else s.contribution i

-- The space that is left for the minimal sizes of the tracks of kind `auto`.
def room : ℚ :=
  let free := s.avail - ((∑ i, s.fixedPx i) - s.totalShrink)
  let free := if free < 0 then 0 else free
  let room := free - s.contentSum
  if room < 0 then 0 else room

def scales : Bool :=
  s.room < s.autoSum && 0 < s.autoSum

def autoBase (i : Fin n) : ℚ :=
  if s.scales && s.kind i = .auto then s.contribution i * (s.room / s.autoSum) else s.contribution i

def autoLim (i : Fin n) : ℚ :=
  if s.scales && s.kind i = .auto && s.contributionLim i < s.autoBase i
  then s.autoBase i
  else s.contributionLim i

def baseSum : ℚ :=
  if s.scales then s.contentSum + s.room else ∑ i, s.contribution i

end Content

section Distribute

-- `total_fixed` before the fixed tracks shrink.
def totalBase : ℚ :=
  (∑ i, s.fixedPx i) + s.baseSum

def shrinkUsed : ℚ :=
  if s.avail < s.totalBase ∧ 0 < s.totalShrink then
    let used := s.totalBase - s.avail
    if s.totalShrink < used then s.totalShrink else used
  else
    0

-- `remaining` before tracks of kind `auto` grow.
def free : ℚ :=
  let remaining := s.avail - (s.totalBase - s.shrinkUsed)
  if remaining < 0 then 0 else remaining

def growRoom (i : Fin n) : ℚ :=
  if s.kind i = .auto ∧ 0 < s.autoLim i - s.autoBase i then s.autoLim i - s.autoBase i else 0

def roomTotal : ℚ :=
  ∑ i, s.growRoom i

def grows : Bool :=
  s.totalFr = 0 && 0 < s.nAuto && 0 < s.free && s.contentMin.isSome && 0 < s.roomTotal

def give : ℚ :=
  if s.grows then if s.free < s.roomTotal then s.free else s.roomTotal else 0

def autoGrow (i : Fin n) : ℚ :=
  if s.grows then s.give * (s.growRoom i / s.roomTotal) else 0

def remaining : ℚ :=
  s.free - s.give

def perFr : ℚ :=
  if 0 < s.totalFr then s.remaining / s.totalFr else 0

def perAuto : ℚ :=
  if s.totalFr = 0 ∧ 0 < s.nAuto ∧ s.stretchAuto then s.remaining / s.nAuto else 0

-- A size before it is raised to the minimum.
def rawSize (i : Fin n) : ℚ :=
  match s.kind i with
  | .px | .percent =>
    if 0 < s.shrinkUsed ∧ 0 < s.shrinkPx i
    then s.fixedPx i - s.shrinkUsed * (s.shrinkPx i / s.totalShrink)
    else s.fixedPx i
  | .fr         => s.perFr * s.frOf i
  | .auto       => s.autoBase i + s.autoGrow i + s.perAuto
  | .minContent => s.autoBase i
  | .maxContent => if s.autoBase i < s.autoLim i then s.autoLim i else s.autoBase i

-- The `out_sizes` of `resolve_track_sizes_full`.
def resolve (i : Fin n) : ℚ :=
  let size := if s.rawSize i < s.minPx i then s.minPx i else s.rawSize i
  if size < 0 then 0 else size

end Distribute

end Sizing

end Nordstjernen.Layout.Grid

namespace Nordstjernen.Layout.Grid.Sizing

variable {n : Nat} (s : Sizing n)

-- What a track needs. The contribution of a `max-content` track is its larger one.
def minimum (i : Fin n) : ℚ :=
  match s.kind i, (s.tracks i).min? with
  | .px, none | .percent, none => max 0 (s.fixedPx i)
  | .px, some _ | .percent, some _ | .fr, _ => max 0 (s.minPx i)
  | .auto, _ | .minContent, _ => max (s.contribution i) (s.minPx i)
  | .maxContent, _ => max (s.contributionLim i) (s.minPx i)

def MinimumsFit : Prop :=
  ∑ i, s.minimum i ≤ s.avail

-- What a track takes before space is handed out, or taken back.
def base (i : Fin n) : ℚ :=
  s.fixedPx i + s.contribution i

def left : ℚ :=
  max 0 (s.avail - ∑ i, s.base i)

def deficit : ℚ :=
  max 0 ((∑ i, s.base i) - s.avail)

section Share

-- Fixed tracks give back in proportion to what they are above their minimums.
def shrinkPart (i : Fin n) : ℚ :=
  s.deficit * (s.shrinkPx i / s.totalShrink)

def frPart (i : Fin n) : ℚ :=
  s.left * (s.frOf i / s.totalFr)

def autoRoom (i : Fin n) : ℚ :=
  if s.kind i = .auto then s.contributionLim i - s.contribution i else 0

def autoRoomTotal : ℚ :=
  ∑ i, s.autoRoom i

-- Without flexible tracks those of kind `auto` grow up to their limits, and then stretch.
def growPart (i : Fin n) : ℚ :=
  if 0 < s.totalFr then 0 else min s.left s.autoRoomTotal * (s.autoRoom i / s.autoRoomTotal)

def stretchPart (i : Fin n) : ℚ :=
  if 0 < s.totalFr ∨ ¬s.stretchAuto ∨ s.kind i ≠ .auto then 0
  else (s.left - min s.left s.autoRoomTotal) / s.nAuto

-- The part of the available space that falls to a track, whatever its minimum.
def share (i : Fin n) : ℚ :=
  s.base i - s.shrinkPart i + s.frPart i + s.growPart i + s.stretchPart i

end Share

-- What a track grows to where there is space for all of them.
def limit (i : Fin n) : ℚ :=
  match s.kind i with
  | .auto | .maxContent => s.contributionLim i
  | _                   => s.base i

-- Whether the tracks, without regard to their minimums, take up all of the space.
def UsesUp : Prop :=
  0 < s.totalFr ∨ (s.stretchAuto ∧ 0 < s.nAuto) ∨ s.left ≤ s.autoRoomTotal

def HasFr : Prop :=
  ∃ i, s.kind i = .fr

-- What the sizes of tracks have to be.
structure Sized (sizes : Fin n → ℚ) : Prop where
  declared : ∀ i, s.minPx i ≤ sizes i
  minimums : s.MinimumsFit → ∀ i, s.minimum i ≤ sizes i
  fits     : s.MinimumsFit → ∑ i, sizes i ≤ s.avail
  fills    : s.MinimumsFit → s.HasFr ∨ (∃ i, s.stretchAuto ∧ s.kind i = .auto) →
    ∑ i, sizes i = s.avail
  common   : ∃ fr, ∀ i, s.kind i = .fr → sizes i = max (s.minimum i) (s.frOf i * fr)

-- Whether raising tracks to their minimums takes no space that has gone to others.
def Settles : Prop :=
  s.MinimumsFit →
    (s.UsesUp → ∀ i, s.minimum i ≤ s.share i) ∧
    (¬s.UsesUp → ∑ i, max (s.limit i) (s.minimum i) ≤ s.avail ∧
      (s.HasFr → ∑ i, max (s.limit i) (s.minimum i) = s.avail))

end Nordstjernen.Layout.Grid.Sizing
