import Mathlib.Data.Rat.Floor
import Mathlib.Order.Bounds.Basic
import Nordstjernen.Js.Numbers
import Nordstjernen.Layout.Grid
import Nordstjernen.Layout.TrackSizes

namespace Nordstjernen.Layout.Grid

-- `ns_css_auto_repeat`
inductive AutoRepeat
  | none
  | fit
  | fill
deriving DecidableEq

-- `ns_css_tracks`
structure Tracks where
  tracks          : List Track
  autoRepeat      : AutoRepeat := .none
  autoRepeatStart : Nat := 0
  autoRepeatCount : Nat := 0
  tracks_le       : tracks.length ≤ tracksMax
  section_le      : autoRepeatStart + autoRepeatCount ≤ tracks.length

namespace Tracks

variable (tr : Tracks)

def before : List Track :=
  tr.tracks.take tr.autoRepeatStart

def repeatSection : List Track :=
  (tr.tracks.drop tr.autoRepeatStart).take tr.autoRepeatCount

def after : List Track :=
  tr.tracks.drop (tr.autoRepeatStart + tr.autoRepeatCount)

def repeated (k : Nat) : List Track :=
  tr.before ++ (List.replicate k tr.repeatSection).flatten ++ tr.after

end Tracks

def lone : Track where
  kind := .auto
  v    := 0

-- What the section of a track counts for.
def sectionPx (t : Track) (avail : ℚ) : ℚ :=
  if trackMinPx t avail ≤ 0 ∧ t.kind = .px then t.v else trackMinPx t avail

-- The conversion to `int`, which is undefined where the value is out of range.
def toInt? (q : ℚ) : Option Int :=
  let n := if 0 ≤ q then ⌊q⌋ else ⌈q⌉
  if -2147483648 ≤ n ∧ n ≤ 2147483647 then some n else none

def push (out : List Track) (t : Track) : List Track :=
  if out.length < tracksMax then out ++ [t] else out

-- The number of repetitions of a section with sizes above 0.
def repeats? (tr : Tracks) (avail gap : ℚ) : Option Nat :=
  let baseMin := (tr.repeatSection.map (sectionPx · avail)).sum
  let patternWithGap := baseMin + gap * tr.autoRepeatCount
  let counted := if 0 < patternWithGap then toInt? ((avail + gap) / patternWithGap) else some 1
  counted.map fun repeats =>
    let repeats := if repeats < 1 then 1 else repeats.toNat
    let repeats := if tracksMax < repeats then tracksMax else repeats
    let suffixCount := tr.after.length
    let total := tr.autoRepeatStart + repeats * tr.autoRepeatCount + suffixCount
    let repeats :=
      if tracksMax < total then (tracksMax - tr.autoRepeatStart - suffixCount) / tr.autoRepeatCount
      else repeats
    if repeats < 1 then 1 else repeats

-- `expand_auto_repeat`, or `none` where its behaviour is undefined.
def expandAutoRepeat (tr : Tracks) (avail gap : ℚ) : Option (List Track) :=
  if tr.autoRepeat = .none ∨ tr.autoRepeatCount = 0 then some tr.tracks
  else if ∃ t ∈ tr.repeatSection, sectionPx t avail ≤ 0 then some [lone]
  else
    (repeats? tr avail gap).map fun repeats =>
      let out := tr.before.foldl push []
      let out := (List.replicate repeats tr.repeatSection).foldl (fun out s => s.foldl push out) out
      tr.after.foldl push out

-- A track list with a section, and the space it has.
structure Expansion extends Tracks where
  avail        : ℚ
  gap          : ℚ
  gap_nonneg   : 0 ≤ gap
  has_section  : autoRepeat ≠ .none
  section_pos  : 0 < autoRepeatCount

namespace Expansion

variable (e : Expansion)

-- The least size of a track, which is its definite size if it has no minimum.
def size (t : Track) : ℚ :=
  if 0 < trackMinPx t e.avail then trackMinPx t e.avail
  else match t.kind with
    | .px      => t.v
    | .percent => t.v * e.avail / 100
    | _        => trackMinPx t e.avail

def Fits (k : Nat) : Prop :=
  ((e.repeated k).map e.size).sum + e.gap * ((e.repeated k).length - 1) ≤ e.avail

-- Whether the repetitions would fit if they were the only tracks.
def SectionFits (k : Nat) : Prop :=
  k * (e.repeatSection.map e.size).sum + e.gap * (k * e.repeatSection.length - 1) ≤ e.avail

def Admissible (k : Nat) : Prop :=
  1 ≤ k ∧ (e.repeated k).length ≤ tracksMax ∧ (k = 1 ∨ e.Fits k)

def Expands : Prop :=
  ∃ k, IsGreatest { k | e.Admissible k } k ∧
    expandAutoRepeat e.toTracks e.avail e.gap = some (e.repeated k)

-- Whether the number of repetitions can be told from the section alone, by numbers in range.
def SectionDecides : Prop :=
  (∀ t ∈ e.repeatSection, 0 < sectionPx t e.avail) ∧
  (toInt? ((e.avail + e.gap) /
    ((e.repeatSection.map e.size).sum + e.gap * e.repeatSection.length))).isSome ∧
  ∀ k, 2 ≤ k → (e.repeated k).length ≤ tracksMax → (e.SectionFits k ↔ e.Fits k)

end Expansion

end Nordstjernen.Layout.Grid
