import Mathlib.Data.Rat.Floor
import Nordstjernen.Glib.Strings

open Nordstjernen.Glib

namespace Nordstjernen.Streaming.Dash

-- The `values` of `expandTemplate`. Numbers are exact, as those of JavaScript are up to 2^53.
structure Values where
  representationId : CString
  bandwidth        : Nat
  number           : Nat
  time             : Nat

namespace Values

def text (n : Nat) : CString :=
  Nat.toDigits 10 n

-- The names that the regular expression of `expandTemplate` knows, in its order.
def names (v : Values) : List (CString × CString) := [
  ("RepresentationID".toList, v.representationId),
  ("Number".toList,           text v.number),
  ("Bandwidth".toList,        text v.bandwidth),
  ("Time".toList,             text v.time)
]

end Values

def padded (width : Nat) (value : CString) : CString :=
  List.replicate (width - value.length) '0' ++ value

-- `%0(\d+)d`: its width, and what follows.
def widthOf : CString → Option (Nat × CString)
  | '%' :: '0' :: s =>
    match s.takeWhile Char.isDigit, s.dropWhile Char.isDigit with
    | [],      _         => none
    | d :: ds, 'd' :: tl => some (Nat.ofDigitChars 10 (d :: ds) 0, tl)
    | _,       _         => none
  | _ => none

-- A match of the regular expression after its name: the width, if any, and the text behind the match.
def closes (s : CString) : Option (Option Nat × CString) :=
  match widthOf s with
  | some (width, '$' :: tl) => some (some width, tl)
  | _ =>
    match s with
    | '$' :: tl => some (none, tl)
    | _         => none

-- The text that a match at the front is replaced with, and the text behind the match.
def matchAt (v : Values) : CString → Option (CString × CString)
  | '$' :: '$' :: s => (closes s).map fun (_, tl) => (['$'], tl)
  | '$' :: s =>
    v.names.findSome? fun (name, value) =>
      if gStrHasPrefix s name then
        (closes (s.drop name.length)).map fun (width, tl) =>
          (padded (width.getD 0) value, tl)
      else
        none
  | _ => none

-- The text is read from the front, where `skip` characters belong to the last match.
def expandFrom (v : Values) : CString → Nat → CString
  | [],     _        => []
  | _ :: s, skip + 1 => expandFrom v s skip
  | c :: s, 0        =>
    match matchAt v (c :: s) with
    | some (value, tl) => value ++ expandFrom v s (s.length - tl.length)
    | none             => c :: expandFrom v s 0

def expandTemplate (template : CString) (v : Values) : CString :=
  expandFrom v template 0

-- An `S` element.
structure Entry where
  t     : Option Nat
  d     : Nat
  r     : Int
  d_pos : 0 < d

-- The attributes of a `SegmentTemplate` element, with the defaults of `dashRepresentation`.
structure SegmentTemplate where
  timescale      : Nat := 1
  startNumber    : Nat := 1
  initialization : CString := []
  media          : CString
  duration       : Nat := 0
  timeline       : Option (List Entry)
  timescale_pos  : 0 < timescale := by decide

structure Representation where
  id        : CString := []
  bandwidth : Nat := 0
  width     : Nat := 0
  height    : Nat := 0
  codecs    : CString := []

structure Segment where
  url      : CString
  start    : ℚ
  duration : ℚ
deriving DecidableEq

-- What `dashRepresentation` returns.
structure Track where
  bandwidth   : Nat
  width       : Nat
  height      : Nat
  codecs      : CString
  container   : CString
  initSegment : Option CString
  segments    : List Segment

variable (absolute : CString → CString)

section Representation

variable (rep : Representation) (template : SegmentTemplate)

def valuesAt (number time : Nat) : Values where
  representationId := rep.id
  bandwidth        := rep.bandwidth
  number           := number
  time             := time

def segmentUrl (number time : Nat) : CString :=
  absolute (expandTemplate template.media (valuesAt rep number time))

-- The inner loop over an entry, for the given number of turns.
def repeated (time number d : Nat) : Nat → List Segment
  | 0     => []
  | k + 1 =>
    { url      := segmentUrl absolute rep template number time
      start    := time / template.timescale
      duration := d / template.timescale } :: repeated (time + d) (number + 1) d k

-- The loop over the entries of a timeline. An entry with a negative `r` makes no turn.
def timelineSegments : List Entry → Nat → Nat → List Segment
  | [],      _,    _      => []
  | e :: es, time, number =>
    let time := e.t.getD time
    let turns := (e.r + 1).toNat
    repeated absolute rep template time number e.d turns ++
      timelineSegments es (time + turns * e.d) (number + turns)

-- The segments of a template without a timeline, if both durations are positive.
def durationSegments (presentationDuration : ℚ) : Option (List Segment) :=
  if template.duration = 0 ∨ presentationDuration ≤ 0 then
    none
  else
    let seconds : ℚ := template.duration / template.timescale
    some ((List.range ⌈presentationDuration / seconds⌉.toNat).map fun n =>
      { url      := segmentUrl absolute rep template (template.startNumber + n) (n * template.duration)
        start    := n * seconds
        duration := seconds })

def segments (presentationDuration : ℚ) : Option (List Segment) :=
  match template.timeline with
  | some entries =>
    some (timelineSegments absolute rep template entries 0 template.startNumber)
  | none         => durationSegments absolute rep template presentationDuration

-- The rest of `dashRepresentation`, once a template has been found. The initialization of a template
-- without one is inherited.
def dashRepresentation (mime inherited : CString) (presentationDuration : ℚ) : Option Track :=
  if template.media = [] then
    none
  else
    match segments absolute rep template presentationDuration with
    | none | some []  => none
    | some (s :: ss) =>
      let init := if template.initialization = [] then inherited else template.initialization
      some {
        bandwidth   := rep.bandwidth
        width       := rep.width
        height      := rep.height
        codecs      := rep.codecs
        container   := if strstr mime "webm".toList then "webm".toList else "mp4".toList
        initSegment := if init = [] then none else
          some (absolute (expandTemplate init (valuesAt rep template.startNumber 0)))
        segments    := s :: ss }

-- The segments that are listed, which are none where there is no track.
def listed (mime inherited : CString) (presentationDuration : ℚ) : List Segment :=
  match dashRepresentation absolute rep template mime inherited presentationDuration with
  | none       => []
  | some track => track.segments

end Representation

end Nordstjernen.Streaming.Dash

namespace Nordstjernen.Streaming.Dash

-- The width of a format tag, as it is written.
structure Width where
  digits   : CString
  nonempty : digits ≠ []
  isDigit  : ∀ c ∈ digits, c.isDigit

-- What the URL template of a segment is made of.
inductive Piece
  | literal (text : CString) (nonempty : text ≠ []) (no_dollar : '$' ∉ text)
  -- `$$`
  | dollar
  | representationId
  | number (width : Option Width)
  | bandwidth (width : Option Width)
  | time (width : Option Width)

namespace Width

def text : Option Width → CString
  | none   => []
  | some w => "%0".toList ++ w.digits ++ ['d']

def value : Option Width → Nat
  | none   => 0
  | some w => Nat.ofDigitChars 10 w.digits 0

end Width

namespace Piece

def text : Piece → CString
  | literal text ..  => text
  | dollar           => ['$', '$']
  | representationId => '$' :: ("RepresentationID".toList ++ ['$'])
  | number width     => '$' :: ("Number".toList ++ Width.text width ++ ['$'])
  | bandwidth width  => '$' :: ("Bandwidth".toList ++ Width.text width ++ ['$'])
  | time width       => '$' :: ("Time".toList ++ Width.text width ++ ['$'])

-- What a piece stands for.
def expand (v : Values) : Piece → CString
  | literal text ..  => text
  | dollar           => ['$']
  | representationId => v.representationId
  | number width     => padded (Width.value width) (Values.text v.number)
  | bandwidth width  => padded (Width.value width) (Values.text v.bandwidth)
  | time width       => padded (Width.value width) (Values.text v.time)

end Piece

-- The URL template of a `SegmentTemplate`.
abbrev UrlTemplate := List Piece

def UrlTemplate.text (u : UrlTemplate) : CString :=
  u.flatMap Piece.text

def UrlTemplate.expand (u : UrlTemplate) (v : Values) : CString :=
  u.flatMap (Piece.expand v)

-- Where the repetitions of an entry stop that have no count of their own: at the next `t`, or at the
-- end of the presentation.
def repeatEnd (rest : List Entry) (finish : ℚ) : ℚ :=
  match rest.findSome? Entry.t with
  | some t => t
  | none   => finish

-- How many segments an entry stands for that starts at the given time.
def Entry.count (e : Entry) (rest : List Entry) (finish : ℚ) (time : Nat) : Nat :=
  if 0 ≤ e.r then (e.r + 1).toNat else ⌈(repeatEnd rest finish - time) / e.d⌉.toNat

-- The number, start and duration of each segment, in units of the timescale.
def timelineStandard (finish : ℚ) : List Entry → Nat → Nat → List (Nat × Nat × Nat)
  | [],      _,    _      => []
  | e :: es, time, number =>
    let time := e.t.getD time
    let count := e.count es finish time
    (List.range count).map (fun k => (number + k, time + k * e.d, e.d)) ++
      timelineStandard finish es (time + count * e.d) (number + count)

section Representation

variable (absolute : CString → CString) (rep : Representation) (template : SegmentTemplate)
  (url : UrlTemplate)

def standardSegment (s : Nat × Nat × Nat) : Segment where
  url      := absolute (url.expand (valuesAt rep s.fst s.snd.fst))
  start    := s.snd.fst / template.timescale
  duration := s.snd.snd / template.timescale

-- The segments that a timeline stands for in a presentation of known duration. A template without a
-- URL template stands for none.
def standardSegments (timeline : List Entry) (presentationDuration : ℚ) : List Segment :=
  match url with
  | []     => []
  | _ :: _ =>
    (timelineStandard (presentationDuration * template.timescale) timeline 0
      template.startNumber).map (standardSegment absolute rep template url)

end Representation

-- Whether every entry with a negative `r` comes too late to stand for a segment.
def NothingToRepeat (finish : ℚ) : List Entry → Nat → Prop
  | [],      _    => True
  | e :: es, time =>
    let time := e.t.getD time
    (e.r < 0 → repeatEnd es finish ≤ time) ∧
      NothingToRepeat finish es (time + (e.r + 1).toNat * e.d)

end Nordstjernen.Streaming.Dash
