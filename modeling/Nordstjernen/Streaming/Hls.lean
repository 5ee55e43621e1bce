import Nordstjernen.Js.Numbers
import Nordstjernen.Glib.Strings

open Nordstjernen.Glib Nordstjernen.Js

namespace Nordstjernen.Streaming.Hls

section Lines

-- `text.split(/\r?\n/)`
def splitLines : CString → List CString
  | []                => [[]]
  | '\r' :: '\n' :: s => [] :: splitLines s
  | '\n' :: s         => [] :: splitLines s
  | c :: s            =>
    match splitLines s with
    | []      => [[c]]
    | l :: ls => (c :: l) :: ls

-- The rest of a line that begins with the text.
def after (start line : CString) : Option CString :=
  if start.isPrefixOf line then some (line.drop start.length) else none

end Lines

section Attributes

def isNameChar (c : Char) : Bool :=
  ('A' ≤ c && c ≤ 'Z') || c.isDigit || c == '-'

-- `"[^"]*"|[^,]*`, and what follows.
def attrValue (s : CString) : CString × CString :=
  let plain := (s.takeWhile (· ≠ ','), s.dropWhile (· ≠ ','))
  match s with
  | '"' :: tl =>
    match tl.dropWhile (· ≠ '"') with
    | _ :: rest => ('"' :: tl.takeWhile (· ≠ '"') ++ ['"'], rest)
    | []        => plain
  | _ => plain

-- `slice(1, -1)`, if the first character is a quote.
def unquote : CString → CString
  | '"' :: s => s.dropLast
  | s        => s

-- The matches of the regular expression, one after the other. A run of name characters that no `=`
-- follows is no name, and every turn consumes a character at least, which the fuel counts.
def attrsFrom : Nat → CString → List (CString × CString)
  | 0,     _      => []
  | _,     []     => []
  | n + 1, c :: s =>
    match (c :: s).takeWhile isNameChar, (c :: s).dropWhile isNameChar with
    | [],   _         => attrsFrom n s
    | name, '=' :: tl => let (value, rest) := attrValue tl; (name, unquote value) :: attrsFrom n rest
    | _,    rest      => attrsFrom n rest

def attrList (line : CString) : List (CString × CString) :=
  attrsFrom line.length line

-- The last value of a name, where `[]` stands for none.
def attr (attrs : List (CString × CString)) (name : String) : CString :=
  ((attrs.reverse.find? (·.fst = name.toList)).map (·.snd)).getD []

end Attributes

def byteRange (spec : CString) : CString :=
  if spec = [] then []
  else
    match spec.splitOn '@' with
    | []              => []
    | length :: parts =>
      let offset := match parts with
        | []     => some 0
        | o :: _ => parseInt o
      match parseInt length with
      | none   => []
      | some n =>
        if 0 < n then numberText offset ++ '-' :: numberText (offset.map (· + n - 1)) else []

structure Segment (D : Type) where
  url      : CString
  duration : D
  start    : D
  range    : CString
  sequence : Int

-- What is known while the lines are read.
structure Reading (D : Type) where
  segments        : List (Segment D)        := []
  duration        : D
  pendingDuration : D
  pendingRange    : CString                 := []
  initSegment     : Option (CString × CString) := none
  live            : Bool                    := true
  targetDuration  : D
  startSequence   : Int                     := 0

section Parse

variable {D : Type} [Number D] (absolute : CString → CString → CString) (base : CString)

def Reading.initial : Reading D where
  duration        := 0
  pendingDuration := 0
  targetDuration  := 0

def Reading.tag (r : Reading D) (line : CString) : Reading D :=
  if let some s := after "#EXTINF:".toList line then
    { r with pendingDuration := orZero (parseFloat s) }
  else if let some s := after "#EXT-X-BYTERANGE:".toList line then
    { r with pendingRange := trim s }
  else if let some s := after "#EXT-X-MAP:".toList line then
    let map := attrList s
    if attr map "URI" ≠ [] then
      { r with initSegment := some (absolute (attr map "URI") base, byteRange (attr map "BYTERANGE")) }
    else r
  else if let some s := after "#EXT-X-TARGETDURATION:".toList line then
    { r with targetDuration := orZero (parseFloat s) }
  else if let some s := after "#EXT-X-MEDIA-SEQUENCE:".toList line then
    { r with startSequence := (parseInt s).getD 0 }
  else if (after "#EXT-X-ENDLIST".toList line).isSome then
    { r with live := false }
  else r

def Reading.uri (r : Reading D) (line : CString) : Reading D where
  segments        := r.segments ++ [{
    url      := absolute line base
    duration := r.pendingDuration
    start    := r.duration
    range    := byteRange r.pendingRange
    sequence := r.startSequence + r.segments.length
  }]
  duration        := r.duration + r.pendingDuration
  pendingDuration := 0
  pendingRange    := []
  initSegment     := r.initSegment
  live            := r.live
  targetDuration  := r.targetDuration
  startSequence   := r.startSequence

def Reading.line (r : Reading D) (line : CString) : Reading D :=
  match trim line with
  | []       => r
  | '#' :: s => r.tag absolute base ('#' :: s)
  | line     => r.uri absolute base line

structure Media (D : Type) where
  segments       : List (Segment D)
  duration       : D
  live           : Bool
  initSegment    : Option (CString × CString)
  targetDuration : D

def parseMediaPlaylist (text : CString) : Media D :=
  let r := (splitLines text).foldl (Reading.line absolute base) .initial
  { segments       := r.segments
    duration       := r.duration
    live           := r.live
    initSegment    := r.initSegment
    targetDuration := r.targetDuration }

end Parse

-- The segments of a track after a refresh.
def mergeSegments {D : Type} (segments incoming : List (Segment D)) : List (Segment D) :=
  let known := (segments.getLast?.map (·.sequence)).getD (-1)
  segments ++ incoming.filter (known < ·.sequence)

end Nordstjernen.Streaming.Hls

namespace Nordstjernen.Streaming.Hls

structure Numeral where
  digits  : CString
  isDigit : ∀ c ∈ digits, c.isDigit = true
  ne_nil  : digits ≠ []

def Numeral.value (n : Numeral) : Nat :=
  digitsValue n.digits

-- Digits, with a point or without one.
structure Decimal where
  whole   : CString
  point   : Option CString
  isDigit : ∀ c ∈ whole ++ point.getD [], c.isDigit = true
  ne_nil  : whole ++ point.getD [] ≠ []

namespace Decimal

def text (d : Decimal) : CString :=
  match d.point with
  | none   => d.whole
  | some s => d.whole ++ '.' :: s

def value {D : Type} [Number D] (d : Decimal) : D :=
  Number.ofDecimal false (digitsValue (d.whole ++ d.point.getD [])) (-(d.point.getD []).length)

end Decimal

structure ByteRange where
  length : Numeral
  offset : Option Numeral

namespace ByteRange

def text (r : ByteRange) : CString :=
  match r.offset with
  | none   => r.length.digits
  | some o => r.length.digits ++ '@' :: o.digits

-- A range without an offset begins where the range before it ends.
def offsetAfter (r : ByteRange) (ends : Option Nat) : Nat :=
  match r.offset with
  | none   => ends.getD 0
  | some o => o.value

end ByteRange

section Lines

def OneLine (line : CString) : Prop :=
  '\n' ∉ line ∧ '\r' ∉ line

-- A blank line, a comment or a tag that says nothing about the list of segments.
def IsOther (line : CString) : Prop :=
  OneLine line ∧ (line = [] ∨ line.head? = some '#' ∧ after "#EXTINF:".toList line = none ∧
    after "#EXT-X-BYTERANGE:".toList line = none ∧ after "#EXT-X-MEDIA-SEQUENCE:".toList line = none)

def IsUri (line : CString) : Prop :=
  line ≠ [] ∧ line.head? ≠ some '#' ∧ ∀ c ∈ line, isWhiteSpace c = false

-- Every line ends with LF or CRLF, but for the last one.
inductive Printed : List CString → CString → Prop
  | last (l : CString) : Printed [l] l
  | lf (l : CString) {ls : List CString} {s : CString} :
    Printed ls s → Printed (l :: ls) (l ++ '\n' :: s)
  | crlf (l : CString) {ls : List CString} {s : CString} :
    Printed ls s → Printed (l :: ls) (l ++ '\r' :: '\n' :: s)

end Lines

-- A tag in front of a URI line.
inductive Tag
  | extinf (duration : Decimal) (title : CString)
  | byteRange (r : ByteRange)
  | other (line : CString)

namespace Tag

def text : Tag → CString
  | .extinf d title => "#EXTINF:".toList ++ (d.text ++ ',' :: title)
  | .byteRange r    => "#EXT-X-BYTERANGE:".toList ++ r.text
  | .other line     => line

def duration? : Tag → Option Decimal
  | .extinf d _ => some d
  | _           => none

def range? : Tag → Option ByteRange
  | .byteRange r => some r
  | _            => none

def Legal : Tag → Prop
  | .extinf _ title => OneLine title
  | .byteRange _    => True
  | .other line     => IsOther line

end Tag

-- A media segment, with the tags that apply to it.
structure Item where
  tags     : List Tag
  uri      : CString
  duration : Decimal
  range    : Option ByteRange
  legal    : ∀ t ∈ tags, t.Legal
  isUri    : IsUri uri
  timed    : tags.filterMap Tag.duration? = [duration]
  ranged   : tags.filterMap Tag.range? = range.toList

namespace Item

def lines (item : Item) : List CString :=
  item.tags.map Tag.text ++ [item.uri]

-- Whether a byte range, if there is one, has an offset and is not empty.
def Explicit (item : Item) : Prop :=
  ∀ r, item.range = some r → 0 < r.length.value ∧ r.offset.isSome

end Item

-- A segment as the standard has it, where the range is its offset and its length.
structure MediaSegment (D : Type) where
  url      : CString
  duration : D
  start    : D
  range    : Option (Nat × Nat)
  sequence : Nat

section Playlist

variable (resource : CString → CString)

-- A range without an offset follows a range of the same resource, which is `last`.
def Continues : Option CString → List Item → Prop
  | _,    []            => True
  | last, item :: items =>
    (∀ r, item.range = some r → r.offset = none → last = some (resource item.uri)) ∧
    Continues (item.range.map fun _ => resource item.uri) items

-- The segments, where the range before them has ended at `ends`.
def segmentsFrom {D : Type} [Number D] : Option Nat → D → Nat → List Item → List (MediaSegment D)
  | _,    _,     _,        []            => []
  | ends, start, sequence, item :: items =>
    let range := item.range.map fun r => (r.offsetAfter ends, r.length.value)
    let segment := { url := resource item.uri, duration := item.duration.value, start, range, sequence }
    segment :: segmentsFrom (range.map fun (offset, length) => offset + length)
      (start + item.duration.value) (sequence + 1) items

structure Playlist where
  header      : List CString
  sequence    : Option Numeral
  items       : List Item
  trailer     : List CString
  header_ok   : ∀ l ∈ header, IsOther l
  trailer_ok  : ∀ l ∈ trailer, IsOther l
  continues   : Continues resource none items

namespace Playlist

variable {resource} (p : Playlist resource)

-- The number of the first segment.
def first : Nat :=
  (p.sequence.map (·.value)).getD 0

def sequenceLines : List CString :=
  (p.sequence.map fun n => "#EXT-X-MEDIA-SEQUENCE:".toList ++ n.digits).toList

def lines : List CString :=
  p.header ++ p.sequenceLines ++ p.items.flatMap Item.lines ++ p.trailer

def segments {D : Type} [Number D] : List (MediaSegment D) :=
  segmentsFrom resource none 0 p.first p.items

end Playlist

-- A playlist and its text.
structure Version where
  playlist : Playlist resource
  text     : CString
  printed  : Printed playlist.lines text

-- A live playlist, as it is fetched again and again.
structure Live where
  versions   : List (Version resource)
  increasing : versions.Pairwise fun v w => v.playlist.first ≤ w.playlist.first

end Playlist

-- Whether the range of a request is that of a segment.
def Requests (range : CString) : Option (Nat × Nat) → Prop
  | none                  => range = []
  | some (offset, length) =>
    0 < length ∧ range = Nat.toDigits 10 offset ++ '-' :: Nat.toDigits 10 (offset + length - 1)

structure Agrees {D : Type} (s : Segment D) (m : MediaSegment D) : Prop where
  url      : s.url = m.url
  duration : s.duration = m.duration
  start    : s.start = m.start
  range    : Requests s.range m.range
  sequence : s.sequence = m.sequence

section Track

variable {D : Type} [Number D] (absolute : CString → CString → CString) (base : CString)
variable {resource : CString → CString}

def Version.parsed (v : Version resource) : List (Segment D) :=
  (parseMediaPlaylist absolute base v.text).segments

-- The segments of the track, where the first version has made it.
def Live.merged (l : Live resource) : List (Segment D) :=
  match l.versions with
  | []      => []
  | v :: vs => vs.foldl (fun segments w => mergeSegments segments (w.parsed absolute base))
                 (v.parsed absolute base)

-- Whether the merged list has every listed number once, in order, each as some version lists it.
structure Live.Merges (l : Live resource) (merged : List (Segment D)) : Prop where
  increasing : merged.Pairwise (·.sequence < ·.sequence)
  listed     : ∀ v ∈ l.versions, ∀ m ∈ v.playlist.segments (D := D), ∃ s ∈ merged, s.sequence = m.sequence
  source     : ∀ s ∈ merged, ∃ v ∈ l.versions, s ∈ v.parsed absolute base

end Track

end Nordstjernen.Streaming.Hls
