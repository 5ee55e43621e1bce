import Nordstjernen.Layout.Grid

open Nordstjernen.Glib

namespace Nordstjernen.Layout.Grid

-- `ns_parse_int`
def nsParseInt (s : CString) (dflt minV maxV : Int) : Int :=
  match gAsciiStrtoll? (s.dropWhile fun c => c = ' ' ∨ c = '\t') with
  | none   => dflt
  | some v => min (max v minV) maxV

-- `ns_css_line_name`, which `parse_tracks` only makes of a word for a line of the tracks.
structure LineName where
  name    : CString
  line    : Nat
  word    : ' ' ∉ name
  line_le : line ≤ tracksMax
deriving DecidableEq

-- `ns_css_area_rect`
structure AreaRect where
  name : CString
  r0   : Nat
  r1   : Nat
  c0   : Nat
  c1   : Nat
deriving DecidableEq

-- `grid_lines`, without names or areas where the source has `NULL`.
structure GridLines where
  names   : List LineName
  areas   : List AreaRect
  rowAxis : Bool

-- The properties that place an item along one axis, where they are keywords, and in both.
structure AxisStyle where
  shorthand : Option CString := none
  start     : Option CString := none
  stop      : Option CString := none

structure ItemStyle where
  area   : Option CString := none
  column : AxisStyle := {}
  row    : AxisStyle := {}

namespace GridLines

variable (gl : GridLines) (nTracks : Nat)

-- The line at the start or at the end of an area.
def areaLine (wantEnd : Bool) (a : AreaRect) : Nat :=
  if gl.rowAxis then
    if wantEnd then a.r1 + 2 else a.r0 + 1
  else
    if wantEnd then a.c1 + 2 else a.c0 + 1

-- The area that a name is about, and whether it is about its end.
def areaName (name : CString) : Option (CString × Bool) :=
  if 6 < name.length ∧ name.drop (name.length - 6) = "-start".toList then
    some (name.take (name.length - 6), false)
  else if 4 < name.length ∧ name.drop (name.length - 4) = "-end".toList then
    some (name.take (name.length - 4), true)
  else
    none

def areasLine (name : CString) (after : Nat) : Option Nat := do
  let (base, wantEnd) ← areaName name
  ((gl.areas.filter (·.name = base)).map (gl.areaLine wantEnd)).find? (after < ·)

-- 0 if there is no such line. So it is for every line that is resolved here.
def gridNamedLine (name : CString) (after : Nat) : Nat :=
  if name = [] then 0
  else
    match gl.names.find? fun ln => after < ln.line ∧ ln.name = name with
    | some ln => ln.line
    | none    => (gl.areasLine name after).getD 0

-- What follows the number that `strtol` reads.
def strtolEnd (s : CString) : CString :=
  match s.dropWhile strtollIsspace with
  | '-' :: tl => tl.dropWhile Char.isDigit
  | '+' :: tl => tl.dropWhile Char.isDigit
  | tl        => tl.dropWhile Char.isDigit

-- The `long` of `strtol` is read as `g_ascii_strtoll` does.
def gridResolveLineFrom (s : CString) (after : Nat) : Nat :=
  let s := s.dropWhile (· = ' ')
  match gAsciiStrtoll? s with
  | none   => gl.gridNamedLine (s.rdropWhile (· = ' ')) after
  | some n =>
    if (strtolEnd s).dropWhile (· = ' ') ≠ [] ∨ n = 0 then 0
    else
      let n := if n < 0 then nTracks + 2 + n else n
      if n < 1 ∨ tracksMax + 1 < n then 0 else n.toNat

def gridResolveLineNumber (s : CString) : Nat :=
  gl.gridResolveLineFrom nTracks s 0

-- What `span` is followed by.
def spanOf (s : CString) : Option Nat :=
  if gStrHasPrefix s "span ".toList then some (nsParseInt (s.drop 5) 1 1 tracksMax).toNat else none

-- How far it is from one line to a later one.
def spanTo (n e : Nat) : Option Nat :=
  if 0 < n ∧ n < e then some (e - n) else none

-- The index of a line.
def startOf (n : Nat) : Option Nat :=
  if 0 < n then some (n - 1) else none

-- The start is `none` where the functions return 0. They set the span nevertheless.
def gridPosSpan : Option CString → Option Nat × Nat
  | none   => (none, 1)
  | some s =>
    match spanOf s with
    | some span => (none, span)
    | none      =>
      if '/' ∈ s then
        let n := gl.gridResolveLineNumber nTracks (s.takeWhile (· ≠ '/'))
        let b := (s.dropWhile (· ≠ '/')).tail.dropWhile (· = ' ')
        (startOf n, ((spanOf b).or (spanTo n (gl.gridResolveLineFrom nTracks b n))).getD 1)
      else
        (startOf (gl.gridResolveLineNumber nTracks s), 1)

def gridLineNum (v : Option CString) (after : Nat) : Nat :=
  match v with
  | none   => 0
  | some s => if (spanOf s).isSome then 0 else gl.gridResolveLineFrom nTracks s after

def gridAreaAxisPos (area : Option CString) (span : Nat) : Option Nat × Nat :=
  let parts := (gStrsplitAll (area.getD []) '/').map gStrstrip
  match parts[if gl.rowAxis then 0 else 1]? with
  | none    => (none, span)
  | some ss =>
    let n    := gl.gridResolveLineNumber nTracks ss
    let span := if 0 < n then 1 else (spanOf ss).getD span
    match parts[if gl.rowAxis then 2 else 3]? with
    | none    =>
      let e := if gAsciiStrtoll? ss = none then gl.gridResolveLineFrom nTracks ss n else 0
      (startOf n, (spanTo n e).getD span)
    | some es => (startOf n, ((spanOf es).or (spanTo n (gl.gridResolveLineFrom nTracks es n))).getD span)

def gridResolvePos (area : Option CString) (style : AxisStyle) : Option Nat × Nat :=
  let (pos, span) := gl.gridPosSpan nTracks style.shorthand
  if pos.isSome then (pos, span)
  else
    let (pos, span) := gl.gridAreaAxisPos nTracks area span
    if pos.isSome then (pos, span)
    else
      let sl := gl.gridLineNum nTracks style.start 0
      let el := gl.gridLineNum nTracks style.stop sl
      if 0 < sl then
        (startOf sl, ((spanTo sl el).or (style.stop.bind spanOf)).getD span)
      else
        (none, ((style.start.bind spanOf).or (style.stop.bind spanOf)).getD span)

end GridLines

end Nordstjernen.Layout.Grid

namespace Nordstjernen.Layout.Grid

def isIdentChar (c : Char) : Bool :=
  c.isAlphanum || c == '-' || c == '_' || decide (128 ≤ c.toNat)

-- A name for lines, which is no number and no keyword.
structure LineIdent where
  text      : CString
  chars     : ∀ c ∈ text, isIdentChar c
  head      : ∃ c cs, text = c :: cs ∧ c.isDigit = false
  no_number : ∀ c cs, text = '-' :: c :: cs → c.isDigit = false
  ne_auto   : text ≠ "auto".toList
  ne_span   : text ≠ "span".toList

-- The value of one of the longhands.
inductive Side where
  | auto
  | line (n : Int) (h : n ≠ 0)
  | span (k : Nat) (h : 0 < k)
  | name (s : LineIdent)

namespace Side

def text : Side → CString
  | auto     => "auto".toList
  | line n _ => formatInt64 n
  | span k _ => "span ".toList ++ Nat.toDigits 10 k
  | name s   => s.text

-- What is left out is the same name, if there is one.
def implied : Side → Side
  | name s => name s
  | _      => auto

-- How many tracks an item spans that has a line on the other side.
def tracks : Side → Nat
  | span k _ => k
  | _        => 1

end Side

-- A side that stands after a slash between some spaces.
structure Slashed where
  before : Nat
  after  : Nat
  side   : Side

namespace Slashed

def text (s : Slashed) : CString :=
  List.replicate s.before ' ' ++ '/' :: (List.replicate s.after ' ' ++ s.side.text)

end Slashed

-- A declaration which says something about one axis.
inductive Decl where
  | shorthand (a : Side) (b : Option Slashed)
  | area (a : Side) (more : List Slashed) (h : more.length ≤ 3)
  | start (a : Side)
  | stop (b : Side)

-- The last declaration of each property.
structure Declared where
  shorthand : Option (Side × Option Slashed) := none
  area      : Option (Side × List Slashed)   := none
  start     : Option Side                    := none
  stop      : Option Side                    := none

namespace Declared

def add (d : Declared) : Decl → Declared
  | .shorthand a b => { d with shorthand := some (a, b) }
  | .area a more _ => { d with area := some (a, more) }
  | .start a       => { d with start := some a }
  | .stop b        => { d with stop := some b }

def ofDecls (ds : List Decl) : Declared :=
  ds.foldl add {}

def areaText (d : Declared) : Option CString :=
  d.area.map fun (a, more) => a.text ++ more.flatMap Slashed.text

def axisStyle (d : Declared) : AxisStyle where
  shorthand := d.shorthand.map fun (a, b) => a.text ++ (b.map Slashed.text).getD []
  start     := d.start.map Side.text
  stop      := d.stop.map Side.text

end Declared

-- The longhands for one axis after some declarations, of which later ones take precedence.
namespace Longhands

def ofArea (rowAxis : Bool) (a : Side) (more : List Side) : Side × Side :=
  let colStart := more[0]?.getD a.implied
  if rowAxis then
    (a, more[1]?.getD a.implied)
  else
    (colStart, more[2]?.getD colStart.implied)

def add (rowAxis : Bool) (l : Side × Side) : Decl → Side × Side
  | .shorthand a b => (a, (b.map Slashed.side).getD a.implied)
  | .area a more _ => ofArea rowAxis a (more.map Slashed.side)
  | .start a       => (a, l.2)
  | .stop b        => (l.1, b)

def ofDecls (rowAxis : Bool) (ds : List Decl) : Side × Side :=
  ds.foldl (add rowAxis) (.auto, .auto)

end Longhands

namespace GridLines

variable (gl : GridLines) (nTracks : Nat)

-- All lines of a name, be it their own or that of an area.
def linesNamed (name : CString) : List Nat :=
  (gl.names.filter (·.name = name)).map (·.line) ++
  gl.areas.flatMap fun a =>
    (if a.name ++ "-start".toList = name then [gl.areaLine false a] else []) ++
    if a.name ++ "-end".toList = name then [gl.areaLine true a] else []

-- A name is about an area first, and about the first line after all others where there is none.
def cssNamedLine (wantEnd : Bool) (name : CString) : Int :=
  let edge := name ++ if wantEnd then "-end".toList else "-start".toList
  (((gl.linesNamed edge).min?.or (gl.linesNamed name).min?).getD (nTracks + 2) : Nat)

def lineIndex (n : Int) : Int :=
  if n < 0 then nTracks + 2 + n else n

def cssLine (wantEnd : Bool) : Side → Option Int
  | .line n _ => some (lineIndex nTracks n)
  | .name s   => some (gl.cssNamedLine nTracks wantEnd s.text)
  | _         => none

-- The start line, if any, and the span.
def cssPosition (l : Side × Side) : Option Int × Nat :=
  match gl.cssLine nTracks false l.1, gl.cssLine nTracks true l.2 with
  | some a, some b => (some (min a b), max 1 (b - a).natAbs)
  | some a, none   => (some a, l.2.tracks)
  | none,   some b => (some (b - l.1.tracks), l.1.tracks)
  | none,   none   => (none, match l.1 with | .span k _ => k | _ => l.2.tracks)

-- The code says what the rules for the longhands do.
structure Places (ds : List Decl) : Prop where
  start : (gl.gridResolvePos nTracks (Declared.ofDecls ds).areaText (Declared.ofDecls ds).axisStyle).1.map
    (fun i : Nat => (i : Int) + 1) = (gl.cssPosition nTracks (Longhands.ofDecls gl.rowAxis ds)).1
  span : (gl.gridResolvePos nTracks (Declared.ofDecls ds).areaText (Declared.ofDecls ds).axisStyle).2 =
    (gl.cssPosition nTracks (Longhands.ofDecls gl.rowAxis ds)).2

-- What the code finds of a side: a line after another one, or 0.
def foundLine (after : Nat) : Side → Nat
  | .auto     => gl.gridNamedLine "auto".toList after
  | .line n _ => if 1 ≤ lineIndex nTracks n ∧ lineIndex nTracks n ≤ tracksMax + 1 then (lineIndex nTracks n).toNat else 0
  | .span _ _ => 0
  | .name s   => gl.gridNamedLine s.text after

end GridLines

namespace Side

def span? : Side → Option Nat
  | span k _ => some (min k tracksMax)
  | _        => none

-- What an area repeats of its start where its end is left out.
def repeated : Side → Option Side
  | line _ _ => none
  | s        => some s

end Side

-- The sides that one of the ways to place an item is about, and the span it starts from.
structure Route where
  start : Side
  stop  : Option Side
  kept  : Nat := 1

namespace Declared

variable (d : Declared) (rowAxis : Bool)

def areaRoute : Option Route :=
  d.area.bind fun (a, more) =>
    (if rowAxis then some a else more[0]?.map Slashed.side).map fun s =>
      { start := s, stop := (more[if rowAxis then 1 else 2]?.map Slashed.side).or s.repeated }

def shorthandRoute : Option Route :=
  d.shorthand.map fun (a, b) => { start := a, stop := b.map Slashed.side }

-- The span that the longhands find set already.
def kept : Nat :=
  (((d.areaRoute rowAxis).bind fun r => (r.stop.bind Side.span?).or r.start.span?).or
    (d.shorthandRoute.bind fun r => r.start.span?.or (r.stop.bind Side.span?))).getD 1

def longhandRoute : Option Route :=
  d.start.map fun a => { start := a, stop := d.stop, kept := d.kept rowAxis }

def routes : List Route :=
  d.shorthandRoute.toList ++ (d.areaRoute rowAxis).toList ++ (d.longhandRoute rowAxis).toList

-- The span where there is no line at all.
def looseSpan : Nat :=
  ((d.start.bind Side.span?).or (d.stop.bind Side.span?)).getD (d.kept rowAxis)

end Declared

namespace GridLines

variable (gl : GridLines) (nTracks : Nat)

def routeLine (r : Route) : Nat :=
  gl.foundLine nTracks 0 r.start

def routeSpan (r : Route) : Nat :=
  ((r.stop.bind Side.span?).or (r.stop.bind fun e =>
    spanTo (gl.routeLine nTracks r) (gl.foundLine nTracks (gl.routeLine nTracks r) e))).getD r.kept

-- The first way to place the item that starts at a line decides.
def Meets (ds : List Decl) : Prop :=
  gl.cssPosition nTracks (Longhands.ofDecls gl.rowAxis ds) =
    match ((Declared.ofDecls ds).routes gl.rowAxis).find? fun r => 0 < gl.routeLine nTracks r with
    | some r => (some (gl.routeLine nTracks r : Int), gl.routeSpan nTracks r)
    | none   => (none, (Declared.ofDecls ds).looseSpan gl.rowAxis)

end GridLines

end Nordstjernen.Layout.Grid
