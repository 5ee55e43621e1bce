import Nordstjernen.Glib.Strings

open Nordstjernen.Glib

namespace Nordstjernen.Net.EventSource

-- `NS_ES_MAX_LINE`
def maxLine : Nat := 1048576

-- `NS_ES_MAX_EVENT`
def maxEvent : Nat := 8388608

-- `ns_es_msg`
structure Msg where
  event  : CString
  data   : CString
  lastId : CString
deriving DecidableEq

-- `ns_es_parse`, with what it changes of its `ns_es`, and the messages that it has posted.
structure Parse where
  line        : CString        := []
  lastWasCr   : Bool           := false
  data        : CString        := []
  eventType   : Option CString := none
  fatal       : Bool           := false
  lastEventId : CString        := []
  reconnectMs : Int            := 3000
  posted      : List Msg       := []

namespace Parse

variable (p : Parse)

-- `ns_es_dispatch_event`
def dispatchEvent : Parse :=
  if p.data = [] ∧ p.eventType = none then p
  else if p.data = [] then { p with eventType := none }
  else
    { p with
      data      := []
      eventType := none
      posted    := p.posted ++ [{
        event  := p.eventType.getD "message".toList
        data   := if p.data.getLast? = some '\n' then p.data.dropLast else p.data
        lastId := p.lastEventId }] }

-- The field and the value of a line, of which the value loses one space in front.
def fieldValue (line : CString) : CString × CString :=
  match line.span (· != ':') with
  | (field, [])     => (field, [])
  | (field, _ :: v) => (field, if v.head? = some ' ' then v.tail else v)

def processField (field value : CString) : Parse :=
  if field = "data".toList then
    if p.data.length + value.length + 1 > maxEvent then { p with fatal := true }
    else { p with data := p.data ++ value ++ ['\n'] }
  else if field = "event".toList then
    { p with eventType := if value = [] then none else some value }
  else if field = "id".toList then { p with lastEventId := value }
  else if field = "retry".toList then
    let ms := gAsciiStrtoll value
    if value ≠ [] ∧ value.all Char.isDigit ∧ ms > 0 then { p with reconnectMs := min ms 86400000 } else p
  else p

-- `ns_es_process_line`
def processLine (line : CString) : Parse :=
  if line = [] then p.dispatchEvent
  else if line.head? = some ':' then p
  else
    let (field, value) := fieldValue line
    p.processField field value

-- `ns_es_feed`. A line is read as a C string.
def feed (p : Parse) : CString → Parse
  | []      => p
  | c :: cs =>
    if c = '\n' ∧ p.lastWasCr then feed { p with lastWasCr := false } cs
    else if c = '\r' ∨ c = '\n' then
      feed { p.processLine (gStrndup p.line) with line := [], lastWasCr := c == '\r' } cs
    else if p.line.length ≥ maxLine then { p with lastWasCr := false, fatal := true }
    else feed { p with line := p.line ++ [c], lastWasCr := false } cs

-- `ns_es_write_cb`, which ends the transfer behind a fatal chunk.
def write (chunk : CString) : Parse :=
  if p.fatal then p else p.feed chunk

def writeAll (chunks : List CString) : Parse :=
  chunks.foldl write p

end Parse

end Nordstjernen.Net.EventSource

namespace Nordstjernen.Net.EventSource

-- The event stream format: what its grammar and its interpretation make of a whole stream.

-- The lines of a text, the last of which has no end. A line ends with CR LF, CR or LF.
def splitLines (line : CString) : CString → List CString
  | '\r' :: '\n' :: rest => line :: splitLines [] rest
  | '\r' :: rest         => line :: splitLines [] rest
  | '\n' :: rest         => line :: splitLines [] rest
  | c :: rest            => splitLines (line ++ [c]) rest
  | []                   => [line]

def completeLines (text : CString) : List CString :=
  (splitLines [] text).dropLast

-- The byte order mark that a stream may begin with is none of its text.
def stripBom : CString → CString
  | '\xef' :: '\xbb' :: '\xbf' :: rest => rest
  | text                               => text

inductive Meaning
  | dispatch
  | data (value : CString)
  | event (value : CString)
  | id (value : CString)
  | other
deriving DecidableEq

def unspaced : CString → CString
  | ' ' :: value => value
  | value        => value

def fieldMeaning (field value : CString) : Meaning :=
  if field = "data".toList then .data value
  else if field = "event".toList then .event value
  else if field = "id".toList then if '\x00' ∈ value then .other else .id value
  else .other

-- A line is empty, a comment, or a field, whose name ends at the first colon.
def meaning (line : CString) : Meaning :=
  if line = [] then .dispatch
  else if line.head? = some ':' then .other
  else fieldMeaning (line.takeWhile (· != ':')) (unspaced ((line.dropWhile (· != ':')).drop 1))

structure Buffers where
  data      : CString  := []
  eventType : CString  := []
  lastId    : CString  := []
  events    : List Msg := []

def Buffers.apply (b : Buffers) : Meaning → Buffers
  | .dispatch    =>
    if b.data = [] then { b with eventType := [] }
    else
      { b with
        data      := []
        eventType := []
        events    := b.events ++ [{
          event  := if b.eventType = [] then "message".toList else b.eventType
          data   := if b.data.getLast? = some '\n' then b.data.dropLast else b.data
          lastId := b.lastId }] }
  | .data value  => { b with data := b.data ++ value ++ ['\n'] }
  | .event value => { b with eventType := value }
  | .id value    => { b with lastId := value }
  | .other       => b

def meanings (stream : CString) : List Meaning :=
  (completeLines (stripBom stream)).map meaning

-- The events of a stream, where the last event id is known from before.
def events (lastId : CString) (stream : CString) : List Msg :=
  ((meanings stream).foldl Buffers.apply { lastId }).events

-- A stream whose lines and whose data stay within the limits.
structure Within (stream : CString) : Prop where
  lines : ∀ l ∈ splitLines [] stream, l.length ≤ maxLine
  data  : ∀ ms : List Meaning, ms.IsPrefix (meanings stream) → (ms.foldl Buffers.apply {}).data.length ≤ maxEvent

-- What is in front of a NUL means nothing in any line that has one, and neither does the first line
-- behind a byte order mark.
structure Plain (stream : CString) : Prop where
  nul : ∀ l ∈ completeLines stream, '\x00' ∈ l → meaning (gStrndup l) = .other
  bom : stripBom stream ≠ stream → ∀ l ∈ (completeLines (stripBom stream)).head?, meaning l = .other

section Reconnect

-- `ns_es_connect_once` with the chunks that arrive until the connection drops.
def connect (lastEventId : CString) (chunks : List CString) : Parse :=
  ({ lastEventId } : Parse).writeAll chunks

-- What `ns_es_worker` sends as `Last-Event-ID`, one after the other. An empty id is not sent.
def sentIds (lastEventId : CString) : List (List CString) → List CString
  | []              => [lastEventId]
  | chunks :: later =>
    let p := connect lastEventId chunks
    lastEventId :: if p.fatal then [] else sentIds p.lastEventId later

end Reconnect

section Dispatched

-- The id that a line sets.
def lineId (line : CString) : Option CString :=
  match meaning line with
  | .id value => some value
  | _         => none

def lastId (lastEventId : CString) (lines : List CString) : CString :=
  (lines.filterMap lineId).getLast?.getD lastEventId

def streamLines (chunks : List CString) : List CString :=
  (completeLines chunks.flatten).map gStrndup

-- The lines up to the last empty one, and the ones behind it: a block that has been received in part.
def dispatchedLines (lines : List CString) : List CString :=
  (lines.reverse.dropWhile (· ≠ [])).reverse

def partialLines (lines : List CString) : List CString :=
  (lines.reverse.takeWhile (· ≠ [])).reverse

-- The ids in effect at the last empty line in front of each connection.
def dispatchedIds (lastEventId : CString) : List (List CString) → List CString
  | []              => [lastEventId]
  | chunks :: later =>
    lastEventId ::
      if (connect lastEventId chunks).fatal then []
      else dispatchedIds (lastId lastEventId (dispatchedLines (streamLines chunks))) later

-- No connection drops in a block that has changed the id.
def Settled (lastEventId : CString) : List (List CString) → Prop
  | []              => True
  | chunks :: later =>
    let dispatched := lastId lastEventId (dispatchedLines (streamLines chunks))
    (connect lastEventId chunks).fatal = false →
      (∀ id ∈ ((partialLines (streamLines chunks)).filterMap lineId).getLast?, id = dispatched) ∧
      Settled dispatched later

end Dispatched

end Nordstjernen.Net.EventSource
