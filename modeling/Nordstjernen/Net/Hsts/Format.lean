import Mathlib.Data.List.AList
import Nordstjernen.Glib.Strings
import Nordstjernen.Lib.LastWrite
import Nordstjernen.Lib.Run

open Nordstjernen.Glib

namespace Nordstjernen.Net.Hsts

abbrev Table := AList fun _ : CString => Nat

-- The host and the value that a line puts into the table: 2 for one that includes subdomains, else 1.
def lineEntry (raw : CString) : Option (CString × Nat) :=
  let line := gStrstrip raw
  if line = [] ∨ line.head? = some '#' ∨ ' ' ∉ line then none
  else
    let line := line.takeWhile (· ≠ ' ')
    let subs := line.head? = some '.'
    let host := if subs then line.tail else line
    if host = [] then none else some (gAsciiStrdown host, if subs then 2 else 1)

-- A file that cannot be read leaves the table empty.
def cacheReload (content : Option CString) : Table :=
  let lines := (content.map fun text => gStrsplitAll (gStrndup text) '\n').getD []
  (lines.filterMap lineEntry).foldl (fun table e => table.insert e.1 e.2) ∅

def lookupParents (table : Table) : CString → Bool
  | []      => false
  | c :: cs => (c = '.' && table.lookup cs = some 2) || lookupParents table cs

def lookup (table : Table) (lowerHost : CString) : Bool :=
  (table.lookup lowerHost).isSome || lookupParents table lowerHost

-- The time of the last change in microseconds, of which the code sees the whole seconds.
structure Disk (α : Type*) where
  content  : α
  modified : Int

def fileMtimeUs (disk : Option (Disk α)) : Int :=
  disk.elim 0 fun d => d.modified / 1000000 * 1000000

structure Cache where
  table   : Option Table := none
  mtimeUs : Int := 0

def refresh (cache : Cache) (disk : Option (Disk CString)) : Cache :=
  if cache.table.isNone ∨ fileMtimeUs disk ≠ cache.mtimeUs
  then { table := cacheReload (disk.map Disk.content), mtimeUs := fileMtimeUs disk }
  else cache

def strippedHost (host : CString) : CString :=
  (gAsciiStrdown host).rdropWhile (· = '.')

-- The answer for a host, and the cache that is left.
def shouldUpgrade (cache : Cache) (disk : Option (Disk CString)) (host : CString) : Bool × Cache :=
  if host = [] then (false, cache)
  else
    let cache := refresh cache disk
    (lookup (cache.table.getD ∅) (strippedHost host), cache)

end Nordstjernen.Net.Hsts

namespace Nordstjernen.Net.Hsts

-- A time in UTC.
structure Stamp where
  year   : Nat
  month  : Nat
  day    : Nat
  hour   : Nat
  minute : Nat
  second : Nat
  deriving DecidableEq

namespace Stamp

def fields (s : Stamp) : List Nat :=
  [s.year, s.month, s.day, s.hour, s.minute, s.second]

def twoDigits (n : Nat) : CString :=
  if n < 10 then '0' :: Nat.toDigits 10 n else Nat.toDigits 10 n

def text (s : Stamp) : CString :=
  Nat.toDigits 10 s.year ++ twoDigits s.month ++ twoDigits s.day ++
    ' ' :: (twoDigits s.hour ++ ':' :: (twoDigits s.minute ++ ':' :: twoDigits s.second))

end Stamp

def isHostChar (c : Char) : Bool :=
  !gAsciiIsspace c && c ≠ '\x00'

structure Entry where
  host    : CString
  subs    : Bool
  expire  : Option Stamp
  host_ok : (host ≠ [] && host.head? ≠ some '.' && host.head? ≠ some '#' && host.all isHostChar) = true
  deriving DecidableEq

namespace Entry

def expireText (e : Entry) : CString :=
  e.expire.elim "unlimited".toList Stamp.text

def text (e : Entry) : CString :=
  (if e.subs then ['.'] else []) ++ e.host ++ ' ' :: '"' :: (e.expireText ++ ['"'])

def Unexpired (now : Stamp) (e : Entry) : Prop :=
  ∀ stamp ∈ e.expire, now.fields < stamp.fields

-- Without case, and without the dots at the end.
def Matches (host : CString) (e : Entry) : Prop :=
  strippedHost e.host = strippedHost host ∨
    e.subs ∧ '.' :: strippedHost e.host <:+ strippedHost host

instance {now : Stamp} {e : Entry} : Decidable (e.Unexpired now) :=
  inferInstanceAs (Decidable (∀ stamp ∈ e.expire, _))

instance {host : CString} {e : Entry} : Decidable (e.Matches host) :=
  inferInstanceAs (Decidable (_ ∨ _))

end Entry

inductive Line
  | comment (s : CString) (h : (s.all fun c => c ≠ '\n' && c ≠ '\x00') = true)
  | blank
  | entry (e : Entry)
  deriving DecidableEq

namespace Line

def text : Line → CString
  | comment s _ => '#' :: s
  | blank       => []
  | entry e     => e.text

def entry? : Line → Option Entry
  | comment .. => none
  | blank      => none
  | entry e    => e

end Line

-- A file in the format of libcurl.
abbrev File := List Line

namespace File

def text (file : File) : CString :=
  file.flatMap fun line => line.text ++ ['\n']

def entries (file : File) : List Entry :=
  file.filterMap Line.entry?

-- What the answer for a host should be.
def Pinned (file : File) (host : CString) (now : Stamp) : Prop :=
  ∃ e ∈ file.entries, e.Unexpired now ∧ e.Matches host

instance {file : File} {host : CString} {now : Stamp} : Decidable (file.Pinned host now) :=
  inferInstanceAs (Decidable (∃ e ∈ file.entries, _))

end File

def Entry.key (e : Entry) : CString :=
  gAsciiStrdown e.host

-- Whether the table keeps what an entry says of a host: no dot is at the end of its own host, and if it
-- is one of a parent, then the last line for that parent includes subdomains.
def Entry.Kept (file : File) (host : CString) (e : Entry) : Prop :=
  strippedHost e.host = e.key ∧
    (e.key = strippedHost host ∨ ∀ l ∈ Lib.lasts Entry.key file.entries, l.key = e.key → l.subs)

instance {file : File} {host : CString} {e : Entry} : Decidable (e.Kept file host) :=
  inferInstanceAs (Decidable (_ ∧ (_ ∨ ∀ l ∈ Lib.lasts Entry.key file.entries, _)))

-- Of the entries that match a host, some is not expired and some is kept, or none is either.
def Effective (file : File) (host : CString) (now : Stamp) : Prop :=
  (∃ e ∈ file.entries, e.Matches host ∧ e.Unexpired now) ∧
      (∃ e ∈ file.entries, e.Matches host ∧ e.Kept file host) ∨
    ∀ e ∈ file.entries, e.Matches host → ¬e.Unexpired now ∧ ¬e.Kept file host

instance {file : File} {host : CString} {now : Stamp} : Decidable (Effective file host now) :=
  inferInstanceAs (Decidable (_ ∧ _ ∨ ∀ e ∈ file.entries, _))

structure State where
  disk  : Option (Disk File) := none
  cache : Cache := {}

inductive Event
  | rewrite (disk : Option (Disk File))
  | lookup (host : CString) (now : Stamp)

namespace State

def file (s : State) : File :=
  (s.disk.map Disk.content).getD []

def onDisk (s : State) : Option (Disk CString) :=
  s.disk.map fun d => { content := d.content.text, modified := d.modified }

def answer (s : State) (host : CString) : Bool :=
  (shouldUpgrade s.cache s.onDisk host).1

def step (s : State) : Event → Option State
  | .rewrite disk  => some { s with disk }
  | .lookup host _ => some { s with cache := (shouldUpgrade s.cache s.onDisk host).2 }

-- Whether the next event, if it is a lookup, is answered as the file says.
def Answers (s : State) : Event → Prop
  | .rewrite _       => True
  | .lookup host now => s.answer host = true ↔ s.file.Pinned host now

-- Whether the next event, if it is a rewrite, ends in another second than the file which is in the
-- cache is of, unless it leaves that file as it is.
def Noticed (s : State) : Event → Prop
  | .lookup ..    => True
  | .rewrite disk =>
    s.cache.table.isSome → fileMtimeUs disk = s.cache.mtimeUs →
      fileMtimeUs s.disk = s.cache.mtimeUs ∧ disk.map Disk.content = s.disk.map Disk.content

def Effective (s : State) : Event → Prop
  | .rewrite _       => True
  | .lookup host now => Hsts.Effective s.file host now

instance {s : State} : ∀ e, Decidable (s.Answers e)
  | .rewrite _       => inferInstanceAs (Decidable True)
  | .lookup host now => inferInstanceAs (Decidable (s.answer host = true ↔ s.file.Pinned host now))

instance {s : State} : ∀ e, Decidable (s.Noticed e)
  | .lookup ..    => inferInstanceAs (Decidable True)
  | .rewrite disk => inferInstanceAs (Decidable (_ → fileMtimeUs disk = _ → _ ∧ _))

instance {s : State} : ∀ e, Decidable (s.Effective e)
  | .rewrite _       => inferInstanceAs (Decidable True)
  | .lookup host now => inferInstanceAs (Decidable (Hsts.Effective s.file host now))

end State

end Nordstjernen.Net.Hsts
