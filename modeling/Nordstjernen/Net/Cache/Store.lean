import Mathlib.Data.List.Sort
import Mathlib.Logic.Function.Basic
import Nordstjernen.Net.Header.Capture

open Nordstjernen.Glib

namespace Nordstjernen.Net.Cache

-- What the cache uses of the platform and of the configuration.
structure Env where
  sha256        : CString → CString
  cacheCapBytes : Nat
  parseHttpDate : CString → Int
  isHttpOrHttps : CString → Bool

variable (env : Env)

def baseKeyForUrl (url : CString) (partition : Option CString) : CString :=
  match partition with
  | some (c :: cs) => env.sha256 (url ++ '\x1f' :: c :: cs)
  | _              => env.sha256 url

def rowKeyFor (base selector : CString) : CString :=
  if selector = [] then base else env.sha256 (base ++ '\x1f' :: selector)

def isCacheableStatus (s : Int) : Bool :=
  s == 200 || s == 203 || s == 301 || s == 410

def urlShouldCache (url : CString) : Bool :=
  env.isHttpOrHttps url && url.all fun c => !(c.toNat < 0x20 || c.toNat == 0x7f)

-- What `Cache-Control` says about how long a response is fresh.
def freshnessFromCacheControl (now : Int) (cc : CString) : Option Int :=
  if strstr cc "no-store".toList then some (-1)
  else if strstr cc "no-cache".toList then some 0
  else
    match ((cc.tails.find? (gStrHasPrefix · "max-age".toList)).getD []).dropWhile (· != '=') with
    | _ :: digits => some (now + min (max (gAsciiStrtoll digits) 0) (86400 * 3650))
    | []          => if strstr cc "immutable".toList then some (now + 86400 * 30) else none

def freshnessFromHeaders (now : Int) (cacheControl expires : Option CString) : Int :=
  match cacheControl.bind (freshnessFromCacheControl now) with
  | some t => t
  | none   =>
    match expires.map env.parseHttpDate with
    | some t => if t > 0 then t else 0
    | none   => 0

end Nordstjernen.Net.Cache

open Nordstjernen.Net.Header

namespace Nordstjernen.Net.Cache

def cacheMaxAgeSeconds : Int := 30 * 24 * 60 * 60

abbrev Body := List UInt8

-- `ns_cache_entry`
structure Entry where
  finalUrl        : CString
  status          : Int
  contentType     : Option CString
  corsAllowOrigin : Option CString
  etag            : Option CString
  lastModified    : Option CString
  expiresAt       : Int
  fetchedAt       : Int
  body            : Body           := []
deriving DecidableEq

-- A row of the table `entries`.
structure Row where
  key             : CString
  baseKey         : CString
  url             : CString
  finalUrl        : CString
  status          : Int
  contentType     : Option CString
  corsAllowOrigin : Option CString
  etag            : Option CString
  lastModified    : Option CString
  vary            : Option CString
  expiresAt       : Int
  fetchedAt       : Int
  lastUsed        : Int
  bodySize        : Int

-- What is returned for a row with this body.
def Row.entry (r : Row) (body : Body) : Entry where
  finalUrl        := r.finalUrl
  status          := r.status
  contentType     := r.contentType
  corsAllowOrigin := r.corsAllowOrigin
  etag            := r.etag
  lastModified    := r.lastModified
  expiresAt       := r.expiresAt
  fetchedAt       := r.fetchedAt
  body            := body

-- The arguments of `ns_cache_put`.
structure PutArgs where
  url             : CString
  partition       : Option CString := none
  finalUrl        : Option CString := none
  status          : Int            := 200
  contentType     : Option CString := none
  corsAllowOrigin : Option CString := none
  etag            : Option CString := none
  lastModified    : Option CString := none
  cacheControl    : Option CString := none
  expiresHeader   : Option CString := none
  vary            : Option CString := none
  requestHeaders  : List CString   := []
  body            : Body           := []

-- The row that `ns_cache_put` stores, if it stores one.
def PutArgs.row (env : Env) (now : Int) (a : PutArgs) : Option Row := do
  let cc := a.cacheControl.getD []
  guard (urlShouldCache env a.url)
  guard !(strstr cc "no-store".toList || strstr cc "private".toList)
  guard (isCacheableStatus a.status)
  guard (a.body.length ≤ 2147483647 ∧ a.body.length ≤ env.cacheCapBytes)
  let expiresAt := freshnessFromHeaders env now a.cacheControl a.expiresHeader
  guard (0 ≤ expiresAt)
  let selector ← varySelector (a.vary.getD []) a.requestHeaders
  let baseKey := baseKeyForUrl env a.url a.partition
  return {
    key             := rowKeyFor env baseKey selector
    baseKey
    url             := a.url
    finalUrl        := a.finalUrl.getD a.url
    status          := a.status
    contentType     := a.contentType
    corsAllowOrigin := a.corsAllowOrigin
    etag            := a.etag
    lastModified    := a.lastModified
    vary            := a.vary
    expiresAt
    fetchedAt       := now
    lastUsed        := now
    bodySize        := a.body.length }

-- What is on the disk: the table, in the order of its rows, and the body files.
structure Disk where
  rows   : List Row
  bodies : CString → Option Body

-- A row takes the place of the one with its key, but for `base_key`, or comes to the end.
def upsert (row : Row) : List Row → List Row
  | []      => [row]
  | r :: rs => if r.key = row.key then { row with baseKey := r.baseKey } :: rs else r :: upsert row rs

def findRowKey (env : Env) (rows : List Row) (base : CString) (requestHeaders : List CString) :
    Option CString :=
  ((rows.filter (·.baseKey = base)).find? fun r =>
    (varySelector (r.vary.getD []) requestHeaders).any fun s => r.key = rowKeyFor env base s).map (·.key)

-- The order in which rows are kept: by their last use, and then by their keys.
def usedAfter (a b : Row) : Bool :=
  b.lastUsed < a.lastUsed || a.lastUsed == b.lastUsed && !(a.key.map Char.toNat < b.key.map Char.toNat)

-- The keys of the rows that are over the cap, in that order.
def overCap (cap : Nat) : Int → List Row → List CString
  | _,       []      => []
  | running, r :: rs =>
    let running := running + r.bodySize
    if running > cap then r.key :: overCap cap running rs else overCap cap running rs

-- What a call does in one step, and nobody comes between.
inductive Op
  | upsertRow (row : Row) (body : Body)
  | writeBody (key : CString) (body : Body)
  | unlinkBody (key : CString)
  | deleteRow (key : CString)
  | selectAged
  | selectOverCap
  | selectKey (base : CString) (requestHeaders : List CString)
  | selectRow (key : CString)
  | statBody (key : CString) (e : Entry)
  | readBody (key : CString) (e : Entry)
  | touchKey (key : CString) (e : Entry)

def deleteKey (key : CString) : List Op :=
  [.unlinkBody key, .deleteRow key]

def evictToCap : List Op :=
  [.selectAged, .selectOverCap]

-- The disk after a step, what the call does next, and the entry that it returns.
structure Done where
  disk : Disk
  next : List Op                  := []
  got  : Option (CString × Entry) := none

namespace Disk

variable (d : Disk) (env : Env) (now : Int)

-- A step that fails leaves the disk as it is.
def fail : Op → Done
  | .writeBody key _ => { disk := d, next := deleteKey key }
  | .statBody key _  => { disk := d, next := deleteKey key }
  | .readBody key _  => { disk := d, next := deleteKey key }
  | .touchKey key e  => { disk := d, got := some (key, e) }
  | _                => { disk := d }

def exec : Op → Done
  | .upsertRow row body => { disk := { d with rows := upsert row d.rows }, next := [.writeBody row.key body] }
  | .writeBody key body =>
    { disk := { d with bodies := fun k => if k = key then some body else d.bodies k }, next := evictToCap }
  | .unlinkBody key     => { disk := { d with bodies := fun k => if k = key then none else d.bodies k } }
  | .deleteRow key      => { disk := { d with rows := d.rows.filter (·.key ≠ key) } }
  | .selectAged         =>
    { disk := d
      next := (d.rows.filter (·.lastUsed < now - cacheMaxAgeSeconds)).flatMap fun r => deleteKey r.key }
  | .selectOverCap      =>
    { disk := d
      next := (overCap env.cacheCapBytes 0 (d.rows.insertionSort (usedAfter · ·))).flatMap deleteKey }
  | .selectKey base requestHeaders =>
    { disk := d, next := ((findRowKey env d.rows base requestHeaders).map Op.selectRow).toList }
  | .selectRow key      =>
    match d.rows.find? (·.key = key) with
    | none   => { disk := d }
    | some r =>
      if !isCacheableStatus r.status then { disk := d, next := deleteKey key }
      else if r.bodySize < 0 ∨ r.bodySize > env.cacheCapBytes then { disk := d }
      else { disk := d, next := [.statBody key (r.entry [])] }
  | .statBody key e     =>
    if (d.bodies key).any (·.length ≤ env.cacheCapBytes) then { disk := d, next := [.readBody key e] }
    else { disk := d, next := deleteKey key }
  | .readBody key e     =>
    match d.bodies key with
    | none      => { disk := d, next := deleteKey key }
    | some body =>
      if body.length > 4294967295 ∨ body.length > env.cacheCapBytes then
        { disk := d, next := deleteKey key }
      else { disk := d, next := [.touchKey key { e with body }] }
  | .touchKey key e     =>
    { disk := { d with rows := d.rows.map fun r => if r.key = key then { r with lastUsed := now } else r }
      got  := some (key, e) }

end Disk

-- Some processes that share a cache: what each of them still has to do in its call, what they have been
-- told to put, and what has been returned to them.
structure System (ι : Type) where
  disk : Disk
  todo : ι → List Op
  puts : List (Row × Body)
  got  : List (CString × Entry)

namespace System

variable {ι : Type} [DecidableEq ι]

-- A process makes a call, does the next step of it at some time (which fails, or not), or stops.
inductive Event (ι : Type)
  | put (i : ι) (now : Int) (args : PutArgs)
  | get (i : ι) (url : CString) (partition : Option CString) (requestHeaders : List CString)
  | delete (i : ι) (key : CString)
  | evict (i : ι)
  | exec (i : ι) (now : Int)
  | fail (i : ι)
  | stop (i : ι)

def start : System ι where
  disk := { rows := [], bodies := fun _ => none }
  todo := fun _ => []
  puts := []
  got  := []

variable (env : Env) (s : System ι)

def begin (i : ι) (ops : List Op) : Option (System ι) :=
  if s.todo i = [] then some { s with todo := Function.update s.todo i ops } else none

-- A step has been done, and the rest of the call is still to do.
def done (i : ι) (rest : List Op) (r : Done) : System ι :=
  { s with
    disk := r.disk
    todo := Function.update s.todo i (r.next ++ rest)
    got  := s.got ++ r.got.toList }

def step : Event ι → Option (System ι)
  | .put i now args                   =>
    match args.row env now with
    | none     => s.begin i []
    | some row => (s.begin i [.upsertRow row args.body]).map fun s => { s with puts := s.puts ++ [(row, args.body)] }
  | .get i url partition requestHeaders =>
    s.begin i [.selectKey (baseKeyForUrl env url partition) requestHeaders]
  | .delete i key                     => s.begin i (deleteKey key)
  | .evict i                          => s.begin i evictToCap
  | .exec i now                       =>
    match s.todo i with
    | []         => none
    | op :: rest => some (s.done i rest (s.disk.exec env now op))
  | .fail i                           =>
    match s.todo i with
    | []         => none
    | op :: rest => some (s.done i rest (s.disk.fail op))
  | .stop i                           => some { s with todo := Function.update s.todo i [] }

end System

end Nordstjernen.Net.Cache
