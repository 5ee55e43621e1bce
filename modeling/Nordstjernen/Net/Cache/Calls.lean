import Mathlib.Algebra.Order.Ring.Int
import Nordstjernen.Net.Cache.Store

open Nordstjernen.Glib Nordstjernen.Net.Header

namespace Nordstjernen.Net.Cache

-- Whether a row is the one of its base key that a request with these headers selects.
def Row.Answers (env : Env) (base : CString) (requestHeaders : List CString) (r : Row) : Prop :=
  r.baseKey = base ∧ ∃ s ∈ varySelector (r.vary.getD []) requestHeaders, r.key = rowKeyFor env base s

instance {env : Env} {base : CString} {requestHeaders : List CString} {r : Row} :
    Decidable (r.Answers env base requestHeaders) :=
  inferInstanceAs (Decidable (_ ∧ ∃ s ∈ _, _))

namespace Disk

variable (d : Disk) (env : Env) (now : Int)

def deleteKey (key : CString) : Disk where
  rows     := d.rows.filter (·.key ≠ key)
  bodies k := if k = key then none else d.bodies k

def deleteKeys (keys : List CString) : Disk :=
  keys.foldl deleteKey d

def evictToCap : Disk :=
  let d := d.deleteKeys ((d.rows.filter (·.lastUsed < now - cacheMaxAgeSeconds)).map (·.key))
  d.deleteKeys (overCap env.cacheCapBytes 0 (d.rows.insertionSort (usedAfter · ·)))

def store (row : Row) (body : Body) : Disk where
  rows     := upsert row d.rows
  bodies k := if k = row.key then some body else d.bodies k

def touchKey (key : CString) : Disk :=
  { d with rows := d.rows.map fun r => if r.key = key then { r with lastUsed := now } else r }

-- `ns_cache_put`, when none of its steps fails and nobody comes between them.
def put (a : PutArgs) : Disk :=
  match a.row env now with
  | none     => d
  | some row => (d.store row a.body).evictToCap env now

-- What `ns_cache_get` does with the row that it has found: the disk behind it, and what is returned.
def getKey (key : CString) : Disk × Option (CString × Entry) :=
  match d.rows.find? (·.key = key) with
  | none   => (d, none)
  | some r =>
    if !isCacheableStatus r.status then (d.deleteKey key, none)
    else if r.bodySize < 0 ∨ r.bodySize > env.cacheCapBytes then (d, none)
    else
      match d.bodies key with
      | none      => (d.deleteKey key, none)
      | some body =>
        if body.length > 4294967295 ∨ body.length > env.cacheCapBytes then (d.deleteKey key, none)
        else (d.touchKey now key, some (key, r.entry body))

-- `ns_cache_get`, likewise.
def get (url : CString) (partition : Option CString) (requestHeaders : List CString) :
    Disk × Option (CString × Entry) :=
  match findRowKey env d.rows (baseKeyForUrl env url partition) requestHeaders with
  | none     => (d, none)
  | some key => d.getKey env now key

-- The steps of a call, done one after the other until nothing is left to do.
inductive Finishes : Disk → List Op → Disk → List (CString × Entry) → Prop
  | nil {disk} : Finishes disk [] disk []
  | cons {disk disk' op rest got} :
    Finishes (disk.exec env now op).disk ((disk.exec env now op).next ++ rest) disk' got →
    Finishes disk (op :: rest) disk' ((disk.exec env now op).got.toList ++ got)

end Disk

inductive Call
  | put (now : Int) (args : PutArgs)
  | get (now : Int) (url : CString) (partition : Option CString) (requestHeaders : List CString)

def Call.exec (env : Env) (d : Disk) : Call → Disk
  | .put now args                         => d.put env now args
  | .get now url partition requestHeaders => (d.get env now url partition requestHeaders).1

-- The disks that some calls can leave, where each of them scans the rows in an order of its own.
inductive After (env : Env) : List Call → Disk → Prop
  | start : After env [] { rows := [], bodies := fun _ => none }
  | call {cs d rows} (c : Call) : After env cs d → rows.Perm d.rows →
    After env (cs ++ [c]) (c.exec env { d with rows })

-- A put of the same resource: no partition is the same as an empty one.
def Call.PutsTo (url : CString) (partition : Option CString) : Call → Prop
  | .put _ args => args.url = url ∧ args.partition.getD [] = partition.getD []
  | .get ..     => False

namespace Disk

-- A request like that of a put gets what was put, whatever the order in which the rows are scanned.
def Serves (env : Env) (now : Int) (a : PutArgs) (d : Disk) : Prop :=
  ∃ row ∈ a.row env now, ∀ (rows : List Row) (t : Int), rows.Perm d.rows →
    (get { d with rows } env t a.url a.partition a.requestHeaders).2 = some (row.key, row.entry a.body)

-- The row and the body of a put are still there, and the request selects no other row of its base key.
structure Keeps (env : Env) (a : PutArgs) (row : Row) (d : Disk) : Prop where
  kept : ∃ r ∈ d.rows, r.key = row.key ∧ r.entry = row.entry ∧ r.Answers env row.baseKey a.requestHeaders
  body : d.bodies row.key = some a.body
  only : ∀ r ∈ d.rows, r.Answers env row.baseKey a.requestHeaders → r.key = row.key

end Disk

end Nordstjernen.Net.Cache

namespace Nordstjernen.Net.Cache

namespace Disk

variable (d : Disk) (env : Env) (now : Int)

def empty : Disk where
  rows   := []
  bodies := fun _ => none

-- `ns_cache_put`, when the body cannot be written.
def putUnwritten (a : PutArgs) : Disk :=
  match a.row env now with
  | none     => d
  | some row => { d with rows := upsert row d.rows }.deleteKey row.key

-- `ns_cache_promote_304`: the disk behind it, and the key of the row that it has found stale.
def promote304 (url : CString) (partition : Option CString) (requestHeaders : List CString)
    (cacheControl expires : Option CString) : Disk × Option CString :=
  if !urlShouldCache env url then (d, none)
  else
    match findRowKey env d.rows (baseKeyForUrl env url partition) requestHeaders with
    | none     => (d, none)
    | some key =>
      match d.rows.find? (·.key = key) with
      | none   => (d, none)
      | some r =>
        let expiresAt := freshnessFromHeaders env now cacheControl expires
        let expiresAt := if expiresAt < 0 then 0 else expiresAt
        if expiresAt ≤ r.expiresAt then (d, none)
        else
          ({ d with rows := d.rows.map fun r =>
              if r.key = key then { r with expiresAt, fetchedAt := now, lastUsed := now } else r }, some key)

end Disk

-- What is done to a cache, when nobody comes between the steps of it.
inductive Access
  | call (c : Call)
  | putUnwritten (now : Int) (args : PutArgs)
  | promote304 (now : Int) (url : CString) (partition : Option CString) (requestHeaders : List CString)
    (cacheControl expires : Option CString)
  | delete (key : CString)
  | evict (now : Int)
  | clear

namespace Access

variable (env : Env) (d : Disk)

def exec : Access → Disk
  | .call c                                         => c.exec env d
  | .putUnwritten now args                          => d.putUnwritten env now args
  | .promote304 now url partition headers cc expires => (d.promote304 env now url partition headers cc expires).1
  | .delete key                                     => d.deleteKey key
  | .evict now                                      => d.evictToCap env now
  | .clear                                          => .empty

-- The row that is used, and when: the one that is put, returned or promoted.
def uses : Access → Option (CString × Int)
  | .call (.put now args)                           => (args.row env now).map (·.key, now)
  | .call (.get now url partition headers)          => (d.get env now url partition headers).2.map (·.1, now)
  | .promote304 now url partition headers cc expires =>
    (d.promote304 env now url partition headers cc expires).2.map (·, now)
  | _                                               => none

end Access

-- The disks that a history can leave, with the uses of their rows, where each access scans the rows in an
-- order of its own.
inductive History (env : Env) : List (CString × Int) → Disk → Prop
  | start : History env [] .empty
  | access {uses d rows} (a : Access) : History env uses d → rows.Perm d.rows →
    History env (uses ++ (a.uses env { d with rows }).toList) (a.exec env { d with rows })

-- When a row has been used for the last time, by the clock of the cache.
def lastUse (uses : List (CString × Int)) (key : CString) : Option Int :=
  (uses.reverse.find? (·.1 = key)).map (·.2)

-- Whether a row has been used after all the uses of another one.
def UsedLater (uses : List (CString × Int)) (key key' : CString) : Prop :=
  ∃ earlier later, uses = earlier ++ later ∧ key ∈ later.map (·.1) ∧ key' ∉ later.map (·.1)

namespace Disk

def total (d : Disk) : Int :=
  (d.rows.map (·.bodySize)).sum

-- What an eviction does to a table.
structure Evicts (env : Env) (uses : List (CString × Int)) (before after : Disk) : Prop where
  cap   : after.total ≤ env.cacheCapBytes
  first : ∃ n, after.rows.Perm ((before.rows.insertionSort (usedAfter · ·)).take n)
  older : ∀ r ∈ after.rows, ∀ e ∈ before.rows, e ∉ after.rows →
    ∃ t ∈ lastUse uses e.key, ∃ t' ∈ lastUse uses r.key, t ≤ t'

-- The table of a put before it evicts anything.
def stored (d : Disk) (env : Env) (now : Int) (a : PutArgs) : Disk :=
  match a.row env now with
  | none     => d
  | some row => d.store row a.body

end Disk

end Nordstjernen.Net.Cache
