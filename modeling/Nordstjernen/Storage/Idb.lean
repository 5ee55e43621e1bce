import Nordstjernen.Glib.Strings
import Nordstjernen.Lib.Run

open Nordstjernen.Glib

namespace Nordstjernen.Storage

-- The origin that storage is partitioned by. It is empty where there is none.
structure Site where
  text         : CString
  no_separator : '\x1f' ∉ text
deriving DecidableEq

structure Db where
  site : Site
  name : CString
deriving DecidableEq

-- How values are written as blobs and read back.
structure Codec (V B : Type) where
  write      : V → Option B
  read       : B → Option V
  read_write : ∀ v b, write v = some b → read b = some v

-- The tables `stores` and `records` of a database.
structure Content (B : Type) where
  stores  : List CString
  records : CString → CString → Option B

local instance : LawfulBEq CString := inferInstance

namespace Content

variable {B : Type} (c : Content B)

def empty : Content B where
  stores  := []
  records := fun _ _ => none

def clear (store : CString) : Content B :=
  { c with records := fun s k => if s = store then none else c.records s k }

def deleteRecord (store key : CString) : Content B :=
  { c with records := fun s k => if s = store ∧ k = key then none else c.records s k }

-- `none` if there is such a store.
def createStore (store : CString) : Option (Content B) :=
  if store ∈ c.stores then none else some { c with stores := c.stores ++ [store] }

-- The records of the store go with it.
def deleteStore (store : CString) : Content B :=
  { c.clear store with stores := c.stores.filter (· ≠ store) }

-- `none` if there is such a record and none may be replaced, or if there is no such store.
def put (store key : CString) (blob : B) (addOnly : Bool) : Option (Content B) :=
  if addOnly = true ∧ (c.records store key).isSome then none
  else if store ∉ c.stores then none
  else some { c with records := fun s k => if s = store ∧ k = key then some blob else c.records s k }

end Content

-- The mode of the browser, and the hash that the names of directories and files are made with.
structure Config where
  privateMode : Bool
  hash        : CString → CString
  injective   : ∀ a b, hash a = hash b → a = b

-- `:memory:`, or a file in the directory of a partition.
inductive Path
  | memory
  | file (dir name : CString)
deriving DecidableEq

-- An `ns_idb_db`. The data of a connection to `:memory:` is its own.
structure Handle (B : Type) where
  path     : Path
  memory   : Content B
  lastUsed : Nat

-- `g_idb_handles`, `g_idb_clock` and the files on the disk.
structure Idb (B : Type) where
  handles : List (CString × Handle B)
  clock   : Nat
  files   : CString → CString → Option (Content B)

-- `NS_IDB_MAX_OPEN`
def maxOpen : Nat := 16

namespace Idb

variable {B : Type} (cfg : Config) (s : Idb B)

def cacheKey (db : Db) : Option CString :=
  if db.site.text = [] ∨ db.name = [] then none else some (db.site.text ++ '\x1f' :: db.name)

def pathForName (db : Db) : Option Path :=
  if db.name = [] then none
  else if cfg.privateMode then some .memory
  else if db.site.text = [] then none
  else some (.file (cfg.hash db.site.text) (cfg.hash db.name))

def lookup (key : CString) : Option (Handle B) :=
  (s.handles.find? (·.fst = key)).map (·.snd)

def remove (key : CString) : Idb B :=
  { s with handles := s.handles.filter (·.fst ≠ key) }

def modifyHandle (key : CString) (f : Handle B → Handle B) : Idb B :=
  { s with handles := s.handles.map fun e => if e.fst = key then (e.fst, f e.snd) else e }

-- The connection with the least `last_used`.
def leastUsed (handles : List (CString × Handle B)) : Option (CString × Handle B) :=
  handles.foldl (fun best e =>
    match best with
    | none   => some e
    | some b => if e.snd.lastUsed < b.snd.lastUsed then some e else some b) none

def cacheTrim : Idb B :=
  if s.handles.length ≤ maxOpen then s
  else
    let lruDisk := leastUsed (s.handles.filter (·.snd.path ≠ .memory))
    let lruMem  := leastUsed (s.handles.filter (·.snd.path = .memory))
    match lruDisk.or lruMem with
    | some victim => s.remove victim.fst
    | none        => s

-- The schema is made where there is no file yet.
def createFile : Path → Idb B
  | .memory        => s
  | .file dir name =>
    { s with files := fun d n =>
        if d = dir ∧ n = name then some ((s.files d n).getD .empty) else s.files d n }

-- The key of the connection that is returned, where `opens` says whether SQLite can open it.
def openDb (opens : Bool) (db : Db) : Option (CString × Idb B) := do
  let key ← cacheKey db
  if (s.lookup key).isSome then
    return (key, { s.modifyHandle key ({ · with lastUsed := s.clock + 1 }) with clock := s.clock + 1 })
  else
    let path ← pathForName cfg db
    guard opens
    let s := s.createFile path
    let handle := { path, memory := .empty, lastUsed := s.clock + 1 }
    return (key, cacheTrim { s with handles := s.handles ++ [(key, handle)], clock := s.clock + 1 })

-- What a connection has access to. A connection that is no longer in the cache has been freed.
def content (key : CString) : Option (Content B) :=
  (s.lookup key).map fun h =>
    match h.path with
    | .memory        => h.memory
    | .file dir name => (s.files dir name).getD .empty

def setContent (key : CString) (c : Content B) : Idb B :=
  match s.lookup key with
  | none   => s
  | some h =>
    match h.path with
    | .memory        => s.modifyHandle key ({ · with memory := c })
    | .file dir name => { s with files := fun d n => if d = dir ∧ n = name then some c else s.files d n }

def deleteFile : Path → Idb B
  | .memory        => s
  | .file dir name => { s with files := fun d n => if d = dir ∧ n = name then none else s.files d n }

end Idb

-- The calls of the backend. The other ones that open a database are like `info` for its records.
inductive Op (V : Type)
  | info
  | createStore (store : CString)
  | deleteStore (store : CString)
  | put (store key : CString) (value : V) (addOnly : Bool)
  | get (store key : CString)
  | deleteRecord (store key : CString)
  | clear (store : CString)
  | deleteDatabase

-- A call, whether SQLite can open the database and whether a statement that writes fails.
structure Call (V : Type) where
  db    : Db
  op    : Op V
  opens : Bool := true
  fails : Bool := false

inductive Answer (V : Type)
  | done
  | thrown
  | value (v : Option V)
  | freed
deriving DecidableEq

section Backend

variable {V B : Type} (codec : Codec V B)

-- What a write makes of the tables, or `none` where it throws.
def Op.write? (c : Content B) : Op V → Option (Content B)
  | .createStore store           => c.createStore store
  | .deleteStore store           => some (c.deleteStore store)
  | .put store key value addOnly => (codec.write value).bind fun blob => c.put store key blob addOnly
  | .deleteRecord store key      => some (c.deleteRecord store key)
  | .clear store                 => some (c.clear store)
  | _                            => some c

-- A call on an open connection.
def Idb.perform (s : Idb B) (key : CString) (call : Call V) : Idb B × Answer V :=
  match s.content key with
  | none   => (s, .freed)
  | some c =>
    match call.op with
    | .info          => (s, .done)
    | .get store k   => (s, .value ((c.records store k).bind codec.read))
    | op             =>
      match if call.fails then none else op.write? codec c with
      | none   => (s, .thrown)
      | some c => (s.setContent key c, .done)

def Idb.deleteDatabase (cfg : Config) (s : Idb B) (db : Db) : Idb B × Answer V :=
  match pathForName cfg db with
  | none      => (s, .thrown)
  | some path => (((cacheKey db).elim s s.remove).deleteFile path, .done)

def Idb.backend (cfg : Config) (s : Idb B) (call : Call V) : Idb B × Answer V :=
  match call.op with
  | .deleteDatabase => s.deleteDatabase cfg call.db
  | _               =>
    match s.openDb cfg call.opens call.db with
    | none          => (s, .thrown)
    | some (key, s) => s.perform codec key call

-- The backend, and the calls so far with their answers.
structure Session (V B : Type) where
  idb     : Idb B
  history : List (Call V × Answer V)

def Session.step (cfg : Config) (s : Session V B) (call : Call V) : Option (Session V B) :=
  let (idb, answer) := s.idb.backend codec cfg call
  some ⟨idb, s.history ++ [(call, answer)]⟩

end Backend

end Nordstjernen.Storage

namespace Nordstjernen.Storage

-- Whether a call opens the database.
def Op.opensDb {V : Type} : Op V → Bool
  | .deleteDatabase => false
  | _               => true

-- What a write leaves of the value that a key has been given last.
def Op.after {V : Type} (store key : CString) (last : Option V) : Op V → Option V
  | .put s k value _  => if s = store ∧ k = key then some value else last
  | .deleteRecord s k => if s = store ∧ k = key then none else last
  | .clear s          => if s = store then none else last
  | .deleteStore s    => if s = store then none else last
  | .deleteDatabase   => none
  | _                 => last

-- The value that the last committed put has given to a key, where deleting it leaves none.
def lastPut {V : Type} (db : Db) (store key : CString) (history : List (Call V × Answer V)) : Option V :=
  history.foldl (fun last (call, answer) =>
    match answer with
    | .done => if call.db = db then call.op.after store key last else last
    | _     => last) none

-- Whether a database that is opened is not in the cache.
def Idb.misses {B : Type} (s : Idb B) (db : Db) : Bool :=
  (cacheKey db).any fun key => (s.lookup key).isNone

section Session

variable {V B : Type} (codec : Codec V B) (cfg : Config)

def Session.start (files : CString → CString → Option (Content B)) : Session V B where
  idb     := { handles := [], clock := 0, files }
  history := []

-- What is promised in every state that is reached.
structure Session.Sound (s : Session V B) : Prop where
  get_put : ∀ call store key v, call.op = .get store key → call.opens = true →
    lastPut call.db store key s.history = some v →
    (s.idb.backend codec cfg call).snd = .value (some v)
  held : ∀ opens db key idb, s.idb.openDb cfg opens db = some (key, idb) → (idb.lookup key).isSome

-- Where a private database is opened that is not in the cache, the cache is not full.
def Session.Fits (s : Session V B) (call : Call V) : Prop :=
  cfg.privateMode = true → call.op.opensDb = true → s.idb.misses call.db = true →
    s.idb.handles.length < maxOpen

instance (s : Session V B) (call : Call V) : Decidable (s.Fits cfg call) :=
  inferInstanceAs (Decidable (_ → _))

end Session

end Nordstjernen.Storage
