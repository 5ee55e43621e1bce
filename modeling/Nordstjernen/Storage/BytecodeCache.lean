import Mathlib.Data.Fintype.Defs
import Mathlib.Data.UInt
import Nordstjernen.Lib.Files
import Nordstjernen.Lib.Run

open Function (update)
open Nordstjernen.Lib

namespace Nordstjernen.Storage.BytecodeCache

abbrev Bytes := List UInt8

def valueCapBytes : Nat :=
  4 * 1024 * 1024

def magic : UInt32 :=
  0x4E4A4243

def formatVersion : UInt32 :=
  2026052201

-- The bytes of a number after `GUINT32_TO_LE`.
def toLe32 (n : UInt32) : Bytes :=
  [n.toUInt8, (n >>> 8).toUInt8, (n >>> 16).toUInt8, (n >>> 24).toUInt8]

-- What `ns_bytecode_cache_put` hands on to `write_disk`.
structure Bytecode where
  bytes : Bytes
  pos   : 0 < bytes.length
  le    : bytes.length ≤ valueCapBytes

-- What `write_disk` writes.
def Bytecode.contents (bc : Bytecode) : Bytes :=
  toLe32 magic ++ toLe32 formatVersion ++ bc.bytes

-- What `read_disk` makes of the contents of a file.
def payload (contents : Bytes) : Option Bytes :=
  if contents.length < 4 + 4 then none
  else if contents.take 4 ≠ toLe32 magic ∨ (contents.drop 4).take 4 ≠ toLe32 formatVersion then none
  else if contents.length - 8 = 0 ∨ valueCapBytes < contents.length - 8 then none
  else some (contents.drop 8)

abbrev Path := List Char

abbrev Disk := Files Path UInt8

def tmp (path : Path) : Path :=
  path ++ ".tmp".toList

-- Where a call of `write_disk` is. While it has the file open there are bytes that the system has
-- not got yet, and it is known whether all went well.
inductive Writer
  | start
  | writing (file pos : Nat) (left : Bytes) (wrote : Bool)
  | closed
  | failed
  | done

-- What happens to a writer. The buffer of the file goes out in pieces of any length.
inductive WriterCall
  | fopen
  | write (len : Nat)
  | fclose
  | rename
  | unlink
  | fail
  | die

-- A step of `write_disk`. After a failure the rest of the buffer may still go out.
def Writer.step (path : Path) (bc : Bytecode) (d : Disk) : Writer → WriterCall → Option (Disk × Writer)
  | .start, .fopen =>
    let (file, d') := d.create (tmp path)
    some (d', .writing file 0 bc.contents true)
  | .start, .fail => some (d, .done)
  | .writing file pos left wrote, .write len =>
    if 0 < len ∧ len ≤ left.length then
      some (d.write file pos (left.take len), .writing file (pos + len) (left.drop len) wrote)
    else none
  | .writing file pos left _, .fail => some (d, .writing file pos left false)
  | .writing _ _ left true, .fclose => if left = [] then some (d, .closed) else none
  | .writing _ _ _ false, .fclose => some (d, .failed)
  | .closed, .rename =>
    match d.rename (tmp path) path with
    | some d' => some (d', .done)
    | none    => some (d, .failed)
  | .closed, .fail => some (d, .failed)
  | .failed, .unlink => some (d.unlink (tmp path), .done)
  | .failed, .fail => some (d, .done)
  | _, .die => some (d, .done)
  | _, _ => none

-- Where a call of `read_disk` is, with the size that `g_file_get_contents` has found, unless the
-- file was empty, and what it has read.
inductive Reader
  | start
  | opening
  | opened (file : Nat)
  | reading (file : Nat) (size : Option Nat) (got : Bytes)
  | done (out : Option Bytes)
deriving DecidableEq

inductive ReaderCall
  | stat
  | open
  | fstat
  | read (len : Nat)
  | close
  | fail

-- A step of `read_disk`. A file that was empty is read up to its end, wherever that is then.
def Reader.step (path : Path) (d : Disk) : Reader → ReaderCall → Option Reader
  | .start, .stat =>
    match d.names path with
    | none      => some (.done none)
    | some file =>
      if (d.data file).length < 8 ∨ valueCapBytes + 8 < (d.data file).length then some (.done none)
      else some .opening
  | .opening, .open =>
    match d.names path with
    | none      => some (.done none)
    | some file => some (.opened file)
  | .opened file, .fstat =>
    let size := (d.data file).length
    some (.reading file (if 0 < size then some size else none) [])
  | .reading file size got, .read len =>
    if 0 < len ∧ got.length + len ≤ (d.data file).length ∧ ∀ n ∈ size, got.length + len ≤ n then
      some (.reading file size (got ++ ((d.data file).drop got.length).take len))
    else none
  | .reading file size got, .close =>
    if size = some got.length ∨ (d.data file).length ≤ got.length then some (.done (payload got))
    else none
  | .done _, _ => none
  | _, .fail => some (.done none)
  | _, _ => none

-- Writers of one key and a reader of it.
structure System (ι : Type*) where
  disk   : Disk
  writer : ι → Writer
  reader : Reader

inductive Event (ι : Type*)
  | writer (i : ι) (call : WriterCall)
  | reader (call : ReaderCall)

namespace System

variable {ι : Type*}

def start : System ι where
  disk     := .empty
  writer _ := .start
  reader   := .start

def step [DecidableEq ι] (path : Path) (bc : ι → Bytecode) (s : System ι) : Event ι → Option (System ι)
  | .writer i call => ((s.writer i).step path (bc i) s.disk call).map fun (disk, w) =>
    { s with disk := disk, writer := update s.writer i w }
  | .reader call   => (s.reader.step path s.disk call).map fun reader => { s with reader := reader }

-- The reader has got nothing yet, or nothing at all, or all that one of the writers had to write.
def ReadsWhole (bc : ι → Bytecode) (s : System ι) : Prop :=
  ∀ out, s.reader = .done (some out) → ∃ i, s.writer i = .done ∧ out = (bc i).bytes

end System

-- Has the temporary file open, or is going to rename it.
def Writer.Uses : Writer → Prop
  | .writing .. => True
  | .closed     => True
  | _           => False

instance : DecidablePred Writer.Uses
  | .writing .. | .closed          => isTrue trivial
  | .start      | .failed | .done  => isFalse id

-- No writer opens the temporary file while another one uses it.
def Alone {ι : Type*} (s : System ι) : Event ι → Prop
  | .writer i .fopen => ∀ j, j ≠ i → ¬(s.writer j).Uses
  | _                => True

instance {ι : Type*} [Fintype ι] [DecidableEq ι] (s : System ι) : DecidablePred (Alone s)
  | .writer i .fopen => inferInstanceAs (Decidable (∀ j, j ≠ i → ¬(s.writer j).Uses))
  | .writer _ (.write _) | .writer _ .fclose | .writer _ .rename | .writer _ .unlink | .writer _ .fail
  | .writer _ .die | .reader _ => isTrue trivial

end Nordstjernen.Storage.BytecodeCache
