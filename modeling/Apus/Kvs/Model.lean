import Apus.Config
import Apus.Lib.Buckets

namespace Apus

open Lib

/-!
# The key-value state machine

`dare_kvs_sm.c`: a hash table with chains, whose keys are C strings in arrays of `KEY_SIZE` bytes and
whose values are blobs of at most 65535 bytes, and a static counter of the bytes that a snapshot of
the table takes.

A pointer to a blob is `none` when it is NULL.  A function that copies a positive number of bytes
through such a pointer returns `none`.
-/

/-! ### Keys and values -/

def KEY_SIZE : Nat := 64
def DEFAULT_KVS_SIZE : UInt32 := 1024

/-- `sizeof(kvs_snapshot_entry_t)`: the length and the key. -/
def KVS_SNAPSHOT_ENTRY_SIZE : Nat := 66

def KVS_PUT : UInt8 := 1
def KVS_GET : UInt8 := 2
def KVS_RM : UInt8 := 3

/-- `char key[KEY_SIZE]`, with a NUL in it. -/
structure KvsKey where
  bytes : List UInt8
  length_eq : bytes.length = KEY_SIZE
  nul : 0 ∈ bytes

/-- The C string. -/
def KvsKey.str (key : KvsKey) : List UInt8 := key.bytes.takeWhile (· != 0)

/-- A value with its length. -/
structure KvsBlob where
  data : List UInt8
  length_lt : data.length < 65536

def KvsBlob.len (blob : KvsBlob) : UInt16 := UInt16.ofNat blob.data.length

/-- `kvs_entry_t`.  A block has as many bytes as the length says. -/
structure KvsEntry where
  key : KvsKey
  len : UInt16
  data : Option (List UInt8)
  holds : ∀ block ∈ data, block.length = len.toNat

namespace KvsEntry

def str (e : KvsEntry) : List UInt8 := e.key.str

/-- Bytes of the entry in a snapshot. -/
def snapshotSize (e : KvsEntry) : Nat := KVS_SNAPSHOT_ENTRY_SIZE + e.len.toNat

/-- The entry with a value copied to its block. -/
def withBlob (e : KvsEntry) (blob : KvsBlob) : KvsEntry where
  key := e.key
  len := blob.len
  data := some blob.data
  holds := by
    rintro _ ⟨⟩
    rw [KvsBlob.len, UInt16.toNat_ofNat']
    exact (Nat.mod_eq_of_lt blob.length_lt).symm

/-- The entry with a new length, and no block. -/
def withoutBlob (e : KvsEntry) (len : UInt16) : KvsEntry where
  key := e.key
  len := len
  data := none
  holds := nofun

end KvsEntry

/-! ### The table -/

/-- The state machine, with the static `kvs_size`. -/
structure KvsSm where
  size : UInt32
  size_pos : 0 < size.toNat
  table : Buckets KvsEntry
  kvsSize : UInt32

/-- What the allocations of a call do: the one of a list element, and the one of a blob. -/
structure KvsAlloc where
  list : Bool
  blob : Bool

/-- `kvs_cmd_t`. -/
structure KvsCmd where
  type : UInt8
  key : KvsKey
  blob : KvsBlob

/-- `sm_data_t`, the answer to a command. -/
structure SmData where
  len : UInt16
  data : List UInt8

/-- The bytes that the answer says it has. -/
def SmData.bytes (data : SmData) : List UInt8 := data.data.take data.len.toNat

/-- `create_kvs_sm`. -/
def createKvsSm (size : UInt32) : KvsSm where
  size := if size = 0 then DEFAULT_KVS_SIZE else size
  size_pos := by
    split
    · decide
    · rename_i h
      exact Nat.pos_of_ne_zero fun h0 => h (UInt32.toNat_inj.mp h0)
  table := fun _ => []
  kvsSize := 0

/-- The loop of `hash`; the bytes of a key are signed. -/
def hashval (str : List UInt8) : UInt32 :=
  str.foldl (fun h c => c.toInt8.toInt32.toUInt32 + (h <<< 5) - h) 0

namespace KvsSm

variable (sm : KvsSm)

/-- `hash`: the bucket of a string. -/
def hash (str : List UInt8) : Nat := (hashval str % sm.size).toNat

/-- `lookup_key`. -/
def lookupKey (key : KvsKey) : Option KvsEntry :=
  Buckets.find KvsEntry.str sm.hash sm.table key.str

/-- `remove_key`: both at the head of its list and behind another element the entry is unlinked. -/
def removeKey (key : KvsKey) : KvsSm :=
  match sm.lookupKey key with
  | none => sm
  | some e =>
    { sm with
      table := Buckets.erase KvsEntry.str sm.hash sm.table key.str
      kvsSize := sm.kvsSize - UInt32.ofNat KVS_SNAPSHOT_ENTRY_SIZE - e.len.toUInt32 }

/-- The entry of a key is changed in place. -/
def setEntry (key : KvsKey) (f : KvsEntry → KvsEntry) : KvsSm :=
  { sm with table := Buckets.replace KvsEntry.str sm.hash sm.table key.str f }

end KvsSm

/-- `realloc` gives a block: not when it frees the old one because no bytes are asked for. -/
def reallocates (old : Option (List UInt8)) (len : UInt16) (ok : Bool) : Bool :=
  if old.isSome && len == 0 then false else ok

namespace KvsSm

variable (sm : KvsSm)

/-- The part of `write_key` that overwrites the entry found. -/
def overwrite (e : KvsEntry) (key : KvsKey) (blob : KvsBlob) (ok : Bool) : Option (KvsSm × Int) :=
  if e.len ≠ blob.len then
    let sm := { sm with kvsSize := sm.kvsSize + (blob.len.toUInt32 - e.len.toUInt32) }
    if reallocates e.data blob.len ok then
      some (sm.setEntry key fun e => e.withBlob blob, 0)
    else some (sm.setEntry key fun e => e.withoutBlob blob.len, 1)
  else if e.data.isSome then some (sm.setEntry key fun e => e.withBlob blob, 0)
  else if blob.len = 0 then some (sm, 0)
  else none

/-- The part of `write_key` that inserts a new key. -/
def insert (key : KvsKey) (blob : KvsBlob) (alloc : KvsAlloc) : KvsSm × Int :=
  if alloc.list then
    let sm := { sm with
      kvsSize := sm.kvsSize + (UInt32.ofNat KVS_SNAPSHOT_ENTRY_SIZE + blob.len.toUInt32) }
    if alloc.blob then
      let e := KvsEntry.withBlob ⟨key, 0, none, nofun⟩ blob
      ({ sm with table := Buckets.push KvsEntry.str sm.hash sm.table e }, 0)
    else (sm, 1)
  else (sm, 1)

/-- `write_key`. -/
def writeKey (key : KvsKey) (blob : KvsBlob) (alloc : KvsAlloc) : Option (KvsSm × Int) :=
  match sm.lookupKey key with
  | some e => sm.overwrite e key blob alloc.blob
  | none => some (sm.insert key blob alloc)

/-- The answer to KVS_GET. -/
def readKey (key : KvsKey) (data : SmData) : Option SmData :=
  match sm.lookupKey key with
  | none => some { data with len := 0 }
  | some e =>
    match e.data with
    | some block => some ⟨e.len, block ++ data.data.drop e.len.toNat⟩
    | none => if e.len = 0 then some { data with len := 0 } else none

/-- `apply_kvs_cmd`: the state machine, the value returned, and the answer. -/
def applyKvsCmd (cmd : KvsCmd) (alloc : KvsAlloc) (data : SmData) :
    Option (KvsSm × Int × SmData) :=
  if cmd.type = KVS_PUT then
    (sm.writeKey cmd.key cmd.blob alloc).map fun r => if r.2 ≠ 0 then (r.1, 1, data) else (r.1, 0, data)
  else if cmd.type = KVS_GET then
    (sm.readKey cmd.key data).map fun data => (sm, 0, data)
  else if cmd.type = KVS_RM then some (sm.removeKey cmd.key, 0, data)
  else some (sm, 1, data)

end KvsSm

end Apus
