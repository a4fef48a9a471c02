import Apus.Lib.Ring
import Apus.Config

namespace Apus

open Lib

/-!
# The log

The circular log of `dare_log.h`: its entries as C structs in a byte buffer, the offsets
that delimit it, and the static functions that read, walk and append.

A pointer to an entry is its offset in the buffer.  The loops of the source take a `fuel`;
a walk moves a single offset of at most `len`, so one that ends does so within `len + 2`
iterations, and the functions that contain such a loop run it with that much fuel and return
`none` when it does not end.
-/

/-! ### Entries -/

/-- Entry types. -/
def NOOP : UInt8 := 0
def CSM : UInt8 := 1
def CONFIG : UInt8 := 2
def HEAD : UInt8 := 3

/-- `sizeof(dare_log_entry_t)`: the fields up to `reply` take 41 bytes, the union starts at
    the next multiple of 8 and takes 16. -/
def ENTRY_SIZE : Nat := 64
/-- `offsetof(dare_log_entry_t, sender)`. -/
def SENDER_OFF : Nat := 27
/-- `offsetof(dare_log_entry_t, reply)`. -/
def REPLY_OFF : Nat := 28
/-- `offsetof(dare_log_entry_t, data)`. -/
def DATA_OFF : Nat := 48
/-- Offset of the first byte of a command: the flexible array after `data.cmd.len`. -/
def CMD_OFF : Nat := 50

/-- The types whose data is a command: everything but `CONFIG`, `HEAD` and `NOOP`. -/
def isCsm (type : UInt8) : Bool := type != NOOP && type != CONFIG && type != HEAD

/-- `sm_cmd_t`: a command of at most 65535 bytes, `len` being 16 bits wide. -/
structure SmCmd where
  cmd : List UInt8
  len_lt : cmd.length < 65536
  deriving DecidableEq

instance : Inhabited SmCmd := ⟨⟨[], Nat.zero_lt_succ 65535⟩⟩

/-- The `void *data` of an append, read as each of the three types the function casts it to. -/
structure EntryData where
  cmd : SmCmd := default
  cid : DareCid := default
  head : UInt64 := 0
  deriving Inhabited

/-- A `dare_log_entry_t` without its bookkeeping bytes (`sender`, `reply`).  Of the union only
    the member that the type selects is meaningful. -/
structure DareLogEntry where
  idx : UInt64
  term : UInt64
  reqId : UInt64
  cltId : UInt16
  type : UInt8
  cmd : List UInt8
  cid : DareCid
  head : UInt64
  deriving DecidableEq, Inhabited

namespace DareLogEntry

/-- Bytes an entry takes in the log. -/
def size (e : DareLogEntry) : Nat := ENTRY_SIZE + e.cmd.length

theorem entrySize_le_size (e : DareLogEntry) : ENTRY_SIZE ≤ e.size := Nat.le_add_right _ _

end DareLogEntry

/-- The entry at offset `o`. -/
def readEntry (m : Mem) (o : Nat) : DareLogEntry where
  idx := getU64 m o
  term := getU64 m (o + 8)
  reqId := getU64 m (o + 16)
  cltId := getU16 m (o + 24)
  type := getU8 m (o + 26)
  cmd := if isCsm (getU8 m (o + 26)) then
    bytes m (o + CMD_OFF) (getU16 m (o + DATA_OFF)).toNat else []
  cid := if getU8 m (o + 26) = CONFIG then readCid m (o + DATA_OFF) else default
  head := if getU8 m (o + 26) = HEAD then getU64 m (o + DATA_OFF) else 0

/-- The entry an append with these arguments creates. -/
def mkEntry (idx term reqId : UInt64) (cltId : UInt16) (type : UInt8) (data : EntryData) :
    DareLogEntry where
  idx := idx
  term := term
  reqId := reqId
  cltId := cltId
  type := type
  cmd := if isCsm type then data.cmd.cmd else []
  cid := if type = CONFIG then data.cid else default
  head := if type = HEAD then data.head else 0

/-! ### The log and its offsets -/

/-- `LOG_SIZE`. -/
def LOG_SIZE : Nat := 16384 * 4096

/-- `dare_log_entry_det_t`: a log entry determinant. -/
structure DareLogEntryDet where
  idx : UInt64
  term : UInt64
  offset : Nat
  deriving DecidableEq, Inhabited

/-- `dare_log_t`, with the global flag `prev_log_entry_head` that belongs to it. -/
structure DareLog where
  /-- Offset of the first entry. -/
  head : Nat
  /-- Offset of the first not applied entry. -/
  apply : Nat
  /-- Offset of the first not committed entry. -/
  commit : Nat
  /-- Offset after the last entry; `len` when the buffer is empty. -/
  end_ : Nat
  /-- Offset of the last entry; `len` when not known. -/
  tail : Nat
  /-- The persist cursor `old_end`. -/
  oldEnd : Nat
  len : Nat
  entries : Mem
  prevLogEntryHead : Bool

/-- `log_new`. -/
def logNew : DareLog where
  head := 0
  apply := 0
  commit := 0
  end_ := LOG_SIZE
  tail := LOG_SIZE
  oldEnd := LOG_SIZE
  len := LOG_SIZE
  entries := fun _ => 0
  prevLogEntryHead := false

/-- `is_log_empty`. -/
def isLogEmpty (log : DareLog) : Bool := log.end_ == log.len

/-- `is_log_full`. -/
def isLogFull (log : DareLog) : Bool := log.end_ == log.head

/-- `log_fit_entry_header`. -/
def logFitEntryHeader (log : DareLog) (offset : Nat) : Bool :=
  decide (log.len - offset ≥ ENTRY_SIZE)

/-- `log_add_new_entry`: the pointer to the new entry, if any. -/
def logAddNewEntry (log : DareLog) : Option Nat :=
  if isLogFull log then none
  else if isLogEmpty log || !logFitEntryHeader log log.end_ then some 0
  else some log.end_

/-- `log_entry_len`. -/
def logEntryLen (m : Mem) (entry : Nat) : Nat :=
  if getU8 m (entry + 26) = NOOP ∨ getU8 m (entry + 26) = CONFIG ∨ getU8 m (entry + 26) = HEAD
  then ENTRY_SIZE
  else ENTRY_SIZE + (getU16 m (entry + DATA_OFF)).toNat

/-- `log_fit_entry`. -/
def logFitEntry (log : DareLog) (offset entry : Nat) : Bool :=
  decide (log.len - offset ≥ logEntryLen log.entries entry)

/-- `log_offset_end_distance`. -/
def logOffsetEndDistance (log : DareLog) (offset : Nat) : Nat :=
  if log.end_ = log.len then 0
  else if log.end_ ≥ offset then log.end_ - offset
  else log.len - (offset - log.end_)

/-- `log_is_offset_larger`: the larger offset is closer to the end. -/
def logIsOffsetLarger (log : DareLog) (loffset roffset : Nat) : Bool :=
  decide (logOffsetEndDistance log loffset < logOffsetEndDistance log roffset)

/-- `log_get_entry`: the entry at `*offset`, if any.  The function also stores the pointer it
    returns in `*offset`. -/
def logGetEntry (log : DareLog) (offset : Nat) : Option Nat :=
  if isLogEmpty log then none
  else if logOffsetEndDistance log offset = 0 then none
  else if !logFitEntryHeader log offset then some 0
  else some offset

/-! ### Walks -/

/-- The walk of `apply_committed_entries`, run to the end of the log: an entry that does not
    fit is looked up again at offset `0`.  Returns the visited entries and the last offset. -/
def readerWalk (log : DareLog) : Nat → Nat → Option (List Nat × Nat)
  | 0, _ => none
  | fuel + 1, offset =>
    match logGetEntry log offset with
    | none => some ([], offset)
    | some entry =>
      if logFitEntry log entry entry then
        (readerWalk log fuel (entry + logEntryLen log.entries entry)).map
          fun r => (entry :: r.1, r.2)
      else readerWalk log fuel 0

/-- `WalkTo log off visited off'`: the variable of the walk of `apply_committed_entries`,
    started at `off`, takes the value `off'` after the entries `visited`.  It takes three kinds
    of values: the pointer `log_get_entry` stores, the `0` of an entry that does not fit, and
    the offset after an entry. -/
inductive WalkTo (log : DareLog) : Nat → List Nat → Nat → Prop
  | refl (off : Nat) : WalkTo log off [] off
  | found {off entry off' : Nat} {visited : List Nat} : logGetEntry log off = some entry →
      WalkTo log entry visited off' → WalkTo log off visited off'
  | rewind {off entry off' : Nat} {visited : List Nat} : logGetEntry log off = some entry →
      logFitEntry log entry entry = false → WalkTo log 0 visited off' → WalkTo log off visited off'
  | visit {off entry off' : Nat} {visited : List Nat} : logGetEntry log off = some entry →
      logFitEntry log entry entry = true →
      WalkTo log (entry + logEntryLen log.entries entry) visited off' →
      WalkTo log off (entry :: visited) off'

/-- The walk of `log_entries_to_nc_buf` and `log_get_tail`: an entry that does not fit is
    taken where its header was left, and its length added from offset `0`. -/
def headerWalk (log : DareLog) : Nat → Nat → Option (List Nat × Nat)
  | 0, _ => none
  | fuel + 1, offset =>
    match logGetEntry log offset with
    | none => some ([], offset)
    | some entry =>
      let offset := if logFitEntry log entry entry then entry else 0
      (headerWalk log fuel (offset + logEntryLen log.entries entry)).map
        fun r => (entry :: r.1, r.2)

/-- Iterations after which a walk that has not ended never ends. -/
def walkFuel (log : DareLog) : Nat := log.len + 2

/-- The determinant of the entry at `entry`. -/
def entryDet (m : Mem) (entry : Nat) : DareLogEntryDet :=
  ⟨getU64 m entry, getU64 m (entry + 8), entry⟩

/-- `log_entries_to_nc_buf`: the determinants of all not committed entries. -/
def logEntriesToNcBuf (log : DareLog) : Option (List DareLogEntryDet) :=
  (headerWalk log (walkFuel log) log.commit).map fun r => r.1.map (entryDet log.entries)

/-- `log_find_remote_end_offset`: the loop over the remote determinants; `offset` is the value
    of the variable when the loop is reached. -/
def logFindRemoteEndOffset (log : DareLog) : Nat → List DareLogEntryDet → Nat
  | offset, [] => offset
  | _, det :: dets =>
    match logGetEntry log det.offset with
    | none => det.offset
    | some entry =>
      if getU64 log.entries entry ≠ det.idx ∨ getU64 log.entries (entry + 8) ≠ det.term then entry
      else
        let offset := if logFitEntry log entry entry then entry else 0
        logFindRemoteEndOffset log (offset + logEntryLen log.entries entry) dets

/-- `log_get_tail`: the cached tail, or the last entry found by a walk from the commit, the
    apply or the head offset. -/
def logGetTail (log : DareLog) : Option Nat :=
  if log.tail ≠ log.len then some log.tail
  else if isLogEmpty log then some log.len
  else do
    let fromCommit ← headerWalk log (walkFuel log) log.commit
    if let some tail := fromCommit.1.getLast? then return tail
    let fromApply ← headerWalk log (walkFuel log) log.apply
    if let some tail := fromApply.1.getLast? then return tail
    let fromHead ← headerWalk log (walkFuel log) log.head
    return fromHead.1.getLast?.getD log.len

/-! ### Append -/

/-- The header fields of a new entry; `memset` clears the reply array, `sender` is not set. -/
def writeHeader (m : Mem) (entry : Nat) (idx term reqId : UInt64) (cltId : UInt16)
    (type : UInt8) : Mem :=
  let m := setU64 m entry idx
  let m := setU64 m (entry + 8) term
  let m := setU64 m (entry + 16) reqId
  let m := setU16 m (entry + 24) cltId
  let m := setU8 m (entry + 26) type
  store m (entry + REPLY_OFF) (List.replicate MAX_SERVER_COUNT 0)

/-- The end of `log_append_entry`: set the new tail and the new end. -/
def logFinishAppend (log : DareLog) (entry : Nat) : DareLog :=
  { log with tail := log.end_, end_ := log.end_ + logEntryLen log.entries entry }

/-- The first part of `log_append_entry`: the tail is looked up unless it is known; `none` if
    that search does not end. -/
def logCacheTail (log : DareLog) : Option DareLog :=
  if log.tail = log.len then (logGetTail log).map fun tail => { log with tail := tail }
  else some log

/-- The index of a new entry, computed from the entry at the tail. -/
def logNewIdx (log : DareLog) : UInt64 :=
  match logGetEntry log log.tail with
  | some lastEntry => getU64 log.entries lastEntry + 1
  | none => 1

/-- The second part of `log_append_entry`: create the new entry and fill in its data. -/
def logCreateEntry (log : DareLog) (idx term reqId : UInt64) (cltId : UInt16) (type : UInt8)
    (data : EntryData) : DareLog × UInt64 :=
  match logAddNewEntry log with
  | none => (log, 0)
  | some entry =>
    let log := { log with entries := writeHeader log.entries entry idx term reqId cltId type }
    let log := if !logFitEntryHeader log log.end_ then { log with end_ := 0 } else log
    if type = CONFIG then
      let log := { log with entries := writeCid log.entries (entry + DATA_OFF) data.cid }
      (logFinishAppend log entry, idx)
    else if type = HEAD then
      let log := { log with entries := setU64 log.entries (entry + DATA_OFF) data.head }
      (logFinishAppend log entry, idx)
    else if type = NOOP then
      (logFinishAppend log entry, idx)
    else
      let cmdLen := UInt16.ofNat data.cmd.cmd.length
      let log := { log with entries := setU16 log.entries (entry + DATA_OFF) cmdLen }
      if logFitEntry log log.end_ entry then
        let log := { log with entries := store log.entries (entry + CMD_OFF) data.cmd.cmd }
        (logFinishAppend log entry, idx)
      else
        -- not enough place for an entry (with the command)
        let log := { log with end_ := 0 }
        match logAddNewEntry log with
        | none => (log, 0)
        | some entry =>
          let log := { log with
            entries := writeHeader log.entries entry idx term reqId cltId type }
          let log := { log with entries := setU16 log.entries (entry + DATA_OFF) cmdLen }
          let log := { log with entries := store log.entries (entry + CMD_OFF) data.cmd.cmd }
          (logFinishAppend log entry, idx)

/-- `log_append_entry`.  Returns the log and the index of the new entry, `0` if the log is
    full; `none` if the search for the tail does not end. -/
def logAppendEntry (log : DareLog) (term reqId : UInt64) (cltId : UInt16) (type : UInt8)
    (data : EntryData) : Option (DareLog × UInt64) := do
  -- avoid double HEAD
  let log := if type ≠ HEAD then { log with prevLogEntryHead := false } else log
  let log ← logCacheTail log
  return logCreateEntry log (logNewIdx log) term reqId cltId type data

end Apus
