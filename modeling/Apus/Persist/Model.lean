import Apus.Log.Tail
import Apus.Lib.Run

namespace Apus

open Lib

/-!
# The persist cursor

`persist_new_entries` hands every entry between the private cursor `old_end` and the end of the
log to `proxy_store_cmd`, stamps its sender on a leader, and acknowledges it on a follower
(`rc_send_entries_reply`).  No other function moves that cursor.

The server's log is also written by a leader (`update`, `adjust`), by other servers'
acknowledgements (`reply`), by the server's own appends, and wholesale by `rc_recover_log`.
A run is any sequence of these; every step may come with any bytes and any offset.

The state carries what the property is about: the determinants handed to `proxy_store_cmd`, and
the entries written to the log and not cut off since.
-/

/-! ### One call -/

/-- A reply write of `rc_send_entries_reply`: the server it is sent to, and the offset of the byte
    it sets in both logs. -/
structure ReplyWrite where
  target : UInt8
  offset : Nat
  deriving DecidableEq, Repr

/-- An entry handed to `proxy_store_cmd`, and the reply write made for it. -/
structure Visit where
  det : DareLogEntryDet
  reply : Option ReplyWrite
  deriving DecidableEq

/-- `rc_send_entries_reply`: the local reply byte is set too. -/
def rcSendEntriesReply (log : DareLog) (idx : Nat) (target : UInt8) : DareLog × ReplyWrite :=
  let offset := REPLY_OFF + idx + log.oldEnd
  ({ log with entries := setU8 log.entries offset 1 }, ⟨target, offset⟩)

/-- The body of the loop for the entry the cursor is at: a leader stamps the sender, a follower
    sends a reply to it. -/
def persistEntry (idx : Nat) (isLeader : Bool) (log : DareLog) (entry : Nat) : DareLog × Visit :=
  let det := entryDet log.entries entry
  if isLeader then
    ({ log with entries := setU8 log.entries (entry + SENDER_OFF) (UInt8.ofNat idx) }, ⟨det, none⟩)
  else
    let r := rcSendEntriesReply log idx (getU8 log.entries (entry + SENDER_OFF))
    (r.1, ⟨det, some r.2⟩)

/-- `persist_new_entries`: the log and the entries handed over; `none` if the loop is not done
    within the fuel, or if it follows a null pointer. -/
def persistNewEntries (idx : Nat) (isLeader : Bool) : Nat → DareLog → Option (DareLog × List Visit)
  | 0, _ => none
  | fuel + 1, log =>
    if logIsOffsetLarger log log.end_ log.oldEnd then
      match logGetEntry log log.oldEnd with
      | none => none
      | some entry =>
        let log := { log with oldEnd := entry }
        if !logFitEntry log log.oldEnd entry then
          persistNewEntries idx isLeader fuel { log with oldEnd := 0 }
        else
          let r := persistEntry idx isLeader log entry
          let log := r.1
          (persistNewEntries idx isLeader fuel
            { log with oldEnd := log.oldEnd + logEntryLen log.entries entry }).map
              fun s => (s.1, r.2 :: s.2)
    else some (log, [])

/-! ### Recovery -/

/-- `rc_recover_log` with the offsets and bytes of the target; `readOk` says whether the read of
    the entries succeeded.  Returns the log and whether it is recovered. -/
def rcRecoverLog (log target : DareLog) (readOk : Bool) : DareLog × Bool :=
  if target.end_ = log.len then (log, true)
  else
    let log := { log with end_ := target.end_ }
    -- the log entries wrap around; not necessary to get all entries
    let rmtEnd := if 0 < target.end_ ∧ target.end_ < log.head then 0 else target.end_
    let rmtCommit := if logIsOffsetLarger log target.commit rmtEnd then rmtEnd else target.commit
    let log := { log with end_ := rmtEnd, commit := rmtCommit }
    let len := logOffsetEndDistance log log.head
    if readOk then
      ({ log with entries := copyRange log.entries target.entries log.head len }, true)
    else (log, false)

/-! ### Runs -/

/-- A server, as far as `persist_new_entries` is concerned. -/
structure PersistState where
  log : DareLog
  /-- `config.idx`. -/
  idx : Nat
  /-- `IS_LEADER`. -/
  isLeader : Bool
  /-- The flag `LOG_RECOVERED`. -/
  recovered : Bool
  /-- The index and the term of the entries handed to `proxy_store_cmd`. -/
  stored : List (UInt64 × UInt64)
  /-- The entries written to the log and not cut off since. -/
  written : List DareLogEntry

inductive PersistLabel
  /-- A server of the initial group starts with its new log. -/
  | start
  /-- A call of `rc_recover_log`; `es` are the entries recovered. -/
  | recover (target : DareLog) (readOk : Bool) (es : List DareLogEntry)
  /-- The server becomes leader, or stops to be one. -/
  | lead
  | follow
  /-- `hb_receive_cb` forgets the tail. -/
  | resetTail
  | append (term reqId : UInt64) (cltId : UInt16) (type : UInt8) (data : EntryData)
  /-- A leader writes its log from `rmtEnd` on, the entries `es`, and then its end offset. -/
  | update (ldr : DareLog) (rmtEnd : Nat) (es : List DareLogEntry)
  /-- A leader sets the end offset (`LR_SET_END`), which leaves the first `n` entries. -/
  | adjust (off n : Nat)
  /-- Another server acknowledges an entry. -/
  | reply (entry i : Nat) (b : UInt8)
  /-- The other offsets change. -/
  | setCommit (off : Nat)
  | setApply (off : Nat)
  | prune (off : Nat)
  | persist

/-- A server with a new log: `head` is that of the JOIN reply, and `apply` that of the snapshot. -/
def persistInit (s : PersistState) : Prop :=
  (∃ head apply, s.log = { logNew with head := head, apply := apply }) ∧ s.idx < MAX_SERVER_COUNT ∧
    s.isLeader = false ∧ s.recovered = false ∧ s.stored = [] ∧ s.written = []

/-- The index and the term of a determinant. -/
def detKey (det : DareLogEntryDet) : UInt64 × UInt64 := (det.idx, det.term)

/-- The index and the term of an entry. -/
def entryKey (e : DareLogEntry) : UInt64 × UInt64 := (e.idx, e.term)

/-- One step. -/
def persistStep (s : PersistState) : PersistLabel → PersistState → Prop
  | .start, s' => s.recovered = false ∧ s.log.head = 0 ∧ s.log.end_ = s.log.len ∧
      s' = { s with recovered := true, written := [] }
  | .recover target readOk es, s' => s.recovered = false ∧
      s' = { s with
        log := (rcRecoverLog s.log target readOk).1
        recovered := (rcRecoverLog s.log target readOk).2
        written := es }
  | .lead, s' => s.recovered = true ∧ s' = { s with isLeader := true }
  | .follow, s' => s.recovered = true ∧ s' = { s with isLeader := false }
  | .resetTail, s' => s.recovered = true ∧ s.isLeader = false ∧
      s' = { s with log := { s.log with tail := s.log.len } }
  | .append term reqId cltId type data, s' => s.recovered = true ∧ s.isLeader = true ∧
      ∃ log idx, logAppendEntry s.log term reqId cltId type data = some (log, idx) ∧
        s' = { s with
          log := log
          -- a full log is left as it is
          written := if isLogFull s.log then s.written
            else s.written ++ [mkEntry idx term reqId cltId type data] }
  | .update ldr rmtEnd es, s' => s.recovered = true ∧
      s' = { s with
        log := { s.log with
          entries := ringCopy s.log.len s.log.entries ldr.entries rmtEnd ldr.end_
          end_ := ldr.end_ }
        written := s.written ++ es }
  | .adjust off n, s' => s.recovered = true ∧
      s' = { s with log := { s.log with end_ := off }, written := s.written.take n }
  | .reply entry i b, s' => s.recovered = true ∧
      s' = { s with log := { s.log with entries := setReply s.log.entries entry i b } }
  | .setCommit off, s' => s.recovered = true ∧ s' = { s with log := { s.log with commit := off } }
  | .setApply off, s' => s.recovered = true ∧ s' = { s with log := { s.log with apply := off } }
  | .prune off, s' => s.recovered = true ∧ s' = { s with log := { s.log with head := off } }
  | .persist, s' => s.recovered = true ∧
      ∃ fuel r, persistNewEntries s.idx s.isLeader fuel s.log = some r ∧
        s' = { s with log := r.1, stored := s.stored ++ r.2.map fun v => detKey v.det }

/-- The reply write is made in the reply array of the entry. -/
def Visit.InReplyArray (v : Visit) : Prop :=
  ∀ w ∈ v.reply, v.det.offset + REPLY_OFF ≤ w.offset ∧
    w.offset < v.det.offset + REPLY_OFF + MAX_SERVER_COUNT

/-- A call of `persist_new_entries` terminates, hands over only entries between `head` and the
    end, none of them twice, and sets only bytes of their reply arrays. -/
def PersistsLive (s : PersistState) : Prop :=
  ∃ fuel log visits, persistNewEntries s.idx s.isLeader fuel s.log = some (log, visits) ∧
    (∃ live stop, readerWalk s.log (walkFuel s.log) s.log.head = some (live, stop) ∧
      ∀ v ∈ visits, v.det.offset ∈ live) ∧
    (s.stored ++ visits.map fun v => detKey v.det).Nodup ∧
    ∀ v ∈ visits, v.InReplyArray

/-! ### The condition -/

/-- The offset behind the last of the entries a walk from `off` has visited. -/
def afterLast (log : DareLog) (off : Nat) (visited : List Nat) : Nat :=
  (visited.getLast?.map fun entry => entry + logEntryLen log.entries entry).getD off

/-- The recovery reads a log that holds `es` from offset `0` on, which is where `head` is. -/
structure RecoverOk (s : PersistState) (target : DareLog) (es : List DareLogEntry) : Prop where
  head : s.log.head = 0
  /-- An empty target is not found after a failed read from another one. -/
  empty : target.end_ = s.log.len → s.log.end_ = s.log.len ∧ es = []
  chain : Chain entryFormat target.entries s.log.len 0 es
  end_ : target.end_ ≠ s.log.len → target.end_ = logPos s.log es es.length % s.log.len
  window : logPos s.log es es.length < s.log.len
  increasing : es.Pairwise fun a b => a.idx < b.idx

/-- The append has room, does not end exactly at the buffer end and gets a new index; the offsets
    the tail is searched from are reached from `head`. -/
structure PersistAppendOk (s : PersistState) (type : UInt8) (data : EntryData) : Prop where
  room : AppendRoom s.log type data
  noExactFit : endAfterAppend s.log type data ≠ s.log.len
  head_ne_len : s.log.head ≠ s.log.len
  commit : ∃ visited, WalkTo s.log s.log.head visited s.log.commit
  apply : ∃ visited, WalkTo s.log s.log.head visited s.log.apply
  newIdx : ∀ last ∈ s.written.getLast?, last.idx + 1 ≠ 0

/-- The leader's bytes behind this server's end are the entries `es`, which continue its log; they
    end before the buffer end, and do not reach `head`. -/
structure UpdateOk (s : PersistState) (ldr : DareLog) (rmtEnd : Nat) (es : List DareLogEntry) :
    Prop where
  tail : s.log.tail = s.log.len
  start : rmtEnd = s.log.end_ % s.log.len
  nonempty : es ≠ []
  chain : Chain entryFormat ldr.entries s.log.len (logPos s.log s.written s.written.length) es
  end_ : ldr.end_ =
    advance entryFormat s.log.len (logPos s.log s.written s.written.length) es % s.log.len
  room : (s.log.end_ + s.log.len - s.log.head) % s.log.len +
    (advance entryFormat s.log.len (logPos s.log s.written s.written.length) es -
      logPos s.log s.written s.written.length) < s.log.len
  increasing : (s.written ++ es).Pairwise fun a b => a.idx < b.idx

/-- The end is set behind the last entry left, which is not before the persist cursor. -/
structure AdjustOk (s : PersistState) (off n : Nat) : Prop where
  tail : s.log.tail = s.log.len
  lt_len : off < s.log.len
  reached : ∃ visited, WalkTo s.log s.log.oldEnd visited off ∧
    off = afterLast s.log s.log.oldEnd visited % s.log.len ∧ n = s.stored.length + visited.length

/-- The condition on the steps. -/
def persistOk (s : PersistState) : PersistLabel → Prop
  | .recover target _ es => RecoverOk s target es
  | .append _ _ _ type data => PersistAppendOk s type data
  | .update ldr rmtEnd es => UpdateOk s ldr rmtEnd es
  | .adjust off n => AdjustOk s off n
  | .reply entry i _ => i < MAX_SERVER_COUNT ∧
      ∃ live stop, readerWalk s.log (walkFuel s.log) s.log.head = some (live, stop) ∧ entry ∈ live
  | .prune off => (∃ visited, WalkTo s.log s.log.head visited off) ∧
      (∃ visited, WalkTo s.log off visited s.log.oldEnd) ∧
      (s.log.tail ≠ s.log.len → ∃ visited, WalkTo s.log off visited s.log.tail)
  | _ => True

end Apus
