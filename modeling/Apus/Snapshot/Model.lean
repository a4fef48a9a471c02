import Apus.Commit.Model
import Apus.Persist.Model
import Apus.Proxy.Records

namespace Apus

open Lib

/-!
# Snapshots of a follower

`poll_sm_requests` creates a snapshot: the records that `persist_new_entries` stored so far, with
`last_applied_entry`, which `apply_committed_entries` sets.  A joining server applies the records,
and goes on with the log at the offset of that entry (`rc_recover_sm`).

The two loops have cursors of their own, and run at different times.  A run of a follower consists
of calls of `persist_new_entries`, iterations of the loop of `apply_committed_entries`, and the steps
by which a leader and other servers write its log.  A record is given here by the entry it was made
of.
-/

/-- `stablestorage_save_request` stores a record for the entry. -/
def isClient (e : DareLogEntry) : Bool := e.type == CONNECT || e.type == SEND || e.type == CLOSE

/-- The client entries among those at the given offsets. -/
def clientsAt (m : Mem) (offsets : List Nat) : List DareLogEntry :=
  (offsets.map (readEntry m)).filter isClient

/-- The loop of `apply_committed_entries` on a follower; `none` if it is not done within the fuel. -/
def applyLoopFollower : Nat → DareLog → Option (DareLog × List DareLogEntry)
  | 0, _ => none
  | fuel + 1, log =>
    if applyGuard log then
      match applyIterFollower log with
      | none => none
      | some (log, es) => (applyLoopFollower fuel log).map fun r => (r.1, es ++ r.2)
    else some (log, [])

/-- `last_applied_entry` after an iteration: only entries with a command set it.  Its offset is the
    one behind the entry. -/
def noteApplied (log : DareLog) (last : DareLogEntryDet) (e : DareLogEntry) : DareLogEntryDet :=
  if isCsm e.type then ⟨e.idx, e.term, log.apply⟩ else last

/-- A server with its records. -/
structure SnapshotState where
  server : PersistState
  /-- The entries whose records are stored. -/
  db : List DareLogEntry
  lastApplied : DareLogEntryDet
  /-- The entries applied, those of the snapshot the server recovered included. -/
  applied : List DareLogEntry

/-! ### Runs -/

inductive SnapshotLabel
  /-- The server starts or recovers, or its log is written. -/
  | log (l : PersistLabel)
  | persist
  | apply

/-- The steps of other servers, and of the start. -/
def PersistLabel.isExternal : PersistLabel → Bool
  | .start | .recover _ _ _ | .resetTail | .update _ _ _ | .adjust _ _ | .reply _ _ _
  | .setCommit _ | .prune _ => true
  | .lead | .follow | .append _ _ _ _ _ | .setApply _ | .persist => false

/-- A server that starts with the group has no records; one that joins has those of the snapshot it
    applied, and its apply offset. -/
def snapshotInit (s : SnapshotState) : Prop :=
  persistInit s.server ∧ s.lastApplied = ⟨0, 0, 0⟩ ∧ s.applied = s.db ∧ s.db.all isClient = true

/-- One step. -/
def snapshotStep (s : SnapshotState) : SnapshotLabel → SnapshotState → Prop
  | .log l, s' => l.isExternal = true ∧ ∃ server, persistStep s.server l server ∧
      s' = { s with server := server }
  | .persist, s' => s.server.recovered = true ∧
      ∃ fuel r, persistNewEntries s.server.idx s.server.isLeader fuel s.server.log = some r ∧
        s' = { s with
          server := { s.server with
            log := r.1, stored := s.server.stored ++ r.2.map fun v => detKey v.det }
          db := s.db ++ clientsAt s.server.log.entries (r.2.map fun v => v.det.offset) }
  | .apply, s' => s.server.recovered = true ∧ applyGuard s.server.log = true ∧
      ∃ log es, applyIterFollower s.server.log = some (log, es) ∧
        s' = { s with
          server := { s.server with log := log }
          lastApplied := es.foldl (noteApplied log) s.lastApplied
          applied := s.applied ++ es }

/-- A snapshot created now is the applied prefix. -/
structure SnapshotExact (s : SnapshotState) : Prop where
  /-- The records are those of the client entries applied, in order. -/
  records : s.db = s.applied.filter isClient
  /-- `last_applied_entry` is the last entry with a command that was applied. -/
  label : ∀ e, (s.applied.filter fun e => isCsm e.type).getLast? = some e →
    s.lastApplied.idx = e.idx ∧ s.lastApplied.term = e.term
  /-- The records and then the committed entries of the log from the offset of `last_applied_entry`
      on are all client entries applied, and those committed but not applied yet. -/
  replay : ∃ fuel r r',
    applyLoopFollower fuel
      { s.server.log with apply := s.lastApplied.offset } = some r ∧
    applyLoopFollower fuel s.server.log = some r' ∧
    s.db ++ r.2.filter isClient = (s.applied ++ r'.2).filter isClient

/-! ### The condition -/

/-- There is no client entry between the persist cursor and the apply offset. -/
def CursorsMeet (log : DareLog) : Prop :=
  isLogEmpty log = true ∨ ∃ visited,
    (WalkTo log log.apply visited log.oldEnd ∨ WalkTo log log.oldEnd visited log.apply) ∧
      clientsAt log.entries visited = []

/-- The condition on the steps, besides that of the persist cursor: a recovery finds no records and
    a whole log, the log is not cut before the commit offset, nor pruned past the offset of
    `last_applied_entry`, and the commit offset is behind an entry, not before the apply offset. -/
def snapshotOk (s : SnapshotState) : SnapshotLabel → Prop
  | .log (.start) => s.db = [] ∧ s.server.log.apply = 0 ∧ s.server.log.commit = 0
  | .log (.recover target readOk es) => RecoverOk s.server target es ∧ s.db = [] ∧
      s.server.log.apply = 0 ∧
      ∃ visited, WalkTo (rcRecoverLog s.server.log target readOk).1 0 visited
        (rcRecoverLog s.server.log target readOk).1.commit ∧
        (rcRecoverLog s.server.log target readOk).1.commit =
          afterLast (rcRecoverLog s.server.log target readOk).1 0 visited
  | .log (.adjust off n) => AdjustOk s.server off n ∧
      ∃ visited, WalkTo s.server.log s.server.log.commit visited off
  | .log (.setCommit off) => ∃ visited, WalkTo s.server.log s.server.log.apply visited off ∧
      off = afterLast s.server.log s.server.log.apply visited
  | .log (.prune off) => persistOk s.server (.prune off) ∧
      ∃ visited, WalkTo s.server.log off visited s.lastApplied.offset
  | .log l => persistOk s.server l
  | _ => True

end Apus
