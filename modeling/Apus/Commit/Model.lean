import Apus.Log.Window
import Apus.Lib.Run

namespace Apus

open Lib

/-!
# Commit and apply

The part of `update_remote_logs` that writes a follower's log and moves the commit offsets, and
`apply_committed_entries`, on a leader and one of its followers.  The other servers are present
through the reply bytes they set, which may take any value at any time (`ack`).

A step is one call of `update_remote_logs`, one iteration of the loop of
`apply_committed_entries`, an append, an advance of `head`, or one of the leader's posted RDMA
writes taking effect or being completed.

The state carries what the property is about: the entries the leader's commit offset passed,
with the replies counted for each (`passed`), and those the two apply loops went past.  The
commands among these are handed to `proxy_update_state` and `proxy_do_action`.
-/

/-! ### The leader's commit offset -/

/-- `entry->reply[i]`. -/
def replyAt (m : Mem) (entry i : Nat) : UInt8 := getU8 m (entry + REPLY_OFF + i)

/-- The value of `replies` after the loop over the servers. -/
def countReplies (m : Mem) (entry idx size : Nat) : Nat :=
  ((List.range size).filter fun i => i == idx || replyAt m entry i == 1).length

/-- The value of `size` after the loop that looks for a majority of end offsets: that of its
    last round.  The offset this loop computes is overwritten. -/
def commitSize (cid : DareCid) : Nat :=
  if cid.state = CID_TRANSIT then cid.size1.toNat else cid.size0.toNat

/-- An entry that the commit offset passed, with the replies counted for it. -/
structure Pass where
  entry : DareLogEntry
  replies : Nat
  size : Nat

/-- The replies are enough. -/
def Pass.Acked (p : Pass) : Prop := p.size / 2 + 1 ≤ p.replies

/-- The loop over the not committed entries: the offset it stops at and the entries it passes. -/
def commitWalk (log : DareLog) (idx size : Nat) : Nat → Nat → Option (Nat × List Pass)
  | 0, _ => none
  | fuel + 1, minOffset =>
    match logGetEntry log minOffset with
    | none => some (minOffset, [])
    | some entry =>
      if !logFitEntry log entry entry then commitWalk log idx size fuel 0
      else
        let replies := countReplies log.entries entry idx size
        if replies < size / 2 + 1 then some (entry, [])
        else (commitWalk log idx size fuel (entry + logEntryLen log.entries entry)).map
          fun r => (r.1, ⟨readEntry log.entries entry, replies, size⟩ :: r.2)

/-- Update the local commit offset. -/
def updateCommit (log : DareLog) (idx size : Nat) : Option (DareLog × List Pass) :=
  (commitWalk log idx size (walkFuel log) log.commit).map fun r =>
    if logIsOffsetLarger log r.1 log.commit then ({ log with commit := r.1 }, r.2) else (log, [])

theorem updateCommit_len {log log' : DareLog} {idx size : Nat} {passes : List Pass}
    (h : updateCommit log idx size = some (log', passes)) : log'.len = log.len := by
  obtain ⟨r, -, hr⟩ := Option.map_eq_some_iff.mp h
  split at hr <;> obtain ⟨rfl, -⟩ := Prod.mk.inj hr <;> rfl

/-! ### One iteration of the apply loops -/

/-- The condition of the loop of `apply_committed_entries`. -/
def applyGuard (log : DareLog) : Bool := logIsOffsetLarger log log.commit log.apply

/-- Leader data used by `apply_committed_entries`: its log, configuration, index and term. -/
structure Leader where
  log : DareLog
  cid : DareCid
  idx : Nat
  term : UInt64

/-- The configuration that follows the CONFIG entry of an unstable one. -/
def nextCid (cid : DareCid) (entryState : UInt8) : DareCid :=
  if entryState = CID_EXTENDED then { cid with state := CID_TRANSIT }
  else if entryState = CID_TRANSIT then
    -- remove additional servers
    let cid := (List.range' cid.size1.toNat (cid.size0.toNat - cid.size1.toNat)).foldl cidServerRm
      { cid with state := CID_STABLE }
    { cid with size0 := cid.size1, size1 := 0 }
  else cid

/-- The CONFIG entry is unstable and not from a previous configuration. -/
def isUnstableConfig (cid : DareCid) (e : DareLogEntry) : Bool :=
  e.type == CONFIG && e.cid.state != CID_STABLE && !decide (e.cid.epoch < cid.epoch)

/-- The append the leader makes when it applies the CONFIG entry `e`, if it is unstable: with
    the entry's client, unless that got its reply already. -/
def appendNextConfig (l : Leader) (e : DareLogEntry) : Option Leader :=
  if isUnstableConfig l.cid e then
    let cid := nextCid l.cid e.cid.state
    let answered := e.cid.state == CID_EXTENDED && e.reqId != 0
    (logAppendEntry l.log l.term (if answered then 0 else e.reqId) (if answered then 0 else e.cltId)
      CONFIG { cid := cid }).map fun r => { l with log := r.1, cid := cid }
  else some l

/-- The end of an iteration: advance the apply offset past the entry. -/
def advanceApply (log : DareLog) (entry : Nat) : DareLog :=
  { log with apply := entry + logEntryLen log.entries entry }

/-- An iteration on the leader: the entry it goes past, unless that has to be looked up again at
    offset `0`. -/
def applyIterLeader (l : Leader) : Option (Leader × List DareLogEntry) :=
  match logGetEntry l.log l.log.apply with
  | none => none
  | some entry =>
    if !logFitEntry l.log entry entry then some ({ l with log := { l.log with apply := 0 } }, [])
    else
      let e := readEntry l.log.entries entry
      (appendNextConfig l e).map fun l => ({ l with log := advanceApply l.log entry }, [e])

/-- An iteration on a follower. -/
def applyIterFollower (log : DareLog) : Option (DareLog × List DareLogEntry) :=
  match logGetEntry log log.apply with
  | none => none
  | some entry =>
    if !logFitEntry log entry entry then some ({ log with apply := 0 }, [])
    else some (advanceApply log entry, [readEntry log.entries entry])

/-! ### The leader's writes to the follower -/

/-- The steps of a log update: write the entries, then the end offset. -/
inductive LrStep
  | updateLog
  | updateEnd
  deriving DecidableEq

/-- A posted RDMA write: the bytes from an offset forward to another, the end offset, or the
    commit offset.  The two blocks of a write around the buffer end are one write here; the
    follower's end is only written when both are completed. -/
inductive RdmaWrite
  | entries (start stop : Nat)
  | end_ (offset : Nat)
  | commit (offset : Nat)

/-- The leader, its view of the follower, the writes on their way, and the follower's log. -/
structure ReplState where
  leader : Leader
  follower : DareLog
  nextLrStep : LrStep
  sendFlag : Bool
  /-- `log_offsets[i].end`. -/
  remoteEnd : Nat
  /-- `log_offsets[i].commit`. -/
  remoteCommit : Nat
  cachedEndOffset : Nat
  posted : List RdmaWrite
  passed : List Pass
  leaderApplied : List DareLogEntry
  followerApplied : List DareLogEntry

/-- Update the remote log: write the entries, or the end offset of those written. -/
def postUpdate (s : ReplState) : ReplState :=
  if !s.sendFlag then s
  else match s.nextLrStep with
    | .updateLog =>
      if logOffsetEndDistance s.leader.log s.remoteEnd = 0 then s
      else { s with
        cachedEndOffset := s.leader.log.end_
        sendFlag := false
        posted := s.posted ++ [.entries s.remoteEnd s.leader.log.end_] }
    | .updateEnd => { s with
        remoteEnd := s.cachedEndOffset
        sendFlag := false
        posted := s.posted ++ [.end_ s.cachedEndOffset] }

/-- Lazily update the remote commit offset. -/
def postCommit (s : ReplState) : ReplState :=
  if s.nextLrStep = .updateEnd then s
  else if s.remoteCommit = s.remoteEnd ∨ s.remoteCommit = s.leader.log.commit then s
  else
    -- the remote log may not contain all the committed entries
    let remoteCommit :=
      if logIsOffsetLarger s.leader.log s.leader.log.commit s.remoteEnd then s.remoteEnd
      else s.leader.log.commit
    { s with remoteCommit := remoteCommit, posted := s.posted ++ [.commit remoteCommit] }

/-- `update_remote_logs`; `linked` says whether the follower is connected and not suspected. -/
def updateRemoteLogs (s : ReplState) (linked : Bool) : Option ReplState :=
  let s := if linked then postUpdate s else s
  (updateCommit s.leader.log s.leader.idx (commitSize s.leader.cid)).map fun r =>
    let s := { s with leader := { s.leader with log := r.1 }, passed := s.passed ++ r.2 }
    if linked then postCommit s else s

/-- A write takes effect on the follower's log. -/
def landWrite (log : DareLog) (src : Mem) : RdmaWrite → DareLog
  | .entries start stop => { log with entries := ringCopy log.len log.entries src start stop }
  | .end_ offset => { log with end_ := offset }
  | .commit offset => { log with commit := offset }

/-- The writes whose completion the leader waits for. -/
def RdmaWrite.isSignaled : RdmaWrite → Bool
  | .entries _ _ => true
  | .end_ _ => true
  | .commit _ => false

/-! ### Runs -/

inductive ReplLabel
  /-- The leader appends an entry. -/
  | append (term reqId : UInt64) (cltId : UInt16) (type : UInt8) (data : EntryData)
  /-- A byte of the reply array of an entry in the leader's log is written. -/
  | ack (entry i : Nat) (b : UInt8)
  /-- The leader advances `head` over the entries `visited` to `off`. -/
  | prune (visited : List Nat) (off : Nat)
  | update (linked : Bool)
  /-- The first of the posted writes takes effect. -/
  | land
  /-- The completion of a signaled write is handled. -/
  | complete
  /-- The same after a failure: the writes on their way are lost. -/
  | fail
  | applyLeader
  | applyFollower

/-- A new log on both servers, the follower's up to date. -/
def replInit (s : ReplState) : Prop :=
  s.leader.log = logNew ∧ s.follower = logNew ∧ s.nextLrStep = .updateLog ∧ s.sendFlag = true ∧
    s.remoteEnd = 0 ∧ s.remoteCommit = 0 ∧ s.posted = [] ∧ s.passed = [] ∧
    s.leaderApplied = [] ∧ s.followerApplied = []

/-- The append made in an iteration of the leader leaves enough room. -/
def ConfigRoom (l : Leader) : Prop :=
  ∀ entry, logGetEntry l.log l.log.apply = some entry → logFitEntry l.log entry entry = true →
    isUnstableConfig l.cid (readEntry l.log.entries entry) = true →
    AppendRoom l.log CONFIG { cid := nextCid l.cid (readEntry l.log.entries entry).cid.state }

/-- One step.  Every append leaves enough room, and `head` is not advanced past an apply offset:
    both can be reached from it. -/
def replStep (s : ReplState) : ReplLabel → ReplState → Prop
  | .append term reqId cltId type data, s' =>
    AppendRoom s.leader.log type data ∧
      ∃ r, logAppendEntry s.leader.log term reqId cltId type data = some r ∧
        s' = { s with leader := { s.leader with log := r.1 } }
  | .ack entry i b, s' =>
    i < MAX_SERVER_COUNT ∧
      (∃ visited stop, readerWalk s.leader.log (walkFuel s.leader.log) s.leader.log.head =
        some (visited, stop) ∧ entry ∈ visited) ∧
      s' = { s with leader := { s.leader with log :=
        { s.leader.log with entries := setReply s.leader.log.entries entry i b } } }
  | .prune visited off, s' =>
    WalkTo s.leader.log s.leader.log.head visited off ∧
      (∃ vs, WalkTo s.leader.log off vs s.leader.log.apply) ∧
      (∃ vs, WalkTo s.leader.log off vs s.follower.apply) ∧
      s' = { s with leader := { s.leader with log := { s.leader.log with head := off } } }
  | .update linked, s' => updateRemoteLogs s linked = some s'
  | .land, s' => ∃ w ws, s.posted = w :: ws ∧
      s' = { s with follower := landWrite s.follower s.leader.log.entries w, posted := ws }
  | .complete, s' => s.sendFlag = false ∧ (∀ w ∈ s.posted, w.isSignaled = false) ∧
      s' = { s with sendFlag := true, nextLrStep :=
        match s.nextLrStep with
        | .updateLog => .updateEnd
        | .updateEnd => .updateLog }
  | .fail, s' => s.sendFlag = false ∧ s' = { s with sendFlag := true, posted := [] }
  | .applyLeader, s' => applyGuard s.leader.log = true ∧ ConfigRoom s.leader ∧
      ∃ l es, applyIterLeader s.leader = some (l, es) ∧
        s' = { s with leader := l, leaderApplied := s.leaderApplied ++ es }
  | .applyFollower, s' => applyGuard s.follower = true ∧
      ∃ log es, applyIterFollower s.follower = some (log, es) ∧
        s' = { s with follower := log, followerApplied := s.followerApplied ++ es }

end Apus
