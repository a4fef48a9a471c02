import Apus.Group.Handlers
import Apus.Log.Tail
import Apus.Lib.Run

namespace Apus

open Lib

/-!
# Log pruning

`log_pruning` and `force_log_pruning` on a leader, during one term.  The leader moves its head offset
to the smallest of the apply offsets it has recorded, and appends that offset in a HEAD entry.

The apply offsets are read from the other servers without waiting for the reads: a recorded offset
is one that its server had at some time before (`land`).  Meanwhile the
servers go on applying (`remoteApplies`), the leader appends, commits and applies entries and changes
its configuration, and servers join.  A server that joins has a slot whose `vote_ack` is `len` until
it acknowledges (`ack`); the leader does not read its apply offset before.
-/

/-- The leader, and the apply offsets of the servers. -/
structure PruneState where
  log : DareLog
  cid : DareCid
  idx : Nat
  term : UInt64
  /-- `ctrl_data->apply_offsets`. -/
  applyOffsets : Nat → Nat
  /-- `ctrl_data->vote_ack`. -/
  voteAck : Nat → Nat
  /-- The apply offset in the log of each other server. -/
  remoteApply : Nat → Nat
  /-- The servers added by a JOIN request that have not acknowledged yet. -/
  joining : Nat → Bool

namespace PruneState

/-- The number of servers of the group, extra ones included. -/
abbrev groupSize (s : PruneState) : Nat := (getExtendedGroupSize s.cid).toNat

/-- The apply offset of a server. -/
def applyOf (s : PruneState) (i : Nat) : Nat := if i = s.idx then s.log.apply else s.remoteApply i

end PruneState

/-! ### `log_pruning` -/

/-- One iteration of the loop: the slot of a server that is OFF is set, and the smallest offset so
    far is updated. -/
def pruneScanStep (s : PruneState) (acc : (Nat → Nat) × Nat) (i : Nat) : (Nat → Nat) × Nat :=
  let applyOffsets :=
    if cidIsServerOn s.cid i then acc.1 else Function.update acc.1 i s.log.apply
  (applyOffsets,
    if logIsOffsetLarger s.log acc.2 (applyOffsets i) then applyOffsets i else acc.2)

/-- The loop over the servers: `apply_offsets`, and the smallest of them. -/
def pruneScan (s : PruneState) : (Nat → Nat) × Nat :=
  (List.range s.groupSize).foldl (pruneScanStep s) (s.applyOffsets, s.log.apply)

/-- The offset that `head` can be moved to: at least one entry is left. -/
def pruneMinOffset (s : PruneState) : Option Nat :=
  if logOffsetEndDistance s.log (pruneScan s).2 = 0 then logGetTail s.log else some (pruneScan s).2

/-- `rc_get_remote_apply_offsets`: the slots that are set at once. -/
def getRemoteApplyOffsets (s : PruneState) : PruneState :=
  { s with applyOffsets := fun i =>
      if i < s.groupSize ∧ (i = s.idx ∨ cidIsServerOn s.cid i = false) then s.log.apply
      else s.applyOffsets i }

/-- `log_pruning`, on a leader; `none` if the search for the tail does not end. -/
def logPruning (s : PruneState) : Option PruneState := do
  let minOffset ← pruneMinOffset s
  let s := { s with applyOffsets := (pruneScan s).1 }
  if logIsOffsetLarger s.log minOffset s.log.head && !s.log.prevLogEntryHead then
    let log := { s.log with head := minOffset }
    let r ← logAppendEntry log s.term 0 0 HEAD { head := UInt64.ofNat minOffset }
    return getRemoteApplyOffsets { s with log := { r.1 with prevLogEntryHead := true } }
  else return getRemoteApplyOffsets s

/-! ### `force_log_pruning` -/

/-- The removal of the slowest server, if one has to be removed.  The slot behind those of the
    servers is set. -/
def removeSlowest (s : PruneState) : Option PruneState :=
  match forceRemoved s.log s.applyOffsets s.cid s.idx with
  | none => some s
  | some target =>
    let cid := cidServerRm s.cid target
    (logAppendEntry s.log s.term 0 0 CONFIG { cid := cid }).map fun r =>
      { s with
        log := r.1
        cid := cid
        applyOffsets := Function.update s.applyOffsets s.groupSize r.1.apply }

/-- `force_log_pruning`. -/
def forceLogPruning (s : PruneState) : Option PruneState :=
  if belowThreshold s.log then some s else (removeSlowest s).bind logPruning

/-! ### JOIN requests -/

/-- `handle_server_join_request`. -/
def handleServerJoinRequest (s : PruneState) (lids : Nat → UInt16) (lid slid : UInt16)
    (reqId : UInt64) : Option PruneState :=
  match joinSlot s.cid lids lid with
  | none => some s
  | some empty =>
    let cid := joinCid s.cid empty
    (logAppendEntry s.log s.term reqId slid CONFIG { cid := cid }).map fun r =>
      { s with
        log := r.1
        cid := cid
        applyOffsets := Function.update s.applyOffsets empty s.log.head
        voteAck := Function.update s.voteAck empty s.log.len
        joining := Function.update s.joining empty true }

/-! ### Runs -/

inductive PruneLabel
  | append (reqId : UInt64) (cltId : UInt16) (type : UInt8) (data : EntryData)
  | commit (off : Nat)
  | apply (off : Nat)
  /-- The leader moves to another configuration, without a new server. -/
  | config (cid : DareCid)
  | join (lids : Nat → UInt16) (lid slid : UInt16) (reqId : UInt64)
  /-- A server acknowledges; `off` is its apply offset if it joined. -/
  | ack (i voteAck off : Nat)
  /-- The apply offset of another server moves on. -/
  | remoteApplies (i off : Nat)
  /-- A read of a remote apply offset takes effect. -/
  | land (i off : Nat)
  | prune
  | forcePrune

/-- A leader at the beginning of its term: the log is not empty, its offsets and the recorded apply
    offsets are in log order, and `head` is not past the apply offset of any server. -/
structure PruneStart (s : PruneState) (hist : List DareLogEntry) (lo u : Nat) : Prop where
  window : LogWindow s.log hist lo u
  nonempty : lo < hist.length
  ends : EndsAt s.log (logPos s.log hist hist.length)
  end_ne : s.log.end_ ≠ s.log.len
  head : IsOffset s.log.len u s.log.head
  /-- The tail is not known, or is that of the last entry. -/
  tail : TailExact s.log hist
  /-- The apply offset is not past the commit offset. -/
  cursors : ∃ ka wa kc wc, PlaceAt s.log hist u ka wa s.log.apply ∧
    PlaceAt s.log hist u kc wc s.log.commit ∧ wa ≤ wc
  /-- A recorded apply offset is one that the server had. -/
  recorded : ∀ i < s.groupSize, cidIsServerOn s.cid i = true →
    ∃ k w n v, PlaceAt s.log hist u k w (s.applyOffsets i) ∧
      PlaceAt s.log hist u n v (s.applyOf i) ∧ w ≤ v
  /-- The leader is a server of its group, which fits the arrays. -/
  leader : s.idx < s.groupSize ∧ cidIsServerOn s.cid s.idx = true
  size : s.cid.size0.toNat ≤ MAX_SERVER_COUNT ∧ s.cid.size1.toNat ≤ MAX_SERVER_COUNT
  joining : ∀ i, s.joining i = false

def pruneInit (s : PruneState) : Prop := ∃ hist lo u, PruneStart s hist lo u

/-- One step.  The offsets move on along the log. -/
def pruneStep (s : PruneState) : PruneLabel → PruneState → Prop
  | .append reqId cltId type data, s' =>
      ∃ r, logAppendEntry s.log s.term reqId cltId type data = some r ∧ s' = { s with log := r.1 }
  | .commit off, s' => (∃ visited, WalkTo s.log s.log.commit visited off) ∧
      s' = { s with log := { s.log with commit := off } }
  | .apply off, s' => (∃ visited, WalkTo s.log s.log.apply visited off) ∧
      (∃ visited, WalkTo s.log off visited s.log.commit) ∧
      s' = { s with log := { s.log with apply := off } }
  | .config cid, s' =>
      (∀ i < (getExtendedGroupSize cid).toNat, cidIsServerOn cid i = true →
        i < s.groupSize ∧ cidIsServerOn s.cid i = true) ∧ s' = { s with cid := cid }
  | .join lids lid slid reqId, s' => handleServerJoinRequest s lids lid slid reqId = some s'
  | .ack i voteAck off, s' => voteAck ≠ s.log.len ∧
      s' = { s with
        voteAck := Function.update s.voteAck i voteAck
        remoteApply := if s.joining i then Function.update s.remoteApply i off else s.remoteApply
        joining := Function.update s.joining i false }
  | .remoteApplies i off, s' => s.joining i = false ∧
      (∃ visited, WalkTo s.log (s.remoteApply i) visited off) ∧
      s' = { s with remoteApply := Function.update s.remoteApply i off }
  | .land i off, s' => i ≠ s.idx ∧ cidIsServerOn s.cid i = true ∧ s.voteAck i ≠ s.log.len ∧
      -- the server had this offset since the last read took effect, or since `head` moved
      (∃ visited, WalkTo s.log (s.applyOffsets i) visited off ∨
        WalkTo s.log s.log.head visited off) ∧
      (∃ visited, WalkTo s.log off visited (s.remoteApply i)) ∧
      s' = { s with applyOffsets := Function.update s.applyOffsets i off }
  | .prune, s' => logPruning s = some s'
  | .forcePrune, s' => forceLogPruning s = some s'

/-- A pruning that leads from `s` to `s'`. -/
structure PrunesSafely (s s' : PruneState) : Prop where
  /-- `head` is not past the apply offset of a server that is ON. -/
  not_past : ∀ i < s'.groupSize, cidIsServerOn s'.cid i = true → s'.joining i = false →
    logIsOffsetLarger s'.log s'.log.head (s'.applyOf i) = false
  /-- `head` does not move backward. -/
  forward : s'.log.head = s.log.head ∨ logIsOffsetLarger s.log s'.log.head s.log.head = true
  /-- `head` does not move while a server that joined has not acknowledged. -/
  constant : ∀ i < s'.groupSize, cidIsServerOn s'.cid i = true → s'.joining i = true →
    s'.log.head = s.log.head
  /-- There is an entry between `head` and the end. -/
  nonempty : ∃ entry, logGetEntry s'.log s'.log.head = some entry

/-! ### The condition -/

/-- An append has room and does not end exactly at the buffer end. -/
structure AppendFits (log : DareLog) (type : UInt8) (data : EntryData) : Prop where
  room : AppendRoom log type data
  noExactFit : endAfterAppend log type data ≠ log.len

/-- The first of the apply offsets of the leader and of the servers that are ON, or the tail in
    front of them. -/
structure FirstApply (log : DareLog) (cid : DareCid) (applyOffsets : Nat → Nat) (off : Nat) :
    Prop where
  mem : off = log.apply ∨ logGetTail log = some off ∨
    ∃ i < (getExtendedGroupSize cid).toNat, cidIsServerOn cid i = true ∧ off = applyOffsets i
  apply : logIsOffsetLarger log off log.apply = false
  recorded : ∀ i < (getExtendedGroupSize cid).toNat, cidIsServerOn cid i = true →
    logIsOffsetLarger log off (applyOffsets i) = false

/-- When `head` can be moved there, the HEAD entry fits. -/
def HeadFits (log : DareLog) (cid : DareCid) (applyOffsets : Nat → Nat) : Prop :=
  ∀ off, FirstApply log cid applyOffsets off → logIsOffsetLarger log off log.head = true →
    log.prevLogEntryHead = false → AppendFits { log with head := off } HEAD
      { head := UInt64.ofNat off }

/-- So do the CONFIG entry of a forced pruning that removes a server, and the HEAD entry behind it. -/
structure RemovalFits (s : PruneState) (target : Nat) : Prop where
  config : AppendFits s.log CONFIG { cid := cidServerRm s.cid target }
  head : ∀ r, logAppendEntry s.log s.term 0 0 CONFIG { cid := cidServerRm s.cid target } = some r →
    HeadFits r.1 (cidServerRm s.cid target) s.applyOffsets

/-- The condition on the steps. -/
def pruneOk (s : PruneState) : PruneLabel → Prop
  | .append _ _ type data => AppendFits s.log type data
  | .config cid => s.idx < (getExtendedGroupSize cid).toNat ∧ cidIsServerOn cid s.idx = true ∧
      cid.size0.toNat ≤ MAX_SERVER_COUNT ∧ cid.size1.toNat ≤ MAX_SERVER_COUNT
  | .join lids lid _ _ => ∀ empty, joinSlot s.cid lids lid = some empty →
      empty < MAX_SERVER_COUNT ∧ AppendFits s.log CONFIG { cid := joinCid s.cid empty }
  | .ack i _ off => s.joining i = true → ∃ visited, WalkTo s.log s.log.head visited off
  | .prune => HeadFits s.log s.cid s.applyOffsets
  | .forcePrune => belowThreshold s.log = false →
      match forceRemoved s.log s.applyOffsets s.cid s.idx with
      | none => HeadFits s.log s.cid s.applyOffsets
      | some target => RemovalFits s target
  | _ => True

end Apus
