import Apus.Log.Basic

namespace Apus

/-!
# Handlers that use the configuration

The parts of the message handlers and of the pruning functions that compute with the
configuration and with indices of servers: the slot a JOIN request gets
(`handle_server_join_request`), the servers the failure count removes (`check_failure_count`), the
server that forced pruning removes (`force_log_pruning`), and the indices that these functions and
the handlers of RC_SYN, RC_SYNACK and RC_ACK use into the arrays of servers.

A message is received with its `idx` and `size` bytes; the test of a handler is that of the bitmask,
`1 << idx` being taken modulo 32.
-/

/-! ### JOIN requests -/

/-- The loop that looks for the first empty entry, from index `i` on downwards; `none` if a server
    that is ON has the LID of the request. -/
def joinScan (cid : DareCid) (lids : Nat → UInt16) (lid : UInt16) : Nat → Nat → Option Nat
  | 0, empty => some empty
  | i + 1, empty =>
    if cidIsServerOn cid i then
      if lids i = lid then none else joinScan cid lids lid i empty
    else joinScan cid lids lid i i

/-- The slot of a new server: the first empty one, or one more than there are. -/
def joinSlot (cid : DareCid) (lids : Nat → UInt16) (lid : UInt16) : Option Nat :=
  if cid.state ≠ CID_STABLE then none
  else joinScan cid lids lid cid.size0.toNat cid.size0.toNat

/-- The configuration with a server added at `empty`. -/
def joinCid (cid : DareCid) (empty : Nat) : DareCid :=
  let added := cidServerAdd cid empty
  if empty = cid.size0.toNat then
    -- add an extra server; the group is later up-sized
    { added with state := CID_EXTENDED, size1 := cid.size0 + 1, epoch := cid.epoch + 1 }
  else added

/-! ### Removals -/

/-- The configuration after the loop of `check_failure_count` on the leader of a stable
    configuration. -/
def removeFailed (cid : DareCid) (failed : Nat → Bool) : DareCid :=
  (List.range (getGroupSize cid).toNat).foldl
    (fun c i => if cidIsServerOn c i && failed i then cidServerRm c i else c) cid

/-- One iteration of the loop of `force_log_pruning`: the smallest apply offset so far, and the
    server that has it. -/
def forceScanStep (log : DareLog) (applyOffsets : Nat → Nat) (acc : Nat × Nat) (i : Nat) :
    Nat × Nat :=
  if logIsOffsetLarger log acc.1 (applyOffsets i) then (applyOffsets i, i) else acc

/-- The value of `target` after that loop. -/
def forceTarget (log : DareLog) (applyOffsets : Nat → Nat) (cid : DareCid) (idx : Nat) : Nat :=
  ((List.range (getExtendedGroupSize cid).toNat).foldl (forceScanStep log applyOffsets)
    (log.apply, idx)).2

/-- The log is not large enough for a forced pruning: below `0.75 * len`. -/
def belowThreshold (log : DareLog) : Bool :=
  decide (4 * logOffsetEndDistance log log.head < 3 * log.len)

/-- The server that forced pruning removes, if any. -/
def forceRemoved (log : DareLog) (applyOffsets : Nat → Nat) (cid : DareCid) (idx : Nat) :
    Option Nat :=
  let target := forceTarget log applyOffsets cid idx
  if belowThreshold log then none
  else if target ≠ idx ∧ cidIsServerOn cid target then some target
  else none

/-! ### Indices -/

/-- The arrays indexed by servers: `config.servers`, and those of `ctrl_data` the handlers use. -/
inductive ServerArray
  | servers
  | voteAck
  | applyOffsets
  deriving DecidableEq, Repr

structure Access where
  array : ServerArray
  index : Nat
  deriving DecidableEq, Repr

/-- The servers that the loop of a JOIN request looks at. -/
def joinScanned (cid : DareCid) (lids : Nat → UInt16) (lid : UInt16) : Nat → List Nat
  | 0 => []
  | i + 1 =>
    if cidIsServerOn cid i then
      if lids i = lid then [i] else i :: joinScanned cid lids lid i
    else joinScanned cid lids lid i

/-- The indices used for a JOIN request. -/
def joinAccesses (cid : DareCid) (lids : Nat → UInt16) (lid : UInt16) : List Access :=
  if cid.state ≠ CID_STABLE then []
  else (joinScanned cid lids lid cid.size0.toNat).map (⟨.servers, ·⟩) ++
    match joinSlot cid lids lid with
    | none => []
    | some empty => [⟨.servers, empty⟩, ⟨.voteAck, empty⟩, ⟨.applyOffsets, empty⟩]

/-- The loop that counts the established connections. -/
def connectionAccesses (cid : DareCid) (idx : Nat) : List Access :=
  ((List.range (getGroupSize cid).toNat).filter fun i => i != idx && cidIsServerOn cid i).map
    (⟨.servers, ·⟩)

/-- The indices used for a RC_SYN message. -/
def rcSynAccesses (cid : DareCid) (idx : Nat) (msgIdx msgSize : UInt8) : List Access :=
  if !cidIsServerOn cid msgIdx.toNat then []
  else if msgSize.toNat ≤ idx then []
  else [⟨.servers, msgIdx.toNat⟩]

/-- The indices used for a RC_SYNACK message, and for a RC_ACK message. -/
def rcAckAccesses (cid : DareCid) (idx : Nat) (msgIdx : UInt8) (rcConnected : Bool) : List Access :=
  if !cidIsServerOn cid msgIdx.toNat then []
  else ⟨.servers, msgIdx.toNat⟩ :: if rcConnected then [] else connectionAccesses cid idx

/-- The slots of `apply_offsets` written by `log_pruning`, and then by
    `rc_get_remote_apply_offsets`. -/
def pruningWrites (cid : DareCid) (idx : Nat) : List Nat :=
  (List.range (getExtendedGroupSize cid).toNat).filter (fun i => !cidIsServerOn cid i) ++
    (List.range (getExtendedGroupSize cid).toNat).filter fun i => i == idx || !cidIsServerOn cid i

/-- What a forced pruning does to `apply_offsets`. -/
structure ForcedPruning where
  /-- The extended group size. -/
  size : Nat
  removed : Option Nat
  written : List Nat

/-- A forced pruning.  The write after a removal is made at the loop variable, which is the size
    after the loop. -/
def forcedPruning (log : DareLog) (applyOffsets : Nat → Nat) (cid : DareCid) (idx : Nat) :
    ForcedPruning where
  size := (getExtendedGroupSize cid).toNat
  removed := forceRemoved log applyOffsets cid idx
  written :=
    if belowThreshold log then []
    else match forceRemoved log applyOffsets cid idx with
      | none => pruningWrites cid idx
      | some target => (getExtendedGroupSize cid).toNat :: pruningWrites (cidServerRm cid target) idx

/-- The indices used by a forced pruning. -/
def forceAccesses (log : DareLog) (applyOffsets : Nat → Nat) (cid : DareCid) (idx : Nat) :
    List Access :=
  if belowThreshold log then []
  else
    let all := List.range (getExtendedGroupSize cid).toNat
    let pruning := forcedPruning log applyOffsets cid idx
    -- the two loops read every slot; the reads of the apply offsets look at every server
    all.map (⟨.applyOffsets, ·⟩) ++ all.map (⟨.servers, ·⟩) ++ all.map (⟨.voteAck, ·⟩) ++
      pruning.removed.toList.map (⟨.servers, ·⟩) ++ pruning.written.map (⟨.applyOffsets, ·⟩)

end Apus
