import Apus.Group.Handlers
import Apus.Commit.Model

namespace Apus

open Lib

/-!
# The group and its configurations

A run of a group of servers as far as configurations are concerned: who leads, the CONFIG entries in
the logs, the vote requests and JOIN replies that carry a configuration, and the messages whose
handlers use indices of servers.

The log of a server is the list of its entries, offsets being numbers of entries.  A new leader takes
over its log in three steps, the parts of `poll_vote_count`: `win` takes the configuration from the
log, `apply` goes over the committed entries one by one, and `becomeLeader` appends an entry.  Which
server wins, what is committed and what is replicated to whom is not restricted: a run is any order
of these steps.

Configurations are adopted from vote requests and JOIN replies sent any time before.  The byte image
of the log and the contents of the array `apply_offsets` only matter to a forced pruning; they come
with its label.
-/

/-! ### One server -/

/-- A server of the group. -/
structure Member where
  idx : Nat
  /-- `config.cid`, with the request that led to it. -/
  cid : DareCid
  reqId : UInt64
  cltId : UInt16
  /-- `config.cid_idx`: only CONFIG entries with larger indexes are considered. -/
  cidIdx : UInt64
  /-- `config.cid_offset`. -/
  cidOffset : Nat
  term : UInt64
  isLeader : Bool
  /-- The new leader has not appended an entry of its own yet. -/
  takeover : Bool
  log : List DareLogEntry
  commit : Nat
  apply : Nat
  /-- The configurations held since the server became leader, the current one last. -/
  held : List DareCid

namespace Member

/-- The index of a new entry. -/
def newIdx (m : Member) : UInt64 :=
  match m.log.getLast? with
  | some last => last.idx + 1
  | none => 1

/-- `log_append_entry`. -/
def append (m : Member) (reqId : UInt64) (cltId : UInt16) (type : UInt8) (data : EntryData) :
    Member :=
  { m with log := m.log ++ [mkEntry m.newIdx m.term reqId cltId type data] }

/-- The leader changes its configuration and appends it. -/
def reconfigure (m : Member) (cid : DareCid) (reqId : UInt64) (cltId : UInt16) : Member :=
  let m := { m with cid := cid, reqId := reqId, cltId := cltId, held := m.held ++ [cid] }
  m.append reqId cltId CONFIG { cid := cid }

/-- `handle_server_join_request`. -/
def join (m : Member) (lids : Nat → UInt16) (lid slid : UInt16) (reqId : UInt64) : Member :=
  match joinSlot m.cid lids lid with
  | none => m
  | some empty => m.reconfigure (joinCid m.cid empty) reqId slid

/-- `check_failure_count`. -/
def checkFailureCount (m : Member) (failed : Nat → Bool) : Member :=
  let cid := if m.cid.state = CID_STABLE then removeFailed m.cid failed else m.cid
  if equalCid cid m.cid then m else m.reconfigure cid 0 0

/-- `force_log_pruning`, without the pruning of the log. -/
def forceLogPruning (m : Member) (log : DareLog) (applyOffsets : Nat → Nat) : Member :=
  match forceRemoved log applyOffsets m.cid m.idx with
  | none => m
  | some target => m.reconfigure (cidServerRm m.cid target) 0 0

/-- An iteration of the loop of `apply_committed_entries`. -/
def applyEntry (m : Member) : Member :=
  match m.log[m.apply]? with
  | none => m
  | some e =>
    if m.isLeader && isUnstableConfig m.cid e then
      let answered := e.cid.state == CID_EXTENDED && e.reqId != 0
      { m.reconfigure (nextCid m.cid e.cid.state) (if answered then 0 else e.reqId)
          (if answered then 0 else e.cltId) with apply := m.apply + 1 }
    else { m with apply := m.apply + 1 }

/-- An iteration of `poll_config_entries`; the update is skipped for an equal configuration. -/
def pollEntry (m : Member) (e : DareLogEntry) : Member :=
  if e.type == CONFIG && decide (m.cidIdx < e.idx) && !equalCid m.cid e.cid then
    { m with cid := e.cid, reqId := e.reqId, cltId := e.cltId }
  else m

/-- `poll_config_entries`. -/
def pollConfigEntries (m : Member) : Member :=
  { (m.log.drop m.cidOffset).foldl pollEntry m with cidOffset := m.commit }

/-- `poll_vote_count` up to the call of `apply_committed_entries`, when the votes are enough. -/
def win (m : Member) (term : UInt64) : Member :=
  let m := pollConfigEntries { m with term := term, isLeader := true, takeover := true }
  { m with held := [m.cid] }

/-- There is a CONFIG entry behind `cid_offset`. -/
def hasConfigEntry (m : Member) : Bool :=
  (m.log.drop m.cidOffset).any fun e => e.type == CONFIG && decide (m.cidIdx < e.idx)

/-- The configuration a new leader moves to when it has no CONFIG entry to apply; `state` is read
    through the entry the search for one has ended at. -/
def takeOverCid (cid : DareCid) (state : UInt8) : DareCid :=
  if state = CID_EXTENDED then { cid with state := CID_TRANSIT }
  else
    -- remove additional servers
    let extra := List.range' (cid.size1.toNat + 1) ((cid.size0 - 1).toNat - cid.size1.toNat)
    let cid := extra.reverse.foldl cidServerRm { cid with state := CID_STABLE }
    { cid with size0 := cid.size1, size1 := 0 }

/-- The rest of `poll_vote_count`. -/
def becomeLeader (m : Member) (state : UInt8) : Member :=
  let m := { m with takeover := false }
  if m.cid.state = CID_STABLE then
    { m with reqId := 0, cltId := 0 }.append 0 0 CONFIG { cid := m.cid }
  else if m.hasConfigEntry then m.append 0 0 NOOP {}
  else m.reconfigure (takeOverCid m.cid state) m.reqId m.cltId

/-- The server does not lead any more. -/
def stepDown (m : Member) : Member := { m with isLeader := false, takeover := false, held := [] }

/-- `update_cid` with the configuration of a candidate that the server votes for. -/
def voteFor (m : Member) (cid : DareCid) : Member := { m.stepDown with cid := cid }

/-- `handle_server_join_reply`. -/
def joined (m : Member) (idx : Nat) (cid : DareCid) (cidIdx : UInt64) (head : Nat) : Member :=
  { m.stepDown with idx := idx, cid := cid, cidIdx := cidIdx, cidOffset := head }

/-- The leader is done with taking over its log. -/
def inOffice (m : Member) : Bool := m.isLeader && !m.takeover

end Member

/-! ### Runs -/

/-- The group: its servers, the configurations sent in vote requests and JOIN replies, and what the
    handlers did to the arrays of servers. -/
structure GroupState where
  members : Nat → Member
  sent : List DareCid
  accesses : List Access
  prunings : List ForcedPruning

inductive GroupLabel
  /-- A candidate sends vote requests. -/
  | startElection (i : Nat)
  /-- A leader sends a JOIN reply. -/
  | joinReply (i : Nat)
  /-- A server votes for the sender of a vote request with the configuration `cid`. -/
  | vote (i : Nat) (cid : DareCid)
  /-- A new server gets a JOIN reply. -/
  | joined (i idx : Nat) (cid : DareCid) (cidIdx : UInt64) (head : Nat)
  /-- A leader finds that it is not the leader any more. -/
  | follow (i : Nat)
  /-- A follower looks for new CONFIG entries. -/
  | poll (i : Nat)
  | win (i : Nat) (term : UInt64)
  | becomeLeader (i : Nat) (state : UInt8)
  | apply (i : Nat)
  | commit (i n : Nat)
  /-- A leader appends an entry that is not CONFIG. -/
  | append (i : Nat) (reqId : UInt64) (cltId : UInt16) (type : UInt8) (data : EntryData)
  /-- A leader sets the end of a follower's log, or writes its entries behind that end. -/
  | adjust (i n : Nat)
  | update (i j : Nat)
  /-- `rc_recover_log` from another server. -/
  | recover (i j n : Nat)
  | join (i : Nat) (lids : Nat → UInt16) (lid slid : UInt16) (reqId : UInt64)
  | checkFailureCount (i : Nat) (failed : Nat → Bool)
  | forceLogPruning (i : Nat) (log : DareLog) (applyOffsets : Nat → Nat)
  | rcSyn (i : Nat) (msgIdx msgSize : UInt8)
  /-- A RC_SYNACK or a RC_ACK message. -/
  | rcAck (i : Nat) (msgIdx : UInt8) (rcConnected : Bool)

/-- A server's configuration as `init_server_data` sets it up for a group of `n`. -/
def initCid (n : Nat) : DareCid :=
  (List.range n).foldl cidServerAdd
    { epoch := 0, size0 := UInt8.ofNat n, size1 := 0, state := CID_STABLE, bitmask := 0 }

/-- A server of a group of `n` at start-up. -/
def initMember (n i : Nat) : Member where
  idx := i
  cid := initCid n
  reqId := 0
  cltId := 0
  cidIdx := 0
  cidOffset := 0
  term := 0
  isLeader := false
  takeover := false
  log := []
  commit := 0
  apply := 0
  held := []

/-- The group at start-up. -/
def initGroup (n : Nat) : GroupState := ⟨initMember n, [], [], []⟩

/-- A group of at most `MAX_SERVER_COUNT` servers. -/
def groupInit (s : GroupState) : Prop := ∃ n, 0 < n ∧ n ≤ MAX_SERVER_COUNT ∧ s = initGroup n

namespace GroupState

/-- The state after server `i` did something that only concerns itself. -/
def set (s : GroupState) (i : Nat) (m : Member) : GroupState :=
  { s with members := Function.update s.members i m }

/-- The indices that a handler used. -/
def accessed (s : GroupState) (as : List Access) : GroupState :=
  { s with accesses := s.accesses ++ as }

end GroupState

/-- One step; `none` if it is not possible. -/
def groupStep (s : GroupState) : GroupLabel → Option GroupState
  | .startElection i =>
    let m := (s.members i).stepDown
    some { s.set i m with sent := m.cid :: s.sent }
  | .joinReply i =>
    if (s.members i).isLeader then some { s with sent := (s.members i).cid :: s.sent } else none
  | .vote i cid => if cid ∈ s.sent then some (s.set i ((s.members i).voteFor cid)) else none
  | .joined i idx cid cidIdx head =>
    if cid ∈ s.sent then some (s.set i ((s.members i).joined idx cid cidIdx head)) else none
  | .follow i => some (s.set i (s.members i).stepDown)
  | .poll i =>
    if (s.members i).isLeader then none else some (s.set i (s.members i).pollConfigEntries)
  | .win i term =>
    if (s.members i).isLeader then none else some (s.set i ((s.members i).win term))
  | .becomeLeader i state =>
    let m := s.members i
    if m.isLeader && m.takeover && m.apply == m.commit then
      -- the entry is the last one behind `cid_offset`; a pointer to another one, or none, gives
      -- some byte
      match (m.log.drop m.cidOffset).getLast? with
      | some e =>
        if e.type == CONFIG && e.cid.state != state then none
        else some (s.set i (m.becomeLeader state))
      | none => some (s.set i (m.becomeLeader state))
    else none
  | .apply i =>
    if (s.members i).apply < (s.members i).commit then some (s.set i (s.members i).applyEntry)
    else none
  | .commit i n =>
    let m := s.members i
    if m.commit ≤ n ∧ n ≤ m.log.length then some (s.set i { m with commit := n }) else none
  | .append i reqId cltId type data =>
    if (s.members i).inOffice && type != CONFIG then
      some (s.set i ((s.members i).append reqId cltId type data))
    else none
  | .adjust i n => some (s.set i { s.members i with log := (s.members i).log.take n })
  | .update i j =>
    let m := s.members i
    if (s.members j).isLeader && !m.isLeader then
      some (s.set i { m with log := m.log ++ (s.members j).log.drop m.log.length })
    else none
  | .recover i j n =>
    if (s.members i).isLeader then none
    else some (s.set i { s.members i with
      log := (s.members j).log.take n, commit := n, apply := n })
  | .join i lids lid slid reqId =>
    let m := s.members i
    if m.inOffice then
      some ((s.set i (m.join lids lid slid reqId)).accessed (joinAccesses m.cid lids lid))
    else none
  | .checkFailureCount i failed =>
    if (s.members i).inOffice then some (s.set i ((s.members i).checkFailureCount failed)) else none
  | .forceLogPruning i log applyOffsets =>
    let m := s.members i
    if m.inOffice then
      let s := (s.set i (m.forceLogPruning log applyOffsets)).accessed
        (forceAccesses log applyOffsets m.cid m.idx)
      some { s with prunings := s.prunings ++ [forcedPruning log applyOffsets m.cid m.idx] }
    else none
  | .rcSyn i msgIdx msgSize =>
    let m := s.members i
    some (s.accessed (rcSynAccesses m.cid m.idx msgIdx msgSize))
  | .rcAck i msgIdx rcConnected =>
    let m := s.members i
    some (s.accessed (rcAckAccesses m.cid m.idx msgIdx rcConnected))

/-- The step relation. -/
def GroupStep (s : GroupState) (l : GroupLabel) (s' : GroupState) : Prop := groupStep s l = some s'

end Apus
