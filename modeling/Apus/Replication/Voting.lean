import Apus.Election.UpToDate
import Apus.Replication.Matching

namespace Apus

open Lib

/-!
# Committed entries across elections: the cluster

The servers of a cluster with their logs, elections, and commit offsets.  A candidate writes vote
requests to the others (`start_election`), a server compares them with the last entry of its log and
sends its commit offset as an ACK (`poll_vote_requests`), and the candidate counts the ACKs
(`poll_vote_count`).  A leader writes the logs of the others, and moves its commit offset over entries
that have enough replies (`update_remote_logs`).

Any other SID (that of a heartbeat, of a reply to an SM request, …) may come any time (`follow`).

* `voteStep` — one step;
* `CommittedKept` — what is claimed;
* `voteOk` — the condition on the steps.
-/

/-! ### The cluster -/

structure VoteCluster where
  logs : MatchCluster
  ctrl : ServerIdx → CtrlData
  cid : ServerIdx → DareCid
  /-- The writes on their way from a server to another one. -/
  flight : ServerIdx → ServerIdx → List Posted
  /-- The SIDs that a server has supported. -/
  ballots : ServerIdx → List UInt64
  /-- The log of a server behind the last update by the leader of a term. -/
  taken : ServerIdx → UInt64 → List DareLogEntry
  /-- The entries that the commit offset of a leader passed, with its term and their offsets. -/
  passed : List (UInt64 × Nat × DareLogEntry)
  /-- The entries that were before the commit offset of a server when it was set. -/
  past : ServerIdx → List (Nat × DareLogEntry)

/-- Server `i`, as the functions of an election see it. -/
def VoteCluster.server (s : VoteCluster) (i : ServerIdx) : Server where
  idx := i
  cid := s.cid i
  ctrl := s.ctrl i
  log := (s.logs.servers i).log
  connected := fun _ => true
  latestHbReceived := 0
  sendsHb := false
  progress := .recovered

/-- Server `i` has called a function, and the logs are now these. -/
def VoteCluster.act (s : VoteCluster) (i : ServerIdx) (o : Outcome) (logs : MatchCluster) :
    VoteCluster :=
  { s with
    logs := logs
    ctrl := Function.update s.ctrl i o.server.ctrl
    cid := Function.update s.cid i o.server.cid
    flight := fun a b => if a = i then
      s.flight a b ++ (o.posts.filter fun p => p.1 == b.val).map Prod.snd else s.flight a b
    ballots := Function.update s.ballots i (s.ballots i ++ o.ballots) }

/-- The entries before the commit offset, with their offsets. -/
def entriesBefore (log : DareLog) : List (Nat × DareLogEntry) :=
  match readerWalk log (walkFuel log) log.head with
  | none => []
  | some (live, _) => (live.filter fun o => logIsOffsetLarger log log.commit o).map fun o =>
      (o, readEntry log.entries o)

/-- The commit offset of server `i` was set. -/
def VoteCluster.setPast (s : VoteCluster) (i : ServerIdx) (log : DareLog) : VoteCluster :=
  { s with past := Function.update s.past i (s.past i ++ entriesBefore log) }

/-- The offsets of the entries that the loop of `update_remote_logs` goes past. -/
def commitOffsets (log : DareLog) (idx size : Nat) : Nat → Nat → List Nat
  | 0, _ => []
  | fuel + 1, minOffset =>
    match logGetEntry log minOffset with
    | none => []
    | some entry =>
      if !logFitEntry log entry entry then commitOffsets log idx size fuel 0
      else if countReplies log.entries entry idx size < size / 2 + 1 then []
      else entry :: commitOffsets log idx size fuel (entry + logEntryLen log.entries entry)

/-- The entries that the commit offset passes, with their offsets. -/
def passedEntries (log : DareLog) (idx size : Nat) : List (Nat × DareLogEntry) :=
  match commitWalk log idx size (walkFuel log) log.commit with
  | none => []
  | some (stop, _) =>
    if logIsOffsetLarger log stop log.commit then
      (commitOffsets log idx size (walkFuel log) log.commit).map fun o => (o, readEntry log.entries o)
    else []

inductive VoteLabel
  /-- A step of the logs. -/
  | logs (l : MatchLabel)
  /-- A server that joins gets a SID. -/
  | joinSid (i : ServerIdx) (sid : UInt64)
  /-- A server takes another SID, in which it is not leader. -/
  | follow (i : ServerIdx) (sid : UInt64)
  | startElection (i : ServerIdx)
  | pollVoteRequests (i : ServerIdx)
  | pollVoteCount (i : ServerIdx)
  /-- The commit rule of `update_remote_logs`. -/
  | commit (i : ServerIdx)
  /-- The first write from `i` to `j` lands. -/
  | land (i j : ServerIdx)
  /-- The connection from `i` to `j` breaks. -/
  | lose (i j : ServerIdx)
  /-- What other functions do. -/
  | hb (i : ServerIdx) (hb : Nat → UInt64)
  | config (i : ServerIdx) (cid : DareCid)

/-- The steps of the logs, other than those of an election. -/
def IsLogStep : MatchLabel → Prop
  | .lead _ | .follow .. => False
  | _ => True

/-- A step of the logs, with what it leaves on record. -/
def VoteCluster.logStep (s : VoteCluster) (l : MatchLabel) (logs : MatchCluster) : VoteCluster :=
  let t := { s with logs := logs }
  match l with
  | .update q i _ _ => { t with
      taken := Function.update s.taken i
        (Function.update (s.taken i) (s.logs.term q) (logs.servers i).written) }
  | .own i (.setCommit _) => t.setPast i (logs.servers i).log
  | .recover i _ _ _ => if (logs.servers i).recovered then t.setPast i (logs.servers i).log else t
  | _ => t

def voteInit (s : VoteCluster) : Prop :=
  matchInit s.logs ∧ s.flight = (fun _ _ => []) ∧ s.passed = [] ∧
    ∀ i, s.logs.term i = 0 ∧ (∃ cid, s.ctrl i = (newServer i cid).ctrl) ∧ s.ballots i = [] ∧
      (∀ T, s.taken i T = []) ∧ s.past i = []

/-- One step. -/
def voteStep (s : VoteCluster) : VoteLabel → VoteCluster → Prop
  | .logs l, s' => IsLogStep l ∧ ∃ logs, matchStep s.logs l logs ∧ s' = s.logStep l logs
  | .joinSid i sid, s' => (s.logs.servers i).recovered = false ∧
      s' = s.act i ((s.server i).setSid sid).done
        { s.logs with term := Function.update s.logs.term i (sidGetTerm sid) }
  | .follow i sid, s' => ¬(sidGetL sid = true ∧ (sidGetIdx sid).toNat = i) ∧
      ∃ logs, matchStep s.logs (.follow i (sidGetTerm sid)) logs ∧
        s' = s.act i ((s.server i).setSid sid).done logs
  | .startElection i, s' => ∃ o logs, (s.server i).startElection = some o ∧
      matchStep s.logs (.follow i (sidGetTerm o.server.sid)) logs ∧ s' = s.act i o logs
  | .pollVoteRequests i, s' =>
      (∃ server best voter logs, (s.server i).pollVoteRequests = some (.vote server best) ∧
        server.updateCid best.cid = some voter ∧
        matchStep s.logs (.follow i (sidGetTerm best.sid)) logs ∧
        s' = s.act i ⟨voter, voter.sendVoteAck, [best.sid]⟩ logs) ∨
      (∃ server logs, (s.server i).pollVoteRequests = some (.raise server) ∧
        matchStep s.logs (.follow i (sidGetTerm server.sid)) logs ∧
        s' = s.act i ⟨server, [], [server.sid]⟩ logs) ∨
      -- the SID of a heartbeat is taken by `follow`
      ∃ server, (s.server i).pollVoteRequests = some (.ignore server) ∧
        server.sid = (s.ctrl i).sid ∧ s' = s.act i server.done s.logs
  | .pollVoteCount i, s' => (s.server i).isCandidate = true ∧ ∃ logs logs',
      matchStep s.logs (.own i (.setCommit (s.server i).pollVoteCount.log.commit)) logs ∧
      (if sidGetL (s.server i).pollVoteCount.sid = true then matchStep logs (.lead i) logs'
        else logs' = logs) ∧
      s' = (s.act i (s.server i).pollVoteCount.done logs').setPast i (s.server i).pollVoteCount.log
  | .commit i, s' => (s.logs.servers i).isLeader = true ∧ ∃ r logs,
      updateCommit (s.logs.servers i).log i (commitSize (s.cid i)) = some r ∧
      matchStep s.logs (.own i (.setCommit r.1.commit)) logs ∧
      s' = { s with
        logs := logs
        passed := (passedEntries (s.logs.servers i).log i (commitSize (s.cid i))).map
          (fun c => (s.logs.term i, c)) ++ s.passed
        past := Function.update s.past i
          (s.past i ++ passedEntries (s.logs.servers i).log i (commitSize (s.cid i))) }
  | .land i j, s' => ∃ p ps, s.flight i j = p :: ps ∧ s' = { s with
      ctrl := Function.update s.ctrl j (p.write.land (s.ctrl j) i)
      flight := Function.update s.flight i (Function.update (s.flight i) j ps) }
  | .lose i j, s' => s' = { s with
      flight := Function.update s.flight i (Function.update (s.flight i) j []) }
  | .hb i hb, s' => s' = { s with ctrl := Function.update s.ctrl i { s.ctrl i with hb := hb } }
  | .config i cid, s' => s' = { s with cid := Function.update s.cid i cid }

/-- The entry is at this offset of the log, or was there before `head` went past it. -/
def HoldsAt (t : PersistState) (c : Nat × DareLogEntry) : Prop :=
  ∃ live stop, readerWalk t.log (walkFuel t.log) t.log.head = some (live, stop) ∧
    (c.1 ∈ live ∧ readEntry t.log.entries c.1 = c.2 ∨
      c.2 ∈ t.written ∧ ∀ o ∈ live, c.2.idx < (readEntry t.log.entries o).idx)

/-- `poll_vote_count` makes the server a leader. -/
def VoteCluster.Wins (s : VoteCluster) (i : ServerIdx) : Prop :=
  sidGetL (s.server i).pollVoteCount.sid = true

/-- Each term has at most one leader. -/
def onePerTerm (s : VoteCluster) : VoteLabel → Prop
  | .pollVoteCount i => s.Wins i → oneLeader s.logs (.lead i)
  | _ => True

/-- The entries before the commit offset were passed by that of a leader, in a term up to the own
    one. -/
def PassedBefore (s : VoteCluster) (i : ServerIdx) (log : DareLog) : Prop :=
  ∀ c ∈ entriesBefore log, ∃ T, T ≤ s.logs.term i ∧ (T, c) ∈ s.passed

/-- The condition on the writes of the logs: a leader writes to servers of its term only, and has
    appended an entry before; it cuts off entries that it does not have; the commit offsets of the
    others stay behind those of the leaders. -/
def writeOk (s : VoteCluster) : MatchLabel → Prop
  | .own i (.setCommit off) => PassedBefore s i { (s.logs.servers i).log with commit := off }
  | .recover i q readOk es => (∀ e ∈ es, e.term ≤ s.logs.term i) ∧
      ((rcRecoverLog (s.logs.servers i).log (s.logs.servers q).log readOk).2 = true →
        PassedBefore s i (rcRecoverLog (s.logs.servers i).log (s.logs.servers q).log readOk).1)
  | .update q i _ _ => s.logs.term i = s.logs.term q ∧
      ∃ e ∈ (s.logs.servers q).written, e.term = s.logs.term q
  | .adjust q i _ n => s.logs.term i = s.logs.term q ∧
      ∀ e ∈ (s.logs.servers i).written.drop n, e ∉ (s.logs.servers q).written
  | _ => True

/-- The votes are counted in a configuration of the group, and are for the SID of the candidate. -/
structure CountOk (n : Nat) (s : VoteCluster) (i : ServerIdx) : Prop where
  cid : UpsizeChain n (s.cid i)
  member : i < (getGroupSize (s.cid i)).toNat
  voted : ∀ k : ServerIdx,
    hasVoted (s.cid i) i (s.logs.servers i).log.len (s.ctrl i).voteAck k = true →
      (s.ctrl i).sid ∈ s.ballots k

/-- The replies are counted in a configuration of the group, and are those of servers that have taken
    the entry from this leader, which has appended one in its term. -/
structure ReplyOk (n : Nat) (s : VoteCluster) (i : ServerIdx) : Prop where
  cid : UpsizeChain n (s.cid i)
  own : ∃ e ∈ (s.logs.servers i).written, e.term = s.logs.term i
  commit : ∃ visited, WalkTo (s.logs.servers i).log (s.logs.servers i).log.head visited
    (s.logs.servers i).log.commit
  taken : ∀ c ∈ passedEntries (s.logs.servers i).log i (commitSize (s.cid i)), ∀ k : ServerIdx,
    isAcker (s.logs.servers i).log.entries c.1 i k = true → k = i ∨ c.2 ∈ s.taken k (s.logs.term i)

/-- The condition on the steps, for a group of `n` or `n + 1` servers. -/
def voteOk (n : Nat) (s : VoteCluster) (l : VoteLabel) : Prop :=
  onePerTerm s l ∧ match l with
  | .logs l => matchOk s.logs l ∧ writeOk s l
  | .joinSid i sid => sidGetTerm (s.ctrl i).sid ≤ sidGetTerm sid
  | .startElection i => TermLow (s.ctrl i).sid ∧
      Server.lastEntry (s.logs.servers i).log = some (lastIdxTerm (s.logs.servers i).written)
  | .pollVoteRequests i =>
      Server.localLast (s.logs.servers i).log = some (lastIdxTerm (s.logs.servers i).written)
  | .pollVoteCount i => (s.Wins i → CountOk n s i) ∧ PassedBefore s i (s.server i).pollVoteCount.log
  | .commit i => ReplyOk n s i
  | _ => True

end Apus
