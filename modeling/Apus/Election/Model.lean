import Apus.Election.Majority
import Apus.Election.Sid
import Apus.Election.Votes
import Apus.Lib.Run

namespace Apus

open Lib

/-!
# Elections

The servers of a cluster as far as their SIDs are concerned: elections, votes, heartbeats, and the
recovery of a server that joins.  A server writes to the memory of the others: the arrays of
`ctrl_data_t` have a slot for each writer.  A write takes its value when it is posted and lands any
time later, in posting order for each pair of servers; when a connection breaks, those that have not
landed are lost.

The functions are those of `dare_server.c`, with what they post.  What else happens to the log and
to the configuration of a server is not restricted; the arming of timers is left out, except for
which of the two heartbeat callbacks is set, so that a callback may run any time.
-/

/-! ### One server -/

/-- `vote_req_t`. -/
structure VoteReq where
  sid : UInt64
  index : UInt64
  term : UInt64
  cid : DareCid
  deriving Inhabited

/-- `sm_rep_t`. -/
structure SmRep where
  sid : UInt64
  raddr : UInt64
  rkey : UInt32
  len : UInt32
  deriving Inhabited

/-- `ctrl_data_t`: the memory that other servers access. -/
structure CtrlData where
  sid : UInt64
  voteReq : Nat → VoteReq
  smRep : Nat → SmRep
  smReq : Nat → UInt64
  hb : Nat → UInt64
  voteAck : Nat → Nat
  rsid : Nat → UInt64
  /-- `prv_data[i].vote_sid`. -/
  voteSid : Nat → UInt64

/-- What `timer_event` does, which goes with the flags of `dare_state`. -/
inductive Progress
  /-- Not `RC_ESTABLISHED`. -/
  | connecting
  /-- `get_replicated_vote_cb`. -/
  | getVote
  /-- `send_sm_request_cb`. -/
  | sendSmRequest
  /-- `recover_log_cb`, with `SM_RECOVERED`. -/
  | recoverLog
  /-- `LOG_RECOVERED`. -/
  | recovered
  deriving DecidableEq

/-- A server. -/
structure Server where
  /-- `config.idx`. -/
  idx : Nat
  cid : DareCid
  ctrl : CtrlData
  log : DareLog
  /-- `rc_connected` of the endpoints. -/
  connected : Nat → Bool
  latestHbReceived : UInt64
  /-- The callback of `hb_event` is `hb_send_cb`. -/
  sendsHb : Bool
  progress : Progress

/-- A write to the slot of the sender in an array of `ctrl_data_t`. -/
inductive RemoteWrite
  | hb (sid : UInt64)
  | voteReq (request : VoteReq)
  | voteAck (commit : Nat)
  | smReq
  | smRep (reply : SmRep)
  | voteSid (sid : UInt64)

/-- A posted write, with the SID that its sender had then. -/
structure Posted where
  write : RemoteWrite
  sid : UInt64

/-- What a function leaves: the server, the writes it has posted, and the SIDs of the candidates it
    has supported, the server itself included. -/
structure Outcome where
  server : Server
  posts : List (Nat × Posted)
  ballots : List UInt64

namespace Server

/-- `get_group_size`. -/
def size (s : Server) : Nat := (getGroupSize s.cid).toNat

def sid (s : Server) : UInt64 := s.ctrl.sid

/-- `server_update_sid`; the compared value is always the current one. -/
def setSid (s : Server) (sid : UInt64) : Server := { s with ctrl := { s.ctrl with sid := sid } }

/-- `IS_NONE`. -/
def isNone (s : Server) : Bool :=
  (sidGetIdx s.sid).toNat == s.idx && !sidGetL s.sid && sidGetTerm s.sid == 0

/-- `IS_CANDIDATE`. -/
def isCandidate (s : Server) : Bool :=
  !s.isNone && (sidGetIdx s.sid).toNat == s.idx && !sidGetL s.sid

/-- A write is posted to this server. -/
def reaches (s : Server) (i : Nat) : Bool := cidIsServerOn s.cid i && s.connected i

/-- The servers a write is posted to when it goes to the whole group. -/
def targets (s : Server) : List Nat :=
  (List.range s.size).filter fun i => i != s.idx && s.reaches i

/-- `post_send` to server `i`. -/
def post (s : Server) (w : RemoteWrite) (i : Nat) : Nat × Posted := (i, ⟨w, s.sid⟩)

/-- A call that posts nothing and supports nobody. -/
def done (s : Server) : Outcome := ⟨s, [], []⟩

/-! #### Candidates -/

/-- Index and term of the last entry, as `rc_send_vote_request` reads them. -/
def lastEntry (log : DareLog) : Option (UInt64 × UInt64) :=
  if isLogEmpty log then some (0, 0)
  else do
    let tail ← logGetTail log
    let entry ← logGetEntry log tail
    return (getU64 log.entries entry, getU64 log.entries (entry + 8))

/-- `rc_send_vote_request`. -/
def sendVoteRequest (s : Server) : Option Outcome := do
  let last ← lastEntry s.log
  let request : VoteReq := ⟨s.sid, last.1, last.2, s.cid⟩
  let s := { s with
    ctrl := { s.ctrl with voteReq := Function.update s.ctrl.voteReq s.idx request } }
  return ⟨s, s.targets.map (s.post (.voteReq request)), []⟩

/-- The SID of a candidate: `[t+1|0|own_idx]`. -/
def candidateSid (s : Server) : UInt64 :=
  sidSetIdx (sidUnsetL (sidSetTerm 0 (sidGetTerm s.sid + 1))) (UInt8.ofNat s.idx)

/-- `start_election`. -/
def startElection (s : Server) : Option Outcome := do
  let s := s.setSid s.candidateSid
  -- clear votes from a previous election
  let s := { s with
    ctrl := { s.ctrl with
      voteAck := fun i => if i < s.size then s.log.len else s.ctrl.voteAck i }
    sendsHb := false }
  let o ← s.sendVoteRequest
  return { o with ballots := [s.sid] }

/-- A function that goes on with `start_election`. -/
def thenElection (s : Server) (posts : List (Nat × Posted)) : Option Outcome :=
  s.startElection.map fun o => { o with posts := posts ++ o.posts }

/-- The commit offset after the loop of `poll_vote_count`. -/
def commitOfVotes (s : Server) : Nat :=
  ((List.range s.size).filter fun i => i != s.idx).foldl (fun commit i =>
    if s.ctrl.voteAck i = s.log.len then commit
    else if logIsOffsetLarger s.log (s.ctrl.voteAck i) commit then s.ctrl.voteAck i
    else commit) s.log.commit

/-- `poll_vote_count`, up to where the new leader goes over its log. -/
def pollVoteCount (s : Server) : Server :=
  let s := { s with log := { s.log with commit := s.commitOfVotes } }
  if votesPass s.cid s.idx s.log.len s.ctrl.voteAck then
    { s.setSid (sidSetL s.sid) with sendsHb := true }
  else s

/-! #### Followers -/

/-- `rc_send_vote_ack`: the ACK is the commit offset. -/
def sendVoteAck (s : Server) : List (Nat × Posted) :=
  let candidate := (sidGetIdx s.sid).toNat
  if s.reaches candidate then [s.post (.voteAck s.log.commit) candidate] else []

/-- The end of a function that sends a vote ACK: if it fails, the server starts an election. -/
def ackOrElect (s : Server) (ackFails : Bool) (posts : List (Nat × Posted)) : Option Outcome :=
  let posts := posts ++ s.sendVoteAck
  if ackFails && s.reaches (sidGetIdx s.sid).toNat then s.thenElection posts
  else some ⟨s, posts, []⟩

/-- `server_to_follower`. -/
def toFollower (s : Server) (ackFails : Bool) (posts : List (Nat × Posted)) : Option Outcome :=
  let s := { s with sendsHb := false }
  if sidGetL s.sid then s.ackOrElect ackFails posts
  else some ⟨s, posts, []⟩

/-- The variables of the loop of `hb_receive_cb`. -/
structure HbScan where
  hb : Nat → UInt64
  latest : UInt64
  newSid : UInt64
  timeout : Bool
  posts : List (Nat × Posted)

/-- One iteration of the loop of `hb_receive_cb`; `leader` is the index in the own SID. -/
def hbScanStep (s : Server) (leader : Nat) (scan : HbScan) (i : Nat) : HbScan :=
  if i = s.idx ∨ cidIsServerOn s.cid i = false then scan
  else
    -- heartbeats from the leader are checked while adjusting the timeout
    let hb := if i = leader ∧ scan.latest ≠ 0 then scan.latest else scan.hb i
    let scan :=
      if i = leader then
        { scan with
          hb := if scan.latest ≠ 0 then scan.hb else Function.update scan.hb i 0
          latest := 0 }
      else { scan with hb := Function.update scan.hb i 0 }
    if hb = 0 then scan
    else if hb < scan.newSid then
      -- `rc_send_hb_reply` to an outdated leader
      if sidGetL hb && s.connected i then
        { scan with posts := scan.posts ++ [s.post (.hb s.sid) i] }
      else scan
    else
      { scan with timeout := false, newSid := if sidGetL hb then hb else scan.newSid }

/-- The loop of `hb_receive_cb`. -/
def hbScan (s : Server) : HbScan :=
  (List.range s.size).foldl (s.hbScanStep (sidGetIdx s.sid).toNat)
    ⟨s.ctrl.hb, s.latestHbReceived, s.sid, true, []⟩

/-- `hb_receive_cb`. -/
def hbReceive (s : Server) (ackFails : Bool) : Option Outcome :=
  if s.size ≤ s.idx then some s.done
  else
    let s := { s with log := { s.log with tail := s.log.len } }
    let scan := s.hbScan
    let s := { s with
      ctrl := { s.ctrl with hb := scan.hb }
      latestHbReceived := scan.latest }
    if scan.timeout then s.thenElection scan.posts
    else if scan.newSid ≠ s.sid then
      let oldSid := s.sid
      let s := s.setSid scan.newSid
      -- with the same term it is from the recently elected leader
      if sidGetTerm oldSid ≠ sidGetTerm s.sid then s.toFollower ackFails scan.posts
      else some ⟨s, scan.posts, []⟩
    else some ⟨s, scan.posts, []⟩

/-- `to_adjust_cb`: the heartbeat of the leader is kept for `hb_receive_cb`. -/
def toAdjust (s : Server) : Server :=
  let leader := (sidGetIdx s.sid).toNat
  let hb := s.ctrl.hb leader
  let s := { s with ctrl := { s.ctrl with hb := Function.update s.ctrl.hb leader 0 } }
  if hb ≠ 0 then { s with latestHbReceived := hb } else s

/-- The loop of `hb_send_cb`: the heartbeats left, and whether some server has sent one that is not
    below the own SID. -/
def hbSendScan (s : Server) : List Nat → (Nat → UInt64) → (Nat → UInt64) × Bool
  | [], hb => (hb, false)
  | i :: is, hb =>
    if i = s.idx ∨ cidIsServerOn s.cid i = false then s.hbSendScan is hb
    else if hb i < s.sid then s.hbSendScan is (Function.update hb i 0)
    else (Function.update hb i 0, true)

/-- `hb_send_cb`. -/
def hbSend (s : Server) (ackFails : Bool) : Option Outcome :=
  let scan := s.hbSendScan (List.range s.size) s.ctrl.hb
  let s := { s with ctrl := { s.ctrl with hb := scan.1 } }
  -- the SID is set to what it was
  if scan.2 then s.toFollower ackFails []
  else some ⟨s, s.targets.map (s.post (.hb s.sid)), []⟩

/-! #### Voters -/

/-- The first loop of `poll_vote_requests`: the best SID, and the requests left. -/
def bestSid (s : Server) : List Nat → UInt64 → (Nat → VoteReq) → UInt64 × (Nat → VoteReq)
  | [], best, requests => (best, requests)
  | i :: is, best, requests =>
    if i = s.idx then s.bestSid is best requests
    else if best ≥ (requests i).sid then
      s.bestSid is best (Function.update requests i { requests i with sid := 0 })
    else s.bestSid is (requests i).sid requests

/-- Index and term of the last entry, as `poll_vote_requests` reads them. -/
def localLast (log : DareLog) : Option (UInt64 × UInt64) := do
  let dets ← logEntriesToNcBuf log
  match dets.getLast? with
  | some det => return (det.idx, det.term)
  | none =>
    let tail ← logGetTail log
    if tail = log.len then return (0, 0)
    else
      let entry ← logGetEntry log tail
      return (getU64 log.entries entry, getU64 log.entries (entry + 8))

/-- The variables of the second loop of `poll_vote_requests`. -/
structure BestRequest where
  best : VoteReq
  highestTerm : UInt64
  requests : Nat → VoteReq

/-- One iteration of the second loop of `poll_vote_requests`. -/
def chooseStep (b : BestRequest) (i : Nat) : BestRequest :=
  let request := b.requests i
  let drop := Function.update b.requests i { request with sid := 0 }
  if b.best.sid > request.sid then { b with requests := drop }
  else
    let highestTerm :=
      if b.highestTerm < sidGetTerm request.sid then sidGetTerm request.sid else b.highestTerm
    if b.best.term > request.term ∨
        b.best.term = request.term ∧ b.best.index > request.index then
      -- the log of the candidate is not good enough
      { b with highestTerm := highestTerm, requests := drop }
    else ⟨request, highestTerm, drop⟩

/-- `update_cid`; `none` if the server is removed, and shuts down. -/
def updateCid (s : Server) (cid : DareCid) : Option Server :=
  if equalCid s.cid cid then some s
  else
    let departs := fun i => decide (i < max cid.size0.toNat cid.size1.toNat) &&
      !cidIsServerOn cid i && cidIsServerOn s.cid i
    if departs s.idx then none
    else some { s with cid := cid, connected := fun i => !departs i && s.connected i }

/-- `rc_replicate_vote`, without the wait for a majority. -/
def replicateVote (s : Server) : Server × List (Nat × Posted) :=
  let s := { s with
    ctrl := { s.ctrl with voteSid := Function.update s.ctrl.voteSid s.idx s.sid } }
  (s, s.targets.map (s.post (.voteSid s.sid)))

/-- What `poll_vote_requests` comes to. -/
inductive Poll
  /-- A leader is known, or there is no better SID. -/
  | ignore (s : Server)
  /-- The local log is better than the remote ones; the server raises its term. -/
  | raise (s : Server)
  /-- A vote for the sender of the request. -/
  | vote (s : Server) (best : VoteReq)

/-- `poll_vote_requests` up to the vote. -/
def pollVoteRequests (s : Server) : Option Poll :=
  -- active leader known
  if sidGetL s.sid then some (.ignore s)
  else
    let hb := s.ctrl.hb (sidGetIdx s.sid).toNat
    if hb ≠ 0 ∧ sidGetTerm hb = sidGetTerm s.sid then some (.ignore (s.setSid hb))
    else
      -- set the L flag to avoid voting twice in the same term
      let oldSid := sidSetL s.sid
      let first := s.bestSid (List.range s.size) oldSid s.ctrl.voteReq
      let s := { s with ctrl := { s.ctrl with voteReq := first.2 } }
      if first.1 = oldSid then some (.ignore s)
      else do
        let last ← localLast s.log
        let b := (List.range s.size).foldl chooseStep
          ⟨⟨oldSid, last.1, last.2, default⟩, sidGetTerm first.1, s.ctrl.voteReq⟩
        let s := { s with ctrl := { s.ctrl with voteReq := b.requests } }
        if b.best.sid = oldSid then
          -- don't vote for anyone
          return .raise (s.setSid
            (sidSetIdx (sidSetTerm s.sid b.highestTerm) (UInt8.ofNat s.idx)))
        else return .vote (s.setSid b.best.sid) b.best

/-! #### Reading from a majority -/

/-- `posted_sends` after an operation was posted to the whole group; `own` is the element of the
    server itself. -/
def postedSends (s : Server) (own : Int) : Nat → Int := groupSends s.size s.idx own s.reaches

/-- `post_send` polls the completion queue, too; these completions come first. -/
def wait (s : Server) (own : Int) (early : List WorkCompletion)
    (polls : List (List WorkCompletion)) : Option ((Nat → Int) × Bool) :=
  waitForMajority s.cid s.connected (emptyCompletionQueue (s.postedSends own) early) polls

/-- The starting SID of a server that joins: leader of term 0. -/
def setUpSid (s : Server) : Server :=
  s.setSid (sidSetL (sidSetIdx (sidSetTerm s.sid 0) (UInt8.ofNat s.idx)))

/-- The end of `rc_get_replicated_vote`: find if there is a better vote SID. -/
def takeVoteSids (posted : Nat → Int) (s : Server) (i : Nat) : Server :=
  if posted i = 0 then
    { s with ctrl := { s.ctrl with
        sid := if s.ctrl.sid < s.ctrl.rsid i then s.ctrl.rsid i else s.ctrl.sid
        rsid := Function.update s.ctrl.rsid i 0 } }
  else s

/-- `rc_get_replicated_vote`, when the reads have been done; without a majority it is called again. -/
def getReplicatedVote (s : Server) (r : (Nat → Int) × Bool) : Server :=
  if r.2 then
    { (List.range s.size).foldl (takeVoteSids r.1) s with progress := .sendSmRequest }
  else s

/-- The search of `rc_verify_leadership` for a better leader. -/
def betterLeader (s : Server) (posted : Nat → Int) : UInt64 :=
  (List.range s.size).foldl (fun newSid i =>
    if i = s.idx ∨ posted i ≠ 0 then newSid
    else if s.ctrl.rsid i > newSid ∧ sidGetL (s.ctrl.rsid i) = true then s.ctrl.rsid i
    else newSid) s.sid

/-- `rc_verify_leadership`, when the reads have been done. -/
def verifyLeadership (s : Server) (r : (Nat → Int) × Bool) (ackFails : Bool) : Option Outcome :=
  let newSid := s.betterLeader r.1
  if newSid ≠ s.sid then (s.setSid newSid).toFollower ackFails []
  else some s.done

/-! #### Recovery -/

/-- `rc_send_sm_request`. -/
def sendSmRequest (s : Server) : Outcome :=
  let s := { s with ctrl := { s.ctrl with smReq := Function.update s.ctrl.smReq s.idx 1 } }
  ⟨s, s.targets.map (s.post .smReq), []⟩

/-- `poll_sm_requests`; `mem` is where the snapshot is. -/
def pollSmRequests (s : Server) (mem : UInt64 × UInt32 × UInt32) : Outcome :=
  let requesters := (List.range s.size).filter fun i => i != s.idx && s.ctrl.smReq i != 0
  let reply : SmRep := ⟨s.sid, mem.1, mem.2.1, mem.2.2⟩
  let s := { s with ctrl := { s.ctrl with
    smReq := fun i => if i ∈ requesters then 0 else s.ctrl.smReq i
    smRep := if requesters = [] then s.ctrl.smRep else Function.update s.ctrl.smRep s.idx reply } }
  ⟨s, (requesters.filter s.connected).map (s.post (.smRep reply)), []⟩

/-- A usable SM reply with a better SID. -/
def smReplyGood (s : Server) (target : Nat) : Bool :=
  let reply := s.ctrl.smRep target
  target != s.idx && decide (reply.sid > s.sid) && reply.raddr != 0 && reply.rkey != 0 &&
    reply.len != 0

/-- `poll_sm_reply`; `recovered` says whether `rc_recover_sm` succeeds. -/
def pollSmReply (s : Server) (recovered : Bool) : Server :=
  match (List.range s.size).find? s.smReplyGood with
  | none => s
  | some target =>
    let s := s.setSid (s.ctrl.smRep target).sid
    if recovered then
      { s with ctrl := { s.ctrl with smRep := fun _ => default }, progress := .recoverLog }
    else s

/-- The end of `recover_log_cb`, when the log is recovered. -/
def recoverLog (s : Server) (ackFails : Bool) : Option Outcome :=
  let s := { s with progress := .recovered }
  if sidGetTerm s.sid = 0 then s.startElection else s.toFollower ackFails []

end Server

/-! ### Runs -/

/-- What the servers that were in each slot have done so far. -/
structure Record where
  /-- The SIDs they have supported. -/
  ballots : Nat → List UInt64
  /-- The highest SID of those that were recovered. -/
  top : Nat → UInt64

/-- The server in slot `i` has called a function. -/
def Record.act (r : Record) (i : Nat) (o : Outcome) : Record where
  ballots := Function.update r.ballots i (r.ballots i ++ o.ballots)
  top := if o.server.progress = .recovered then
    Function.update r.top i (if r.top i < o.server.sid then o.server.sid else r.top i) else r.top

/-- The cluster: its servers, and the writes that have been posted by one server to another and have
    not landed. -/
structure Cluster where
  servers : Nat → Server
  flight : Nat → Nat → List Posted
  record : Record

inductive ElectLabel
  /-- A new server takes a slot. -/
  | take (i : Nat) (cid : DareCid)
  /-- The connections to a majority are established; a server that has not joined starts an
      election. -/
  | established (i : Nat) (joined : Bool)
  /-- A call of `get_replicated_vote_cb`; `arrived` are the servers whose value was read. -/
  | getReplicatedVote (i : Nat) (early : List WorkCompletion) (polls : List (List WorkCompletion))
      (arrived : Nat → Bool)
  | sendSmRequest (i : Nat)
  | pollSmRequests (i : Nat) (mem : UInt64 × UInt32 × UInt32)
  | pollSmReply (i : Nat) (recovered : Bool)
  | recoverLog (i : Nat) (ackFails : Bool)
  | hbReceive (i : Nat) (ackFails : Bool)
  | hbSend (i : Nat) (ackFails : Bool)
  | toAdjust (i : Nat)
  | pollVoteCount (i : Nat)
  | pollVoteRequests (i : Nat) (early : List WorkCompletion) (polls : List (List WorkCompletion))
      (ackFails : Bool)
  | verifyLeadership (i : Nat) (early : List WorkCompletion) (polls : List (List WorkCompletion))
      (arrived : Nat → Bool) (ackFails : Bool)
  /-- The first write from `i` to `j` lands. -/
  | land (i j : Nat)
  /-- The connection from `i` to `j` breaks. -/
  | lose (i j : Nat)
  /-- What other functions do. -/
  | log (i : Nat) (log : DareLog)
  | config (i : Nat) (cid : DareCid)
  | connect (i : Nat) (connected : Nat → Bool)

/-- `init_server_data`. -/
def newServer (i : Nat) (cid : DareCid) : Server where
  idx := i
  cid := cid
  ctrl := {
    sid := SID_NULL
    voteReq := fun _ => ⟨0, 0, 0, ⟨0, 0, 0, 0, 0⟩⟩
    smRep := fun _ => default
    smReq := fun _ => 0
    hb := fun _ => 0
    voteAck := fun _ => 0
    rsid := fun _ => 0
    voteSid := fun _ => 0 }
  log := logNew
  connected := fun _ => false
  latestHbReceived := 0
  sendsHb := false
  progress := .connecting

/-- Nothing was done yet. -/
def electInit (s : Cluster) : Prop :=
  (∀ i, ∃ cid, s.servers i = newServer i cid) ∧ (∀ i j, s.flight i j = []) ∧
    s.record = ⟨fun _ => [], fun _ => 0⟩

/-- The write of server `i` lands in its slot. -/
def RemoteWrite.land (c : CtrlData) (i : Nat) : RemoteWrite → CtrlData
  | .hb sid => { c with hb := Function.update c.hb i sid }
  | .voteReq request => { c with voteReq := Function.update c.voteReq i request }
  | .voteAck commit => { c with voteAck := Function.update c.voteAck i commit }
  | .smReq => { c with smReq := Function.update c.smReq i 1 }
  | .smRep reply => { c with smRep := Function.update c.smRep i reply }
  | .voteSid sid => { c with voteSid := Function.update c.voteSid i sid }

namespace Cluster

/-- The server in slot `i` changes. -/
def set (s : Cluster) (i : Nat) (server : Server) : Cluster :=
  { s with servers := Function.update s.servers i server }

/-- The server in slot `i` has called a function. -/
def act (s : Cluster) (i : Nat) (o : Outcome) : Cluster where
  servers := Function.update s.servers i o.server
  flight := fun a b =>
    if a = i then s.flight a b ++ (o.posts.filter fun p => p.1 == b).map Prod.snd else s.flight a b
  record := s.record.act i o

/-- The first write from `i` to `j` lands. -/
def land (s : Cluster) (i j : Nat) : Cluster :=
  match s.flight i j with
  | [] => s
  | p :: ps =>
    { s with
      servers := Function.update s.servers j
        { s.servers j with ctrl := p.write.land (s.servers j).ctrl i }
      flight := Function.update s.flight i (Function.update (s.flight i) j ps) }

/-- All writes from `i` to `j` land. -/
def flush (s : Cluster) (i j : Nat) : Cluster := (fun s => s.land i j)^[(s.flight i j).length] s

/-- The values that the server reads from other servers are in `rsid`. -/
def readAll (s : Cluster) (server : Server) (arrived : Nat → Bool) (value : Server → UInt64) :
    Server :=
  { server with ctrl := { server.ctrl with
    rsid := fun j => if arrived j then value (s.servers j) else server.ctrl.rsid j } }

end Cluster

/-- The servers whose operation of this round was completed successfully. -/
def succeeded (early : List WorkCompletion) (polls : List (List WorkCompletion)) : List Nat :=
  ((early ++ polls.flatten).filter fun wc => wc.current && wc.status == .success).map
    WorkCompletion.conn

/-- The completions of a round: at most one for each server that an operation was posted to. -/
def roundFits (s : Server) (early : List WorkCompletion) (polls : List (List WorkCompletion)) : Bool :=
  let conns := ((early ++ polls.flatten).filter WorkCompletion.current).map WorkCompletion.conn
  decide conns.Nodup && conns.all fun i => decide (i ∈ s.targets)

/-- The rest of `poll_vote_requests`, for a vote: it is replicated, and then acknowledged. -/
def Cluster.vote (s : Cluster) (i : Nat) (server : Server) (best : VoteReq)
    (early : List WorkCompletion) (polls : List (List WorkCompletion)) (ackFails : Bool) :
    Option Cluster := do
  let server ← server.updateCid best.cid
  let r := server.replicateVote
  if roundFits r.1 early polls = false then none
  else
    let _ ← r.1.wait 0 early polls
    let s := s.act i ⟨r.1, r.2, [best.sid]⟩
    let s := (succeeded early polls).foldl (fun s j => s.flush i j) s
    let o ← { r.1 with sendsHb := false }.ackOrElect ackFails []
    some (s.act i o)

/-- One step; `none` if it is not possible. -/
def electStep (s : Cluster) : ElectLabel → Option Cluster
  | .take i cid =>
    some { s.set i (newServer i cid) with
      -- the memory that was written to is gone
      flight := fun a b => if b = i then [] else s.flight a b }
  | .established i joined =>
    let server := s.servers i
    if server.progress ≠ .connecting ∨ MAX_SERVER_COUNT ≤ i then none
    else if joined then some (s.set i { server with progress := .getVote })
    else ({ server with progress := .recovered }.startElection).map (s.act i)
  | .getReplicatedVote i early polls arrived =>
    if (s.servers i).progress ≠ .getVote then none
    else
      let server := (s.servers i).setUpSid
      -- in a group of two the vote cannot be retrieved
      if server.cid.size0 = 2 then
        some (s.act i { server with progress := .sendSmRequest }.done)
      else if roundFits server early polls = false ∨ !(succeeded early polls).all arrived then none
      else
        let server := s.readAll server arrived fun t => t.ctrl.voteSid i
        (server.wait (-1) early polls).map fun r => s.act i (server.getReplicatedVote r).done
  | .sendSmRequest i =>
    if (s.servers i).progress = .sendSmRequest then some (s.act i (s.servers i).sendSmRequest)
    else none
  | .pollSmRequests i mem =>
    if (s.servers i).progress = .recovered then some (s.act i ((s.servers i).pollSmRequests mem))
    else none
  | .pollSmReply i recovered =>
    if (s.servers i).progress = .getVote ∨ (s.servers i).progress = .sendSmRequest then
      some (s.act i ((s.servers i).pollSmReply recovered).done)
    else none
  | .recoverLog i ackFails =>
    if (s.servers i).progress = .recoverLog then
      ((s.servers i).recoverLog ackFails).map (s.act i)
    else none
  | .hbReceive i ackFails =>
    if (s.servers i).progress = .recovered ∧ (s.servers i).sendsHb = false then
      ((s.servers i).hbReceive ackFails).map (s.act i)
    else none
  | .hbSend i ackFails =>
    if (s.servers i).progress = .recovered ∧ (s.servers i).sendsHb = true then
      ((s.servers i).hbSend ackFails).map (s.act i)
    else none
  | .toAdjust i =>
    if (s.servers i).progress = .recovered then some (s.act i (s.servers i).toAdjust.done) else none
  | .pollVoteCount i =>
    if (s.servers i).progress = .recovered ∧ (s.servers i).isCandidate = true then
      some (s.act i (s.servers i).pollVoteCount.done)
    else none
  | .pollVoteRequests i early polls ackFails =>
    if (s.servers i).progress ≠ .recovered then none
    else do
      match ← (s.servers i).pollVoteRequests with
      | .ignore server => some (s.act i server.done)
      | .raise server => some (s.act i ⟨server, [], [server.sid]⟩)
      | .vote server best => s.vote i server best early polls ackFails
  | .verifyLeadership i early polls arrived ackFails =>
    let server := s.servers i
    if server.progress ≠ .recovered ∨ roundFits server early polls = false ∨
        !(succeeded early polls).all arrived then none
    else do
      let server := s.readAll server arrived Server.sid
      let r ← server.wait 0 early polls
      let o ← server.verifyLeadership r ackFails
      some (s.act i o)
  | .land i j => some (s.land i j)
  | .lose i j =>
    some { s with flight := Function.update s.flight i (Function.update (s.flight i) j []) }
  | .log i log =>
    if log.len = (s.servers i).log.len then some (s.set i { s.servers i with log := log }) else none
  | .config i cid => some (s.set i { s.servers i with cid := cid })
  | .connect i connected => some (s.set i { s.servers i with connected := connected })

/-- The step relation. -/
def ElectStep (s : Cluster) (l : ElectLabel) (s' : Cluster) : Prop := electStep s l = some s'

end Apus
