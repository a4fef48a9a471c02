import Apus.Commit.Safety
import Apus.Proxy.Streams

namespace Apus

open Lib

/-!
# The service

What a client of the leader's application is part of: the application reads its sockets, the proxy
queues what was read (`SubmitState`), the queue is drained into the leader's log, the log is replicated
(`ReplState`), and the follower writes what it applies to sockets of its own (`FollowerProxy`).

The steps are those of the parts.  The drains are the only appends of client entries; the log that the
proxy's side appends to is the one that is replicated.
-/

/-- The leader of a term with its application, and a follower with its sockets. -/
structure ServiceState where
  submit : SubmitState
  repl : ReplState
  replica : FollowerProxy
  /-- What the application read on each connection. -/
  reads : Nat → List UInt8

/-! ### What is applied -/

/-- `proxy_do_action` for an entry that the follower applies: a `write` takes at most `room` bytes. -/
def FollowerProxy.applyEntry (p : FollowerProxy) (room : Nat) (e : DareLogEntry) : FollowerProxy :=
  if isCsm e.type then
    match doActionToServer e.cltId e.type e.cmd with
    | some action =>
      p.perform (Delivery.taken ⟨action, min room action.data.length, Nat.min_le_right ..⟩)
    | none => p
  else p

/-- `proxy_update_state` for an entry that the leader applies. -/
def ProxyNode.applyEntry (proxy : ProxyNode) (e : DareLogEntry) : ProxyNode :=
  if isCsm e.type then updateHighestRec proxy else proxy

/-! ### The steps -/

inductive ServiceLabel
  | accept (fd : Nat)
  | read (fd : Nat) (buf : List UInt8)
  | close (fd : Nat)
  /-- `get_tailq_message`. -/
  | drain
  /-- A step of the replication; if it is an append, then of an entry that is not a client's. -/
  | server (l : ReplLabel)
  /-- An iteration of `apply_committed_entries` on the follower. -/
  | applyFollower (room : Nat)

namespace ServiceState

/-- The requests go on. -/
def withSubmit (s : ServiceState) (submit : SubmitState) : ServiceState := { s with submit := submit }

/-- The queue was drained into the log. -/
def drained (s : ServiceState) (submit : SubmitState) : ServiceState :=
  { s with submit := submit, repl.leader.log := submit.log }

/-- The leader did a step, in which it applied the entries `es`. -/
def served (s : ServiceState) (repl : ReplState) (es : List DareLogEntry) : ServiceState :=
  { s with
    submit.log := repl.leader.log
    submit.proxy := es.foldl ProxyNode.applyEntry s.submit.proxy
    repl := repl }

/-- The follower applied the entries `es`. -/
def delivered (s : ServiceState) (repl : ReplState) (room : Nat) (es : List DareLogEntry) : ServiceState :=
  { s with
    repl := repl
    replica := es.foldl (fun p e => p.applyEntry room e) s.replica }

end ServiceState

/-- The label is not one of the service's own. -/
def OfServer : ReplLabel → Prop
  | .append _ _ _ type _ => isCsm type = false
  | .applyFollower => False
  | _ => True

instance : ∀ l, Decidable (OfServer l)
  | .append _ _ _ type _ => inferInstanceAs (Decidable (isCsm type = false))
  | .applyFollower => .isFalse id
  | .ack .. | .prune .. | .update _ | .land | .complete | .fail | .applyLeader => .isTrue trivial

def serviceStep (s : ServiceState) : ServiceLabel → ServiceState → Prop
  | .accept fd, s' => ∃ t, SubmitStep s.submit (.accept fd) t ∧ s' = s.withSubmit t
  | .read fd buf, s' => ∃ t, SubmitStep s.submit (.read fd buf) t ∧
      s' = { s.withSubmit t with
        reads := Function.update s.reads (s.submit.conns fd) (s.reads (s.submit.conns fd) ++ buf) }
  | .close fd, s' => ∃ t, SubmitStep s.submit (.close fd) t ∧ s' = s.withSubmit t
  | .drain, s' => ∃ t, SubmitStep s.submit .drain t ∧ s' = s.drained t
  | .server l, s' => OfServer l ∧ ∃ r es, replStep s.repl l r ∧
      r.leaderApplied = s.repl.leaderApplied ++ es ∧ s' = s.served r es
  | .applyFollower room, s' => ∃ r es, replStep s.repl .applyFollower r ∧
      r.followerApplied = s.repl.followerApplied ++ es ∧ s' = s.delivered r room es

/-- Nothing was read yet, and both logs are new. -/
structure ServiceInit (s : ServiceState) : Prop where
  submit : SubmitInit s.submit
  repl : replInit s.repl
  log : s.submit.log = s.repl.leader.log
  highestRec : s.submit.proxy.highestRec = 0
  replica : s.replica = .new
  reads : ∀ c, s.reads c = []

/-! ### The condition -/

instance {log : DareLog} {type : UInt8} {data : EntryData} : Decidable (AppendRoom log type data) :=
  inferInstanceAs (Decidable (_ < _))

/-- Every message of the queue leaves enough room in the log, and none ends exactly at the buffer end. -/
def drainRoom (term : UInt64) : DareLog → List TailqEntry → Bool
  | _, [] => true
  | log, n :: ns => decide (AppendRoom log n.type { cmd := n.cmd }) &&
    endAfterAppend log n.type { cmd := n.cmd } != log.len &&
    match logAppendEntry log term n.reqId n.connectionId n.type { cmd := n.cmd } with
    | some r => drainRoom term r.1 ns
    | none => true

/-- The conditions of the parts: connections have different ids, the queue fits the log, the offsets of the
    log are in order, and no bytes are lost between an application and a socket. -/
def serviceOk (s : ServiceState) : ServiceLabel → Prop
  | .accept fd => connectOk s.submit (.accept fd)
  | .read _ buf => buf.length < 65536
  | .close _ => True
  | .drain => submitOk s.submit .drain ∧ drainRoom s.submit.term s.submit.log s.submit.tailq = true
  | .server l => replOk s.repl l
  | .applyFollower room => ∀ r, applyIterFollower s.repl.follower = some r →
      ∀ e ∈ r.2, e.cmd.length ≤ room

/-! ### Steps that are computed -/

end Apus
