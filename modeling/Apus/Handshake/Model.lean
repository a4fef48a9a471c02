import Apus.Lib.Run
import Apus.Group.Model
import Apus.Handshake.Endpoint

namespace Apus

open Lib

/-!
# The connection handshake

Servers that connect to each other by RC_SYN, RC_SYNACK and RC_ACK, while slots of the configuration
are emptied and given to new servers.

A datagram stays in the network for good: it is delivered any number of times, at any time and in
any order, or never.  Each server is a process of its own, a server that takes a slot again being
another one, with its own queue pairs and memory regions.  A slot is occupied by the server that was
last let in at it.  When the SID of a server changes, when the configuration moves to another state
and when a server is removed is not restricted.
-/

/-- A datagram; `dst` is the receiver of a unicast. -/
structure Packet where
  src : Nat
  dst : Option UdEp
  msg : UdMsg

structure RcCluster where
  /-- The servers are those below `count`. -/
  count : Nat
  servers : Nat → RcServer
  /-- The datagrams sent so far. -/
  sent : List Packet
  /-- The server that was last let in at a slot. -/
  occupant : Nat → Option Nat

inductive RcLabel
  /-- `exchange_rc_info_cb`. -/
  | exchange (p : Nat)
  /-- `update_rc_info_cb`. -/
  | update (p : Nat)
  /-- `join_cluster_cb`. -/
  | join (p : Nat)
  /-- Server `p` answers the JOIN request of server `q`. -/
  | cltReply (p q : Nat) (id : UInt64)
  /-- Server `p` gets a datagram. -/
  | deliver (p k : Nat)
  | setSid (p : Nat) (sid : UInt64)
  /-- The configuration moves to another state or size. -/
  | resize (p : Nat) (epoch : UInt64) (size0 size1 state : UInt8)
  | removeServer (p i : Nat)
  | updateCid (p : Nat) (cid : DareCid)
  | revokeLogAccess (p : Nat)
  | restoreLogAccess (p : Nat)

/-- The server that a step is made by. -/
def RcLabel.actor : RcLabel → Nat
  | .exchange p | .update p | .join p | .cltReply p _ _ | .deliver p _ | .setSid p _
  | .resize p _ _ _ _ | .removeServer p _ | .updateCid p _ | .revokeLogAccess p
  | .restoreLogAccess p => p

namespace RcCluster

variable (s : RcCluster)

/-- The state after server `p` changed its own state. -/
def set (p : Nat) (server : RcServer) : RcCluster :=
  { s with servers := Function.update s.servers p server }

/-- A datagram is sent. -/
def send (p : Nat) (dst : Option UdEp) (msg : UdMsg) : RcCluster :=
  { s with sent := s.sent ++ [⟨p, dst, msg⟩] }

/-- The reply of a handler is sent. -/
def reply (p : Nat) : Option (UdEp × UdMsg) → RcCluster
  | none => s
  | some (ep, msg) => s.send p (some ep) msg

/-- A datagram reaches server `p`. -/
def reaches (p : Nat) (packet : Packet) : Bool :=
  match packet.dst with
  | none => packet.src != p
  | some ep => ep.ah == some ⟨(s.servers p).dev.lid, (s.servers p).dev.gid⟩ &&
      ep.qpn == (s.servers p).dev.udQpNum

/-- The address handle and the queue pair number of server `p`. -/
def udEpOf (p : Nat) : UdEp where
  lid := (s.servers p).dev.slid
  gid := (s.servers p).dev.gid
  qpn := (s.servers p).dev.udQpNum
  ah := some ⟨(s.servers p).dev.lid, (s.servers p).dev.gid⟩

/-- What the device says about a datagram of server `p`. -/
def wc (p : Nat) : Wc where
  slid := (s.servers p).dev.lid
  srcQp := (s.servers p).dev.udQpNum
  sender := p

/-- `handle_message_from_client`: server `p` handles a datagram of server `q`. -/
def handle (p q : Nat) : UdMsg → RcCluster
  | .join _ gid slid =>
    let s' := s.set p ((s.servers p).handleJoin (s.wc q) gid slid)
    match (s.servers p).joinAt (s.wc q) with
    | none => s'
    | some empty => { s' with occupant := Function.update s.occupant empty (some q) }
  | .cfgReply id idx cid => s.set p ((s.servers p).handleCfgReply id idx cid)
  | .rcSyn msg =>
    let r := (s.servers p).handleRcSyn (s.wc q) msg
    (s.set p r.1).reply p r.2
  | .rcSynack msg =>
    let r := (s.servers p).handleRcSynack (s.wc q) msg
    (s.set p r.1).reply p r.2.1
  | .rcAck _ idx => s.set p ((s.servers p).handleRcAck idx).1

/-- Server `p` has taken part in a handshake. -/
def spoke (p : Nat) : Bool := s.sent.any fun packet => packet.src == p && packet.msg.isRc

end RcCluster

def rcStep (s : RcCluster) (l : RcLabel) : Option RcCluster :=
  if s.count ≤ l.actor then none
  else match l with
  | .exchange p => some (s.send p none (s.servers p).udExchangeRcInfo)
  | .update p => (s.servers p).udUpdateRcInfo.map fun msg => s.send p none msg
  | .join p => some (s.send p none
      (.join (s.servers p).requestId (s.servers p).dev.gid (s.servers p).dev.slid))
  | .cltReply p q id => some (s.send p (some (s.udEpOf q))
      ((s.servers p).cltReply (s.servers q).dev.slid id))
  | .deliver p k => s.sent[k]?.bind fun packet =>
      -- `ud_get_message` drops what comes from the own port
      if s.reaches p packet && (s.servers packet.src).dev.lid != (s.servers p).dev.lid then
        some (s.handle p packet.src packet.msg)
      else none
  | .setSid p sid => some (s.set p { s.servers p with sid := sid })
  | .resize p epoch size0 size1 state => some (s.set p { s.servers p with
      cid := { (s.servers p).cid with
        epoch := epoch, size0 := size0, size1 := size1, state := state } })
  | .removeServer p i => some (s.set p ((s.servers p).removeServer i))
  | .updateCid p cid => ((s.servers p).updateCid cid).map (s.set p)
  | .revokeLogAccess p => some (s.set p (s.servers p).revokeLogAccess)
  | .restoreLogAccess p => (s.servers p).restoreLogAccess.map (s.set p)

/-- The steps. -/
def RcStep (s : RcCluster) (l : RcLabel) (s' : RcCluster) : Prop := rcStep s l = some s'

/-- A server at start-up: one of a group of `n`, or one that wants to join. -/
structure FreshServer (n : Nat) (server : RcServer) : Prop where
  cid : server.cid = initCid n
  sid : server.sid = SID_NULL
  requestId : server.requestId = 1
  eps : server.eps = fun _ => initIbEp

/-- A group of `n` servers at start-up, and servers that may join it; no two have one address. -/
def rcInit (s : RcCluster) : Prop :=
  ∃ n, 0 < n ∧ n ≤ MAX_SERVER_COUNT ∧ n ≤ s.count ∧ s.sent = [] ∧
    (s.occupant = fun i => if i < n then some i else none) ∧
    (∀ p < n, (s.servers p).idx.toNat = p) ∧
    (∀ p < s.count, ∃ m, (p < n → m = n) ∧ FreshServer m (s.servers p)) ∧
    ∀ p < s.count, ∀ q < s.count, (s.servers p).dev.addr = (s.servers q).dev.addr → p = q

end Apus
