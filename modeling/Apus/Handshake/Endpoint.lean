import Apus.Election.Sid
import Apus.Group.Handlers

namespace Apus

/-!
# Connections between servers

What a server stores for each slot of the configuration in order to access the memory of the server
there (`dare_ib_ep_t`), and the functions that change it: the handlers of RC_SYN, RC_SYNACK and
RC_ACK (`dare_ibv_ud.c`), the two that connect and disconnect a slot and the two that withdraw and
grant access to the log (`dare_ibv_rc.c`), and the handlers of JOIN and CFG_REPLY as far as they
touch it.

A queue pair of the device is either in its RESET state or connected, with the attributes it was
given on the way from RESET to RTS; the calls of the device succeed.  The numbers of its queue pairs
and its memory regions are fixed when a server starts.
-/

/-! ### The connection record -/

/-- `LOG_QP` and `CTRL_QP`. -/
inductive QpId
  | log
  | ctrl
  deriving DecidableEq, Repr

/-- `union ibv_gid`. -/
abbrev Gid := BitVec 128

/-- `rem_mem_t`: a remote memory region. -/
structure RemMem where
  raddr : UInt64
  rkey : UInt32
  deriving DecidableEq, Repr, Inhabited

/-- An address handle (`ud_ah_create`). -/
structure AddrHandle where
  dlid : UInt16
  dgid : Gid
  deriving DecidableEq, Repr

/-- `ud_ep_t`: where to send the datagrams for a server. -/
structure UdEp where
  lid : UInt16
  gid : Gid
  qpn : UInt32
  ah : Option AddrHandle
  deriving DecidableEq, Repr, Inhabited

/-- The attributes of a connected queue pair that come from the record of the slot. -/
structure QpAttr where
  destQpNum : UInt32
  pathMtu : Nat
  dlid : UInt16
  dgid : Gid
  deriving DecidableEq, Repr

/-- `dare_ib_ep_t`: the record of a slot. -/
structure IbEp where
  udEp : UdEp
  /-- `rc_ep.rmt_mr`. -/
  rmtMr : QpId → RemMem
  /-- `rc_ep.rc_qp[].qpn`: the numbers of the remote queue pairs. -/
  qpn : QpId → UInt32
  /-- The own queue pairs for the slot; `none` in the RESET state. -/
  qp : QpId → Option QpAttr
  mtu : Nat
  rcConnected : Bool
  logAccess : Bool
  /-- Not part of the program: the server whose message the record comes from, as long as the slot
      was neither disconnected nor given to a new server since. -/
  source : Option Nat

/-- The record of a slot at start-up. -/
def initIbEp : IbEp where
  udEp := default
  rmtMr := fun _ => default
  qpn := fun _ => 0
  qp := fun _ => none
  mtu := 0
  rcConnected := false
  logAccess := false
  source := none

namespace IbEp

/-- `rc_qp_reset`. -/
def resetQp (ep : IbEp) (q : QpId) : IbEp := { ep with qp := Function.update ep.qp q none }

/-- `rc_connect_server`, and `rc_qp_reset_to_rts`: RESET->INIT->RTR->RTS. -/
def connectQp (ep : IbEp) (q : QpId) : IbEp :=
  { ep with qp := Function.update ep.qp q (some ⟨ep.qpn q, ep.mtu, ep.udEp.lid, ep.udEp.gid⟩) }

/-- `rc_disconnect_server`. -/
def disconnect (ep : IbEp) : IbEp :=
  if ep.rcConnected then
    ((({ ep with udEp := { ep.udEp with lid := 0, ah := none }
                 rcConnected := false
                 source := none } : IbEp).resetQp .log).resetQp .ctrl)
  else ep

end IbEp

/-! ### Messages -/

/-- What the device says about the sender of a datagram (`struct ibv_wc`), and who it is. -/
structure Wc where
  slid : UInt16
  srcQp : UInt32
  sender : Nat

/-- `rc_syn_t`, the contents of RC_SYN and RC_SYNACK. -/
structure RcSyn where
  id : UInt64
  gid : Gid
  slid : UInt16
  logRm : RemMem
  ctrlRm : RemMem
  mtu : Nat
  idx : UInt8
  size : UInt8
  /-- `qpns[2 * i]` and `qpns[2 * i + 1]`. -/
  qpns : Nat → QpId → UInt32

/-- The datagrams between servers. -/
inductive UdMsg
  | join (id : UInt64) (gid : Gid) (slid : UInt16)
  | cfgReply (id : UInt64) (idx : UInt8) (cid : DareCid)
  | rcSyn (msg : RcSyn)
  | rcSynack (msg : RcSyn)
  | rcAck (id : UInt64) (idx : UInt8)

/-- A message of the handshake. -/
def UdMsg.isRc : UdMsg → Bool
  | .rcSyn _ | .rcSynack _ | .rcAck _ _ => true
  | .join _ _ _ | .cfgReply _ _ _ => false

/-- `wc_to_ud_ep`. -/
def wcToUdEp (wc : Wc) (gid : Gid) (slid : UInt16) : UdEp where
  lid := slid
  gid := gid
  qpn := wc.srcQp
  ah := some ⟨wc.slid, gid⟩

/-- The record of a slot after the data of a RC_SYN or a RC_SYNACK is stored; `i` is the place of
    the numbers of the queue pairs for the receiver. -/
def IbEp.store (ep : IbEp) (mtu : Nat) (wc : Wc) (msg : RcSyn) (i : Nat) : IbEp :=
  { ep with
    udEp := wcToUdEp wc msg.gid msg.slid
    rmtMr := fun
      | .log => msg.logRm
      | .ctrl => msg.ctrlRm
    qpn := msg.qpns i
    mtu := min msg.mtu mtu
    source := some wc.sender }

/-! ### A server -/

/-- What is fixed when a server starts. -/
structure Device where
  lid : UInt16
  gid : Gid
  mtu : Nat
  /-- `get_unique_slid`. -/
  slid : UInt16
  /-- The number of the UD queue pair. -/
  udQpNum : UInt32
  /-- The memory regions of the log and of the control data. -/
  mr : QpId → RemMem
  /-- The numbers of the queue pairs made for each slot (`rc_qp_create`). -/
  qpNum : Nat → QpId → UInt32

/-- The address datagrams for a server are sent to. -/
def Device.addr (dev : Device) : UInt16 × Gid × UInt32 := (dev.lid, dev.gid, dev.udQpNum)

structure RcServer where
  dev : Device
  /-- `config.idx`. -/
  idx : UInt8
  /-- `config.cid`. -/
  cid : DareCid
  sid : UInt64
  /-- `IBDEV->request_id`. -/
  requestId : UInt64
  /-- `config.servers[].ep`. -/
  eps : Nat → IbEp

namespace RcServer

variable (s : RcServer)

/-- `IS_LEADER`. -/
def isLeader : Bool := sidGetL s.sid && sidGetIdx s.sid == s.idx

/-- The record of a slot is changed. -/
def setEp (i : Nat) (ep : IbEp) : RcServer := { s with eps := Function.update s.eps i ep }

/-- The end of storing a record: the CTRL queue pair is connected; on the leader, the LOG queue
    pair, too. -/
def connectNew (ep : IbEp) : IbEp :=
  let ep := ep.connectQp .ctrl
  if s.isLeader then ep.connectQp .log else ep

/-- The slots with a connection, other than the own one, are at least half of the group. -/
def hasMajority : Bool :=
  let size := (getGroupSize s.cid).toNat
  decide (size / 2 ≤ (List.range size).countP fun i =>
    i != s.idx.toNat && cidIsServerOn s.cid i && (s.eps i).rcConnected)

/-- The RC_SYN of `ud_exchange_rc_info`. -/
def udExchangeRcInfo : UdMsg :=
  let size := getExtendedGroupSize s.cid
  .rcSyn {
    id := s.requestId
    gid := s.dev.gid
    slid := s.dev.slid
    logRm := s.dev.mr .log
    ctrlRm := s.dev.mr .ctrl
    mtu := s.dev.mtu
    idx := s.idx
    size := size
    qpns := fun i => if i < size.toNat then s.dev.qpNum i else fun _ => 0 }

/-- `ud_update_rc_info`: the RC_SYN is sent when some slot is not connected. -/
def udUpdateRcInfo : Option UdMsg :=
  if (List.range (getExtendedGroupSize s.cid).toNat).any fun i =>
      i != s.idx.toNat && cidIsServerOn s.cid i && !(s.eps i).rcConnected then
    some s.udExchangeRcInfo
  else none

/-- The RC_SYNACK to the server at slot `i`. -/
def synack (id : UInt64) (i : Nat) : UdMsg :=
  .rcSynack {
    id := id
    gid := s.dev.gid
    slid := s.dev.slid
    logRm := s.dev.mr .log
    ctrlRm := s.dev.mr .ctrl
    mtu := s.dev.mtu
    idx := s.idx
    size := 1
    qpns := fun j => if j = 0 then s.dev.qpNum i else fun _ => 0 }

/-- `handle_rc_syn`. -/
def handleRcSyn (wc : Wc) (msg : RcSyn) : RcServer × Option (UdEp × UdMsg) :=
  if !cidIsServerOn s.cid msg.idx.toNat then (s, none)
  else if msg.size ≤ s.idx then (s, none)
  else
    let ep := s.eps msg.idx.toNat
    let ep :=
      if ep.rcConnected then ep
      else s.connectNew (ep.store s.dev.mtu wc msg s.idx.toNat)
    (s.setEp msg.idx.toNat ep, some (ep.udEp, s.synack msg.id msg.idx.toNat))

/-- `handle_rc_synack`; the flag is the result `REQ_MAJORITY`. -/
def handleRcSynack (wc : Wc) (msg : RcSyn) : RcServer × Option (UdEp × UdMsg) × Bool :=
  if !cidIsServerOn s.cid msg.idx.toNat then (s, none, false)
  else
    let ep := s.eps msg.idx.toNat
    let s' :=
      if ep.rcConnected then s
      else s.setEp msg.idx.toNat
        (s.connectNew { ep.store s.dev.mtu wc msg 0 with rcConnected := true })
    (s', some ((s'.eps msg.idx.toNat).udEp, .rcAck msg.id s.idx),
      !ep.rcConnected && s'.hasMajority)

/-- `handle_rc_ack`. -/
def handleRcAck (idx : UInt8) : RcServer × Bool :=
  if !cidIsServerOn s.cid idx.toNat then (s, false)
  else
    let ep := s.eps idx.toNat
    if ep.rcConnected then (s, false)
    else
      let s' := s.setEp idx.toNat { ep with rcConnected := true }
      (s', s'.hasMajority)

/-! ### Changes of the configuration -/

/-- The slot that `handle_server_join_request` gives to a new server. -/
def joinAt (wc : Wc) : Option Nat :=
  if s.isLeader then joinSlot s.cid (fun i => (s.eps i).udEp.lid) wc.slid else none

/-- `handle_server_join_request`. -/
def handleJoin (wc : Wc) (gid : Gid) (slid : UInt16) : RcServer :=
  match s.joinAt wc with
  | none => s
  | some empty =>
    { s with cid := joinCid s.cid empty }.setEp empty
      { s.eps empty with
        udEp := wcToUdEp wc gid slid
        rcConnected := false
        source := none }

/-- The CFG_REPLY of `ud_send_clt_reply` for the server with the LID `lid`. -/
def cltReply (lid : UInt16) (reqId : UInt64) : UdMsg :=
  let size := (getExtendedGroupSize s.cid).toNat
  let idx := ((List.range size).find? fun i => (s.eps i).udEp.lid == lid).getD size
  .cfgReply reqId (UInt8.ofNat idx) s.cid

/-- `handle_server_join_reply`. -/
def handleCfgReply (id : UInt64) (idx : UInt8) (cid : DareCid) : RcServer :=
  if id < s.requestId then s
  else { s with requestId := s.requestId + 1, idx := idx, cid := cid }

/-- A server of the group is removed: `CID_SERVER_RM` and `dare_ib_disconnect_server`. -/
def removeServer (i : Nat) : RcServer :=
  { s with cid := cidServerRm s.cid i }.setEp i (s.eps i).disconnect

/-- The server at slot `i` is not part of `cid` any more. -/
def departs (cid : DareCid) (i : Nat) : Bool :=
  decide (i < (max cid.size0 cid.size1).toNat) && !cidIsServerOn cid i && cidIsServerOn s.cid i

/-- `update_cid`; a server that is removed shuts down. -/
def updateCid (cid : DareCid) : Option RcServer :=
  if equalCid s.cid cid then some s
  else if s.departs cid s.idx.toNat then none
  else some { s with
    cid := cid
    eps := fun i => if s.departs cid i then (s.eps i).disconnect else s.eps i }

/-! ### Access to the log -/

/-- The loops of `rc_revoke_log_access` and `rc_restore_log_access` get to slot `i`. -/
def reaches (i : Nat) : Bool :=
  decide (i < (getExtendedGroupSize s.cid).toNat) && i != s.idx.toNat && cidIsServerOn s.cid i &&
    (s.eps i).rcConnected

/-- `rc_revoke_log_access`. -/
def revokeLogAccess : RcServer :=
  { s with eps := fun i =>
      if s.reaches i && (s.eps i).logAccess then
        { (s.eps i).resetQp .log with logAccess := false }
      else s.eps i }

/-- Access to the log is given to, or taken up with, the server at a slot. -/
def grant (ep : IbEp) : IbEp :=
  if ep.logAccess then ep else { ep.connectQp .log with logAccess := true }

/-- `rc_restore_log_access`; `none` if it fails. -/
def restoreLogAccess : Option RcServer :=
  let leader := sidGetIdx s.sid
  if leader ≠ s.idx then
    if cidIsServerOn s.cid leader.toNat && (s.eps leader.toNat).rcConnected then
      some (s.setEp leader.toNat (grant (s.eps leader.toNat)))
    else none
  else if sidGetL s.sid then
    some { s with eps := fun i => if s.reaches i then grant (s.eps i) else s.eps i }
  else some s

end RcServer

end Apus
