import Apus.Handshake.Model

namespace Apus

open Lib

/-!
# Connections are with the server at the slot

Whenever a server has `rc_connected` set for a slot, it should have stored the queue pair numbers
and the memory regions of the server at the slot, and have connected its CTRL queue pair with it.

None of the three messages says which of the servers that were at its slot has sent it, and a RC_ACK
sets the flag whatever is stored for the slot.  `rc_bound` shows that this is all there is to it: the
property holds in a run in which

* a RC_SYNACK that is stored comes from the server at the slot;
* a RC_ACK that sets the flag finds a record that comes from the server at the slot, and that was
  not disconnected since;
* no server other than the leader that lets a new one in is connected to the slot it gives away;
* a server gets its index before it takes part in a handshake.

The invariant: the RC_SYN and RC_SYNACK messages in the network describe their senders, and a record
stored from one of them describes it for the index of the receiver.
-/

variable {s s' : RcCluster} {p q i : Nat} {ep ep' : IbEp} {packet : Packet}

/-! ### The property -/

/-- What server `p` has stored for slot `i` is what server `q` dedicates to it, and its CTRL queue
    pair is connected with it. -/
structure Bound (p q : RcServer) (i : Nat) : Prop where
  qpn : (p.eps i).qpn = q.dev.qpNum p.idx.toNat
  rmtMr : (p.eps i).rmtMr = q.dev.mr
  connected : ∃ attr, (p.eps i).qp .ctrl = some attr ∧
    attr.destQpNum = q.dev.qpNum p.idx.toNat .ctrl

/-- Every connection is with the server at its slot. -/
def RcBound (s : RcCluster) : Prop :=
  ∀ p < s.count, ∀ i, ((s.servers p).eps i).rcConnected = true →
    ∃ q, s.occupant i = some q ∧ Bound (s.servers p) (s.servers q) i

/-- A message with the index `idx` changes the record of its slot. -/
def RcServer.opens (server : RcServer) (idx : UInt8) : Bool :=
  cidIsServerOn server.cid idx.toNat && !(server.eps idx.toNat).rcConnected

/-- Server `p` handles a datagram of server `q` only as it should. -/
def HandleOk (s : RcCluster) (p q : Nat) : UdMsg → Prop
  | .join _ _ _ => ∀ empty ∈ (s.servers p).joinAt (s.wc q),
      ∀ j < s.count, j ≠ p → ((s.servers j).eps empty).rcConnected = true →
        s.occupant empty = some q
  | .cfgReply id idx _ => id < (s.servers p).requestId ∨ idx = (s.servers p).idx ∨
      s.spoke p = false
  | .rcSyn _ => True
  | .rcSynack msg => (s.servers p).opens msg.idx = true → s.occupant msg.idx.toNat = some q
  | .rcAck _ idx => (s.servers p).opens idx = true →
      ((s.servers p).eps idx.toNat).source.isSome = true ∧
        s.occupant idx.toNat = ((s.servers p).eps idx.toNat).source

/-- No message of another server than the one at its slot sets up a connection, and slots are only
    given away when nobody is connected to them. -/
def RcOk (s : RcCluster) : RcLabel → Prop
  | .deliver p k => ∀ packet ∈ s.sent[k]?, HandleOk s p packet.src packet.msg
  | _ => True

instance (s : RcCluster) (p q : Nat) (msg : UdMsg) : Decidable (HandleOk s p q msg) :=
  match msg with
  | .join _ _ _ => inferInstanceAs (Decidable (∀ empty ∈ (s.servers p).joinAt (s.wc q),
      ∀ j < s.count, j ≠ p → ((s.servers j).eps empty).rcConnected = true →
        s.occupant empty = some q))
  | .cfgReply id idx _ => inferInstanceAs (Decidable (id < (s.servers p).requestId ∨
      idx = (s.servers p).idx ∨ s.spoke p = false))
  | .rcSyn _ => inferInstanceAs (Decidable True)
  | .rcSynack msg => inferInstanceAs (Decidable ((s.servers p).opens msg.idx = true →
      s.occupant msg.idx.toNat = some q))
  | .rcAck _ idx => inferInstanceAs (Decidable ((s.servers p).opens idx = true →
      ((s.servers p).eps idx.toNat).source.isSome = true ∧
        s.occupant idx.toNat = ((s.servers p).eps idx.toNat).source))

instance (s : RcCluster) (l : RcLabel) : Decidable (RcOk s l) :=
  match l with
  | .deliver p k => inferInstanceAs (Decidable (∀ packet ∈ s.sent[k]?,
      HandleOk s p packet.src packet.msg))
  | .exchange _ | .update _ | .join _ | .cltReply _ _ _ | .setSid _ _ | .resize _ _ _ _ _
  | .removeServer _ _ | .updateCid _ _ | .revokeLogAccess _ | .restoreLogAccess _ =>
    inferInstanceAs (Decidable True)

/-! ### The record of a slot -/

/-- Datagrams sent to `ep` reach the server. -/
def UdEp.SendsTo (ep : UdEp) (dev : Device) : Prop :=
  ep.ah = some ⟨dev.lid, dev.gid⟩ ∧ ep.qpn = dev.udQpNum

/-- What is known about the server at the other end, and the connection with it, are the same. -/
structure IbEp.SameEnd (ep ep' : IbEp) : Prop where
  udEp : ep'.udEp = ep.udEp
  rmtMr : ep'.rmtMr = ep.rmtMr
  qpn : ep'.qpn = ep.qpn
  ctrl : ep'.qp .ctrl = ep.qp .ctrl

/-- The part of a record that the LOG queue pair has nothing to do with is the same. -/
structure IbEp.Same (ep ep' : IbEp) : Prop extends ep.SameEnd ep' where
  source : ep'.source = ep.source
  rcConnected : ep'.rcConnected = ep.rcConnected

/-- A record stays as it is, or the slot is not connected any more. -/
def IbEp.Kept (ep ep' : IbEp) : Prop :=
  ep.Same ep' ∨ (ep'.source = none ∧ ep'.rcConnected = false)

@[simp] theorem IbEp.same_refl : ep.Same ep := ⟨⟨rfl, rfl, rfl, rfl⟩, rfl, rfl⟩

@[simp] theorem IbEp.kept_refl : ep.Kept ep := .inl same_refl

@[simp] theorem IbEp.kept_disconnect : ep.Kept ep.disconnect := by
  unfold disconnect
  by_cases h : ep.rcConnected
  · rw [if_pos h]
    exact .inr ⟨rfl, rfl⟩
  · rw [if_neg h]
    exact kept_refl

theorem IbEp.kept_revoke : ep.Kept { ep.resetQp .log with logAccess := false } :=
  .inl ⟨⟨rfl, rfl, rfl, rfl⟩, rfl, rfl⟩

@[simp] theorem RcServer.kept_grant : ep.Kept (RcServer.grant ep) := by
  unfold grant
  by_cases h : ep.logAccess
  · rw [if_pos h]
    exact IbEp.kept_refl
  · rw [if_neg h]
    exact .inl ⟨⟨rfl, rfl, rfl, rfl⟩, rfl, rfl⟩

/-- `connectNew` connects the CTRL queue pair with what is stored. -/
theorem RcServer.connectNew_spec (server : RcServer) (ep : IbEp) :
    (server.connectNew ep).udEp = ep.udEp ∧ (server.connectNew ep).rmtMr = ep.rmtMr ∧
      (server.connectNew ep).qpn = ep.qpn ∧ (server.connectNew ep).source = ep.source ∧
      (server.connectNew ep).rcConnected = ep.rcConnected ∧
      ∃ attr, (server.connectNew ep).qp .ctrl = some attr ∧ attr.destQpNum = ep.qpn .ctrl := by
  unfold connectNew
  cases server.isLeader <;> exact ⟨rfl, rfl, rfl, rfl, rfl, _, rfl, rfl⟩

@[simp] theorem RcServer.setEp_dev (server : RcServer) : (server.setEp i ep).dev = server.dev := rfl
@[simp] theorem RcServer.setEp_idx (server : RcServer) : (server.setEp i ep).idx = server.idx := rfl

theorem RcServer.setEp_eps (server : RcServer) (j : Nat) :
    (server.setEp i ep).eps j = if j = i then ep else server.eps j := by
  simp [setEp, Function.update_apply]

/-- A change of one slot. -/
theorem RcServer.kept_setEp {server : RcServer} (h : (server.eps i).Kept ep) (j : Nat) :
    (server.eps j).Kept ((server.setEp i ep).eps j) := by
  rw [setEp_eps]
  by_cases hj : j = i
  · rw [if_pos hj, hj]
    exact h
  · rw [if_neg hj]
    exact IbEp.kept_refl

/-! ### The invariant -/

/-- A RC_SYN or RC_SYNACK tells who its sender is. -/
structure Describes (server : RcServer) (msg : RcSyn) : Prop where
  gid : msg.gid = server.dev.gid
  idx : msg.idx = server.idx
  logRm : msg.logRm = server.dev.mr .log
  ctrlRm : msg.ctrlRm = server.dev.mr .ctrl

/-- A datagram of the handshake describes its sender. -/
def MsgOk (s : RcCluster) (q : Nat) (dst : Option UdEp) : UdMsg → Prop
  | .rcSyn msg => Describes (s.servers q) msg ∧
      ∀ i < msg.size.toNat, msg.qpns i = (s.servers q).dev.qpNum i
  | .rcSynack msg => Describes (s.servers q) msg ∧
      ∃ x ep, x < s.count ∧ s.spoke x = true ∧ dst = some ep ∧
        ep.SendsTo (s.servers x).dev ∧
        msg.qpns 0 = (s.servers q).dev.qpNum (s.servers x).idx.toNat
  | _ => True

/-- The record server `p` has for slot `i` comes from server `q`. -/
structure Recorded (s : RcCluster) (p q i : Nat) : Prop where
  lt : q < s.count
  idx : (s.servers q).idx.toNat = i
  spoke : s.spoke q = true
  udEp : ((s.servers p).eps i).udEp.SendsTo (s.servers q).dev
  bound : Bound (s.servers p) (s.servers q) i

structure RcInv (s : RcCluster) : Prop where
  packets : ∀ packet ∈ s.sent, packet.src < s.count ∧ MsgOk s packet.src packet.dst packet.msg
  recorded : ∀ p < s.count, ∀ i q, ((s.servers p).eps i).source = some q →
    s.spoke p = true ∧ Recorded s p q i
  connected : ∀ p < s.count, ∀ i, ((s.servers p).eps i).rcConnected = true →
    ∃ q, ((s.servers p).eps i).source = some q ∧ s.occupant i = some q
  addrs : ∀ p < s.count, ∀ q < s.count, (s.servers p).dev.addr = (s.servers q).dev.addr → p = q

/-- The invariant gives the property. -/
theorem RcInv.rcBound (h : RcInv s) : RcBound s := by
  intro p hp i hconn
  obtain ⟨q, hsource, hocc⟩ := h.connected p hp i hconn
  exact ⟨q, hocc, (h.recorded p hp i q hsource).2.bound⟩

/-! ### What stays the same -/

/-- The servers keep what they are, and nothing sent gets lost. -/
structure Extends (s s' : RcCluster) : Prop where
  count : s'.count = s.count
  dev : ∀ q, (s'.servers q).dev = (s.servers q).dev
  idx : ∀ q, (s'.servers q).idx = (s.servers q).idx
  sent : ∀ packet ∈ s.sent, packet ∈ s'.sent

namespace Extends

theorem spoke (h : Extends s s') (hq : s.spoke q = true) : s'.spoke q = true := by
  obtain ⟨packet, hmem, hrc⟩ := List.any_eq_true.mp hq
  exact List.any_eq_true.mpr ⟨packet, h.sent packet hmem, hrc⟩

theorem describes (h : Extends s s') {msg : RcSyn} (hd : Describes (s.servers q) msg) :
    Describes (s'.servers q) msg := by
  refine ⟨?_, ?_, ?_, ?_⟩
  · rw [h.dev, hd.gid]
  · rw [h.idx, hd.idx]
  · rw [h.dev, hd.logRm]
  · rw [h.dev, hd.ctrlRm]

theorem msgOk (h : Extends s s') {dst : Option UdEp} {msg : UdMsg} (hm : MsgOk s q dst msg) :
    MsgOk s' q dst msg := by
  cases msg with
  | rcSyn msg =>
    refine ⟨h.describes hm.1, fun i hi => ?_⟩
    rw [h.dev, hm.2 i hi]
  | rcSynack msg =>
    obtain ⟨hd, x, ep, hx, hspoke, hdst, hsends, hqpns⟩ := hm
    refine ⟨h.describes hd, x, ep, ?_, h.spoke hspoke, hdst, ?_, ?_⟩
    · rw [h.count]
      exact hx
    · rw [h.dev]
      exact hsends
    · rw [h.dev, h.idx, hqpns]
  | _ => trivial

/-- A record that is kept still comes from the same server. -/
theorem recorded (h : Extends s s') (hsame : ((s.servers p).eps i).SameEnd ((s'.servers p).eps i))
    (hr : Recorded s p q i) : Recorded s' p q i := by
  obtain ⟨attr, hctrl, hdest⟩ := hr.bound.connected
  refine ⟨?_, ?_, h.spoke hr.spoke, ?_, ⟨?_, ?_, attr, ?_, ?_⟩⟩
  · rw [h.count]
    exact hr.lt
  · rw [h.idx, hr.idx]
  · rw [hsame.udEp, h.dev]
    exact hr.udEp
  · rw [hsame.qpn, h.dev, h.idx, hr.bound.qpn]
  · rw [hsame.rmtMr, h.dev, hr.bound.rmtMr]
  · rw [hsame.ctrl, hctrl]
  · rw [h.dev, h.idx, hdest]

end Extends

@[simp] theorem RcCluster.set_count (server : RcServer) : (s.set p server).count = s.count := rfl
@[simp] theorem RcCluster.set_sent (server : RcServer) : (s.set p server).sent = s.sent := rfl
@[simp] theorem RcCluster.set_occupant (server : RcServer) :
    (s.set p server).occupant = s.occupant := rfl

@[simp] theorem RcCluster.set_self (server : RcServer) : (s.set p server).servers p = server := by
  simp [set]

theorem RcCluster.set_of_ne (server : RcServer) (h : q ≠ p) :
    (s.set p server).servers q = s.servers q := by
  simp [set, h]

theorem Extends.set {server : RcServer} (hdev : server.dev = (s.servers p).dev)
    (hidx : server.idx = (s.servers p).idx) : Extends s (s.set p server) := by
  refine ⟨rfl, fun q => ?_, fun q => ?_, fun _ h => h⟩
  · by_cases hq : q = p
    · rw [hq, RcCluster.set_self, hdev]
    · rw [RcCluster.set_of_ne server hq]
  · by_cases hq : q = p
    · rw [hq, RcCluster.set_self, hidx]
    · rw [RcCluster.set_of_ne server hq]

theorem Extends.send (s : RcCluster) (p : Nat) (dst : Option UdEp) (msg : UdMsg) :
    Extends s (s.send p dst msg) :=
  ⟨rfl, fun _ => rfl, fun _ => rfl, fun _ h => List.mem_append_left _ h⟩

theorem Extends.trans {t : RcCluster} (h : Extends s t) (h' : Extends t s') : Extends s s' :=
  ⟨h'.count.trans h.count, fun q => (h'.dev q).trans (h.dev q), fun q => (h'.idx q).trans (h.idx q),
    fun packet hp => h'.sent packet (h.sent packet hp)⟩

/-- Server `p` is in a handshake after it sends a message of one. -/
theorem RcCluster.spoke_send {dst : Option UdEp} {msg : UdMsg} (h : msg.isRc = true) :
    (s.send p dst msg).spoke p = true :=
  List.any_eq_true.mpr ⟨⟨p, dst, msg⟩, List.mem_append_right _ List.mem_cons_self, by simp [h]⟩

/-- Slot `i` of server `p` has a record that was stored, or used for the first time, in the step. -/
def Renewed (s : RcCluster) (p i : Nat) : Prop :=
  ∃ q, ((s.servers p).eps i).source = some q ∧ s.spoke p = true ∧ Recorded s p q i ∧
    (((s.servers p).eps i).rcConnected = true → s.occupant i = some q)

/-- A step of server `p` keeps the invariant if it does so for the messages it sends and for the
    slots whose record it changes. -/
theorem RcInv.change (h : RcInv s) (he : Extends s s') (hocc : s'.occupant = s.occupant)
    (hothers : ∀ j, j ≠ p → s'.servers j = s.servers j)
    (hsent : ∀ packet ∈ s'.sent, packet ∈ s.sent ∨
      packet.src < s'.count ∧ MsgOk s' packet.src packet.dst packet.msg)
    (heps : ∀ i, ((s.servers p).eps i).Kept ((s'.servers p).eps i) ∨ Renewed s' p i) :
    RcInv s' := by
  -- the slots of the other servers are kept
  have hslots : ∀ j i, ((s.servers j).eps i).Kept ((s'.servers j).eps i) ∨ Renewed s' j i := by
    intro j i
    by_cases hj : j = p
    · rw [hj]
      exact heps i
    · rw [hothers j hj]
      exact .inl IbEp.kept_refl
  refine ⟨fun packet hp => ?_, fun j hj i q hsource => ?_, fun j hj i hconn => ?_, ?_⟩
  · rcases hsent packet hp with hold | hnew
    · obtain ⟨hsrc, hm⟩ := h.packets packet hold
      exact ⟨he.count ▸ hsrc, he.msgOk hm⟩
    · exact hnew
  · rcases hslots j i with (hsame | ⟨hnone, -⟩) | ⟨q', hq', hspoke, hrec, -⟩
    · obtain ⟨hspoke, hrec⟩ := h.recorded j (he.count ▸ hj) i q (hsame.source ▸ hsource)
      exact ⟨he.spoke hspoke, he.recorded hsame.toSameEnd hrec⟩
    · rw [hnone] at hsource
      cases hsource
    · rw [hq'] at hsource
      cases hsource
      exact ⟨hspoke, hrec⟩
  · rcases hslots j i with (hsame | ⟨-, hoff⟩) | ⟨q', hq', -, -, hto⟩
    · obtain ⟨q, hsource, hq⟩ := h.connected j (he.count ▸ hj) i (hsame.rcConnected ▸ hconn)
      exact ⟨q, hsame.source.trans hsource, hocc ▸ hq⟩
    · rw [hoff] at hconn
      cases hconn
    · exact ⟨q', hq', hto hconn⟩
  · intro j hj q hq haddr
    rw [he.dev, he.dev] at haddr
    exact h.addrs j (he.count ▸ hj) q (he.count ▸ hq) haddr

/-- A change that sets up no connection. -/
theorem RcInv.quiet {server : RcServer} (h : RcInv s) (hdev : server.dev = (s.servers p).dev)
    (hidx : server.idx = (s.servers p).idx)
    (hkept : ∀ i, ((s.servers p).eps i).Kept (server.eps i)) : RcInv (s.set p server) := by
  refine h.change (p := p) (Extends.set hdev hidx) rfl (fun j hj => RcCluster.set_of_ne server hj)
    (fun packet hp => .inl hp) fun i => .inl ?_
  rw [RcCluster.set_self]
  exact hkept i

/-- A message that describes its sender is sent. -/
theorem RcInv.send {dst : Option UdEp} {msg : UdMsg} (h : RcInv s) (hp : p < s.count)
    (hm : MsgOk s p dst msg) : RcInv (s.send p dst msg) := by
  refine h.change (p := p) (Extends.send s p dst msg) rfl (fun _ _ => rfl) (fun packet hpk => ?_)
    fun i => .inl IbEp.kept_refl
  rcases List.mem_append.mp hpk with hold | hnew
  · exact .inl hold
  · rw [List.mem_singleton] at hnew
    rw [hnew]
    exact .inr ⟨hp, (Extends.send s p dst msg).msgOk hm⟩

theorem msgOk_exchange (s : RcCluster) (p : Nat) :
    MsgOk s p none (s.servers p).udExchangeRcInfo := by
  refine ⟨⟨rfl, rfl, rfl, rfl⟩, fun i hi => ?_⟩
  exact if_pos hi

/-! ### The handlers -/

/-- The record that is stored from a message of server `q` for the index of server `p`. -/
theorem recorded_store {server : RcServer} {msg : RcSyn} {mtu k : Nat} {conn : Bool}
    (hq : q < s.count) (hspoke : s.spoke q = true) (hd : Describes (s.servers q) msg)
    (hqpns : msg.qpns k = (s.servers q).dev.qpNum (s.servers p).idx.toNat)
    (hep : (s.servers p).eps msg.idx.toNat =
      server.connectNew { ep.store mtu (s.wc q) msg k with rcConnected := conn }) :
    Recorded s p q msg.idx.toNat := by
  obtain ⟨hud, hmr, hqpn, -, -, attr, hctrl, hdest⟩ :=
    server.connectNew_spec { ep.store mtu (s.wc q) msg k with rcConnected := conn }
  refine ⟨hq, ?_, hspoke, ?_, ?_, ?_, attr, ?_, ?_⟩
  · rw [hd.idx]
  · rw [hep, hud]
    refine ⟨?_, rfl⟩
    rw [← hd.gid]
    rfl
  · rw [hep, hqpn]
    exact hqpns
  · rw [hep, hmr]
    ext r : 1
    cases r with
    | log => exact hd.logRm
    | ctrl => exact hd.ctrlRm
  · rw [hep, hctrl]
  · rw [hdest]
    exact congrFun hqpns .ctrl

/-- A server that keeps everything. -/
theorem RcCluster.set_eq (s : RcCluster) (p : Nat) : s.set p (s.servers p) = s := by
  simp [set]

/-- The RC_SYNACK to the server a record sends to. -/
theorem msgOk_synack {x : Nat} {ud : UdEp} (id : UInt64) (hx : x < s.count)
    (hidx : (s.servers x).idx.toNat = i) (hspoke : s.spoke x = true)
    (hsends : ud.SendsTo (s.servers x).dev) :
    MsgOk s p (some ud) ((s.servers p).synack id i) := by
  refine ⟨⟨rfl, rfl, rfl, rfl⟩, x, ud, hx, hspoke, rfl, hsends, ?_⟩
  rw [hidx]
  rfl

/-- The state after server `p` stored a record for slot `i` and sent a message. -/
def RcCluster.renew (s : RcCluster) (p i : Nat) (ep : IbEp) (dst : Option UdEp) (msg : UdMsg) :
    RcCluster :=
  (s.set p ((s.servers p).setEp i ep)).send p dst msg

theorem RcCluster.renew_eps (s : RcCluster) (p : Nat) (dst : Option UdEp) (msg : UdMsg)
    (j : Nat) : ((s.renew p i ep dst msg).servers p).eps j = if j = i then ep else (s.servers p).eps j := by
  rw [← RcServer.setEp_eps]
  exact congrArg (fun server : RcServer => server.eps j) (s.set_self ((s.servers p).setEp i ep))

theorem RcCluster.extends_renew (s : RcCluster) (p i : Nat) (ep : IbEp) (dst : Option UdEp)
    (msg : UdMsg) : Extends s (s.renew p i ep dst msg) := by
  have hset : Extends s (s.set p ((s.servers p).setEp i ep)) := Extends.set rfl rfl
  exact hset.trans (Extends.send _ p dst msg)

theorem Extends.wc (h : Extends s s') (q : Nat) : s'.wc q = s.wc q := by
  rw [RcCluster.wc, RcCluster.wc, h.dev]

/-- A record that comes from server `q` is stored for slot `i`, and a message of the handshake is
    sent. -/
theorem RcInv.renew {dst : Option UdEp} {msg : UdMsg} (h : RcInv s) (hp : p < s.count)
    (hrc : msg.isRc = true) (hm : MsgOk s p dst msg) (hsource : ep.source = some q)
    (hrec : Recorded (s.renew p i ep dst msg) p q i)
    (hto : ep.rcConnected = true → s.occupant i = some q) :
    RcInv (s.renew p i ep dst msg) := by
  have he := s.extends_renew p i ep dst msg
  refine h.change (p := p) he rfl
    (fun j hj => RcCluster.set_of_ne _ hj) (fun packet hpk => ?_) fun j => ?_
  · rcases List.mem_append.mp hpk with hold | hnew
    · exact .inl hold
    · rw [List.mem_singleton] at hnew
      rw [hnew]
      exact .inr ⟨hp, he.msgOk hm⟩
  · by_cases hj : j = i
    · rw [hj]
      refine .inr ⟨q, ?_, RcCluster.spoke_send hrc, hrec, ?_⟩
      · rw [RcCluster.renew_eps, if_pos rfl, hsource]
      · rw [RcCluster.renew_eps, if_pos rfl]
        exact hto
    · rw [RcCluster.renew_eps, if_neg hj]
      exact .inl IbEp.kept_refl

/-- The contents of a message of server `q` are stored for the index of server `p`. -/
theorem RcInv.stored {msg : RcSyn} {k : Nat} {conn : Bool} {dst : Option UdEp} {answer : UdMsg}
    (h : RcInv s) (hp : p < s.count) (hq : q < s.count) (hspoke : s.spoke q = true)
    (hd : Describes (s.servers q) msg)
    (hqpns : msg.qpns k = (s.servers q).dev.qpNum (s.servers p).idx.toNat)
    (hep : ep = (s.servers p).connectNew { ((s.servers p).eps msg.idx.toNat).store
      (s.servers p).dev.mtu (s.wc q) msg k with rcConnected := conn })
    (hto : conn = true → s.occupant msg.idx.toNat = some q) (hrc : answer.isRc = true)
    (hm : MsgOk s p dst answer) : RcInv (s.renew p msg.idx.toNat ep dst answer) := by
  have he := s.extends_renew p msg.idx.toNat ep dst answer
  obtain ⟨-, -, -, hsource, hconn, -⟩ := (s.servers p).connectNew_spec
    { ((s.servers p).eps msg.idx.toNat).store (s.servers p).dev.mtu (s.wc q) msg k with
      rcConnected := conn }
  rw [← hep] at hsource hconn
  have hrec : Recorded (s.renew p msg.idx.toNat ep dst answer) p q msg.idx.toNat := by
    have hslot := (s.renew_eps p dst answer msg.idx.toNat).trans ((if_pos rfl).trans hep)
    rw [← he.wc] at hslot
    refine recorded_store (he.count ▸ hq) (he.spoke hspoke) (he.describes hd) ?_ hslot
    rw [he.dev, he.idx, hqpns]
  exact h.renew hp hrc hm hsource hrec fun hon => hto (hconn.symm.trans hon)

/-- A datagram sent back to the sender of a message reaches it. -/
theorem sendsTo_wc {msg : RcSyn} (hd : Describes (s.servers q) msg) :
    (wcToUdEp (s.wc q) msg.gid msg.slid).SendsTo (s.servers q).dev := by
  rw [hd.gid]
  exact ⟨rfl, rfl⟩

/-- `handle_rc_syn`. -/
theorem RcInv.rcSyn {msg : RcSyn} (h : RcInv s) (hp : p < s.count) (hq : q < s.count)
    (hspoke : s.spoke q = true) (hd : Describes (s.servers q) msg)
    (hqpns : ∀ i < msg.size.toNat, msg.qpns i = (s.servers q).dev.qpNum i) :
    RcInv (s.handle p q (.rcSyn msg)) := by
  unfold RcCluster.handle RcServer.handleRcSyn
  by_cases hon : cidIsServerOn (s.servers p).cid msg.idx.toNat = true
  swap
  · simpa [hon, RcCluster.reply, RcCluster.set_eq] using h
  by_cases hsize : msg.size ≤ (s.servers p).idx
  · simpa [hon, hsize, RcCluster.reply, RcCluster.set_eq] using h
  by_cases hconn : ((s.servers p).eps msg.idx.toNat).rcConnected = true
  · -- the record stays, the reply goes to where it says
    obtain ⟨o, hsource, -⟩ := h.connected p hp _ hconn
    obtain ⟨-, hrec⟩ := h.recorded p hp _ o hsource
    have hself : (s.servers p).setEp msg.idx.toNat ((s.servers p).eps msg.idx.toNat) =
        s.servers p := by
      simp [RcServer.setEp]
    simp only [hon, hsize, hconn, Bool.not_true, Bool.false_eq_true, if_false, if_true, hself,
      RcCluster.set_eq, RcCluster.reply]
    exact h.send hp (msgOk_synack msg.id hrec.lt hrec.idx hrec.spoke hrec.udEp)
  · simp only [hon, hsize, hconn, Bool.not_true, Bool.false_eq_true, if_false, RcCluster.reply]
    obtain ⟨hud, -⟩ := RcServer.connectNew_spec (s.servers p)
      (((s.servers p).eps msg.idx.toNat).store (s.servers p).dev.mtu (s.wc q) msg
        (s.servers p).idx.toNat)
    have hlt : (s.servers p).idx.toNat < msg.size.toNat := by
      rw [UInt8.not_le] at hsize
      exact hsize
    have hm : MsgOk s p (some (wcToUdEp (s.wc q) msg.gid msg.slid))
        ((s.servers p).synack msg.id msg.idx.toNat) :=
      msgOk_synack msg.id hq (congrArg UInt8.toNat hd.idx).symm hspoke (sendsTo_wc hd)
    rw [hud]
    exact h.stored hp hq hspoke hd (hqpns _ hlt) rfl (fun hon => absurd hon hconn) rfl hm

/-- `handle_rc_synack`. -/
theorem RcInv.rcSynack {msg : RcSyn} (h : RcInv s) (hp : p < s.count) (hq : q < s.count)
    (hspoke : s.spoke q = true) (hd : Describes (s.servers q) msg)
    (hqpns : msg.qpns 0 = (s.servers q).dev.qpNum (s.servers p).idx.toNat)
    (hok : (s.servers p).opens msg.idx = true → s.occupant msg.idx.toNat = some q) :
    RcInv (s.handle p q (.rcSynack msg)) := by
  unfold RcCluster.handle RcServer.handleRcSynack
  by_cases hon : cidIsServerOn (s.servers p).cid msg.idx.toNat = true
  swap
  · simpa [hon, RcCluster.reply, RcCluster.set_eq] using h
  by_cases hconn : ((s.servers p).eps msg.idx.toNat).rcConnected = true
  · simp only [hon, hconn, Bool.not_true, Bool.false_eq_true, if_false, if_true,
      RcCluster.set_eq, RcCluster.reply]
    exact h.send hp trivial
  · simp only [hon, hconn, Bool.not_true, Bool.false_eq_true, if_false, RcCluster.reply]
    have hopens : (s.servers p).opens msg.idx = true := by
      simp [RcServer.opens, hon, hconn]
    exact h.stored hp hq hspoke hd hqpns rfl (fun _ => hok hopens) rfl trivial

/-- `handle_rc_ack`. -/
theorem RcInv.rcAck {id : UInt64} {idx : UInt8} (h : RcInv s) (hp : p < s.count)
    (hok : (s.servers p).opens idx = true →
      ((s.servers p).eps idx.toNat).source.isSome = true ∧
        s.occupant idx.toNat = ((s.servers p).eps idx.toNat).source) :
    RcInv (s.handle p q (.rcAck id idx)) := by
  unfold RcCluster.handle RcServer.handleRcAck
  by_cases hon : cidIsServerOn (s.servers p).cid idx.toNat = true
  swap
  · simpa [hon, RcCluster.set_eq] using h
  by_cases hconn : ((s.servers p).eps idx.toNat).rcConnected = true
  · simpa [hon, hconn, RcCluster.set_eq] using h
  · simp only [hon, hconn, Bool.not_true, Bool.false_eq_true, if_false]
    -- the endpoint was recorded in the handshake
    obtain ⟨hsome, hocc⟩ := hok (by simp [RcServer.opens, hon, hconn])
    obtain ⟨o, hsource⟩ := Option.isSome_iff_exists.mp hsome
    rw [hsource] at hocc
    obtain ⟨hspoke, hrec⟩ := h.recorded p hp _ o hsource
    have he : Extends s (s.set p ((s.servers p).setEp idx.toNat
        { (s.servers p).eps idx.toNat with rcConnected := true })) := Extends.set rfl rfl
    refine h.change (p := p) he rfl (fun j hj => RcCluster.set_of_ne _ hj)
      (fun packet hpk => .inl hpk) fun i => ?_
    by_cases hi : i = idx.toNat
    · refine .inr ⟨o, ?_, he.spoke hspoke, ?_, fun _ => ?_⟩
      · rw [RcCluster.set_self, RcServer.setEp_eps, if_pos hi, hsource]
      · rw [hi]
        refine he.recorded ?_ hrec
        rw [RcCluster.set_self, RcServer.setEp_eps, if_pos rfl]
        exact ⟨rfl, rfl, rfl, rfl⟩
      · rw [hi]
        exact hocc
    · rw [RcCluster.set_self, RcServer.setEp_eps, if_neg hi]
      exact .inl IbEp.kept_refl

theorem RcCluster.spoke_of_mem (hmem : packet ∈ s.sent) (hrc : packet.msg.isRc = true) :
    s.spoke packet.src = true :=
  List.any_eq_true.mpr ⟨packet, hmem, by simp [hrc]⟩

theorem RcCluster.ne_of_spoke (hp : s.spoke p = false) (hq : s.spoke q = true) : q ≠ p := by
  rintro rfl
  rw [hp] at hq
  cases hq

/-- A server that took no part in a handshake gets its index. -/
theorem RcInv.reindex {server : RcServer} (h : RcInv s) (hspoke : s.spoke p = false)
    (hdev : server.dev = (s.servers p).dev) (heps : server.eps = (s.servers p).eps) :
    RcInv (s.set p server) := by
  have hdevs : ∀ j, ((s.set p server).servers j).dev = (s.servers j).dev := by
    intro j
    by_cases hj : j = p
    · rw [hj, RcCluster.set_self, hdev]
    · rw [RcCluster.set_of_ne server hj]
  have hslots : ∀ j, ((s.set p server).servers j).eps = (s.servers j).eps := by
    intro j
    by_cases hj : j = p
    · rw [hj, RcCluster.set_self, heps]
    · rw [RcCluster.set_of_ne server hj]
  -- a server that took part is another one
  have hkeep : ∀ q, s.spoke q = true → (s.set p server).servers q = s.servers q :=
    fun q hq => RcCluster.set_of_ne server (RcCluster.ne_of_spoke hspoke hq)
  refine ⟨fun packet hpk => ?_, fun j hj i q hsource => ?_, fun j hj i hconn => ?_, ?_⟩
  · obtain ⟨hsrc, hm⟩ := h.packets packet hpk
    refine ⟨hsrc, ?_⟩
    cases hmsg : packet.msg with
    | rcSyn msg =>
      rw [hmsg] at hm
      rw [MsgOk, hkeep _ (RcCluster.spoke_of_mem hpk (by rw [hmsg]; rfl))]
      exact hm
    | rcSynack msg =>
      rw [hmsg] at hm
      obtain ⟨hd, x, ep, hx, hxspoke, hrest⟩ := hm
      rw [MsgOk, hkeep _ (RcCluster.spoke_of_mem hpk (by rw [hmsg]; rfl))]
      refine ⟨hd, x, ep, hx, hxspoke, ?_⟩
      rw [hkeep x hxspoke]
      exact hrest
    | _ => trivial
  · rw [hslots] at hsource
    obtain ⟨hjspoke, hrec⟩ := h.recorded j hj i q hsource
    refine ⟨hjspoke, hrec.lt, ?_, hrec.spoke, ?_, ?_⟩
    · rw [hkeep q hrec.spoke]
      exact hrec.idx
    · rw [hkeep q hrec.spoke, hslots]
      exact hrec.udEp
    · rw [hkeep q hrec.spoke, hkeep j hjspoke]
      exact hrec.bound
  · rw [hslots] at hconn ⊢
    exact h.connected j hj i hconn
  · intro j hj q hq haddr
    rw [hdevs, hdevs] at haddr
    exact h.addrs j hj q hq haddr

/-- `handle_server_join_reply`. -/
theorem RcInv.cfgReply {id : UInt64} {idx : UInt8} {cid : DareCid} (h : RcInv s)
    (hok : id < (s.servers p).requestId ∨ idx = (s.servers p).idx ∨ s.spoke p = false) :
    RcInv (s.handle p q (.cfgReply id idx cid)) := by
  unfold RcCluster.handle RcServer.handleCfgReply
  by_cases hid : id < (s.servers p).requestId
  · simpa [hid, RcCluster.set_eq] using h
  simp only [hid, if_false]
  rcases hok with hold | hsame | hspoke
  · exact absurd hold hid
  · exact h.quiet rfl hsame fun i => IbEp.kept_refl
  · exact h.reindex hspoke rfl rfl

/-- A slot that nobody is connected to is given to server `q`. -/
theorem RcInv.letIn (h : RcInv s) (hok : ∀ j < s.count,
    ((s.servers j).eps i).rcConnected = true → s.occupant i = some q) :
    RcInv { s with occupant := Function.update s.occupant i (some q) } := by
  refine ⟨h.packets, fun j hj k o hsource => ?_, fun j hj k hconn => ?_, h.addrs⟩
  · obtain ⟨hspoke, hrec⟩ := h.recorded j hj k o hsource
    exact ⟨hspoke, hrec.lt, hrec.idx, hrec.spoke, hrec.udEp, hrec.bound⟩
  · obtain ⟨o, hsource, hocc⟩ := h.connected j hj k hconn
    refine ⟨o, hsource, ?_⟩
    show Function.update s.occupant i (some q) k = some o
    by_cases hk : k = i
    · rw [hk] at hconn hocc ⊢
      rw [hok j hj hconn] at hocc
      rw [Function.update_self, hocc]
    · rw [Function.update_of_ne hk, hocc]

/-- `handle_server_join_request`. -/
theorem RcInv.join {id : UInt64} {gid : Gid} {slid : UInt16} (h : RcInv s)
    (hok : ∀ empty ∈ (s.servers p).joinAt (s.wc q),
      ∀ j < s.count, j ≠ p → ((s.servers j).eps empty).rcConnected = true →
        s.occupant empty = some q) : RcInv (s.handle p q (.join id gid slid)) := by
  unfold RcCluster.handle RcServer.handleJoin
  cases hat : (s.servers p).joinAt (s.wc q) with
  | none => simpa [RcCluster.set_eq] using h
  | some empty =>
    have hset : RcInv (s.set p ({ s.servers p with cid := joinCid (s.servers p).cid empty }.setEp
        empty { (s.servers p).eps empty with
          udEp := wcToUdEp (s.wc q) gid slid
          rcConnected := false
          source := none })) :=
      h.quiet rfl rfl (RcServer.kept_setEp (.inr ⟨rfl, rfl⟩))
    refine hset.letIn fun j hj hconn => ?_
    by_cases hjp : j = p
    · -- the leader is not connected to the slot any more
      rw [hjp, RcCluster.set_self, RcServer.setEp_eps, if_pos rfl] at hconn
      cases hconn
    · rw [RcCluster.set_of_ne _ hjp] at hconn
      exact hok empty hat j hj hjp hconn

/-- `update_cid`. -/
theorem RcInv.updateCid {server : RcServer} {cid : DareCid} (h : RcInv s)
    (hs : (s.servers p).updateCid cid = some server) : RcInv (s.set p server) := by
  unfold RcServer.updateCid at hs
  split at hs
  · obtain rfl := Option.some.inj hs
    exact h.quiet rfl rfl fun _ => IbEp.kept_refl
  · obtain ⟨-, hs⟩ := Option.ite_none_left_eq_some.mp hs
    obtain rfl := Option.some.inj hs
    refine h.quiet rfl rfl fun i => ?_
    simp only
    split
    · exact IbEp.kept_disconnect
    · exact IbEp.kept_refl

/-- `rc_restore_log_access`. -/
theorem RcInv.restore {server : RcServer} (h : RcInv s)
    (hs : (s.servers p).restoreLogAccess = some server) : RcInv (s.set p server) := by
  unfold RcServer.restoreLogAccess at hs
  simp only at hs
  split at hs
  · obtain ⟨-, hs⟩ := Option.ite_none_right_eq_some.mp hs
    obtain rfl := Option.some.inj hs
    exact h.quiet rfl rfl (RcServer.kept_setEp RcServer.kept_grant)
  · split at hs
    · obtain rfl := Option.some.inj hs
      refine h.quiet rfl rfl fun i => ?_
      simp only
      split
      · exact RcServer.kept_grant
      · exact IbEp.kept_refl
    · obtain rfl := Option.some.inj hs
      exact h.quiet rfl rfl fun _ => IbEp.kept_refl

/-! ### Runs -/

/-- The invariant at start-up. -/
theorem RcInv.init (h : rcInit s) : RcInv s := by
  obtain ⟨n, -, -, -, hsent, -, -, hfresh, haddrs⟩ := h
  have heps : ∀ p < s.count, (s.servers p).eps = fun _ => initIbEp := fun p hp => by
    obtain ⟨m, -, hp⟩ := hfresh p hp
    exact hp.eps
  refine ⟨fun packet hpk => ?_, fun p hp i q hsource => ?_, fun p hp i hconn => ?_, haddrs⟩
  · rw [hsent] at hpk
    cases hpk
  · rw [heps p hp] at hsource
    cases hsource
  · rw [heps p hp] at hconn
    cases hconn

/-- A server gets a datagram. -/
theorem RcInv.handle (h : RcInv s) (hp : p < s.count) (hmem : packet ∈ s.sent)
    (hto : s.reaches p packet = true) (hok : HandleOk s p packet.src packet.msg) :
    RcInv (s.handle p packet.src packet.msg) := by
  obtain ⟨hsrc, hm⟩ := h.packets packet hmem
  have hspoke := RcCluster.spoke_of_mem hmem
  cases hmsg : packet.msg with
  | join id gid slid =>
    rw [hmsg] at hok
    exact h.join hok
  | cfgReply id idx cid =>
    rw [hmsg] at hok
    exact h.cfgReply hok
  | rcSyn msg =>
    rw [hmsg] at hm hspoke
    exact h.rcSyn hp hsrc (hspoke rfl) hm.1 hm.2
  | rcSynack msg =>
    rw [hmsg] at hm hspoke hok
    obtain ⟨hd, x, ep, hx, -, hdst, hsends, hqpns⟩ := hm
    -- the server it was sent to is the only one with its address
    have hxp : x = p := by
      unfold RcCluster.reaches at hto
      rw [hdst] at hto
      simp only [hsends.1, hsends.2, Bool.and_eq_true, beq_iff_eq, Option.some.injEq,
        AddrHandle.mk.injEq] at hto
      refine h.addrs x hx p hp ?_
      rw [Device.addr, Device.addr, hto.1.1, hto.1.2, hto.2]
    rw [hxp] at hqpns
    exact h.rcSynack hp hsrc (hspoke rfl) hd hqpns hok
  | rcAck id idx =>
    rw [hmsg] at hok
    exact h.rcAck hp hok

/-- The step lemma. -/
theorem RcInv.step {l : RcLabel} (h : RcInv s) (hok : RcOk s l) (hs : RcStep s l s') :
    RcInv s' := by
  unfold RcStep rcStep at hs
  obtain ⟨hcount, hs⟩ := Option.ite_none_left_eq_some.mp hs
  rw [Nat.not_le] at hcount
  cases l with
  | exchange p =>
    obtain rfl := Option.some.inj hs
    exact h.send hcount (msgOk_exchange s p)
  | update p =>
    obtain ⟨msg, hmsg, rfl⟩ := Option.map_eq_some_iff.mp hs
    obtain ⟨-, hmsg⟩ := Option.ite_none_right_eq_some.mp hmsg
    obtain rfl := Option.some.inj hmsg
    exact h.send hcount (msgOk_exchange s p)
  | join p =>
    obtain rfl := Option.some.inj hs
    exact h.send hcount trivial
  | cltReply p q id =>
    obtain rfl := Option.some.inj hs
    exact h.send hcount trivial
  | deliver p k =>
    obtain ⟨packet, hpk, hs⟩ := Option.bind_eq_some_iff.mp hs
    obtain ⟨hto, hs⟩ := Option.ite_none_right_eq_some.mp hs
    obtain rfl := Option.some.inj hs
    rw [Bool.and_eq_true] at hto
    exact h.handle hcount (List.mem_of_getElem? hpk) hto.1 (hok packet hpk)
  | setSid p sid =>
    obtain rfl := Option.some.inj hs
    exact h.quiet rfl rfl fun _ => IbEp.kept_refl
  | resize p epoch size0 size1 state =>
    obtain rfl := Option.some.inj hs
    exact h.quiet rfl rfl fun _ => IbEp.kept_refl
  | removeServer p i =>
    obtain rfl := Option.some.inj hs
    exact h.quiet rfl rfl (RcServer.kept_setEp IbEp.kept_disconnect)
  | updateCid p cid =>
    obtain ⟨server, hserver, rfl⟩ := Option.map_eq_some_iff.mp hs
    exact h.updateCid hserver
  | revokeLogAccess p =>
    obtain rfl := Option.some.inj hs
    refine h.quiet rfl rfl fun i => ?_
    simp only [RcServer.revokeLogAccess]
    split
    · exact IbEp.kept_revoke
    · exact IbEp.kept_refl
  | restoreLogAccess p =>
    obtain ⟨server, hserver, rfl⟩ := Option.map_eq_some_iff.mp hs
    exact h.restore hserver

/-- The run lemma. -/
theorem RcInv.reach (h : Reach rcInit RcStep RcOk s) : RcInv s :=
  h.invariant (fun _ => RcInv.init) fun _ _ _ => RcInv.step

/-- In a run in which no message of another server than the one at its slot sets up a connection,
    every connection is with the server at its slot. -/
theorem rc_bound (h : Reach rcInit RcStep RcOk s) : RcBound s := (RcInv.reach h).rcBound

/-- What server `p` of a small cluster is given when it starts. -/
def smallDevice (p : Nat) : Device where
  lid := UInt16.ofNat (10 + p)
  gid := BitVec.ofNat 128 (p + 1)
  mtu := 5
  slid := UInt16.ofNat (1 + p)
  udQpNum := UInt32.ofNat (100 + p)
  mr
    | .log => ⟨UInt64.ofNat (0x1000 * p + 0x1000), UInt32.ofNat (2 * p + 1)⟩
    | .ctrl => ⟨UInt64.ofNat (0x1000 * p + 0x1800), UInt32.ofNat (2 * p + 2)⟩
  qpNum i
    | .log => UInt32.ofNat (1000 + 100 * p + 2 * i)
    | .ctrl => UInt32.ofNat (1001 + 100 * p + 2 * i)

/-- Three servers at start-up, and one that may join them. -/
def smallCluster : RcCluster where
  count := 4
  servers p := ⟨smallDevice p, UInt8.ofNat p, initCid 3, SID_NULL, 1, fun _ => initIbEp⟩
  sent := []
  occupant i := if i < 3 then some i else none

theorem rcInit_smallCluster : rcInit smallCluster := by
  refine ⟨3, by decide, by decide, by decide, rfl, rfl, ?_, ?_, ?_⟩
  · intro p hp
    have hsize : UInt8.size = 256 := rfl
    exact UInt8.toNat_ofNat_of_lt' (by omega)
  · exact fun p _ => ⟨3, fun _ => rfl, rfl, rfl, rfl, rfl⟩
  · intro p hp q hq haddr
    have hlid : UInt16.ofNat (10 + p) = UInt16.ofNat (10 + q) := congrArg Prod.fst haddr
    have hsize : UInt16.size = 65536 := rfl
    have hp' : p < 4 := hp
    have hq' : q < 4 := hq
    have hnat := congrArg UInt16.toNat hlid
    rw [UInt16.toNat_ofNat_of_lt' (by omega), UInt16.toNat_ofNat_of_lt' (by omega)] at hnat
    omega

/-- Server 1 connects to server 0, which becomes leader, removes it and gives its slot to
    server 3. -/
def reuseSlot : List RcLabel :=
  [.exchange 1, .deliver 0 0, .deliver 1 1, .deliver 0 2, .setSid 0 0x300, .removeServer 0 1,
    .join 3, .deliver 0 3]

/-- Server 3 gets its index, and connects to server 0. -/
def connectAgain : List RcLabel :=
  [.cltReply 0 3 1, .deliver 3 4, .exchange 3, .deliver 0 5, .deliver 3 6, .deliver 0 7]

/-- The leader is connected to server 3 at the slot of server 1. -/
theorem rc_bound_again : ∃ s, s.occupant 1 = some 3 ∧
    ((s.servers 0).eps 1).rcConnected = true ∧ RcBound s := by
  have hrun : ((execIf rcStep RcOk smallCluster (reuseSlot ++ connectAgain)).any fun s =>
      s.occupant 1 == some 3 && ((s.servers 0).eps 1).rcConnected) = true := by
    decide +kernel
  obtain ⟨s, hs, hconn⟩ := (Option.any_eq_true _ _).mp hrun
  rw [Bool.and_eq_true, beq_iff_eq] at hconn
  have hsteps : Steps RcStep RcOk smallCluster s := Steps.refl.execIf hs
  exact ⟨s, hconn.1, hconn.2,
    rc_bound ((Reach.start rcInit_smallCluster).steps (fun _ _ h => h) hsteps)⟩

/-- A RC_ACK of the server that was at a slot before is taken for one of the server there. -/
theorem not_rc_bound : ¬ ∀ s, Reach rcInit RcStep Always s → RcBound s := by
  intro hcon
  have hrun : ((exec rcStep smallCluster (reuseSlot ++ [.deliver 0 2])).any fun s =>
      decide (0 < s.count) && ((s.servers 0).eps 1).rcConnected && s.occupant 1 == some 3 &&
        (((s.servers 0).eps 1).qp .ctrl).isNone) = true := by
    decide +kernel
  obtain ⟨s, hs, hstate⟩ := (Option.any_eq_true _ _).mp hrun
  simp only [Bool.and_eq_true, decide_eq_true_eq, beq_iff_eq, Option.isNone_iff_eq_none] at hstate
  obtain ⟨⟨⟨hcount, hconn⟩, -⟩, hreset⟩ := hstate
  obtain ⟨q, -, hbound⟩ := hcon s ((Reach.start rcInit_smallCluster).exec hs) 0 hcount 1 hconn
  obtain ⟨attr, hattr, -⟩ := hbound.connected
  rw [hreset] at hattr
  cases hattr

end Apus
