import Apus.Lib.Run
import Apus.Group.Bounds
import Apus.Handshake.Binding

namespace Apus

open Lib

/-!
# Who has access to the log

A server grants access to its log by connecting the LOG queue pair of a peer, and withdraws it by a
reset; `log_access` says whether the peer has access.  Only one server should have it, the one that
the SID names, and nobody should have it after `rc_revoke_log_access`.

The flag is not kept up to date by the handlers of RC_SYN and RC_SYNACK, which connect the LOG queue
pair on a leader, nor by `rc_disconnect_server`, which resets it; and `hb_receive_cb` adopts a SID of
its own term without another word.  `log_access_exclusive` shows that the property holds in a run in
which

* no new connection is set up while the server is leader;
* no server with access leaves the configuration or its size;
* a SID that is adopted without a transition to follower names the server that has access;
* access is granted inside the size of the configuration only.
-/

variable {s s' : RcServer} {i : Nat}

namespace RcServer

/-! ### The functions that change the SID -/

/-- `server_update_sid`. -/
def setSid (s : RcServer) (sid : UInt64) : RcServer := { s with sid := sid }

/-- `IS_CANDIDATE`. -/
def isCandidate (s : RcServer) : Bool :=
  sidGetIdx s.sid == s.idx && !sidGetL s.sid && sidGetTerm s.sid != 0

/-- `server_to_follower`; a failure to restore the access is ignored. -/
def toFollower (s : RcServer) : RcServer :=
  let s := s.revokeLogAccess
  s.restoreLogAccess.getD s

/-- `start_election`: the SID is `[t+1|0|own_idx]`. -/
def startElection (s : RcServer) : RcServer :=
  let sid := sidSetIdx (sidUnsetL (sidSetTerm 0 (sidGetTerm s.sid + 1))) s.idx
  (s.setSid sid).revokeLogAccess

/-- `poll_vote_count`, when the votes are enough. -/
def becomeLeader (s : RcServer) : Option RcServer := (s.setSid (sidSetL s.sid)).restoreLogAccess

/-- `poll_vote_requests`, when the server votes. -/
def voteFor (s : RcServer) (sid : UInt64) (cid : DareCid) : Option RcServer := do
  let s ← (s.revokeLogAccess.setSid sid).updateCid cid
  s.restoreLogAccess

/-- `poll_vote_requests`, when the local log is better. -/
def raiseTerm (s : RcServer) (term : UInt64) : RcServer :=
  s.revokeLogAccess.setSid (sidSetIdx (sidSetTerm s.sid term) s.idx)

/-- The loop of `hb_receive_cb` over the heartbeats read: the new SID, and whether there was none. -/
def hbScan (s : RcServer) (hb : Nat → UInt64) : UInt64 × Bool :=
  (List.range (getGroupSize s.cid).toNat).foldl (fun acc i =>
    if i = s.idx.toNat ∨ cidIsServerOn s.cid i = false ∨ hb i = 0 ∨ hb i < acc.1 then acc
    else (if sidGetL (hb i) then hb i else acc.1, false)) (s.sid, true)

/-- `hb_receive_cb`. -/
def hbReceive (s : RcServer) (hb : Nat → UInt64) : RcServer :=
  if getGroupSize s.cid ≤ s.idx then s
  else if (s.hbScan hb).2 then s.startElection
  else
    let s' := s.setSid (s.hbScan hb).1
    -- with the same term it is from the recently elected leader
    if sidGetTerm s.sid ≠ sidGetTerm s'.sid then s'.toFollower else s'

end RcServer

/-! ### Runs of one server -/

inductive AccessLabel
  | rcSyn (wc : Wc) (msg : RcSyn)
  | rcSynack (wc : Wc) (msg : RcSyn)
  | rcAck (idx : UInt8)
  | join (wc : Wc) (gid : Gid) (slid : UInt16)
  | cfgReply (id : UInt64) (idx : UInt8) (cid : DareCid)
  | removeServer (i : Nat)
  | updateCid (cid : DareCid)
  /-- The configuration moves to another state or size. -/
  | resize (epoch : UInt64) (size0 size1 state : UInt8)
  | startElection
  | becomeLeader
  /-- `poll_vote_requests` finds a heartbeat of the server that the SID names. -/
  | adoptHb (hb : UInt64)
  | voteFor (sid : UInt64) (cid : DareCid)
  | raiseTerm (term : UInt64)
  | hbReceive (hb : Nat → UInt64)
  /-- `hb_send_cb` finds a heartbeat with a higher term. -/
  | hbSend
  /-- `rc_verify_leadership` finds a better leader. -/
  | verifyLeadership (sid : UInt64)
  /-- `rc_get_replicated_vote` and `poll_sm_reply`. -/
  | recoverSid (sid : UInt64)

/-- One step; `none` if it is not possible. -/
def accessStep (s : RcServer) : AccessLabel → Option RcServer
  | .rcSyn wc msg => some (s.handleRcSyn wc msg).1
  | .rcSynack wc msg => some (s.handleRcSynack wc msg).1
  | .rcAck idx => some (s.handleRcAck idx).1
  | .join wc gid slid => some (s.handleJoin wc gid slid)
  | .cfgReply id idx cid => some (s.handleCfgReply id idx cid)
  | .removeServer i => some (s.removeServer i)
  | .updateCid cid => s.updateCid cid
  | .resize epoch size0 size1 state => some { s with
      cid := { s.cid with epoch := epoch, size0 := size0, size1 := size1, state := state } }
  | .startElection => some s.startElection
  | .becomeLeader => if s.isCandidate then s.becomeLeader else none
  | .adoptHb hb =>
    if sidGetL s.sid = false ∧ hb ≠ 0 ∧ sidGetTerm hb = sidGetTerm s.sid then some (s.setSid hb)
    else none
  | .voteFor sid cid =>
    if sidGetL s.sid = false ∧ sidSetL s.sid < sid then s.voteFor sid cid else none
  | .raiseTerm term => if sidGetL s.sid = false then some (s.raiseTerm term) else none
  | .hbReceive hb => some (s.hbReceive hb)
  | .hbSend => if s.isLeader then some s.toFollower else none
  | .verifyLeadership sid =>
    if sidGetL sid = true ∧ s.sid < sid then some (s.setSid sid).toFollower else none
  | .recoverSid sid => some (s.setSid sid)

def AccessStep (s : RcServer) (l : AccessLabel) (s' : RcServer) : Prop := accessStep s l = some s'

/-- A server at start-up. -/
def accessInit (s : RcServer) : Prop := ∃ n, FreshServer n s

/-! ### The property -/

/-- Access to the log is exclusive: nobody has it after it is revoked, a follower gives it to its
    leader only, and the flags say who has it. -/
structure LogExclusive (s : RcServer) : Prop where
  revoked : ∀ i, i ≠ s.idx.toNat → (s.revokeLogAccess.eps i).qp .log = none
  leader : sidGetL s.sid = true → sidGetIdx s.sid ≠ s.idx → ∀ i, i ≠ s.idx.toNat →
    i ≠ (sidGetIdx s.sid).toNat → (s.eps i).qp .log = none
  flags : ∀ i, i ≠ s.idx.toNat → ((s.eps i).logAccess = true ↔ (s.eps i).qp .log ≠ none)

/-- The slots that have access are inside another configuration, too. -/
def RcServer.KeepsAccess (s : RcServer) (idx : UInt8) (cid : DareCid) : Prop :=
  ∀ i < (getExtendedGroupSize s.cid).toNat, (s.eps i).logAccess = true →
    i ≠ idx.toNat ∧ cidIsServerOn cid i = true ∧ i < (getExtendedGroupSize cid).toNat

/-- A SID names the server that has access, unless it makes this server leader. -/
def RcServer.NamesOwner (s : RcServer) (sid : UInt64) : Prop :=
  (s.setSid sid).isLeader = true ∨
    ∀ i < (getExtendedGroupSize s.cid).toNat, (s.eps i).logAccess = true →
      i = (sidGetIdx sid).toNat

/-- A server at a slot that is ON is inside the size of the configuration. -/
def InsideSize (cid : DareCid) (sid : UInt64) : Prop :=
  cidIsServerOn cid (sidGetIdx sid).toNat = true →
    (sidGetIdx sid).toNat < (getExtendedGroupSize cid).toNat

/-- The SID that `hb_receive_cb` takes over names the server with access; one of a new term names a
    server inside the configuration. -/
def RcServer.HbOk (s : RcServer) (hb : Nat → UInt64) : Prop :=
  if sidGetTerm s.sid = sidGetTerm (s.hbScan hb).1 then s.NamesOwner (s.hbScan hb).1
  else InsideSize s.cid (s.hbScan hb).1

/-- No connection is set up by a leader, no server with access leaves the configuration, and access
    goes with the SID. -/
def AccessOk (s : RcServer) : AccessLabel → Prop
  | .rcSyn _ msg => s.opens msg.idx = true → s.idx < msg.size → s.isLeader = false
  | .rcSynack _ msg => s.opens msg.idx = true → s.isLeader = false
  | .cfgReply id _ _ => id < s.requestId ∨
      ∀ i < (getExtendedGroupSize s.cid).toNat, (s.eps i).logAccess = false
  | .removeServer i => s.KeepsAccess s.idx (cidServerRm s.cid i)
  | .updateCid cid => s.KeepsAccess s.idx cid
  | .resize epoch size0 size1 state => s.KeepsAccess s.idx
      { s.cid with epoch := epoch, size0 := size0, size1 := size1, state := state }
  | .adoptHb sid | .recoverSid sid => s.NamesOwner sid
  | .voteFor sid cid => InsideSize cid sid
  | .hbReceive hb => s.HbOk hb
  | .verifyLeadership sid => InsideSize s.cid sid
  | _ => True

instance (s : RcServer) (idx : UInt8) (cid : DareCid) : Decidable (s.KeepsAccess idx cid) :=
  inferInstanceAs (Decidable (∀ i < (getExtendedGroupSize s.cid).toNat, (s.eps i).logAccess = true →
    i ≠ idx.toNat ∧ cidIsServerOn cid i = true ∧ i < (getExtendedGroupSize cid).toNat))

instance (s : RcServer) (sid : UInt64) : Decidable (s.NamesOwner sid) :=
  inferInstanceAs (Decidable ((s.setSid sid).isLeader = true ∨
    ∀ i < (getExtendedGroupSize s.cid).toNat, (s.eps i).logAccess = true →
      i = (sidGetIdx sid).toNat))

instance (cid : DareCid) (sid : UInt64) : Decidable (InsideSize cid sid) :=
  inferInstanceAs (Decidable (cidIsServerOn cid (sidGetIdx sid).toNat = true →
    (sidGetIdx sid).toNat < (getExtendedGroupSize cid).toNat))

instance (s : RcServer) (hb : Nat → UInt64) : Decidable (s.HbOk hb) :=
  inferInstanceAs (Decidable (if sidGetTerm s.sid = sidGetTerm (s.hbScan hb).1 then
    s.NamesOwner (s.hbScan hb).1 else InsideSize s.cid (s.hbScan hb).1))

instance (s : RcServer) (l : AccessLabel) : Decidable (AccessOk s l) :=
  match l with
  | .rcSyn _ msg => inferInstanceAs (Decidable (s.opens msg.idx = true → s.idx < msg.size →
      s.isLeader = false))
  | .rcSynack _ msg => inferInstanceAs (Decidable (s.opens msg.idx = true → s.isLeader = false))
  | .cfgReply id _ _ => inferInstanceAs (Decidable (id < s.requestId ∨
      ∀ i < (getExtendedGroupSize s.cid).toNat, (s.eps i).logAccess = false))
  | .removeServer i => inferInstanceAs (Decidable (s.KeepsAccess s.idx (cidServerRm s.cid i)))
  | .updateCid cid => inferInstanceAs (Decidable (s.KeepsAccess s.idx cid))
  | .resize epoch size0 size1 state => inferInstanceAs (Decidable (s.KeepsAccess s.idx
      { s.cid with epoch := epoch, size0 := size0, size1 := size1, state := state }))
  | .adoptHb sid => inferInstanceAs (Decidable (s.NamesOwner sid))
  | .recoverSid sid => inferInstanceAs (Decidable (s.NamesOwner sid))
  | .voteFor sid cid => inferInstanceAs (Decidable (InsideSize cid sid))
  | .hbReceive hb => inferInstanceAs (Decidable (s.HbOk hb))
  | .verifyLeadership sid => inferInstanceAs (Decidable (InsideSize s.cid sid))
  | .rcAck _ | .join _ _ _ | .startElection | .becomeLeader | .raiseTerm _ | .hbSend =>
    inferInstanceAs (Decidable True)

/-! ### The invariant -/

structure AccessInv (s : RcServer) : Prop where
  same : ∀ i, (s.eps i).logAccess = ((s.eps i).qp .log).isSome
  reached : ∀ i, (s.eps i).logAccess = true → s.reaches i = true
  only : s.isLeader = false → ∀ i, (s.eps i).logAccess = true → i = (sidGetIdx s.sid).toNat

/-- Nobody has access to the log. -/
def NoAccess (s : RcServer) : Prop := ∀ i, (s.eps i).logAccess = false ∧ (s.eps i).qp .log = none

theorem RcServer.reaches_iff : s.reaches i = true ↔ i < (getExtendedGroupSize s.cid).toNat ∧
    i ≠ s.idx.toNat ∧ cidIsServerOn s.cid i = true ∧ (s.eps i).rcConnected = true := by
  simp [RcServer.reaches, and_assoc]

/-- The access lies inside the configuration. -/
theorem AccessInv.inside (h : AccessInv s) (hi : (s.eps i).logAccess = true) :
    i < (getExtendedGroupSize s.cid).toNat := (RcServer.reaches_iff.mp (h.reached i hi)).1

theorem AccessInv.off (h : AccessInv s) (hi : (s.eps i).rcConnected = false) :
    (s.eps i).logAccess = false := by
  by_contra hon
  rw [Bool.not_eq_false] at hon
  have hconn := (RcServer.reaches_iff.mp (h.reached i hon)).2.2.2
  rw [hi] at hconn
  cases hconn

theorem AccessInv.log_none (h : AccessInv s) (hi : (s.eps i).logAccess = false) :
    (s.eps i).qp .log = none := by
  have hsame := h.same i
  rw [hi] at hsame
  exact Option.isNone_iff_eq_none.mp (by simpa using hsame.symm)

theorem NoAccess.inv (h : NoAccess s) : AccessInv s := by
  refine ⟨fun i => ?_, fun i hi => ?_, fun _ i hi => ?_⟩
  · rw [(h i).1, (h i).2]
    rfl
  · rw [(h i).1] at hi
    cases hi
  · rw [(h i).1] at hi
    cases hi

/-- After the access is revoked nobody has it. -/
theorem AccessInv.revoke (h : AccessInv s) : NoAccess s.revokeLogAccess := by
  intro i
  simp only [RcServer.revokeLogAccess]
  by_cases haccess : (s.eps i).logAccess = true
  · rw [if_pos (by rw [h.reached i haccess, haccess]; rfl)]
    exact ⟨rfl, by simp [IbEp.resetQp]⟩
  · rw [if_neg (by simp [haccess])]
    rw [Bool.not_eq_true] at haccess
    exact ⟨haccess, h.log_none haccess⟩

/-- The invariant gives the property. -/
theorem AccessInv.logExclusive (h : AccessInv s) : LogExclusive s := by
  refine ⟨fun i _ => (h.revoke i).2, fun hl hne i hi hk => ?_, fun i _ => ?_⟩
  · have hoff : s.isLeader = false := by
      simp [RcServer.isLeader, hne]
    exact h.log_none (Bool.eq_false_iff.mpr fun hon => hk (h.only hoff i hon))
  · rw [h.same i, Option.isSome_iff_ne_none]

/-! ### What keeps the access -/

/-- A change that leaves the LOG queue pairs alone. -/
theorem AccessInv.change (h : AccessInv s)
    (heps : ∀ i, (s'.eps i).logAccess = (s.eps i).logAccess ∧ (s'.eps i).qp .log = (s.eps i).qp .log)
    (hreach : ∀ i, (s.eps i).logAccess = true → s'.reaches i = true)
    (honly : s'.isLeader = false → ∀ i, (s.eps i).logAccess = true →
      i = (sidGetIdx s'.sid).toNat) : AccessInv s' := by
  refine ⟨fun i => ?_, fun i hi => ?_, fun hl i hi => ?_⟩
  · rw [(heps i).1, (heps i).2, h.same i]
  · rw [(heps i).1] at hi
    exact hreach i hi
  · rw [(heps i).1] at hi
    exact honly hl i hi

/-- A slot without a connection changes, but not its LOG queue pair. -/
theorem AccessInv.setEp {ep : IbEp} (h : AccessInv s) (hoff : (s.eps i).rcConnected = false)
    (haccess : ep.logAccess = (s.eps i).logAccess) (hlog : ep.qp .log = (s.eps i).qp .log) :
    AccessInv (s.setEp i ep) := by
  refine h.change (fun j => ?_) (fun j hj => ?_) h.only
  · rw [RcServer.setEp_eps]
    by_cases hj : j = i
    · rw [if_pos hj, hj]
      exact ⟨haccess, hlog⟩
    · rw [if_neg hj]
      exact ⟨rfl, rfl⟩
  · have hne : j ≠ i := by
      rintro rfl
      rw [h.off hoff] at hj
      cases hj
    have hreach := RcServer.reaches_iff.mp (h.reached j hj)
    refine RcServer.reaches_iff.mpr ⟨hreach.1, hreach.2.1, hreach.2.2.1, ?_⟩
    rw [RcServer.setEp_eps, if_neg hne]
    exact hreach.2.2.2

/-- `connectNew` on a server that is not leader. -/
theorem RcServer.connectNew_log (ep : IbEp) (hl : s.isLeader = false) :
    (s.connectNew ep).logAccess = ep.logAccess ∧ (s.connectNew ep).qp .log = ep.qp .log := by
  simp [connectNew, hl, IbEp.connectQp]

/-- The configuration and the index change; the slots that have access stay. -/
theorem AccessInv.cid {idx : UInt8} {cid : DareCid} (h : AccessInv s) (hkeep : s.KeepsAccess idx cid)
    (hcid : s'.cid = cid) (hidx : s'.idx = idx)
    (heps : ∀ i, ((s.eps i).logAccess = true → s'.eps i = s.eps i) ∧
      (s'.eps i).logAccess = (s.eps i).logAccess ∧
      ((s.eps i).logAccess = false → (s.eps i).qp .log = none → (s'.eps i).qp .log = none))
    (honly : s'.isLeader = false → ∀ i, (s.eps i).logAccess = true →
      i = (sidGetIdx s'.sid).toNat) : AccessInv s' := by
  refine h.change (fun i => ⟨(heps i).2.1, ?_⟩) (fun i hi => ?_) honly
  · cases haccess : (s.eps i).logAccess with
    | true => rw [(heps i).1 haccess]
    | false =>
      rw [h.log_none haccess]
      exact (heps i).2.2 haccess (h.log_none haccess)
  · obtain ⟨hne, hon, hlt⟩ := hkeep i (h.inside hi) hi
    refine RcServer.reaches_iff.mpr ⟨hcid ▸ hlt, hidx ▸ hne, hcid ▸ hon, ?_⟩
    rw [(heps i).1 hi]
    exact (RcServer.reaches_iff.mp (h.reached i hi)).2.2.2

@[simp] theorem IbEp.disconnect_logAccess (ep : IbEp) : ep.disconnect.logAccess = ep.logAccess := by
  unfold disconnect
  split <;> rfl

theorem IbEp.disconnect_log {ep : IbEp} (h : ep.qp .log = none) : ep.disconnect.qp .log = none := by
  unfold disconnect
  split
  · simp [resetQp]
  · exact h

theorem cidIsServerOn_rm_self (cid : DareCid) (i : Nat) :
    cidIsServerOn (cidServerRm cid i) i = false := by
  have hzero : ∀ a m : UInt32, a &&& ~~~m &&& m = 0 := fun a m => by
    rw [← UInt32.toBitVec_inj]
    ext b hb
    simp
  simp [cidIsServerOn, cidServerRm, hzero]

theorem cidIsServerOn_add_of_on {cid : DareCid} {i j : Nat} (h : cidIsServerOn cid j = true) :
    cidIsServerOn (cidServerAdd cid i) j = true := by
  have hzero : ∀ a d m : UInt32, (a ||| d) &&& m = 0 → a &&& m = 0 := fun a d m hadd => by
    rw [← UInt32.toBitVec_inj] at hadd ⊢
    ext b hb
    have hbit := congrArg (fun v => v.getLsbD b) hadd
    simp [BitVec.getLsbD_eq_getElem hb] at hbit ⊢
    grind
  rw [cidIsServerOn, bne_iff_ne] at h ⊢
  exact fun hadd => h (hzero _ _ _ hadd)

/-! ### The steps -/

/-- `handle_rc_syn`. -/
theorem AccessInv.rcSyn {wc : Wc} {msg : RcSyn} (h : AccessInv s)
    (hok : s.opens msg.idx = true → s.idx < msg.size → s.isLeader = false) :
    AccessInv (s.handleRcSyn wc msg).1 := by
  unfold RcServer.handleRcSyn
  by_cases hon : cidIsServerOn s.cid msg.idx.toNat = true
  swap
  · simpa [hon] using h
  by_cases hsize : msg.size ≤ s.idx
  · simpa [hon, hsize] using h
  simp only [hon, hsize, Bool.not_true, Bool.false_eq_true, if_false]
  by_cases hconn : (s.eps msg.idx.toNat).rcConnected = true
  · rw [if_pos hconn]
    simpa [RcServer.setEp] using h
  · rw [if_neg hconn]
    have hl := hok (by simp [RcServer.opens, hon, hconn]) (UInt8.not_le.mp hsize)
    have hlog := RcServer.connectNew_log ((s.eps msg.idx.toNat).store s.dev.mtu wc msg
      s.idx.toNat) hl
    exact h.setEp (Bool.eq_false_iff.mpr hconn) hlog.1 hlog.2

/-- `handle_rc_synack`. -/
theorem AccessInv.rcSynack {wc : Wc} {msg : RcSyn} (h : AccessInv s)
    (hok : s.opens msg.idx = true → s.isLeader = false) :
    AccessInv (s.handleRcSynack wc msg).1 := by
  unfold RcServer.handleRcSynack
  by_cases hon : cidIsServerOn s.cid msg.idx.toNat = true
  swap
  · simpa [hon] using h
  simp only [hon, Bool.not_true, Bool.false_eq_true, if_false]
  by_cases hconn : (s.eps msg.idx.toNat).rcConnected = true
  · rw [if_pos hconn]
    exact h
  · rw [if_neg hconn]
    have hl := hok (by simp [RcServer.opens, hon, hconn])
    obtain ⟨haccess, hlog⟩ := RcServer.connectNew_log
      { (s.eps msg.idx.toNat).store s.dev.mtu wc msg 0 with rcConnected := true } hl
    exact h.setEp (Bool.eq_false_iff.mpr hconn) haccess hlog

/-- `handle_rc_ack`. -/
theorem AccessInv.rcAck {idx : UInt8} (h : AccessInv s) : AccessInv (s.handleRcAck idx).1 := by
  unfold RcServer.handleRcAck
  by_cases hon : cidIsServerOn s.cid idx.toNat = true
  swap
  · simpa [hon] using h
  simp only [hon, Bool.not_true, Bool.false_eq_true, if_false]
  by_cases hconn : (s.eps idx.toNat).rcConnected = true
  · rw [if_pos hconn]
    exact h
  · rw [if_neg hconn]
    exact h.setEp (Bool.eq_false_iff.mpr hconn) rfl rfl

/-- A JOIN request neither shrinks the configuration nor turns a server OFF. -/
theorem joinCid_keeps {cid : DareCid} (empty : Nat) (hstable : cid.state = CID_STABLE)
    (hi : i < (getExtendedGroupSize cid).toNat) (hon : cidIsServerOn cid i = true) :
    i < (getExtendedGroupSize (joinCid cid empty)).toNat ∧
      cidIsServerOn (joinCid cid empty) i = true := by
  have hsize : getExtendedGroupSize cid = cid.size0 := if_pos hstable
  rw [hsize] at hi
  have hadd := cidIsServerOn_add_of_on (i := empty) hon
  unfold joinCid
  by_cases hempty : empty = cid.size0.toNat
  · rw [if_pos hempty]
    refine ⟨?_, hadd⟩
    have hstate : ¬ CID_EXTENDED = CID_STABLE := by decide
    have hext : getExtendedGroupSize { cidServerAdd cid empty with
        state := CID_EXTENDED, size1 := cid.size0 + 1, epoch := cid.epoch + 1 } =
        if cid.size0 < cid.size0 + 1 then cid.size0 + 1 else cid.size0 := if_neg hstate
    rw [hext]
    by_cases hlt : cid.size0 < cid.size0 + 1
    · rw [if_pos hlt]
      exact lt_trans hi hlt
    · rw [if_neg hlt]
      exact hi
  · rw [if_neg hempty]
    refine ⟨?_, hadd⟩
    simpa [getExtendedGroupSize, cidServerAdd, hstable] using hi

/-- A new server gets a slot that nobody with access is at. -/
theorem AccessInv.join {wc : Wc} {gid : Gid} {slid : UInt16} (h : AccessInv s) :
    AccessInv (s.handleJoin wc gid slid) := by
  unfold RcServer.handleJoin
  cases hat : s.joinAt wc with
  | none => exact h
  | some empty =>
    obtain ⟨hl, hslot⟩ := Option.ite_none_right_eq_some.mp hat
    obtain ⟨hstable, hscan⟩ := Option.ite_none_left_eq_some.mp hslot
    rw [not_not] at hstable
    have hsize : getExtendedGroupSize s.cid = s.cid.size0 := if_pos hstable
    -- a slot that is free, or behind the group, is not reached
    have hoff : (s.eps empty).logAccess = false := Bool.eq_false_iff.mpr fun hi => by
      obtain ⟨hlt, -, hon, -⟩ := RcServer.reaches_iff.mp (h.reached empty hi)
      rcases joinScan_off hscan with heq | hslot
      · rw [hsize, heq] at hlt
        exact lt_irrefl _ hlt
      · rw [hslot] at hon
        cases hon
    refine h.change (fun j => ?_) (fun j hj => ?_) h.only
    · simp only [RcServer.setEp_eps]
      split
      · rename_i heq
        rw [heq]
        exact ⟨rfl, rfl⟩
      · exact ⟨rfl, rfl⟩
    · obtain ⟨hlt, hne, hon, hconn⟩ := RcServer.reaches_iff.mp (h.reached j hj)
      have hkeeps := joinCid_keeps empty hstable hlt hon
      refine RcServer.reaches_iff.mpr ⟨hkeeps.1, hne, hkeeps.2, ?_⟩
      -- so a server with access is at another slot
      have hslot : j ≠ empty := by
        rintro rfl
        rw [hoff] at hj
        cases hj
      simp only [RcServer.setEp_eps, if_neg hslot]
      exact hconn

/-- `rc_disconnect_server` for a server without access. -/
theorem AccessInv.removeServer (h : AccessInv s)
    (hok : s.KeepsAccess s.idx (cidServerRm s.cid i)) : AccessInv (s.removeServer i) := by
  have hoff : (s.eps i).logAccess = false := Bool.eq_false_iff.mpr fun hi => by
    have hon := (hok i (h.inside hi) hi).2.1
    rw [cidIsServerOn_rm_self] at hon
    cases hon
  refine h.cid hok rfl rfl (fun j => ?_) h.only
  rw [RcServer.removeServer, RcServer.setEp_eps]
  by_cases hj : j = i
  · rw [if_pos hj, hj]
    exact ⟨fun hi => absurd (hoff.symm.trans hi) Bool.false_ne_true, IbEp.disconnect_logAccess _,
      fun _ => IbEp.disconnect_log⟩
  · rw [if_neg hj]
    exact ⟨fun _ => rfl, rfl, fun _ hnone => hnone⟩

/-- `update_cid`. -/
theorem AccessInv.updateCid {cid : DareCid} (h : AccessInv s) (hok : s.KeepsAccess s.idx cid)
    (hs : s.updateCid cid = some s') : AccessInv s' := by
  unfold RcServer.updateCid at hs
  split at hs
  · obtain rfl := Option.some.inj hs
    exact h
  · obtain ⟨-, hs⟩ := Option.ite_none_left_eq_some.mp hs
    obtain rfl := Option.some.inj hs
    refine h.cid hok rfl rfl (fun i => ⟨fun hi => if_neg ?_, ?_, fun _ hnone => ?_⟩) h.only
    · simp [RcServer.departs, (hok i (h.inside hi) hi).2.1]
    · simp only
      split
      · exact IbEp.disconnect_logAccess _
      · rfl
    · simp only
      split
      · exact IbEp.disconnect_log hnone
      · exact hnone

/-- Nobody gets access by a change of the configuration. -/
theorem NoAccess.updateCid {cid : DareCid} (h : NoAccess s) (hs : s.updateCid cid = some s') :
    NoAccess s' ∧ s'.sid = s.sid ∧ s'.idx = s.idx ∧ s'.cid = cid := by
  unfold RcServer.updateCid at hs
  split at hs
  · rename_i heq
    obtain rfl := Option.some.inj hs
    exact ⟨h, rfl, rfl, (equalCid_iff _ _).mp heq⟩
  · obtain ⟨-, hs⟩ := Option.ite_none_left_eq_some.mp hs
    obtain rfl := Option.some.inj hs
    refine ⟨fun i => ?_, rfl, rfl, rfl⟩
    simp only
    split
    · rw [IbEp.disconnect_logAccess]
      exact ⟨(h i).1, IbEp.disconnect_log (h i).2⟩
    · exact h i

/-- A grant to a slot without access. -/
theorem RcServer.grant_off {ep : IbEp} (h : ep.logAccess = false) :
    RcServer.grant ep = { ep.connectQp .log with logAccess := true } := by
  rw [grant, if_neg (by simp [h])]

theorem IbEp.connectQp_isSome (ep : IbEp) (q : QpId) : ((ep.connectQp q).qp q).isSome = true := by
  simp [connectQp]

/-- `rc_restore_log_access` after the access was revoked. -/
theorem NoAccess.restore (h : NoAccess s)
    (hinside : sidGetIdx s.sid ≠ s.idx → InsideSize s.cid s.sid)
    (hs : s.restoreLogAccess = some s') : AccessInv s' := by
  unfold RcServer.restoreLogAccess at hs
  simp only at hs
  split at hs
  · -- access for the server that the SID names
    rename_i hne
    obtain ⟨hcond, hs⟩ := Option.ite_none_right_eq_some.mp hs
    obtain rfl := Option.some.inj hs
    rw [Bool.and_eq_true] at hcond
    have hne' : (sidGetIdx s.sid).toNat ≠ s.idx.toNat := fun heq => hne (UInt8.toNat_inj.mp heq)
    rw [RcServer.grant_off (h _).1]
    refine ⟨fun i => ?_, fun i hi => ?_, fun _ i hi => ?_⟩
    · rw [RcServer.setEp_eps]
      split
      · exact (IbEp.connectQp_isSome _ .log).symm
      · rw [(h i).1, (h i).2]
        rfl
    · rw [RcServer.setEp_eps] at hi
      split at hi
      · rename_i heq
        rw [heq]
        refine RcServer.reaches_iff.mpr ⟨hinside hne hcond.1, hne', hcond.1, ?_⟩
        rw [RcServer.setEp_eps, if_pos rfl]
        exact hcond.2
      · rw [(h i).1] at hi
        cases hi
    · rw [RcServer.setEp_eps] at hi
      split at hi
      · assumption
      · rw [(h i).1] at hi
        cases hi
  · rename_i heq
    rw [not_not] at heq
    split at hs
    · -- the leader takes up access to all
      rename_i hl
      obtain rfl := Option.some.inj hs
      refine ⟨fun i => ?_, fun i hi => ?_, fun hleader => ?_⟩
      · simp only
        split
        · rw [RcServer.grant_off (h i).1]
          exact (IbEp.connectQp_isSome _ .log).symm
        · rw [(h i).1, (h i).2]
          rfl
      · simp only at hi
        split at hi
        · rename_i hreach
          obtain ⟨hlt, hne, hon, hconn⟩ := RcServer.reaches_iff.mp hreach
          refine RcServer.reaches_iff.mpr ⟨hlt, hne, hon, ?_⟩
          simp only [if_pos hreach]
          rw [RcServer.grant_off (h i).1]
          exact hconn
        · rw [(h i).1] at hi
          cases hi
      · simp [RcServer.isLeader, heq, hl] at hleader
    · obtain rfl := Option.some.inj hs
      exact h.inv

/-- `server_to_follower`. -/
theorem NoAccess.toFollower (h : NoAccess s.revokeLogAccess)
    (hinside : sidGetIdx s.sid ≠ s.idx → InsideSize s.cid s.sid) : AccessInv s.toFollower := by
  unfold RcServer.toFollower
  cases hs : s.revokeLogAccess.restoreLogAccess with
  | none =>
    simp only [hs, Option.getD_none]
    exact h.inv
  | some s' =>
    simp only [hs, Option.getD_some]
    exact h.restore hinside hs

/-- The access that is revoked does not depend on the SID. -/
theorem AccessInv.revokeNew (h : AccessInv s) (sid : UInt64) :
    NoAccess (s.setSid sid).revokeLogAccess := h.revoke

/-- A SID that names the server with access is adopted. -/
theorem AccessInv.setSid {sid : UInt64} (h : AccessInv s) (hok : s.NamesOwner sid) :
    AccessInv (s.setSid sid) := by
  refine h.change (fun _ => ⟨rfl, rfl⟩) h.reached fun hl i hi => ?_
  rcases hok with hleader | hnames
  · rw [hl] at hleader
    cases hleader
  · exact hnames i (h.inside hi) hi

/-- A candidate has not given access to anyone, and takes it up as leader. -/
theorem AccessInv.becomeLeader (h : AccessInv s) (hcand : s.isCandidate = true)
    (hs : s.becomeLeader = some s') : AccessInv s' := by
  simp only [RcServer.isCandidate, Bool.and_eq_true, Bool.not_eq_true', beq_iff_eq] at hcand
  have hnone : NoAccess s := by
    intro i
    have hoff : (s.eps i).logAccess = false := Bool.eq_false_iff.mpr fun hi => by
      have hnot : s.isLeader = false := by
        simp [RcServer.isLeader, hcand.1.2]
      have hown := h.only hnot i hi
      rw [hcand.1.1] at hown
      exact (RcServer.reaches_iff.mp (h.reached i hi)).2.1 hown
    exact ⟨hoff, h.log_none hoff⟩
  have hset : NoAccess (s.setSid (sidSetL s.sid)) := hnone
  refine hset.restore (fun hne => absurd ?_ hne) hs
  exact (sidGetIdx_sidSetL s.sid).trans hcand.1.1

/-- A vote. -/
theorem AccessInv.voteFor {sid : UInt64} {cid : DareCid} (h : AccessInv s)
    (hok : InsideSize cid sid) (hs : s.voteFor sid cid = some s') : AccessInv s' := by
  obtain ⟨t, ht, hs⟩ := Option.bind_eq_some_iff.mp hs
  have hset : NoAccess (s.revokeLogAccess.setSid sid) := h.revoke
  obtain ⟨hnone, hsid, -, hcid⟩ := hset.updateCid ht
  refine hnone.restore (fun _ => ?_) hs
  rw [hsid, hcid]
  exact hok

/-- `hb_receive_cb`. -/
theorem AccessInv.hbReceive {hb : Nat → UInt64} (h : AccessInv s) (hok : s.HbOk hb) :
    AccessInv (s.hbReceive hb) := by
  unfold RcServer.hbReceive
  split
  · exact h
  split
  · exact NoAccess.inv (h.revokeNew _)
  unfold RcServer.HbOk at hok
  simp only
  split
  · rename_i hnew
    have hterm : sidGetTerm s.sid ≠ sidGetTerm (s.hbScan hb).1 := hnew
    rw [if_neg hterm] at hok
    exact (h.revokeNew _).toFollower fun _ => hok
  · rename_i hold
    have hterm : sidGetTerm s.sid = sidGetTerm (s.hbScan hb).1 := not_not.mp hold
    rw [if_pos hterm] at hok
    exact h.setSid hok

/-- `handle_server_join_reply`. -/
theorem AccessInv.cfgReply {id : UInt64} {idx : UInt8} {cid : DareCid} (h : AccessInv s)
    (hok : id < s.requestId ∨
      ∀ i < (getExtendedGroupSize s.cid).toNat, (s.eps i).logAccess = false) :
    AccessInv (s.handleCfgReply id idx cid) := by
  unfold RcServer.handleCfgReply
  by_cases hid : id < s.requestId
  · rw [if_pos hid]
    exact h
  · rw [if_neg hid]
    refine NoAccess.inv fun i => ?_
    have hoff : (s.eps i).logAccess = false := Bool.eq_false_iff.mpr fun hi =>
      Bool.eq_false_iff.mp (hok.resolve_left hid i (h.inside hi)) hi
    exact ⟨hoff, h.log_none hoff⟩

/-! ### Runs -/

theorem AccessInv.init (h : accessInit s) : AccessInv s := by
  obtain ⟨n, h⟩ := h
  refine NoAccess.inv fun i => ?_
  rw [h.eps]
  exact ⟨rfl, rfl⟩

/-- The step lemma. -/
theorem AccessInv.step {l : AccessLabel} (h : AccessInv s) (hok : AccessOk s l)
    (hs : AccessStep s l s') : AccessInv s' := by
  unfold AccessStep accessStep at hs
  cases l with
  | rcSyn wc msg =>
    obtain rfl := Option.some.inj hs
    exact h.rcSyn hok
  | rcSynack wc msg =>
    obtain rfl := Option.some.inj hs
    exact h.rcSynack hok
  | rcAck idx =>
    obtain rfl := Option.some.inj hs
    exact h.rcAck
  | join wc gid slid =>
    obtain rfl := Option.some.inj hs
    exact h.join
  | cfgReply id idx cid =>
    obtain rfl := Option.some.inj hs
    exact h.cfgReply hok
  | removeServer i =>
    obtain rfl := Option.some.inj hs
    exact h.removeServer hok
  | updateCid cid => exact h.updateCid hok hs
  | resize epoch size0 size1 state =>
    obtain rfl := Option.some.inj hs
    exact h.cid hok rfl rfl (fun _ => ⟨fun _ => rfl, rfl, fun _ hnone => hnone⟩) h.only
  | startElection =>
    obtain rfl := Option.some.inj hs
    exact NoAccess.inv (h.revokeNew _)
  | becomeLeader =>
    obtain ⟨hcand, hs⟩ := Option.ite_none_right_eq_some.mp hs
    exact h.becomeLeader hcand hs
  | adoptHb hb =>
    obtain ⟨-, hs⟩ := Option.ite_none_right_eq_some.mp hs
    obtain rfl := Option.some.inj hs
    exact h.setSid hok
  | voteFor sid cid =>
    obtain ⟨-, hs⟩ := Option.ite_none_right_eq_some.mp hs
    exact h.voteFor hok hs
  | raiseTerm term =>
    obtain ⟨-, hs⟩ := Option.ite_none_right_eq_some.mp hs
    obtain rfl := Option.some.inj hs
    exact NoAccess.inv h.revoke
  | hbReceive hb =>
    obtain rfl := Option.some.inj hs
    exact h.hbReceive hok
  | hbSend =>
    obtain ⟨hl, hs⟩ := Option.ite_none_right_eq_some.mp hs
    obtain rfl := Option.some.inj hs
    simp only [RcServer.isLeader, Bool.and_eq_true, beq_iff_eq] at hl
    exact h.revoke.toFollower fun hne => absurd hl.2 hne
  | verifyLeadership sid =>
    obtain ⟨-, hs⟩ := Option.ite_none_right_eq_some.mp hs
    obtain rfl := Option.some.inj hs
    exact (h.revokeNew sid).toFollower fun _ => hok
  | recoverSid sid =>
    obtain rfl := Option.some.inj hs
    exact h.setSid hok

/-- The run lemma. -/
theorem AccessInv.reach (h : Reach accessInit AccessStep AccessOk s) : AccessInv s :=
  h.invariant (fun _ => AccessInv.init) fun _ _ _ => AccessInv.step

/-- In a run in which access goes with the SID, access to the log is exclusive. -/
theorem log_access_exclusive (h : Reach accessInit AccessStep AccessOk s) : LogExclusive s :=
  (AccessInv.reach h).logExclusive

/-- Server `p` of the small cluster. -/
def smallServer (p : Nat) : RcServer := smallCluster.servers p

theorem accessInit_smallServer (p : Nat) : accessInit (smallServer p) :=
  ⟨3, rfl, rfl, rfl, rfl⟩

/-- The contents of a RC_SYN of server `q` of the small cluster. -/
def smallSyn (q : Nat) : RcSyn where
  id := 1
  gid := (smallDevice q).gid
  slid := (smallDevice q).slid
  logRm := (smallDevice q).mr .log
  ctrlRm := (smallDevice q).mr .ctrl
  mtu := 5
  idx := UInt8.ofNat q
  size := 3
  qpns := (smallDevice q).qpNum

/-- Server 1 connects to the others, votes for server 0 and gets its heartbeat as leader. -/
def followZero : List AccessLabel :=
  [.rcSyn (smallCluster.wc 0) (smallSyn 0), .rcAck 0, .rcSyn (smallCluster.wc 2) (smallSyn 2),
    .rcAck 2, .voteFor 0x200 (initCid 3), .hbReceive fun i => if i = 0 then 0x300 else 0]

/-- Server 1 follows server 0, which alone has access. -/
theorem log_access_exclusive_follower : ∃ s, (s.eps 0).logAccess = true ∧ s.sid = 0x300 ∧
    LogExclusive s := by
  have hrun : ((execIf accessStep AccessOk (smallServer 1) followZero).any fun s =>
      (s.eps 0).logAccess && s.sid == 0x300) = true := by
    decide +kernel
  obtain ⟨s, hs, hstate⟩ := (Option.any_eq_true _ _).mp hrun
  rw [Bool.and_eq_true, beq_iff_eq] at hstate
  have hsteps : Steps AccessStep AccessOk (smallServer 1) s := Steps.refl.execIf hs
  exact ⟨s, hstate.1, hstate.2, log_access_exclusive
    ((Reach.start (accessInit_smallServer 1)).steps (fun _ _ h => h) hsteps)⟩

/-- A server that connects to a leader keeps its access when the leader revokes it. -/
theorem not_log_access_exclusive :
    ¬ ∀ s, Reach accessInit AccessStep Always s → LogExclusive s := by
  intro hcon
  have hrun : ((exec accessStep (smallServer 0)
      [.startElection, .becomeLeader, .rcSyn (smallCluster.wc 1) (smallSyn 1), .rcAck 1]).any fun s =>
        s.idx == 0 && ((s.revokeLogAccess.eps 1).qp .log).isSome) = true := by
    decide +kernel
  obtain ⟨s, hs, hstate⟩ := (Option.any_eq_true _ _).mp hrun
  rw [Bool.and_eq_true, beq_iff_eq] at hstate
  have hne : 1 ≠ s.idx.toNat := by
    rw [hstate.1]
    decide
  have hnone := (hcon s ((Reach.start (accessInit_smallServer 0)).exec hs)).revoked 1 hne
  rw [hnone] at hstate
  cases hstate.2

end Apus
