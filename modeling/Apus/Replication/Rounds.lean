import Apus.Replication.Model
import Apus.Log.Full

namespace Apus

open Lib

/-!
# Rounds of log replication

The requests a follower is waited for are those that log adjustment or log update posted since
`send_flag` was cleared (`awaited`): they and no others carry the identifier `next_wr_id`
(`LrInv.ids`).  `Expects` says which they can be in each step; for a log update, the parts that
still have to be written.  `LrInv` holds in every run.
-/

/-! ### Identifiers -/

/-- An identifier without its flags, as `handle_lr_work_completion` compares it. -/
def wridBase (wrid : Nat) : Nat := wridUnsetWa (wridUnsetTag wrid)

theorem wridBase_eq {n c : Nat} (hc : c < 256) : wridBase (n * 1024 + c) = n * 1024 + c := by
  have htag : wridGetTag (n * 1024 + c) = false := by
    rw [wridGetTag, beq_eq_false_iff_ne]
    omega
  have hwa : wridGetWa (n * 1024 + c) = false := by
    rw [wridGetWa, beq_eq_false_iff_ne]
    omega
  simp only [wridBase, wridUnsetTag, wridUnsetWa, htag, hwa, Bool.false_eq_true, if_false]

theorem wridSetWa_eq {n c : Nat} (hc : c < 256) :
    wridSetWa (n * 1024 + c) = n * 1024 + c + 512 := by
  have hwa : wridGetWa (n * 1024 + c) = false := by
    rw [wridGetWa, beq_eq_false_iff_ne]
    omega
  rw [wridSetWa, hwa]
  rfl

/-- Neither the identifier nor that of a second part is tagged. -/
theorem wridGetTag_eq {n c : Nat} (hc : c < 256) :
    wridGetTag (n * 1024 + c) = false ∧ wridGetTag (n * 1024 + c + 512) = false := by
  simp only [wridGetTag, beq_eq_false_iff_ne]
  omega

/-- The flag of a second part is taken off. -/
theorem wridBase_add {n c : Nat} (hc : c < 256) :
    wridBase (n * 1024 + c + 512) = n * 1024 + c := by
  have hset : wridGetWa (n * 1024 + c + 512) = true := by
    rw [wridGetWa, beq_iff_eq]
    omega
  simp only [wridBase, wridUnsetTag, wridUnsetWa, (wridGetTag_eq hc).2, hset, Bool.false_eq_true,
    if_false, if_true, Nat.add_sub_cancel]

/-- The flag of a special signaled request is taken off. -/
theorem wridBase_setTag {wrid : Nat} (h : wridGetTag wrid = false) :
    wridBase (wridSetTag wrid) = wridBase wrid := by
  have hset : wridGetTag (wrid + 256) = true := by
    rw [wridGetTag, beq_eq_false_iff_ne] at h
    rw [wridGetTag, beq_iff_eq]
    omega
  simp only [wridSetTag, wridBase, wridUnsetTag, h, hset, Bool.false_eq_true, if_false, if_true,
    Nat.add_sub_cancel]

/-- The identifier of a request posted in round `n`. -/
theorem wridSet_eq {m n b c : Nat} (hb : b < 256) :
    wridSetConn (wridSetSsn (m * 1024 + b) n) c = n * 1024 + c := by
  simp only [wridSetConn, wridSetSsn]
  omega

theorem wridSet_zero (n c : Nat) : wridSetConn (wridSetSsn 0 n) c = n * 1024 + c := by
  simp only [wridSetConn, wridSetSsn]
  omega

variable {s s' : LrState} {w : WorkRequest} {r : Request} {wa : Bool} {rc : WcResult} {k len : Nat}
  {ws : List WorkRequest}

/-! ### Requests of log replication -/

/-- The requests of log replication among `ws`. -/
def lrOf (ws : List WorkRequest) : List Request :=
  (ws.map fun w => w.request).filter Request.isLr

theorem lrOf_append (ws ws' : List WorkRequest) : lrOf (ws ++ ws') = lrOf ws ++ lrOf ws' := by
  rw [lrOf, List.map_append, List.filter_append]
  rfl

theorem lrOf_cons_of_lr (h : w.request.isLr = true) (ws : List WorkRequest) :
    lrOf (w :: ws) = w.request :: lrOf ws := by
  rw [lrOf, List.map_cons, List.filter_cons_of_pos h]
  rfl

theorem lrOf_cons_of_not_lr (h : w.request.isLr = false) (ws : List WorkRequest) :
    lrOf (w :: ws) = lrOf ws := by
  rw [lrOf, List.map_cons, List.filter_cons_of_neg (by rw [h]; exact Bool.false_ne_true)]
  rfl

theorem lrOf_eq_nil (h : ∀ w ∈ ws, w.request.isLr = false) : lrOf ws = [] := by
  refine List.filter_eq_nil_iff.mpr fun r hr => ?_
  obtain ⟨w, hw, rfl⟩ := List.mem_map.mp hr
  rw [h w hw]
  exact Bool.false_ne_true

/-! ### What the functions change -/

namespace LrState

/-- The requests that are left when the next one is posted. -/
def kept (s : LrState) : List WorkRequest := if s.qp.state = .error then [] else s.qp.outstanding

theorem newWrId_eq (hc : s.conn < 256) (wa : Bool) :
    wridGetTag (s.newWrId wa) = false ∧ wridBase (s.newWrId wa) = s.ssn * 1024 + s.conn := by
  obtain ⟨htag, htag'⟩ := wridGetTag_eq (n := s.ssn) hc
  simp only [newWrId, wridSet_zero, wridSetWa_eq hc]
  cases wa
  · exact ⟨htag, wridBase_eq hc⟩
  · exact ⟨htag', wridBase_add hc⟩

/-- The identifier of the requests posted now. -/
def wrId (s : LrState) : Nat := s.ssn * 1024 + s.conn

/-- The request that is posted, if the QP takes it. -/
structure Posted (wrId : Nat) (r : Request) (w : WorkRequest) : Prop where
  request : w.request = r
  source : w.source = none
  base : wridBase w.wrId = wrId
  signaled : r.isLr = true → w.signaled = true

theorem post_outstanding (hc : s.conn < 256) (qp : RcQp) (r : Request) (wa : Bool) :
    (qp.ready = true → ∃ w, (qp.post s.rcMaxSendWr (s.newWrId wa) r).outstanding =
      qp.outstanding ++ [w] ∧ Posted s.wrId r w) ∧
    (qp.ready = false →
      (qp.post s.rcMaxSendWr (s.newWrId wa) r).outstanding = qp.outstanding) := by
  obtain ⟨htag, hbase⟩ := newWrId_eq hc wa
  unfold RcQp.post
  simp only
  generalize qp.wantsSignal s.rcMaxSendWr = special
  constructor
  · intro hready
    rw [if_pos hready]
    refine ⟨_, rfl, rfl, rfl, ?_, fun hr => ?_⟩
    · cases special
      · exact hbase
      · exact (wridBase_setTag htag).trans hbase
    · show (r.isLr || special) = true
      rw [hr]
      rfl
  · intro hready
    rw [hready]
    rfl

/-- The QP `qp` after the request `r` is posted: behind the requests that are left are the new ones,
    `ws`, none if the QP does not take the request.  `lost` is still off if this was no loss. -/
structure PostResult (s : LrState) (r : Request) (ws : List WorkRequest) (qp : RcQp) (lost : Bool) :
    Prop where
  outstanding : qp.outstanding = s.kept ++ ws
  posted : ∀ w ∈ ws, Posted s.wrId r w
  lr : (lrOf ws).Sublist ([r].filter Request.isLr)
  all : lost = false → s.lostPart = false ∧ lrOf s.kept = lrOf s.qp.outstanding ∧
    lrOf ws = [r].filter Request.isLr

theorem lrOf_posted (h : Posted s.wrId r w) : lrOf [w] = [r].filter Request.isLr := by
  rw [lrOf, List.map_singleton, h.request]

theorem postSend_eq (hc : s.conn < 256) (r : Request) (wa : Bool) :
    ∃ ws qp lost, s.postSend r wa = { s with qp := qp, lostPart := lost } ∧
      s.PostResult r ws qp lost := by
  unfold postSend clearError
  by_cases herror : s.qp.state = .error
  · rw [if_pos herror]
    obtain ⟨w, hw, hposted⟩ := (post_outstanding (s := s.setQp .connected) hc .connected r wa).1 rfl
    have hkept : s.kept = [] := if_pos herror
    refine ⟨[w], _, _, rfl, ?_, ?_, ?_, fun hlost => ?_⟩
    · rw [hkept]
      exact hw
    · intro v hv
      rw [List.mem_singleton.mp hv]
      exact hposted
    · rw [lrOf_posted (s := s) hposted]
    · obtain ⟨hbefore, hany⟩ := Bool.or_eq_false_iff.mp (Bool.or_eq_false_iff.mp hlost).1
      refine ⟨hbefore, ?_, lrOf_posted (s := s) hposted⟩
      rw [hkept, lrOf_eq_nil fun w hw => Bool.eq_false_iff.mpr (List.any_eq_false.mp hany w hw)]
      exact lrOf_eq_nil nofun
  · rw [if_neg herror]
    have hkept : s.kept = s.qp.outstanding := if_neg herror
    obtain ⟨htakes, hdrops⟩ := post_outstanding hc s.qp r wa
    cases hready : s.qp.ready with
    | true =>
      obtain ⟨w, hw, hposted⟩ := htakes hready
      refine ⟨[w], _, _, rfl, ?_, ?_, ?_, fun hlost => ?_⟩
      · rw [hw, hkept]
      · intro v hv
        rw [List.mem_singleton.mp hv]
        exact hposted
      · rw [lrOf_posted hposted]
      · exact ⟨(Bool.or_eq_false_iff.mp hlost).1, by rw [hkept], lrOf_posted hposted⟩
    | false =>
      refine ⟨[], _, _, rfl, ?_, nofun, List.nil_sublist _, fun hlost => ?_⟩
      · rw [hdrops hready, hkept, List.append_nil]
      · obtain ⟨hbefore, hlr⟩ := Bool.or_eq_false_iff.mp hlost
        refine ⟨hbefore, by rw [hkept], ?_⟩
        -- a request of log replication would be lost
        simp only [hready, Bool.not_false, Bool.and_true] at hlr
        rw [List.filter_cons_of_neg (by rw [hlr]; exact Bool.false_ne_true)]
        rfl

theorem kept_sublist (s : LrState) : s.kept.Sublist s.qp.outstanding := by
  unfold kept
  split
  · exact List.nil_sublist _
  · exact List.Sublist.refl _

end LrState

/-! ### What a follower is waited for -/

/-- The bytes of a block. -/
def Request.Covers (r : Request) (x : Nat) : Prop :=
  match r with
  | .entries start len => start ≤ x ∧ x < start + len
  | _ => False

/-- The requests have no byte in common. -/
def Request.Apart (r r' : Request) : Prop := ∀ x, r.Covers x → ¬ r'.Covers x

/-- The bytes around a ring of `len` from one offset to another. -/
def InRange (len start stop x : Nat) : Prop :=
  if start < stop then start ≤ x ∧ x < stop else start ≤ x ∧ x < len ∨ x < stop

/-- The parts `send_count` stands for; the second one may be empty. -/
def parts (len remoteEnd end_ : Nat) : List Request :=
  if remoteEnd < end_ then [.entries remoteEnd (end_ - remoteEnd)]
  else [.entries remoteEnd (len - remoteEnd), .entries 0 end_]

namespace LrState

/-- The requests of log replication that are not polled yet, those still to be posted last. -/
def awaited (s : LrState) : List Request :=
  (s.qp.outstanding.map (fun w => w.request) ++ s.call.map Prod.fst).filter Request.isLr

/-- The byte was written since `LR_UPDATE_LOG` was entered, and the follower has it. -/
def Stored (s : LrState) (x : Nat) : Prop :=
  ∃ b ∈ s.written, b.start ≤ x ∧ x < b.start + b.len ∧ s.remote x = b.source x

/-- The requests that can be waited for in a step, if none was lost. -/
def Expects (s : LrState) (len : Nat) (R : List Request) : Prop :=
  match s.nextLrStep with
  | .getWrite => False
  | .getNceLen => R = [.readNceLen]
  | .getNce => R = [.readNce]
  | .setEnd => R = [.setEnd s.remoteEnd]
  | .updateLog => (∀ r ∈ R, ∃ start n, r = .entries start n) ∧ R.Pairwise Request.Apart ∧
      R.length = max 1 s.sendCount ∧ s.sendCount ≤ 2 ∧
      (0 < s.sendCount → s.failedPart = false ∧
        ∀ x, InRange len s.remoteEnd s.cachedEndOffset x → (∃ r ∈ R, r.Covers x) ∨ s.Stored x)
  | .updateEnd => R = [.updateEnd s.cachedEndOffset] ∧ s.remoteEnd = s.cachedEndOffset

/-- An update whose second part is empty counts a request that is never posted. -/
def Short (s : LrState) : Prop := s.nextLrStep = .updateLog ∧ s.cachedEndOffset = 0

/-- While the flag is off, some of the requests of the step are waited for: all of them, unless one
    was lost or is never posted. -/
def Waits (s : LrState) (len : Nat) : Prop :=
  ∃ R, s.awaited.Sublist R ∧ s.Expects len R ∧ (s.lostPart = false → ¬ s.Short → s.awaited = R)

end LrState

/-- The requests waited for, and no others, carry the identifier that is waited for. -/
structure LrIds (s : LrState) : Prop where
  conn_lt : s.conn < 256
  round : ∃ n ≤ s.ssn, ∃ c < 256, s.nextWrId = n * 1024 + c
  old : ∀ w ∈ s.qp.outstanding, ∃ n ≤ s.ssn, wridBase w.wrId = n * 1024 + s.conn
  ids : ∀ w ∈ s.qp.outstanding, w.request.isLr = true ↔ wridBase w.wrId = s.nextWrId
  signaled : ∀ w ∈ s.qp.outstanding, w.request.isLr = true → w.signaled = true
  calls : ∀ r ∈ s.call, r.1.isLr = true ↔ s.wrId = s.nextWrId
  second : ∀ r ∈ s.call, r.2 = true → r.1.isLr = true
  offline : s.rcConnected = false → s.qp.outstanding = [] ∧ s.call = []
  off : s.isOn = false → s.rcConnected = false

/-- The invariant of log replication, for a buffer of `len` bytes. -/
structure LrInv (len : Nat) (s : LrState) : Prop where
  len_eq : s.log.len = len
  ids : LrIds s
  idle : s.sendFlag = true → s.awaited = []
  waits : s.sendFlag = false → s.Waits len
  started : s.nextLrStep = .updateLog → s.remoteEnd = s.confirmedEnd
  stored : s.nextLrStep = .updateEnd → s.failedPart = false ∧
    ∀ x, InRange len s.confirmedEnd s.cachedEndOffset x → s.Stored x
  failed : s.failedPart = true → s.nextLrStep = .updateLog
  landed : ∀ w ∈ s.qp.outstanding, ∀ m, w.source = some m → ∀ x, w.request.Covers x →
    s.remote x = m x

theorem LrInv.init (h : lrInit s) : LrInv LOG_SIZE s := by
  obtain ⟨hlen, hflag, hstep, hqp, hcall, -, hfailed, hstart, hconn, hround, hoff⟩ := h
  have hout : s.qp.outstanding = [] := by rw [hqp]; rfl
  have hnone : ∀ {P : WorkRequest → Prop}, ∀ w ∈ s.qp.outstanding, P w := by
    intro P w hw
    rw [hout] at hw
    cases hw
  have hcalls : ∀ {P : Request × Bool → Prop}, ∀ r ∈ s.call, P r := by
    intro P r hr
    rw [hcall] at hr
    cases hr
  refine ⟨hlen, ⟨hconn, hround, hnone, hnone, hnone, hcalls, hcalls, fun _ => ⟨hout, hcall⟩, hoff⟩,
    fun _ => ?_, fun h => ?_, fun _ => hstart, fun h => absurd h hstep, fun h => ?_, hnone⟩
  · rw [LrState.awaited, hout, hcall]
    rfl
  · rw [hflag] at h
    cases h
  · rw [hfailed] at h
    cases h

/-! ### Steps that post -/

section Post

variable {t : LrState} {cs : List (Request × Bool)}

/-- No request of log replication is outstanding while the flag is on. -/
theorem LrInv.not_lr (h : LrInv len s) (hflag : s.sendFlag = true) :
    ∀ w ∈ s.qp.outstanding, w.request.isLr = false := by
  intro w hw
  have hnil := List.filter_eq_nil_iff.mp (h.idle hflag) w.request
    (List.mem_append_left _ (List.mem_map_of_mem hw))
  simpa using hnil

/-- Requests that are about to be posted in a new round get the identifier to wait for. -/
theorem LrIds.startLr (h : LrIds s) (hidle : ∀ w ∈ s.qp.outstanding, w.request.isLr = false)
    (hon : s.rcConnected = true) (hcs : ∀ r ∈ cs, r.1.isLr = true)
    (hconn : t.conn = s.conn) (hssn : t.ssn = s.ssn + 1) (hnext : t.nextWrId = s.nextWrId)
    (hqp : t.qp = s.qp) (hlink : t.rcConnected = s.rcConnected) (hisOn : t.isOn = s.isOn) :
    LrIds (t.startLr cs) := by
  obtain ⟨n, hn, c, hc, hround⟩ := h.round
  have hnew : (t.startLr cs).nextWrId = (s.ssn + 1) * 1024 + t.conn := by
    show wridSetConn (wridSetSsn t.nextWrId t.ssn) t.conn = _
    rw [hnext, hround, hconn, hssn]
    exact wridSet_eq hc
  have hkept : (t.startLr cs).qp = s.qp := hqp
  refine ⟨?_, ⟨s.ssn + 1, ?_, t.conn, ?_, hnew⟩, ?_, ?_, ?_, ?_, ?_, ?_, ?_⟩
  · show t.conn < 256
    rw [hconn]
    exact h.conn_lt
  · show s.ssn + 1 ≤ t.ssn
    rw [hssn]
  · rw [hconn]
    exact h.conn_lt
  · intro w hw
    rw [hkept] at hw
    obtain ⟨m, hm, hbase⟩ := h.old w hw
    refine ⟨m, ?_, ?_⟩
    · show m ≤ t.ssn
      omega
    · show wridBase w.wrId = m * 1024 + t.conn
      rw [hconn]
      exact hbase
  · intro w hw
    rw [hkept] at hw
    -- requests of earlier rounds have smaller identifiers
    obtain ⟨m, hm, hbase⟩ := h.old w hw
    rw [hidle w hw, hbase, hnew, hconn]
    constructor
    · intro hcon
      cases hcon
    · intro hcon
      omega
  · intro w hw hlr
    rw [hkept] at hw
    rw [hidle w hw] at hlr
    cases hlr
  · intro r hr
    have hid : (t.startLr cs).wrId = (t.startLr cs).nextWrId := by
      rw [hnew]
      show t.ssn * 1024 + t.conn = _
      rw [hssn]
    exact ⟨fun _ => hid, fun _ => hcs r hr⟩
  · exact fun r hr _ => hcs r hr
  · intro hcon
    have hcon' : t.rcConnected = false := hcon
    rw [hlink, hon] at hcon'
    cases hcon'
  · intro hcon
    have hcon' : t.isOn = false := hcon
    rw [hisOn] at hcon'
    have hcut := h.off hcon'
    rw [hon] at hcut
    cases hcut

theorem awaited_startLr (h : LrInv len s) (hflag : s.sendFlag = true)
    (hcs : ∀ r ∈ cs, r.1.isLr = true) (hqp : t.qp = s.qp) :
    (t.startLr cs).awaited = cs.map Prod.fst := by
  show (t.qp.outstanding.map _ ++ cs.map Prod.fst).filter Request.isLr = _
  rw [hqp, List.filter_append, List.filter_eq_nil_iff.mpr, List.nil_append,
    List.filter_eq_self.mpr]
  · intro r hr
    obtain ⟨q, hq, rfl⟩ := List.mem_map.mp hr
    exact hcs q hq
  · intro r hr
    obtain ⟨w, hw, rfl⟩ := List.mem_map.mp hr
    rw [h.not_lr hflag w hw]
    exact Bool.false_ne_true

/-- What a server that is not skipped is like. -/
theorem not_skipped (h : ¬ (s.isSkipped || !s.sendFlag) = true) :
    s.rcConnected = true ∧ s.sendFlag = true := by
  simp only [LrState.isSkipped, Bool.or_eq_true, Bool.not_eq_true', not_or, Bool.not_eq_false] at h
  exact ⟨h.1.2, h.2⟩

/-- The send sequence number may increase between calls. -/
theorem LrIds.succ (h : LrIds s) (ht : t.call = [])
    (hconn : t.conn = s.conn) (hssn : s.ssn ≤ t.ssn) (hnext : t.nextWrId = s.nextWrId)
    (hqp : t.qp = s.qp) (hlink : t.rcConnected = s.rcConnected) (hisOn : t.isOn = s.isOn) :
    LrIds t := by
  obtain ⟨n, hn, c, hc, hround⟩ := h.round
  refine ⟨by rw [hconn]; exact h.conn_lt, ⟨n, by omega, c, hc, by rw [hnext]; exact hround⟩,
    fun w hw => ?_, ?_, ?_, ?_, ?_, ?_, ?_⟩
  · rw [hqp] at hw
    obtain ⟨m, hm, hbase⟩ := h.old w hw
    exact ⟨m, by omega, by rw [hconn]; exact hbase⟩
  · rw [hqp, hnext]
    exact h.ids
  · rw [hqp]
    exact h.signaled
  · rw [ht]
    exact nofun
  · rw [ht]
    exact nofun
  · rw [hlink, hqp]
    exact fun hoff => ⟨(h.offline hoff).1, ht⟩
  · rw [hisOn, hlink]
    exact h.off

/-- The flag is switched off for one request. -/
theorem LrInv.postOne (h : LrInv len s) (hon : s.rcConnected = true)
    (hflag : s.sendFlag = true) (hlr : r.isLr = true) (hexp : (t.startLr [(r, false)]).Expects len [r])
    (hlen : t.log.len = len) (hstep : t.nextLrStep ≠ .updateLog)
    (hstored : t.nextLrStep = .updateEnd → t.failedPart = false ∧
      ∀ x, InRange len t.confirmedEnd t.cachedEndOffset x → t.Stored x)
    (hfailed : t.failedPart = false) (hremote : t.remote = s.remote)
    (hconn : t.conn = s.conn) (hssn : t.ssn = s.ssn + 1) (hnext : t.nextWrId = s.nextWrId)
    (hqp : t.qp = s.qp) (hlink : t.rcConnected = s.rcConnected) (hisOn : t.isOn = s.isOn) :
    LrInv len (t.startLr [(r, false)]) := by
  have hcs : ∀ q ∈ [(r, false)], q.1.isLr = true := by
    intro q hq
    rw [List.mem_singleton.mp hq]
    exact hlr
  refine ⟨hlen, h.ids.startLr (h.not_lr hflag) hon hcs hconn hssn hnext hqp hlink hisOn, nofun,
    fun _ => ⟨[r], ?_, hexp, fun _ _ => ?_⟩, fun hcon => absurd hcon hstep, hstored, fun hcon => ?_, ?_⟩
  · rw [awaited_startLr h hflag hcs hqp]
    exact List.Sublist.refl _
  · rw [awaited_startLr h hflag hcs hqp]
    rfl
  · have hcon' : t.failedPart = true := hcon
    rw [hfailed] at hcon'
    cases hcon'
  · show ∀ w ∈ t.qp.outstanding, ∀ m, w.source = some m → ∀ x, w.request.Covers x → t.remote x = m x
    rw [hqp, hremote]
    exact h.landed

theorem LrInv.logAdjustment (h : LrInv len s) (hcall : s.call = []) (voteAck : Nat)
    (nc : List DareLogEntryDet) : LrInv len (s.logAdjustment voteAck nc) := by
  unfold LrState.logAdjustment
  by_cases hskip : (s.isSkipped || !s.sendFlag || voteAck == s.log.len) = true
  · rw [if_pos hskip]
    exact h
  rw [if_neg hskip]
  obtain ⟨hon, hflag⟩ := not_skipped fun hcon => hskip (by rw [hcon]; rfl)
  have hfailed : s.nextLrStep ≠ .updateLog → s.failedPart = false := fun hne =>
    Bool.eq_false_iff.mpr fun hcon => hne (h.failed hcon)
  simp only
  cases hstep : s.nextLrStep with
  | getWrite =>
    exact h.postOne hon hflag rfl rfl h.len_eq nofun nofun (hfailed (by rw [hstep]; nofun))
      rfl rfl rfl rfl rfl rfl rfl
  | getNceLen =>
    exact h.postOne hon hflag rfl rfl h.len_eq nofun nofun (hfailed (by rw [hstep]; nofun))
      rfl rfl rfl rfl rfl rfl rfl
  | getNce =>
    by_cases hnc : nc = []
    · -- the adjustment is done without a request
      simp only [if_pos hnc]
      refine ⟨h.len_eq, h.ids.succ hcall rfl (Nat.le_succ _) rfl rfl rfl rfl, h.idle, ?_,
        fun _ => rfl, nofun, fun _ => rfl, h.landed⟩
      intro hcon
      have hcon' : s.sendFlag = false := hcon
      rw [hflag] at hcon'
      cases hcon'
    · simp only [if_neg hnc]
      exact h.postOne hon hflag rfl rfl h.len_eq nofun nofun (hfailed (by rw [hstep]; nofun))
        rfl rfl rfl rfl rfl rfl rfl
  | setEnd =>
    exact h.postOne hon hflag rfl rfl h.len_eq nofun nofun (hfailed (by rw [hstep]; nofun))
      rfl rfl rfl rfl rfl rfl rfl
  | updateLog => exact h
  | updateEnd => exact h

/-! ### Log update -/

theorem map_blocks (len remoteEnd end_ : Nat) :
    ((LrState.blocks len remoteEnd end_).map Prod.fst).Sublist (parts len remoteEnd end_) ∧
      (end_ ≠ 0 → (LrState.blocks len remoteEnd end_).map Prod.fst = parts len remoteEnd end_) := by
  unfold LrState.blocks parts
  by_cases hlt : remoteEnd < end_
  · rw [if_pos hlt, if_pos hlt]
    exact ⟨List.Sublist.refl _, fun _ => rfl⟩
  · rw [if_neg hlt, if_neg hlt]
    by_cases hpos : 0 < end_
    · rw [if_pos hpos]
      exact ⟨List.Sublist.refl _, fun _ => rfl⟩
    · rw [if_neg hpos]
      exact ⟨List.Sublist.cons_cons _ (List.nil_sublist _), fun hne => absurd (by omega) hpos⟩

/-- The parts are apart, as many as `send_count` says, and cover the bytes to be written. -/
theorem parts_spec (len remoteEnd end_ : Nat) :
    (∀ r ∈ parts len remoteEnd end_, ∃ start n, r = .entries start n) ∧
      (parts len remoteEnd end_).Pairwise Request.Apart ∧
      (parts len remoteEnd end_).length = (if remoteEnd < end_ then 1 else 2) ∧
      ∀ x, InRange len remoteEnd end_ x → ∃ r ∈ parts len remoteEnd end_, r.Covers x := by
  unfold parts
  by_cases hlt : remoteEnd < end_
  · -- one part, up to the end
    simp only [if_pos hlt, List.mem_singleton]
    refine ⟨fun r hr => ⟨_, _, hr⟩, List.pairwise_singleton _ _, rfl, fun x hx => ⟨_, rfl, ?_⟩⟩
    rw [InRange, if_pos hlt] at hx
    show remoteEnd ≤ x ∧ x < remoteEnd + (end_ - remoteEnd)
    omega
  · simp only [if_neg hlt]
    -- two parts, around the end of the buffer
    refine ⟨fun r hr => ?_, ?_, rfl, fun x hx => ?_⟩
    · rcases List.mem_cons.mp hr with rfl | hr
      · exact ⟨_, _, rfl⟩
      · exact ⟨_, _, List.mem_singleton.mp hr⟩
    · refine List.pairwise_pair.mpr fun x h1 h2 => ?_
      have h1' : remoteEnd ≤ x ∧ x < remoteEnd + (len - remoteEnd) := h1
      have h2' : 0 ≤ x ∧ x < 0 + end_ := h2
      omega
    · rw [InRange, if_neg hlt] at hx
      rcases hx with hx | hx
      · refine ⟨_, List.mem_cons_self, ?_⟩
        show remoteEnd ≤ x ∧ x < remoteEnd + (len - remoteEnd)
        omega
      · refine ⟨_, List.mem_cons_of_mem _ List.mem_cons_self, ?_⟩
        show 0 ≤ x ∧ x < 0 + end_
        omega

theorem LrInv.updateRemoteLog (h : LrInv len s) : LrInv len s.updateRemoteLog := by
  unfold LrState.updateRemoteLog
  by_cases hskip : (s.isSkipped || !s.sendFlag) = true
  · rw [if_pos hskip]
    exact h
  rw [if_neg hskip]
  obtain ⟨hon, hflag⟩ := not_skipped hskip
  cases hstep : s.nextLrStep with
  | updateLog =>
    by_cases hdist : logOffsetEndDistance s.log s.remoteEnd = 0
    · simp only [if_pos hdist]
      exact h
    simp only [if_neg hdist]
    -- the parts of the update are requests of log replication
    have hcs : ∀ q ∈ LrState.blocks s.log.len s.remoteEnd s.log.end_, q.1.isLr = true := by
      intro q hq
      obtain ⟨hblocks, -⟩ := map_blocks s.log.len s.remoteEnd s.log.end_
      obtain ⟨start, n, hr⟩ := (parts_spec s.log.len s.remoteEnd s.log.end_).1 q.1
        (hblocks.subset (List.mem_map_of_mem hq))
      rw [hr]
      rfl
    obtain ⟨hsub, heq⟩ := map_blocks s.log.len s.remoteEnd s.log.end_
    obtain ⟨hblock, hapart, hlength, hcover⟩ := parts_spec s.log.len s.remoteEnd s.log.end_
    refine ⟨h.len_eq, h.ids.startLr (h.not_lr hflag) hon hcs rfl rfl rfl rfl rfl rfl, nofun,
      fun _ => ⟨parts s.log.len s.remoteEnd s.log.end_, ?_, ⟨hblock, hapart, ?_, ?_, fun _ => ⟨rfl, ?_⟩⟩,
      fun _ hshort => ?_⟩, fun _ => h.started hstep, nofun, nofun, h.landed⟩
    · rw [awaited_startLr h hflag hcs]
      · exact hsub
      · rfl
    · rw [hlength]
      show _ = max 1 (if s.remoteEnd < s.log.end_ then 1 else 2)
      split <;> rfl
    · show (if s.remoteEnd < s.log.end_ then 1 else 2) ≤ 2
      split <;> decide
    · intro x hx
      rw [← h.len_eq] at hx
      exact .inl (hcover x hx)
    · rw [awaited_startLr h hflag hcs]
      · exact heq fun hzero => hshort ⟨rfl, hzero⟩
      · rfl
  | updateEnd =>
    obtain ⟨hfailed, hstored⟩ := h.stored hstep
    exact h.postOne hon hflag rfl ⟨rfl, rfl⟩ h.len_eq nofun (fun _ => ⟨hfailed, hstored⟩) hfailed
      rfl rfl rfl rfl rfl rfl rfl
  | getWrite => exact h
  | getNceLen => exact h
  | getNce => exact h
  | setEnd => exact h

/-! ### Other requests -/

/-- A request that is not one of log replication does not change what is waited for. -/
theorem LrInv.postOther {log : DareLog} {commit ssn : Nat} (h : LrInv len s) (hcall : s.call = [])
    (hon : s.rcConnected = true) (hlr : r.isLr = false) (hlog : log.len = len) :
    LrInv len { s with
      log := log
      ssn := s.ssn + 1
      remoteCommit := commit
      lastGetReadSsn := ssn
      call := [(r, false)] } := by
  have hids := h.ids
  obtain ⟨n, hn, c, hc, hround⟩ := hids.round
  -- what is waited for stays
  have hawait : LrState.awaited { s with
      log := log
      ssn := s.ssn + 1
      remoteCommit := commit
      lastGetReadSsn := ssn
      call := [(r, false)] } = s.awaited := by
    simp [LrState.awaited, hcall, hlr]
  refine ⟨hlog, ⟨hids.conn_lt, ⟨n, Nat.le_succ_of_le hn, c, hc, hround⟩, fun w hw => ?_, hids.ids,
    hids.signaled, ?_, ?_, ?_, hids.off⟩, fun hflag => ?_, fun hflag => ?_, h.started, h.stored,
    h.failed, h.landed⟩
  · obtain ⟨m, hm, hbase⟩ := hids.old w hw
    exact ⟨m, Nat.le_succ_of_le hm, hbase⟩
  · intro q hq
    rw [List.mem_singleton.mp hq]
    show r.isLr = true ↔ (s.ssn + 1) * 1024 + s.conn = s.nextWrId
    rw [hlr, hround]
    constructor
    · intro hcon
      cases hcon
    · intro hcon
      omega
  · intro q hq hwa
    rw [List.mem_singleton.mp hq] at hwa
    cases hwa
  · intro hcon
    have hcon' : s.rcConnected = false := hcon
    rw [hon] at hcon'
    cases hcon'
  · exact hawait.trans (h.idle hflag)
  · obtain ⟨R, hsub, hexp, hall⟩ := h.waits hflag
    exact ⟨R, hawait ▸ hsub, hexp, fun h1 h2 => hawait.trans (hall h1 h2)⟩

/-- A change of the log that keeps its size is not noticed. -/
theorem LrInv.setLog {log : DareLog} (h : LrInv len s) (hlog : log.len = len) :
    LrInv len { s with log := log } :=
  ⟨hlog, ⟨h.ids.conn_lt, h.ids.round, h.ids.old, h.ids.ids, h.ids.signaled, h.ids.calls,
    h.ids.second, h.ids.offline, h.ids.off⟩, h.idle, h.waits, h.started, h.stored, h.failed,
    h.landed⟩

theorem changeLog_len {log log' : DareLog} {c : LogChange} (hlen : ENTRY_SIZE ≤ log.len)
    (h : changeLog log c = some log') : log'.len = log.len := by
  cases c with
  | append term reqId cltId type data =>
    obtain ⟨⟨log'', idx⟩, happend, rfl⟩ := Option.map_eq_some_iff.mp h
    obtain ⟨t, -, hcreated⟩ := logAppendEntry_created hlen happend
    exact hcreated.len
  | head offset =>
    obtain rfl := Option.some.inj h
    rfl
  | apply offset =>
    obtain rfl := Option.some.inj h
    rfl
  | voteAck offset =>
    obtain rfl := Option.some.inj h
    rfl

theorem LrInv.commitOffsets {size : Nat} (h : LrInv len s) (hcall : s.call = [])
    (hs : s.commitOffsets size = some s') : LrInv len s' := by
  obtain ⟨⟨log, passes⟩, hupdate, rfl⟩ := Option.map_eq_some_iff.mp hs
  have hlog : log.len = len := (updateCommit_len hupdate).trans h.len_eq
  unfold LrState.lazyCommit
  simp only
  split
  · exact h.setLog hlog
  · rename_i hskip
    split
    · exact h.setLog hlog
    · refine h.postOther hcall ?_ rfl hlog
      simp only [LrState.isSkipped, Bool.or_eq_true, Bool.not_eq_true', not_or,
        Bool.not_eq_false] at hskip
      exact hskip.1.1.2

theorem LrInv.getRemoteApplyOffset {voteAck : Nat} (h : LrInv len s) (hcall : s.call = []) :
    LrInv len (s.getRemoteApplyOffset voteAck) := by
  unfold LrState.getRemoteApplyOffset
  split
  · exact h
  · rename_i hskip
    refine h.postOther hcall ?_ rfl h.len_eq
    simp only [LrState.isSkipped, Bool.or_eq_true, Bool.not_eq_true', not_or,
      Bool.not_eq_false] at hskip
    exact hskip.1.1.2

end Post

/-! ### The queue -/

section Queue

variable {rest : List (Request × Bool)}

theorem awaited_eq (s : LrState) :
    s.awaited = lrOf s.qp.outstanding ++ (s.call.map Prod.fst).filter Request.isLr := by
  rw [LrState.awaited, List.filter_append]
  rfl

/-- The `k`-th request splits the queue. -/
theorem exists_split (h : ws[k]? = some w) :
    ∃ a b, ws = a ++ w :: b ∧ ws.eraseIdx k = a ++ b ∧ ∀ w', ws.set k w' = a ++ w' :: b := by
  obtain ⟨hk, rfl⟩ := List.getElem?_eq_some_iff.mp h
  refine ⟨ws.take k, ws.drop (k + 1), ?_, List.eraseIdx_eq_take_drop_succ ws k, fun w' => ?_⟩
  · rw [← List.drop_eq_getElem_cons hk, List.take_append_drop]
  · rw [List.set_eq_take_append_cons_drop, if_pos hk]

/-- The queue changes: requests are waited for that were before, and all of them unless one is
    lost. -/
theorem LrInv.setQueue {qp : RcQp} {lost : Bool} (h : LrInv len s)
    (hids : LrIds { s with qp := qp, lostPart := lost, call := rest })
    (hsub : (LrState.awaited { s with qp := qp, lostPart := lost, call := rest }).Sublist s.awaited)
    (hall : lost = false → s.lostPart = false ∧
      LrState.awaited { s with qp := qp, lostPart := lost, call := rest } = s.awaited)
    (hlanded : ∀ w ∈ qp.outstanding, ∀ m, w.source = some m → ∀ x, w.request.Covers x →
      s.remote x = m x) :
    LrInv len { s with qp := qp, lostPart := lost, call := rest } := by
  refine ⟨h.len_eq, hids, fun hflag => ?_, fun hflag => ?_, h.started, h.stored, h.failed, hlanded⟩
  · have hnil := h.idle hflag
    rw [hnil] at hsub
    exact List.sublist_nil.mp hsub
  · obtain ⟨R, hR, hexp, heq⟩ := h.waits hflag
    refine ⟨R, hsub.trans hR, hexp, fun hlost hshort => ?_⟩
    obtain ⟨hbefore, hsame⟩ := hall hlost
    exact hsame.trans (heq hbefore hshort)

/-- A second part is only posted while the flag is off. -/
theorem LrInv.second_flag (h : LrInv len s) (hmem : (r, wa) ∈ s.call) :
    (if wa then false else s.sendFlag) = s.sendFlag := by
  cases wa with
  | false => rfl
  | true =>
    cases hsend : s.sendFlag with
    | false => rfl
    | true =>
      have hlr := h.ids.second (r, true) hmem rfl
      have hnil := List.filter_eq_nil_iff.mp (h.idle hsend) r
        (List.mem_append_right _ (List.mem_map_of_mem hmem))
      exact absurd hlr hnil

theorem LrInv.post (h : LrInv len s) (hcall : s.call = (r, wa) :: rest) :
    LrInv len { s.postSend r wa with
      call := rest
      sendFlag := if wa then false else s.sendFlag } := by
  have hids := h.ids
  have hmem : (r, wa) ∈ s.call := by rw [hcall]; exact List.mem_cons_self
  have hcalls : ∀ q ∈ rest, q ∈ s.call := fun q hq => by
    rw [hcall]
    exact List.mem_cons_of_mem _ hq
  obtain ⟨ws, qp, lost, heq, hresult⟩ := LrState.postSend_eq hids.conn_lt r wa
  -- what is outstanding then was so before, or is the new request
  have hout : ∀ v ∈ qp.outstanding, v ∈ s.qp.outstanding ∨ LrState.Posted s.wrId r v := by
    intro v hv
    rw [hresult.outstanding] at hv
    rcases List.mem_append.mp hv with hv | hv
    · exact .inl (s.kept_sublist.subset hv)
    · exact .inr (hresult.posted v hv)
  have hbefore : s.awaited = lrOf s.qp.outstanding ++
      ([r].filter Request.isLr ++ (rest.map Prod.fst).filter Request.isLr) := by
    rw [awaited_eq, hcall, List.map_cons, ← List.filter_append]
    rfl
  have hafter : LrState.awaited { s with qp := qp, lostPart := lost, call := rest } =
      lrOf s.kept ++ (lrOf ws ++ (rest.map Prod.fst).filter Request.isLr) := by
    rw [awaited_eq, ← List.append_assoc, ← lrOf_append, ← hresult.outstanding]
  rw [heq, h.second_flag hmem]
  refine h.setQueue ⟨hids.conn_lt, hids.round, fun v hv => ?_, fun v hv => ?_, fun v hv hlr => ?_,
    fun q hq => hids.calls q (hcalls q hq), fun q hq => hids.second q (hcalls q hq),
    fun hoff => ?_, hids.off⟩ ?_ (fun hl => ?_) fun v hv m hm => ?_
  · rcases hout v hv with hv | hposted
    · exact hids.old v hv
    · exact ⟨s.ssn, le_refl _, hposted.base⟩
  · rcases hout v hv with hv | hposted
    · exact hids.ids v hv
    · rw [hposted.request, hposted.base]
      exact hids.calls (r, wa) hmem
  · rcases hout v hv with hv | hposted
    · exact hids.signaled v hv hlr
    · rw [hposted.request] at hlr
      exact hposted.signaled hlr
  · -- nothing is called with a QP that is cut off
    have hnil := (hids.offline hoff).2
    rw [hcall] at hnil
    cases hnil
  · rw [hafter, hbefore]
    exact ((s.kept_sublist.map _).filter _).append (hresult.lr.append_right _)
  · obtain ⟨hl', hkept, hnew⟩ := hresult.all hl
    exact ⟨hl', by rw [hafter, hbefore, hkept, hnew]⟩
  · rcases hout v hv with hv | hposted
    · exact h.landed v hv m hm
    · rw [hposted.source] at hm
      cases hm

/-- No request is added to the queue. -/
theorem LrIds.shrink {t : LrState} (h : LrIds s) (hconn : t.conn = s.conn) (hssn : t.ssn = s.ssn)
    (hnext : t.nextWrId = s.nextWrId) (hcall : ∀ q ∈ t.call, q ∈ s.call)
    (hqp : ∀ v ∈ t.qp.outstanding, ∃ w ∈ s.qp.outstanding, v.wrId = w.wrId ∧
      v.request = w.request ∧ v.signaled = w.signaled)
    (hlink : t.rcConnected = false → s.rcConnected = true → t.qp.outstanding = [] ∧ t.call = [])
    (hoff : t.isOn = false → t.rcConnected = false) : LrIds t := by
  refine ⟨by rw [hconn]; exact h.conn_lt, by rw [hssn, hnext]; exact h.round,
    fun v hv => ?_, fun v hv => ?_, fun v hv => ?_, fun q hq => ?_, fun q hq => h.second q (hcall q hq),
    fun hcut => ?_, hoff⟩
  · obtain ⟨w, hw, hid, -, -⟩ := hqp v hv
    rw [hid, hssn, hconn]
    exact h.old w hw
  · obtain ⟨w, hw, hid, hr, -⟩ := hqp v hv
    rw [hid, hr, hnext]
    exact h.ids w hw
  · obtain ⟨w, hw, -, hr, hsig⟩ := hqp v hv
    rw [hr, hsig]
    exact h.signaled w hw
  · rw [LrState.wrId, hssn, hconn, hnext]
    exact h.calls q (hcall q hq)
  · by_cases hon : s.rcConnected = true
    · exact hlink hcut hon
    · obtain ⟨hnil, hnone⟩ := h.offline (Bool.eq_false_iff.mpr hon)
      refine ⟨List.eq_nil_iff_forall_not_mem.mpr fun v hv => ?_,
        List.eq_nil_iff_forall_not_mem.mpr fun q hq => ?_⟩
      · obtain ⟨w, hw, -⟩ := hqp v hv
        rw [hnil] at hw
        cases hw
      · have hq' := hcall q hq
        rw [hnone] at hq'
        cases hq'

/-- An outstanding block is one of the parts of the update in progress, which are apart. -/
theorem LrInv.block (h : LrInv len s) {start n : Nat} (hw : w ∈ s.qp.outstanding)
    (hr : w.request = .entries start n) : s.sendFlag = false ∧ s.nextLrStep = .updateLog := by
  -- the block is waited for
  have hmem : w.request ∈ s.awaited := by
    rw [awaited_eq, lrOf]
    refine List.mem_append_left _ (List.mem_filter.mpr ⟨List.mem_map_of_mem hw, ?_⟩)
    rw [hr]
    rfl
  have hflag : s.sendFlag = false := by
    cases hflag : s.sendFlag with
    | false => rfl
    | true =>
      rw [h.idle hflag] at hmem
      cases hmem
  refine ⟨hflag, ?_⟩
  obtain ⟨R, hsub, hexp, -⟩ := h.waits hflag
  have hmemR := hsub.subset hmem
  rw [hr] at hmemR
  unfold LrState.Expects at hexp
  -- a block is expected in one step only
  split at hexp
  · exact hexp.elim
  · rw [hexp] at hmemR
    cases List.mem_singleton.mp hmemR
  · rw [hexp] at hmemR
    cases List.mem_singleton.mp hmemR
  · rw [hexp] at hmemR
    cases List.mem_singleton.mp hmemR
  · assumption
  · rw [hexp.1] at hmemR
    cases List.mem_singleton.mp hmemR

/-- The outstanding blocks have no byte in common. -/
theorem LrInv.apart (h : LrInv len s) {a b : List WorkRequest} {start n x : Nat}
    (hsplit : s.qp.outstanding = a ++ w :: b) (hr : w.request = .entries start n)
    (hx : w.request.Covers x) : ∀ v ∈ a ++ b, ¬ v.request.Covers x := by
  obtain ⟨hflag, hstep⟩ := h.block (by rw [hsplit]; exact List.mem_append_right _ List.mem_cons_self) hr
  obtain ⟨R, hsub, hexp, -⟩ := h.waits hflag
  rw [LrState.Expects, hstep] at hexp
  have hpair : (lrOf (a ++ w :: b)).Pairwise Request.Apart := by
    rw [awaited_eq, hsplit] at hsub
    exact hexp.2.1.sublist ((List.sublist_append_left _ _).trans hsub)
  have hlr : w.request.isLr = true := by rw [hr]; rfl
  rw [lrOf_append, lrOf_cons_of_lr hlr] at hpair
  obtain ⟨-, htail, hcross⟩ := List.pairwise_append.mp hpair
  intro v hv hcov
  have hmem : v.request ∈ lrOf a ∨ v.request ∈ lrOf b := by
    have hvlr : v.request.isLr = true := by
      unfold Request.Covers at hcov
      split at hcov
      · rename_i heq
        rw [heq]
        rfl
      · exact hcov.elim
    rcases List.mem_append.mp hv with hv | hv
    · exact .inl (List.mem_filter.mpr ⟨List.mem_map_of_mem hv, hvlr⟩)
    · exact .inr (List.mem_filter.mpr ⟨List.mem_map_of_mem hv, hvlr⟩)
  rcases hmem with hmem | hmem
  · exact hcross _ hmem _ List.mem_cons_self x hcov hx
  · exact (List.pairwise_cons.mp htail).1 _ hmem x hx hcov

/-- A request takes effect: a block changes the bytes it covers, which belong to no other block. -/
theorem LrInv.land (h : LrInv len s) (hs : s.land k = some s') : LrInv len s' := by
  unfold LrState.land at hs
  cases hk : s.qp.outstanding[k]? with
  | none =>
    rw [hk] at hs
    cases hs
  | some w =>
    obtain ⟨a, b, hsplit, -, hset⟩ := exists_split hk
    rw [hk] at hs
    simp only [hset] at hs
    -- the request with its source
    generalize hv : ({ w with source := some s.log.entries } : WorkRequest) = v at hs
    have hvr : v.request = w.request := by rw [← hv]
    have hw : w ∈ s.qp.outstanding := by
      rw [hsplit]
      exact List.mem_append_right _ List.mem_cons_self
    have hmem : ∀ u ∈ a ++ v :: b, u ∈ a ++ b ∨ u = v := by
      intro u hu
      simp only [List.mem_append, List.mem_cons] at hu ⊢
      tauto
    have hkept : ∀ u ∈ a ++ b, u ∈ s.qp.outstanding := by
      intro u hu
      rw [hsplit]
      exact (List.append_sublist_append_left a).mpr (List.sublist_cons_self w b) |>.subset hu
    have hqp : ∀ u ∈ a ++ v :: b, ∃ w' ∈ s.qp.outstanding,
        u.wrId = w'.wrId ∧ u.request = w'.request ∧ u.signaled = w'.signaled := by
      intro u hu
      rcases hmem u hu with hu | rfl
      · exact ⟨u, hkept u hu, rfl, rfl, rfl⟩
      · exact ⟨w, hw, by rw [← hv], hvr, by rw [← hv]⟩
    have hsame : lrOf (a ++ v :: b) = lrOf s.qp.outstanding := by
      rw [hsplit, lrOf, lrOf, List.map_append, List.map_cons, hvr, List.map_append, List.map_cons]
    have hlink : ∀ {P : Prop}, s.rcConnected = false → s.rcConnected = true → P := by
      intro P hcut hon
      exact absurd (hcut.symm.trans hon) Bool.false_ne_true
    by_cases hblock : ∃ start n, w.request = .entries start n
    · obtain ⟨start, n, hr⟩ := hblock
      obtain ⟨hflag, hstep⟩ := h.block hw hr
      have hcovers : ∀ x, w.request.Covers x ↔ start ≤ x ∧ x < start + n := by
        intro x
        rw [hr]
        exact Iff.rfl
      rw [hr] at hs
      obtain rfl := Option.some.inj hs
      refine ⟨h.len_eq, h.ids.shrink rfl rfl rfl (fun _ hq => hq) hqp hlink h.ids.off, fun hon => ?_,
        fun _ => ?_, h.started, fun hend => ?_, h.failed, ?_⟩
      · exact absurd (hflag.symm.trans hon) Bool.false_ne_true
      · obtain ⟨R, hsub, hexp, hall⟩ := h.waits hflag
        have hin : w.request ∈ R := hsub.subset <| by
          rw [awaited_eq, lrOf]
          refine List.mem_append_left _ (List.mem_filter.mpr ⟨List.mem_map_of_mem hw, ?_⟩)
          rw [hr]
          rfl
        refine ⟨R, ?_, ?_, fun h1 h2 => Eq.trans ?_ (hall h1 h2)⟩
        · rw [awaited_eq, hsame, ← awaited_eq s]
          exact hsub
        · unfold LrState.Expects at hexp ⊢
          rw [hstep] at hexp ⊢
          obtain ⟨hblocks, hpair, hlength, hcount, hcover⟩ := hexp
          refine ⟨hblocks, hpair, hlength, hcount, fun hpos => ⟨(hcover hpos).1, fun x hx => ?_⟩⟩
          rcases (hcover hpos).2 x hx with hr' | ⟨c, hc, hlo, hhi, hbyte⟩
          · exact .inl hr'
          · by_cases hxw : start ≤ x ∧ x < start + n
            · exact .inl ⟨_, hin, (hcovers x).mpr hxw⟩
            · exact .inr ⟨c, hc, hlo, hhi, (if_neg hxw).trans hbyte⟩
        · rw [awaited_eq, hsame, ← awaited_eq s]
      · have hend' : s.nextLrStep = .updateEnd := hend
        rw [hstep] at hend'
        cases hend'
      · intro u hu m hm x hx
        rcases hmem u hu with hu' | rfl
        · refine (if_neg fun hxw => ?_).trans (h.landed u (hkept u hu') m hm x hx)
          exact h.apart hsplit hr ((hcovers x).mpr hxw) u hu' hx
        · rw [← hv] at hm
          obtain rfl := Option.some.inj hm
          rw [hvr] at hx
          exact if_pos ((hcovers x).mp hx)
    · have hnocover : ∀ x, ¬ w.request.Covers x := by
        intro x hx
        unfold Request.Covers at hx
        split at hx
        · rename_i heq
          exact hblock ⟨_, _, heq⟩
        · exact hx
      have hs' : s' = { s with qp := { s.qp with outstanding := a ++ v :: b } } := by
        split at hs
        · rename_i heq
          exact absurd ⟨_, _, heq⟩ hblock
        · exact (Option.some.inj hs).symm
      have hawait : LrState.awaited { s with
          qp := { s.qp with outstanding := a ++ v :: b } } = s.awaited := by
        rw [awaited_eq, hsame, ← awaited_eq s]
      rw [hs']
      refine h.setQueue (h.ids.shrink rfl rfl rfl (fun _ hq => hq) hqp hlink h.ids.off) ?_
        (fun hl => ⟨hl, hawait⟩) ?_
      · exact hawait ▸ List.Sublist.refl _
      · intro u hu m hm x hx
        rcases hmem u hu with hu' | rfl
        · exact h.landed u (hkept u hu') m hm x hx
        · rw [hvr] at hx
          exact absurd hx (hnocover x)

end Queue

end Apus
