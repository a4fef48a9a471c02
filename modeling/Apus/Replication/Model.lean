import Apus.Commit.Model
import Apus.Words

namespace Apus

open Lib

/-!
# Log replication to one follower

The state machine by which the leader adjusts and then updates the log of one follower over its
LOG QP: `log_adjustment`, the loops of `update_remote_logs`, `rc_get_remote_apply_offsets`,
`post_send`, `empty_completion_queue` and `handle_lr_work_completion`.  The other servers only show
in the send sequence number, in the replies in the leader's log and in the vote ACKs.

A function that posts leaves what it has to post in `call`, and `post_send` takes it from there
(`LrLabel.post`); completions are polled in between, in any order.  Work requests that are posted and
not yet polled are `outstanding`; moving the QP to RESET discards them.

Five fields are about the properties only: the follower's buffer as far as the leader writes it
(`remote`), the blocks written since `LR_UPDATE_LOG` was entered (`written`), whether a part of the
last update failed (`failedPart`), whether a request of the current step was discarded or not accepted
by the QP (`lostPart`), and the end offset the follower has confirmed (`confirmedEnd`).
-/

/-! ### Identifiers of work requests -/

/-- `WRID_GET_CONN`. -/
def wridGetConn (wrid : Nat) : Nat := wrid % 256

/-- `WRID_SET_CONN`. -/
def wridSetConn (wrid conn : Nat) : Nat := wrid / 256 * 256 + conn

/-- `WRID_GET_TAG`. -/
def wridGetTag (wrid : Nat) : Bool := wrid / 256 % 2 == 1

/-- `WRID_SET_TAG`. -/
def wridSetTag (wrid : Nat) : Nat := if wridGetTag wrid then wrid else wrid + 256

/-- `WRID_UNSET_TAG`. -/
def wridUnsetTag (wrid : Nat) : Nat := if wridGetTag wrid then wrid - 256 else wrid

/-- `WRID_GET_WA`. -/
def wridGetWa (wrid : Nat) : Bool := wrid / 512 % 2 == 1

/-- `WRID_SET_WA`. -/
def wridSetWa (wrid : Nat) : Nat := if wridGetWa wrid then wrid else wrid + 512

/-- `WRID_UNSET_WA`. -/
def wridUnsetWa (wrid : Nat) : Nat := if wridGetWa wrid then wrid - 512 else wrid

/-- `WRID_GET_SSN`. -/
def wridGetSsn (wrid : Nat) : Nat := wrid / 1024

/-- `WRID_SET_SSN`. -/
def wridSetSsn (wrid ssn : Nat) : Nat := ssn * 1024 + wrid % 1024

/-! The identifiers are numbers here: these are the values of the 64-bit words of the header. -/

section Words

variable (w : UInt64)

theorem toNat_wridGetConn : (Header.wridGetConn w).toNat = wridGetConn w.toNat := by
  rw [Header.readsWrites_wridConn.read, wridGetConn, Field.read, pow_zero, Nat.div_one]
  rfl

theorem toNat_wridSetConn (conn : UInt8) :
    (Header.wridSetConn w conn).toNat = wridSetConn w.toNat conn.toNat := by
  have hset : (Header.wridSetConn w conn).toNat =
      w.toNat / 256 * 256 + conn.toNat * 1 + w.toNat % 1 :=
    (Header.readsWrites_wridConn.written w conn conn.toNat_lt).toNat
  rw [hset, wridSetConn]
  omega

theorem wridGetTag_toNat : wridGetTag w.toNat = (Header.wridGetTag w != 0) := by
  have hget : (Header.wridGetTag w).toNat = w.toNat / 256 % 2 * 256 := Header.readsFlag_wridTag.read w
  rw [wridGetTag, Bool.eq_iff_iff, beq_iff_eq, bne_iff_ne, ne_eq, ← UInt64.toNat_inj, hget,
    UInt64.toNat_zero]
  omega

theorem toNat_wridSetTag : (Header.wridSetTag w).toNat = wridSetTag w.toNat := by
  have hset : (Header.wridSetTag w).toNat = w.toNat / 512 * 512 + 1 * 256 + w.toNat % 256 :=
    (Header.readsFlag_wridTag.set_written w).toNat
  simp only [hset, wridSetTag, wridGetTag, beq_iff_eq]
  split <;> omega

theorem toNat_wridUnsetTag : (Header.wridUnsetTag w).toNat = wridUnsetTag w.toNat := by
  have hunset : (Header.wridUnsetTag w).toNat = w.toNat / 512 * 512 + 0 * 256 + w.toNat % 256 :=
    (Header.readsFlag_wridTag.unset_written w).toNat
  simp only [hunset, wridUnsetTag, wridGetTag, beq_iff_eq]
  split <;> omega

theorem wridGetWa_toNat : wridGetWa w.toNat = (Header.wridGetWa w != 0) := by
  have hget : (Header.wridGetWa w).toNat = w.toNat / 512 % 2 * 512 := Header.readsFlag_wridWa.read w
  rw [wridGetWa, Bool.eq_iff_iff, beq_iff_eq, bne_iff_ne, ne_eq, ← UInt64.toNat_inj, hget,
    UInt64.toNat_zero]
  omega

theorem toNat_wridSetWa : (Header.wridSetWa w).toNat = wridSetWa w.toNat := by
  have hset : (Header.wridSetWa w).toNat = w.toNat / 1024 * 1024 + 1 * 512 + w.toNat % 512 :=
    (Header.readsFlag_wridWa.set_written w).toNat
  simp only [hset, wridSetWa, wridGetWa, beq_iff_eq]
  split <;> omega

theorem toNat_wridUnsetWa : (Header.wridUnsetWa w).toNat = wridUnsetWa w.toNat := by
  have hunset : (Header.wridUnsetWa w).toNat = w.toNat / 1024 * 1024 + 0 * 512 + w.toNat % 512 :=
    (Header.readsFlag_wridWa.unset_written w).toNat
  simp only [hunset, wridUnsetWa, wridGetWa, beq_iff_eq]
  split <;> omega

theorem toNat_wridGetSsn : (Header.wridGetSsn w).toNat = wridGetSsn w.toNat := by
  have hget : (Header.wridGetSsn w).toNat = w.toNat / 1024 % 2 ^ 54 := Header.readsWrites_wridSsn.read w
  have hlt := w.toNat_lt
  rw [hget, wridGetSsn]
  omega

theorem toNat_wridSetSsn {ssn : UInt64} (h : ssn.toNat < 2 ^ 54) :
    (Header.wridSetSsn w ssn).toNat = wridSetSsn w.toNat ssn.toNat := by
  have hset : (Header.wridSetSsn w ssn).toNat =
      w.toNat / 2 ^ 64 * 2 ^ 64 + ssn.toNat * 1024 + w.toNat % 1024 :=
    (Header.readsWrites_wridSsn.written w ssn h).toNat
  have hlt := w.toNat_lt
  rw [hset, wridSetSsn]
  omega

end Words

/-! ### The state -/

/-- `LR_GET_WRITE`, …, `LR_UPDATE_END`. -/
inductive NextLrStep
  | getWrite
  | getNceLen
  | getNce
  | setEnd
  | updateLog
  | updateEnd
  deriving DecidableEq

/-- `next_lr_step++`. -/
def NextLrStep.next : NextLrStep → NextLrStep
  | .getWrite => .getNceLen
  | .getNceLen => .getNce
  | .getNce => .setEnd
  | .setEnd => .updateLog
  | .updateLog => .updateEnd
  | .updateEnd => .updateEnd

/-- What `handle_work_completion` returns. -/
inductive WcResult
  | success
  | failure
  | softwareBug
  | error
  deriving DecidableEq

/-- `rc_qp_t.state`. -/
inductive QpState
  | active
  | blocked
  | error
  deriving DecidableEq

/-- What a work request on the LOG QP reads or writes. -/
inductive Request
  | readNceLen
  | readNce
  | setEnd (offset : Nat)
  | entries (start len : Nat)
  | updateEnd (offset : Nat)
  | commit (offset : Nat)
  | readApply
  deriving DecidableEq

/-- The requests of log adjustment and log update, which are posted signaled. -/
def Request.isLr : Request → Bool
  | .commit _ => false
  | .readApply => false
  | _ => true

/-- A posted work request; `source` is the leader's buffer when the request took effect. -/
structure WorkRequest where
  wrId : Nat
  request : Request
  signaled : Bool
  source : Option Mem

/-- `rc_qp_t` of the LOG QP, and the state of the queues behind it. -/
structure RcQp where
  state : QpState
  sendCount : Nat
  signaledWrId : Nat
  /-- The QP has left the RESET state. -/
  ready : Bool
  /-- Posted and not yet polled. -/
  outstanding : List WorkRequest

/-- A block of the follower's buffer, and the buffer it was written from. -/
structure Written where
  start : Nat
  len : Nat
  source : Mem

/-- The leader's log, what it keeps for the follower, and the LOG QP. -/
structure LrState where
  log : DareLog
  /-- The indices of the leader and of the follower. -/
  idx : Nat
  conn : Nat
  ssn : Nat
  /-- `CID_IS_SERVER_ON`. -/
  isOn : Bool
  nextWrId : Nat
  cachedEndOffset : Nat
  lastGetReadSsn : Nat
  failCount : UInt8
  nextLrStep : NextLrStep
  sendFlag : Bool
  sendCount : Nat
  /-- `log_offsets[i].end`. -/
  remoteEnd : Nat
  /-- `log_offsets[i].commit`. -/
  remoteCommit : Nat
  rcConnected : Bool
  rcMaxSendWr : Nat
  qp : RcQp
  /-- What the function in progress has to post, and whether that is a part behind the buffer
      end (`wa_flag`). -/
  call : List (Request × Bool)
  remote : Mem
  written : List Written
  failedPart : Bool
  lostPart : Bool
  confirmedEnd : Nat

namespace RcQp

variable (qp : RcQp)

/-- `rc_qp_reset`: the outstanding work requests are discarded. -/
def reset : RcQp := { qp with ready := false, outstanding := [] }

/-- `rc_qp_restart` and `rc_connect_server`: from RESET to RTS. -/
def connected : RcQp :=
  { state := .active, sendCount := 0, signaledWrId := 0, ready := true, outstanding := [] }

/-- `signaled_wr_id`, once a signaled WR that was found is taken out. -/
def pendingSignal : Nat :=
  if qp.signaledWrId ≠ 0 ∧ wridGetTag qp.signaledWrId = false then 0 else qp.signaledWrId

/-- A quarter of the send queue is full, and there is no special signaled WR. -/
def wantsSignal (rcMaxSendWr : Nat) : Bool :=
  decide (qp.sendCount + 1 = rcMaxSendWr / 4 ∧ qp.pendingSignal = 0)

/-- The end of `post_send`.  A QP in the RESET state does not take the request. -/
def post (rcMaxSendWr wrId : Nat) (request : Request) : RcQp :=
  let special := qp.wantsSignal rcMaxSendWr
  let wrId := if special then wridSetTag wrId else wrId
  { qp with
    sendCount := if special then 0 else qp.sendCount + 1
    signaledWrId := if special then wrId else qp.pendingSignal
    outstanding :=
      if qp.ready then qp.outstanding ++ [⟨wrId, request, request.isLr || special, none⟩]
      else qp.outstanding }

/-- A completion is polled: the special signaled WR is found, or the request failed.  While a special
    signaled WR is on its way the QP cannot be restarted. -/
def complete (wrId : Nat) (rc : WcResult) : RcQp :=
  let found := qp.signaledWrId ≠ 0 ∧ wrId = qp.signaledWrId
  let canRestart := qp.signaledWrId = 0 ∨ wrId = qp.signaledWrId
  let state := if found ∧ qp.state = .blocked then .error else qp.state
  { qp with
    signaledWrId := if found then wridUnsetTag qp.signaledWrId else qp.signaledWrId
    state :=
      if rc ≠ .failure then state
      else if canRestart ∨ state = .error then .error
      else .blocked }

end RcQp

namespace LrState

variable (s : LrState)

/-! ### Queue pairs -/

/-- The QP is moved to RESET. -/
def setQp (qp : RcQp) : LrState :=
  { s with
    qp := qp
    lostPart := s.lostPart || s.qp.outstanding.any fun w => w.request.isLr }

/-- A QP in the error state is restarted before a request is posted. -/
def clearError : LrState := if s.qp.state = .error then s.setQp .connected else s

/-- The identifier of a request, with the Wrap-Around flag. -/
def newWrId (wa : Bool) : Nat :=
  let wrId := wridSetConn (wridSetSsn 0 s.ssn) s.conn
  if wa then wridSetWa wrId else wrId

/-- `post_send`, once the QP is not blocked. -/
def postSend (request : Request) (wa : Bool) : LrState :=
  let s := s.clearError
  { s with
    qp := s.qp.post s.rcMaxSendWr (s.newWrId wa) request
    lostPart := s.lostPart || (request.isLr && !s.qp.ready) }

/-! ### Completions -/

/-- `handle_lr_work_completion`. -/
def handleLrWorkCompletion (wrId : Nat) (rc : WcResult) : LrState :=
  if wridUnsetWa (wridUnsetTag wrId) ≠ s.nextWrId then s
  else if rc = .success then
    match s.nextLrStep with
    | .updateLog =>
      match s.sendCount with
      -- the other part of the send failed
      | 0 => { s with sendFlag := true }
      | 1 => { s with nextLrStep := .updateEnd, sendFlag := true }
      -- first part of the send
      | 2 => { s with sendCount := 1 }
      | _ => s
    | .updateEnd => { s with nextLrStep := .updateLog, sendFlag := true }
    | step => { s with nextLrStep := step.next, sendFlag := true }
  else
    match s.nextLrStep with
    | .updateLog =>
      match s.sendCount with
      | 0 => { s with sendFlag := true }
      | 1 => { s with sendFlag := true }
      -- the first part of the update was unsuccessful
      | 2 => { s with sendCount := 0 }
      | _ => s
    | _ => { s with sendFlag := true }

/-- The body of the loop of `empty_completion_queue`. -/
def handleCompletion (wrId : Nat) (rc : WcResult) : LrState :=
  { s.handleLrWorkCompletion wrId rc with
    lastGetReadSsn := if s.lastGetReadSsn ≤ wridGetSsn wrId then 0 else s.lastGetReadSsn
    qp := s.qp.complete wrId rc
    failCount := if rc = .success then 0 else s.failCount }

/-- What the completion of a request says about the follower's log. -/
def record (w : WorkRequest) (rc : WcResult) : LrState :=
  match w.request, w.source with
  | .entries start len, some source =>
    if rc = .success then { s with written := s.written ++ [⟨start, len, source⟩] }
    else { s with failedPart := true }
  | .entries _ _, none => { s with failedPart := true }
  | .updateEnd offset, _ => if rc = .success then { s with confirmedEnd := offset } else s
  | .setEnd offset, _ => if rc = .success then { s with confirmedEnd := offset } else s
  | _, _ => s

/-- `LR_UPDATE_LOG` is entered: nothing is written yet. -/
def enterUpdateLog (s s' : LrState) : LrState :=
  if s.nextLrStep ≠ .updateLog ∧ s'.nextLrStep = .updateLog then { s' with written := [] } else s'

/-- The `k`-th of the outstanding requests is polled.  One that succeeds and is not signaled has no
    completion. -/
def poll (k : Nat) (rc : WcResult) : Option LrState :=
  match s.qp.outstanding[k]? with
  | none => none
  | some w =>
    if rc = .success ∧ w.source.isNone then none
    else
      let s := { s with qp := { s.qp with outstanding := s.qp.outstanding.eraseIdx k } }
      if rc = .success ∧ w.signaled = false then some s
      else some (enterUpdateLog s ((s.record w rc).handleCompletion w.wrId rc))

/-- The `k`-th of the outstanding requests takes effect. -/
def land (k : Nat) : Option LrState :=
  match s.qp.outstanding[k]? with
  | none => none
  | some w =>
    let ws := s.qp.outstanding.set k { w with source := some s.log.entries }
    let s := { s with qp := { s.qp with outstanding := ws } }
    match w.request with
    | .entries start len =>
      some { s with remote := fun x =>
        if start ≤ x ∧ x < start + len then s.log.entries x else s.remote x }
    | _ => some s

/-! ### Posting -/

/-- The leader suspects the follower, or has no RC data. -/
def isSkipped : Bool := !s.isOn || decide (PERMANENT_FAILURE ≤ s.failCount) || !s.rcConnected

/-- Stop posting until a completion is received, and wait for that of the requests posted now. -/
def startLr (call : List (Request × Bool)) : LrState :=
  { s with
    sendFlag := false
    nextWrId := wridSetConn (wridSetSsn s.nextWrId s.ssn) s.conn
    call := call
    lostPart := false }

/-- `log_adjustment`, with the vote ACK and the not committed entries read from the follower. -/
def logAdjustment (voteAck : Nat) (nc : List DareLogEntryDet) : LrState :=
  if s.isSkipped || !s.sendFlag || voteAck == s.log.len then s
  else
    let next := { s with ssn := s.ssn + 1 }
    -- the leader may have to update its own commit offset
    let commit :=
      if logIsOffsetLarger s.log voteAck s.log.commit then voteAck else s.log.commit
    let next' := { next with log := { s.log with commit := commit } }
    match s.nextLrStep with
    | .getWrite =>
      { next' with remoteCommit := voteAck, nextLrStep := .getNceLen }.startLr [(.readNceLen, false)]
    | .getNceLen => next'.startLr [(.readNceLen, false)]
    | .getNce =>
      if nc = [] then
        -- this server has no not committed entries
        { next with
          remoteEnd := s.remoteCommit
          confirmedEnd := s.remoteCommit
          nextLrStep := .updateLog
          written := [] }
      else next.startLr [(.readNce, false)]
    | .setEnd =>
      let remoteEnd := logFindRemoteEndOffset s.log 0 nc
      { next with remoteEnd := remoteEnd }.startLr [(.setEnd remoteEnd, false)]
    | _ => s

/-- The blocks of a log update: one, or two around the buffer end. -/
def blocks (len remoteEnd end_ : Nat) : List (Request × Bool) :=
  if remoteEnd < end_ then [(.entries remoteEnd (end_ - remoteEnd), false)]
  else (.entries remoteEnd (len - remoteEnd), false) ::
    (if 0 < end_ then [(.entries 0 end_, true)] else [])

/-- The first loop of `update_remote_logs`. -/
def updateRemoteLog : LrState :=
  if s.isSkipped || !s.sendFlag then s
  else match s.nextLrStep with
    | .updateLog =>
      if logOffsetEndDistance s.log s.remoteEnd = 0 then s
      else
        { s with
          ssn := s.ssn + 1
          cachedEndOffset := s.log.end_
          sendCount := if s.remoteEnd < s.log.end_ then 1 else 2
          failedPart := false }.startLr (blocks s.log.len s.remoteEnd s.log.end_)
    | .updateEnd =>
      { s with ssn := s.ssn + 1, remoteEnd := s.cachedEndOffset }.startLr
        [(.updateEnd s.cachedEndOffset, false)]
    | _ => s

/-- The last loop of `update_remote_logs`. -/
def lazyCommit (size : Nat) : LrState :=
  if s.isSkipped || decide (size ≤ s.conn) || decide (s.nextLrStep ≠ .updateLog) then s
  else if s.remoteCommit = s.remoteEnd ∨ s.remoteCommit = s.log.commit then s
  else
    -- the remote log may not contain all the committed entries
    let remoteCommit :=
      if logIsOffsetLarger s.log s.log.commit s.remoteEnd then s.remoteEnd else s.log.commit
    { s with
      ssn := s.ssn + 1
      remoteCommit := remoteCommit
      call := [(.commit remoteCommit, false)] }

/-- `update_remote_logs` from the search for committed entries on. -/
def commitOffsets (size : Nat) : Option LrState :=
  (updateCommit s.log s.idx size).map fun r => { s with log := r.1 }.lazyCommit size

/-- `rc_get_remote_apply_offsets`. -/
def getRemoteApplyOffset (voteAck : Nat) : LrState :=
  if s.isSkipped || voteAck == s.log.len || s.lastGetReadSsn != 0 then s
  else
    { s with
      ssn := s.ssn + 1
      lastGetReadSsn := s.ssn + 1
      call := [(.readApply, false)] }

/-! ### Connections -/

/-- The follower is removed: `rc_disconnect_server`. -/
def remove : LrState :=
  if s.rcConnected then { s.setQp s.qp.reset with isOn := false, rcConnected := false }
  else { s with isOn := false }

/-- A server joins in its place: `handle_server_join_request`. -/
def join : LrState :=
  { s with
    isOn := true
    rcConnected := false
    failCount := 0
    nextLrStep := .getWrite
    sendFlag := true
    sendCount := 0
    failedPart := false }

end LrState

/-! ### Runs -/

/-- What happens to the leader's log outside of log replication to this follower. -/
inductive LogChange
  | append (term reqId : UInt64) (cltId : UInt16) (type : UInt8) (data : EntryData)
  /-- The log is pruned. -/
  | head (offset : Nat)
  /-- Committed entries are applied. -/
  | apply (offset : Nat)
  /-- The vote ACK of another server. -/
  | voteAck (offset : Nat)

def changeLog (log : DareLog) : LogChange → Option DareLog
  | .append term reqId cltId type data =>
    (logAppendEntry log term reqId cltId type data).map fun r => r.1
  | .head offset => some { log with head := offset }
  | .apply offset => some { log with apply := offset }
  | .voteAck offset =>
    some { log with commit := if logIsOffsetLarger log offset log.commit then offset else log.commit }

inductive LrLabel
  | log (c : LogChange)
  /-- A byte of the reply array of an entry in the leader's log is written. -/
  | reply (entry i : Nat) (b : UInt8)
  /-- The send sequence number is increased for other servers. -/
  | ssn
  /-- Accesses on the CTRL QP succeed or fail. -/
  | failCount (n : UInt8)
  | logAdjustment (voteAck : Nat) (nc : List DareLogEntryDet)
  | updateRemoteLog
  | commitOffsets (size : Nat)
  | getRemoteApplyOffset (voteAck : Nat)
  | post
  | land (k : Nat)
  | poll (k : Nat) (rc : WcResult)
  | remove
  | join
  /-- The LOG QP is connected. -/
  | connect
  /-- The connection is established. -/
  | established

/-- One step.  A function only starts when none is in progress, and `post_send` waits while the QP is
    blocked. -/
def lrStep (s : LrState) : LrLabel → Option LrState
  | .log c => if s.call = [] then (changeLog s.log c).map fun log => { s with log := log } else none
  | .reply entry i b =>
    some { s with log := { s.log with entries := setReply s.log.entries entry i b } }
  | .ssn => if s.call = [] then some { s with ssn := s.ssn + 1 } else none
  | .failCount n => some { s with failCount := n }
  | .logAdjustment voteAck nc => if s.call = [] then some (s.logAdjustment voteAck nc) else none
  | .updateRemoteLog => if s.call = [] then some s.updateRemoteLog else none
  | .commitOffsets size => if s.call = [] then s.commitOffsets size else none
  | .getRemoteApplyOffset voteAck =>
    if s.call = [] then some (s.getRemoteApplyOffset voteAck) else none
  | .post =>
    match s.call with
    | [] => none
    | (request, wa) :: rest =>
      if s.qp.state = .blocked then none
      else
        -- the second part of an update clears the flag once more
        some { s.postSend request wa with
          call := rest
          sendFlag := if wa then false else s.sendFlag }
  | .land k => s.land k
  | .poll k rc => s.poll k rc
  | .remove => if s.call = [] then some s.remove else none
  | .join => if s.call = [] ∧ s.isOn = false then some s.join else none
  | .connect =>
    if s.call = [] ∧ s.isOn ∧ s.rcConnected = false then some (s.setQp .connected) else none
  | .established =>
    if s.call = [] ∧ s.isOn ∧ s.rcConnected = false then some { s with rcConnected := true } else none

abbrev LrMoves (s : LrState) (l : LrLabel) (s' : LrState) : Prop := lrStep s l = some s'

/-- The beginning of a term: the QP was just connected, no end offset is to be written, and the flags
    of `next_wr_id` are off. -/
def lrInit (s : LrState) : Prop :=
  s.log.len = LOG_SIZE ∧ s.sendFlag = true ∧ s.nextLrStep ≠ .updateEnd ∧ s.qp = .connected ∧
    s.call = [] ∧ s.written = [] ∧ s.failedPart = false ∧ s.remoteEnd = s.confirmedEnd ∧ s.conn < 256 ∧
    (∃ ssn ≤ s.ssn, ∃ conn < 256, s.nextWrId = ssn * 1024 + conn) ∧ (s.isOn = false → s.rcConnected = false)

end Apus
