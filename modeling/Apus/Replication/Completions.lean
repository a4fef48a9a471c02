import Apus.Replication.Rounds

namespace Apus

open Lib

/-!
# Completions and connections

A completion of log replication is that of a request that is waited for (`PolledLr`), and what the
leader does next depends on its step: one lemma for each keeps `LrInv`.  With the steps that cut
and restore the connection, `LrInv` holds in every run (`LrInv.reach`).
-/

variable {s s' : LrState} {w : WorkRequest} {r : Request} {wa : Bool} {rc : WcResult} {k len : Nat}
  {ws : List WorkRequest}

/-! ### Completions -/

/-- What a completion does not change in what the leader knows about the follower. -/
structure Frame (s t : LrState) : Prop where
  log : t.log = s.log
  conn : t.conn = s.conn
  ssn : t.ssn = s.ssn
  nextWrId : t.nextWrId = s.nextWrId
  call : t.call = s.call
  rcConnected : t.rcConnected = s.rcConnected
  isOn : t.isOn = s.isOn
  remote : t.remote = s.remote
  remoteEnd : t.remoteEnd = s.remoteEnd
  remoteCommit : t.remoteCommit = s.remoteCommit
  cachedEndOffset : t.cachedEndOffset = s.cachedEndOffset
  lostPart : t.lostPart = s.lostPart
  idx : t.idx = s.idx

theorem Frame.trans {t u : LrState} (h : Frame s t) (h' : Frame t u) : Frame s u :=
  ⟨h'.log.trans h.log, h'.conn.trans h.conn, h'.ssn.trans h.ssn, h'.nextWrId.trans h.nextWrId,
    h'.call.trans h.call, h'.rcConnected.trans h.rcConnected, h'.isOn.trans h.isOn,
    h'.remote.trans h.remote, h'.remoteEnd.trans h.remoteEnd, h'.remoteCommit.trans h.remoteCommit,
    h'.cachedEndOffset.trans h.cachedEndOffset, h'.lostPart.trans h.lostPart, h'.idx.trans h.idx⟩

theorem frame_record (s : LrState) (w : WorkRequest) (rc : WcResult) :
    Frame s (s.record w rc) ∧ (s.record w rc).qp = s.qp ∧
      (s.record w rc).nextLrStep = s.nextLrStep ∧ (s.record w rc).sendFlag = s.sendFlag ∧
      (s.record w rc).sendCount = s.sendCount := by
  unfold LrState.record
  split
  · split <;> exact ⟨⟨rfl, rfl, rfl, rfl, rfl, rfl, rfl, rfl, rfl, rfl, rfl, rfl, rfl⟩, rfl, rfl, rfl, rfl⟩
  · exact ⟨⟨rfl, rfl, rfl, rfl, rfl, rfl, rfl, rfl, rfl, rfl, rfl, rfl, rfl⟩, rfl, rfl, rfl, rfl⟩
  · split <;> exact ⟨⟨rfl, rfl, rfl, rfl, rfl, rfl, rfl, rfl, rfl, rfl, rfl, rfl, rfl⟩, rfl, rfl, rfl, rfl⟩
  · split <;> exact ⟨⟨rfl, rfl, rfl, rfl, rfl, rfl, rfl, rfl, rfl, rfl, rfl, rfl, rfl⟩, rfl, rfl, rfl, rfl⟩
  · exact ⟨⟨rfl, rfl, rfl, rfl, rfl, rfl, rfl, rfl, rfl, rfl, rfl, rfl, rfl⟩, rfl, rfl, rfl, rfl⟩

/-- The step of log replication, what is counted and whether the leader may post again. -/
structure LrProgress where
  nextLrStep : NextLrStep
  sendFlag : Bool
  sendCount : Nat

def LrState.setProgress (s : LrState) (p : LrProgress) : LrState :=
  { s with nextLrStep := p.nextLrStep, sendFlag := p.sendFlag, sendCount := p.sendCount }

/-- `handle_lr_work_completion` for a request that is waited for. -/
def progress (step : NextLrStep) (flag : Bool) (count : Nat) (success : Bool) : LrProgress :=
  match step, count with
  | .updateLog, 0 => ⟨.updateLog, true, 0⟩
  | .updateLog, 1 => ⟨if success then .updateEnd else .updateLog, true, 1⟩
  | .updateLog, 2 => ⟨.updateLog, flag, if success then 1 else 0⟩
  | .updateLog, n => ⟨.updateLog, flag, n⟩
  | .updateEnd, n => ⟨if success then .updateLog else .updateEnd, true, n⟩
  | step, n => ⟨if success then step.next else step, true, n⟩

theorem handleLrWorkCompletion_eq {wrId : Nat} (h : wridBase wrId = s.nextWrId) :
    s.handleLrWorkCompletion wrId rc =
      s.setProgress (progress s.nextLrStep s.sendFlag s.sendCount (decide (rc = .success))) := by
  have hmatch : wridUnsetWa (wridUnsetTag wrId) = s.nextWrId := h
  unfold LrState.handleLrWorkCompletion
  rw [if_neg (not_not_intro hmatch)]
  obtain ⟨log, idx, conn, ssn, isOn, nextWrId, cachedEndOffset, lastGetReadSsn, failCount, step, flag,
    count, rest⟩ := s
  by_cases hrc : rc = .success
  · rw [if_pos hrc, decide_eq_true hrc]
    cases step
    case updateLog => match count with
      | 0 => rfl
      | 1 => rfl
      | 2 => rfl
      | _ + 3 => rfl
    all_goals rfl
  · rw [if_neg hrc, decide_eq_false hrc]
    cases step
    case updateLog => match count with
      | 0 => rfl
      | 1 => rfl
      | 2 => rfl
      | _ + 3 => rfl
    all_goals rfl

/-- Requests are taken out of the queue. -/
def LrState.setOutstanding (s : LrState) (ws : List WorkRequest) : LrState :=
  { s with qp := { s.qp with outstanding := ws } }

/-- What `poll` leaves, for a request that is signaled or failed. -/
def LrState.polled (s : LrState) (ws : List WorkRequest) (w : WorkRequest) (rc : WcResult) : LrState :=
  LrState.enterUpdateLog s (((s.setOutstanding ws).record w rc).handleCompletion w.wrId rc)

/-- `LR_UPDATE_LOG` is entered. -/
def enters (step step' : NextLrStep) : Bool := decide (step ≠ .updateLog ∧ step' = .updateLog)

theorem enterUpdateLog_eq (s t : LrState) : LrState.enterUpdateLog s t =
    { t with written := if enters s.nextLrStep t.nextLrStep then [] else t.written } := by
  unfold LrState.enterUpdateLog enters
  by_cases h : s.nextLrStep ≠ .updateLog ∧ t.nextLrStep = .updateLog
  · rw [if_pos h, if_pos (decide_eq_true h)]
  · rw [if_neg h, if_neg (by rw [decide_eq_false h]; exact Bool.false_ne_true)]

theorem record_setOutstanding (s : LrState) (ws : List WorkRequest) (w : WorkRequest)
    (rc : WcResult) : (s.setOutstanding ws).record w rc = (s.record w rc).setOutstanding ws := by
  unfold LrState.record
  split
  · split <;> rfl
  · rfl
  · split <;> rfl
  · split <;> rfl
  · rfl

/-- A request of log replication that is waited for is polled. -/
theorem polled_lr (ws : List WorkRequest) (rc : WcResult) (h : wridBase w.wrId = s.nextWrId) :
    Frame s (s.polled ws w rc) ∧ (s.polled ws w rc).qp.outstanding = ws ∧
      ∃ p, p = progress s.nextLrStep s.sendFlag s.sendCount (decide (rc = .success)) ∧
        (s.polled ws w rc).nextLrStep = p.nextLrStep ∧ (s.polled ws w rc).sendFlag = p.sendFlag ∧
        (s.polled ws w rc).sendCount = p.sendCount ∧
        (s.polled ws w rc).failedPart = (s.record w rc).failedPart ∧
        (s.polled ws w rc).confirmedEnd = (s.record w rc).confirmedEnd ∧
        (s.polled ws w rc).written =
          if enters s.nextLrStep p.nextLrStep then [] else (s.record w rc).written := by
  obtain ⟨hframe, -, hstep, hflag, hcount⟩ := frame_record s w rc
  have hprogress : (((s.record w rc).setOutstanding ws).handleLrWorkCompletion w.wrId rc) =
      ((s.record w rc).setOutstanding ws).setProgress
        (progress s.nextLrStep s.sendFlag s.sendCount (decide (rc = .success))) := by
    rw [← hstep, ← hflag, ← hcount]
    exact handleLrWorkCompletion_eq (s := (s.record w rc).setOutstanding ws)
      (h.trans hframe.nextWrId.symm)
  unfold LrState.polled
  rw [enterUpdateLog_eq, record_setOutstanding, LrState.handleCompletion, hprogress]
  exact ⟨⟨hframe.log, hframe.conn, hframe.ssn, hframe.nextWrId, hframe.call, hframe.rcConnected,
    hframe.isOn, hframe.remote, hframe.remoteEnd, hframe.remoteCommit, hframe.cachedEndOffset,
    hframe.lostPart, hframe.idx⟩, rfl, _, rfl, rfl, rfl, rfl, rfl, rfl, rfl⟩

/-- A request that is not waited for only changes counters and the QP. -/
theorem polled_other (h : wridBase w.wrId ≠ s.nextWrId) (hr : w.request.isLr = false) :
    s.polled ws w rc = { s with
      lastGetReadSsn := if s.lastGetReadSsn ≤ wridGetSsn w.wrId then 0 else s.lastGetReadSsn
      qp := RcQp.complete { s.qp with outstanding := ws } w.wrId rc
      failCount := if rc = .success then 0 else s.failCount } := by
  -- only requests of log replication are recorded
  have hrecord : (s.setOutstanding ws).record w rc = s.setOutstanding ws := by
    unfold LrState.record
    split
    · rename_i heq _
      rw [heq] at hr
      cases hr
    · rename_i heq _
      rw [heq] at hr
      cases hr
    · rename_i heq
      rw [heq] at hr
      cases hr
    · rename_i heq
      rw [heq] at hr
      cases hr
    · rfl
  have hstep : enters s.nextLrStep s.nextLrStep = false := by
    unfold enters
    exact decide_eq_false fun hcon => hcon.1 hcon.2
  -- the completion does not change the step
  have hsame : (s.setOutstanding ws).handleLrWorkCompletion w.wrId rc = s.setOutstanding ws := by
    unfold LrState.handleLrWorkCompletion
    exact if_pos h
  unfold LrState.polled
  rw [hrecord, enterUpdateLog_eq, LrState.handleCompletion, hsame]
  have hwritten : (if enters s.nextLrStep s.nextLrStep then [] else s.written) = s.written := by
    rw [hstep]
    rfl
  exact congrArg (fun written => { s with
    lastGetReadSsn := if s.lastGetReadSsn ≤ wridGetSsn w.wrId then 0 else s.lastGetReadSsn
    qp := RcQp.complete { s.qp with outstanding := ws } w.wrId rc
    failCount := if rc = WcResult.success then 0 else s.failCount
    written := written }) hwritten

section Record

variable {start n offset : Nat} {m : Mem}

theorem record_written (hr : w.request = .entries start n) (hm : w.source = some m) :
    s.record w .success = { s with written := s.written ++ [⟨start, n, m⟩] } := by
  rw [LrState.record, hr, hm]
  rfl

theorem record_failed (hr : w.request = .entries start n) (hrc : rc ≠ .success) :
    s.record w rc = { s with failedPart := true } := by
  rw [LrState.record, hr]
  cases w.source with
  | none => rfl
  | some m => exact if_neg hrc

theorem record_setEnd (hr : w.request = .setEnd offset ∨ w.request = .updateEnd offset) :
    s.record w rc = if rc = .success then { s with confirmedEnd := offset } else s := by
  rcases hr with hr | hr <;> rw [LrState.record, hr]

theorem record_read (hr : w.request = .readNceLen ∨ w.request = .readNce) :
    s.record w rc = s := by
  rcases hr with hr | hr <;> rw [LrState.record, hr]

end Record

/-- A request of log replication is one of those that are waited for; the others stay. -/
theorem LrInv.waiting (h : LrInv len s) {a b : List WorkRequest}
    (hsplit : s.qp.outstanding = a ++ w :: b) (hlr : w.request.isLr = true) :
    s.sendFlag = false ∧ ∃ P Q, s.Expects len (P ++ w.request :: Q) ∧
      (lrOf (a ++ b) ++ (s.call.map Prod.fst).filter Request.isLr).Sublist (P ++ Q) ∧
      (s.lostPart = false → ¬ s.Short →
        lrOf (a ++ b) ++ (s.call.map Prod.fst).filter Request.isLr = P ++ Q) := by
  -- the requests that are waited for, around this one
  have hawait : s.awaited =
      lrOf a ++ w.request :: (lrOf b ++ (s.call.map Prod.fst).filter Request.isLr) := by
    rw [awaited_eq, hsplit, lrOf_append, lrOf_cons_of_lr hlr, List.append_assoc, List.cons_append]
  -- none is waited for while the flag is on
  have hflag : s.sendFlag = false := by
    cases hflag : s.sendFlag with
    | false => rfl
    | true =>
      have hnil := h.idle hflag
      rw [hawait] at hnil
      exact absurd hnil (List.append_ne_nil_of_right_ne_nil _ (List.cons_ne_nil _ _))
  obtain ⟨R, hsub, hexp, hall⟩ := h.waits hflag
  rw [hawait] at hsub hall
  obtain ⟨R₁, R₂, rfl, h₁, h₂⟩ := List.append_sublist_iff.mp hsub
  obtain ⟨R₃, R₄, rfl, h₃, h₄⟩ := List.cons_sublist_iff.mp h₂
  obtain ⟨P, Q, rfl⟩ := List.append_of_mem h₃
  -- the others are left, in their order
  have hrest : (lrOf (a ++ b) ++ (s.call.map Prod.fst).filter Request.isLr).Sublist
      (R₁ ++ P ++ (Q ++ R₄)) := by
    rw [lrOf_append, List.append_assoc]
    exact (h₁.trans (List.sublist_append_left _ _)).append
      (h₄.trans (List.sublist_append_right _ _))
  refine ⟨hflag, R₁ ++ P, Q ++ R₄, ?_, hrest, fun hlost hshort => hrest.eq_of_length ?_⟩
  · simpa only [List.append_assoc, List.cons_append] using hexp
  · have hlength := congrArg List.length (hall hlost hshort)
    simp only [lrOf_append, List.length_append, List.length_cons] at hlength ⊢
    omega

/-- A completion for the follower: what is left is waited for, or the flag is on. -/
theorem LrInv.ofFrame {t : LrState} {a b : List WorkRequest} (h : LrInv len s)
    (hsplit : s.qp.outstanding = a ++ w :: b) (hframe : Frame s t) (hout : t.qp.outstanding = a ++ b)
    (hidle : t.sendFlag = true → t.awaited = []) (hwaits : t.sendFlag = false → t.Waits len)
    (hstarted : t.nextLrStep = .updateLog → t.remoteEnd = t.confirmedEnd)
    (hstored : t.nextLrStep = .updateEnd → t.failedPart = false ∧
      ∀ x, InRange len t.confirmedEnd t.cachedEndOffset x → t.Stored x)
    (hfailed : t.failedPart = true → t.nextLrStep = .updateLog) : LrInv len t := by
  -- what is outstanding was so before
  have hkept : ∀ v ∈ t.qp.outstanding, v ∈ s.qp.outstanding := by
    intro v hv
    rw [hout] at hv
    rw [hsplit]
    exact (List.append_sublist_append_left a).mpr (List.sublist_cons_self w b) |>.subset hv
  refine ⟨?_, h.ids.shrink hframe.conn hframe.ssn hframe.nextWrId ?_
    (fun v hv => ⟨v, hkept v hv, rfl, rfl, rfl⟩) ?_ ?_, hidle, hwaits, hstarted, hstored, hfailed, ?_⟩
  · rw [hframe.log]
    exact h.len_eq
  · intro q hq
    rwa [hframe.call] at hq
  · intro hcut hon
    rw [hframe.rcConnected, hon] at hcut
    cases hcut
  · intro hoff
    rw [hframe.isOn] at hoff
    rw [hframe.rcConnected]
    exact h.ids.off hoff
  · intro v hv m hm x hx
    rw [hframe.remote]
    exact h.landed v (hkept v hv) m hm x hx

/-- A block that was written is no longer waited for. -/
theorem stored_of_written {t : LrState} {P Q : List Request} {start n x : Nat} {m : Mem}
    (hr : w.request = .entries start n) (hwritten : t.written = s.written ++ [⟨start, n, m⟩])
    (hremote : t.remote = s.remote) (hlanded : ∀ x, w.request.Covers x → s.remote x = m x)
    (h : (∃ r ∈ P ++ w.request :: Q, r.Covers x) ∨ s.Stored x) :
    (∃ r ∈ P ++ Q, r.Covers x) ∨ t.Stored x := by
  rcases h with ⟨r, hmem, hcov⟩ | ⟨c, hc, hlo, hhi, hbyte⟩
  · rcases List.mem_append.mp hmem with hmem | hmem
    · exact .inl ⟨r, List.mem_append_left _ hmem, hcov⟩
    rcases List.mem_cons.mp hmem with rfl | hmem
    · -- the block is stored now
      right
      have hbyte := hlanded x hcov
      rw [hr] at hcov
      refine ⟨⟨start, n, m⟩, ?_, hcov.1, hcov.2, ?_⟩
      · rw [hwritten]
        exact List.mem_append_right _ List.mem_cons_self
      · rw [hremote]
        exact hbyte
    · exact .inl ⟨r, List.mem_append_right _ hmem, hcov⟩
  · refine .inr ⟨c, ?_, hlo, hhi, ?_⟩
    · rw [hwritten]
      exact List.mem_append_left _ hc
    · rw [hremote]
      exact hbyte

/-- A request of log replication was polled: `P` and `Q` are the others that could be waited for. -/
structure PolledLr (len : Nat) (s t : LrState) (w : WorkRequest) (rc : WcResult)
    (P Q : List Request) : Prop where
  frame : Frame s t
  sendFlag : s.sendFlag = false
  expects : s.Expects len (P ++ w.request :: Q)
  sub : t.awaited.Sublist (P ++ Q)
  all : s.lostPart = false → ¬ s.Short → t.awaited = P ++ Q
  nextLrStep : t.nextLrStep =
    (progress s.nextLrStep s.sendFlag s.sendCount (decide (rc = .success))).nextLrStep
  flag : t.sendFlag =
    (progress s.nextLrStep s.sendFlag s.sendCount (decide (rc = .success))).sendFlag
  sendCount : t.sendCount =
    (progress s.nextLrStep s.sendFlag s.sendCount (decide (rc = .success))).sendCount
  failedPart : t.failedPart = (s.record w rc).failedPart
  confirmedEnd : t.confirmedEnd = (s.record w rc).confirmedEnd
  written : t.written =
    if enters s.nextLrStep t.nextLrStep then [] else (s.record w rc).written

section PolledLr

variable {t : LrState} {P Q : List Request} {a b : List WorkRequest}

theorem LrInv.polled (rc : WcResult) (h : LrInv len s) (hsplit : s.qp.outstanding = a ++ w :: b)
    (hlr : w.request.isLr = true) : (s.polled (a ++ b) w rc).qp.outstanding = a ++ b ∧
      ∃ P Q, PolledLr len s (s.polled (a ++ b) w rc) w rc P Q := by
  have hw : w ∈ s.qp.outstanding := by
    rw [hsplit]
    exact List.mem_append_right _ List.mem_cons_self
  obtain ⟨hflag, P, Q, hexp, hsub, hall⟩ := h.waiting hsplit hlr
  obtain ⟨hframe, hout, p, rfl, hstep', hflag', hcount', hfailed', hconfirmed', hwritten'⟩ :=
    polled_lr (a ++ b) rc ((h.ids.ids w hw).mp hlr)
  have hawait : (s.polled (a ++ b) w rc).awaited =
      lrOf (a ++ b) ++ (s.call.map Prod.fst).filter Request.isLr := by
    rw [awaited_eq, hout, hframe.call]
  rw [← hstep'] at hwritten'
  exact ⟨hout, P, Q, hframe, hflag, hexp, hawait ▸ hsub, fun h1 h2 => hawait.trans (hall h1 h2),
    hstep', hflag', hcount', hfailed', hconfirmed', hwritten'⟩

/-- The flag is on after a completion that does not leave a part of an update. -/
theorem PolledLr.on (h : PolledLr len s t w rc P Q)
    (hp : (progress s.nextLrStep s.sendFlag s.sendCount (decide (rc = .success))).sendFlag = true) :
    t.sendFlag = false → t.Waits len := by
  intro hoff
  rw [h.flag, hp] at hoff
  cases hoff

/-- There was no other request to wait for. -/
theorem PolledLr.one (h : PolledLr len s t w rc P Q) (hr : P ++ w.request :: Q = [r]) :
    w.request = r ∧ t.awaited = [] := by
  obtain ⟨rfl, hcons⟩ | ⟨rfl, hnil⟩ := List.append_eq_singleton_iff.mp hr
  · obtain ⟨heq, rfl⟩ := List.cons.inj hcons
    exact ⟨heq, List.sublist_nil.mp h.sub⟩
  · cases hnil

/-- The completion of a read moves to the next step. -/
theorem LrInv.polledRead (h : LrInv len s) (hp : PolledLr len s t w rc P Q)
    (hsplit : s.qp.outstanding = a ++ w :: b) (hout : t.qp.outstanding = a ++ b)
    (hstep : s.nextLrStep = .getNceLen ∨ s.nextLrStep = .getNce) : LrInv len t := by
  have hread : (w.request = .readNceLen ∨ w.request = .readNce) ∧ t.awaited = [] := by
    have hexp := hp.expects
    unfold LrState.Expects at hexp
    rcases hstep with hstep | hstep
    · rw [hstep] at hexp
      exact ⟨.inl (hp.one hexp).1, (hp.one hexp).2⟩
    · rw [hstep] at hexp
      exact ⟨.inr (hp.one hexp).1, (hp.one hexp).2⟩
  have hne : t.nextLrStep ≠ .updateLog ∧ t.nextLrStep ≠ .updateEnd := by
    rw [hp.nextLrStep]
    rcases hstep with hstep | hstep <;> rw [hstep] <;>
      by_cases hrc : rc = .success <;> simp [progress, NextLrStep.next, hrc]
  refine h.ofFrame hsplit hp.frame hout (fun _ => hread.2) (hp.on ?_) (absurd · hne.1)
    (absurd · hne.2) fun hcon => ?_
  · rcases hstep with hstep | hstep <;> rw [hstep] <;> rfl
  · rw [hp.failedPart, record_read hread.1] at hcon
    have hlog := h.failed hcon
    rcases hstep with hstep | hstep <;> rw [hstep] at hlog <;> cases hlog

/-- The follower's end offset is set where its log and the leader's part. -/
theorem LrInv.polledSetEnd (h : LrInv len s) (hp : PolledLr len s t w rc P Q)
    (hsplit : s.qp.outstanding = a ++ w :: b) (hout : t.qp.outstanding = a ++ b)
    (hstep : s.nextLrStep = .setEnd) : LrInv len t := by
  have hexp := hp.expects
  unfold LrState.Expects at hexp
  rw [hstep] at hexp
  obtain ⟨hr, hnil⟩ := hp.one hexp
  -- a part that failed has led back to the step of the log
  have hfailed : t.failedPart = false := by
    have hbefore : s.failedPart = false := Bool.eq_false_iff.mpr fun hcon => by
      have hlog := h.failed hcon
      rw [hstep] at hlog
      cases hlog
    rw [hp.failedPart, record_setEnd (.inl hr)]
    split <;> exact hbefore
  have hnext : t.nextLrStep = if rc = .success then .updateLog else .setEnd := by
    rw [hp.nextLrStep, hstep]
    by_cases hrc : rc = .success <;> simp [progress, NextLrStep.next, hrc]
  refine h.ofFrame hsplit hp.frame hout (fun _ => hnil) (hp.on (by rw [hstep]; rfl)) (fun hlog => ?_)
    (fun hcon => ?_) fun hcon => ?_
  · rw [hnext] at hlog
    by_cases hrc : rc = .success
    · rw [hp.frame.remoteEnd, hp.confirmedEnd, record_setEnd (.inl hr), if_pos hrc]
    · rw [if_neg hrc] at hlog
      cases hlog
  · rw [hnext] at hcon
    split at hcon <;> cases hcon
  · rw [hfailed] at hcon
    cases hcon

/-- The follower's end offset is written, or has to be written again. -/
theorem LrInv.polledUpdateEnd (h : LrInv len s) (hp : PolledLr len s t w rc P Q)
    (hsplit : s.qp.outstanding = a ++ w :: b) (hout : t.qp.outstanding = a ++ b)
    (hstep : s.nextLrStep = .updateEnd) : LrInv len t := by
  have hexp := hp.expects
  unfold LrState.Expects at hexp
  rw [hstep] at hexp
  obtain ⟨hr, hnil⟩ := hp.one hexp.1
  obtain ⟨hnofailed, hstored⟩ := h.stored hstep
  have hfailed : t.failedPart = false := by
    rw [hp.failedPart, record_setEnd (.inr hr)]
    split <;> exact hnofailed
  have hnext : t.nextLrStep = if rc = .success then .updateLog else .updateEnd := by
    rw [hp.nextLrStep, hstep]
    by_cases hrc : rc = .success <;> simp [progress, hrc]
  have hon := hp.on (by rw [hstep]; rfl)
  by_cases hrc : rc = .success
  · -- the write succeeded: the next update starts here
    rw [if_pos hrc] at hnext
    refine h.ofFrame hsplit hp.frame hout (fun _ => hnil) hon (fun _ => ?_) (fun hcon => ?_)
      fun hcon => ?_
    · rw [hp.frame.remoteEnd, hp.confirmedEnd, record_setEnd (.inr hr), if_pos hrc]
      exact hexp.2
    · rw [hnext] at hcon
      cases hcon
    · rw [hfailed] at hcon
      cases hcon
  · -- the write failed: the end offset is written again
    rw [if_neg hrc] at hnext
    have hrecord : s.record w rc = s := by
      rw [record_setEnd (.inr hr), if_neg hrc]
    refine h.ofFrame hsplit hp.frame hout (fun _ => hnil) hon (fun hcon => ?_)
      (fun _ => ⟨hfailed, fun x hx => ?_⟩) fun hcon => ?_
    · rw [hnext] at hcon
      cases hcon
    · rw [hp.confirmedEnd, hrecord, hp.frame.cachedEndOffset] at hx
      obtain ⟨c, hc, hlo, hhi, hbyte⟩ := hstored x hx
      refine ⟨c, ?_, hlo, hhi, ?_⟩
      · rw [hp.written, hrecord, hnext, hstep]
        exact hc
      · rw [hp.frame.remote]
        exact hbyte
    · rw [hfailed] at hcon
      cases hcon

/-- What is left to wait for when a part of an update is polled. -/
theorem PolledLr.left (hp : PolledLr len s t w rc P Q) (hstep : s.nextLrStep = .updateLog) :
    (s.sendCount ≤ 1 → t.awaited = [] ∧ P ++ Q = []) ∧
      (s.sendCount = 2 → (P ++ Q).length = 1) ∧
      ∀ c, t.nextLrStep = .updateLog → t.sendCount = c → (P ++ Q).length = max 1 c → c ≤ 2 →
        (0 < c → t.failedPart = false ∧ ∀ x, InRange len t.remoteEnd t.cachedEndOffset x →
          (∃ r ∈ P ++ Q, r.Covers x) ∨ t.Stored x) → t.Waits len := by
  have hexp := hp.expects
  unfold LrState.Expects at hexp
  rw [hstep] at hexp
  obtain ⟨hblocks, hpair, hlength, -, -⟩ := hexp
  have hkeeps : (P ++ Q).Sublist (P ++ w.request :: Q) :=
    (List.append_sublist_append_left P).mpr (List.sublist_cons_self _ Q)
  rw [List.length_append, List.length_cons] at hlength
  refine ⟨fun hle => ?_, fun htwo => ?_, fun c hlog hc hlen hle hcov => ?_⟩
  · have hnil : P ++ Q = [] := by
      refine List.length_eq_zero_iff.mp ?_
      rw [List.length_append]
      omega
    exact ⟨List.sublist_nil.mp (hnil ▸ hp.sub), hnil⟩
  · rw [List.length_append]
    omega
  · refine ⟨P ++ Q, hp.sub, ?_, fun hlost hshort => ?_⟩
    · unfold LrState.Expects
      rw [hlog, hc]
      exact ⟨fun r hr => hblocks r (hkeeps.subset hr), hpair.sublist hkeeps, hlen, hle, hcov⟩
    · rw [hp.frame.lostPart] at hlost
      refine hp.all hlost fun hcon => hshort ⟨hlog, ?_⟩
      rw [hp.frame.cachedEndOffset]
      exact hcon.2

/-- A part of an update was written: the last part leads to the end offset. -/
theorem LrInv.polledWritten {start n : Nat} {m : Mem} (h : LrInv len s)
    (hp : PolledLr len s t w .success P Q) (hsplit : s.qp.outstanding = a ++ w :: b)
    (hout : t.qp.outstanding = a ++ b) (hstep : s.nextLrStep = .updateLog)
    (hr : w.request = .entries start n) (hm : w.source = some m) : LrInv len t := by
  have hw : w ∈ s.qp.outstanding := by
    rw [hsplit]
    exact List.mem_append_right _ List.mem_cons_self
  have hexp := hp.expects
  unfold LrState.Expects at hexp
  rw [hstep] at hexp
  obtain ⟨-, -, -, hcount, hcover⟩ := hexp
  obtain ⟨hlast, hone, hleft⟩ := hp.left hstep
  have hnext := hp.nextLrStep
  have hflag := hp.flag
  have hon := hp.on
  rw [hstep] at hnext hflag hon
  have hstarted : t.remoteEnd = t.confirmedEnd := by
    rw [hp.frame.remoteEnd, hp.confirmedEnd, record_written hr hm]
    exact h.started hstep
  have hwritten : t.written = s.written ++ [⟨start, n, m⟩] := by
    rw [hp.written, hstep, record_written hr hm]
    rfl
  have hcovered : 0 < s.sendCount → t.failedPart = false ∧
      ∀ x, InRange len t.remoteEnd t.cachedEndOffset x →
        (∃ r ∈ P ++ Q, r.Covers x) ∨ t.Stored x := by
    intro hpos
    refine ⟨?_, fun x hx => ?_⟩
    · rw [hp.failedPart, record_written hr hm]
      exact (hcover hpos).1
    · rw [hp.frame.remoteEnd, hp.frame.cachedEndOffset] at hx
      exact stored_of_written hr hwritten hp.frame.remote (h.landed w hw m hm)
        ((hcover hpos).2 x hx)
  match hn : s.sendCount with
  | 0 =>
    -- the other part failed: both parts are sent again
    have hlog : t.nextLrStep = .updateLog := by rw [hnext, hn]; rfl
    refine h.ofFrame hsplit hp.frame hout (fun _ => (hlast (by omega)).1) (hon (by rw [hn]; rfl))
      (fun _ => hstarted) (fun hcon => ?_) fun _ => hlog
    rw [hlog] at hcon
    cases hcon
  | 1 =>
    -- the last part: all of the update is stored
    have hend : t.nextLrStep = .updateEnd := by rw [hnext, hn]; rfl
    obtain ⟨hnofail, hall⟩ := hcovered (by omega)
    refine h.ofFrame hsplit hp.frame hout (fun _ => (hlast (by omega)).1) (hon (by rw [hn]; rfl))
      (fun _ => hstarted) (fun _ => ⟨hnofail, fun x hx => ?_⟩) fun hcon => ?_
    · rw [← hstarted] at hx
      rcases hall x hx with ⟨r, hmem, -⟩ | hstored
      · rw [(hlast (by omega)).2] at hmem
        cases hmem
      · exact hstored
    · rw [hnofail] at hcon
      cases hcon
  | 2 =>
    -- one part is left
    have hlog : t.nextLrStep = .updateLog := by rw [hnext, hn]; rfl
    have hcount' : t.sendCount = 1 := by rw [hp.sendCount, hstep, hn]; rfl
    refine h.ofFrame hsplit hp.frame hout (fun hcon => ?_)
      (fun _ => hleft 1 hlog hcount' (hone hn) (by omega) fun _ => hcovered (by omega))
      (fun _ => hstarted) (fun hcon => ?_) fun _ => hlog
    · rw [hflag, hn] at hcon
      exact absurd (hp.sendFlag.symm.trans hcon) Bool.false_ne_true
    · rw [hlog] at hcon
      cases hcon
  | _ + 3 => omega

/-- A part of an update failed: the step is repeated when the other part is polled. -/
theorem LrInv.polledFailed {start n : Nat} (h : LrInv len s)
    (hp : PolledLr len s t w rc P Q) (hsplit : s.qp.outstanding = a ++ w :: b)
    (hout : t.qp.outstanding = a ++ b) (hstep : s.nextLrStep = .updateLog)
    (hr : w.request = .entries start n) (hrc : rc ≠ .success) : LrInv len t := by
  have hexp := hp.expects
  unfold LrState.Expects at hexp
  rw [hstep] at hexp
  have hcount := hexp.2.2.2.1
  obtain ⟨hlast, hone, hleft⟩ := hp.left hstep
  have hnext := hp.nextLrStep
  have hflag := hp.flag
  have hon := hp.on
  rw [hstep, decide_eq_false hrc] at hnext hflag hon
  have hlog : t.nextLrStep = .updateLog := by
    rw [hnext]
    match s.sendCount with
    | 0 => rfl
    | 1 => rfl
    | 2 => rfl
    | _ + 3 => rfl
  have hstarted : t.nextLrStep = .updateLog → t.remoteEnd = t.confirmedEnd := by
    intro _
    rw [hp.frame.remoteEnd, hp.confirmedEnd, record_failed hr hrc]
    exact h.started hstep
  have hnoend : t.nextLrStep = .updateEnd → t.failedPart = false ∧
      ∀ x, InRange len t.confirmedEnd t.cachedEndOffset x → t.Stored x := by
    intro hcon
    rw [hlog] at hcon
    cases hcon
  by_cases htwo : s.sendCount = 2
  · -- the other part is still waited for
    have hcount' : t.sendCount = 0 := by
      rw [hp.sendCount, hstep, htwo, decide_eq_false hrc]
      rfl
    refine h.ofFrame hsplit hp.frame hout (fun hcon => ?_)
      (fun _ => hleft 0 hlog hcount' (hone htwo) (by omega) fun hcon => absurd hcon (by omega))
      hstarted hnoend fun _ => hlog
    rw [hflag, htwo] at hcon
    exact absurd (hp.sendFlag.symm.trans hcon) Bool.false_ne_true
  · -- this was the last part
    have hle : s.sendCount ≤ 1 := by omega
    refine h.ofFrame hsplit hp.frame hout (fun _ => (hlast hle).1) (hon ?_) hstarted hnoend
      fun _ => hlog
    match s.sendCount, hle with
    | 0, _ => rfl
    | 1, _ => rfl

theorem LrInv.polledLr (h : LrInv len s) (hsplit : s.qp.outstanding = a ++ w :: b)
    (hlr : w.request.isLr = true) (hsource : rc = .success → ∃ m, w.source = some m) :
    LrInv len (s.polled (a ++ b) w rc) := by
  obtain ⟨hout, P, Q, hp⟩ := LrInv.polled rc h hsplit hlr
  have hexp := hp.expects
  unfold LrState.Expects at hexp
  cases hstep : s.nextLrStep with
  | getWrite =>
    rw [hstep] at hexp
    exact hexp.elim
  | getNceLen => exact h.polledRead hp hsplit hout (.inl hstep)
  | getNce => exact h.polledRead hp hsplit hout (.inr hstep)
  | setEnd => exact h.polledSetEnd hp hsplit hout hstep
  | updateLog =>
    rw [hstep] at hexp
    obtain ⟨start, n, hr⟩ := hexp.1 w.request (List.mem_append_right _ List.mem_cons_self)
    by_cases hrc : rc = .success
    · obtain ⟨m, hm⟩ := hsource hrc
      subst hrc
      exact h.polledWritten hp hsplit hout hstep hr hm
    · exact h.polledFailed hp hsplit hout hstep hr hrc
  | updateEnd => exact h.polledUpdateEnd hp hsplit hout hstep

end PolledLr

/-- The two ways a request is polled. -/
theorem poll_cases (hs : s.poll k rc = some s') :
    ∃ w a b, s.qp.outstanding = a ++ w :: b ∧ s.qp.outstanding[k]? = some w ∧
      (rc = .success → ∃ m, w.source = some m) ∧
      (rc = .success ∧ w.signaled = false ∧ s' = s.setOutstanding (a ++ b) ∨
        (w.signaled = true ∨ rc ≠ .success) ∧ s' = s.polled (a ++ b) w rc) := by
  unfold LrState.poll at hs
  cases hk : s.qp.outstanding[k]? with
  | none =>
    rw [hk] at hs
    cases hs
  | some w =>
    obtain ⟨a, b, hsplit, herase, -⟩ := exists_split hk
    rw [hk] at hs
    simp only at hs
    rw [herase] at hs
    by_cases hnone : rc = .success ∧ w.source.isNone
    · rw [if_pos hnone] at hs
      cases hs
    rw [if_neg hnone] at hs
    refine ⟨w, a, b, hsplit, rfl, fun hrc => ?_, ?_⟩
    · exact Option.ne_none_iff_exists'.mp fun hcon => hnone ⟨hrc, by rw [hcon]; rfl⟩
    by_cases hsilent : rc = .success ∧ w.signaled = false
    · rw [if_pos hsilent] at hs
      exact .inl ⟨hsilent.1, hsilent.2, (Option.some.inj hs).symm⟩
    · rw [if_neg hsilent] at hs
      refine .inr ⟨?_, (Option.some.inj hs).symm⟩
      by_cases hrc : rc = .success
      · exact .inl (Bool.not_eq_false _ |>.mp fun hcon => hsilent ⟨hrc, hcon⟩)
      · exact .inr hrc

/-- A request that is not one of log replication leaves the queue. -/
theorem LrInv.dropOther (qp : RcQp) {a b : List WorkRequest} (h : LrInv len s)
    (hsplit : s.qp.outstanding = a ++ w :: b) (hlr : w.request.isLr = false)
    (hout : qp.outstanding = a ++ b) (ssn : Nat) (n : UInt8) :
    LrInv len { s with lastGetReadSsn := ssn, qp := qp, failCount := n } := by
  have hawait : LrState.awaited { s with lastGetReadSsn := ssn, qp := qp, failCount := n } =
      s.awaited := by
    rw [awaited_eq, awaited_eq s, hout, hsplit, lrOf_append, lrOf_append, lrOf_cons_of_not_lr hlr]
  refine h.ofFrame hsplit ⟨rfl, rfl, rfl, rfl, rfl, rfl, rfl, rfl, rfl, rfl, rfl, rfl, rfl⟩ hout
    (fun hflag => hawait.trans (h.idle hflag)) (fun hflag => ?_) h.started h.stored h.failed
  obtain ⟨R, hsub, hexp, hall⟩ := h.waits hflag
  exact ⟨R, hawait ▸ hsub, hexp, fun h1 h2 => hawait.trans (hall h1 h2)⟩

theorem LrInv.poll (h : LrInv len s) (hs : s.poll k rc = some s') : LrInv len s' := by
  obtain ⟨w, a, b, hsplit, -, hsource, hcases⟩ := poll_cases hs
  have hw : w ∈ s.qp.outstanding := by
    rw [hsplit]
    exact List.mem_append_right _ List.mem_cons_self
  rcases hcases with ⟨-, hsignaled, rfl⟩ | ⟨-, rfl⟩
  · -- requests of log replication are signaled
    have hlr : w.request.isLr = false := Bool.eq_false_iff.mpr fun hlr => by
      rw [h.ids.signaled w hw hlr] at hsignaled
      cases hsignaled
    exact h.dropOther { s.qp with outstanding := a ++ b } hsplit hlr rfl s.lastGetReadSsn
      s.failCount
  · cases hlr : w.request.isLr with
    | true => exact h.polledLr hsplit hlr hsource
    | false =>
      have hbase : wridBase w.wrId ≠ s.nextWrId := fun hbase => by
        rw [(h.ids.ids w hw).mpr hbase] at hlr
        cases hlr
      rw [polled_other hbase hlr]
      exact h.dropOther _ hsplit hlr rfl _ _

/-! ### Connections -/

/-- The QP is moved to RESET between two calls: the requests of log replication are lost. -/
theorem LrInv.cut {qp : RcQp} {lost isOn linked : Bool} (h : LrInv len s) (hcall : s.call = [])
    (hqp : qp.outstanding = []) (hoff : isOn = false → linked = false)
    (hlost : lost = (s.lostPart || s.qp.outstanding.any fun w => w.request.isLr)) :
    LrInv len { s with qp := qp, lostPart := lost, isOn := isOn, rcConnected := linked } := by
  have hnil : LrState.awaited
      { s with qp := qp, lostPart := lost, isOn := isOn, rcConnected := linked } = [] := by
    rw [awaited_eq, hqp, hcall]
    rfl
  have hnone : ∀ {P : WorkRequest → Prop}, ∀ w ∈ qp.outstanding, P w := by
    intro P w hw
    rw [hqp] at hw
    cases hw
  refine ⟨h.len_eq, ⟨h.ids.conn_lt, h.ids.round, hnone, hnone, hnone, h.ids.calls, h.ids.second,
    fun _ => ⟨hqp, hcall⟩, hoff⟩, fun _ => hnil, fun hflag => ?_, h.started, h.stored, h.failed, hnone⟩
  obtain ⟨R, hsub, hexp, hall⟩ := h.waits hflag
  refine ⟨R, ?_, hexp, fun hl hshort => ?_⟩
  · rw [hnil]
    exact List.nil_sublist R
  · have hl' : lost = false := hl
    rw [hlost, Bool.or_eq_false_iff] at hl'
    -- no request of log replication was outstanding
    have hlr : lrOf s.qp.outstanding = [] :=
      lrOf_eq_nil fun w hw => Bool.eq_false_iff.mpr (List.any_eq_false.mp hl'.2 w hw)
    rw [hnil, ← hall hl'.1 hshort, awaited_eq, hlr, hcall]
    rfl

theorem LrInv.remove (h : LrInv len s) (hcall : s.call = []) : LrInv len s.remove := by
  unfold LrState.remove
  split
  · exact h.cut hcall rfl (fun _ => rfl) rfl
  · rename_i hcut
    have hids := h.ids
    exact ⟨h.len_eq, ⟨hids.conn_lt, hids.round, hids.old, hids.ids, hids.signaled, hids.calls,
      hids.second, hids.offline, fun _ => Bool.eq_false_iff.mpr hcut⟩, h.idle, h.waits, h.started,
      h.stored, h.failed, h.landed⟩

theorem LrInv.join (h : LrInv len s) (hcall : s.call = []) (hoff : s.isOn = false) :
    LrInv len s.join := by
  have hids := h.ids
  obtain ⟨hout, -⟩ := hids.offline (hids.off hoff)
  refine ⟨h.len_eq, ⟨hids.conn_lt, hids.round, hids.old, hids.ids, hids.signaled, hids.calls,
    hids.second, fun _ => ⟨hout, hcall⟩, nofun⟩, fun _ => ?_, nofun, nofun, nofun, nofun, h.landed⟩
  show (s.qp.outstanding.map _ ++ s.call.map Prod.fst).filter Request.isLr = []
  rw [hout, hcall]
  rfl

/-! ### Runs -/

theorem LrInv.step {l : LrLabel} (hlen : ENTRY_SIZE ≤ len) (h : LrInv len s) (hs : LrMoves s l s') :
    LrInv len s' := by
  have hids := h.ids
  cases l with
  | log c =>
    obtain ⟨-, hs⟩ := Option.ite_none_right_eq_some.mp hs
    obtain ⟨log, hlog, rfl⟩ := Option.map_eq_some_iff.mp hs
    exact h.setLog ((changeLog_len (by rw [h.len_eq]; exact hlen) hlog).trans h.len_eq)
  | reply entry i b =>
    obtain rfl := Option.some.inj hs
    exact h.setLog h.len_eq
  | ssn =>
    obtain ⟨hcall, hs⟩ := Option.ite_none_right_eq_some.mp hs
    obtain rfl := Option.some.inj hs
    exact ⟨h.len_eq, hids.succ hcall rfl (Nat.le_succ _) rfl rfl rfl rfl, h.idle, h.waits, h.started,
      h.stored, h.failed, h.landed⟩
  | failCount n =>
    obtain rfl := Option.some.inj hs
    exact ⟨h.len_eq, ⟨hids.conn_lt, hids.round, hids.old, hids.ids, hids.signaled, hids.calls,
      hids.second, hids.offline, hids.off⟩, h.idle, h.waits, h.started, h.stored, h.failed, h.landed⟩
  | logAdjustment voteAck nc =>
    obtain ⟨hcall, hs⟩ := Option.ite_none_right_eq_some.mp hs
    obtain rfl := Option.some.inj hs
    exact h.logAdjustment hcall voteAck nc
  | updateRemoteLog =>
    obtain ⟨-, hs⟩ := Option.ite_none_right_eq_some.mp hs
    obtain rfl := Option.some.inj hs
    exact h.updateRemoteLog
  | commitOffsets size =>
    obtain ⟨hcall, hs⟩ := Option.ite_none_right_eq_some.mp hs
    exact h.commitOffsets hcall hs
  | getRemoteApplyOffset voteAck =>
    obtain ⟨hcall, hs⟩ := Option.ite_none_right_eq_some.mp hs
    obtain rfl := Option.some.inj hs
    exact h.getRemoteApplyOffset hcall
  | post =>
    cases hcall : s.call with
    | nil =>
      rw [LrMoves, lrStep, hcall] at hs
      cases hs
    | cons q rest =>
      obtain ⟨r, wa⟩ := q
      rw [LrMoves, lrStep, hcall] at hs
      obtain ⟨-, hs⟩ := Option.ite_none_left_eq_some.mp hs
      obtain rfl := Option.some.inj hs
      exact h.post hcall
  | land k => exact h.land hs
  | poll k rc => exact h.poll hs
  | remove =>
    obtain ⟨hcall, hs⟩ := Option.ite_none_right_eq_some.mp hs
    obtain rfl := Option.some.inj hs
    exact h.remove hcall
  | join =>
    obtain ⟨⟨hcall, hoff⟩, hs⟩ := Option.ite_none_right_eq_some.mp hs
    obtain rfl := Option.some.inj hs
    exact h.join hcall hoff
  | connect =>
    obtain ⟨⟨hcall, hon, -⟩, hs⟩ := Option.ite_none_right_eq_some.mp hs
    obtain rfl := Option.some.inj hs
    exact h.cut hcall rfl hids.off rfl
  | established =>
    obtain ⟨⟨hcall, hon, -⟩, hs⟩ := Option.ite_none_right_eq_some.mp hs
    obtain rfl := Option.some.inj hs
    refine ⟨h.len_eq, ⟨hids.conn_lt, hids.round, hids.old, hids.ids, hids.signaled, hids.calls,
      hids.second, nofun, fun hoff => ?_⟩, h.idle, h.waits, h.started, h.stored, h.failed, h.landed⟩
    have hoff' : s.isOn = false := hoff
    rw [hon] at hoff'
    cases hoff'

/-- Log replication in a run whose steps meet a condition. -/
theorem LrInv.reach {ok : LrState → LrLabel → Prop} (h : Reach lrInit LrMoves ok s) :
    LrInv LOG_SIZE s :=
  h.invariant (fun _ hinit => LrInv.init hinit) fun _ _ _ hinv _ hs => hinv.step (by decide) hs

end Apus
