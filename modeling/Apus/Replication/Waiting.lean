import Apus.Replication.Completions

namespace Apus

open Lib

/-!
# A follower that is waited for

While its `send_flag` is off, a follower is only posted to again after a completion that matches
`next_wr_id`.  A request to wait for is always there (`not_stuck`) in the runs in which

* a queue pair in the error state is not restarted while a request of log replication is outstanding,
  which the restart would discard;
* no wrapped update is posted while the log ends at offset 0, since `send_count` counts the empty
  second part;
* no request fails between the completion of the special signaled request and the next post, since
  the queue pair is blocked then and nothing unblocks it;
* a connection is not established with a LOG QP in the RESET state.

Without the first condition a completion that fails, followed by a post of the lazy commit, is enough
to wait forever (`not_not_stuck`).
-/

variable {s s' : LrState} {w : WorkRequest} {r : Request} {wa : Bool} {rc : WcResult} {k len : Nat}

namespace RcQp

variable {qp : RcQp}

/-- The special signaled request is outstanding. -/
def Awaits (qp : RcQp) : Prop :=
  ∃ w ∈ qp.outstanding, w.signaled = true ∧ w.wrId = qp.signaledWrId

/-- The request that `post_send` waits for is outstanding. -/
def Unblocks (qp : RcQp) : Prop :=
  qp.ready = true → (wridGetTag qp.signaledWrId = true → qp.Awaits) ∧
    (qp.state = .blocked → wridGetTag qp.signaledWrId = true)

theorem Unblocks.connected : Unblocks .connected :=
  fun _ => ⟨nofun, nofun⟩

theorem Unblocks.post {rcMaxSendWr wrId : Nat} (h : qp.Unblocks) (hblocked : qp.state ≠ .blocked) :
    (qp.post rcMaxSendWr wrId r).Unblocks := by
  intro hready
  have hready' : qp.ready = true := hready
  refine ⟨fun htag => ?_, fun hcon => absurd hcon hblocked⟩
  have hout : (qp.post rcMaxSendWr wrId r).outstanding = qp.outstanding ++
      [⟨if qp.wantsSignal rcMaxSendWr then wridSetTag wrId else wrId, r,
        r.isLr || qp.wantsSignal rcMaxSendWr, none⟩] := if_pos hready'
  have hid : (qp.post rcMaxSendWr wrId r).signaledWrId =
      if qp.wantsSignal rcMaxSendWr then
        (if qp.wantsSignal rcMaxSendWr then wridSetTag wrId else wrId) else qp.pendingSignal := rfl
  unfold Awaits
  rw [hid] at htag ⊢
  rw [hout]
  cases hspecial : qp.wantsSignal rcMaxSendWr with
  | true =>
    refine ⟨_, List.mem_append_right _ List.mem_cons_self, ?_, rfl⟩
    exact Bool.or_true _
  | false =>
    -- the special signaled request is the same as before
    simp only [hspecial, Bool.false_eq_true, if_false] at htag ⊢
    have hsame : qp.pendingSignal = qp.signaledWrId := by
      unfold pendingSignal at htag ⊢
      split at htag
      · cases htag
      · rename_i hpending
        exact if_neg hpending
    rw [hsame] at htag ⊢
    obtain ⟨w, hw, hsignaled, hwrId⟩ := (h hready').1 htag
    exact ⟨w, List.mem_append_left _ hw, hsignaled, hwrId⟩

theorem wridGetTag_unsetTag (wrid : Nat) : wridGetTag (wridUnsetTag wrid) = false := by
  unfold wridUnsetTag
  split
  · rename_i htag
    rw [wridGetTag, beq_iff_eq] at htag
    rw [wridGetTag, beq_eq_false_iff_ne]
    omega
  · rename_i htag
    exact Bool.eq_false_iff.mpr htag

/-- A request leaves the queue that is not the special signaled one. -/
theorem Awaits.remove {a b : List WorkRequest} (h : qp.Awaits) (hsplit : qp.outstanding = a ++ w :: b)
    (hne : w.signaled = false ∨ w.wrId ≠ qp.signaledWrId) :
    ∃ v ∈ a ++ b, v.signaled = true ∧ v.wrId = qp.signaledWrId := by
  obtain ⟨v, hv, hsignaled, hwrId⟩ := h
  refine ⟨v, ?_, hsignaled, hwrId⟩
  rw [hsplit] at hv
  simp only [List.mem_append, List.mem_cons] at hv ⊢
  rcases hv with hv | rfl | hv
  · exact .inl hv
  · rcases hne with hne | hne
    · rw [hne] at hsignaled
      cases hsignaled
    · exact absurd hwrId hne
  · exact .inr hv

/-- A completion blocks the QP only while the special signaled request is outstanding. -/
theorem Unblocks.complete {a b : List WorkRequest} (h : qp.Unblocks)
    (hsplit : qp.outstanding = a ++ w :: b)
    (hok : rc = .failure →
      qp.signaledWrId = 0 ∨ wridGetTag qp.signaledWrId = true ∨ w.wrId = qp.signaledWrId) :
    (RcQp.complete { qp with outstanding := a ++ b } w.wrId rc).Unblocks := by
  intro hready
  obtain ⟨hawaits, hblocked⟩ := h hready
  unfold RcQp.complete Awaits
  simp only
  by_cases hfound : qp.signaledWrId ≠ 0 ∧ w.wrId = qp.signaledWrId
  · simp only [if_pos hfound]
    rw [wridGetTag_unsetTag]
    refine ⟨nofun, fun hcon => absurd hcon ?_⟩
    -- the QP is not blocked any more
    simp only [hfound.1, hfound.2, ne_eq, not_false_eq_true, true_and, or_true, true_or, if_true]
    by_cases hstate : qp.state = .blocked
    · rw [if_pos hstate]
      split <;> nofun
    · rw [if_neg hstate]
      split
      · exact hstate
      · nofun
  · simp only [if_neg hfound]
    have hne : wridGetTag qp.signaledWrId = true → w.wrId ≠ qp.signaledWrId := by
      intro htag hcon
      refine hfound ⟨fun hzero => ?_, hcon⟩
      rw [hzero] at htag
      cases htag
    refine ⟨fun htag => (hawaits htag).remove hsplit (.inr (hne htag)), fun hcon => ?_⟩
    simp only [hfound, false_and, if_false] at hcon
    split at hcon
    · exact hblocked hcon
    · rename_i hrc
      split at hcon
      · cases hcon
      · rename_i hrestart
        obtain ⟨hrestart, -⟩ := not_or.mp hrestart
        rcases hok (not_not.mp hrc) with hzero | htag | heq
        · exact absurd (.inl hzero) hrestart
        · exact htag
        · exact absurd (.inr heq) hrestart

end RcQp

namespace LrState

/-- A follower that has to complete a request is not forgotten: the request is outstanding, or it is
    about to be posted. -/
def NotStuck (s : LrState) : Prop :=
  s.isOn = true → s.rcConnected = true → s.sendFlag = false →
    (∃ w ∈ s.qp.outstanding, w.signaled = true ∧ wridBase w.wrId = s.nextWrId) ∨
      (∃ q ∈ s.call, q.1.isLr = true) ∧ (s.qp.state = .blocked → s.qp.Awaits)

end LrState

/-- No request of log replication is discarded, counted without being posted or waited for in vain. -/
def KeepsRequests (s : LrState) : LrLabel → Prop
  | .post => s.qp.state = .error → ∀ w ∈ s.qp.outstanding, w.request.isLr = false
  | .updateRemoteLog =>
    (s.isSkipped || !s.sendFlag) = false → s.nextLrStep = .updateLog →
      logOffsetEndDistance s.log s.remoteEnd ≠ 0 → s.log.end_ ≠ 0
  | .poll k rc => rc = .failure → ∀ w, s.qp.outstanding[k]? = some w →
      s.qp.signaledWrId = 0 ∨ wridGetTag s.qp.signaledWrId = true ∨ w.wrId = s.qp.signaledWrId
  | .established => s.qp.ready = true
  | _ => True

/-- What the condition keeps. -/
structure Kept (s : LrState) : Prop where
  ready : s.rcConnected = true → s.qp.ready = true
  unblocks : s.qp.Unblocks
  whole : s.sendFlag = false → s.isOn = true → s.lostPart = false ∧ ¬ s.Short

theorem Kept.init (h : lrInit s) : Kept s := by
  obtain ⟨-, hflag, -, hqp, -⟩ := h
  refine ⟨fun _ => ?_, ?_, fun hoff => ?_⟩
  · rw [hqp]
    rfl
  · rw [hqp]
    exact .connected
  · rw [hflag] at hoff
    cases hoff

theorem expects_ne_nil {R : List Request} (h : s.Expects len R) : R ≠ [] := by
  rintro rfl
  unfold LrState.Expects at h
  split at h
  · exact h
  · cases h
  · cases h
  · cases h
  · have hlength := h.2.2.1
    rw [List.length_nil] at hlength
    omega
  · cases h.1

/-- Nothing was lost, so that a request is waited for. -/
theorem Kept.notStuck (h : Kept s) (hinv : LrInv len s) : s.NotStuck := by
  intro hon hlink hoff
  obtain ⟨hlost, hshort⟩ := h.whole hoff hon
  obtain ⟨R, -, hexp, hall⟩ := hinv.waits hoff
  obtain ⟨r, hr⟩ := List.exists_mem_of_ne_nil R (expects_ne_nil hexp)
  rw [← hall hlost hshort, LrState.awaited, List.mem_filter, List.mem_append] at hr
  obtain ⟨hmem | hmem, hlr⟩ := hr
  · obtain ⟨w, hw, rfl⟩ := List.mem_map.mp hmem
    exact .inl ⟨w, hw, hinv.ids.signaled w hw hlr, (hinv.ids.ids w hw).mp hlr⟩
  · obtain ⟨q, hq, rfl⟩ := List.mem_map.mp hmem
    obtain ⟨hawaits, hblocked⟩ := h.unblocks (h.ready hlink)
    exact .inr ⟨⟨q, hq, hlr⟩, fun hb => hawaits (hblocked hb)⟩

/-- A step that leaves the QP alone. -/
theorem Kept.sameQp {t : LrState} (h : Kept s) (hlink : t.rcConnected = s.rcConnected)
    (hqp : t.qp = s.qp)
    (hwhole : t.sendFlag = false → t.isOn = true → t.lostPart = false ∧ ¬ t.Short) : Kept t := by
  refine ⟨fun hcon => ?_, ?_, hwhole⟩
  · rw [hqp]
    exact h.ready (hlink ▸ hcon)
  · rw [hqp]
    exact h.unblocks

theorem Kept.logAdjustment (h : Kept s) (voteAck : Nat) (nc : List DareLogEntryDet) :
    Kept (s.logAdjustment voteAck nc) := by
  unfold LrState.logAdjustment
  by_cases hskip : (s.isSkipped || !s.sendFlag || voteAck == s.log.len) = true
  · rw [if_pos hskip]
    exact h
  rw [if_neg hskip]
  have hflag := (not_skipped fun hcon => hskip (by rw [hcon]; rfl)).2
  simp only
  cases hstep : s.nextLrStep with
  | getWrite => exact h.sameQp rfl rfl fun _ _ => ⟨rfl, fun hcon => by cases hcon.1⟩
  | getNceLen => exact h.sameQp rfl rfl fun _ _ => ⟨rfl, fun hcon => by cases hcon.1⟩
  | getNce =>
    by_cases hnc : nc = []
    · simp only [if_pos hnc]
      refine h.sameQp rfl rfl fun hoff => ?_
      have hoff' : s.sendFlag = false := hoff
      rw [hflag] at hoff'
      cases hoff'
    · simp only [if_neg hnc]
      exact h.sameQp rfl rfl fun _ _ => ⟨rfl, fun hcon => by cases hcon.1⟩
  | setEnd => exact h.sameQp rfl rfl fun _ _ => ⟨rfl, fun hcon => by cases hcon.1⟩
  | updateLog => exact h
  | updateEnd => exact h

theorem Kept.updateRemoteLog (h : Kept s) (hok : KeepsRequests s .updateRemoteLog) :
    Kept s.updateRemoteLog := by
  unfold LrState.updateRemoteLog
  by_cases hskip : (s.isSkipped || !s.sendFlag) = true
  · rw [if_pos hskip]
    exact h
  rw [if_neg hskip]
  cases hstep : s.nextLrStep with
  | updateLog =>
    by_cases hdist : logOffsetEndDistance s.log s.remoteEnd = 0
    · simp only [if_pos hdist]
      exact h
    · simp only [if_neg hdist]
      have hend := hok (Bool.eq_false_iff.mpr hskip) hstep hdist
      exact h.sameQp rfl rfl fun _ _ => ⟨rfl, fun hcon => hend hcon.2⟩
  | updateEnd => exact h.sameQp rfl rfl fun _ _ => ⟨rfl, fun hcon => by cases hcon.1⟩
  | getWrite => exact h
  | getNceLen => exact h
  | getNce => exact h
  | setEnd => exact h

/-- Nothing is lost by a post: no request of log replication is discarded, and the QP takes this
    one. -/
theorem postSend_lost (r : Request) (wa : Bool)
    (hready : s.qp.state ≠ .error → s.qp.ready = true)
    (hok : s.qp.state = .error → ∀ w ∈ s.qp.outstanding, w.request.isLr = false) :
    (s.postSend r wa).lostPart = s.lostPart := by
  unfold LrState.postSend LrState.clearError
  by_cases herror : s.qp.state = .error
  · rw [if_pos herror]
    have hany : (s.qp.outstanding.any fun w => w.request.isLr) = false :=
      List.any_eq_false.mpr fun w hw => by
        rw [hok herror w hw]
        exact Bool.false_ne_true
    show ((s.lostPart || s.qp.outstanding.any fun w => w.request.isLr) || (r.isLr && false)) = _
    rw [hany, Bool.and_false, Bool.or_false, Bool.or_false]
  · rw [if_neg herror]
    show (s.lostPart || (r.isLr && !s.qp.ready)) = _
    rw [hready herror, Bool.not_true, Bool.and_false, Bool.or_false]

theorem unblocks_postSend (r : Request) (wa : Bool) (h : s.qp.Unblocks) (hblocked : s.qp.state ≠ .blocked)
    (hready : s.qp.ready = true) :
    (s.postSend r wa).qp.Unblocks ∧ (s.postSend r wa).qp.ready = true := by
  unfold LrState.postSend LrState.clearError
  by_cases herror : s.qp.state = .error
  · rw [if_pos herror]
    exact ⟨RcQp.Unblocks.connected.post (fun hcon => by cases hcon), rfl⟩
  · rw [if_neg herror]
    exact ⟨h.post hblocked, hready⟩

theorem Kept.post {rest : List (Request × Bool)} (h : Kept s) (hinv : LrInv len s)
    (hcall : s.call = (r, wa) :: rest) (hblocked : s.qp.state ≠ .blocked)
    (hok : KeepsRequests s .post) : Kept { s.postSend r wa with
      call := rest
      sendFlag := if wa then false else s.sendFlag } := by
  have hmem : (r, wa) ∈ s.call := by
    rw [hcall]
    exact List.mem_cons_self
  have hready : s.qp.ready = true := by
    refine h.ready ?_
    by_contra hcut
    rw [(hinv.ids.offline (Bool.eq_false_iff.mpr hcut)).2] at hmem
    cases hmem
  obtain ⟨hunblocks, hready'⟩ := unblocks_postSend r wa h.unblocks hblocked hready
  have hlost := postSend_lost r wa (fun _ => hready) hok
  obtain ⟨ws, qp, lost, heq, -⟩ := LrState.postSend_eq hinv.ids.conn_lt r wa
  rw [hinv.second_flag hmem]
  rw [heq] at hunblocks hready' hlost ⊢
  refine ⟨fun _ => hready', hunblocks, fun hoff hon => ?_⟩
  obtain ⟨hbefore, hshort⟩ := h.whole hoff hon
  exact ⟨hlost.trans hbefore, hshort⟩

/-- The flag stays off only between the parts of an update. -/
theorem progress_off {step : NextLrStep} {flag : Bool} {count : Nat} {b : Bool}
    (h : (progress step flag count b).sendFlag = false) : flag = false ∧ step = .updateLog := by
  unfold progress at h
  split at h
  · cases h
  · cases h
  · exact ⟨h, rfl⟩
  · exact ⟨h, rfl⟩
  · cases h
  · cases h

theorem Kept.poll (h : Kept s) (hinv : LrInv len s) (hok : KeepsRequests s (.poll k rc))
    (hs : s.poll k rc = some s') : Kept s' := by
  obtain ⟨w, a, b, hsplit, hk, hsource, hcases⟩ := poll_cases hs
  have hw : w ∈ s.qp.outstanding := by
    rw [hsplit]
    exact List.mem_append_right _ List.mem_cons_self
  rcases hcases with ⟨-, hsignaled, rfl⟩ | ⟨-, rfl⟩
  · -- a request that is not signaled only leaves the queue
    refine ⟨h.ready, fun hready => ?_, h.whole⟩
    obtain ⟨hawaits, hblocked⟩ := h.unblocks hready
    exact ⟨fun htag => (hawaits htag).remove hsplit (.inl hsignaled), hblocked⟩
  · have hqp : (s.polled (a ++ b) w rc).qp =
        RcQp.complete { s.qp with outstanding := a ++ b } w.wrId rc := by
      unfold LrState.polled
      rw [enterUpdateLog_eq, record_setOutstanding]
      show RcQp.complete ((s.record w rc).setOutstanding (a ++ b)).qp w.wrId rc = _
      show RcQp.complete { (s.record w rc).qp with outstanding := a ++ b } w.wrId rc = _
      rw [(frame_record s w rc).2.1]
    -- a special completion unblocks the QP
    have hunblocks : (s.polled (a ++ b) w rc).qp.Unblocks := by
      rw [hqp]
      exact h.unblocks.complete hsplit fun hrc => hok hrc w hk
    have hready : (s.polled (a ++ b) w rc).qp.ready = s.qp.ready := by
      rw [hqp]
      rfl
    cases hlr : w.request.isLr with
    | true =>
      obtain ⟨hframe, -, p, rfl, hstep', hflag', -⟩ :=
        polled_lr (a ++ b) rc ((hinv.ids.ids w hw).mp hlr)
      refine ⟨fun hlink => ?_, hunblocks, fun hoff hon => ?_⟩
      · rw [hready]
        rw [hframe.rcConnected] at hlink
        exact h.ready hlink
      · rw [hflag'] at hoff
        rw [hframe.isOn] at hon
        obtain ⟨hflag, hstep⟩ := progress_off hoff
        obtain ⟨hlost, hshort⟩ := h.whole hflag hon
        refine ⟨hframe.lostPart.trans hlost, fun hcon => hshort ⟨hstep, ?_⟩⟩
        rw [← hframe.cachedEndOffset]
        exact hcon.2
    | false =>
      have hbase : wridBase w.wrId ≠ s.nextWrId := fun hbase => by
        rw [(hinv.ids.ids w hw).mpr hbase] at hlr
        cases hlr
      rw [polled_other hbase hlr] at hunblocks hready ⊢
      exact ⟨fun hlink => hready.trans (h.ready hlink), hunblocks, h.whole⟩

theorem Kept.land (h : Kept s) (hs : s.land k = some s') : Kept s' := by
  unfold LrState.land at hs
  cases hk : s.qp.outstanding[k]? with
  | none =>
    rw [hk] at hs
    cases hs
  | some w =>
    obtain ⟨a, b, hsplit, -, hset⟩ := exists_split hk
    rw [hk] at hs
    simp only [hset] at hs
    have hunblocks : RcQp.Unblocks { s.qp with
        outstanding := a ++ { w with source := some s.log.entries } :: b } := by
      intro hready
      obtain ⟨hawaits, hblocked⟩ := h.unblocks hready
      refine ⟨fun htag => ?_, hblocked⟩
      obtain ⟨v, hv, hsignaled, hwrId⟩ := hawaits htag
      rw [hsplit] at hv
      simp only [List.mem_append, List.mem_cons] at hv
      rcases hv with hv | rfl | hv
      · exact ⟨v, List.mem_append_left _ hv, hsignaled, hwrId⟩
      · exact ⟨_, List.mem_append_right _ List.mem_cons_self, hsignaled, hwrId⟩
      · exact ⟨v, List.mem_append_right _ (List.mem_cons_of_mem _ hv), hsignaled, hwrId⟩
    split at hs
    · obtain rfl := Option.some.inj hs
      exact ⟨h.ready, hunblocks, h.whole⟩
    · obtain rfl := Option.some.inj hs
      exact ⟨h.ready, hunblocks, h.whole⟩

theorem Kept.step {l : LrLabel} (h : Kept s) (hinv : LrInv len s) (hok : KeepsRequests s l)
    (hs : LrMoves s l s') : Kept s' := by
  cases l with
  | log c =>
    obtain ⟨-, hs⟩ := Option.ite_none_right_eq_some.mp hs
    obtain ⟨log, -, rfl⟩ := Option.map_eq_some_iff.mp hs
    exact h.sameQp rfl rfl h.whole
  | reply entry i b =>
    obtain rfl := Option.some.inj hs
    exact h.sameQp rfl rfl h.whole
  | ssn =>
    obtain ⟨-, hs⟩ := Option.ite_none_right_eq_some.mp hs
    obtain rfl := Option.some.inj hs
    exact h.sameQp rfl rfl h.whole
  | failCount n =>
    obtain rfl := Option.some.inj hs
    exact h.sameQp rfl rfl h.whole
  | logAdjustment voteAck nc =>
    obtain ⟨-, hs⟩ := Option.ite_none_right_eq_some.mp hs
    obtain rfl := Option.some.inj hs
    exact h.logAdjustment voteAck nc
  | updateRemoteLog =>
    obtain ⟨-, hs⟩ := Option.ite_none_right_eq_some.mp hs
    obtain rfl := Option.some.inj hs
    exact h.updateRemoteLog hok
  | commitOffsets size =>
    obtain ⟨-, hs⟩ := Option.ite_none_right_eq_some.mp hs
    obtain ⟨⟨log, passes⟩, -, rfl⟩ := Option.map_eq_some_iff.mp hs
    unfold LrState.lazyCommit
    simp only
    split
    · exact h.sameQp rfl rfl h.whole
    · split <;> exact h.sameQp rfl rfl h.whole
  | getRemoteApplyOffset voteAck =>
    obtain ⟨-, hs⟩ := Option.ite_none_right_eq_some.mp hs
    obtain rfl := Option.some.inj hs
    unfold LrState.getRemoteApplyOffset
    split
    · exact h
    · exact h.sameQp rfl rfl h.whole
  | post =>
    cases hcall : s.call with
    | nil =>
      rw [LrMoves, lrStep, hcall] at hs
      cases hs
    | cons q rest =>
      obtain ⟨r, wa⟩ := q
      rw [LrMoves, lrStep, hcall] at hs
      obtain ⟨hblocked, hs⟩ := Option.ite_none_left_eq_some.mp hs
      obtain rfl := Option.some.inj hs
      exact h.post hinv hcall hblocked hok
  | land k => exact h.land hs
  | poll k rc => exact h.poll hinv hok hs
  | remove =>
    obtain ⟨-, hs⟩ := Option.ite_none_right_eq_some.mp hs
    obtain rfl := Option.some.inj hs
    unfold LrState.remove
    split
    · refine ⟨fun hcon => ?_, fun hcon => ?_, fun _ hcon => ?_⟩ <;> cases hcon
    · exact h.sameQp rfl rfl fun _ hcon => by cases hcon
  | join =>
    obtain ⟨-, hs⟩ := Option.ite_none_right_eq_some.mp hs
    obtain rfl := Option.some.inj hs
    refine ⟨fun hcon => ?_, h.unblocks, fun hcon => ?_⟩ <;> cases hcon
  | connect =>
    obtain ⟨⟨-, -, hcut⟩, hs⟩ := Option.ite_none_right_eq_some.mp hs
    obtain rfl := Option.some.inj hs
    refine ⟨fun _ => rfl, .connected, fun hoff hon => ?_⟩
    obtain ⟨hlost, hshort⟩ := h.whole hoff hon
    refine ⟨?_, hshort⟩
    -- nothing was outstanding without a connection
    show (s.lostPart || s.qp.outstanding.any fun w => w.request.isLr) = false
    rw [hlost, (hinv.ids.offline hcut).1]
    rfl
  | established =>
    obtain ⟨-, hs⟩ := Option.ite_none_right_eq_some.mp hs
    obtain rfl := Option.some.inj hs
    exact ⟨fun _ => hok, h.unblocks, h.whole⟩

/-- **A follower that is waited for is never forgotten** in these runs. -/
theorem not_stuck (h : Reach lrInit LrMoves KeepsRequests s) : s.NotStuck := by
  have hkept : Kept s := by
    refine (@Reach.invariant _ _ _ _ _ (fun s => LrInv LOG_SIZE s ∧ Kept s) _ ?_ ?_ h).2
    · exact fun _ hinit => ⟨LrInv.init hinit, Kept.init hinit⟩
    · exact fun _ _ _ hinv hok hs =>
        ⟨hinv.1.step (by decide) hs, hinv.2.step hinv.1 hok hs⟩
  exact hkept.notStuck (LrInv.reach h)

section Restart

/-- The follower with index 1 at the beginning of a term. -/
def followerOf (log : DareLog) (step : NextLrStep) (remoteEnd remoteCommit : Nat) : LrState where
  log := log
  idx := 0
  conn := 1
  ssn := 0
  isOn := true
  nextWrId := 0
  cachedEndOffset := 0
  lastGetReadSsn := 0
  failCount := 0
  nextLrStep := step
  sendFlag := true
  sendCount := 0
  remoteEnd := remoteEnd
  remoteCommit := remoteCommit
  rcConnected := true
  rcMaxSendWr := 64
  qp := .connected
  call := []
  remote := zeroMem
  written := []
  failedPart := false
  lostPart := false
  confirmedEnd := remoteEnd

theorem lrInit_followerOf {log : DareLog} {step : NextLrStep} {remoteEnd remoteCommit : Nat}
    (hlen : log.len = LOG_SIZE) (hstep : step ≠ .updateEnd) :
    lrInit (followerOf log step remoteEnd remoteCommit) :=
  ⟨hlen, rfl, hstep, rfl, rfl, rfl, rfl, rfl, show 1 < 256 by decide, ⟨0, le_refl _, 0, by decide, rfl⟩, nofun⟩

/-- A follower whose log is about to be adjusted. -/
def adjusted : LrState := followerOf (logOf 0 0 64 zeroMem) .getNceLen 0 0

/-- The adjustment is posted behind the read of an apply offset, which fails. -/
def restartRun : List LrLabel :=
  [.getRemoteApplyOffset 0, .post, .logAdjustment 0 [], .post, .poll 0 .failure,
    .getRemoteApplyOffset 0, .post]

/-- Nothing outstanding or about to be posted would switch the flag on. -/
def LrState.stuck (s : LrState) : Bool :=
  s.isOn && s.rcConnected && !s.sendFlag && s.call.isEmpty &&
    s.qp.outstanding.all fun w => wridBase w.wrId != s.nextWrId

theorem LrState.not_notStuck (h : s.stuck = true) : ¬ s.NotStuck := by
  simp only [LrState.stuck, Bool.and_eq_true, Bool.not_eq_true', List.isEmpty_iff,
    List.all_eq_true, bne_iff_ne] at h
  obtain ⟨⟨⟨⟨hon, hlink⟩, hflag⟩, hcall⟩, hall⟩ := h
  intro hnot
  rcases hnot hon hlink hflag with ⟨w, hw, -, hwrId⟩ | ⟨⟨q, hq, -⟩, -⟩
  · exact hall w hw hwrId
  · rw [hcall] at hq
    cases hq

theorem lrInit_adjusted : lrInit adjusted := lrInit_followerOf rfl nofun

/-- The adjustment is posted, and waited for. -/
theorem not_stuck_adjusted : ∃ s : LrState, s.sendFlag = false ∧ s.NotStuck := by
  have hadjust : Reach lrInit LrMoves KeepsRequests (adjusted.logAdjustment 0 []) := by
    refine .step (l := .logAdjustment 0 []) (.start lrInit_adjusted) trivial ?_
    unfold LrMoves lrStep
    rfl
  have hpost : ((lrStep (adjusted.logAdjustment 0 []) .post).any fun s => !s.sendFlag) = true := by
    decide +kernel
  obtain ⟨s, hs, hflag⟩ := (Option.any_eq_true _ _).mp hpost
  have hstate : (adjusted.logAdjustment 0 []).qp.state ≠ .error := by decide +kernel
  exact ⟨s, by simpa using hflag, not_stuck (hadjust.step (l := .post) (absurd · hstate) hs)⟩

/-- The restart discards the request that is waited for. -/
theorem not_not_stuck : ¬ ∀ s, Reach lrInit LrMoves Always s → s.NotStuck := by
  intro hall
  have hrun : ((exec lrStep adjusted restartRun).any fun s => s.stuck) = true := by decide +kernel
  obtain ⟨s, hexec, hstuck⟩ := (Option.any_eq_true _ _).mp hrun
  have hreach : Reach lrInit LrMoves Always s :=
    Reach.exec (.start lrInit_adjusted) hexec
  exact LrState.not_notStuck hstuck (hall s hreach)

end Restart

end Apus
