import Apus.Replication.Waiting

namespace Apus

open Lib

/-!
# The end offset of a follower

The leader writes the cached end offset to a follower only after every byte up to there was written
(`LrState.EndWritten`, in every run).  That a failed part of an update leads to both parts being sent
again (`LrState.SendsAgain`) needs more: that no part is lost with the queue pair, as when the lazy
commit restarts it between the two completions (`not_update_end_written`), and that `send_count` is
the number of parts that are posted.  It is not for an update that wraps around while the log ends at
offset 0, where a rejected append leaves it.
-/

variable {s s' : LrState} {w : WorkRequest} {r : Request} {wa : Bool} {rc : WcResult} {k len : Nat}

namespace LrState

/-- Where an end offset is written or about to be written, every byte from the follower's end up to
    it was written, and is what the leader's buffer held then. -/
def EndWritten (s : LrState) : Prop :=
  ∀ offset, .updateEnd offset ∈ s.awaited → offset = s.cachedEndOffset ∧
    ∀ x, InRange LOG_SIZE s.confirmedEnd offset x → s.Stored x

/-- After a failed part and without another part to wait for, the next update is sent from the
    follower's end again. -/
def SendsAgain (s : LrState) : Prop :=
  s.failedPart = true → s.nextLrStep = .updateLog ∧
    (s.isSkipped = false → s.awaited = [] → logOffsetEndDistance s.log s.confirmedEnd ≠ 0 →
      s.updateRemoteLog.call = blocks s.log.len s.confirmedEnd s.log.end_)

end LrState

/-- No part of an update is discarded or not accepted by the QP, or counted without being posted. -/
def KeepsParts (s : LrState) : LrLabel → Prop
  | .post => s.nextLrStep = .updateLog →
      if s.qp.state = .error then ∀ w ∈ s.qp.outstanding, w.request.isLr = false
      else s.qp.ready = true
  | .updateRemoteLog =>
    (s.isSkipped || !s.sendFlag) = false → s.nextLrStep = .updateLog →
      logOffsetEndDistance s.log s.remoteEnd ≠ 0 → s.log.end_ ≠ 0
  | _ => True

/-- While the flag is off, all parts of an update are there. -/
def Whole (s : LrState) : Prop :=
  s.sendFlag = false → s.isOn = true → s.nextLrStep = .updateLog →
    s.lostPart = false ∧ s.cachedEndOffset ≠ 0

theorem Whole.logAdjustment (h : Whole s) (voteAck : Nat) (nc : List DareLogEntryDet) :
    Whole (s.logAdjustment voteAck nc) := by
  unfold LrState.logAdjustment
  by_cases hskip : (s.isSkipped || !s.sendFlag || voteAck == s.log.len) = true
  · rw [if_pos hskip]
    exact h
  rw [if_neg hskip]
  have hflag := (not_skipped fun hcon => hskip (by rw [hcon]; rfl)).2
  simp only
  cases hstep : s.nextLrStep with
  | getWrite => exact fun _ _ hcon => by cases hcon
  | getNceLen => exact fun _ _ hcon => by cases hcon
  | getNce =>
    by_cases hnc : nc = []
    · simp only [if_pos hnc]
      intro hoff
      have hoff' : s.sendFlag = false := hoff
      rw [hflag] at hoff'
      cases hoff'
    · simp only [if_neg hnc]
      exact fun _ _ hcon => by cases hcon
  | setEnd => exact fun _ _ hcon => by cases hcon
  | updateLog => exact h
  | updateEnd => exact h

theorem Whole.updateRemoteLog (h : Whole s) (hok : KeepsParts s .updateRemoteLog) :
    Whole s.updateRemoteLog := by
  unfold LrState.updateRemoteLog
  by_cases hskip : (s.isSkipped || !s.sendFlag) = true
  · rw [if_pos hskip]
    exact h
  rw [if_neg hskip]
  cases hstep : s.nextLrStep with
  | updateLog =>
    by_cases hdist : logOffsetEndDistance s.log s.remoteEnd = 0
    · simp only [if_pos hdist]
      exact h
    · simp only [if_neg hdist]
      exact fun _ _ _ => ⟨rfl, hok (Bool.eq_false_iff.mpr hskip) hstep hdist⟩
  | updateEnd => exact fun _ _ hcon => by cases hcon
  | getWrite => exact h
  | getNceLen => exact h
  | getNce => exact h
  | setEnd => exact h

theorem Whole.post {rest : List (Request × Bool)} (h : Whole s) (hinv : LrInv len s)
    (hcall : s.call = (r, wa) :: rest) (hok : KeepsParts s .post) : Whole { s.postSend r wa with
      call := rest
      sendFlag := if wa then false else s.sendFlag } := by
  have hmem : (r, wa) ∈ s.call := by
    rw [hcall]
    exact List.mem_cons_self
  have hlost : s.nextLrStep = .updateLog → (s.postSend r wa).lostPart = s.lostPart := by
    intro hstep
    have hkeeps := hok hstep
    refine postSend_lost _ _ (fun herror => ?_) fun herror => ?_
    · rwa [if_neg herror] at hkeeps
    · rwa [if_pos herror] at hkeeps
  obtain ⟨ws, qp, lost, heq, -⟩ := LrState.postSend_eq hinv.ids.conn_lt r wa
  rw [hinv.second_flag hmem]
  rw [heq] at hlost ⊢
  intro hoff hon hstep
  obtain ⟨hbefore, hend⟩ := h hoff hon hstep
  exact ⟨(hlost hstep).trans hbefore, hend⟩

theorem Whole.poll (h : Whole s) (hinv : LrInv len s) (hs : s.poll k rc = some s') : Whole s' := by
  obtain ⟨w, a, b, hsplit, -, -, hcases⟩ := poll_cases hs
  have hw : w ∈ s.qp.outstanding := by
    rw [hsplit]
    exact List.mem_append_right _ List.mem_cons_self
  rcases hcases with ⟨-, -, rfl⟩ | ⟨-, rfl⟩
  · exact h
  · cases hlr : w.request.isLr with
    | true =>
      obtain ⟨hframe, -, p, rfl, -, hflag', -⟩ :=
        polled_lr (a ++ b) rc ((hinv.ids.ids w hw).mp hlr)
      intro hoff hon _
      rw [hflag'] at hoff
      rw [hframe.isOn] at hon
      obtain ⟨hflag, hstep⟩ := progress_off hoff
      rw [hframe.lostPart, hframe.cachedEndOffset]
      exact h hflag hon hstep
    | false =>
      have hbase : wridBase w.wrId ≠ s.nextWrId := fun hbase => by
        rw [(hinv.ids.ids w hw).mpr hbase] at hlr
        cases hlr
      rw [polled_other hbase hlr]
      exact h

theorem Whole.step {l : LrLabel} (h : Whole s) (hinv : LrInv len s) (hok : KeepsParts s l)
    (hs : LrMoves s l s') : Whole s' := by
  cases l with
  | log c =>
    obtain ⟨-, hs⟩ := Option.ite_none_right_eq_some.mp hs
    obtain ⟨log, -, rfl⟩ := Option.map_eq_some_iff.mp hs
    exact h
  | reply entry i b =>
    obtain rfl := Option.some.inj hs
    exact h
  | ssn =>
    obtain ⟨-, hs⟩ := Option.ite_none_right_eq_some.mp hs
    obtain rfl := Option.some.inj hs
    exact h
  | failCount n =>
    obtain rfl := Option.some.inj hs
    exact h
  | logAdjustment voteAck nc =>
    obtain ⟨-, hs⟩ := Option.ite_none_right_eq_some.mp hs
    obtain rfl := Option.some.inj hs
    exact h.logAdjustment voteAck nc
  | updateRemoteLog =>
    obtain ⟨-, hs⟩ := Option.ite_none_right_eq_some.mp hs
    obtain rfl := Option.some.inj hs
    exact h.updateRemoteLog hok
  | commitOffsets size =>
    obtain ⟨-, hs⟩ := Option.ite_none_right_eq_some.mp hs
    obtain ⟨⟨log, passes⟩, -, rfl⟩ := Option.map_eq_some_iff.mp hs
    unfold LrState.lazyCommit
    simp only
    split
    · exact h
    · split <;> exact h
  | getRemoteApplyOffset voteAck =>
    obtain ⟨-, hs⟩ := Option.ite_none_right_eq_some.mp hs
    obtain rfl := Option.some.inj hs
    unfold LrState.getRemoteApplyOffset
    split <;> exact h
  | post =>
    cases hcall : s.call with
    | nil =>
      rw [LrMoves, lrStep, hcall] at hs
      cases hs
    | cons q rest =>
      obtain ⟨r, wa⟩ := q
      rw [LrMoves, lrStep, hcall] at hs
      obtain ⟨-, hs⟩ := Option.ite_none_left_eq_some.mp hs
      obtain rfl := Option.some.inj hs
      exact h.post hinv hcall hok
  | land k =>
    have hs' : s.land k = some s' := hs
    unfold LrState.land at hs'
    split at hs'
    · cases hs'
    · simp only at hs'
      split at hs'
      · obtain rfl := Option.some.inj hs'
        exact h
      · obtain rfl := Option.some.inj hs'
        exact h
  | poll k rc => exact h.poll hinv hs
  | remove =>
    obtain ⟨-, hs⟩ := Option.ite_none_right_eq_some.mp hs
    obtain rfl := Option.some.inj hs
    unfold LrState.remove
    -- a server that was removed is off
    split <;> exact fun _ hcon => by cases hcon
  | join =>
    obtain ⟨-, hs⟩ := Option.ite_none_right_eq_some.mp hs
    obtain rfl := Option.some.inj hs
    -- the flag is on when a server joins
    exact fun hcon => by cases hcon
  | connect =>
    obtain ⟨⟨-, -, hcut⟩, hs⟩ := Option.ite_none_right_eq_some.mp hs
    obtain rfl := Option.some.inj hs
    intro hoff hon hstep
    obtain ⟨hlost, hend⟩ := h hoff hon hstep
    refine ⟨?_, hend⟩
    -- a QP that was cut off has nothing outstanding
    show (s.lostPart || s.qp.outstanding.any fun w => w.request.isLr) = false
    rw [hlost, (hinv.ids.offline hcut).1]
    rfl
  | established =>
    obtain ⟨-, hs⟩ := Option.ite_none_right_eq_some.mp hs
    obtain rfl := Option.some.inj hs
    exact h

/-- An end offset is only written in its step, after the parts of the update. -/
theorem LrInv.endWritten (h : LrInv LOG_SIZE s) : s.EndWritten := by
  intro offset hmem
  have hflag : s.sendFlag = false := by
    cases hflag : s.sendFlag with
    | false => rfl
    | true =>
      rw [h.idle hflag] at hmem
      cases hmem
  obtain ⟨R, hsub, hexp, -⟩ := h.waits hflag
  have hin := hsub.subset hmem
  unfold LrState.Expects at hexp
  split at hexp
  · exact hexp.elim
  · rw [hexp] at hin
    cases List.mem_singleton.mp hin
  · rw [hexp] at hin
    cases List.mem_singleton.mp hin
  · rw [hexp] at hin
    cases List.mem_singleton.mp hin
  · obtain ⟨start, n, hr⟩ := hexp.1 _ hin
    cases hr
  · rename_i hstep
    rw [hexp.1] at hin
    obtain rfl := Request.updateEnd.inj (List.mem_singleton.mp hin)
    exact ⟨rfl, (h.stored hstep).2⟩

/-- A part failed and no part is waited for: the flag is on. -/
theorem Whole.sendsAgain (h : Whole s) (hinv : LrInv len s) : s.SendsAgain := by
  intro hfailed
  have hstep := hinv.failed hfailed
  refine ⟨hstep, fun hskip hnil hdist => ?_⟩
  have hon : s.isOn = true := by
    simp only [LrState.isSkipped, Bool.or_eq_false_iff, Bool.not_eq_false'] at hskip
    exact hskip.1.1
  have hflag : s.sendFlag = true := by
    by_contra hcon
    have hoff := Bool.not_eq_true _ |>.mp hcon
    obtain ⟨hlost, hend⟩ := h hoff hon hstep
    obtain ⟨R, -, hexp, hall⟩ := hinv.waits hoff
    refine expects_ne_nil hexp ?_
    rw [← hall hlost fun hshort => hend hshort.2, hnil]
  rw [← hinv.started hstep] at hdist ⊢
  unfold LrState.updateRemoteLog
  rw [hskip, hflag, hstep]
  simp only [Bool.not_true, Bool.or_self, Bool.false_eq_true, if_false, if_neg hdist]
  rfl

/-- **The end offset of a follower only moves over written bytes, and a failed part is sent again** in
    these runs. -/
theorem update_end_written (h : Reach lrInit LrMoves KeepsParts s) :
    s.EndWritten ∧ s.SendsAgain := by
  have hinv : LrInv LOG_SIZE s := LrInv.reach h
  have hwhole : Whole s := by
    refine (@Reach.invariant _ _ _ _ _ (fun s => LrInv LOG_SIZE s ∧ Whole s) _ ?_ ?_ h).2
    · intro s hinit
      refine ⟨LrInv.init hinit, fun hoff => ?_⟩
      rw [hinit.2.1] at hoff
      cases hoff
    · exact fun _ _ _ hinv hok hs =>
        ⟨hinv.1.step (by decide) hs, hinv.2.step hinv.1 hok hs⟩
  exact ⟨hinv.endWritten, hwhole.sendsAgain hinv⟩

section Wrapped

instance (s : LrState) (l : LrLabel) : Decidable (KeepsParts s l) :=
  match l with
  | .post => inferInstanceAs (Decidable (_ → _))
  | .updateRemoteLog => inferInstanceAs (Decidable (_ → _))
  | .log _ | .reply _ _ _ | .ssn | .failCount _ | .logAdjustment _ _ | .commitOffsets _
  | .getRemoteApplyOffset _ | .land _ | .poll _ _ | .remove | .join | .connect | .established =>
    .isTrue trivial

/-- A follower that lacks the only entry of the log. -/
def behind : LrState := followerOf (logOf 0 0 64 zeroMem) .updateLog 0 0

/-- The entry is written, and its end offset is about to be. -/
theorem update_end_written_behind : ∃ s : LrState, s.awaited = [.updateEnd 64] ∧
    s.EndWritten ∧ s.SendsAgain := by
  have hrun : ((execIf lrStep KeepsParts behind [.updateRemoteLog, .post, .land 0, .poll 0 .success,
      .updateRemoteLog, .post]).any fun s => s.awaited == [.updateEnd 64]) = true := by
    decide +kernel
  obtain ⟨s, hexec, hawait⟩ := (Option.any_eq_true _ _).mp hrun
  have hinit : lrInit behind := lrInit_followerOf rfl nofun
  have hreach : Reach lrInit LrMoves KeepsParts s :=
    Reach.steps (.start hinit) (fun _ _ h => h) (Steps.execIf .refl hexec)
  exact ⟨s, eq_of_beq hawait, update_end_written hreach⟩

/-- The log wraps around, and the follower lacks the last 64 bytes of the buffer and the first. -/
def atBufferEnd : LrState :=
  followerOf { logOf 128 (LOG_SIZE - 128) 64 zeroMem with tail := 0 } .updateLog (LOG_SIZE - 64)
    (LOG_SIZE - 192)

/-- The first part fails, and the lazy commit restarts the QP before the second part is polled. -/
def wrappedRun : List LrLabel :=
  [.updateRemoteLog, .post, .post, .poll 0 .failure, .commitOffsets 3, .post]

/-- The failed part is not sent again. -/
def LrState.abandoned (s : LrState) : Bool :=
  s.failedPart && !s.isSkipped && s.awaited.isEmpty &&
    logOffsetEndDistance s.log s.confirmedEnd != 0 && s.updateRemoteLog.call.isEmpty

theorem LrState.not_sendsAgain (h : s.abandoned = true) : ¬ s.SendsAgain := by
  simp only [LrState.abandoned, Bool.and_eq_true, Bool.not_eq_true', List.isEmpty_iff,
    bne_iff_ne] at h
  obtain ⟨⟨⟨⟨hfailed, hskip⟩, hnil⟩, hdist⟩, hcall⟩ := h
  intro hagain
  have hblocks := (hagain hfailed).2 hskip hnil hdist
  rw [hcall, blocks] at hblocks
  split at hblocks <;> cases hblocks

/-- The restart discards the second part, so that the flag stays off. -/
theorem not_update_end_written : ¬ ∀ s, Reach lrInit LrMoves Always s →
    s.EndWritten ∧ s.SendsAgain := by
  intro hall
  have hrun : ((exec lrStep atBufferEnd wrappedRun).any fun s => s.abandoned) = true := by
    decide +kernel
  obtain ⟨s, hexec, habandoned⟩ := (Option.any_eq_true _ _).mp hrun
  have hinit : lrInit atBufferEnd := lrInit_followerOf rfl nofun
  have hreach : Reach lrInit LrMoves Always s := Reach.exec (.start hinit) hexec
  exact LrState.not_sendsAgain habandoned (hall s hreach).2

end Wrapped

end Apus
