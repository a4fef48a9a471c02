import Apus.Replication.Model
import Mathlib.Data.List.TakeWhile

namespace Apus

open Lib

/-!
# The send queue of a queue pair

`post_send` posts most requests unsignaled, and their slots of the send queue are only free again when
a signaled request behind them was polled.  So when a quarter of the queue is full it marks a request
as a special signaled WR and starts to count anew, and at three quarters it waits for that WR.  Both
are tests for equality.  If the special WR is still on its way when a quarter is full again, no WR is
marked, and none will be: the count goes past the quarter, and past the three quarters once the WR it
waited for is found.

* `SendQueue.Inv` — what is outstanding, as long as that does not happen;
* `sendQueue_le` — then the queue does not overflow.
-/

/-- A queue pair, and whether `post_send` is still in `empty_completion_queue`, waiting for the special
    signaled WR. -/
structure SendQueue where
  qp : RcQp
  waitSignaledWr : Bool

/-- What happens at a queue pair on which all requests are posted unsignaled. -/
inductive SendLabel
  | post (wrId : Nat) (request : Request)
  /-- The first of the signaled requests is polled. -/
  | poll (rc : WcResult)

namespace RcQp

variable (qp : RcQp)

/-- A QP in the error state is restarted before a request is posted. -/
def restarted : RcQp := if qp.state = .error then .connected else qp

/-- The request posted next fills three quarters of the queue, and the special signaled WR is still on
    its way. -/
def isFull (rcMaxSendWr : Nat) : Bool :=
  !qp.wantsSignal rcMaxSendWr &&
    decide (qp.sendCount + 1 = 3 * rcMaxSendWr % 2 ^ 32 / 4 ∧ qp.pendingSignal ≠ 0)

/-- The first signaled request, and the requests behind it. -/
def firstSignaled : List WorkRequest := qp.outstanding.dropWhile fun w => !w.signaled

end RcQp

namespace SendQueue

variable (s : SendQueue)

/-- `post_send` of an unsignaled request. -/
def post (rcMaxSendWr wrId : Nat) (request : Request) : SendQueue where
  qp := s.qp.restarted.post rcMaxSendWr wrId request
  waitSignaledWr := s.qp.restarted.isFull rcMaxSendWr

/-- A completion in `empty_completion_queue`; it retires the requests up to its own. -/
def poll (w : WorkRequest) (rest : List WorkRequest) (rc : WcResult) : SendQueue where
  qp := { s.qp.complete w.wrId rc with outstanding := rest }
  waitSignaledWr := s.waitSignaledWr &&
    !decide (s.qp.signaledWrId ≠ 0 ∧ w.wrId = s.qp.signaledWrId)

end SendQueue

/-- One step; `none` if it is not possible. -/
def sendStep (rcMaxSendWr : Nat) (s : SendQueue) : SendLabel → Option SendQueue
  | .post wrId request =>
    -- a blocked QP waits for the special signaled WR, too
    if s.waitSignaledWr || decide (s.qp.state = .blocked) || request.isLr then none
    else some (s.post rcMaxSendWr wrId request)
  | .poll rc =>
    match s.qp.firstSignaled with
    | [] => none
    | w :: rest => some (s.poll w rest rc)

/-- The step relation. -/
def SendStep (rcMaxSendWr : Nat) (s : SendQueue) (l : SendLabel) (s' : SendQueue) : Prop :=
  sendStep rcMaxSendWr s l = some s'

/-- A queue pair that was just connected. -/
def newQueue : SendQueue := ⟨.connected, false⟩

def sendInit (s : SendQueue) : Prop := s = newQueue

/-- When a quarter of the queue is full, the last special signaled WR was found. -/
def SignalFound (rcMaxSendWr : Nat) (s : SendQueue) : SendLabel → Prop
  | .post _ _ =>
    s.qp.restarted.sendCount + 1 = rcMaxSendWr / 4 → s.qp.restarted.pendingSignal = 0
  | .poll _ => True

instance (rcMaxSendWr : Nat) (s : SendQueue) (l : SendLabel) :
    Decidable (SignalFound rcMaxSendWr s l) := by
  cases l <;> simp only [SignalFound] <;> infer_instance

/-! ### The invariant -/

/-- None of the requests is signaled. -/
def Unsignaled (ws : List WorkRequest) : Prop := ∀ w ∈ ws, w.signaled = false

/-- The requests behind the last special signaled WR are counted, and before it there are less than a
    quarter. -/
inductive Outstanding (quarter : Nat) (qp : RcQp) : Prop
  | found : qp.pendingSignal = 0 → Unsignaled qp.outstanding →
      qp.outstanding.length = qp.sendCount → Outstanding quarter qp
  | pending {ws rest : List WorkRequest} {w : WorkRequest} : wridGetTag qp.signaledWrId = true →
      qp.outstanding = ws ++ w :: rest → w.signaled = true → w.wrId = qp.signaledWrId →
      Unsignaled ws → Unsignaled rest → ws.length < quarter → rest.length = qp.sendCount →
      Outstanding quarter qp

/-- The queue pair, as long as every special signaled WR is found in time. -/
structure RcQp.Paced (quarter : Nat) (qp : RcQp) : Prop where
  ready : qp.ready = true
  notBlocked : qp.state ≠ .blocked
  lt : qp.sendCount < quarter
  outstanding : Outstanding quarter qp

variable {rcMaxSendWr quarter wrId : Nat} {s s' : SendQueue} {qp : RcQp} {request : Request}
  {rc : WcResult} {w : WorkRequest} {ws rest : List WorkRequest}

/-- The queue never has more requests than two quarters. -/
theorem RcQp.Paced.length_lt (h : qp.Paced quarter) : qp.outstanding.length < 2 * quarter := by
  have hlt := h.lt
  cases h.outstanding with
  | found _ _ hlength => omega
  | pending _ hws _ _ _ _ hbefore hbehind =>
    rw [hws, List.length_append, List.length_cons]
    omega

/-- A QP that was just connected has nothing outstanding. -/
theorem RcQp.paced_connected (hpos : 0 < quarter) : RcQp.connected.Paced quarter :=
  ⟨rfl, by decide, hpos, .found rfl (fun _ hw => absurd hw List.not_mem_nil) rfl⟩

theorem RcQp.Paced.restarted (hpos : 0 < quarter) (h : qp.Paced quarter) :
    qp.restarted.Paced quarter := by
  unfold RcQp.restarted
  split
  · exact paced_connected hpos
  · exact h

theorem Unsignaled.append (hws : Unsignaled ws) (hw : w.signaled = false) : Unsignaled (ws ++ [w]) := by
  intro v hv
  rcases List.mem_append.mp hv with hv | hv
  · exact hws v hv
  · exact List.mem_singleton.mp hv ▸ hw

/-! ### The special signaled WR -/

theorem wridGetTag_wridSetTag (wrId : Nat) : wridGetTag (wridSetTag wrId) = true := by
  unfold wridSetTag
  split
  · assumption
  · rename_i h
    simp only [wridGetTag, beq_iff_eq] at h ⊢
    omega

theorem wridGetTag_wridUnsetTag (wrId : Nat) : wridGetTag (wridUnsetTag wrId) = false := by
  unfold wridUnsetTag
  split
  · rename_i h
    simp only [wridGetTag, beq_iff_eq, beq_eq_false_iff_ne] at h ⊢
    omega
  · rename_i h
    exact Bool.not_eq_true _ ▸ h

/-- A tagged identifier is not the one of no request. -/
theorem ne_zero_of_wridGetTag (h : wridGetTag wrId = true) : wrId ≠ 0 := by
  rintro rfl
  exact absurd h (by decide)

/-- A special signaled WR on its way is not found yet. -/
theorem RcQp.pendingSignal_of_tag (h : wridGetTag qp.signaledWrId = true) :
    qp.pendingSignal = qp.signaledWrId := by
  rw [pendingSignal, if_neg]
  rintro ⟨-, hfound⟩
  rw [h] at hfound
  cases hfound

/-- One that was untagged is found. -/
theorem RcQp.pendingSignal_of_untag (h : wridGetTag qp.signaledWrId = false) :
    qp.pendingSignal = 0 := by
  unfold pendingSignal
  split
  · rfl
  · rename_i hnot
    exact not_not.mp fun hne => hnot ⟨hne, h⟩

/-- `post_send` keeps the pace, provided that the last special signaled WR was found by the time a
    quarter is full. -/
theorem RcQp.Paced.post (h : qp.Paced (rcMaxSendWr / 4))
    (hfound : qp.sendCount + 1 = rcMaxSendWr / 4 → qp.pendingSignal = 0)
    (hrequest : request.isLr = false) : (qp.post rcMaxSendWr wrId request).Paced (rcMaxSendWr / 4) := by
  have hlt := h.lt
  by_cases hspecial : qp.wantsSignal rcMaxSendWr = true
  · obtain ⟨hcount, hpending⟩ := of_decide_eq_true hspecial
    -- the quarter is full, and the last special one was found: this is the next
    have hpost : qp.post rcMaxSendWr wrId request = { qp with
        sendCount := 0
        signaledWrId := wridSetTag wrId
        outstanding := qp.outstanding ++ [⟨wridSetTag wrId, request, true, none⟩] } := by
      simp only [RcQp.post, hspecial, h.ready, if_true, Bool.or_true]
    rw [hpost]
    refine ⟨h.ready, h.notBlocked, by show 0 < _; omega, ?_⟩
    cases h.outstanding with
    | found _ hall hlength =>
      exact .pending (wridGetTag_wridSetTag wrId) rfl rfl rfl hall
        (fun _ hw => absurd hw List.not_mem_nil) (hlength ▸ hlt) rfl
    | pending htag =>
      rw [pendingSignal_of_tag htag] at hpending
      exact absurd hpending (ne_zero_of_wridGetTag htag)
  · -- this one is not special
    have hpost : qp.post rcMaxSendWr wrId request = { qp with
        sendCount := qp.sendCount + 1
        signaledWrId := qp.pendingSignal
        outstanding := qp.outstanding ++ [⟨wrId, request, false, none⟩] } := by
      simp only [RcQp.post, Bool.eq_false_iff.mpr hspecial, h.ready, hrequest, if_true, Bool.or_false,
        Bool.false_eq_true, if_false]
    have hcount : qp.sendCount + 1 ≠ rcMaxSendWr / 4 :=
      fun heq => hspecial (decide_eq_true ⟨heq, hfound heq⟩)
    rw [hpost]
    refine ⟨h.ready, h.notBlocked, by show qp.sendCount + 1 < _; omega, ?_⟩
    cases h.outstanding with
    | found hpending hall hlength =>
      refine .found ?_ (hall.append rfl) ?_
      · refine pendingSignal_of_untag ?_
        show wridGetTag qp.pendingSignal = false
        rw [hpending]
        decide
      · rw [List.length_append, hlength]
        rfl
    | pending htag hws hsignaled hwrId hbefore hbehind hlenBefore hlenBehind =>
      rename_i ws rest w
      have hws' : qp.outstanding ++ [⟨wrId, request, false, none⟩] =
          ws ++ w :: (rest ++ [⟨wrId, request, false, none⟩]) := by
        rw [hws, List.append_assoc, List.cons_append]
      rw [pendingSignal_of_tag htag]
      refine .pending htag hws' hsignaled hwrId hbefore (hbehind.append rfl) hlenBefore ?_
      rw [List.length_append, hlenBehind]
      rfl

/-- The signaled request that is polled is the special one, and nothing before it is left. -/
theorem RcQp.Paced.poll (h : qp.Paced quarter) (hfirst : qp.firstSignaled = w :: rest) :
    ({ qp.complete w.wrId rc with outstanding := rest } : RcQp).Paced quarter := by
  cases h.outstanding with
  | found _ hall _ =>
    -- none of them is signaled
    have hnone : qp.firstSignaled = [] := by
      rw [firstSignaled, List.dropWhile_eq_nil_iff]
      intro v hv
      rw [hall v hv]
      rfl
    rw [hnone] at hfirst
    cases hfirst
  | pending htag hws hsignaled hwrId hbefore hbehind hlenBefore hlenBehind =>
    rename_i ws rest' w'
    -- the first signaled one is the special one
    have hsplit : qp.firstSignaled = w' :: rest' := by
      rw [firstSignaled, hws, List.dropWhile_append_of_pos fun v hv => by rw [hbefore v hv]; rfl,
        List.dropWhile_cons_of_neg (by simp [hsignaled])]
    rw [hsplit] at hfirst
    obtain ⟨rfl, rfl⟩ := List.cons.inj hfirst
    have hfound : qp.signaledWrId ≠ 0 ∧ w'.wrId = qp.signaledWrId :=
      ⟨ne_zero_of_wridGetTag htag, hwrId⟩
    have hstate : (qp.complete w'.wrId rc).state ≠ .blocked := by
      simp only [RcQp.complete, hwrId, true_or, or_true, if_true]
      split
      · rw [if_neg fun hcon => h.notBlocked hcon.2]
        exact h.notBlocked
      · decide
    have huntag : (qp.complete w'.wrId rc).signaledWrId = wridUnsetTag qp.signaledWrId := if_pos hfound
    refine ⟨h.ready, hstate, h.lt, .found ?_ hbehind hlenBehind⟩
    refine pendingSignal_of_untag ?_
    show wridGetTag (qp.complete w'.wrId rc).signaledWrId = false
    rw [huntag]
    exact wridGetTag_wridUnsetTag _

/-! ### Runs -/

/-- The queue pair keeps the pace. -/
def SendQueue.Inv (rcMaxSendWr : Nat) (s : SendQueue) : Prop := s.qp.Paced (rcMaxSendWr / 4)

theorem sendInv_step {l : SendLabel} (hpos : 0 < rcMaxSendWr / 4) (h : s.Inv rcMaxSendWr)
    (hfound : SignalFound rcMaxSendWr s l) (hs : SendStep rcMaxSendWr s l s') :
    s'.Inv rcMaxSendWr := by
  unfold SendStep sendStep at hs
  cases l with
  | post wrId request =>
    dsimp only at hs
    split at hs
    · cases hs
    · rename_i hposted
      simp only [Bool.or_eq_true, not_or, Bool.not_eq_true] at hposted
      obtain rfl := Option.some.inj hs
      exact (RcQp.Paced.restarted hpos h).post hfound hposted.2
  | poll rc =>
    dsimp only at hs
    split at hs
    · cases hs
    · rename_i w rest hfirst
      obtain rfl := Option.some.inj hs
      exact RcQp.Paced.poll h hfirst

/-- **The send queue does not overflow**, as long as every special signaled WR is found before another
    quarter of the queue is full. -/
theorem sendQueue_le (hmax : 4 ≤ rcMaxSendWr)
    (h : Reach sendInit (SendStep rcMaxSendWr) (SignalFound rcMaxSendWr) s) :
    s.qp.outstanding.length ≤ rcMaxSendWr := by
  have hpos : 0 < rcMaxSendWr / 4 := Nat.div_pos hmax (by decide)
  have hinv : s.Inv rcMaxSendWr := by
    refine h.invariant ?_ fun s l s' hinv hok hs => sendInv_step hpos hinv hok hs
    rintro s rfl
    exact RcQp.paced_connected hpos
  have hlt := hinv.length_lt
  omega

/-- Twice a quarter of a queue of eight: the special signaled WR is found in time. -/
def steadySends : List SendLabel :=
  [.post 1024 .readApply, .post 2048 .readApply, .post 3072 .readApply, .poll .success,
    .post 4096 .readApply]

theorem sendQueue_le_steady :
    ∃ s, execIf (sendStep 8) (SignalFound 8) newQueue steadySends = some s ∧
      s.qp.outstanding.length ≤ 8 := by
  have hrun : (execIf (sendStep 8) (SignalFound 8) newQueue steadySends).isSome = true := by
    decide +kernel
  obtain ⟨s, hs⟩ := Option.isSome_iff_exists.mp hrun
  have hstart : Reach sendInit (SendStep 8) (SignalFound 8) newQueue := .start rfl
  exact ⟨s, hs, sendQueue_le (by decide) (hstart.steps (fun _ _ h => h) (Steps.refl.execIf hs))⟩

/-- A queue of four.  The second request fills a quarter while the first is on its way; `post_send`
    waits for it with the fourth, and never signals again. -/
def lateSignal : List SendLabel :=
  [.post 1024 .readApply, .post 2048 .readApply, .post 3072 .readApply, .post 4096 .readApply,
    .poll .success, .post 5120 .readApply, .post 6144 .readApply]

theorem not_sendQueue_le : ∃ s, Reach sendInit (SendStep 4) Always s ∧
    4 < s.qp.outstanding.length := by
  have hrun : (exec (sendStep 4) newQueue lateSignal).any
      (fun s => decide (4 < s.qp.outstanding.length)) = true := by
    decide +kernel
  obtain ⟨s, hs, hlt⟩ := (Option.any_eq_true _ _).mp hrun
  have hstart : Reach sendInit (SendStep 4) Always newQueue := .start rfl
  exact ⟨s, hstart.exec hs, of_decide_eq_true hlt⟩

end Apus
