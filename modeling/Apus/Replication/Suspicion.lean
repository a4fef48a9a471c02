import Apus.Group.Removal
import Apus.Lib.Run
import Apus.Replication.Polling

namespace Apus

open Lib

/-!
# Suspected servers

A server whose `fail_count` has reached `PERMANENT_FAILURE` is taken for failed.  The count is a byte
that the loops over the completions advance without a bound, and the waiting functions go by the
status of the first completion of a batch for all of them.

* `failCount_completionStep` — what an iteration of any of the loops does to a count;
* `suspected_completionStep_iff` — when it leaves a suspected server suspected;
* `suspicion_stable` — the runs in which a suspected server stays suspected.
-/

/-- The iteration `i` of one of the functions. -/
def completionStep (p : Poller) (c : CqCall) (wcs : Nat → RcWc) (s : CqState) (i : Nat) : CqState :=
  match p with
  | .emptyCompletionQueue => s.emptyStep c wcs i
  | .waitForMajority => s.majorityStep c wcs i
  | .waitForOne => s.oneStep c wcs i

/-- The status that the iteration goes by, if any: the waiting functions pass over a server without a
    connection. -/
def statusSeen (p : Poller) (wcs : Nat → RcWc) (s : CqState) (i : Nat) : Option WcResult :=
  match p with
  | .emptyCompletionQueue => some (wcs i).rc
  | _ => if s.isConnected wcs i then some (wcs 0).rc else none

/-- `fail_count` after a completion with the status. -/
def countedAs (logQp : Bool) (seen : Option WcResult) (n : UInt8) : UInt8 :=
  match seen with
  | some .success => 0
  | some .failure => if logQp then n else n + 1
  | _ => n

/-- The count of the server has reached the limit. -/
def Suspected (s : CqState) (k : Nat) : Prop := PERMANENT_FAILURE ≤ (s.servers k).failCount

/-! ### Runs -/

inductive SuspicionLabel
  /-- A loop processes the completion `i` of its batch. -/
  | completion (p : Poller) (c : CqCall) (wcs : Nat → RcWc) (i : Nat)
  /-- The slot `k` is given to a joining server. -/
  | join (k : Nat)
  /-- Anything else: no other code writes a count. -/
  | other

def suspicionStep (s : CqState) : SuspicionLabel → CqState → Prop
  | .completion p c wcs i, s' => s' = completionStep p c wcs s i
  | .join k, s' => s' = s.update k LrState.join
  | .other, s' => ∀ k, (s'.servers k).failCount = (s.servers k).failCount

/-- No request to the server completes successfully, and its slot stays its own. -/
def Undisturbed (k : Nat) : SuspicionLabel → Prop
  | .completion _ _ wcs i => wridGetConn (wcs i).wrId = k → (wcs i).rc ≠ .success
  | .join k' => k' ≠ k
  | .other => True

/-- A completion of the server is not taken for a success, and a failure that is counted does not
    find the count at its maximum. -/
def CountGoesOn (k : Nat) (s : CqState) : SuspicionLabel → Prop
  | .completion p c wcs i => wridGetConn (wcs i).wrId = k →
      statusSeen p wcs s i ≠ some .success ∧
        (statusSeen p wcs s i = some .failure → c.logQp = false → (s.servers k).failCount ≠ 255)
  | _ => True

/-- The functions that look at the count take the server for failed: `check_failure_count` removes it
    from a stable group, and the others do nothing for it. -/
structure TakenForFailed (s : CqState) (k : Nat) : Prop where
  suspected : Suspected s k
  isFailed : OfficeState.isFailed (fun i => (s.servers i).failCount) k = true
  removed : ∀ cid : DareCid, SizesFit cid → k < (getGroupSize cid).toNat →
    cidIsServerOn (removeFailed cid (OfficeState.isFailed fun i => (s.servers i).failCount)) k = false
  logAdjustment : ∀ voteAck nc, (s.servers k).logAdjustment voteAck nc = s.servers k
  updateRemoteLog : (s.servers k).updateRemoteLog = s.servers k
  lazyCommit : ∀ size, (s.servers k).lazyCommit size = s.servers k
  getRemoteApplyOffset : ∀ voteAck, (s.servers k).getRemoteApplyOffset voteAck = s.servers k

variable {c : CqCall} {wcs : Nat → RcWc} {s s' t : CqState} {p : Poller} {wrId conn i k : Nat}
  {rc : WcResult} {canRestart : Bool}

/-! ### One iteration -/

/-- An update changes the count of its server. -/
theorem failCount_update {f : LrState → LrState} {g : UInt8 → UInt8}
    (hf : ∀ sv, (f sv).failCount = g sv.failCount) :
    ((s.update conn f).servers k).failCount =
      if conn = k then g (s.servers k).failCount else (s.servers k).failCount := by
  by_cases hk : conn = k
  · subst hk
    rw [if_pos rfl, CqState.update_servers, hf]
  · rw [if_neg hk]
    simp [CqState.update, Function.update_of_ne (Ne.symm hk)]

/-- Log replication does not touch the counts. -/
theorem failCount_handleLr :
    ((s.handleLr wcs i rc).servers k).failCount = (s.servers k).failCount := by
  unfold CqState.handleLr
  rw [failCount_update (g := id) handleLrWorkCompletion_failCount]
  simp

/-- Nor does what is done before the status is known. -/
theorem failCount_check :
    ((s.update conn fun sv => sv.check c.logQp wrId).servers k).failCount =
      (s.servers k).failCount := by
  have hcheck : ∀ sv : LrState, (sv.check c.logQp wrId).failCount = id sv.failCount := by
    intro sv
    unfold LrState.check LrState.checkGetRead
    dsimp only
    split <;> rfl
  rw [failCount_update hcheck]
  simp

/-- What a status makes of the servers, in each of the three functions. -/
def CqState.settle (s : CqState) (c : CqCall) (wrId : Nat) (canRestart : Bool) (rc : WcResult) :
    CqState :=
  match rc with
  | .success => s.update (wridGetConn wrId) fun sv => { sv with failCount := 0 }
  | .failure => s.update (wridGetConn wrId) fun sv => sv.fail c.logQp canRestart
  | _ => s

theorem failCount_settle :
    ((s.settle c wrId canRestart rc).servers k).failCount =
      if wridGetConn wrId = k then countedAs c.logQp (some rc) (s.servers k).failCount
      else (s.servers k).failCount := by
  unfold CqState.settle
  cases rc with
  | success => exact failCount_update fun _ => rfl
  | failure => exact failCount_update fun _ => rfl
  | softwareBug => simp [countedAs]
  | error => simp [countedAs]

theorem servers_emptySettle :
    (s.emptySettle c wrId canRestart rc).servers = (s.settle c wrId canRestart rc).servers := by
  unfold CqState.emptySettle CqState.settle
  cases rc <;> dsimp only <;> split <;> rfl

theorem servers_majoritySettle :
    (s.majoritySettle c wrId canRestart rc).servers = (s.settle c wrId canRestart rc).servers := by
  unfold CqState.majoritySettle CqState.settle
  cases rc <;> dsimp only
  split <;> rfl

theorem servers_oneSettle :
    (s.oneSettle c wrId canRestart rc).servers = (s.settle c wrId canRestart rc).servers := by
  unfold CqState.oneSettle CqState.settle
  cases rc <;> dsimp only
  split <;> rfl

/-- An iteration of a waiting function goes by the first completion. -/
theorem failCount_waitStep {settle : CqState → Nat → Bool → WcResult → CqState}
    (hsettle : ∀ s wrId canRestart rc,
      (settle s wrId canRestart rc).servers = (s.settle c wrId canRestart rc).servers) :
    ((s.waitStep c wcs settle i).servers k).failCount =
      if wridGetConn (wcs i).wrId = k then
        countedAs c.logQp (if s.isConnected wcs i then some (wcs 0).rc else none)
          (s.servers k).failCount
      else (s.servers k).failCount := by
  have hcheck : ((s.waitCheck c (wcs i).wrId).servers k).failCount = (s.servers k).failCount := by
    unfold CqState.waitCheck
    dsimp only
    split
    · exact failCount_check
    · exact failCount_check
  unfold CqState.waitStep
  dsimp only
  rw [Quiet.waitCheck.connected]
  show (CqState.servers (if !s.isConnected wcs i then _ else _) k).failCount = _
  split
  · rename_i hconn
    rw [Bool.not_eq_true'] at hconn
    simp [hcheck, hconn, countedAs]
  · rename_i hconn
    rw [Bool.not_eq_true', Bool.not_eq_false] at hconn
    show ((settle _ _ _ _).servers k).failCount = _
    rw [hsettle, failCount_settle, failCount_handleLr, hcheck, if_pos hconn]

/-- What an iteration does to the counts. -/
theorem failCount_completionStep :
    ((completionStep p c wcs s i).servers k).failCount =
      if wridGetConn (wcs i).wrId = k then
        countedAs c.logQp (statusSeen p wcs s i) (s.servers k).failCount
      else (s.servers k).failCount := by
  cases p with
  | emptyCompletionQueue =>
    unfold completionStep CqState.emptyStep
    show ((CqState.emptySettle _ _ _ _ _).servers k).failCount = _
    rw [servers_emptySettle, failCount_settle, failCount_handleLr]
    have hcheck : ∀ t : CqState, t.servers = (s.update (wridGetConn (wcs i).wrId)
        fun sv => sv.check c.logQp (wcs i).wrId).servers →
          (t.servers k).failCount = (s.servers k).failCount := by
      intro t ht
      rw [ht]
      exact failCount_check
    rw [hcheck _ (by split <;> rfl)]
    rfl
  | waitForMajority => exact failCount_waitStep fun _ _ _ _ => servers_majoritySettle
  | waitForOne => exact failCount_waitStep fun _ _ _ _ => servers_oneSettle

/-- A count that is not reset stays at or above the limit unless it wraps. -/
theorem le_countedAs_iff {logQp : Bool} {seen : Option WcResult} {n : UInt8}
    (h : PERMANENT_FAILURE ≤ n) :
    PERMANENT_FAILURE ≤ countedAs logQp seen n ↔
      seen ≠ some .success ∧ (seen = some .failure → logQp = false → n ≠ 255) := by
  rw [UInt8.le_iff_toNat_le] at h ⊢
  have hlimit : PERMANENT_FAILURE.toNat = 2 := rfl
  rw [hlimit] at h ⊢
  have hn := n.toNat_lt
  obtain _ | rc := seen
  · simpa [countedAs] using h
  · cases rc with
    | success => simp [countedAs]
    | failure =>
      cases logQp with
      | true => simpa [countedAs] using h
      | false =>
        have hmax : n = 255 ↔ n.toNat = 255 := by
          rw [← UInt8.toNat_inj]
          rfl
        simp only [countedAs, ne_eq, Option.some.injEq, reduceCtorEq, not_false_eq_true, true_and,
          true_implies, Bool.false_eq_true, if_false, UInt8.toNat_add, UInt8.toNat_one, hmax]
        omega
    | softwareBug => simpa [countedAs] using h
    | error => simpa [countedAs] using h

/-- An iteration leaves a suspected server suspected exactly when it takes no completion of the server
    for a success, and does not advance a count of 255. -/
theorem suspected_completionStep_iff (h : Suspected s k) :
    Suspected (completionStep p c wcs s i) k ↔ CountGoesOn k s (.completion p c wcs i) := by
  unfold Suspected CountGoesOn
  rw [failCount_completionStep]
  by_cases hk : wridGetConn (wcs i).wrId = k
  · simp only [hk, if_true, true_implies]
    exact le_countedAs_iff h
  · simp only [hk, if_false, false_implies, iff_true]
    exact h

/-! ### Runs -/

/-- One step. -/
theorem Suspected.step {l : SuspicionLabel} (h : Suspected s k) (hquiet : Undisturbed k l)
    (hcount : CountGoesOn k s l) (hs : suspicionStep s l s') : Suspected s' k := by
  cases l with
  | completion p c wcs i =>
    have hs : s' = completionStep p c wcs s i := hs
    rw [hs]
    exact (suspected_completionStep_iff h).mpr hcount
  | join k' =>
    have hs : s' = s.update k' LrState.join := hs
    have hne : k' ≠ k := hquiet
    rw [hs]
    show PERMANENT_FAILURE ≤ _
    rw [failCount_update (g := fun _ => 0) fun _ => rfl, if_neg hne]
    exact h
  | other =>
    have hs : ∀ k, (s'.servers k).failCount = (s.servers k).failCount := hs
    show PERMANENT_FAILURE ≤ _
    rw [hs k]
    exact h

/-- A suspected server is taken for failed. -/
theorem Suspected.takenForFailed (h : Suspected s k) : TakenForFailed s k := by
  have hfailed : OfficeState.isFailed (fun i => (s.servers i).failCount) k = true :=
    decide_eq_true h
  have hskipped : (s.servers k).isSkipped = true := by
    simp [LrState.isSkipped, show PERMANENT_FAILURE ≤ (s.servers k).failCount from h]
  refine ⟨h, hfailed, ?_, ?_, ?_, ?_, ?_⟩
  · intro cid hsize hk
    have hfit := hsize.getGroupSize
    simp only [MAX_SERVER_COUNT] at hfit
    rw [removeFailed, cidIsServerOn_removeFailed _ (by omega) (by omega), hfailed]
    simp [hk]
  · intro voteAck nc
    simp [LrState.logAdjustment, hskipped]
  · simp [LrState.updateRemoteLog, hskipped]
  · intro size
    simp [LrState.lazyCommit, hskipped]
  · intro voteAck
    simp [LrState.getRemoteApplyOffset, hskipped]

/-- **Once a server is suspected it is taken for failed** until a request to it completes successfully
    or its slot is given away, in the runs in which no completion of it is taken for a success, and no
    failure finds the count at 255. -/
theorem suspicion_stable (h : Suspected s k)
    (hrun : Steps suspicionStep (fun s l => Undisturbed k l ∧ CountGoesOn k s l) s s') :
    TakenForFailed s' k := by
  have hend : Suspected s' k := by
    refine @Steps.invariant _ _ _ _ (fun t => Suspected t k) _ _ h ?_ hrun
    exact fun _ _ _ h hok hs => h.step hok.1 hok.2 hs
  exact hend.takenForFailed

section Failures

/-- A leader with the given count for every server. -/
def countsOf (n : UInt8) : CqState where
  servers := fun _ => { followerOf (logOf 0 0 64 zeroMem) .getNceLen 0 0 with failCount := n }
  posted := fun _ => 0
  pending := 0
  successes := 0
  waitSignaledWr := false
  reads := []

/-- A call on the CTRL QP. -/
def ctrlCall : CqCall := ⟨false, 0, 0, false, 0⟩

/-- Failed requests to server 1. -/
def failures : Nat → RcWc := fun _ => ⟨1, .failure⟩

/-- Server 1 stays suspected after one more failure. -/
theorem suspicion_stable_third :
    TakenForFailed (completionStep .emptyCompletionQueue ctrlCall failures (countsOf 2) 0) 1 := by
  have hstart : Suspected (countsOf 2) 1 := by unfold Suspected; decide
  refine suspicion_stable hstart
    (.step (l := SuspicionLabel.completion .emptyCompletionQueue ctrlCall failures 0) .refl
      ⟨fun _ => by decide, fun _ => ⟨by decide, fun _ _ => by decide⟩⟩ rfl)

/-- A number of failures, one after the other. -/
theorem failures_count (n : Nat) (s : CqState) :
    ∃ s', Steps suspicionStep (fun _ l => Undisturbed 1 l) s s' ∧
      (s'.servers 1).failCount = (s.servers 1).failCount + UInt8.ofNat n := by
  induction n with
  | zero => exact ⟨s, .refl, by simp⟩
  | succ n ih =>
    obtain ⟨s', hrun, hcount⟩ := ih
    refine ⟨completionStep .emptyCompletionQueue ctrlCall failures s' 0,
      .step (l := SuspicionLabel.completion .emptyCompletionQueue ctrlCall failures 0) hrun
        (fun _ => by decide) rfl, ?_⟩
    have hconn : wridGetConn (failures 0).wrId = 1 := rfl
    rw [failCount_completionStep, if_pos hconn, hcount, UInt8.ofNat_add, ← UInt8.add_assoc]
    rfl

/-- After 254 more failures the count of a suspected server is 0 again. -/
theorem not_suspicion_stable : ¬ ∀ (s s' : CqState) (k : Nat), Suspected s k →
    Steps suspicionStep (fun _ l => Undisturbed k l) s s' → TakenForFailed s' k := by
  intro h
  obtain ⟨s', hrun, hcount⟩ := failures_count 254 (countsOf 2)
  have hstart : Suspected (countsOf 2) 1 := by unfold Suspected; decide
  have hsuspected : PERMANENT_FAILURE ≤ (s'.servers 1).failCount := (h _ _ 1 hstart hrun).suspected
  rw [hcount] at hsuspected
  revert hsuspected
  decide

end Failures

end Apus
