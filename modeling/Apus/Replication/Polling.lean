import Apus.Election.Majority
import Apus.Replication.Waiting

namespace Apus

/-!
# Polled completions

`empty_completion_queue`, `wait_for_majority` and `wait_for_one` each have a loop over the completions
that one call of `ibv_poll_cq` has put into the array.  Three things differ: the loops of the waiting
functions count with a byte, and read the status of the first element of the array for all of them;
and the index handed to `handle_lr_work_completion` is a byte in all three.

`reads` records, for every iteration, which elements of the array it has read.

* `CqState.emptyStep_servers` — an iteration does to its server what the model of log replication says;
* `reads_pollLoop` — the elements that a loop reads;
* `ownData_iff` — when every completion is processed once, with its own data.
-/

/-- An element of the array of completions; `rc` is what `handle_work_completion` makes of its status. -/
structure RcWc where
  wrId : Nat
  rc : WcResult

/-- The elements that an iteration reads: for the identifier of the request, for the status, and in
    `handle_lr_work_completion`. -/
structure WcRead where
  wrId : Nat
  status : Option Nat
  lr : Option Nat
  deriving DecidableEq

/-- A call of one of the functions. -/
structure CqCall where
  /-- `qp_id` is `LOG_QP`. -/
  logQp : Bool
  ssn : Nat
  /-- The server that `empty_completion_queue` waits for, and whether it got `posted_sends`. -/
  serverId : Nat
  hasPosted : Bool
  /-- The size that `wait_for_majority` is at. -/
  size : Nat

/-- What the loops work on; `qp` of a server is the QP that `qp_id` stands for. -/
structure CqState where
  servers : Nat → LrState
  posted : Nat → Int
  /-- `posted_send_count`. -/
  pending : UInt8
  /-- `success_count`. -/
  successes : UInt8
  waitSignaledWr : Bool
  reads : List WcRead

namespace RcQp

variable (qp : RcQp)

/-- The request is the special signaled WR. -/
def isSignaled (wrId : Nat) : Bool := decide (qp.signaledWrId ≠ 0 ∧ wrId = qp.signaledWrId)

/-- Check signaled WR: it is untagged, and a QP blocked because of it may be restarted. -/
def checkSignaled (wrId : Nat) : RcQp :=
  if qp.isSignaled wrId then
    { qp with
      signaledWrId := wridUnsetTag qp.signaledWrId
      state := if qp.state = .blocked then .error else qp.state }
  else qp

/-- In case of error the QP cannot be restarted while the signaled WR is on its way. -/
def canRestart (wrId : Nat) : Bool := decide (qp.signaledWrId = 0 ∨ wrId = qp.signaledWrId)

/-- The QP is in the ERR state: to be restarted, or blocked. -/
def fail (canRestart : Bool) : RcQp :=
  { qp with state := if canRestart || decide (qp.state = .error) then .error else .blocked }

end RcQp

namespace LrState

variable (sv : LrState)

/-- Check last get read ssn. -/
def checkGetRead (logQp : Bool) (wrId : Nat) : LrState :=
  if logQp = true ∧ sv.lastGetReadSsn ≤ wridGetSsn wrId then { sv with lastGetReadSsn := 0 } else sv

/-- What all loops do before they look at the status. -/
def check (logQp : Bool) (wrId : Nat) : LrState :=
  let sv := sv.checkGetRead logQp wrId
  { sv with qp := sv.qp.checkSignaled wrId }

/-- A failed operation; it only counts as a failure of the server on the CTRL QP. -/
def fail (logQp canRestart : Bool) : LrState :=
  { sv with
    qp := sv.qp.fail canRestart
    failCount := if logQp then sv.failCount else sv.failCount + 1 }

end LrState

namespace CqState

variable (c : CqCall) (wcs : Nat → RcWc) (s : CqState)

def update (conn : Nat) (f : LrState → LrState) : CqState :=
  { s with servers := Function.update s.servers conn (f (s.servers conn)) }

/-- `handle_lr_work_completion`, whose parameter `idx` is a byte. -/
def handleLr (idx : Nat) (rc : WcResult) : CqState :=
  let wrId := (wcs (idx % 256)).wrId
  s.update (wridGetConn wrId) fun sv => sv.handleLrWorkCompletion wrId rc

/-- What `empty_completion_queue` does with the status. -/
def emptySettle (wrId : Nat) (canRestart : Bool) (rc : WcResult) : CqState :=
  let conn := wridGetConn wrId
  let ours := c.hasPosted && wridGetSsn wrId == c.ssn
  match rc with
  | .success =>
    let s := s.update conn fun sv => { sv with failCount := 0 }
    if ours then { s with posted := Function.update s.posted conn (s.posted conn - 1) } else s
  | .failure =>
    let s := s.update conn fun sv => sv.fail c.logQp canRestart
    if ours then { s with posted := Function.update s.posted conn (-1) } else s
  | _ => s

/-- What `wait_for_majority` does with the status. -/
def majoritySettle (wrId : Nat) (canRestart : Bool) (rc : WcResult) : CqState :=
  let conn := wridGetConn wrId
  match rc with
  | .success =>
    let s := s.update conn fun sv => { sv with failCount := 0 }
    -- a completion of an earlier round
    if wridGetSsn wrId < c.ssn then s
    else
      let left := s.posted conn - 1
      { s with
        posted := Function.update s.posted conn left
        successes := if left = 0 ∧ conn < c.size then s.successes + 1 else s.successes }
  | .failure => s.update conn fun sv => sv.fail c.logQp canRestart
  | _ => s

/-- What `wait_for_one` does with the status. -/
def oneSettle (wrId : Nat) (canRestart : Bool) (rc : WcResult) : CqState :=
  let conn := wridGetConn wrId
  match rc with
  | .success =>
    let s := s.update conn fun sv => { sv with failCount := 0 }
    if wridGetSsn wrId = c.ssn then
      { s with
        posted := Function.update s.posted conn (s.posted conn - 1)
        successes := s.successes + 1 }
    else s
  | .failure => s.update conn fun sv => sv.fail c.logQp canRestart
  | _ => s

/-- The iteration `i` of `empty_completion_queue`. -/
def emptyStep (i : Nat) : CqState :=
  let wrId := (wcs i).wrId
  let conn := wridGetConn wrId
  let qp := (s.servers conn).qp
  let s := s.update conn fun sv => sv.check c.logQp wrId
  let s := if qp.isSignaled wrId ∧ conn = c.serverId then { s with waitSignaledWr := false } else s
  let rc := (wcs i).rc
  let s := (s.handleLr wcs i rc).emptySettle c wrId (qp.canRestart wrId) rc
  { s with reads := s.reads ++ [⟨i, some i, some (i % 256)⟩] }

/-- What a waiting function does before it looks at the status. -/
def waitCheck (wrId : Nat) : CqState :=
  let s := s.update (wridGetConn wrId) fun sv => sv.check c.logQp wrId
  if wridGetSsn wrId = c.ssn then { s with pending := s.pending - 1 } else s

/-- The iteration `i` of a waiting function. -/
def waitStep (settle : CqState → Nat → Bool → WcResult → CqState) (i : Nat) : CqState :=
  let wrId := (wcs i).wrId
  let conn := wridGetConn wrId
  let qp := (s.servers conn).qp
  let s := s.waitCheck c wrId
  if !(s.servers conn).rcConnected then { s with reads := s.reads ++ [⟨i, none, none⟩] }
  else
    let rc := (wcs 0).rc
    let s := settle (s.handleLr wcs i rc) wrId (qp.canRestart wrId) rc
    { s with reads := s.reads ++ [⟨i, some 0, some (i % 256)⟩] }

/-- The iteration `i` of `wait_for_majority`. -/
def majorityStep : Nat → CqState := s.waitStep c wcs fun s => s.majoritySettle c

/-- The iteration `i` of `wait_for_one`. -/
def oneStep : Nat → CqState := s.waitStep c wcs fun s => s.oneSettle c

end CqState

/-- The functions that poll. -/
inductive Poller
  | emptyCompletionQueue
  | waitForMajority
  | waitForOne
  deriving DecidableEq

/-- The loop of a function over the `ne` completions that a poll has put into the array. -/
def pollLoop (p : Poller) (c : CqCall) (wcs : Nat → RcWc) (ne : Nat) (s : CqState) : CqState :=
  match p with
  | .emptyCompletionQueue => (List.range ne).foldl (CqState.emptyStep c wcs) s
  | .waitForMajority => (List.range (ne % 256)).foldl (CqState.majorityStep c wcs) s
  | .waitForOne => (List.range (ne % 256)).foldl (CqState.oneStep c wcs) s

/-- Each of the completions was examined once, and everything was read from the same one. -/
def OwnData (ne : Nat) (reads : List WcRead) : Prop :=
  reads.map WcRead.wrId = List.range ne ∧
    ∀ r ∈ reads, (∀ i ∈ r.status, i = r.wrId) ∧ ∀ i ∈ r.lr, i = r.wrId

variable {c : CqCall} {wcs : Nat → RcWc} {s t u : CqState} {sv : LrState} {qp : RcQp}
  {wrId conn ne i : Nat} {rc : WcResult} {f : LrState → LrState}

/-! ### One iteration -/

/-- Both parts of what happens to a QP. -/
theorem RcQp.complete_eq : qp.complete wrId rc =
    if rc = .failure then (qp.checkSignaled wrId).fail (qp.canRestart wrId)
    else qp.checkSignaled wrId := by
  unfold RcQp.complete RcQp.checkSignaled RcQp.isSignaled RcQp.canRestart RcQp.fail
  by_cases hfound : qp.signaledWrId ≠ 0 ∧ wrId = qp.signaledWrId
  · by_cases hrc : rc = .failure
    · simp [hfound, hrc]
    · simp [hfound, hrc]
  · by_cases hrc : rc = .failure
    · simp [hfound, hrc]
    · simp [hfound, hrc]

/-- Log replication is not affected by what else is kept for a server. -/
theorem handleLrWorkCompletion_setQp (qp : RcQp) (ssn : Nat) :
    LrState.handleLrWorkCompletion { sv with qp := qp, lastGetReadSsn := ssn } wrId rc =
      { sv.handleLrWorkCompletion wrId rc with qp := qp, lastGetReadSsn := ssn } := by
  unfold LrState.handleLrWorkCompletion
  dsimp only
  split
  · rfl
  · split <;> split <;> (try split) <;> rfl

/-- What is looked at before the status, on the LOG QP. -/
theorem LrState.check_log (sv : LrState) : sv.check true wrId =
    { sv with
      qp := sv.qp.checkSignaled wrId
      lastGetReadSsn := if sv.lastGetReadSsn ≤ wridGetSsn wrId then 0 else sv.lastGetReadSsn } := by
  unfold LrState.check LrState.checkGetRead
  by_cases hssn : sv.lastGetReadSsn ≤ wridGetSsn wrId
  · simp [hssn]
  · simp [hssn]

theorem handleLrWorkCompletion_failCount (sv : LrState) :
    (sv.handleLrWorkCompletion wrId rc).failCount = sv.failCount := by
  unfold LrState.handleLrWorkCompletion
  split
  · rfl
  · split <;> split <;> (try split) <;> rfl

/-- The body of the loop as the model of log replication has it, in the order of the source. -/
theorem LrState.handleCompletion_eq (sv : LrState) : sv.handleCompletion wrId rc =
    match rc with
    | .success => { (sv.check true wrId).handleLrWorkCompletion wrId .success with failCount := 0 }
    | .failure => ((sv.check true wrId).handleLrWorkCompletion wrId .failure).fail true
        (sv.qp.canRestart wrId)
    | rc => (sv.check true wrId).handleLrWorkCompletion wrId rc := by
  have hfail : (sv.handleLrWorkCompletion wrId rc).failCount = sv.failCount :=
    handleLrWorkCompletion_failCount sv
  rw [handleCompletion, RcQp.complete_eq]
  cases rc with
  | success => simp [check_log, handleLrWorkCompletion_setQp]
  | failure => simp [check_log, handleLrWorkCompletion_setQp, LrState.fail, hfail]
  | softwareBug => simp [check_log, handleLrWorkCompletion_setQp, hfail]
  | error => simp [check_log, handleLrWorkCompletion_setQp, hfail]

@[simp] theorem CqState.update_servers (s : CqState) (conn : Nat) (f : LrState → LrState) :
    (s.update conn f).servers conn = f (s.servers conn) := Function.update_self ..

/-- **The iteration of `empty_completion_queue` does to the server of its completion what the model of
    log replication says**, as long as the byte handed on is its index. -/
theorem CqState.emptyStep_servers (hlog : c.logQp = true) (hi : i < 256) :
    (emptyStep c wcs s i).servers (wridGetConn (wcs i).wrId) =
      (s.servers (wridGetConn (wcs i).wrId)).handleCompletion (wcs i).wrId (wcs i).rc := by
  have hmod : i % 256 = i := Nat.mod_eq_of_lt hi
  -- the server once its step of log replication was looked at
  have hlr (rc : WcResult) (t : CqState) (ht : t.servers = (s.update (wridGetConn (wcs i).wrId)
      fun sv => sv.check c.logQp (wcs i).wrId).servers) :
      (t.handleLr wcs i rc).servers (wridGetConn (wcs i).wrId) =
        ((s.servers (wridGetConn (wcs i).wrId)).check true (wcs i).wrId).handleLrWorkCompletion
          (wcs i).wrId rc := by
    rw [handleLr, hmod, update_servers, ht, update_servers, hlog]
  rw [LrState.handleCompletion_eq]
  unfold emptyStep emptySettle
  dsimp only
  cases (wcs i).rc with
  | success =>
    dsimp only
    split
    · dsimp only
      rw [update_servers, hlr _ _ (by split <;> rfl)]
    · rw [update_servers, hlr _ _ (by split <;> rfl)]
  | failure =>
    dsimp only
    split
    · dsimp only
      rw [update_servers, hlr _ _ (by split <;> rfl), hlog]
    · rw [update_servers, hlr _ _ (by split <;> rfl), hlog]
  | softwareBug => exact hlr _ _ (by split <;> rfl)
  | error => exact hlr _ _ (by split <;> rfl)

/-! ### What an iteration reads -/

/-- What an iteration changes neither in the connections nor in the record. -/
structure Quiet (s t : CqState) : Prop where
  reads : t.reads = s.reads
  connected : ∀ k, (t.servers k).rcConnected = (s.servers k).rcConnected

theorem Quiet.refl (s : CqState) : Quiet s s := ⟨rfl, fun _ => rfl⟩

theorem Quiet.trans (h : Quiet s t) (h' : Quiet t u) : Quiet s u :=
  ⟨h'.reads.trans h.reads, fun k => (h'.connected k).trans (h.connected k)⟩

theorem Quiet.update (hf : ∀ sv, (f sv).rcConnected = sv.rcConnected) : Quiet s (s.update conn f) where
  reads := rfl
  connected := by
    intro k
    by_cases hk : k = conn
    · subst hk
      simp [hf]
    · simp [CqState.update, Function.update_of_ne hk]

theorem handleLrWorkCompletion_rcConnected (sv : LrState) :
    (sv.handleLrWorkCompletion wrId rc).rcConnected = sv.rcConnected := by
  unfold LrState.handleLrWorkCompletion
  split
  · rfl
  · split <;> split <;> (try split) <;> rfl

theorem Quiet.handleLr : Quiet s (s.handleLr wcs i rc) :=
  .update handleLrWorkCompletion_rcConnected

theorem Quiet.check : Quiet s (s.update conn fun sv => sv.check c.logQp wrId) := by
  refine .update fun sv => ?_
  unfold LrState.check LrState.checkGetRead
  dsimp only
  split <;> rfl

theorem Quiet.waitCheck : Quiet s (s.waitCheck c wrId) := by
  have hcheck : Quiet s (s.update (wridGetConn wrId) fun sv => sv.check c.logQp wrId) := .check
  unfold CqState.waitCheck
  dsimp only
  split
  · exact ⟨hcheck.reads, hcheck.connected⟩
  · exact hcheck

theorem Quiet.fail {canRestart : Bool} :
    Quiet s (s.update conn fun sv => sv.fail c.logQp canRestart) := .update fun _ => rfl

theorem Quiet.succeed : Quiet s (s.update conn fun sv => { sv with failCount := 0 }) :=
  .update fun _ => rfl

theorem Quiet.counted {posted : Nat → Int} {successes : UInt8} (h : Quiet s t) :
    Quiet s { t with posted := posted, successes := successes } := ⟨h.reads, h.connected⟩

theorem Quiet.emptySettle {canRestart : Bool} : Quiet s (s.emptySettle c wrId canRestart rc) := by
  unfold CqState.emptySettle
  cases rc with
  | success =>
    dsimp only
    split
    · exact Quiet.counted .succeed
    · exact .succeed
  | failure =>
    dsimp only
    split
    · exact Quiet.counted .fail
    · exact .fail
  | softwareBug => exact .refl s
  | error => exact .refl s

theorem Quiet.majoritySettle {canRestart : Bool} :
    Quiet s (s.majoritySettle c wrId canRestart rc) := by
  unfold CqState.majoritySettle
  cases rc with
  | success =>
    dsimp only
    split
    · exact .succeed
    · exact Quiet.counted .succeed
  | failure => exact .fail
  | softwareBug => exact .refl s
  | error => exact .refl s

theorem Quiet.oneSettle {canRestart : Bool} : Quiet s (s.oneSettle c wrId canRestart rc) := by
  unfold CqState.oneSettle
  cases rc with
  | success =>
    dsimp only
    split
    · exact Quiet.counted .succeed
    · exact .succeed
  | failure => exact .fail
  | softwareBug => exact .refl s
  | error => exact .refl s

/-- The server of a completion is connected. -/
def CqState.isConnected (s : CqState) (wcs : Nat → RcWc) (i : Nat) : Bool :=
  (s.servers (wridGetConn (wcs i).wrId)).rcConnected

/-- The elements that an iteration of a function reads. -/
def readsOf (p : Poller) (connected : Nat → Bool) (i : Nat) : WcRead :=
  match p with
  | .emptyCompletionQueue => ⟨i, some i, some (i % 256)⟩
  | _ => if connected i then ⟨i, some 0, some (i % 256)⟩ else ⟨i, none, none⟩

/-- What an iteration records; the connections stay. -/
structure Records (p : Poller) (wcs : Nat → RcWc) (i : Nat) (s s' : CqState) : Prop where
  reads : s'.reads = s.reads ++ [readsOf p (s.isConnected wcs) i]
  connected : ∀ k, (s'.servers k).rcConnected = (s.servers k).rcConnected

theorem Quiet.records {p : Poller} {r : WcRead} (h : Quiet s t)
    (hr : r = readsOf p (s.isConnected wcs) i) :
    Records p wcs i s { t with reads := t.reads ++ [r] } :=
  ⟨by rw [h.reads, hr], h.connected⟩

theorem records_emptyStep : Records .emptyCompletionQueue wcs i s (s.emptyStep c wcs i) := by
  have hcheck : Quiet s (s.update (wridGetConn (wcs i).wrId) fun sv => sv.check c.logQp (wcs i).wrId) :=
    .check
  refine Quiet.records (Quiet.trans ?_ .emptySettle) rfl
  refine Quiet.trans ?_ .handleLr
  split
  · exact ⟨hcheck.reads, hcheck.connected⟩
  · exact hcheck

theorem records_waitStep {p : Poller} {settle : CqState → Nat → Bool → WcResult → CqState}
    (hp : p ≠ .emptyCompletionQueue)
    (hsettle : ∀ s wrId canRestart rc, Quiet s (settle s wrId canRestart rc)) :
    Records p wcs i s (s.waitStep c wcs settle i) := by
  have hreads (connected : Nat → Bool) : readsOf p connected i =
      if connected i then ⟨i, some 0, some (i % 256)⟩ else ⟨i, none, none⟩ := by
    cases p with
    | emptyCompletionQueue => exact absurd rfl hp
    | waitForMajority => rfl
    | waitForOne => rfl
  have hcheck : Quiet s (s.waitCheck c (wcs i).wrId) := .waitCheck
  unfold CqState.waitStep
  dsimp only
  rw [hcheck.connected]
  split
  · rename_i hconn
    refine hcheck.records ?_
    rw [hreads, if_neg]
    simpa [CqState.isConnected] using hconn
  · rename_i hconn
    refine Quiet.records ((hcheck.trans .handleLr).trans (hsettle _ _ _ _)) ?_
    rw [hreads, if_pos]
    simpa [CqState.isConnected] using hconn

/-! ### The loops -/

/-- The elements that a loop reads. -/
theorem reads_foldl {p : Poller} {step : CqState → Nat → CqState}
    (hstep : ∀ s i, Records p wcs i s (step s i)) (is : List Nat) :
    (is.foldl step s).reads = s.reads ++ is.map (readsOf p (s.isConnected wcs)) := by
  induction is generalizing s with
  | nil => simp
  | cons i is ih =>
    have hconn : (step s i).isConnected wcs = s.isConnected wcs := by
      funext k
      exact (hstep s i).connected _
    rw [List.foldl_cons, ih, (hstep s i).reads, hconn, List.append_assoc]
    rfl

/-- A whole loop. -/
theorem reads_pollLoop (p : Poller) (c : CqCall) (wcs : Nat → RcWc) (ne : Nat) (s : CqState) :
    (pollLoop p c wcs ne s).reads = s.reads ++
      (List.range (if p = .emptyCompletionQueue then ne else ne % 256)).map
        (readsOf p (s.isConnected wcs)) := by
  cases p with
  | emptyCompletionQueue => exact reads_foldl (fun s i => records_emptyStep) _
  | waitForMajority =>
    exact reads_foldl (fun s i => records_waitStep (by decide) fun _ _ _ _ => .majoritySettle) _
  | waitForOne =>
    exact reads_foldl (fun s i => records_waitStep (by decide) fun _ _ _ _ => .oneSettle) _

/-- What the iterations for one batch read. -/
def batchReads (p : Poller) (c : CqCall) (wcs : Nat → RcWc) (ne : Nat) (s : CqState) : List WcRead :=
  (pollLoop p c wcs ne { s with reads := [] }).reads

/-- Every iteration reads the identifier of the request at its own index. -/
theorem readsOf_wrId (p : Poller) (connected : Nat → Bool) (i : Nat) :
    (readsOf p connected i).wrId = i := by
  unfold readsOf
  split
  · rfl
  · split <;> rfl

theorem ownData_map (p : Poller) (connected : Nat → Bool) (n ne : Nat) :
    OwnData ne ((List.range n).map (readsOf p connected)) ↔ n = ne ∧ ∀ i < n,
      (∀ k ∈ (readsOf p connected i).status, k = i) ∧ ∀ k ∈ (readsOf p connected i).lr, k = i := by
  have hids : ((List.range n).map (readsOf p connected)).map WcRead.wrId = List.range n := by
    simp [List.map_map, Function.comp_def, readsOf_wrId]
  have hrange : List.range n = List.range ne ↔ n = ne := by
    refine ⟨fun h => ?_, fun h => h ▸ rfl⟩
    have hlength := congrArg List.length h
    rwa [List.length_range, List.length_range] at hlength
  rw [OwnData, hids, hrange]
  simp only [List.forall_mem_map, List.mem_range, readsOf_wrId]

/-- **When every polled completion is processed once, with its own data**: in `empty_completion_queue`
    as long as the index fits in a byte; in the waiting functions, if moreover all completions but the
    first are of servers that are not connected. -/
theorem ownData_iff (p : Poller) (c : CqCall) (wcs : Nat → RcWc) (ne : Nat) (s : CqState) :
    OwnData ne (batchReads p c wcs ne s) ↔
      if p = .emptyCompletionQueue then ne ≤ 256
      else ne < 256 ∧ ∀ i, 0 < i → i < ne → s.isConnected wcs i = false := by
  have hconn : CqState.isConnected { s with reads := [] } wcs = s.isConnected wcs := rfl
  rw [batchReads, reads_pollLoop, List.nil_append, ownData_map, hconn]
  by_cases hp : p = .emptyCompletionQueue
  · subst hp
    simp only [if_true, readsOf, Option.mem_def, Option.some.injEq, forall_eq', true_and]
    constructor
    · intro h
      by_contra hmany
      -- the index 256 is handed on as 0
      have hmod := h 256 (by omega)
      omega
    · intro h i hi
      exact Nat.mod_eq_of_lt (by omega)
  · have hreads (i : Nat) : readsOf p (s.isConnected wcs) i =
        if s.isConnected wcs i then ⟨i, some 0, some (i % 256)⟩ else ⟨i, none, none⟩ := by
      cases p with
      | emptyCompletionQueue => exact absurd rfl hp
      | waitForMajority => rfl
      | waitForOne => rfl
    rw [if_neg hp, if_neg hp]
    constructor
    · rintro ⟨hall, h⟩
      refine ⟨hall ▸ Nat.mod_lt ne (by decide), fun i hpos hi => ?_⟩
      by_contra hconnected
      have hread := (h i (by omega)).1
      rw [hreads, if_pos (Bool.not_eq_false _ ▸ hconnected)] at hread
      exact absurd (hread 0 rfl) (by omega)
    · rintro ⟨hlt, h⟩
      refine ⟨Nat.mod_eq_of_lt hlt, fun i hi => ?_⟩
      rw [hreads]
      split
      · rename_i hconnected
        have hzero : i = 0 := by
          by_contra hne
          rw [h i (Nat.pos_of_ne_zero hne) (by omega)] at hconnected
          cases hconnected
        subst hzero
        simp
      · simp

/-- The waiting functions call for servers 1 and 2, to each of which one request of round 1 was posted. -/
def twoPosted : CqState :=
  ⟨fun _ => followerOf (logOf 0 0 64 zeroMem) .getWrite 0 0, fun i => if i = 0 then -1 else 1, 2, 0,
    false, []⟩

/-- One poll finds both completions; that of server 2 is a failure. -/
def twoWcs (i : Nat) : RcWc := if i = 0 then ⟨1024 + 1, .success⟩ else ⟨1024 + 2, .failure⟩

def majorityCall : CqCall := ⟨false, 1, 0, true, 3⟩

/-- Server 2 is taken for successful, by the status of server 1. -/
theorem not_ownData :
    batchReads .waitForMajority majorityCall twoWcs 2 twoPosted =
        [⟨0, some 0, some 0⟩, ⟨1, some 0, some 1⟩] ∧
      (twoWcs 1).rc = .failure ∧
      (pollLoop .waitForMajority majorityCall twoWcs 2 twoPosted).posted 2 = 0 ∧
      ¬OwnData 2 (batchReads .waitForMajority majorityCall twoWcs 2 twoPosted) := by
  have hreads : batchReads .waitForMajority majorityCall twoWcs 2 twoPosted =
      [⟨0, some 0, some 0⟩, ⟨1, some 0, some 1⟩] := by
    decide +kernel
  refine ⟨hreads, by decide, by decide +kernel, ?_⟩
  rw [hreads]
  rintro ⟨-, hown⟩
  have hzero := (hown ⟨1, some 0, some 1⟩ (by simp)).1 0 rfl
  cases hzero

/-! ### What the elections see of it -/

/-- The same results, in the model of the elections. -/
def WcResult.toStatus : WcResult → WcStatus
  | .success => .success
  | .failure => .failure
  | .softwareBug => .softwareBug
  | .error => .error

/-- A completion as `wait_for_majority` counts it. -/
def RcWc.toCompletion (c : CqCall) (wc : RcWc) : WorkCompletion :=
  ⟨wridGetConn wc.wrId, wridGetSsn wc.wrId == c.ssn, wc.rc.toStatus⟩

/-- The variables of `wait_for_majority`. -/
def CqState.waiting (s : CqState) : Waiting := ⟨s.posted, s.successes, s.pending⟩

@[simp] theorem CqState.waiting_update (s : CqState) (conn : Nat) (f : LrState → LrState) :
    (s.update conn f).waiting = s.waiting := rfl

@[simp] theorem CqState.waiting_handleLr (s : CqState) (wcs : Nat → RcWc) (idx : Nat) (rc : WcResult) :
    (s.handleLr wcs idx rc).waiting = s.waiting := rfl

/-- A successful completion of this round counts, and no other does. -/
theorem CqState.waiting_majoritySettle {size : UInt8} {canRestart : Bool}
    (hsize : c.size = size.toNat) (hssn : wridGetSsn wrId ≤ c.ssn) :
    (s.majoritySettle c wrId canRestart rc).waiting =
      if rc.toStatus ≠ .success then s.waiting
      else if !decide (wridGetSsn wrId = c.ssn) then s.waiting
      else
        let left := s.waiting.posted (wridGetConn wrId) - 1
        { s.waiting with
          posted := Function.update s.waiting.posted (wridGetConn wrId) left
          successes :=
            if left = 0 ∧ wridGetConn wrId < size.toNat then s.waiting.successes + 1
            else s.waiting.successes } := by
  unfold majoritySettle
  cases rc with
  | success =>
    have hstatus : ¬WcResult.success.toStatus ≠ .success := fun h => h rfl
    rw [if_neg hstatus]
    dsimp only
    by_cases hold : wridGetSsn wrId < c.ssn
    · have hne : wridGetSsn wrId ≠ c.ssn := by omega
      rw [if_pos hold, if_pos (by simp [hne])]
      rfl
    · have heq : wridGetSsn wrId = c.ssn := by omega
      rw [if_neg hold, ← hsize]
      simp only [heq, decide_true, Bool.not_true, Bool.false_eq_true, if_false]
      rfl
  | failure => exact (if_pos (by decide)).symm
  | softwareBug => exact (if_pos (by decide)).symm
  | error => exact (if_pos (by decide)).symm

theorem CqState.waiting_waitCheck (s : CqState) : (s.waitCheck c wrId).waiting =
    if wridGetSsn wrId = c.ssn then { s.waiting with pending := s.waiting.pending - 1 }
    else s.waiting := by
  unfold waitCheck
  dsimp only
  split <;> rfl

/-- An iteration counts what the model of the elections counts. -/
theorem CqState.waiting_majorityStep {size : UInt8} (hsize : c.size = size.toNat)
    (hssn : wridGetSsn (wcs i).wrId ≤ c.ssn) :
    (s.majorityStep c wcs i).waiting =
      waitBatch size (fun k => (s.servers k).rcConnected) (wcs 0).rc.toStatus s.waiting
        [(wcs i).toCompletion c] := by
  have hcheck : Quiet s (s.waitCheck c (wcs i).wrId) := .waitCheck
  have hwaiting : (s.waitCheck c (wcs i).wrId).waiting =
      if ((wcs i).toCompletion c).current then { s.waiting with pending := s.waiting.pending - 1 }
      else s.waiting := by
    rw [waiting_waitCheck]
    simp [RcWc.toCompletion]
  unfold majorityStep waitStep
  dsimp only
  rw [hcheck.connected, waitBatch, waitBatch, ← hwaiting]
  cases hconn : (s.servers (wridGetConn (wcs i).wrId)).rcConnected with
  | false =>
    have hconn' : (s.servers ((wcs i).toCompletion c).conn).rcConnected = false := hconn
    rw [hconn']
    rfl
  | true =>
    have hconn' : (s.servers ((wcs i).toCompletion c).conn).rcConnected = true := hconn
    rw [hconn']
    exact waiting_majoritySettle hsize hssn

/-- **The loop of `wait_for_majority` counts what the model of the elections counts.** -/
theorem waiting_pollLoop {size : UInt8} (hsize : c.size = size.toNat)
    (hssn : ∀ i, wridGetSsn (wcs i).wrId ≤ c.ssn) :
    (pollLoop .waitForMajority c wcs ne s).waiting =
      waitBatch size (fun k => (s.servers k).rcConnected) (wcs 0).rc.toStatus s.waiting
        (examined ((List.range ne).map fun i => (wcs i).toCompletion c)) := by
  have hloop (is : List Nat) (s : CqState) :
      (is.foldl (CqState.majorityStep c wcs) s).waiting =
        waitBatch size (fun k => (s.servers k).rcConnected) (wcs 0).rc.toStatus s.waiting
          (is.map fun i => (wcs i).toCompletion c) := by
    induction is generalizing s with
    | nil => rfl
    | cons i is ih =>
      have hconn : (fun k => ((s.majorityStep c wcs i).servers k).rcConnected) =
          fun k => (s.servers k).rcConnected := by
        funext k
        exact (records_waitStep (p := .waitForMajority) (by decide) fun _ _ _ _ =>
          .majoritySettle).connected k
      rw [List.foldl_cons, ih, hconn, CqState.waiting_majorityStep hsize (hssn i)]
      rfl
  have htake : examined ((List.range ne).map fun i => (wcs i).toCompletion c) =
      (List.range (ne % 256)).map fun i => (wcs i).toCompletion c := by
    rw [examined, List.length_map, List.length_range, ← List.map_take, List.take_range,
      Nat.min_eq_left (Nat.mod_le ne 256)]
  rw [htake]
  exact hloop _ s

end Apus
