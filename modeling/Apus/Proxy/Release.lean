import Apus.Lib.Run
import Apus.Proxy.Records

namespace Apus

open Lib

/-!
# Client requests

A client thread of the leader's server hands its request to the DARE thread and waits
(`leader_handle_submit_req`).  What it waits for is that `highest_rec`, which counts the client
entries the server applied as leader, reaches the number of its request in `cur_rec`.

* `submitReq`, `getTailqMessage`, `applyEntry` — the request, the queue, and the counter;
* `releaseStep` — client threads, the DARE thread and the other servers in any order;
* `releases_applied` — when the counters agree, a request returns after its own entry is applied;
* `released_early` — once they disagree, a request returns before.

The log is the list of its entries, each with the request it was created for.  Other servers write
it at any time, so that it may hold the entries of any former leader, and lose those of this server.
-/

/-! ### The proxy -/

/-- `socket_pair`. -/
structure SocketPair where
  cltId : Nat
  reqId : UInt64
  connectionId : UInt16

/-- The fields of `proxy_node` that requests use. -/
structure ProxyNode where
  leaderHashMap : Nat → Option SocketPair
  highestRec : UInt64
  curRec : UInt64
  pairCount : UInt8

/-- `tailq_entry_t`, with the number of the request. -/
structure TailqEntry where
  reqId : UInt64
  connectionId : UInt16
  type : UInt8
  cmd : SmCmd
  request : Nat

/-- `gen_key`. -/
def genKey (nodeId nodeCount : UInt8) : UInt16 := nodeId.toUInt16 <<< 8 ||| nodeCount.toUInt16

/-- The command of a request: its length is stored in an `uint16_t`. -/
def requestCmd (data : List UInt8) : SmCmd where
  cmd := data.take (data.length % 2 ^ 16)
  len_lt := by
    rw [List.length_take]
    omega

/-- The part of `leader_handle_submit_req` under the lock; `none` if no pair is found. -/
def submitReq (proxy : ProxyNode) (nodeId type : UInt8) (cltId : Nat) (data : List UInt8)
    (request : Nat) : Option (ProxyNode × TailqEntry) :=
  let proxy := { proxy with curRec := proxy.curRec + 1 }
  if type = CONNECT then
    let pair : SocketPair := ⟨cltId, 1, genKey nodeId proxy.pairCount⟩
    some ({ proxy with
        pairCount := proxy.pairCount + 1
        leaderHashMap := Function.update proxy.leaderHashMap cltId (some pair) },
      ⟨pair.reqId, pair.connectionId, type, requestCmd data, request⟩)
  else
    (proxy.leaderHashMap cltId).map fun pair =>
      let pair := { pair with reqId := pair.reqId + 1 }
      let kept := if type = CLOSE then none else some pair
      ({ proxy with leaderHashMap := Function.update proxy.leaderHashMap cltId kept },
        ⟨pair.reqId, pair.connectionId, type, requestCmd data, request⟩)

/-- `update_highest_rec`. -/
def updateHighestRec (proxy : ProxyNode) : ProxyNode :=
  { proxy with highestRec := proxy.highestRec + 1 }

/-! ### The server -/

/-- A thread of the application. -/
inductive ClientThread
  | idle
  /-- It has seen that the server is leader. -/
  | entered (type : UInt8) (cltId : Nat) (data : List UInt8)
  /-- It waits until `highest_rec` is `cur_rec`. -/
  | waiting (curRec : UInt64) (request : Nat)

/-- An entry of the log, with the request of this server it was created for. -/
structure TracedEntry where
  entry : DareLogEntry
  request : Option Nat
  deriving DecidableEq

structure ReleaseState where
  nodeId : UInt8
  term : UInt64
  isLeader : Bool
  proxy : ProxyNode
  tailq : List TailqEntry
  log : List TracedEntry
  commit : Nat
  apply : Nat
  threads : Nat → ClientThread
  /-- The number of requests so far. -/
  requests : Nat
  /-- The entries created for requests. -/
  created : List TracedEntry
  /-- The requests whose entry `apply_committed_entries` applied. -/
  applied : List Nat
  /-- The requests for which `leader_handle_submit_req` returned. -/
  returned : List Nat

namespace ReleaseState

/-- The index of a new entry. -/
def newIdx (s : ReleaseState) : UInt64 :=
  match s.log.getLast? with
  | some last => last.entry.idx + 1
  | none => 1

/-- `log_append_entry` for an entry of the queue; in a full log it has no effect. -/
def appendRequest (s : ReleaseState) (full : Bool) (n : TailqEntry) : ReleaseState :=
  if full then s
  else
    let e : TracedEntry :=
      ⟨mkEntry s.newIdx s.term n.reqId n.connectionId n.type { cmd := n.cmd }, some n.request⟩
    { s with log := s.log ++ [e], created := s.created ++ [e] }

/-- `get_tailq_message`; `full` says for which requests the log is full. -/
def getTailqMessage (s : ReleaseState) (full : Nat → Bool) : ReleaseState :=
  { s.tailq.foldl (fun s n => s.appendRequest (full n.request) n) s with tailq := [] }

/-- An iteration of the loop of `apply_committed_entries`: on a leader, a client entry is counted. -/
def applyEntry (s : ReleaseState) (e : TracedEntry) : ReleaseState :=
  { s with
    proxy := if s.isLeader && isCsm e.entry.type then updateHighestRec s.proxy else s.proxy
    apply := s.apply + 1
    applied := s.applied ++ e.request.toList }

end ReleaseState

/-! ### Runs -/

inductive ReleaseLabel
  /-- `proxy_on_accept`, `proxy_on_read` and `proxy_on_close` on a leader. -/
  | call (t : Nat) (type : UInt8) (cltId : Nat) (data : List UInt8)
  | submit (t : Nat)
  /-- The wait of a thread ends. -/
  | ret (t : Nat)
  | drain (full : Nat → Bool)
  /-- An entry without a request is appended. -/
  | append (type : UInt8) (data : EntryData)
  /-- Other servers write the log and the commit offset. -/
  | replicate (log : List TracedEntry) (commit : Nat)
  | commit (off : Nat)
  | apply
  /-- The server becomes leader, or stops to be one. -/
  | role (term : UInt64) (isLeader : Bool)

/-- The proxy and the log are new. -/
def releaseInit (s : ReleaseState) : Prop :=
  s.proxy.highestRec = 0 ∧ s.proxy.curRec = 0 ∧ s.tailq = [] ∧ s.log = [] ∧ s.apply = 0 ∧
    (∀ t, s.threads t = .idle) ∧ s.requests = 0 ∧ s.created = [] ∧ s.applied = [] ∧ s.returned = []

/-- One step. -/
def releaseStep (s : ReleaseState) : ReleaseLabel → Option ReleaseState
  | .call t type cltId data =>
    match s.threads t with
    | .idle =>
      if s.isLeader then
        some { s with threads := Function.update s.threads t (.entered type cltId data) }
      else none
    | _ => none
  | .submit t =>
    match s.threads t with
    | .entered type cltId data =>
      (submitReq s.proxy s.nodeId type cltId data (s.requests + 1)).map fun r =>
        { s with
          proxy := r.1
          tailq := s.tailq ++ [r.2]
          requests := s.requests + 1
          threads := Function.update s.threads t (.waiting r.1.curRec (s.requests + 1)) }
    | _ => none
  | .ret t =>
    match s.threads t with
    | .waiting curRec request =>
      if s.proxy.highestRec < curRec then none
      else some { s with
        threads := Function.update s.threads t .idle
        returned := s.returned ++ [request] }
    | _ => none
  | .drain full => some (s.getTailqMessage full)
  | .append type data =>
    if isCsm type then none
    else some { s with log := s.log ++ [⟨mkEntry s.newIdx s.term 0 0 type data, none⟩] }
  | .replicate log commit =>
    -- an entry of a request is one that was created for it
    if ∀ e ∈ log, e.request = none ∨ e ∈ s.created then some { s with log := log, commit := commit }
    else none
  | .commit off => some { s with commit := off }
  | .apply =>
    match s.log[s.apply]? with
    | none => none
    | some e => if s.apply < s.commit then some (s.applyEntry e) else none
  | .role term isLeader => some { s with term := term, isLeader := isLeader }

abbrev ReleaseStep (s : ReleaseState) (l : ReleaseLabel) (s' : ReleaseState) : Prop :=
  releaseStep s l = some s'

/-- A request returns only after its own entry is applied. -/
def ReleasesApplied (s : ReleaseState) : Prop := ∀ r ∈ s.returned, r ∈ s.applied

/-- A client entry that the leader applies is that of the next request to be counted, or the entry
    of that request was applied before; `cur_rec` does not wrap around. -/
def releaseOk (s : ReleaseState) : ReleaseLabel → Prop
  | .submit _ => s.proxy.curRec.toNat + 1 < 2 ^ 64
  | .apply => s.isLeader = true → ∀ e, s.log[s.apply]? = some e → isCsm e.entry.type = true →
      e.request = some (s.proxy.highestRec.toNat + 1) ∨ s.proxy.highestRec.toNat + 1 ∈ s.applied
  | _ => True

variable {s s' : ReleaseState} {l : ReleaseLabel}

/-! ### The counters -/

/-- The invariant of the runs. -/
structure ReleaseInv (s : ReleaseState) : Prop where
  /-- The entries of the requests counted by `highest_rec` were applied. -/
  counted : ∀ r, 1 ≤ r → r ≤ s.proxy.highestRec.toNat → r ∈ s.applied
  curRec : s.proxy.curRec.toNat = s.requests
  waiting : ∀ t c r, s.threads t = .waiting c r → c.toNat = r ∧ 1 ≤ r
  returned : ReleasesApplied s
  /-- Every request waits or has returned. -/
  accounted : ∀ r, 1 ≤ r → r ≤ s.requests → r ∈ s.returned ∨ ∃ t c, s.threads t = .waiting c r
  /-- Some thread is idle. -/
  idle : ∃ n, ∀ t, n ≤ t → s.threads t = .idle
  /-- Entries are created for requests made. -/
  tailq : ∀ q ∈ s.tailq, q.request ≤ s.requests
  created : ∀ e ∈ s.created, ∀ r, e.request = some r → r ≤ s.requests
  log : ∀ e ∈ s.log, e.request = none ∨ e ∈ s.created
  applied : ∀ r ∈ s.applied, r ≤ s.requests

theorem submitReq_spec {proxy : ProxyNode} {nodeId type : UInt8} {cltId request : Nat}
    {data : List UInt8} {r : ProxyNode × TailqEntry}
    (h : submitReq proxy nodeId type cltId data request = some r) :
    r.1.curRec = proxy.curRec + 1 ∧ r.1.highestRec = proxy.highestRec ∧ r.2.request = request := by
  simp only [submitReq] at h
  split at h
  · obtain rfl := Option.some.inj h
    exact ⟨rfl, rfl, rfl⟩
  · obtain ⟨pair, -, rfl⟩ := Option.map_eq_some_iff.mp h
    exact ⟨rfl, rfl, rfl⟩

/-- Appending the entries of the queue. -/
theorem foldl_appendRequest (full : Nat → Bool) (ns : List TailqEntry) (s : ReleaseState) :
    ∃ es, (∀ e ∈ es, ∃ n ∈ ns, e.request = some n.request) ∧
      ns.foldl (fun s n => s.appendRequest (full n.request) n) s =
        { s with log := s.log ++ es, created := s.created ++ es } := by
  induction ns generalizing s with
  | nil => exact ⟨[], by simp, by simp⟩
  | cons n ns ih =>
    obtain ⟨es, hes, heq⟩ := ih (s.appendRequest (full n.request) n)
    rw [List.foldl_cons, heq]
    have hmem : ∀ e ∈ es, ∃ q ∈ n :: ns, e.request = some q.request := by
      intro e he
      obtain ⟨q, hq, hreq⟩ := hes e he
      exact ⟨q, List.mem_cons_of_mem n hq, hreq⟩
    cases hfull : full n.request with
    | true => exact ⟨es, hmem, by simp [ReleaseState.appendRequest]⟩
    | false =>
      refine ⟨_ :: es, ?_, by simp [ReleaseState.appendRequest]; rfl⟩
      intro e he
      rcases List.mem_cons.mp he with rfl | he
      · exact ⟨n, List.mem_cons_self, rfl⟩
      · exact hmem e he

namespace ReleaseInv

/-- A thread enters, or leaves, while nobody waits in its place. -/
theorem setThread {t : Nat} {c : ClientThread} (h : ReleaseInv s)
    (hold : ∀ c' r, s.threads t ≠ .waiting c' r) (hnew : ∀ c' r, c ≠ .waiting c' r) :
    ReleaseInv { s with threads := Function.update s.threads t c } where
  counted := h.counted
  curRec := h.curRec
  waiting := by
    intro t' c' r ht'
    simp only at ht'
    -- the thread of the step does not wait
    by_cases htt : t' = t
    · subst htt
      rw [Function.update_self] at ht'
      exact absurd ht' (hnew c' r)
    · rw [Function.update_of_ne htt] at ht'
      exact h.waiting t' c' r ht'
  returned := h.returned
  accounted := by
    intro r hpos hle
    rcases h.accounted r hpos hle with hret | ⟨t', c', ht'⟩
    · exact .inl hret
    · refine .inr ⟨t', c', ?_⟩
      have htt : t' ≠ t := by
        rintro rfl
        exact hold c' r ht'
      simp only [Function.update_of_ne htt]
      exact ht'
  idle := by
    obtain ⟨n, hn⟩ := h.idle
    refine ⟨max n (t + 1), ?_⟩
    intro t' ht'
    have htt : t' ≠ t := by omega
    simp only [Function.update_of_ne htt]
    exact hn t' (by omega)
  tailq := h.tailq
  created := h.created
  log := h.log
  applied := h.applied

theorem submit {t cltId : Nat} {type : UInt8} {data : List UInt8} {r : ProxyNode × TailqEntry}
    (h : ReleaseInv s) (ht : s.threads t = .entered type cltId data)
    (hmax : s.proxy.curRec.toNat + 1 < 2 ^ 64)
    (hr : submitReq s.proxy s.nodeId type cltId data (s.requests + 1) = some r) :
    ReleaseInv { s with
      proxy := r.1
      tailq := s.tailq ++ [r.2]
      requests := s.requests + 1
      threads := Function.update s.threads t (.waiting r.1.curRec (s.requests + 1)) } := by
  obtain ⟨hcur, hhighest, hrequest⟩ := submitReq_spec hr
  have hnext : r.1.curRec.toNat = s.requests + 1 := by
    rw [hcur, UInt64.toNat_add, UInt64.toNat_one, ← h.curRec]
    omega
  refine ⟨?_, hnext, ?_, h.returned, ?_, ?_, ?_, ?_, h.log, ?_⟩
  · intro n hpos hle
    simp only [hhighest] at hle
    exact h.counted n hpos hle
  · intro t' c n ht'
    simp only at ht'
    by_cases htt : t' = t
    · subst htt
      rw [Function.update_self] at ht'
      cases ht'
      exact ⟨hnext, by omega⟩
    · rw [Function.update_of_ne htt] at ht'
      exact h.waiting t' c n ht'
  · intro n hpos hle
    rcases Nat.lt_or_ge s.requests n with hlt | hge
    · -- the new request is that of this thread
      obtain rfl : n = s.requests + 1 := by simp only at hle; omega
      exact .inr ⟨t, r.1.curRec, Function.update_self ..⟩
    · rcases h.accounted n hpos hge with hret | ⟨t', c, ht'⟩
      · exact .inl hret
      · refine .inr ⟨t', c, ?_⟩
        have htt : t' ≠ t := by
          rintro rfl
          rw [ht] at ht'
          cases ht'
        simp only [Function.update_of_ne htt]
        exact ht'
  · obtain ⟨n, hn⟩ := h.idle
    refine ⟨max n (t + 1), ?_⟩
    intro t' ht'
    have htt : t' ≠ t := by omega
    simp only [Function.update_of_ne htt]
    exact hn t' (by omega)
  · intro q hq
    rcases List.mem_append.mp hq with hq | hq
    · exact (h.tailq q hq).trans (Nat.le_succ _)
    · rw [List.mem_singleton.mp hq, hrequest]
  · intro e he n hn
    exact (h.created e he n hn).trans (Nat.le_succ _)
  · intro n hn
    exact (h.applied n hn).trans (Nat.le_succ _)

/-- A thread returns: its request was counted, hence applied. -/
theorem ret {t r : Nat} {c : UInt64} (h : ReleaseInv s) (ht : s.threads t = .waiting c r)
    (hle : ¬ s.proxy.highestRec < c) :
    ReleaseInv { s with
      threads := Function.update s.threads t .idle, returned := s.returned ++ [r] } where
  counted := h.counted
  curRec := h.curRec
  waiting := by
    intro t' c' n ht'
    simp only at ht'
    by_cases htt : t' = t
    · subst htt
      rw [Function.update_self] at ht'
      cases ht'
    · rw [Function.update_of_ne htt] at ht'
      exact h.waiting t' c' n ht'
  returned := by
    intro n hn
    rcases List.mem_append.mp hn with hn | hn
    · exact h.returned n hn
    · -- what the thread waits for was counted
      obtain ⟨hc, hpos⟩ := h.waiting t c r ht
      obtain rfl := List.mem_singleton.mp hn
      rw [UInt64.not_lt, UInt64.le_iff_toNat_le, hc] at hle
      exact h.counted n hpos hle
  accounted := by
    intro n hpos hn
    rcases h.accounted n hpos hn with hret | ⟨t', c', ht'⟩
    · exact .inl (List.mem_append_left _ hret)
    · by_cases htt : t' = t
      · -- the request of this thread is returned
        subst htt
        rw [ht] at ht'
        cases ht'
        exact .inl (by simp)
      · refine .inr ⟨t', c', ?_⟩
        simp only [Function.update_of_ne htt]
        exact ht'
  idle := by
    obtain ⟨n, hn⟩ := h.idle
    refine ⟨n, ?_⟩
    intro t' ht'
    by_cases htt : t' = t
    · subst htt
      exact Function.update_self ..
    · simp only [Function.update_of_ne htt]
      exact hn t' ht'
  tailq := h.tailq
  created := h.created
  log := h.log
  applied := h.applied

theorem drain (h : ReleaseInv s) (full : Nat → Bool) : ReleaseInv (s.getTailqMessage full) := by
  obtain ⟨es, hes, heq⟩ := foldl_appendRequest full s.tailq s
  rw [ReleaseState.getTailqMessage, heq]
  refine ⟨h.counted, h.curRec, h.waiting, h.returned, h.accounted, h.idle, by simp, ?_, ?_,
    h.applied⟩
  · intro e he r hr
    rcases List.mem_append.mp he with he | he
    · exact h.created e he r hr
    · obtain ⟨q, hq, hreq⟩ := hes e he
      rw [hreq] at hr
      cases hr
      exact h.tailq q hq
  · intro e he
    rcases List.mem_append.mp he with he | he
    · exact (h.log e he).imp_right (List.mem_append_left _)
    · exact .inr (List.mem_append_right _ he)

/-- An entry is applied; on a leader it is counted. -/
theorem apply {e : TracedEntry} (h : ReleaseInv s) (he : s.log[s.apply]? = some e)
    (hok : releaseOk s .apply) : ReleaseInv (s.applyEntry e) where
  counted := by
    intro r hpos hle
    simp only [ReleaseState.applyEntry] at hle ⊢
    split at hle
    · rename_i hcount
      obtain ⟨hlead, hcsm⟩ := Bool.and_eq_true_iff.mp hcount
      simp only [updateHighestRec] at hle
      have hstep : (s.proxy.highestRec + 1).toNat ≤ s.proxy.highestRec.toNat + 1 := by
        rw [UInt64.toNat_add, UInt64.toNat_one]
        exact Nat.mod_le _ _
      rcases Nat.lt_or_ge s.proxy.highestRec.toNat r with hlt | hge
      · -- the request just counted
        obtain rfl : r = s.proxy.highestRec.toNat + 1 := by omega
        rcases hok hlead e he hcsm with hreq | happ
        · rw [hreq]
          simp
        · exact List.mem_append_left _ happ
      · exact List.mem_append_left _ (h.counted r hpos hge)
    · exact List.mem_append_left _ (h.counted r hpos hle)
  curRec := by
    have hsame : (s.applyEntry e).proxy.curRec = s.proxy.curRec := by
      simp only [ReleaseState.applyEntry]
      split <;> rfl
    rw [hsame]
    exact h.curRec
  waiting := h.waiting
  returned := fun r hr => List.mem_append_left _ (h.returned r hr)
  accounted := h.accounted
  idle := h.idle
  tailq := h.tailq
  created := h.created
  log := h.log
  applied := by
    intro r hr
    rcases List.mem_append.mp hr with hr | hr
    · exact h.applied r hr
    · rcases h.log e (List.mem_of_getElem? he) with hnone | hcreated
      · rw [hnone] at hr
        cases hr
      · exact h.created e hcreated r (Option.mem_toList.mp hr)

theorem step (h : ReleaseInv s) (hok : releaseOk s l) (hs : ReleaseStep s l s') :
    ReleaseInv s' := by
  cases l with
  | call t type cltId data =>
    simp only [ReleaseStep, releaseStep] at hs
    split at hs
    · rename_i hidle
      split at hs
      · obtain rfl := Option.some.inj hs
        exact h.setThread (by simp [hidle]) (by simp)
      · cases hs
    · cases hs
  | submit t =>
    simp only [ReleaseStep, releaseStep] at hs
    split at hs
    · rename_i ht
      obtain ⟨r, hr, rfl⟩ := Option.map_eq_some_iff.mp hs
      exact h.submit ht hok hr
    · cases hs
  | ret t =>
    simp only [ReleaseStep, releaseStep] at hs
    split at hs
    · rename_i ht
      split at hs
      · cases hs
      · rename_i hle
        obtain rfl := Option.some.inj hs
        exact h.ret ht hle
    · cases hs
  | drain full =>
    obtain rfl := Option.some.inj hs
    exact h.drain full
  | append type data =>
    simp only [ReleaseStep, releaseStep] at hs
    split at hs
    · cases hs
    · obtain rfl := Option.some.inj hs
      refine ⟨h.counted, h.curRec, h.waiting, h.returned, h.accounted, h.idle, h.tailq, h.created,
        ?_, h.applied⟩
      intro e he
      rcases List.mem_append.mp he with he | he
      · exact h.log e he
      · rw [List.mem_singleton.mp he]
        exact .inl rfl
  | replicate log commit =>
    simp only [ReleaseStep, releaseStep] at hs
    split at hs
    · rename_i hlog
      obtain rfl := Option.some.inj hs
      exact ⟨h.counted, h.curRec, h.waiting, h.returned, h.accounted, h.idle, h.tailq, h.created,
        hlog, h.applied⟩
    · cases hs
  | commit off =>
    obtain rfl := Option.some.inj hs
    exact ⟨h.counted, h.curRec, h.waiting, h.returned, h.accounted, h.idle, h.tailq, h.created,
      h.log, h.applied⟩
  | apply =>
    simp only [ReleaseStep, releaseStep] at hs
    split at hs
    · cases hs
    · rename_i e he
      split at hs
      · obtain rfl := Option.some.inj hs
        exact h.apply he hok
      · cases hs
  | role term isLeader =>
    obtain rfl := Option.some.inj hs
    exact ⟨h.counted, h.curRec, h.waiting, h.returned, h.accounted, h.idle, h.tailq, h.created,
      h.log, h.applied⟩

end ReleaseInv

theorem reach_releaseInv (h : Reach releaseInit ReleaseStep releaseOk s) : ReleaseInv s := by
  refine h.invariant ?_ fun s l s' hinv hok hs => hinv.step hok hs
  rintro s ⟨hhighest, hcur, htailq, hlog, -, hidle, hrequests, hcreated, happlied, hreturned⟩
  refine ⟨?_, by simp [hcur, hrequests], ?_, by simp [ReleasesApplied, hreturned], ?_,
    ⟨0, fun t _ => hidle t⟩, by simp [htailq], by simp [hcreated], by simp [hlog],
    by simp [happlied]⟩
  · intro r hpos hle
    rw [hhighest, UInt64.toNat_zero] at hle
    omega
  · intro t c r ht
    rw [hidle t] at ht
    cases ht
  · intro r hpos hle
    omega

/-- **A request returns only after its own entry is applied**, in every run in which each client
    entry applied by the server as leader is that of the next request to be counted. -/
theorem releases_applied (h : Reach releaseInit ReleaseStep releaseOk s) : ReleasesApplied s :=
  (reach_releaseInv h).returned

/-! ### The condition is exact -/

/-- A request that was counted, but whose entry was not applied, can return. -/
theorem ReleaseInv.exists_return {r : Nat} (h : ReleaseInv s) (hpos : 1 ≤ r) (hle : r ≤ s.requests)
    (hnot : r ∉ s.applied) (hs : s'.threads = s.threads)
    (hcounted : r ≤ s'.proxy.highestRec.toNat) :
    ∃ t s'', releaseStep s' (.ret t) = some s'' ∧ r ∈ s''.returned ∧ s''.applied = s'.applied := by
  rcases h.accounted r hpos hle with hret | ⟨t, c, ht⟩
  · exact absurd (h.returned r hret) hnot
  · obtain ⟨hc, -⟩ := h.waiting t c r ht
    have hdone : ¬ s'.proxy.highestRec < c := by
      rw [UInt64.not_lt, UInt64.le_iff_toNat_le]
      omega
    have ht' : s'.threads t = .waiting c r := by
      rw [hs]
      exact ht
    refine ⟨t, { s' with
      threads := Function.update s'.threads t .idle, returned := s'.returned ++ [r] }, ?_, ?_, rfl⟩
    · simp only [releaseStep, ht', if_neg hdone]
    · simp

/-- When the leader applies another client entry instead, a request returns that is not applied:
    one that waits already, or the next one. -/
theorem released_early (h : Reach releaseInit ReleaseStep releaseOk s)
    (hs : ReleaseStep s .apply s') (hbad : ¬ releaseOk s .apply)
    (hmax : s.proxy.highestRec.toNat + 2 < 2 ^ 64) :
    ∃ ls s'', exec releaseStep s' ls = some s'' ∧ ¬ ReleasesApplied s'' := by
  have hinv := reach_releaseInv h
  simp only [releaseOk, not_forall, not_or] at hbad
  obtain ⟨hlead, e, he, hcsm, hreq, happ⟩ := hbad
  obtain rfl : s' = s.applyEntry e := by
    simp only [ReleaseStep, releaseStep, he] at hs
    split at hs
    · exact (Option.some.inj hs).symm
    · cases hs
  generalize hr : s.proxy.highestRec.toNat + 1 = r at *
  have hcount : (s.applyEntry e).proxy.highestRec = s.proxy.highestRec + 1 := by
    simp [ReleaseState.applyEntry, hlead, hcsm, updateHighestRec]
  have hhighest : (s.applyEntry e).proxy.highestRec.toNat = r := by
    rw [hcount, UInt64.toNat_add, UInt64.toNat_one]
    omega
  have hnot : r ∉ (s.applyEntry e).applied := by
    intro hmem
    rcases List.mem_append.mp hmem with hmem | hmem
    · exact happ hmem
    · exact hreq (Option.mem_toList.mp hmem)
  by_cases hle : r ≤ s.requests
  · -- a thread waits for the request
    obtain ⟨t, s'', hstep, hret, happlied⟩ :=
      hinv.exists_return (by omega) hle happ
        (show (s.applyEntry e).threads = s.threads from rfl) hhighest.ge
    refine ⟨[.ret t], s'', by simp [exec, hstep], ?_⟩
    intro hall
    have hmem := hall r hret
    rw [happlied] at hmem
    exact hnot hmem
  · -- the next request is released at once
    have hnext : r = s.requests + 1 := by
      by_cases hzero : s.proxy.highestRec.toNat = 0
      · omega
      · have hlast := hinv.applied _ (hinv.counted _ (by omega) (le_refl _))
        omega
    obtain ⟨n, hn⟩ := hinv.idle
    have hcur : (s.proxy.curRec + 1).toNat = r := by
      rw [UInt64.toNat_add, UInt64.toNat_one, hinv.curRec]
      omega
    have hdone : ¬ s.proxy.highestRec + 1 < s.proxy.curRec + 1 := by
      rw [UInt64.not_lt, UInt64.le_iff_toNat_le, hcur, ← hcount, hhighest]
    have hcurRec : (s.applyEntry e).proxy.curRec = s.proxy.curRec := by
      simp [ReleaseState.applyEntry, hlead, hcsm, updateHighestRec]
    have hidle : (s.applyEntry e).threads n = .idle := hn n (le_refl n)
    have hlead' : (s.applyEntry e).isLeader = true := hlead
    have hrequests : (s.applyEntry e).requests = s.requests := rfl
    generalize s.applyEntry e = t at *
    refine ⟨[.call n CONNECT 0 [], .submit n, .ret n], ?_⟩
    simp only [exec, releaseStep, hidle, hlead', if_true, Option.bind_some, Function.update_self,
      submitReq, Option.map_some, hcount, hcurRec, if_neg hdone]
    refine ⟨_, rfl, ?_⟩
    intro hall
    refine hnot (hall r ?_)
    simp [hnext, hrequests]

/-! ### A request of a new leader -/

section NewLeader

/-- A server that has just started. -/
def releaseStart : ReleaseState where
  nodeId := 0
  term := 0
  isLeader := false
  proxy := ⟨fun _ => none, 0, 0, 0⟩
  tailq := []
  log := []
  commit := 0
  apply := 0
  threads := fun _ => .idle
  requests := 0
  created := []
  applied := []
  returned := []

theorem releaseInit_releaseStart : releaseInit releaseStart :=
  ⟨rfl, rfl, rfl, rfl, rfl, fun _ => rfl, rfl, rfl, rfl, rfl⟩

/-- A connection is accepted, and its request returns. -/
theorem releases_applied_connect : ∃ s, s.returned = [1] ∧ ReleasesApplied s := by
  have hstart : Reach releaseInit ReleaseStep releaseOk releaseStart :=
    .start releaseInit_releaseStart
  have hrole := hstart.step (l := ReleaseLabel.role 1 true) trivial rfl
  have hcall := hrole.step (l := ReleaseLabel.call 0 CONNECT 3 []) trivial rfl
  have hfirst : (0 : UInt64).toNat + 1 < 2 ^ 64 := by decide
  have hsubmit := hcall.step (l := ReleaseLabel.submit 0) hfirst rfl
  have hdrain := hsubmit.step (l := ReleaseLabel.drain fun _ => false) trivial rfl
  have hcommit := hdrain.step (l := ReleaseLabel.commit 1) trivial rfl
  have hok : ∀ e : TracedEntry, e.request = some 1 → e.request = some 1 ∨ 1 ∈ ([] : List Nat) :=
    fun _ he => .inl he
  have happly := hcommit.step (l := ReleaseLabel.apply)
    (fun _ e he _ => hok e (by obtain rfl := Option.some.inj he; rfl)) rfl
  have hret := happly.step (l := ReleaseLabel.ret 0) trivial rfl
  exact ⟨_, rfl, releases_applied hret⟩

/-- The log of a new leader has an entry of a former one.  Its own first request is released when
    that is applied. -/
def formerEntry : List ReleaseLabel :=
  [.replicate [⟨mkEntry 1 1 1 256 CONNECT default, none⟩] 0, .role 2 true, .call 0 CONNECT 3 [],
    .submit 0, .drain fun _ => false, .commit 1, .apply, .ret 0]

theorem exec_formerEntry : ((exec releaseStep releaseStart formerEntry).map fun s =>
    (s.returned, s.applied)) = some ([1], []) := by
  decide

/-- Not every request is released after its own entry is applied. -/
theorem not_releases_applied : ¬ ∀ s, Reach releaseInit ReleaseStep Always s → ReleasesApplied s := by
  intro hall
  obtain ⟨s, hs, heq⟩ := Option.map_eq_some_iff.mp exec_formerEntry
  have hreach : Reach releaseInit ReleaseStep Always s :=
    Reach.exec (.start releaseInit_releaseStart) hs
  simp only [Prod.mk.injEq] at heq
  have hbad := hall s hreach 1 (by simp [heq.1])
  rw [heq.2] at hbad
  cases hbad

end NewLeader

end Apus
