import Apus.Proxy.Release

namespace Apus

open Lib

/-!
# Connection records of the leader

The hooks of `accept`, `read` and `close` (`spec_hooks.cpp`) report what the application does with
its sockets, and while the server is leader each report becomes a request.  The record of a
connection is added by its CONNECT and deleted by its CLOSE; a SEND or a CLOSE uses what
`HASH_FIND_INT` returns without a look at it.

The record may be missing: the connection was accepted while the server was not leader, or the
application opened the socket itself.  It may also be there twice: a connection that is closed while
the server is not leader leaves its record, and its descriptor is used again.

* `hookRun` — a history of events, `none` when a missing record is used;
* `lookups_found_iff` — the histories in which that does not happen.
-/

/-! ### The hooks -/

/-- What a hook reports: the descriptor, `is_inner` of the thread, and whether `fstat` finds a
    socket. -/
structure HookCall where
  fd : Nat
  inner : Bool
  isSock : Bool

inductive HookEvent
  /-- `accept` or `accept4` returned a descriptor. -/
  | accept (c : HookCall)
  /-- `read` returned the bytes. -/
  | read (c : HookCall) (buf : List UInt8)
  | close (c : HookCall)
  /-- What `is_leader` answers from now on. -/
  | leadership (isLeader : Bool)
  /-- `HASH_EXPAND_BUCKETS` turns every chain around. -/
  | expand

structure HookState where
  isLeader : Bool
  nodeId : UInt8
  /-- `leader_hash_map`, the records of each descriptor in the order of their chain. -/
  leaderHashMap : List SocketPair
  curRec : UInt64
  pairCount : UInt8
  tailq : List TailqEntry
  /-- The number of requests so far. -/
  requests : Nat

namespace HookState

/-- `leader_handle_submit_req` under the lock; `none` if it uses a record that is not there. -/
def leaderHandleSubmitReq (s : HookState) (type : UInt8) (data : List UInt8) (cltId : Nat) :
    Option HookState :=
  let s := { s with curRec := s.curRec + 1, requests := s.requests + 1 }
  let queued (s : HookState) (pair : SocketPair) : HookState :=
    { s with
      tailq := s.tailq ++ [⟨pair.reqId, pair.connectionId, type, requestCmd data, s.requests⟩] }
  if type = CONNECT then
    let pair : SocketPair := ⟨cltId, 1, genKey s.nodeId s.pairCount⟩
    some (queued { s with
      pairCount := s.pairCount + 1
      leaderHashMap := pair :: s.leaderHashMap } pair)
  else
    (s.leaderHashMap.find? fun pair => pair.cltId == cltId).map fun pair =>
      let pair := { pair with reqId := pair.reqId + 1 }
      let others := s.leaderHashMap.eraseP fun pair => pair.cltId == cltId
      queued { s with leaderHashMap := if type = CLOSE then others else pair :: others } pair

/-- `proxy_on_accept`, `proxy_on_read` and `proxy_on_close`, when the hook calls them. -/
def report (s : HookState) (type : UInt8) (c : HookCall) (data : List UInt8) : Option HookState :=
  if c.isSock && !c.inner && s.isLeader then s.leaderHandleSubmitReq type data c.fd else some s

/-- One event. -/
def hookStep (s : HookState) : HookEvent → Option HookState
  | .accept c => s.report CONNECT c []
  | .read c buf => if buf = [] then some s else s.report SEND c buf
  | .close c => s.report CLOSE c []
  | .leadership isLeader => some { s with isLeader := isLeader }
  | .expand => some { s with leaderHashMap := s.leaderHashMap.reverse }

/-- A history. -/
def hookRun : HookState → List HookEvent → Option HookState
  | s, [] => some s
  | s, e :: es => (s.hookStep e).bind fun s => hookRun s es

/-- The proxy is new. -/
def start (nodeId : UInt8) (isLeader : Bool) : HookState := ⟨isLeader, nodeId, [], 0, 0, [], 0⟩

/-- The number of records of a descriptor. -/
def records (s : HookState) (fd : Nat) : Nat := s.leaderHashMap.countP fun pair => pair.cltId == fd

end HookState

/-! ### The condition -/

/-- The type and the descriptor of the request that an event becomes. -/
def requestOf (isLeader : Bool) : HookEvent → List (UInt8 × Nat)
  | .accept c => if c.isSock && !c.inner && isLeader then [(CONNECT, c.fd)] else []
  | .read c buf =>
    if buf = [] then [] else if c.isSock && !c.inner && isLeader then [(SEND, c.fd)] else []
  | .close c => if c.isSock && !c.inner && isLeader then [(CLOSE, c.fd)] else []
  | .leadership _ | .expand => []

/-- `is_leader` after an event. -/
def leaderAfter (isLeader : Bool) : HookEvent → Bool
  | .leadership isLeader => isLeader
  | _ => isLeader

/-- The requests of a history. -/
def requestsOf : Bool → List HookEvent → List (UInt8 × Nat)
  | _, [] => []
  | isLeader, e :: es => requestOf isLeader e ++ requestsOf (leaderAfter isLeader e) es

/-- Every SEND and CLOSE comes after more CONNECTs than CLOSEs of its descriptor. -/
def RecordsLeft (rs : List (UInt8 × Nat)) : Prop :=
  ∀ before type fd after, rs = before ++ (type, fd) :: after → type ≠ CONNECT →
    before.count (CLOSE, fd) < before.count (CONNECT, fd)

/-- The same with some records at the beginning. -/
def RecordsFrom (k : Nat → Nat) (rs : List (UInt8 × Nat)) : Prop :=
  ∀ before type fd after, rs = before ++ (type, fd) :: after → type ≠ CONNECT →
    before.count (CLOSE, fd) < k fd + before.count (CONNECT, fd)

/-- The number of records after a request. -/
def recordsAfter (k : Nat → Nat) (type : UInt8) (fd : Nat) : Nat → Nat :=
  Function.update k fd
    (if type = CONNECT then k fd + 1 else if type = CLOSE then k fd - 1 else k fd)

variable {k : Nat → Nat} {type : UInt8} {fd : Nat} {rs : List (UInt8 × Nat)} {s s' : HookState}
  {data : List UInt8} {c : HookCall}

theorem recordsFrom_nil : RecordsFrom k [] := by
  intro before type fd after heq
  simp at heq

/-- The condition over one request. -/
theorem recordsFrom_cons : RecordsFrom k ((type, fd) :: rs) ↔
    (type ≠ CONNECT → 0 < k fd) ∧ RecordsFrom (recordsAfter k type fd) rs := by
  -- the counts with the request, by its type
  have hcount (before : List (UInt8 × Nat)) (fd' : Nat) (hpos : type ≠ CONNECT → 0 < k fd) :
      ((type, fd) :: before).count (CLOSE, fd') < k fd' + ((type, fd) :: before).count (CONNECT, fd') ↔
        before.count (CLOSE, fd') <
          recordsAfter k type fd fd' + before.count (CONNECT, fd') := by
    unfold recordsAfter
    by_cases hfd : fd' = fd
    · subst hfd
      rw [Function.update_self]
      by_cases hconnect : type = CONNECT
      · simp [hconnect, CONNECT, CLOSE]
        omega
      · have hk := hpos hconnect
        by_cases hclose : type = CLOSE
        · simp [hclose, CONNECT, CLOSE]
          omega
        · simp [hclose, hconnect]
    · have hne : (fd = fd') = False := by simp [Ne.symm hfd]
      simp [Function.update_of_ne hfd, hne]
  constructor
  · intro h
    have hpos : type ≠ CONNECT → 0 < k fd := by
      intro htype
      simpa using h [] type fd rs rfl htype
    refine ⟨hpos, fun before type' fd' after heq htype => ?_⟩
    rw [← hcount before fd' hpos]
    exact h ((type, fd) :: before) type' fd' after (by rw [heq]; rfl) htype
  · rintro ⟨hpos, h⟩ before type' fd' after heq htype
    cases before with
    | nil =>
      rw [List.nil_append, List.cons.injEq, Prod.mk.injEq] at heq
      obtain ⟨⟨rfl, rfl⟩, -⟩ := heq
      simpa using hpos htype
    | cons r before =>
      rw [List.cons_append, List.cons.injEq] at heq
      obtain ⟨rfl, hrest⟩ := heq
      rw [hcount before fd' hpos]
      exact h before type' fd' after hrest htype

/-! ### One request -/

/-- A record is found when there is one. -/
theorem find?_isSome_iff (s : HookState) (fd : Nat) :
    (s.leaderHashMap.find? fun pair => pair.cltId == fd).isSome ↔ 0 < s.records fd := by
  rw [List.find?_isSome, HookState.records, List.countP_pos_iff]

/-- A CONNECT always succeeds, and another request exactly when there is a record. -/
theorem leaderHandleSubmitReq_isSome_iff :
    (s.leaderHandleSubmitReq type data fd).isSome ↔ (type ≠ CONNECT → 0 < s.records fd) := by
  rw [← find?_isSome_iff]
  unfold HookState.leaderHandleSubmitReq
  by_cases htype : type = CONNECT
  · simp [htype]
  · simp [htype]

/-- What a request does to the records. -/
theorem leaderHandleSubmitReq_records (h : s.leaderHandleSubmitReq type data fd = some s') :
    s'.isLeader = s.isLeader ∧ s'.records = recordsAfter s.records type fd := by
  unfold HookState.leaderHandleSubmitReq at h
  by_cases htype : type = CONNECT
  · rw [if_pos htype] at h
    cases h
    refine ⟨rfl, ?_⟩
    funext fd'
    by_cases hfd : fd' = fd
    · subst hfd
      simp [recordsAfter, HookState.records, htype]
    · simp [recordsAfter, HookState.records, Function.update_of_ne hfd, Ne.symm hfd]
  · rw [if_neg htype] at h
    obtain ⟨pair, hfind, rfl⟩ := Option.map_eq_some_iff.mp h
    refine ⟨rfl, ?_⟩
    funext fd'
    have hpair : pair.cltId = fd := by simpa using List.find?_some hfind
    have hmem := List.mem_of_find?_eq_some hfind
    -- the record found is taken out of its chain
    obtain ⟨a, l₁, l₂, -, ha, hsplit, herase⟩ :=
      List.exists_of_eraseP (p := fun pair : SocketPair => pair.cltId == fd) hmem (by simpa using hpair)
    have hcount : s.records fd' =
        (s.leaderHashMap.eraseP fun pair => pair.cltId == fd).countP (fun pair => pair.cltId == fd') +
          if fd = fd' then 1 else 0 := by
      have ha : a.cltId = fd := by simpa using ha
      rw [HookState.records, herase, hsplit, List.countP_append, List.countP_cons,
        List.countP_append, ha]
      simp only [beq_iff_eq]
      omega
    by_cases hfd : fd' = fd
    · subst hfd
      rw [if_pos rfl] at hcount
      by_cases hclose : type = CLOSE
      · simp [recordsAfter, HookState.records, hclose, CLOSE, CONNECT] at hcount ⊢
        omega
      · simp [recordsAfter, HookState.records, htype, hclose, hpair] at hcount ⊢
        omega
    · rw [if_neg (Ne.symm hfd)] at hcount
      by_cases hclose : type = CLOSE
      · simp [recordsAfter, HookState.records, Function.update_of_ne hfd, hclose] at hcount ⊢
        omega
      · have hother : ¬ fd = fd' := Ne.symm hfd
        simp [recordsAfter, HookState.records, Function.update_of_ne hfd, hclose, hpair, hother]
          at hcount ⊢
        omega

/-! ### Every history -/

theorem report_isLeader (h : s.report type c data = some s') : s'.isLeader = s.isLeader := by
  unfold HookState.report at h
  split at h
  · exact (leaderHandleSubmitReq_records h).1
  · cases h
    rfl

theorem hookStep_isLeader {e : HookEvent} (h : s.hookStep e = some s') :
    s'.isLeader = leaderAfter s.isLeader e := by
  cases e with
  | accept c => exact report_isLeader h
  | read c buf =>
    simp only [HookState.hookStep] at h
    split at h
    · cases h
      rfl
    · exact report_isLeader h
  | close c => exact report_isLeader h
  | leadership _ => cases h; rfl
  | expand => cases h; rfl

/-- A call of a hook, and the requests after it. -/
theorem report_records :
    RecordsFrom s.records
        ((if c.isSock && !c.inner && s.isLeader then [(type, c.fd)] else []) ++ rs) ↔
      ∃ s', s.report type c data = some s' ∧ RecordsFrom s'.records rs := by
  unfold HookState.report
  by_cases hcall : (c.isSock && !c.inner && s.isLeader) = true
  · rw [if_pos hcall, if_pos hcall]
    show RecordsFrom s.records ((type, c.fd) :: rs) ↔ _
    rw [recordsFrom_cons]
    constructor
    · rintro ⟨hpos, hrest⟩
      have hsome : (s.leaderHandleSubmitReq type data c.fd).isSome :=
        leaderHandleSubmitReq_isSome_iff.mpr hpos
      obtain ⟨s', hs'⟩ := Option.isSome_iff_exists.mp hsome
      have hrecords := (leaderHandleSubmitReq_records hs').2
      exact ⟨s', hs', by rwa [hrecords]⟩
    · rintro ⟨s', hs', hrest⟩
      have hsome : (s.leaderHandleSubmitReq type data c.fd).isSome := by simp [hs']
      refine ⟨leaderHandleSubmitReq_isSome_iff.mp hsome, ?_⟩
      rwa [← (leaderHandleSubmitReq_records hs').2]
  · -- the call is ignored
    rw [if_neg hcall, if_neg hcall]
    simp

/-- An event, and the requests after it. -/
theorem hookStep_records (e : HookEvent) :
    RecordsFrom s.records (requestOf s.isLeader e ++ rs) ↔
      ∃ s', s.hookStep e = some s' ∧ RecordsFrom s'.records rs := by
  cases e with
  | accept c => exact report_records
  | read c buf =>
    by_cases hbuf : buf = []
    · simp [requestOf, HookState.hookStep, hbuf]
    · simp only [requestOf, HookState.hookStep, if_neg hbuf]
      exact report_records
  | close c => exact report_records
  | leadership isLeader =>
    have hrecords : HookState.records { s with isLeader := isLeader } = s.records := rfl
    simp [requestOf, HookState.hookStep, hrecords]
  | expand =>
    -- every record stays, in another order
    have hrecords : HookState.records { s with leaderHashMap := s.leaderHashMap.reverse } =
        s.records := by
      funext fd
      exact List.countP_reverse ..
    simp [requestOf, HookState.hookStep, hrecords]

/-- A history from any state. -/
theorem hookRun_isSome_iff (s : HookState) (es : List HookEvent) :
    (s.hookRun es).isSome ↔ RecordsFrom s.records (requestsOf s.isLeader es) := by
  induction es generalizing s with
  | nil => simp [HookState.hookRun, requestsOf, recordsFrom_nil]
  | cons e es ih =>
    rw [requestsOf, hookStep_records, HookState.hookRun]
    constructor
    · intro h
      obtain ⟨t, ht⟩ := Option.isSome_iff_exists.mp h
      obtain ⟨s', hs', hrest⟩ := Option.bind_eq_some_iff.mp ht
      refine ⟨s', hs', ?_⟩
      rw [← hookStep_isLeader hs', ← ih, hrest]
      rfl
    · rintro ⟨s', hs', hrest⟩
      rw [← hookStep_isLeader hs', ← ih] at hrest
      rwa [hs', Option.bind_some]

/-- **Every lookup finds its record** in a history exactly when, by the requests of the history,
    every SEND and CLOSE comes after more CONNECTs than CLOSEs of its descriptor. -/
theorem lookups_found_iff (nodeId : UInt8) (isLeader : Bool) (es : List HookEvent) :
    ((HookState.start nodeId isLeader).hookRun es).isSome ↔
      RecordsLeft (requestsOf isLeader es) := by
  have hnone : (HookState.start nodeId isLeader).records = fun _ => 0 := rfl
  rw [hookRun_isSome_iff, hnone]
  simp [RecordsFrom, RecordsLeft, HookState.start]

/-- A connection is accepted before the server becomes leader and read after it did. -/
theorem not_lookups_found :
    ¬ ∀ nodeId isLeader es, ((HookState.start nodeId isLeader).hookRun es).isSome = true := by
  intro h
  have hread := h 0 false [.accept ⟨5, false, true⟩, .leadership true, .read ⟨5, false, true⟩ [1]]
  revert hread
  decide

end Apus
