import Apus.Proxy.Release
import Apus.Log.Full

namespace Apus

open Lib

/-!
# From the sockets to the log

A request of a leader's client is numbered and queued under the lock of the queue
(`leader_handle_submit_req`), and `get_tailq_message` appends what is queued, under the same lock.
So the two are steps of one state; the log is the byte buffer of the server, which other code may
change in any way in between (`server`).

* `submitStep` — accepted connections, reads, closes, drains of the queue;
* `requests_in_order` — no request is lost while no append of a drain is rejected;
* `payload_survives_iff` — what becomes of the bytes of a read.
-/

/-! ### The steps -/

/-- A request that was made: its number, the connection it came from, and its message. -/
structure Submitted where
  curRec : UInt64
  conn : Nat
  message : TailqEntry

structure SubmitState where
  nodeId : UInt8
  term : UInt64
  proxy : ProxyNode
  tailq : List TailqEntry
  log : DareLog
  /-- The connection that a socket carries: connections are counted as they are accepted. -/
  conns : Nat → Nat
  accepted : Nat
  /-- The requests made. -/
  submitted : List Submitted
  /-- The entries that the drains left in the log, as they can be read there. -/
  appended : List DareLogEntry

namespace SubmitState

/-- `leader_handle_submit_req`. -/
def leaderHandleSubmitReq (s : SubmitState) (type : UInt8) (cltId : Nat) (data : List UInt8) :
    Option SubmitState :=
  (submitReq s.proxy s.nodeId type cltId data (s.submitted.length + 1)).map fun r =>
    let accepted := if type = CONNECT then s.accepted + 1 else s.accepted
    let conn := if type = CONNECT then accepted else s.conns cltId
    { s with
      proxy := r.1
      tailq := s.tailq ++ [r.2]
      conns := Function.update s.conns cltId conn
      accepted := accepted
      submitted := s.submitted ++ [⟨r.1.curRec, conn, r.2⟩] }

/-- One iteration of `get_tailq_message`: whatever the append returns, the message is freed. -/
def appendMessage (s : SubmitState) (n : TailqEntry) : Option SubmitState :=
  (logAppendEntry s.log s.term n.reqId n.connectionId n.type { cmd := n.cmd }).map fun r =>
    { s with
      log := r.1
      appended := if appendRejected s.log n.type { cmd := n.cmd } then s.appended
        else s.appended ++ [readEntry r.1.entries r.1.tail] }

/-- `get_tailq_message`. -/
def getTailqMessage (s : SubmitState) : Option SubmitState :=
  (s.tailq.foldlM appendMessage s).map fun s => { s with tailq := [] }

end SubmitState

inductive SubmitLabel
  /-- `proxy_on_accept`. -/
  | accept (fd : Nat)
  /-- `proxy_on_read`. -/
  | read (fd : Nat) (buf : List UInt8)
  /-- `proxy_on_close`. -/
  | close (fd : Nat)
  /-- `get_tailq_message`. -/
  | drain
  /-- The log changes in another way. -/
  | server (log : DareLog)

/-- One step of a server that stays leader. -/
def submitStep (s : SubmitState) : SubmitLabel → Option SubmitState
  | .accept fd =>
    -- `accept` returns no descriptor that is open
    if (s.proxy.leaderHashMap fd).isNone then s.leaderHandleSubmitReq CONNECT fd [] else none
  | .read fd buf => s.leaderHandleSubmitReq SEND fd buf
  | .close fd => s.leaderHandleSubmitReq CLOSE fd []
  | .drain => s.getTailqMessage
  | .server log => if log.len = LOG_SIZE then some { s with log := log } else none

abbrev SubmitStep (s : SubmitState) (l : SubmitLabel) (s' : SubmitState) : Prop :=
  submitStep s l = some s'

/-- The proxy is new, and so is the queue. -/
structure SubmitInit (s : SubmitState) : Prop where
  curRec : s.proxy.curRec = 0
  pairCount : s.proxy.pairCount = 0
  leaderHashMap : ∀ fd, s.proxy.leaderHashMap fd = none
  tailq : s.tailq = []
  log : s.log.len = LOG_SIZE
  accepted : s.accepted = 0
  submitted : s.submitted = []
  appended : s.appended = []

/-! ### Requests in order -/

/-- The numbers `1, 2, 3, …` as 64-bit words. -/
def countsFromOne (n : Nat) : List UInt64 := (List.range n).map fun i => UInt64.ofNat (i + 1)

/-- The entry that a message becomes. -/
structure Carries (e : DareLogEntry) (n : TailqEntry) : Prop where
  reqId : e.reqId = n.reqId
  connectionId : e.cltId = n.connectionId
  type : e.type = n.type
  cmd : e.cmd = n.cmd.cmd

/-- The requests of a connection. -/
def ofConn (rs : List Submitted) (c : Nat) : List Submitted := rs.filter fun r => r.conn = c

/-- The entries appended are the first `k` requests, each once and in the order of `cur_rec`; the
    others are in the queue.  For each connection they are numbered from `1` on. -/
structure InOrder (s : SubmitState) (k : Nat) : Prop where
  appended : List.Forall₂ Carries s.appended ((s.submitted.take k).map Submitted.message)
  queued : s.tailq = (s.submitted.drop k).map Submitted.message
  curRecs : s.submitted.map Submitted.curRec = countsFromOne s.submitted.length
  reqIds : ∀ c, (ofConn (s.submitted.take k) c).map (fun r => r.message.reqId) =
    countsFromOne (ofConn (s.submitted.take k) c).length

/-- No message of the queue meets a full log. -/
def drainFits (term : UInt64) : DareLog → List TailqEntry → Bool
  | _, [] => true
  | log, n :: ns => !appendRejected log n.type { cmd := n.cmd } &&
    match logAppendEntry log term n.reqId n.connectionId n.type { cmd := n.cmd } with
    | some r => drainFits term r.1 ns
    | none => true

/-- No append of a drain is rejected. -/
def submitOk (s : SubmitState) : SubmitLabel → Prop
  | .drain => drainFits s.term s.log s.tailq = true
  | _ => True

instance : ∀ (s : SubmitState) (l : SubmitLabel), Decidable (submitOk s l)
  | s, .drain => inferInstanceAs (Decidable (drainFits s.term s.log s.tailq = true))
  | _, .accept _ | _, .read _ _ | _, .close _ | _, .server _ => inferInstanceAs (Decidable True)

variable {s s' : SubmitState} {l : SubmitLabel}

/-- The sockets with a pair carry different connections, and only accepted connections make
    requests. -/
structure ConnInv (s : SubmitState) : Prop where
  accepted : ∀ fd pair, s.proxy.leaderHashMap fd = some pair → s.conns fd ≤ s.accepted
  distinct : ∀ fd fd' pair pair', s.proxy.leaderHashMap fd = some pair →
    s.proxy.leaderHashMap fd' = some pair' → s.conns fd = s.conns fd' → fd = fd'
  requests : ∀ r ∈ s.submitted, r.conn ≤ s.accepted

/-- The invariant of the runs. -/
structure SubmitInv (s : SubmitState) : Prop where
  conns : ConnInv s
  log : s.log.len = LOG_SIZE
  /-- The entries appended and the messages queued are the requests. -/
  split : ∃ done, List.Forall₂ Carries s.appended done ∧
    done ++ s.tailq = s.submitted.map Submitted.message
  client : ∀ r ∈ s.submitted, isCsm r.message.type = true
  curRec : s.proxy.curRec = UInt64.ofNat s.submitted.length
  curRecs : s.submitted.map Submitted.curRec = countsFromOne s.submitted.length
  /-- A socket's pair counts the requests of its connection. -/
  pairs : ∀ fd pair, s.proxy.leaderHashMap fd = some pair →
    pair.reqId = UInt64.ofNat (ofConn s.submitted (s.conns fd)).length
  reqIds : ∀ c, (ofConn s.submitted c).map (fun r => r.message.reqId) =
    countsFromOne (ofConn s.submitted c).length

/-! ### One request -/

section Request

variable {type : UInt8} {fd : Nat} {data : List UInt8}

/-- The state after a request `n` of the connection `conn`. -/
def SubmitState.push (s : SubmitState) (proxy : ProxyNode) (conns : Nat → Nat) (accepted conn : Nat)
    (n : TailqEntry) : SubmitState :=
  { s with
    proxy := proxy
    tailq := s.tailq ++ [n]
    conns := conns
    accepted := accepted
    submitted := s.submitted ++ [⟨proxy.curRec, conn, n⟩] }

/-- A CONNECT makes a new pair, for a new connection. -/
theorem accept_spec (hs : s.leaderHandleSubmitReq CONNECT fd data = some s') :
    ∃ proxy n, s' = s.push proxy (Function.update s.conns fd (s.accepted + 1)) (s.accepted + 1)
        (s.accepted + 1) n ∧
      proxy.leaderHashMap = Function.update s.proxy.leaderHashMap fd
        (some ⟨fd, 1, genKey s.nodeId s.proxy.pairCount⟩) ∧
      proxy.curRec = s.proxy.curRec + 1 ∧ n.type = CONNECT ∧ n.reqId = 1 ∧
      n.connectionId = genKey s.nodeId s.proxy.pairCount := by
  obtain ⟨r, hr, rfl⟩ := Option.map_eq_some_iff.mp hs
  unfold submitReq at hr
  rw [if_pos rfl] at hr
  obtain rfl := Option.some.inj hr
  exact ⟨_, _, rfl, rfl, rfl, rfl, rfl, rfl⟩

/-- A SEND or CLOSE is numbered by the pair of its socket; a CLOSE removes it. -/
theorem request_spec (htype : type ≠ CONNECT)
    (hs : s.leaderHandleSubmitReq type fd data = some s') :
    ∃ pair proxy n, s.proxy.leaderHashMap fd = some pair ∧
      s' = s.push proxy s.conns s.accepted (s.conns fd) n ∧
      proxy.leaderHashMap = Function.update s.proxy.leaderHashMap fd
        (if type = CLOSE then none else some { pair with reqId := pair.reqId + 1 }) ∧
      proxy.curRec = s.proxy.curRec + 1 ∧ n.type = type ∧ n.reqId = pair.reqId + 1 ∧
      n.connectionId = pair.connectionId := by
  obtain ⟨r, hr, rfl⟩ := Option.map_eq_some_iff.mp hs
  unfold submitReq at hr
  rw [if_neg htype] at hr
  obtain ⟨pair, hpair, rfl⟩ := Option.map_eq_some_iff.mp hr
  simp only [if_neg htype, Function.update_eq_self]
  exact ⟨pair, _, _, hpair, rfl, rfl, rfl, rfl, rfl, rfl⟩

/-- After a SEND or CLOSE the sockets with a pair are among those before. -/
theorem exists_pair_of_update {map : Nat → Option SocketPair} {pair pair' : SocketPair}
    {kept : Option SocketPair} (hpair : map fd = some pair) {fd' : Nat}
    (h : Function.update map fd kept fd' = some pair') : ∃ q, map fd' = some q := by
  by_cases hfd : fd' = fd
  · exact ⟨pair, by rw [hfd]; exact hpair⟩
  · exact ⟨pair', by rwa [Function.update_of_ne hfd] at h⟩

theorem ConnInv.accept (h : ConnInv s)
    (hs : s.leaderHandleSubmitReq CONNECT fd data = some s') : ConnInv s' := by
  obtain ⟨proxy, n, rfl, hmap, -⟩ := accept_spec hs
  refine ⟨?_, ?_, ?_⟩
  · intro fd' pair hpair
    simp only [SubmitState.push, hmap] at hpair ⊢
    by_cases hfd : fd' = fd
    · rw [hfd, Function.update_self]
    · rw [Function.update_of_ne hfd] at hpair ⊢
      exact Nat.le_succ_of_le (h.accepted fd' pair hpair)
  · intro fd1 fd2 p1 p2 h1 h2 heq
    simp only [SubmitState.push, hmap] at h1 h2 heq
    -- the connection that is accepted has a number above all others
    by_cases hfd1 : fd1 = fd
    · by_cases hfd2 : fd2 = fd
      · rw [hfd1, hfd2]
      · rw [Function.update_of_ne hfd2] at h2 heq
        rw [hfd1, Function.update_self] at heq
        have hle := h.accepted fd2 p2 h2
        omega
    · rw [Function.update_of_ne hfd1] at h1 heq
      by_cases hfd2 : fd2 = fd
      · rw [hfd2, Function.update_self] at heq
        have hle := h.accepted fd1 p1 h1
        omega
      · rw [Function.update_of_ne hfd2] at h2 heq
        exact h.distinct fd1 fd2 p1 p2 h1 h2 heq
  · intro r hr
    rcases List.mem_append.mp hr with hr | hr
    · exact Nat.le_succ_of_le (h.requests r hr)
    · rw [List.mem_singleton.mp hr]
      exact le_refl _

theorem ConnInv.request (h : ConnInv s) (htype : type ≠ CONNECT)
    (hs : s.leaderHandleSubmitReq type fd data = some s') : ConnInv s' := by
  obtain ⟨pair, proxy, n, hpair, rfl, hmap, -⟩ := request_spec htype hs
  refine ⟨?_, ?_, ?_⟩
  · intro fd' pair' hpair'
    simp only [SubmitState.push, hmap] at hpair'
    obtain ⟨q, hq⟩ := exists_pair_of_update hpair hpair'
    exact h.accepted fd' q hq
  · intro fd1 fd2 p1 p2 h1 h2 heq
    simp only [SubmitState.push, hmap] at h1 h2
    obtain ⟨q1, hq1⟩ := exists_pair_of_update hpair h1
    obtain ⟨q2, hq2⟩ := exists_pair_of_update hpair h2
    exact h.distinct fd1 fd2 q1 q2 hq1 hq2 heq
  · intro r hr
    rcases List.mem_append.mp hr with hr | hr
    · exact h.requests r hr
    · rw [List.mem_singleton.mp hr]
      exact h.accepted fd pair hpair

end Request

theorem countsFromOne_succ (n : Nat) :
    countsFromOne (n + 1) = countsFromOne n ++ [UInt64.ofNat (n + 1)] := by
  simp [countsFromOne, List.range_succ]

theorem uint64_ofNat_succ (n : Nat) : UInt64.ofNat n + 1 = UInt64.ofNat (n + 1) :=
  (UInt64.ofNat_add n 1).symm

theorem ofConn_append (rs : List Submitted) (r : Submitted) (c : Nat) :
    ofConn (rs ++ [r]) c = if r.conn = c then ofConn rs c ++ [r] else ofConn rs c := by
  unfold ofConn
  rw [List.filter_append]
  by_cases h : r.conn = c <;> simp [h]

/-- A connection that was not accepted yet made no request. -/
theorem ConnInv.ofConn_eq_nil (h : ConnInv s) {c : Nat} (hc : s.accepted < c) :
    ofConn s.submitted c = [] := by
  unfold ofConn
  rw [List.filter_eq_nil_iff]
  intro r hr
  have hle := h.requests r hr
  simp only [decide_eq_true_eq]
  omega

/-- A request that is numbered after the others of its connection keeps the invariant. -/
theorem SubmitInv.push (h : SubmitInv s) {proxy : ProxyNode} {n : TailqEntry}
    {conns : Nat → Nat} {accepted conn : Nat}
    (hconns : ConnInv (s.push proxy conns accepted conn n))
    (hcur : proxy.curRec = s.proxy.curRec + 1) (hclient : isCsm n.type = true)
    (hreq : n.reqId = UInt64.ofNat ((ofConn s.submitted conn).length + 1))
    (hpairs : ∀ fd pair, proxy.leaderHashMap fd = some pair →
      pair.reqId = UInt64.ofNat
        (ofConn (s.submitted ++ [⟨proxy.curRec, conn, n⟩]) (conns fd)).length) :
    SubmitInv (s.push proxy conns accepted conn n) where
  conns := hconns
  log := h.log
  split := by
    obtain ⟨done, hdone, heq⟩ := h.split
    refine ⟨done, hdone, ?_⟩
    simp only [SubmitState.push, List.map_append, List.map_cons, List.map_nil, ← heq,
      List.append_assoc]
  client := by
    intro r hr
    rcases List.mem_append.mp hr with hr | hr
    · exact h.client r hr
    · rw [List.mem_singleton.mp hr]
      exact hclient
  curRec := by
    simp only [SubmitState.push, List.length_append, List.length_singleton, hcur, h.curRec,
      uint64_ofNat_succ]
  curRecs := by
    simp only [SubmitState.push, List.map_append, List.map_cons, List.map_nil, h.curRecs,
      List.length_append, List.length_cons, List.length_nil, Nat.zero_add, countsFromOne_succ, hcur,
      h.curRec, uint64_ofNat_succ]
  pairs := hpairs
  reqIds := by
    intro c
    simp only [SubmitState.push, ofConn_append]
    -- the request is the next one of its connection
    split
    · rename_i hc
      subst hc
      rw [List.map_append, h.reqIds, List.map_singleton, hreq, List.length_append,
        List.length_singleton, countsFromOne_succ]
    · exact h.reqIds c

/-- `proxy_on_accept`. -/
theorem SubmitInv.accept (h : SubmitInv s) {fd : Nat}
    (hs : s.leaderHandleSubmitReq CONNECT fd [] = some s') : SubmitInv s' := by
  have hconns := h.conns.accept hs
  obtain ⟨proxy, n, rfl, hmap, hcur, htype, hid, -⟩ := accept_spec hs
  have hnil : ofConn s.submitted (s.accepted + 1) = [] :=
    h.conns.ofConn_eq_nil (Nat.lt_succ_self s.accepted)
  refine h.push hconns hcur (by rw [htype]; decide) (by rw [hid, hnil]; rfl) ?_
  intro fd' pair hpair
  rw [hmap] at hpair
  by_cases hfd : fd' = fd
  · -- the new pair has made one request
    rw [hfd, Function.update_self] at hpair
    obtain rfl := Option.some.inj hpair
    rw [hfd, Function.update_self, ofConn_append, if_pos rfl, hnil]
    rfl
  · rw [Function.update_of_ne hfd] at hpair ⊢
    have hle := h.conns.accepted fd' pair hpair
    rw [ofConn_append, if_neg (by simp only; omega)]
    exact h.pairs fd' pair hpair

/-- `proxy_on_read` and `proxy_on_close`. -/
theorem SubmitInv.request (h : SubmitInv s) {fd : Nat} {type : UInt8} {data : List UInt8}
    (htype : type ≠ CONNECT) (hcsm : isCsm type = true)
    (hs : s.leaderHandleSubmitReq type fd data = some s') : SubmitInv s' := by
  have hconns := h.conns.request htype hs
  obtain ⟨pair, proxy, n, hpair, rfl, hmap, hcur, hn, hid, -⟩ := request_spec htype hs
  refine h.push hconns hcur (by rw [hn]; exact hcsm)
    (by rw [hid, h.pairs fd pair hpair, uint64_ofNat_succ]) ?_
  intro fd' pair' hpair'
  rw [hmap] at hpair'
  by_cases hfd : fd' = fd
  · -- the pair counted one more, or is gone
    rw [hfd, Function.update_self] at hpair'
    split at hpair'
    · cases hpair'
    · obtain rfl := Option.some.inj hpair'
      rw [hfd, ofConn_append, if_pos rfl, List.length_append, List.length_singleton,
        h.pairs fd pair hpair, uint64_ofNat_succ]
  · rw [Function.update_of_ne hfd] at hpair'
    have hne : s.conns fd ≠ s.conns fd' := by
      intro heq
      exact hfd (h.conns.distinct fd fd' pair pair' hpair hpair' heq).symm
    rw [ofConn_append, if_neg hne]
    exact h.pairs fd' pair' hpair'

/-! ### One drain -/

/-- The entry that an append leaves in the log carries its message. -/
theorem carries_mkEntry {idx term : UInt64} {n : TailqEntry} (hclient : isCsm n.type = true) :
    Carries (mkEntry idx term n.reqId n.connectionId n.type { cmd := n.cmd }) n :=
  ⟨rfl, rfl, rfl, if_pos hclient⟩

/-- A drain that meets no full log leaves an entry for each message, in order. -/
theorem foldlM_appendMessage {ns : List TailqEntry} (hlog : s.log.len = LOG_SIZE)
    (hclient : ∀ n ∈ ns, isCsm n.type = true) (hfits : drainFits s.term s.log ns = true)
    (h : ns.foldlM SubmitState.appendMessage s = some s') :
    s'.log.len = LOG_SIZE ∧ ∃ es, List.Forall₂ Carries es ns ∧
      s' = { s with log := s'.log, appended := s.appended ++ es } := by
  induction ns generalizing s with
  | nil =>
    obtain rfl : s = s' := Option.some.inj h
    exact ⟨hlog, [], .nil, by rw [List.append_nil]⟩
  | cons n ns ih =>
    rw [List.foldlM_cons] at h
    obtain ⟨t, ht, hrest⟩ := Option.bind_eq_some_iff.mp h
    obtain ⟨r, hr, rfl⟩ := Option.map_eq_some_iff.mp ht
    unfold drainFits at hfits
    rw [hr, Bool.and_eq_true, Bool.not_eq_true'] at hfits
    obtain ⟨hrej, hfits⟩ := hfits
    obtain ⟨hlen, hread⟩ := logAppendEntry_readEntry hlog hr
    have hentry := hread hrej
    rw [if_neg (Bool.eq_false_iff.mp hrej), hentry] at hrest
    obtain ⟨hlen', es, hes, heq⟩ :=
      ih hlen (fun q hq => hclient q (List.mem_cons_of_mem n hq)) hfits hrest
    refine ⟨hlen', mkEntry r.2 s.term n.reqId n.connectionId n.type { cmd := n.cmd } :: es,
      .cons (carries_mkEntry (hclient n List.mem_cons_self)) hes, ?_⟩
    rw [List.append_assoc, List.singleton_append] at heq
    exact heq

/-- `get_tailq_message`. -/
theorem SubmitInv.drain (h : SubmitInv s) (hok : submitOk s .drain)
    (hs : s.getTailqMessage = some s') : SubmitInv s' := by
  obtain ⟨t, ht, rfl⟩ := Option.map_eq_some_iff.mp hs
  obtain ⟨done, hdone, hsplit⟩ := h.split
  have hclient : ∀ n ∈ s.tailq, isCsm n.type = true := by
    intro n hn
    have hmem : n ∈ s.submitted.map Submitted.message := by
      rw [← hsplit]
      exact List.mem_append_right done hn
    obtain ⟨r, hr, rfl⟩ := List.mem_map.mp hmem
    exact h.client r hr
  obtain ⟨hlen, es, hes, heq⟩ := foldlM_appendMessage h.log hclient hok ht
  rw [heq]
  refine ⟨⟨h.conns.1, h.conns.2, h.conns.3⟩, hlen,
    ⟨done ++ s.tailq, List.rel_append hdone hes, ?_⟩, h.client, h.curRec, h.curRecs, h.pairs,
    h.reqIds⟩
  rw [List.append_nil]
  exact hsplit

/-! ### Every run -/

/-- Every step under the condition keeps the invariant. -/
theorem SubmitInv.step (h : SubmitInv s) (hok : submitOk s l) (hs : SubmitStep s l s') :
    SubmitInv s' := by
  unfold SubmitStep submitStep at hs
  cases l with
  | accept fd =>
    simp only at hs
    split at hs
    · exact h.accept hs
    · cases hs
  | read fd buf => exact h.request (by decide) (by decide) hs
  | close fd => exact h.request (by decide) (by decide) hs
  | drain => exact h.drain hok hs
  | server log =>
    simp only at hs
    split at hs
    · rename_i hlen
      obtain rfl := Option.some.inj hs
      exact ⟨⟨h.conns.1, h.conns.2, h.conns.3⟩, hlen, h.split, h.client, h.curRec, h.curRecs,
        h.pairs, h.reqIds⟩
    · cases hs

theorem SubmitInit.conns (h : SubmitInit s) : ConnInv s where
  accepted := by
    intro fd pair hpair
    rw [h.leaderHashMap] at hpair
    cases hpair
  distinct := by
    intro fd fd' pair pair' hpair
    rw [h.leaderHashMap] at hpair
    cases hpair
  requests := by rw [h.submitted]; exact fun r hr => absurd hr List.not_mem_nil

theorem SubmitInit.inv (h : SubmitInit s) : SubmitInv s where
  conns := h.conns
  log := h.log
  split := ⟨[], by rw [h.appended]; exact .nil, by rw [h.tailq, h.submitted]; rfl⟩
  client := by rw [h.submitted]; exact fun r hr => absurd hr List.not_mem_nil
  curRec := by rw [h.curRec, h.submitted]; rfl
  curRecs := by rw [h.submitted]; rfl
  pairs := by
    intro fd pair hpair
    rw [h.leaderHashMap] at hpair
    cases hpair
  reqIds := by rw [h.submitted]; exact fun c => rfl

/-- A part of the numbers from `1` on that starts with the first. -/
theorem countsFromOne_of_append {xs ys : List UInt64}
    (h : xs ++ ys = countsFromOne (xs ++ ys).length) : xs = countsFromOne xs.length := by
  have htake := congrArg (List.take xs.length) h
  rw [List.take_left] at htake
  rw [htake, countsFromOne, ← List.map_take, List.take_range, List.length_append,
    Nat.min_eq_left (Nat.le_add_right _ _)]
  simp [countsFromOne]

/-- Under the invariant the requests are in order. -/
theorem SubmitInv.inOrder (h : SubmitInv s) : InOrder s s.appended.length := by
  obtain ⟨done, hdone, hsplit⟩ := h.split
  have hlen := hdone.length_eq
  have htake : (s.submitted.take s.appended.length).map Submitted.message = done := by
    rw [List.map_take, ← hsplit, hlen, List.take_left]
  refine ⟨by rwa [htake], ?_, h.curRecs, ?_⟩
  · rw [List.map_drop, ← hsplit, hlen, List.drop_left]
  · intro c
    -- the requests of a connection among the first ones come first
    have hall := h.reqIds c
    rw [← List.take_append_drop s.appended.length s.submitted] at hall
    simp only [ofConn, List.filter_append, List.map_append] at hall ⊢
    rw [← List.length_map (f := fun r : Submitted => r.message.reqId), List.map_append] at hall
    have hfirst := countsFromOne_of_append hall
    rwa [List.length_map] at hfirst

/-- **No request is lost or reordered**: in every run in which no append of a drain is rejected,
    the entries appended are the requests, each once and in the order of `cur_rec`. -/
theorem requests_in_order (h : Reach SubmitInit SubmitStep submitOk s) :
    InOrder s s.appended.length := by
  have hinv : SubmitInv s := h.invariant (fun _ hinit => SubmitInit.inv hinit)
    fun _ _ _ hinv hok hs => SubmitInv.step hinv hok hs
  exact hinv.inOrder

/-- A proxy with an empty queue, over the given log. -/
def newSubmitState (log : DareLog) : SubmitState where
  nodeId := 0
  term := 1
  proxy := ⟨fun _ => none, 0, 0, 0⟩
  tailq := []
  log := log
  conns := fun _ => 0
  accepted := 0
  submitted := []
  appended := []

theorem submitInit_new {log : DareLog} (h : log.len = LOG_SIZE) :
    SubmitInit (newSubmitState log) :=
  ⟨rfl, rfl, fun _ => rfl, rfl, h, rfl, rfl, rfl⟩

/-- A connection, a read and a close reach the log. -/
theorem requests_in_order_three : ∃ s, s.appended.length = 3 ∧ s.tailq.length = 1 ∧
    InOrder s s.appended.length := by
  have hrun : (execIf submitStep submitOk (newSubmitState logNew)
      [.accept 5, .read 5 [7, 8], .drain, .close 5, .drain, .accept 5]).isSome = true := by
    decide +kernel
  obtain ⟨s, hs⟩ := Option.isSome_iff_exists.mp hrun
  have hreach : Reach SubmitInit SubmitStep submitOk s :=
    Reach.steps (.start (submitInit_new rfl)) (fun _ _ h => h) (Steps.refl.execIf hs)
  have hlen : ((execIf submitStep submitOk (newSubmitState logNew)
      [.accept 5, .read 5 [7, 8], .drain, .close 5, .drain, .accept 5]).map fun s =>
        (s.appended.length, s.tailq.length)) = some (3, 1) := by
    decide +kernel
  rw [hs, Option.map_some, Option.some.injEq, Prod.mk.injEq] at hlen
  exact ⟨s, hlen.1, hlen.2, requests_in_order hreach⟩

/-- A log whose entries were all pruned counts as full: the request that is drained into it is
    freed. -/
theorem not_requests_in_order :
    ¬ ∀ s, Reach SubmitInit SubmitStep Always s → ∃ k, InOrder s k := by
  intro hall
  have hrun : ((exec submitStep (newSubmitState { logOf 64 64 64 zeroMem with tail := 0 })
      [.accept 5, .drain]).map fun s => (s.appended.length, s.tailq.length, s.submitted.length)) =
        some (0, 0, 1) := by
    decide +kernel
  obtain ⟨s, hs, hlen⟩ := Option.map_eq_some_iff.mp hrun
  simp only [Prod.mk.injEq] at hlen
  obtain ⟨happended, hqueue, hsubmitted⟩ := hlen
  have hreach := Reach.exec (.start (submitInit_new (by rfl))) hs
  obtain ⟨k, hk⟩ := hall s hreach
  have h1 := hk.appended.length_eq
  have h2 := congrArg List.length hk.queued
  simp only [List.length_map, List.length_take, List.length_drop] at h1 h2
  omega

/-! ### The bytes of a read -/

/-- What `apply_committed_entries` of a follower hands to `do_action_to_server`. -/
def followerAction (m : Mem) (entry : Nat) : Option ServerAction :=
  doActionToServer (getU16 m (entry + CLT_ID_OFF)) (getU8 m (entry + 26))
    (bytes m (entry + CMD_OFF) (getU16 m (entry + DATA_OFF)).toNat)

/-- The entry of `size` bytes at `entry` was replicated: `sender` and the reply array are each
    server's own. -/
structure Replicated (m m' : Mem) (entry size : Nat) : Prop where
  header : ∀ x, entry ≤ x → x < entry + SENDER_OFF → m x = m' x
  data : ∀ x, entry + DATA_OFF ≤ x → x < entry + size → m x = m' x

/-- The entry at the tail carries exactly the bytes `buf`, and a follower's application gets them. -/
structure PayloadSurvives (log : DareLog) (connectionId : UInt16) (buf : List UInt8) : Prop where
  cmd : (readEntry log.entries log.tail).cmd = buf
  len : (getU16 log.entries (log.tail + DATA_OFF)).toNat = buf.length
  follower : ∀ m, Replicated log.entries m log.tail (readEntry log.entries log.tail).size →
    followerAction m log.tail = some (.send connectionId buf)

section Payload

variable {m : Mem} {o : Nat}

/-- A client entry's command is as long as its length field says. -/
theorem readEntry_cmd (h : isCsm (readEntry m o).type = true) :
    (readEntry m o).cmd = bytes m (o + CMD_OFF) (getU16 m (o + DATA_OFF)).toNat := if_pos h

/-- A follower's action for a SEND entry. -/
theorem followerAction_send (h : (readEntry m o).type = SEND) :
    followerAction m o = some (.send (readEntry m o).cltId (readEntry m o).cmd) := by
  have htype : getU8 m (o + 26) = SEND := h
  have hne : SEND ≠ CONNECT := by decide
  have hcsm : isCsm SEND = true := by decide
  unfold followerAction doActionToServer
  rw [htype, if_neg hne, if_pos rfl, readEntry_cmd (by rw [h]; exact hcsm)]
  rfl

/-- A command that fits its length field is kept whole. -/
theorem requestCmd_of_lt {buf : List UInt8} (h : buf.length < 65536) :
    (requestCmd buf).cmd = buf := by
  show buf.take (buf.length % 65536) = buf
  rw [Nat.mod_eq_of_lt h, List.take_length]

end Payload

/-- **The bytes of a read survive** exactly if there are fewer than `2 ^ 16` of them. -/
theorem payload_survives_iff {proxy : ProxyNode} {nodeId : UInt8} {fd request : Nat}
    {buf : List UInt8} {r : ProxyNode × TailqEntry} {log log' : DareLog} {term idx : UInt64}
    (hsubmit : submitReq proxy nodeId SEND fd buf request = some r) (hlog : log.len = LOG_SIZE)
    (happend : logAppendEntry log term r.2.reqId r.2.connectionId r.2.type { cmd := r.2.cmd } =
      some (log', idx))
    (hrej : appendRejected log r.2.type { cmd := r.2.cmd } = false) :
    PayloadSurvives log' r.2.connectionId buf ↔ buf.length < 65536 := by
  have hread := (logAppendEntry_readEntry hlog happend).2 hrej
  have hmessage : r.2.type = SEND ∧ r.2.cmd = requestCmd buf := by
    unfold submitReq at hsubmit
    rw [if_neg (by decide)] at hsubmit
    obtain ⟨pair, -, rfl⟩ := Option.map_eq_some_iff.mp hsubmit
    exact ⟨rfl, rfl⟩
  obtain ⟨htype, hcmd⟩ := hmessage
  rw [htype, hcmd] at hread
  have hcsm : isCsm SEND = true := by decide
  have hentry : (readEntry log'.entries log'.tail).type = SEND := by rw [hread]; rfl
  have hbytes : (readEntry log'.entries log'.tail).cmd = (requestCmd buf).cmd := by
    rw [hread]
    simp only [mkEntry, hcsm, if_true]
  constructor
  · -- the length field has 16 bits
    intro h
    rw [← h.len]
    exact UInt16.toNat_lt _
  · intro hlt
    rw [requestCmd_of_lt hlt] at hbytes
    refine ⟨hbytes, ?_, ?_⟩
    · rw [← hbytes, readEntry_cmd (by rw [hentry]; exact hcsm), length_bytes]
    · intro m hm
      have hsame := readEntry_congr hm.header hm.data
      rw [followerAction_send (by rw [← hsame]; exact hentry), ← hsame, hbytes, hread]
      rfl

/-- A proxy with one connection, on the socket `5`. -/
def oneConnection : ProxyNode where
  leaderHashMap := fun fd => if fd = 5 then some ⟨5, 1, 256⟩ else none
  highestRec := 1
  curRec := 1
  pairCount := 1

/-- A read of that connection is appended to a new log. -/
theorem exists_append_read (buf : List UInt8) : ∃ r log' idx,
    submitReq oneConnection 1 SEND 5 buf 2 = some r ∧
    logAppendEntry logNew 1 r.2.reqId r.2.connectionId r.2.type { cmd := r.2.cmd } =
      some (log', idx) ∧ appendRejected logNew r.2.type { cmd := r.2.cmd } = false := by
  have hknown : TailKnown logNew := .inr rfl
  have hhead : logNew.end_ ≠ logNew.head := by decide
  have hheader : logFitEntryHeader logNew logNew.end_ = false := by decide
  obtain ⟨r, hr⟩ : ∃ r, submitReq oneConnection 1 SEND 5 buf 2 = some r := ⟨_, rfl⟩
  obtain ⟨p, hp⟩ : ∃ p, logAppendEntry logNew 1 r.2.reqId r.2.connectionId r.2.type
    { cmd := r.2.cmd } = some p := ⟨_, logAppendEntry_eq hknown⟩
  refine ⟨r, p.1, p.2, hr, hp, ?_⟩
  rw [appendRejected, hheader, Bool.and_false, Bool.false_and, Bool.or_false, beq_eq_false_iff_ne]
  exact hhead

/-- Two bytes survive. -/
theorem payload_survives_iff_two : ∃ log' id, PayloadSurvives log' id [7, 8] := by
  obtain ⟨r, log', idx, hsubmit, happend, hrej⟩ := exists_append_read [7, 8]
  exact ⟨log', _, (payload_survives_iff hsubmit rfl happend hrej).mpr (by decide)⟩

/-- A read of `2 ^ 16` bytes is appended without any. -/
theorem not_payload_survives : ¬ ∀ (proxy : ProxyNode) (nodeId : UInt8) (fd request : Nat)
    (buf : List UInt8) (r : ProxyNode × TailqEntry) (log log' : DareLog) (term idx : UInt64),
    0 < buf.length → submitReq proxy nodeId SEND fd buf request = some r → log.len = LOG_SIZE →
    logAppendEntry log term r.2.reqId r.2.connectionId r.2.type { cmd := r.2.cmd } =
      some (log', idx) →
    appendRejected log r.2.type { cmd := r.2.cmd } = false →
    PayloadSurvives log' r.2.connectionId buf := by
  intro hall
  have hlen : (List.replicate 65536 (0 : UInt8)).length = 65536 := List.length_replicate
  obtain ⟨r, log', idx, hsubmit, happend, hrej⟩ := exists_append_read (List.replicate 65536 0)
  have hsurvives := hall _ _ _ _ _ _ _ _ _ _ (by rw [hlen]; decide) hsubmit rfl happend hrej
  have hlt := (getU16 log'.entries (log'.tail + DATA_OFF)).toNat_lt
  rw [hsurvives.len, hlen] at hlt
  omega

end Apus
