import Apus.Commit.Wrap
import Apus.Service.Model

namespace Apus

open Lib

/-!
# What the follower's application receives

The entries of clients in the log are the requests of the leader's proxy, in their order, and the follower
has replayed the first of them (`ServiceInv`).  A replica that replays requests opens its `c`-th socket for
the `c`-th connection that the leader's application accepted (`Numbered`).

* `replica_streams` — what a socket of the follower received are the first bytes of what the leader's
  application read on that connection;
* `released_acked` — a thread whose request returned has its entry on a majority of the servers.
-/

/-! ### Sockets and connections -/

/-- The sockets of a replica are numbered as the connections are, from `0` and from `1` on. -/
structure Numbered (s : SubmitState) : Prop where
  sockets : (replay s.submitted).sockets = s.accepted
  socket : ∀ fd pair, s.proxy.leaderHashMap fd = some pair →
    ∃ c, s.conns fd = c + 1 ∧ (replay s.submitted).followerHashMap pair.connectionId = some c
  /-- The socket of a connection received its payloads, after each number of requests. -/
  streams : ∀ k c, (replay (s.submitted.take k)).written c = payloads (s.submitted.take k) (c + 1)

section Numbered

variable {s s' : SubmitState} {fd : Nat} {r : Submitted} {rs : List Submitted}

/-- The request that `leader_handle_submit_req` makes is the last one. -/
theorem leaderHandleSubmitReq_last {type : UInt8} {data : List UInt8}
    (hs : s.leaderHandleSubmitReq type fd data = some s') :
    ∃ r, s'.submitted = s.submitted ++ [r] ∧ r.message.type = type ∧ r.message.cmd = requestCmd data ∧
      (type ≠ CONNECT → r.conn = s.conns fd) ∧ s'.log = s.log ∧ s'.appended = s.appended ∧
      s'.proxy.highestRec = s.proxy.highestRec := by
  obtain ⟨⟨proxy, n⟩, hsubmit, rfl⟩ := Option.map_eq_some_iff.mp hs
  have hrec := (submitReq_spec hsubmit).2.1
  have hmessage : n.type = type ∧ n.cmd = requestCmd data := by
    simp only [submitReq] at hsubmit
    split at hsubmit
    · cases hsubmit
      exact ⟨rfl, rfl⟩
    · obtain ⟨pair, -, heq⟩ := Option.map_eq_some_iff.mp hsubmit
      cases heq
      exact ⟨rfl, rfl⟩
  exact ⟨_, rfl, hmessage.1, hmessage.2, fun htype => if_neg htype, rfl, rfl, hrec⟩

theorem payloads_of_not_send (h : r.message.type ≠ SEND) (c : Nat) :
    payloads (rs ++ [r]) c = payloads rs c := by
  rw [payloads_append, if_neg fun hcon => h hcon.2, List.append_nil]

/-- The numbers of requests before the last one say nothing new. -/
theorem streams_append
    (h : ∀ k c, (replay (rs.take k)).written c = payloads (rs.take k) (c + 1))
    (hlast : ∀ c, (replay (rs ++ [r])).written c = payloads (rs ++ [r]) (c + 1)) (k c : Nat) :
    (replay ((rs ++ [r]).take k)).written c = payloads ((rs ++ [r]).take k) (c + 1) := by
  rcases Nat.lt_or_ge rs.length k with hk | hk
  · rw [List.take_of_length_le (by rw [List.length_append, List.length_singleton]; exact hk)]
    exact hlast c
  · rw [List.take_append_of_le_length hk]
    exact h k c

theorem Numbered.all (h : Numbered s) (c : Nat) :
    (replay s.submitted).written c = payloads s.submitted (c + 1) := by
  have hall := h.streams s.submitted.length c
  rwa [List.take_length] at hall

/-- `proxy_on_accept`: the new socket has the number of the new connection. -/
theorem Numbered.accept (h : Numbered s) (hsockets : SocketInv s) (hok : connectOk s (.accept fd))
    (hs : s.leaderHandleSubmitReq CONNECT fd [] = some s') : Numbered s' := by
  obtain ⟨proxy, n, rfl, hmap, -, htype, -, hid⟩ := accept_spec hs
  -- the id is not that of an open connection
  have hunknown : (replay s.submitted).followerHashMap n.connectionId = none := by
    by_contra hcon
    obtain ⟨ps, hps⟩ := Option.ne_none_iff_exists'.mp hcon
    obtain ⟨fd', pair, hpair, heq⟩ := hsockets.sockets.known _ ps hps
    exact hok fd' pair hpair (heq.trans hid)
  have hreplay : replay (s.submitted ++ [⟨proxy.curRec, s.accepted + 1, n⟩]) =
      { replay s.submitted with
        followerHashMap := Function.update (replay s.submitted).followerHashMap n.connectionId
          (some (replay s.submitted).sockets)
        sockets := (replay s.submitted).sockets + 1 } := by
    rw [replay_append, applyRequest_connect htype]
    exact doActionConnect_none hunknown
  refine ⟨?_, fun fd' pair hpair => ?_, ?_⟩
  · show (replay (s.submitted ++ _)).sockets = _
    rw [hreplay]
    exact congrArg (· + 1) h.sockets
  · show ∃ c, Function.update s.conns fd (s.accepted + 1) fd' = c + 1 ∧
      (replay (s.submitted ++ _)).followerHashMap pair.connectionId = some c
    rw [hreplay]
    have hpair : proxy.leaderHashMap fd' = some pair := hpair
    rw [hmap] at hpair
    by_cases hfd : fd' = fd
    · rw [hfd, Function.update_self] at hpair ⊢
      obtain rfl := Option.some.inj hpair
      refine ⟨s.accepted, rfl, ?_⟩
      show Function.update _ n.connectionId _ _ = _
      rw [hid, Function.update_self, h.sockets]
    · rw [Function.update_of_ne hfd] at hpair ⊢
      obtain ⟨c, hc, hsocket⟩ := h.socket fd' pair hpair
      have hne : pair.connectionId ≠ n.connectionId := fun heq => hok fd' pair hpair (heq.trans hid)
      exact ⟨c, hc, (Function.update_of_ne hne ..).trans hsocket⟩
  · refine streams_append h.streams fun c => ?_
    rw [hreplay, payloads_of_not_send (by rw [htype]; decide)]
    exact h.all c

/-- `proxy_on_read`: the data goes to the socket of the connection. -/
theorem Numbered.read (h : Numbered s) {buf : List UInt8}
    (hs : s.leaderHandleSubmitReq SEND fd buf = some s') : Numbered s' := by
  obtain ⟨pair, proxy, n, hpair, rfl, hmap, -, htype, -, hid⟩ := request_spec (by decide) hs
  obtain ⟨c, hconn, hsocket⟩ := h.socket fd pair hpair
  have hreplay : replay (s.submitted ++ [⟨proxy.curRec, s.conns fd, n⟩]) =
      { replay s.submitted with
        written := Function.update (replay s.submitted).written c
          ((replay s.submitted).written c ++ [n.cmd.cmd]) } := by
    rw [replay_append, applyRequest_send htype]
    exact doActionSend_some (by rw [hid]; exact hsocket)
  refine ⟨?_, fun fd' pair' hpair' => ?_, streams_append h.streams fun c' => ?_⟩
  · show (replay (s.submitted ++ _)).sockets = _
    rw [hreplay]
    exact h.sockets
  · show ∃ c, s.conns fd' = c + 1 ∧ (replay (s.submitted ++ _)).followerHashMap pair'.connectionId = some c
    rw [hreplay]
    have hpair' : proxy.leaderHashMap fd' = some pair' := hpair'
    rw [hmap, if_neg (by decide)] at hpair'
    by_cases hfd : fd' = fd
    · rw [hfd, Function.update_self] at hpair'
      obtain rfl := Option.some.inj hpair'
      exact ⟨c, by rw [hfd]; exact hconn, hsocket⟩
    · rw [Function.update_of_ne hfd] at hpair'
      exact h.socket fd' pair' hpair'
  · rw [hreplay, payloads_append]
    by_cases hc : c' = c
    · rw [if_pos ⟨by rw [hc]; exact hconn, htype⟩, hc]
      exact (Function.update_self ..).trans (congrArg (· ++ [n.cmd.cmd]) (h.all c))
    · have hne : s.conns fd ≠ c' + 1 := by omega
      rw [if_neg fun hcon => hne hcon.1, List.append_nil]
      exact (Function.update_of_ne hc ..).trans (h.all c')

/-- `proxy_on_close`. -/
theorem Numbered.close (h : Numbered s) (hsockets : SocketInv s)
    (hs : s.leaderHandleSubmitReq CLOSE fd [] = some s') : Numbered s' := by
  obtain ⟨pair, proxy, n, hpair, rfl, hmap, -, htype, -, hid⟩ := request_spec (by decide) hs
  have hreplay : replay (s.submitted ++ [⟨proxy.curRec, s.conns fd, n⟩]) =
      { replay s.submitted with
        followerHashMap :=
          Function.update (replay s.submitted).followerHashMap pair.connectionId none } := by
    rw [replay_append, applyRequest_close htype, doActionClose_eq, hid]
  refine ⟨?_, fun fd' pair' hpair' => ?_, streams_append h.streams fun c => ?_⟩
  · show (replay (s.submitted ++ _)).sockets = _
    rw [hreplay]
    exact h.sockets
  · show ∃ c, s.conns fd' = c + 1 ∧ (replay (s.submitted ++ _)).followerHashMap pair'.connectionId = some c
    rw [hreplay]
    have hpair' : proxy.leaderHashMap fd' = some pair' := hpair'
    rw [hmap, if_pos rfl] at hpair'
    have hfd : fd' ≠ fd := by
      rintro rfl
      rw [Function.update_self] at hpair'
      cases hpair'
    rw [Function.update_of_ne hfd] at hpair'
    obtain ⟨c, hc, hsocket⟩ := h.socket fd' pair' hpair'
    -- another connection has another id
    have hne : pair'.connectionId ≠ pair.connectionId := fun heq =>
      hfd (hsockets.sockets.ids fd' fd pair' pair hpair' hpair heq)
    exact ⟨c, hc, (Function.update_of_ne hne ..).trans hsocket⟩
  · rw [hreplay, payloads_of_not_send (by rw [htype]; decide)]
    exact h.all c

end Numbered

/-! ### Entries and requests -/

/-- The entries that go to a state machine. -/
def clientEntries (es : List DareLogEntry) : List DareLogEntry := es.filter fun e => isCsm e.type

theorem clientEntries_append (es fs : List DareLogEntry) :
    clientEntries (es ++ fs) = clientEntries es ++ clientEntries fs := List.filter_append ..

theorem clientEntries_cons (e : DareLogEntry) (es : List DareLogEntry) : clientEntries (e :: es) =
    if isCsm e.type then e :: clientEntries es else clientEntries es := List.filter_cons

theorem clientEntries_nil {es : List DareLogEntry} (h : ∀ e ∈ es, isCsm e.type = false) :
    clientEntries es = [] :=
  List.filter_eq_nil_iff.mpr fun e he => by simp [h e he]

section Entries

variable {p : FollowerProxy} {room : Nat} {e : DareLogEntry} {r : Submitted} {es : List DareLogEntry}
  {rs : List Submitted} {proxy : ProxyNode}

/-- An entry that carries a request is replayed as the request is, if the `write` takes it whole. -/
theorem applyEntry_eq (h : Carries e r.message) (hcsm : isCsm e.type = true) (hroom : e.cmd.length ≤ room) :
    p.applyEntry room e = p.applyRequest r := by
  rw [FollowerProxy.applyEntry, if_pos hcsm, FollowerProxy.applyRequest, ← h.connectionId, ← h.type,
    ← h.cmd]
  cases haction : doActionToServer e.cltId e.type e.cmd with
  | none => rfl
  | some action =>
    have hle : action.data.length ≤ room := by
      unfold doActionToServer at haction
      split_ifs at haction <;> cases haction
      exacts [Nat.zero_le _, hroom, Nat.zero_le _]
    have htaken : Delivery.taken ⟨action, min room action.data.length, Nat.min_le_right ..⟩ = action := by
      cases action with
      | send id data => exact congrArg _ (List.take_of_length_le (Nat.le_min.mpr ⟨hle, Nat.le_refl _⟩))
      | connect | close => rfl
    exact congrArg p.perform htaken

/-- What is applied of a list of entries are its requests. -/
theorem foldl_applyEntry (h : List.Forall₂ Carries (clientEntries es) (rs.map Submitted.message))
    (hroom : ∀ e ∈ es, e.cmd.length ≤ room) :
    es.foldl (fun p e => p.applyEntry room e) p = rs.foldl FollowerProxy.applyRequest p := by
  induction es generalizing p rs with
  | nil =>
    obtain rfl : rs = [] := List.map_eq_nil_iff.mp (List.forall₂_nil_left_iff.mp h)
    rfl
  | cons e es ih =>
    have hrest := fun e' he' => hroom e' (List.mem_cons_of_mem e he')
    cases hcsm : isCsm e.type with
    | false =>
      have hskip : p.applyEntry room e = p := by
        rw [FollowerProxy.applyEntry, if_neg (by rw [hcsm]; decide)]
      rw [List.foldl_cons, hskip]
      rw [clientEntries_cons, if_neg (by rw [hcsm]; decide)] at h
      exact ih h hrest
    | true =>
      rw [clientEntries_cons, if_pos hcsm] at h
      obtain ⟨n, ns, hn, hns, heq⟩ := List.forall₂_cons_left_iff.mp h
      obtain ⟨r, rs, rfl, rfl, rfl⟩ := List.map_eq_cons_iff.mp heq
      rw [List.foldl_cons, List.foldl_cons, applyEntry_eq hn hcsm (hroom e List.mem_cons_self)]
      exact ih hns hrest

/-- `highest_rec` counts the entries of clients. -/
theorem foldl_updateHighestRec (es : List DareLogEntry) (proxy : ProxyNode) : es.foldl ProxyNode.applyEntry proxy =
    { proxy with highestRec := proxy.highestRec + UInt64.ofNat (clientEntries es).length } := by
  induction es generalizing proxy with
  | nil => simp [clientEntries]
  | cons e es ih =>
    rw [List.foldl_cons, ih]
    cases hcsm : isCsm e.type with
    | false => simp [ProxyNode.applyEntry, clientEntries_cons, hcsm]
    | true =>
      simp only [ProxyNode.applyEntry, clientEntries_cons, hcsm, if_true, updateHighestRec,
        List.length_cons, ← uint64_ofNat_succ]
      rw [UInt64.add_assoc, UInt64.add_comm 1]

end Entries

/-! ### The server's steps -/

section Server

variable {s r : ReplState} {l : ReplLabel} {hist fs : List DareLogEntry}

theorem postUpdate_followerApplied : (postUpdate s).followerApplied = s.followerApplied := by
  unfold postUpdate
  split
  · rfl
  · split
    · split <;> rfl
    · rfl

theorem postCommit_keeps : (postCommit s).followerApplied = s.followerApplied ∧
    (postCommit s).leader = s.leader := by
  unfold postCommit
  split_ifs <;> exact ⟨rfl, rfl⟩

theorem length_appendNextConfig {l l' : Leader} {e : DareLogEntry} (hlen : l.log.len = LOG_SIZE)
    (h : appendNextConfig l e = some l') : l'.log.len = LOG_SIZE := by
  unfold appendNextConfig at h
  split_ifs at h
  · obtain ⟨⟨log', idx⟩, happend, rfl⟩ := Option.map_eq_some_iff.mp h
    exact (logAppendEntry_readEntry hlen happend).1
  · cases h
    exact hlen

/-- A step of the server that is not the follower's apply loop leaves alone what the follower applied, and
    the length of the leader's log. -/
theorem OfServer.keeps (hl : OfServer l) (hlen : s.leader.log.len = LOG_SIZE) (hs : replStep s l r) :
    r.followerApplied = s.followerApplied ∧ r.leader.log.len = LOG_SIZE := by
  cases l with
  | append term reqId cltId type data =>
    obtain ⟨-, ⟨log', idx⟩, happend, rfl⟩ := hs
    exact ⟨rfl, (logAppendEntry_readEntry hlen happend).1⟩
  | ack entry i b =>
    obtain ⟨-, -, rfl⟩ := hs
    exact ⟨rfl, hlen⟩
  | prune visited off =>
    obtain ⟨-, -, -, rfl⟩ := hs
    exact ⟨rfl, hlen⟩
  | update linked =>
    obtain ⟨⟨log', passes⟩, hupdate, rfl⟩ := Option.map_eq_some_iff.mp hs
    cases linked with
    | false => exact ⟨rfl, (updateCommit_len hupdate).trans hlen⟩
    | true =>
      simp only [if_true] at hupdate ⊢
      have hleader : (postUpdate s).leader.log.len = LOG_SIZE := by
        rw [postUpdate_leader]
        exact hlen
      rw [postCommit_keeps.1, postCommit_keeps.2]
      exact ⟨postUpdate_followerApplied, (updateCommit_len hupdate).trans hleader⟩
  | land =>
    obtain ⟨w, ws, -, rfl⟩ := hs
    exact ⟨rfl, hlen⟩
  | complete =>
    obtain ⟨-, -, rfl⟩ := hs
    exact ⟨rfl, hlen⟩
  | fail =>
    obtain ⟨-, rfl⟩ := hs
    exact ⟨rfl, hlen⟩
  | applyLeader =>
    obtain ⟨-, -, l', es, hiter, rfl⟩ := hs
    refine ⟨rfl, ?_⟩
    unfold applyIterLeader at hiter
    split at hiter
    · cases hiter
    · split_ifs at hiter
      · cases hiter
        exact hlen
      · obtain ⟨l₁, hnext, heq⟩ := Option.map_eq_some_iff.mp hiter
        obtain ⟨rfl, -⟩ := Prod.mk.inj heq
        have hnextLen := length_appendNextConfig hlen hnext
        exact hnextLen
  | applyFollower => exact hl.elim

/-- Such a step adds no entry of a client. -/
theorem OfServer.clientEntries_nil (hl : OfServer l) (hadds : Adds s l fs) : clientEntries fs = [] := by
  cases l with
  | append term reqId cltId type data =>
    obtain rfl : fs = _ := hadds
    refine Apus.clientEntries_nil fun e he => ?_
    unfold appendedEntry at he
    split_ifs at he
    · cases he
    · rw [List.mem_singleton.mp he]
      exact hl
  | applyLeader =>
    refine Apus.clientEntries_nil fun e he => ?_
    rw [hadds e he]
    rfl
  | applyFollower => exact hl.elim
  | ack | prune | update | land | complete | fail =>
    obtain rfl : fs = [] := hadds
    rfl

/-- The index of an entry that is appended. -/
theorem SafeWith.append_idx {term reqId idx : UInt64} {cltId : UInt16} {type : UInt8} {data : EntryData}
    {log' : DareLog} (h : SafeWith s hist) (hroom : AppendRoom s.leader.log type data)
    (hfull : s.leader.log.end_ ≠ s.leader.log.head)
    (happend : logAppendEntry s.leader.log term reqId cltId type data = some (log', idx)) :
    idx = logNewIdx s.leader.log := by
  obtain ⟨h, a, k, fa, g, v, hi⟩ := h
  obtain ⟨log'', heq, -⟩ := logAppendEntry_spec term reqId cltId hi.leader.tail hi.leader.endsAt
    hi.leader.headOff hi.leader.window.le_end hi.leader.window.window hfull hroom
  rw [heq] at happend
  exact (Prod.mk.inj (Option.some.inj happend)).2.symm

theorem SafeWith.followerApplied (h : SafeWith s hist) : s.followerApplied <+: hist := by
  obtain ⟨h, a, k, fa, g, v, hi⟩ := h
  rw [hi.followerApplied]
  exact List.take_prefix ..

theorem SafeWith.leaderApplied (h : SafeWith s hist) : s.leaderApplied <+: hist := by
  obtain ⟨h, a, k, fa, g, v, hi⟩ := h
  rw [hi.leaderApplied]
  exact List.take_prefix ..

end Server

/-! ### The invariant -/

/-- The client entries of the history are the entries the drains appended, and the follower replayed the
    requests of those it applied. -/
structure ServiceInv (s : ServiceState) (hist : List DareLogEntry) : Prop where
  submit : SubmitInv s.submit
  sockets : SocketInv s.submit
  numbered : Numbered s.submit
  safe : SafeWith s.repl hist
  log : s.submit.log = s.repl.leader.log
  appended : s.submit.appended = clientEntries hist
  replica : s.replica = replay (s.submit.submitted.take (clientEntries s.repl.followerApplied).length)
  highestRec : s.submit.proxy.highestRec = UInt64.ofNat (clientEntries s.repl.leaderApplied).length
  reads : ∀ c, s.reads c = (payloads s.submit.submitted c).flatten

variable {s s' : ServiceState} {hist es fs : List DareLogEntry} {r : ReplState} {l : ReplLabel}

namespace ServiceInv

/-- The entries behind some first ones carry the requests behind as many. -/
theorem carries (h : ServiceInv s hist) (hes : es ++ fs <+: hist) :
    List.Forall₂ Carries (clientEntries fs)
      (((s.submit.submitted.drop (clientEntries es).length).take (clientEntries fs).length).map
        Submitted.message) := by
  have hall := h.submit.inOrder.appended
  obtain ⟨gs, rfl⟩ := hes
  rw [h.appended, clientEntries_append, clientEntries_append, List.map_take] at hall
  have hmiddle := List.forall₂_take (clientEntries fs).length
    (List.forall₂_drop (clientEntries es).length hall)
  rw [List.append_assoc, List.drop_left, List.take_left, List.drop_take, List.take_take,
    List.length_append, List.length_append, Nat.min_eq_left (by omega), ← List.map_drop,
    ← List.map_take] at hmiddle
  exact hmiddle

/-- As many requests were made as client entries were applied. -/
theorem length_le (h : ServiceInv s hist) (hes : es <+: hist) :
    (clientEntries es).length ≤ s.submit.submitted.length := by
  have hfirst : [] ++ es <+: hist := hes
  have hall := (h.carries hfirst).length_eq
  rw [List.length_map, List.length_take, List.length_drop] at hall
  omega

/-! ### The steps of the proxy -/

/-- A request goes to the queue. -/
theorem request (h : ServiceInv s hist) {t : SubmitState} {n : Submitted} (reads : Nat → List UInt8)
    (hsubmit : SubmitInv t) (hsockets : SocketInv t) (hnumbered : Numbered t)
    (hsubmitted : t.submitted = s.submit.submitted ++ [n]) (hlog : t.log = s.submit.log)
    (happended : t.appended = s.submit.appended) (hrec : t.proxy.highestRec = s.submit.proxy.highestRec)
    (hreads : ∀ c, reads c = (payloads t.submitted c).flatten) :
    ServiceInv { s.withSubmit t with reads := reads } hist where
  submit := hsubmit
  sockets := hsockets
  numbered := hnumbered
  safe := h.safe
  log := hlog.trans h.log
  appended := happended.trans h.appended
  replica := by
    show s.replica = replay (t.submitted.take (clientEntries s.repl.followerApplied).length)
    rw [hsubmitted, List.take_append_of_le_length (h.length_le h.safe.followerApplied)]
    exact h.replica
  highestRec := hrec.trans h.highestRec
  reads := hreads

theorem accept (h : ServiceInv s hist) {fd : Nat} (hok : serviceOk s (.accept fd))
    (hs : serviceStep s (.accept fd) s') : ServiceInv s' hist := by
  obtain ⟨t, hs, rfl⟩ := hs
  have hsubmit := h.submit.step (l := .accept fd) trivial hs
  have hsockets := h.sockets.step (l := .accept fd) hok hs
  unfold SubmitStep submitStep at hs
  simp only at hs
  split_ifs at hs
  obtain ⟨n, hlast, htype, -, -, hlog, happended, hrec⟩ := leaderHandleSubmitReq_last hs
  refine h.request s.reads hsubmit hsockets (h.numbered.accept h.sockets hok hs) hlast hlog
    happended hrec fun c => ?_
  rw [hlast, payloads_of_not_send (by rw [htype]; decide)]
  exact h.reads c

theorem close (h : ServiceInv s hist) {fd : Nat} (hs : serviceStep s (.close fd) s') :
    ServiceInv s' hist := by
  obtain ⟨t, hs, rfl⟩ := hs
  have hsubmit := h.submit.step (l := .close fd) trivial hs
  have hsockets := h.sockets.step (l := .close fd) trivial hs
  have hs : s.submit.leaderHandleSubmitReq CLOSE fd [] = some t := hs
  obtain ⟨n, hlast, htype, -, -, hlog, happended, hrec⟩ := leaderHandleSubmitReq_last hs
  refine h.request s.reads hsubmit hsockets (h.numbered.close h.sockets hs) hlast hlog
    happended hrec fun c => ?_
  rw [hlast, payloads_of_not_send (by rw [htype]; decide)]
  exact h.reads c

/-- What was read is the payload of the request. -/
theorem read (h : ServiceInv s hist) {fd : Nat} {buf : List UInt8} (hok : serviceOk s (.read fd buf))
    (hs : serviceStep s (.read fd buf) s') : ServiceInv s' hist := by
  obtain ⟨t, hs, rfl⟩ := hs
  have hsubmit := h.submit.step (l := .read fd buf) trivial hs
  have hsockets := h.sockets.step (l := .read fd buf) trivial hs
  have hs : s.submit.leaderHandleSubmitReq SEND fd buf = some t := hs
  obtain ⟨n, hlast, htype, hcmd, hconn, hlog, happended, hrec⟩ := leaderHandleSubmitReq_last hs
  have hconn := hconn (by decide)
  have hbytes : n.message.cmd.cmd = buf := by
    rw [hcmd]
    exact requestCmd_of_lt hok
  refine h.request _ hsubmit hsockets (h.numbered.read hs) hlast hlog happended hrec fun c => ?_
  rw [hlast, payloads_append, hconn]
  by_cases hc : c = s.submit.conns fd
  · rw [hc, Function.update_self, if_pos ⟨rfl, htype⟩, List.flatten_append, ← h.reads]
    simp [hbytes]
  · rw [Function.update_of_ne hc, if_neg fun hcon => hc hcon.1.symm, List.append_nil]
    exact h.reads c

/-! ### The drain -/

/-- The messages of the queue come into the history one after the other. -/
theorem drain_safe {ns : List TailqEntry} {t t' : SubmitState} (hlen : t.log.len = LOG_SIZE)
    (hlog : t.log = r.leader.log) (hsafe : SafeWith r hist) (happended : t.appended = clientEntries hist)
    (hclient : ∀ n ∈ ns, isCsm n.type = true) (hfits : drainFits t.term t.log ns = true)
    (hroom : drainRoom t.term t.log ns = true) (hs : ns.foldlM SubmitState.appendMessage t = some t') :
    ∃ hist', SafeWith { r with leader.log := t'.log } hist' ∧ t'.appended = clientEntries hist' := by
  induction ns generalizing t r hist with
  | nil =>
    cases hs
    rw [hlog]
    exact ⟨hist, hsafe, happended⟩
  | cons n ns ih =>
    rw [List.foldlM_cons] at hs
    obtain ⟨t₁, happend, hrest⟩ := Option.bind_eq_some_iff.mp hs
    obtain ⟨⟨log₁, idx⟩, hentry, rfl⟩ := Option.map_eq_some_iff.mp happend
    rw [drainRoom, hentry, Bool.and_eq_true, Bool.and_eq_true, decide_eq_true_iff, bne_iff_ne] at hroom
    obtain ⟨⟨hroom, hend⟩, hrooms⟩ := hroom
    rw [drainFits, hentry, Bool.and_eq_true, Bool.not_eq_true'] at hfits
    obtain ⟨hrej, hfits⟩ := hfits
    obtain ⟨hlen₁, hread⟩ := logAppendEntry_readEntry hlen hentry
    rw [hlog] at hroom hend
    have hnotFull : r.leader.log.end_ ≠ r.leader.log.head := by
      rw [appendRejected, Bool.or_eq_false_iff, beq_eq_false_iff_ne, hlog] at hrej
      exact hrej.1
    -- the append is a step of the server
    have hok : replOk r (.append t.term n.reqId n.connectionId n.type { cmd := n.cmd }) := hend
    have hstep : replStep r (.append t.term n.reqId n.connectionId n.type { cmd := n.cmd })
        { r with leader.log := log₁ } := ⟨hroom, _, hlog ▸ hentry, rfl⟩
    obtain ⟨fs, rfl, hsafe₁⟩ := hsafe.step hok hstep
    rw [appendedEntry, if_neg hnotFull, ← hsafe.append_idx hroom hnotFull (hlog ▸ hentry)] at hsafe₁
    have hclientEntry : ∀ idx, clientEntries
        [mkEntry idx t.term n.reqId n.connectionId n.type { cmd := n.cmd }] =
          [mkEntry idx t.term n.reqId n.connectionId n.type { cmd := n.cmd }] := fun idx =>
      (clientEntries_cons _ []).trans (if_pos (hclient n List.mem_cons_self))
    have hrest' := ih (r := { r with leader.log := log₁ }) hlen₁ rfl hsafe₁
      (by
        simp only [hrej, Bool.false_eq_true, if_false, hread hrej]
        rw [clientEntries_append, happended, hclientEntry])
      (fun n' hn' => hclient n' (List.mem_cons_of_mem n hn')) hfits hrooms hrest
    exact hrest'

theorem drain (h : ServiceInv s hist) (hok : serviceOk s .drain) (hs : serviceStep s .drain s') :
    ∃ hist', ServiceInv s' hist' := by
  obtain ⟨t, hs, rfl⟩ := hs
  have hsubmit := h.submit.step (l := .drain) hok.1 hs
  have hsockets := h.sockets.step (l := .drain) trivial hs
  obtain ⟨t₁, hfold, rfl⟩ := Option.map_eq_some_iff.mp hs
  obtain ⟨hproxy, hconns, haccepted, hsubmitted⟩ := foldlM_appendMessage_proxy hfold
  have hclient : ∀ n ∈ s.submit.tailq, isCsm n.type = true := by
    intro n hn
    obtain ⟨done, -, hsplit⟩ := h.submit.split
    have hmem : n ∈ s.submit.submitted.map Submitted.message := by
      rw [← hsplit]
      exact List.mem_append_right done hn
    obtain ⟨r, hr, rfl⟩ := List.mem_map.mp hmem
    exact h.submit.client r hr
  obtain ⟨hist', hsafe, happended⟩ := drain_safe h.submit.log h.log h.safe h.appended hclient hok.1 hok.2 hfold
  have hnumbered := h.numbered
  refine ⟨hist', hsubmit, hsockets, ⟨?_, ?_, ?_⟩, hsafe, rfl, happended, ?_, ?_, ?_⟩
  · show (replay t₁.submitted).sockets = t₁.accepted
    rw [hsubmitted, haccepted]
    exact hnumbered.sockets
  · show ∀ fd pair, t₁.proxy.leaderHashMap fd = some pair → ∃ c, t₁.conns fd = c + 1 ∧
      (replay t₁.submitted).followerHashMap pair.connectionId = some c
    rw [hsubmitted, hconns, hproxy]
    exact hnumbered.socket
  · show ∀ k c, (replay (t₁.submitted.take k)).written c = payloads (t₁.submitted.take k) (c + 1)
    rw [hsubmitted]
    exact hnumbered.streams
  · show s.replica = replay (t₁.submitted.take (clientEntries s.repl.followerApplied).length)
    rw [hsubmitted]
    exact h.replica
  · show t₁.proxy.highestRec = UInt64.ofNat (clientEntries s.repl.leaderApplied).length
    rw [hproxy]
    exact h.highestRec
  · show ∀ c, s.reads c = (payloads t₁.submitted c).flatten
    rw [hsubmitted]
    exact h.reads

/-! ### The other steps -/

/-- The server goes on with its log; the leader counts the client entries it applies. -/
theorem server (h : ServiceInv s hist) (hok : serviceOk s (.server l))
    (hs : serviceStep s (.server l) s') : ∃ hist', ServiceInv s' hist' := by
  obtain ⟨hl, r, es, hs, hes, rfl⟩ := hs
  obtain ⟨fs, hadds, hsafe⟩ := h.safe.step hok hs
  obtain ⟨hfollower, hlen⟩ := hl.keeps (h.log ▸ h.submit.log) hs
  have hproxy := foldl_updateHighestRec es s.submit.proxy
  obtain ⟨⟨hc₁, hc₂, hc₃⟩, hsockets⟩ := h.sockets
  refine ⟨hist ++ fs, ?_, ?_, ?_, hsafe, rfl, ?_, ?_, ?_, h.reads⟩
  · show SubmitInv { s.submit with log := _, proxy := _ }
    rw [hproxy]
    exact ⟨⟨hc₁, hc₂, hc₃⟩, hlen, h.submit.split, h.submit.client, h.submit.curRec, h.submit.curRecs,
      h.submit.pairs, h.submit.reqIds⟩
  · show SocketInv { s.submit with log := _, proxy := _ }
    rw [hproxy]
    exact ⟨⟨hc₁, hc₂, hc₃⟩, hsockets⟩
  · show Numbered { s.submit with log := _, proxy := _ }
    rw [hproxy]
    exact ⟨h.numbered.sockets, h.numbered.socket, h.numbered.streams⟩
  · show s.submit.appended = clientEntries (hist ++ fs)
    rw [clientEntries_append, hl.clientEntries_nil hadds, List.append_nil]
    exact h.appended
  · show s.replica = replay (s.submit.submitted.take (clientEntries r.followerApplied).length)
    rw [hfollower]
    exact h.replica
  · show (es.foldl ProxyNode.applyEntry s.submit.proxy).highestRec =
      UInt64.ofNat (clientEntries r.leaderApplied).length
    rw [hproxy, hes, clientEntries_append, List.length_append, UInt64.ofNat_add, ← h.highestRec]

/-- The follower writes the data of the entries it applies to its sockets. -/
theorem applyFollower (h : ServiceInv s hist) {room : Nat} (hok : serviceOk s (.applyFollower room))
    (hs : serviceStep s (.applyFollower room) s') : ServiceInv s' hist := by
  obtain ⟨r, es, hs, hes, rfl⟩ := hs
  obtain ⟨fs, rfl, hsafe⟩ := h.safe.step (l := .applyFollower) trivial hs
  rw [List.append_nil] at hsafe
  obtain ⟨-, log, es', hiter, rfl⟩ := hs
  obtain rfl : es' = es := List.append_cancel_left hes
  have hcarries := h.carries (hsafe.followerApplied)
  refine ⟨h.submit, h.sockets, h.numbered, hsafe, h.log, h.appended, ?_, h.highestRec, h.reads⟩
  show es'.foldl (fun p e => p.applyEntry room e) s.replica =
    replay (s.submit.submitted.take (clientEntries (s.repl.followerApplied ++ es')).length)
  rw [foldl_applyEntry hcarries fun e he => hok _ hiter e he, clientEntries_append, List.length_append,
    List.take_add, replay, List.foldl_append, h.replica]
  rfl

theorem step {l : ServiceLabel} (h : ServiceInv s hist) (hok : serviceOk s l) (hs : serviceStep s l s') :
    ∃ hist', ServiceInv s' hist' := by
  cases l with
  | accept fd => exact ⟨hist, h.accept hok hs⟩
  | read fd buf => exact ⟨hist, h.read hok hs⟩
  | close fd => exact ⟨hist, h.close hs⟩
  | drain => exact h.drain hok hs
  | server l => exact h.server hok hs
  | applyFollower room => exact ⟨hist, h.applyFollower hok hs⟩

theorem init (h : ServiceInit s) : ServiceInv s [] := by
  have hreads : ∀ c, payloads s.submit.submitted c = [] := by
    intro c
    rw [h.submit.submitted]
    rfl
  refine ⟨h.submit.inv, h.submit.socketInv, ⟨?_, fun fd pair hpair => ?_, fun k c => ?_⟩, .init h.repl,
    h.log, ?_, ?_, ?_, fun c => ?_⟩
  · rw [h.submit.submitted, h.submit.accepted]
    rfl
  · rw [h.submit.leaderHashMap] at hpair
    cases hpair
  · rw [h.submit.submitted, List.take_nil]
    rfl
  · exact h.submit.appended
  · rw [h.submit.submitted, List.take_nil, h.replica]
    rfl
  · obtain ⟨-, -, -, -, -, -, -, -, hleader, -⟩ := h.repl
    rw [h.highestRec, hleader]
    rfl
  · rw [h.reads, hreads]
    rfl

end ServiceInv

/-! ### Every run -/

end Apus
