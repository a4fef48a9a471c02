import Apus.Proxy.RecordDb
import Mathlib.Logic.Function.Basic

namespace Apus

/-!
# SM replies

A joining server asks the others for a snapshot, and `poll_sm_requests` of a follower answers with
the address, the length and the key of one (`rc_send_sm_reply`).  A snapshot is created when the
flag `SNAPSHOT` is clear; a committed HEAD entry clears it again (`log_pruning`,
`poll_config_entries`).

The flag lives across calls, but the pointer to the snapshot and the flag for its registration are
locals that only a creation sets.

* `pollSmRequests` — one call, `none` when it uses the pointer before it is set;
* `smRun_right_iff` — every reply is right exactly when a call that has to answer finds the flag
  clear, and the length with the header fits an `uint32_t`.
-/

/-! ### Buffers and regions -/

/-- `sizeof(snapshot_t)`. -/
def SIZEOF_SNAPSHOT : Nat := 32

/-- A pointer to a snapshot: `data.prereg_snapshot`, or what `posix_memalign` returned. -/
inductive SnapshotBuf
  | prereg
  | heap (n : Nat)
  deriving DecidableEq, Repr

/-- `snapshot_t` without its data. -/
structure SnapshotHeader where
  lastEntry : DareLogEntryDet
  len : UInt32

/-- A memory region that starts at a buffer. -/
structure SnapshotMr where
  buf : SnapshotBuf
  length : Nat
  rkey : Nat

/-- `prereg_snapshot_mr`, registered when the server starts. -/
def preregSnapshotMr : SnapshotMr := ⟨.prereg, SIZEOF_SNAPSHOT + PREREG_SNAPSHOT_SIZE, 0⟩

/-- `sm_rep_t` without the SID. -/
structure SmReply where
  raddr : SnapshotBuf
  rkey : Nat
  len : UInt32

/-- What the calls share.  `data.snapshot` is left out: it is never set. -/
structure SmServer where
  /-- `dare_state & SNAPSHOT`. -/
  snapshot : Bool
  /-- `ctrl_data->sm_req`. -/
  smReq : Nat → Bool
  headers : SnapshotBuf → SnapshotHeader
  /-- Buffers allocated so far. -/
  allocated : Nat
  snapshotMr : Option SnapshotMr
  /-- Keys given out so far. -/
  registered : Nat
  /-- The snapshot most recently created: its buffer, and its header then. -/
  newest : Option (SnapshotBuf × SnapshotHeader)
  /-- `dare_server_shutdown` was called. -/
  stopped : Bool

/-- A call of `poll_sm_requests`: the group, the announced length, `last_applied_entry`, and how the
    allocation, the registrations and the sends end. -/
structure SmPoll where
  size : Nat
  idx : Nat
  len : UInt32
  lastApplied : DareLogEntryDet
  memalignOk : Bool
  regOk : Nat → Bool
  postOk : Nat → Bool

/-- The locals of a call, and the replies issued, each with the server as it was then. -/
structure SmLoop where
  server : SmServer
  /-- Not set before a snapshot is created. -/
  snapshot : Option SnapshotBuf
  regMem : Bool
  replies : List (SmReply × SmServer)

/-- The regions that a remote server can access. -/
def SmServer.regions (s : SmServer) : List SnapshotMr := preregSnapshotMr :: s.snapshotMr.toList

/-! ### The functions -/

namespace SmServer

/-- The request of peer `i` is found. -/
def found (s : SmServer) (i : Nat) : SmServer :=
  { s with smReq := Function.update s.smReq i false }

/-- The creation of a snapshot: the server, the pointer, and whether it has to be registered; `none`
    when there is no memory. -/
def createSnapshot (s : SmServer) (c : SmPoll) : Option (SmServer × SnapshotBuf × Bool) :=
  let header : SnapshotHeader := ⟨c.lastApplied, c.len⟩
  let filled (s : SmServer) (buf : SnapshotBuf) : SmServer :=
    { s with
      headers := Function.update s.headers buf header
      newest := some (buf, header)
      snapshot := true }
  if c.len.toNat ≤ PREREG_SNAPSHOT_SIZE then some (filled s .prereg, .prereg, false)
  else if c.memalignOk then
    some ({ filled s (.heap s.allocated) with allocated := s.allocated + 1 },
      .heap s.allocated, true)
  else none

/-- `rc_send_sm_reply` up to the send: the reply, `none` when the registration fails.  The outer
    `none` is an access through a `snapshot_mr` that is NULL. -/
def rcSendSmReply (s : SmServer) (snapshot : SnapshotBuf) (regMem regOk : Bool) :
    Option (SmServer × Option SmReply) :=
  let s := if regMem then
      { s with
        snapshotMr := if regOk then
            some ⟨snapshot, SIZEOF_SNAPSHOT + (s.headers snapshot).len.toNat, s.registered + 1⟩
          else none
        registered := s.registered + 1 }
    else s
  if regMem && !regOk then some (s, none)
  else
    let lclMr := if snapshot = .prereg then some preregSnapshotMr else s.snapshotMr
    lclMr.map fun mr =>
      (s, some ⟨snapshot, mr.rkey,
        UInt32.ofNat (SIZEOF_SNAPSHOT + (s.headers snapshot).len.toNat)⟩)

end SmServer

/-- The answer to the request of peer `i`. -/
def SmLoop.answer (l : SmLoop) (c : SmPoll) (i : Nat) : Option SmLoop :=
  match l.snapshot with
  | none => none
  | some snapshot =>
    (l.server.rcSendSmReply snapshot l.regMem (c.regOk i)).map fun r =>
      match r.2 with
      | none => { l with server := { r.1 with stopped := true } }
      | some reply =>
        { l with
          server := { r.1 with stopped := !c.postOk i }
          replies := l.replies ++ [(reply, r.1)] }

/-- One iteration of `poll_sm_requests`. -/
def SmLoop.visit (c : SmPoll) (l : SmLoop) (i : Nat) : Option SmLoop :=
  if l.server.stopped then some l
  else if i = c.idx then some l
  else if l.server.smReq i then
    if l.server.snapshot then { l with server := l.server.found i }.answer c i
    else
      match (l.server.found i).createSnapshot c with
      | none => some { l with server := { l.server.found i with stopped := true } }
      | some (s, snapshot, regMem) =>
        { l with server := s, snapshot := some snapshot, regMem := l.regMem || regMem }.answer c i
  else some l

/-- `poll_sm_requests`: the server and the replies issued. -/
def SmServer.pollSmRequests (s : SmServer) (c : SmPoll) :
    Option (SmServer × List (SmReply × SmServer)) :=
  ((List.range c.size).foldlM (SmLoop.visit c) ⟨s, none, false, []⟩).map fun l =>
    (l.server, l.replies)

/-! ### Runs -/

inductive SmEvent
  /-- Peer `i` writes its request. -/
  | request (i : Nat)
  | poll (c : SmPoll)
  /-- The head offset moved. -/
  | reset

/-- One event: the server and the replies issued. -/
def smStep (s : SmServer) : SmEvent → Option (SmServer × List (SmReply × SmServer))
  | .request i => some ({ s with smReq := Function.update s.smReq i true }, [])
  | .poll c => s.pollSmRequests c
  | .reset => some ({ s with snapshot := false }, [])

/-- The events one after the other. -/
def smRun : SmServer → List SmEvent → Option (SmServer × List (SmReply × SmServer))
  | s, [] => some (s, [])
  | s, e :: es => (smStep s e).bind fun r => (smRun r.1 es).map fun r' => (r'.1, r.2 ++ r'.2)

/-- The reply points to the newest snapshot, which still has its header, and the region with the key
    of the reply covers it. -/
structure ReplyRight (p : SmReply × SmServer) : Prop where
  newest : ∃ header, p.2.newest = some (p.1.raddr, header) ∧ p.2.headers p.1.raddr = header ∧
    p.1.len.toNat = SIZEOF_SNAPSHOT + header.len.toNat
  covered : ∃ mr ∈ p.2.regions, mr.rkey = p.1.rkey ∧ mr.buf = p.1.raddr ∧
    p.1.len.toNat ≤ mr.length

/-- The run is defined, and its replies are right. -/
def RepliesRight (s : SmServer) (es : List SmEvent) : Prop :=
  ∃ r, smRun s es = some r ∧ ∀ p ∈ r.2, ReplyRight p

/-- The first peer whose request the call finds. -/
def SmServer.firstRequester (s : SmServer) (c : SmPoll) : Option Nat :=
  if s.stopped then none else (List.range c.size).find? fun i => i != c.idx && s.smReq i

/-- A call that finds a request finds the flag clear; and when it gets the memory for a snapshot, the
    length with the header fits an `uint32_t`. -/
def PollFresh (s : SmServer) : SmEvent → Prop
  | .poll c => ∀ i, s.firstRequester c = some i → s.snapshot = false ∧
      (c.memalignOk = true → c.regOk i = true → SIZEOF_SNAPSHOT + c.len.toNat < 4294967296)
  | _ => True

/-- All calls of the run are such. -/
def RunFresh : SmServer → List SmEvent → Prop
  | _, [] => True
  | s, e :: es => PollFresh s e ∧ ∀ r, smStep s e = some r → RunFresh r.1 es

/-! ### Sending a reply -/

namespace SmServer

/-- The buffer lies where the reply looks for its region: a small snapshot is in the registered
    buffer, and another one is registered by every reply. -/
def Placed (s : SmServer) (buf : SnapshotBuf) (regMem : Bool) : Prop :=
  (buf = .prereg ∧ regMem = false ∧ (s.headers buf).len.toNat ≤ PREREG_SNAPSHOT_SIZE) ∨
    (buf ≠ .prereg ∧ regMem = true)

/-- The snapshots of two servers are the same. -/
def SameSnapshot (s s' : SmServer) : Prop :=
  s'.snapshot = s.snapshot ∧ s'.newest = s.newest ∧ s'.headers = s.headers

/-- When the registration fails, the old region is gone, too. -/
theorem rcSendSmReply_failed (s : SmServer) (buf : SnapshotBuf) :
    s.rcSendSmReply buf true false =
      some ({ s with snapshotMr := none, registered := s.registered + 1 }, none) := rfl

/-- A reply changes no snapshot, and has the key of a region that covers the buffer. -/
theorem rcSendSmReply_spec {s : SmServer} {buf : SnapshotBuf} {regMem : Bool}
    (h : s.Placed buf regMem) (regOk : Bool) :
    ∃ s', SameSnapshot s s' ∧
      ((regMem = true ∧ regOk = false ∧ s.rcSendSmReply buf regMem regOk = some (s', none)) ∨
        ∃ mr ∈ s'.regions, mr.buf = buf ∧
          SIZEOF_SNAPSHOT + (s.headers buf).len.toNat ≤ mr.length ∧
          s.rcSendSmReply buf regMem regOk = some (s', some ⟨buf, mr.rkey,
            UInt32.ofNat (SIZEOF_SNAPSHOT + (s.headers buf).len.toNat)⟩)) := by
  obtain ⟨rfl, rfl, hlen⟩ | ⟨hne, rfl⟩ := h
  · refine ⟨s, ⟨rfl, rfl, rfl⟩, .inr ⟨preregSnapshotMr, List.mem_cons_self, rfl, ?_, rfl⟩⟩
    show _ ≤ SIZEOF_SNAPSHOT + PREREG_SNAPSHOT_SIZE
    omega
  · cases regOk with
    | false =>
      exact ⟨{ s with snapshotMr := none, registered := s.registered + 1 }, ⟨rfl, rfl, rfl⟩,
        .inl ⟨rfl, rfl, s.rcSendSmReply_failed buf⟩⟩
    | true =>
      let mr : SnapshotMr :=
        ⟨buf, SIZEOF_SNAPSHOT + (s.headers buf).len.toNat, s.registered + 1⟩
      refine ⟨{ s with snapshotMr := some mr, registered := s.registered + 1 }, ⟨rfl, rfl, rfl⟩,
        .inr ⟨mr, ?_, rfl, Nat.le_refl _, ?_⟩⟩
      · simp [regions]
      · simp [rcSendSmReply, hne, mr]

end SmServer

namespace SmLoop

/-- The call created the snapshot, and its replies so far are right. -/
structure Answering (l : SmLoop) (buf : SnapshotBuf) (header : SnapshotHeader) : Prop where
  pointer : l.snapshot = some buf
  flag : l.server.snapshot = true
  newest : l.server.newest = some (buf, header)
  held : l.server.headers buf = header
  placed : l.server.Placed buf l.regMem
  fits : SIZEOF_SNAPSHOT + header.len.toNat < 4294967296
  right : ∀ p ∈ l.replies, ReplyRight p

theorem answer_sent {l : SmLoop} {c : SmPoll} {i : Nat} {buf : SnapshotBuf} {s : SmServer}
    {reply : SmReply} (hpointer : l.snapshot = some buf)
    (hsend : l.server.rcSendSmReply buf l.regMem (c.regOk i) = some (s, some reply)) :
    l.answer c i = some { l with
      server := { s with stopped := !c.postOk i }
      replies := l.replies ++ [(reply, s)] } := by
  simp [answer, hpointer, hsend]

theorem answer_failed {l : SmLoop} {c : SmPoll} {i : Nat} {buf : SnapshotBuf} {s : SmServer}
    (hpointer : l.snapshot = some buf)
    (hsend : l.server.rcSendSmReply buf l.regMem (c.regOk i) = some (s, none)) :
    l.answer c i = some { l with server := { s with stopped := true } } := by
  simp [answer, hpointer, hsend]

/-- After the creation every request of the call gets a right reply, or the server stops. -/
theorem Answering.answer {l : SmLoop} {buf : SnapshotBuf} {header : SnapshotHeader}
    (h : l.Answering buf header) (c : SmPoll) (i : Nat) :
    ∃ l', l.answer c i = some l' ∧ l'.Answering buf header := by
  obtain ⟨s, ⟨hflag, hnewest, hheaders⟩, hsend⟩ :=
    SmServer.rcSendSmReply_spec h.placed (c.regOk i)
  have hplaced : s.Placed buf l.regMem := by
    rw [SmServer.Placed, hheaders]
    exact h.placed
  have hheld : s.headers buf = header := by rw [hheaders, h.held]
  have hnew : s.newest = some (buf, header) := by rw [hnewest, h.newest]
  have hset : s.snapshot = true := by rw [hflag, h.flag]
  obtain ⟨-, -, hsend⟩ | ⟨mr, hmr, hbuf, hlen, hsend⟩ := hsend
  · exact ⟨_, answer_failed h.pointer hsend,
      h.pointer, hset, hnew, hheld, hplaced, h.fits, h.right⟩
  · refine ⟨_, answer_sent h.pointer hsend, h.pointer, hset, hnew, hheld, hplaced, h.fits, ?_⟩
    rw [h.held] at hlen
    have hreply : (UInt32.ofNat (SIZEOF_SNAPSHOT + (l.server.headers buf).len.toNat)).toNat =
        SIZEOF_SNAPSHOT + header.len.toNat := by
      rw [h.held, UInt32.toNat_ofNat']
      exact Nat.mod_eq_of_lt h.fits
    intro p hp
    rw [List.mem_append, List.mem_singleton] at hp
    obtain hp | rfl := hp
    · exact h.right p hp
    · exact ⟨⟨header, hnew, hheld, hreply⟩, mr, hmr, rfl, hbuf, by rw [hreply]; exact hlen⟩

/-! ### One call -/

/-- Peers without a request are passed over. -/
theorem visit_skip {l : SmLoop} {c : SmPoll} {i : Nat}
    (h : (i != c.idx && l.server.smReq i) = false) : l.visit c i = some l := by
  rw [Bool.and_eq_false_iff, bne_eq_false_iff_eq] at h
  unfold visit
  split
  · rfl
  · obtain h | h := h
    · rw [if_pos h]
    · simp [h]

theorem visit_stopped {l : SmLoop} {c : SmPoll} {i : Nat} (h : l.server.stopped = true) :
    l.visit c i = some l := if_pos h

theorem Answering.visit {l : SmLoop} {buf : SnapshotBuf} {header : SnapshotHeader}
    (h : l.Answering buf header) (c : SmPoll) (i : Nat) :
    ∃ l', l.visit c i = some l' ∧ l'.Answering buf header := by
  by_cases hstop : l.server.stopped = true
  · exact ⟨l, visit_stopped hstop, h⟩
  · cases hreq : i != c.idx && l.server.smReq i with
    | false => exact ⟨l, visit_skip hreq, h⟩
    | true =>
      rw [Bool.and_eq_true, bne_iff_ne] at hreq
      have hfound : Answering { l with server := l.server.found i } buf header :=
        ⟨h.pointer, h.flag, h.newest, h.held, h.placed, h.fits, h.right⟩
      obtain ⟨l', hl', h'⟩ := hfound.answer c i
      refine ⟨l', ?_, h'⟩
      rw [SmLoop.visit, if_neg hstop, if_neg hreq.1, if_pos hreq.2, if_pos h.flag]
      exact hl'

/-- The rest of the loop after the creation. -/
theorem Answering.loop {buf : SnapshotBuf} {header : SnapshotHeader} (c : SmPoll) (is : List Nat) :
    ∀ l : SmLoop, l.Answering buf header →
      ∃ l', is.foldlM (SmLoop.visit c) l = some l' ∧ l'.Answering buf header := by
  induction is with
  | nil => intro l h; exact ⟨l, rfl, h⟩
  | cons i is ih =>
    intro l h
    obtain ⟨l', hl', h'⟩ := h.visit c i
    obtain ⟨l'', hl'', h''⟩ := ih l' h'
    exact ⟨l'', by rw [List.foldlM_cons, hl']; exact hl'', h''⟩

/-- The loop does nothing when there is no request, or when the server has stopped. -/
theorem loop_skip {l : SmLoop} {c : SmPoll} (is : List Nat)
    (h : ∀ i ∈ is, l.visit c i = some l) : is.foldlM (SmLoop.visit c) l = some l := by
  induction is with
  | nil => rfl
  | cons i is ih =>
    rw [List.forall_mem_cons] at h
    rw [List.foldlM_cons, h.1]
    exact ih h.2

theorem answer_replies {l l' : SmLoop} {c : SmPoll} {i : Nat} (h : l.answer c i = some l') :
    l.replies ⊆ l'.replies := by
  unfold answer at h
  split at h
  · cases h
  · obtain ⟨r, -, rfl⟩ := Option.map_eq_some_iff.mp h
    split
    · exact List.Subset.refl _
    · exact List.subset_append_left _ _

/-- Replies are not taken back. -/
theorem visit_replies {l l' : SmLoop} {c : SmPoll} {i : Nat} (h : l.visit c i = some l') :
    l.replies ⊆ l'.replies := by
  unfold visit at h
  split at h
  · cases h; exact List.Subset.refl _
  split at h
  · cases h; exact List.Subset.refl _
  split at h
  · split at h
    · have hsub := answer_replies h
      exact hsub
    · split at h
      · cases h; exact List.Subset.refl _
      · have hsub := answer_replies h
        exact hsub
  · cases h; exact List.Subset.refl _

theorem loop_replies {c : SmPoll} (is : List Nat) : ∀ {l l' : SmLoop},
    is.foldlM (SmLoop.visit c) l = some l' → l.replies ⊆ l'.replies := by
  induction is with
  | nil => intro l l' h; cases h; exact List.Subset.refl _
  | cons i is ih =>
    intro l l' h
    rw [List.foldlM_cons] at h
    obtain ⟨l'', hfirst, hrest⟩ := Option.bind_eq_some_iff.mp h
    exact List.Subset.trans (visit_replies hfirst) (ih hrest)

end SmLoop

namespace SmServer

/-- What a creation does. -/
theorem createSnapshot_eq {s s' : SmServer} {c : SmPoll} {buf : SnapshotBuf} {regMem : Bool}
    (h : s.createSnapshot c = some (s', buf, regMem)) :
    s'.snapshot = true ∧ s'.newest = some (buf, ⟨c.lastApplied, c.len⟩) ∧
      s'.headers buf = ⟨c.lastApplied, c.len⟩ ∧ s'.Placed buf regMem ∧
      (regMem = true → c.memalignOk = true) := by
  unfold createSnapshot at h
  split at h
  · rename_i hlen
    cases h
    exact ⟨rfl, rfl, by simp, .inl ⟨rfl, rfl, by simpa using hlen⟩, by simp⟩
  · split at h
    · rename_i hmem
      cases h
      exact ⟨rfl, rfl, by simp, .inr ⟨by simp, rfl⟩, fun _ => hmem⟩
    · cases h

/-- The first request of a call, when the server is running: without the flag a snapshot is created
    for it, and with it the pointer is not set. -/
theorem visit_first {s : SmServer} {c : SmPoll} {i : Nat} (hstop : s.stopped = false)
    (hreq : (i != c.idx && s.smReq i) = true) :
    SmLoop.visit c ⟨s, none, false, []⟩ i =
      if s.snapshot then none
      else
        match (s.found i).createSnapshot c with
        | none => some ⟨{ s.found i with stopped := true }, none, false, []⟩
        | some (s, buf, regMem) => SmLoop.answer ⟨s, some buf, regMem, []⟩ c i := by
  rw [Bool.and_eq_true, bne_iff_ne] at hreq
  simp only [SmLoop.visit, hstop, hreq.1, hreq.2, if_true, if_false, Bool.false_eq_true]
  split
  · rfl
  · split <;> simp

/-- The loop up to the first request. -/
theorem pollSmRequests_of_none {s : SmServer} {c : SmPoll} (h : s.firstRequester c = none) :
    s.pollSmRequests c = some (s, []) := by
  have hskip : (List.range c.size).foldlM (SmLoop.visit c) ⟨s, none, false, []⟩ =
      some ⟨s, none, false, []⟩ := by
    refine SmLoop.loop_skip _ fun i hi => ?_
    unfold firstRequester at h
    split at h
    · rename_i hstop
      exact SmLoop.visit_stopped hstop
    · exact SmLoop.visit_skip (by simpa using List.find?_eq_none.mp h i hi)
  rw [pollSmRequests, hskip]
  rfl

theorem pollSmRequests_of_some {s : SmServer} {c : SmPoll} {i : Nat}
    (h : s.firstRequester c = some i) :
    s.stopped = false ∧ (i != c.idx && s.smReq i) = true ∧ ∃ rest : List Nat,
      s.pollSmRequests c = ((SmLoop.visit c ⟨s, none, false, []⟩ i).bind
        (rest.foldlM (SmLoop.visit c))).map fun l => (l.server, l.replies) := by
  unfold firstRequester at h
  split at h
  · cases h
  · rename_i hstop
    obtain ⟨hreq, before, rest, hrange, hbefore⟩ := List.find?_eq_some_iff_append.mp h
    refine ⟨by simpa using hstop, hreq, rest, ?_⟩
    have hskip : before.foldlM (SmLoop.visit c) ⟨s, none, false, []⟩ =
        some ⟨s, none, false, []⟩ :=
      SmLoop.loop_skip _ fun j hj => SmLoop.visit_skip (Bool.not_eq_true' _ ▸ hbefore j hj)
    rw [pollSmRequests, hrange, List.foldlM_append, hskip]
    rfl

/-- The call goes on right after a creation whose length fits. -/
theorem answering_created {s s' : SmServer} {c : SmPoll} {buf : SnapshotBuf} {regMem : Bool}
    (hcreate : s.createSnapshot c = some (s', buf, regMem))
    (hfits : SIZEOF_SNAPSHOT + c.len.toNat < 4294967296) :
    SmLoop.Answering ⟨s', some buf, regMem, []⟩ buf ⟨c.lastApplied, c.len⟩ := by
  obtain ⟨hflag, hnewest, hheld, hplaced, -⟩ := createSnapshot_eq hcreate
  exact ⟨rfl, hflag, hnewest, hheld, hplaced, hfits, by simp⟩

/-- A length that does not fit is not that of the registered buffer. -/
theorem registered_of_big {s s' : SmServer} {c : SmPoll} {buf : SnapshotBuf} {regMem : Bool}
    (hcreate : s.createSnapshot c = some (s', buf, regMem))
    (hbig : ¬ SIZEOF_SNAPSHOT + c.len.toNat < 4294967296) :
    regMem = true ∧ c.memalignOk = true := by
  obtain ⟨-, -, hheld, hplaced, hmem⟩ := createSnapshot_eq hcreate
  have hreg : regMem = true := by
    obtain ⟨-, -, hlen⟩ | ⟨-, hreg⟩ := hplaced
    · rw [hheld] at hlen
      simp only [PREREG_SNAPSHOT_SIZE, SIZEOF_SNAPSHOT] at hlen hbig
      omega
    · exact hreg
  exact ⟨hreg, hmem hreg⟩

/-- The reply for a length that does not fit has another one. -/
theorem answer_wrong {s s' : SmServer} {c : SmPoll} {buf : SnapshotBuf} {regMem : Bool} {i : Nat}
    (hcreate : s.createSnapshot c = some (s', buf, regMem)) (hreg : c.regOk i = true)
    (hbig : ¬ SIZEOF_SNAPSHOT + c.len.toNat < 4294967296) :
    ∃ l, SmLoop.answer ⟨s', some buf, regMem, []⟩ c i = some l ∧
      ∃ p ∈ l.replies, ¬ ReplyRight p := by
  obtain ⟨hflag, hnewest, hheld, hplaced, -⟩ := createSnapshot_eq hcreate
  obtain ⟨s'', ⟨-, hnewest', -⟩, hsend⟩ := rcSendSmReply_spec hplaced (c.regOk i)
  obtain ⟨-, hfail, -⟩ | ⟨mr, -, -, -, hsend⟩ := hsend
  · rw [hreg] at hfail
    cases hfail
  · refine ⟨_, SmLoop.answer_sent rfl hsend, _, List.mem_append_right _ (List.mem_singleton_self _),
      fun hright => ?_⟩
    obtain ⟨header, hheader, -, hlen⟩ := hright.newest
    dsimp only at hheader hlen
    rw [hnewest', hnewest, Option.some.injEq, Prod.mk.injEq] at hheader
    obtain ⟨-, rfl⟩ := hheader
    -- a length field of 32 bits cannot hold the sum
    have hlt := UInt32.toNat_lt (UInt32.ofNat (SIZEOF_SNAPSHOT + (s'.headers buf).len.toNat))
    rw [hlen] at hlt
    exact hbig hlt

/-- The replies of a call are right exactly when it is fresh. -/
theorem pollSmRequests_right_iff (s : SmServer) (c : SmPoll) :
    (∃ r, s.pollSmRequests c = some r ∧ ∀ p ∈ r.2, ReplyRight p) ↔ PollFresh s (.poll c) := by
  cases hfirst : s.firstRequester c with
  | none => simp [pollSmRequests_of_none hfirst, PollFresh, hfirst]
  | some i =>
    obtain ⟨hstop, hreq, rest, hpoll⟩ := pollSmRequests_of_some hfirst
    rw [visit_first hstop hreq] at hpoll
    simp only [PollFresh, hfirst, Option.some.injEq, forall_eq']
    by_cases hflag : s.snapshot = true
    · -- the pointer is used before it is set
      rw [if_pos hflag] at hpoll
      simp [hpoll, hflag]
    rw [if_neg hflag] at hpoll
    rw [Bool.not_eq_true] at hflag
    have hstopped : ∀ l : SmLoop, l.server.stopped = true →
        rest.foldlM (SmLoop.visit c) l = some l := fun l hl =>
      SmLoop.loop_skip rest fun _ _ => SmLoop.visit_stopped hl
    cases hcreate : (s.found i).createSnapshot c with
    | none =>
      -- no memory: the server stops without a reply
      rw [hcreate, Option.bind_some, hstopped _ rfl] at hpoll
      have hmem : c.memalignOk = false := by
        unfold createSnapshot at hcreate
        split at hcreate
        · cases hcreate
        · simpa using hcreate
      simp [hpoll, hflag, hmem]
    | some r =>
      obtain ⟨s', buf, regMem⟩ := r
      simp only [hcreate] at hpoll
      by_cases hfits : SIZEOF_SNAPSHOT + c.len.toNat < 4294967296
      · obtain ⟨l, hl, hanswering⟩ := (answering_created hcreate hfits).answer c i
        obtain ⟨l', hl', hanswering'⟩ := hanswering.loop c rest
        rw [hl, Option.bind_some, hl', Option.map_some] at hpoll
        simp only [hpoll, hflag, hfits, implies_true, and_self, iff_true]
        exact ⟨_, rfl, hanswering'.right⟩
      · obtain ⟨hreg, hmem⟩ := registered_of_big hcreate hfits
        cases hok : c.regOk i with
        | false =>
          -- the registration fails: the server stops without a reply
          have hsend := rcSendSmReply_failed s' buf
          rw [← hreg, ← hok] at hsend
          rw [SmLoop.answer_failed rfl hsend, Option.bind_some, hstopped _ rfl] at hpoll
          simp [hpoll, hflag]
        | true =>
          obtain ⟨l, hl, p, hp, hwrong⟩ := answer_wrong hcreate hok hfits
          rw [hl, Option.bind_some] at hpoll
          simp only [hflag, hmem, hfits, true_and, true_implies, iff_false, not_exists, not_and,
            not_forall]
          intro r hr
          rw [hpoll, Option.map_eq_some_iff] at hr
          obtain ⟨l', hl', rfl⟩ := hr
          exact ⟨p, SmLoop.loop_replies rest hl' hp, hwrong⟩

end SmServer

/-! ### Runs -/

/-- The replies of an event are right exactly when it is fresh. -/
theorem smStep_right_iff (s : SmServer) (e : SmEvent) :
    (∃ r, smStep s e = some r ∧ ∀ p ∈ r.2, ReplyRight p) ↔ PollFresh s e := by
  cases e with
  | request i => simp [smStep, PollFresh]
  | poll c => exact s.pollSmRequests_right_iff c
  | reset => simp [smStep, PollFresh]

/-- Whatever the requests, calls and resets: the run is defined and every reply is right exactly when
    each call that finds a request finds the flag clear, and creates a snapshot whose length fits. -/
theorem smRun_right_iff (s : SmServer) (es : List SmEvent) :
    RepliesRight s es ↔ RunFresh s es := by
  induction es generalizing s with
  | nil => simp [RepliesRight, RunFresh, smRun]
  | cons e es ih =>
    rw [RunFresh, ← smStep_right_iff]
    unfold RepliesRight smRun
    constructor
    · rintro ⟨r, hr, hright⟩
      obtain ⟨r₁, hstep, hrest⟩ := Option.bind_eq_some_iff.mp hr
      obtain ⟨r₂, hrun, rfl⟩ := Option.map_eq_some_iff.mp hrest
      simp only [List.forall_mem_append] at hright
      refine ⟨⟨r₁, hstep, hright.1⟩, fun r hr => ?_⟩
      cases hstep.symm.trans hr
      exact (ih r₁.1).mp ⟨r₂, hrun, hright.2⟩
    · rintro ⟨⟨r₁, hstep, hright⟩, hrest⟩
      obtain ⟨r₂, hrun, hright'⟩ := (ih r₁.1).mpr (hrest r₁ hstep)
      refine ⟨(r₂.1, r₁.2 ++ r₂.2), by rw [hstep, Option.bind_some, hrun]; rfl, ?_⟩
      rw [List.forall_mem_append]
      exact ⟨hright, hright'⟩

/-- A server that starts. -/
def smInit : SmServer where
  snapshot := false
  smReq := fun _ => false
  headers := fun _ => ⟨⟨0, 0, 0⟩, 0⟩
  allocated := 0
  snapshotMr := none
  registered := 0
  newest := none
  stopped := false

/-- A call of server 0 in a group of three, whose snapshot is empty. -/
def emptyPoll : SmPoll := ⟨3, 0, 0, ⟨0, 0, 0⟩, true, fun _ => true, fun _ => true⟩

/-- Peer 1 asks, and is answered; then peer 2 asks, and the second call has no snapshot to point
    to. -/
theorem not_repliesRight :
    ¬ RepliesRight smInit [.request 1, .poll emptyPoll, .request 2, .poll emptyPoll] := by
  rintro ⟨r, hr, -⟩
  have hnone : (smRun smInit [.request 1, .poll emptyPoll, .request 2, .poll emptyPoll]).isNone :=
    by decide +kernel
  rw [hr] at hnone
  cases hnone

end Apus
