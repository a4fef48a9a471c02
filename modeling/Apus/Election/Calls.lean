import Apus.Election.Model

namespace Apus

open Lib

/-!
# What the functions do to a SID

What each function of a server does to its SID.  A function keeps the SID or raises it (`Grows`),
with two exceptions: `poll_vote_requests` takes any heartbeat of the same term from the server it
has voted for, and a server that joins starts over with the SID `[0|1|i]`.

A vote request has the SID of a candidate, without the L flag.  So the test of
`poll_vote_requests`, which sets the L flag in its own SID, is a test of the terms.

* `HbScanOk` — the loop of `hb_receive_cb`;
* `pollVoteRequests_vote`, `grows_raise` — a vote, and a server that does not vote, both take a
  higher term.
-/

variable {Q : DareCid → Prop} {i j : Nat} {s s' : Server} {o : Outcome} {u v : UInt64} {posts : List (Nat × Posted)}
  {V : UInt64 → Prop} {ackFails : Bool}

/-! ### Terms -/

/-- There may be another term after that of the SID. -/
abbrev TermLow (v : UInt64) : Prop := (sidGetTerm v).toNat + 1 < TERM_BOUND

/-- The SIDs that a server of the group has in its memory are small enough for another election. -/
def Server.TermsLow (s : Server) : Prop :=
  TermLow s.sid ∧ TermLow s.latestHbReceived ∧
  ∀ j < s.size, TermLow (s.ctrl.hb j) ∧ TermLow (s.ctrl.voteReq j).sid ∧ TermLow (s.ctrl.rsid j)

instance (s : Server) : Decidable s.TermsLow := inferInstanceAs (Decidable (_ ∧ _ ∧ _))

theorem sidGetTerm_lt_iff : sidGetTerm u < sidGetTerm v ↔ u.toNat / 512 < v.toNat / 512 := by
  rw [UInt64.lt_iff_toNat_lt, toNat_sidGetTerm, toNat_sidGetTerm]

theorem sidGetTerm_eq_iff : sidGetTerm u = sidGetTerm v ↔ u.toNat / 512 = v.toNat / 512 := by
  rw [← UInt64.toNat_inj, toNat_sidGetTerm, toNat_sidGetTerm]

/-- A higher SID does not have a lower term. -/
theorem sidGetTerm_mono (h : u ≤ v) : sidGetTerm u ≤ sidGetTerm v := by
  rw [UInt64.le_iff_toNat_le] at h ⊢
  rw [toNat_sidGetTerm, toNat_sidGetTerm]
  exact Nat.div_le_div_right h

/-- A SID of a higher term is higher. -/
theorem lt_of_sidGetTerm_lt (h : sidGetTerm u < sidGetTerm v) : u < v := by
  rw [sidGetTerm_lt_iff] at h
  rw [UInt64.lt_iff_toNat_lt]
  omega

/-- A SID without the L flag that is above a SID with it has a higher term. -/
theorem sidGetTerm_lt_of_sidSetL_lt (h : sidSetL u < v) (hl : sidGetL v = false) :
    sidGetTerm u < sidGetTerm v := by
  rw [UInt64.lt_iff_toNat_lt, toNat_sidSetL] at h
  rw [sidGetL_eq_false_iff] at hl
  rw [sidGetTerm_lt_iff]
  omega

theorem le_sidSetL (u : UInt64) : u ≤ sidSetL u := by
  rw [UInt64.le_iff_toNat_le, toNat_sidSetL]
  omega

theorem sidGetL_sidSetL (u : UInt64) : sidGetL (sidSetL u) = true := by
  rw [sidGetL_iff, toNat_sidSetL]
  omega

theorem sidGetL_zero : sidGetL 0 = false := rfl

theorem sidGetTerm_toNat_lt (u : UInt64) : (sidGetTerm u).toNat < TERM_BOUND := by
  have hbound : TERM_BOUND = 2 ^ 55 := rfl
  have hlt := u.toNat_lt
  rw [toNat_sidGetTerm]
  omega

theorem toNat_ofNat_of_lt (h : i < MAX_SERVER_COUNT) : (UInt8.ofNat i).toNat = i := by
  rw [MAX_SERVER_COUNT] at h
  rw [UInt8.toNat_ofNat']
  omega

/-- The SID of a new candidate. -/
theorem toNat_candidateSid (hlow : TermLow s.sid) :
    s.candidateSid.toNat = (s.sid.toNat / 512 + 1) * 512 + (UInt8.ofNat s.idx).toNat := by
  have hbound : TERM_BOUND = 2 ^ 55 := rfl
  have hone : (1 : UInt64).toNat = 1 := rfl
  have hnext : (sidGetTerm s.sid + 1).toNat = (sidGetTerm s.sid).toNat + 1 := by
    rw [UInt64.toNat_add, hone]
    omega
  have hzero : (0 : UInt64).toNat = 0 := rfl
  have hidx := (UInt8.ofNat s.idx).toNat_lt
  rw [Server.candidateSid, toNat_sidSetIdx, toNat_sidUnsetL, toNat_sidSetTerm _ _ (by omega), hnext,
    toNat_sidGetTerm, hzero]
  omega

/-- The starting SID of a server that joins. -/
theorem toNat_setUpSid (s : Server) : s.setUpSid.sid.toNat = 256 + (UInt8.ofNat s.idx).toNat := by
  have hzero : (0 : UInt64).toNat = 0 := rfl
  have hidx := (UInt8.ofNat s.idx).toNat_lt
  show (sidSetL (sidSetIdx (sidSetTerm s.sid 0) (UInt8.ofNat s.idx))).toNat = _
  rw [toNat_sidSetL, toNat_sidSetIdx, toNat_sidSetTerm _ _ (by decide), hzero]
  omega

/-! ### What a function may do -/

/-- A vote request: it was dropped, or has no L flag and a configuration of the run. -/
def RequestOk (Q : DareCid → Prop) (request : VoteReq) : Prop :=
  sidGetL request.sid = false ∧ (request.sid ≠ 0 → Q request.cid)

/-- The configuration of a server, and those of the vote requests it has. -/
def Server.Fine (Q : DareCid → Prop) (s : Server) : Prop :=
  Q s.cid ∧ ∀ j, RequestOk Q (s.ctrl.voteReq j)

/-- What is posted: vote requests of the run, and vote SIDs that meet `V`. -/
def PostsOk (Q : DareCid → Prop) (V : UInt64 → Prop) (posts : List (Nat × Posted)) : Prop :=
  ∀ p ∈ posts, (∀ request, p.2.write = .voteReq request → RequestOk Q request) ∧
    ∀ v, p.2.write = .voteSid v → V v

/-- Only a recovered server replicates a vote SID, which is not below the SID it had. -/
def Server.Replicates (s : Server) (v : UInt64) : Prop := s.progress = .recovered ∧ s.sid ≤ v

/-- A function keeps the SID or raises it, keeps what is known of the vote requests, and leaves the
    vote SIDs of the other servers alone. -/
structure Grows (Q : DareCid → Prop) (s : Server) (o : Outcome) : Prop where
  idx : o.server.idx = s.idx
  le : s.sid ≤ o.server.sid
  fine : s.Fine Q → o.server.Fine Q
  posts : s.Fine Q → PostsOk Q s.Replicates o.posts
  started : s.progress ≠ .connecting → o.server.progress ≠ .connecting
  kept : ∀ j, j ≠ s.idx → o.server.ctrl.voteSid j = s.ctrl.voteSid j

theorem postsOk_nil : PostsOk Q V [] := by
  intro p hp
  cases hp

theorem PostsOk.append {posts' : List (Nat × Posted)} (h : PostsOk Q V posts)
    (h' : PostsOk Q V posts') : PostsOk Q V (posts ++ posts') := by
  intro p hp
  rcases List.mem_append.mp hp with hp | hp
  · exact h p hp
  · exact h' p hp

/-- A write posted to some servers. -/
theorem postsOk_map {w : RemoteWrite} (hw : ∀ request, w = .voteReq request → RequestOk Q request)
    (hv : ∀ v, w = .voteSid v → V v) (is : List Nat) : PostsOk Q V (is.map (s.post w)) := by
  intro p hp
  obtain ⟨j, -, rfl⟩ := List.mem_map.mp hp
  exact ⟨hw, hv⟩

/-! ### Candidates -/

/-- What `start_election` leaves. -/
theorem startElection_eq (h : s.startElection = some o) : ∃ request : VoteReq,
    request.sid = s.candidateSid ∧ request.cid = s.cid ∧ o.ballots = [s.candidateSid] ∧
    (∀ p ∈ o.posts, p.2 = ⟨.voteReq request, s.candidateSid⟩) ∧
    o.server = { s with
      ctrl := { s.ctrl with
        sid := s.candidateSid
        voteAck := fun i => if i < s.size then s.log.len else s.ctrl.voteAck i
        voteReq := Function.update s.ctrl.voteReq s.idx request }
      sendsHb := false } := by
  simp only [Server.startElection, Server.sendVoteRequest, Option.bind_eq_bind,
    Option.bind_eq_some_iff, Option.pure_def, Option.some.injEq] at h
  obtain ⟨o', ⟨last, -, rfl⟩, rfl⟩ := h
  refine ⟨_, rfl, rfl, rfl, ?_, rfl⟩
  intro p hp
  obtain ⟨j, -, rfl⟩ := List.mem_map.mp hp
  rfl

/-- The SID of a new candidate is that of the next term. -/
theorem candidateSid_spec (hlow : TermLow s.sid) : sidGetL s.candidateSid = false ∧
    sidGetIdx s.candidateSid = UInt8.ofNat s.idx ∧
    (sidGetTerm s.candidateSid).toNat = (sidGetTerm s.sid).toNat + 1 ∧ s.sid < s.candidateSid := by
  have hnat := toNat_candidateSid hlow
  have hidx := (UInt8.ofNat s.idx).toNat_lt
  refine ⟨?_, ?_, ?_, ?_⟩
  · rw [sidGetL_eq_false_iff]
    omega
  · rw [← UInt8.toNat_inj, toNat_sidGetIdx]
    omega
  · rw [toNat_sidGetTerm, toNat_sidGetTerm]
    omega
  · rw [UInt64.lt_iff_toNat_lt]
    omega

theorem postsOk_startElection (hlow : TermLow s.sid) (hcid : Q s.cid)
    (h : s.startElection = some o) : PostsOk Q V o.posts := by
  obtain ⟨request, hsid, hcid', -, hposts, -⟩ := startElection_eq h
  obtain ⟨hl, -, -, -⟩ := candidateSid_spec hlow
  intro p hp
  rw [hposts p hp]
  refine ⟨fun request' heq => ?_, by simp⟩
  cases heq
  exact ⟨hsid ▸ hl, fun _ => hcid' ▸ hcid⟩

theorem grows_startElection (hlow : TermLow s.sid) (h : s.startElection = some o) : Grows Q s o := by
  obtain ⟨request, hsid, hcid, -, -, hserver⟩ := startElection_eq h
  obtain ⟨hl, -, -, hlt⟩ := candidateSid_spec hlow
  refine ⟨by rw [hserver], ?_, fun hf => ?_, fun hf => postsOk_startElection hlow hf.1 h,
    by rw [hserver]; exact id, fun j _ => by rw [hserver]⟩
  · rw [hserver]
    exact UInt64.le_of_lt hlt
  · rw [hserver]
    refine ⟨hf.1, fun j => ?_⟩
    by_cases hj : j = s.idx
    · simp only [hj, Function.update_self]
      exact ⟨hsid ▸ hl, fun _ => hcid ▸ hf.1⟩
    · simp only [Function.update_of_ne hj]
      exact hf.2 j

theorem Grows.thenElection {ballots : List UInt64} (h : Grows Q s ⟨s', posts, ballots⟩)
    (hlow : TermLow s'.sid) {posts' : List (Nat × Posted)} (hposts : PostsOk Q s.Replicates posts')
    (ho : s'.thenElection posts' = some o) : Grows Q s o := by
  obtain ⟨o', ho', rfl⟩ := Option.map_eq_some_iff.mp ho
  have h' := grows_startElection (Q := Q) hlow ho'
  exact ⟨h'.idx.trans h.idx, UInt64.le_trans h.le h'.le, fun hf => h'.fine (h.fine hf),
    fun hf => hposts.append (postsOk_startElection hlow (h.fine hf).1 ho'),
    fun hp => h'.started (h.started hp),
    fun j hj => (h'.kept j (h.idx.symm ▸ hj)).trans (h.kept j hj)⟩

theorem grows_pollVoteCount (s : Server) : Grows Q s s.pollVoteCount.done := by
  rw [Server.pollVoteCount]
  dsimp only
  split
  · exact ⟨rfl, le_sidSetL s.sid, fun h => h, fun _ => postsOk_nil, fun h => h,
      fun _ _ => rfl⟩
  · exact ⟨rfl, UInt64.le_refl s.sid, fun h => h, fun _ => postsOk_nil, fun h => h,
      fun _ _ => rfl⟩

/-! ### Followers -/

theorem postsOk_sendVoteAck (s : Server) : PostsOk Q V s.sendVoteAck := by
  rw [Server.sendVoteAck]
  split
  · exact postsOk_map (by simp) (by simp) [(sidGetIdx s.sid).toNat]
  · exact postsOk_nil

theorem Grows.ackOrElect {ballots : List UInt64} (h : Grows Q s ⟨s', posts, ballots⟩)
    (hlow : TermLow s'.sid) {posts' : List (Nat × Posted)} (hposts : PostsOk Q s.Replicates posts')
    (ho : s'.ackOrElect ackFails posts' = some o) : Grows Q s o := by
  rw [Server.ackOrElect] at ho
  have hall := hposts.append (postsOk_sendVoteAck s')
  split at ho
  · exact h.thenElection hlow hall ho
  · cases ho
    exact ⟨h.idx, h.le, h.fine, fun _ => hall, h.started, h.kept⟩

theorem Grows.toFollower {ballots : List UInt64} (h : Grows Q s ⟨s', posts, ballots⟩)
    (hlow : TermLow s'.sid) {posts' : List (Nat × Posted)} (hposts : PostsOk Q s.Replicates posts')
    (ho : s'.toFollower ackFails posts' = some o) : Grows Q s o := by
  rw [Server.toFollower] at ho
  have hfollower : Grows Q s ⟨{ s' with sendsHb := false }, posts', ballots⟩ :=
    ⟨h.idx, h.le, h.fine, fun _ => hposts, h.started, h.kept⟩
  split at ho
  · exact hfollower.ackOrElect hlow hposts ho
  · cases ho
    exact ⟨h.idx, h.le, h.fine, fun _ => hposts, h.started, h.kept⟩

/-- Some heartbeats have been removed. -/
def Cleared (hb hb' : Nat → UInt64) : Prop := ∀ j, hb' j = 0 ∨ hb' j = hb j

theorem cleared_refl (hb : Nat → UInt64) : Cleared hb hb := fun _ => .inr rfl

theorem Cleared.update {hb hb' : Nat → UInt64} (h : Cleared hb hb') (i : Nat) :
    Cleared hb (Function.update hb' i 0) := by
  intro j
  by_cases hj : j = i
  · exact .inl (by rw [hj, Function.update_self])
  · rw [Function.update_of_ne hj]
    exact h j

/-- What the loop of `hb_receive_cb` keeps. -/
structure HbScanOk (s : Server) (scan : Server.HbScan) : Prop where
  hb : Cleared s.ctrl.hb scan.hb
  latest : scan.latest = 0 ∨ scan.latest = s.latestHbReceived
  le : s.sid ≤ scan.newSid
  /-- A new SID is the heartbeat of a leader. -/
  newSid : scan.newSid = s.sid ∨ sidGetL scan.newSid = true ∧
    (scan.newSid = s.latestHbReceived ∨ ∃ j < s.size, scan.newSid = s.ctrl.hb j)
  posts : ∀ p ∈ scan.posts, p.2 = ⟨.hb s.sid, s.sid⟩

theorem HbScanOk.step {scan : Server.HbScan} (h : HbScanOk s scan) (leader : Nat) (hi : i < s.size) :
    HbScanOk s (s.hbScanStep leader scan i) := by
  rw [Server.hbScanStep]
  split
  · exact h
  · -- the heartbeat that is checked comes from a slot, or from `to_adjust_cb`
    generalize hread : (if i = leader ∧ scan.latest ≠ 0 then scan.latest else scan.hb i) = hb
    have hfrom : hb = 0 ∨ hb = s.latestHbReceived ∨ ∃ j < s.size, hb = s.ctrl.hb j := by
      rw [← hread]
      split
      · exact h.latest.imp_right .inl
      · exact (h.hb i).imp_right fun heq => .inr ⟨i, hi, heq⟩
    generalize hclear : (if i = leader then
        { scan with
          hb := if scan.latest ≠ 0 then scan.hb else Function.update scan.hb i 0
          latest := 0 }
      else { scan with hb := Function.update scan.hb i 0 }) = scan'
    have hscan' : HbScanOk s scan' := by
      rw [← hclear]
      split
      · refine ⟨?_, .inl rfl, h.le, h.newSid, h.posts⟩
        dsimp only
        split
        · exact h.hb
        · exact h.hb.update i
      · exact ⟨h.hb.update i, h.latest, h.le, h.newSid, h.posts⟩
    dsimp only
    split
    · exact hscan'
    · rename_i hne
      split
      · split
        · refine ⟨hscan'.hb, hscan'.latest, hscan'.le, hscan'.newSid, fun p hp => ?_⟩
          rcases List.mem_append.mp hp with hp | hp
          · exact hscan'.posts p hp
          · rw [List.mem_singleton.mp hp]
            rfl
        · exact hscan'
      · rename_i hge
        by_cases hl : sidGetL hb = true
        · simp only [if_pos hl]
          exact ⟨hscan'.hb, hscan'.latest, UInt64.le_trans hscan'.le (UInt64.not_lt.mp hge),
            .inr ⟨hl, hfrom.resolve_left hne⟩, hscan'.posts⟩
        · simp only [if_neg hl]
          exact ⟨hscan'.hb, hscan'.latest, hscan'.le, hscan'.newSid, hscan'.posts⟩

theorem hbScanOk (s : Server) : HbScanOk s s.hbScan := by
  have hinit : HbScanOk s ⟨s.ctrl.hb, s.latestHbReceived, s.sid, true, []⟩ :=
    ⟨cleared_refl _, .inr rfl, UInt64.le_refl _, .inl rfl, by simp⟩
  exact List.foldlRecOn _ _ hinit fun scan hscan i hi => hscan.step _ (List.mem_range.mp hi)

theorem HbScanOk.postsOk {scan : Server.HbScan} (h : HbScanOk s scan) : PostsOk Q V scan.posts := by
  intro p hp
  rw [h.posts p hp]
  simp

theorem HbScanOk.low {scan : Server.HbScan} (h : HbScanOk s scan) (hlow : s.TermsLow) :
    TermLow scan.newSid := by
  obtain ⟨hsid, hlatest, hslots⟩ := hlow
  rcases h.newSid with heq | ⟨-, heq | ⟨j, hj, heq⟩⟩ <;> rw [heq]
  · exact hsid
  · exact hlatest
  · exact (hslots j hj).1

/-- The server after the loop of `hb_receive_cb`. -/
def Server.scanned (s : Server) (scan : HbScan) : Server :=
  { s with
    ctrl := { s.ctrl with hb := scan.hb }
    log := { s.log with tail := s.log.len }
    latestHbReceived := scan.latest }

theorem hbReceive_cases (h : s.hbReceive ackFails = some o) :
    o = s.done ∨ ∃ scan, HbScanOk s scan ∧
      ((s.scanned scan).thenElection scan.posts = some o ∨
       o = ⟨s.scanned scan, scan.posts, []⟩ ∨
       ((s.scanned scan).setSid scan.newSid).toFollower ackFails scan.posts = some o ∨
       o = ⟨(s.scanned scan).setSid scan.newSid, scan.posts, []⟩) := by
  rw [Server.hbReceive] at h
  split at h
  · cases h
    exact .inl rfl
  · have hscan := hbScanOk { s with log := { s.log with tail := s.log.len } }
    refine .inr ⟨_, ⟨hscan.hb, hscan.latest, hscan.le, hscan.newSid, hscan.posts⟩, ?_⟩
    dsimp only at h
    split at h
    · exact .inl h
    · split at h
      · split at h
        · exact .inr (.inr (.inl h))
        · cases h
          exact .inr (.inr (.inr rfl))
      · cases h
        exact .inr (.inl rfl)

theorem grows_hbReceive (hlow : s.TermsLow) (h : s.hbReceive ackFails = some o) : Grows Q s o := by
  rcases hbReceive_cases h with rfl | ⟨scan, hscan, h⟩
  · exact ⟨rfl, UInt64.le_refl s.sid, fun h => h, fun _ => postsOk_nil, fun h => h,
      fun _ _ => rfl⟩
  · have hkeep : Grows Q s ⟨s.scanned scan, scan.posts, []⟩ :=
      ⟨rfl, UInt64.le_refl s.sid, fun h => h, fun _ => hscan.postsOk, fun h => h,
        fun _ _ => rfl⟩
    have hnew : Grows Q s ⟨(s.scanned scan).setSid scan.newSid, scan.posts, []⟩ :=
      ⟨rfl, hscan.le, fun h => h, fun _ => hscan.postsOk, fun h => h,
        fun _ _ => rfl⟩
    rcases h with h | rfl | h | rfl
    · exact hkeep.thenElection hlow.1 hscan.postsOk h
    · exact hkeep
    · exact hnew.toFollower (hscan.low hlow) hscan.postsOk h
    · exact hnew

theorem hbSendScan_cleared (s : Server) (is : List Nat) {hb hb' : Nat → UInt64}
    (h : Cleared hb hb') : Cleared hb (s.hbSendScan is hb').1 := by
  induction is generalizing hb' with
  | nil => exact h
  | cons i is ih =>
    rw [Server.hbSendScan]
    split
    · exact ih h
    · split
      · exact ih (h.update i)
      · exact h.update i

theorem grows_hbSend (hlow : TermLow s.sid) (h : s.hbSend ackFails = some o) : Grows Q s o := by
  have hkeep (hb : Nat → UInt64) : Grows Q s ⟨{ s with ctrl := { s.ctrl with hb := hb } }, [], []⟩ :=
    ⟨rfl, UInt64.le_refl s.sid, fun h => h, fun _ => postsOk_nil, fun h => h,
      fun _ _ => rfl⟩
  rw [Server.hbSend] at h
  split at h
  · exact (hkeep (s.hbSendScan (List.range s.size) s.ctrl.hb).1).toFollower hlow postsOk_nil h
  · cases h
    exact ⟨rfl, UInt64.le_refl s.sid, fun h => h, fun _ => postsOk_map (by simp) (by simp) _,
    fun h => h, fun _ _ => rfl⟩

theorem grows_toAdjust (s : Server) : Grows Q s s.toAdjust.done := by
  rw [Server.toAdjust]
  dsimp only
  split <;> exact ⟨rfl, UInt64.le_refl s.sid, fun h => h, fun _ => postsOk_nil, fun h => h,
      fun _ _ => rfl⟩

/-! ### Voters -/

/-- Some requests have been dropped. -/
def Dropped (q q' : Nat → VoteReq) : Prop := ∀ j, q' j = q j ∨ q' j = { q j with sid := 0 }

theorem dropped_refl (q : Nat → VoteReq) : Dropped q q := fun _ => .inl rfl

theorem Dropped.update {q q' : Nat → VoteReq} (h : Dropped q q') (i : Nat) :
    Dropped q (Function.update q' i { q' i with sid := 0 }) := by
  intro j
  by_cases hj : j = i
  · rw [hj, Function.update_self]
    rcases h i with heq | heq <;> exact .inr (by rw [heq])
  · rw [Function.update_of_ne hj]
    exact h j

/-- A request that is not dropped is one of those before. -/
theorem Dropped.eq_of_pos {q q' : Nat → VoteReq} (h : Dropped q q') (hpos : 0 < (q' j).sid) :
    q' j = q j := by
  rcases h j with heq | heq
  · exact heq
  · rw [heq] at hpos
    exact absurd hpos (UInt64.lt_irrefl 0)

/-- The first loop of `poll_vote_requests` keeps the SID it starts with, or finds a request. -/
theorem bestSid_spec (s : Server) (is : List Nat) (best : UInt64) {q q' : Nat → VoteReq}
    (h : Dropped q q') : Dropped q (s.bestSid is best q').2 ∧
    ((s.bestSid is best q').1 = best ∨
      best < (s.bestSid is best q').1 ∧ ∃ j ∈ is, (s.bestSid is best q').1 = (q j).sid) := by
  induction is generalizing best q' with
  | nil => exact ⟨h, .inl rfl⟩
  | cons i is ih =>
    rw [Server.bestSid]
    split
    · obtain ⟨hdrop, hfound⟩ := ih best h
      exact ⟨hdrop, hfound.imp_right fun ⟨hlt, j, hj, heq⟩ => ⟨hlt, j, List.mem_cons_of_mem i hj, heq⟩⟩
    · split
      · obtain ⟨hdrop, hfound⟩ := ih best (h.update i)
        exact ⟨hdrop, hfound.imp_right fun ⟨hlt, j, hj, heq⟩ =>
          ⟨hlt, j, List.mem_cons_of_mem i hj, heq⟩⟩
      · rename_i hbetter
        have hlt : best < (q' i).sid := UInt64.not_le.mp hbetter
        have hold := h.eq_of_pos (UInt64.lt_of_le_of_lt UInt64.zero_le hlt)
        obtain ⟨hdrop, heq | ⟨hlt', j, hj, heq⟩⟩ := ih (q' i).sid h
        · exact ⟨hdrop, .inr ⟨heq.symm ▸ hlt, i, List.mem_cons_self, heq.trans (by rw [hold])⟩⟩
        · exact ⟨hdrop, .inr ⟨UInt64.lt_trans hlt hlt', j, List.mem_cons_of_mem i hj, heq⟩⟩

/-- What the second loop of `poll_vote_requests` keeps; `old` is the SID with the L flag, and `t` the
    term of the best SID. -/
structure Chosen (n : Nat) (q : Nat → VoteReq) (old t : UInt64) (b : Server.BestRequest) : Prop where
  le : old ≤ b.best.sid
  best : b.best.sid = old ∨ ∃ j < n, b.best = q j
  term : t ≤ b.highestTerm
  bound : b.highestTerm.toNat < TERM_BOUND
  requests : Dropped q b.requests

theorem Chosen.step {n : Nat} {q : Nat → VoteReq} {old t : UInt64} {b : Server.BestRequest}
    (h : Chosen n q old t b) (hpos : 0 < old) (hi : i < n) :
    Chosen n q old t (Server.chooseStep b i) := by
  rw [Server.chooseStep]
  dsimp only
  have hdrop := h.requests.update i
  split
  · exact ⟨h.le, h.best, h.term, h.bound, hdrop⟩
  · rename_i hnot
    have hle : b.best.sid ≤ (b.requests i).sid := UInt64.not_lt.mp hnot
    have hterm : t ≤ (if b.highestTerm < sidGetTerm (b.requests i).sid then
        sidGetTerm (b.requests i).sid else b.highestTerm) := by
      split
      · rename_i hlt
        exact UInt64.le_trans h.term (UInt64.le_of_lt hlt)
      · exact h.term
    have hbound : (if b.highestTerm < sidGetTerm (b.requests i).sid then
        sidGetTerm (b.requests i).sid else b.highestTerm).toNat < TERM_BOUND := by
      split
      · exact sidGetTerm_toNat_lt _
      · exact h.bound
    split
    · exact ⟨h.le, h.best, hterm, hbound, hdrop⟩
    · have hle' := UInt64.le_trans h.le hle
      exact ⟨hle', .inr ⟨i, hi, h.requests.eq_of_pos (UInt64.lt_of_lt_of_le hpos hle')⟩, hterm, hbound,
        hdrop⟩

/-- What `poll_vote_requests` comes to. -/
theorem pollVoteRequests_cases {poll : Server.Poll} (h : s.pollVoteRequests = some poll) :
    (∃ q, Dropped s.ctrl.voteReq q ∧
      poll = .ignore { s with ctrl := { s.ctrl with voteReq := q } }) ∨
    (sidGetL s.sid = false ∧ s.ctrl.hb (sidGetIdx s.sid).toNat ≠ 0 ∧
      sidGetTerm (s.ctrl.hb (sidGetIdx s.sid).toNat) = sidGetTerm s.sid ∧
      poll = .ignore (s.setSid (s.ctrl.hb (sidGetIdx s.sid).toNat))) ∨
    (∃ q term j, sidGetL s.sid = false ∧ Dropped s.ctrl.voteReq q ∧
      sidSetL s.sid < (s.ctrl.voteReq j).sid ∧ sidGetTerm (s.ctrl.voteReq j).sid ≤ term ∧
      term.toNat < TERM_BOUND ∧
      poll = .raise { s with ctrl := { s.ctrl with
        voteReq := q
        sid := sidSetIdx (sidSetTerm s.sid term) (UInt8.ofNat s.idx) } }) ∨
    (∃ q, ∃ j < s.size, sidGetL s.sid = false ∧ Dropped s.ctrl.voteReq q ∧
      sidSetL s.sid < (s.ctrl.voteReq j).sid ∧
      poll = .vote { s with ctrl := { s.ctrl with
        voteReq := q
        sid := (s.ctrl.voteReq j).sid } } (s.ctrl.voteReq j)) := by
  rw [Server.pollVoteRequests] at h
  split at h
  · cases h
    exact .inl ⟨_, dropped_refl _, rfl⟩
  · rename_i hl
    rw [Bool.not_eq_true] at hl
    dsimp only at h
    split at h
    · -- the heartbeat of a leader of the term is taken
      rename_i hhb
      cases h
      exact .inr (.inl ⟨hl, hhb.1, hhb.2, rfl⟩)
    · obtain ⟨hdrop, hbest⟩ := bestSid_spec s (List.range s.size) (sidSetL s.sid)
        (dropped_refl s.ctrl.voteReq)
      split at h
      · cases h
        exact .inl ⟨_, hdrop, rfl⟩
      · rename_i hne
        -- there is a request above the own SID
        obtain ⟨hlt, j, -, hj⟩ := hbest.resolve_left hne
        simp only [Option.bind_eq_bind, Option.bind_eq_some_iff] at h
        obtain ⟨last, -, h⟩ := h
        have hpos : 0 < sidSetL s.sid := by
          have hzero : (0 : UInt64).toNat = 0 := rfl
          rw [UInt64.lt_iff_toNat_lt, toNat_sidSetL, hzero]
          omega
        generalize hb : List.foldl _ _ _ = b at h
        have hchosen : Chosen s.size s.ctrl.voteReq (sidSetL s.sid)
            (sidGetTerm (s.ctrl.voteReq j).sid) b := by
          rw [← hb]
          refine List.foldlRecOn _ _ ?_ fun b hb i hi => hb.step hpos (List.mem_range.mp hi)
          exact ⟨UInt64.le_refl _, .inl rfl, by rw [hj]; exact UInt64.le_refl _,
            sidGetTerm_toNat_lt _, hdrop⟩
        split at h
        · cases h
          exact .inr (.inr (.inl ⟨_, b.highestTerm, j, hl, hchosen.requests, hj ▸ hlt, hchosen.term,
            hchosen.bound, rfl⟩))
        · -- the request that was chosen is one of them
          rename_i hvote
          obtain ⟨j', hin, hj'⟩ := hchosen.best.resolve_left hvote
          cases h
          refine .inr (.inr (.inr ⟨_, j', hin, hl, hchosen.requests, ?_, by rw [← hj']; rfl⟩))
          rw [← hj']
          exact UInt64.lt_of_le_of_ne hchosen.le (Ne.symm hvote)

theorem Dropped.requestOk {q q' : Nat → VoteReq} (h : Dropped q q')
    (hq : ∀ j, RequestOk Q (q j)) (j : Nat) : RequestOk Q (q' j) := by
  rcases h j with heq | heq <;> rw [heq]
  · exact hq j
  · exact ⟨sidGetL_zero, fun hne => absurd rfl hne⟩

/-- The SID of a server that does not vote, and takes a higher term. -/
theorem toNat_raise {term : UInt64} (hl : sidGetL s.sid = false) (hterm : term.toNat < TERM_BOUND) :
    (sidSetIdx (sidSetTerm s.sid term) (UInt8.ofNat s.idx)).toNat =
      term.toNat * 512 + (UInt8.ofNat s.idx).toNat := by
  rw [sidGetL_eq_false_iff] at hl
  rw [toNat_sidSetIdx, toNat_sidSetTerm _ _ hterm]
  omega

theorem raise_spec {term : UInt64} (hl : sidGetL s.sid = false) (hterm : term.toNat < TERM_BOUND) :
    sidGetL (sidSetIdx (sidSetTerm s.sid term) (UInt8.ofNat s.idx)) = false ∧
    sidGetIdx (sidSetIdx (sidSetTerm s.sid term) (UInt8.ofNat s.idx)) = UInt8.ofNat s.idx ∧
    sidGetTerm (sidSetIdx (sidSetTerm s.sid term) (UInt8.ofNat s.idx)) = term := by
  have hnat := toNat_raise hl hterm
  have hidx := (UInt8.ofNat s.idx).toNat_lt
  refine ⟨?_, ?_, ?_⟩
  · rw [sidGetL_eq_false_iff]
    omega
  · rw [← UInt8.toNat_inj, toNat_sidGetIdx]
    omega
  · rw [← UInt64.toNat_inj, toNat_sidGetTerm]
    omega

/-- A heartbeat that may lower the SID of the server: it has the same term, and comes from the server
    it has voted for. -/
def Server.LowHb (s : Server) : Prop :=
  let hb := s.ctrl.hb (sidGetIdx s.sid).toNat
  sidGetL s.sid = false ∧ hb ≠ 0 ∧ sidGetTerm hb = sidGetTerm s.sid ∧ hb < s.sid

theorem grows_ignore (hhb : ¬s.LowHb) (h : s.pollVoteRequests = some (.ignore s')) :
    Grows Q s s'.done := by
  rcases pollVoteRequests_cases h with ⟨q, hdrop, heq⟩ | ⟨hl, hne, hterm, heq⟩ |
    ⟨q, term, j, -, -, -, -, -, heq⟩ | ⟨q, j, -, -, -, -, heq⟩
  · cases heq
    exact ⟨rfl, UInt64.le_refl s.sid, fun hf => ⟨hf.1, hdrop.requestOk hf.2⟩,
      fun _ => postsOk_nil, fun h => h,
      fun _ _ => rfl⟩
  · cases heq
    refine ⟨rfl, ?_, fun hf => hf, fun _ => postsOk_nil, fun h => h,
      fun _ _ => rfl⟩
    exact UInt64.not_lt.mp fun hlt => hhb ⟨hl, hne, hterm, hlt⟩
  · cases heq
  · cases heq

/-- A server that does not vote has no request of a higher term. -/
theorem grows_raise (h : s.pollVoteRequests = some (.raise s'))
    (hreq : ∀ j, sidGetL (s.ctrl.voteReq j).sid = false) :
    Grows Q s ⟨s', [], [s'.sid]⟩ ∧ sidGetTerm s.sid < sidGetTerm s'.sid := by
  rcases pollVoteRequests_cases h with ⟨q, -, heq⟩ | ⟨-, -, -, heq⟩ |
    ⟨q, term, j, hl, hdrop, hlt, hle, hbound, heq⟩ | ⟨q, j, -, -, -, -, heq⟩
  · cases heq
  · cases heq
  · cases heq
    have hterm : sidGetTerm s.sid <
        sidGetTerm (sidSetIdx (sidSetTerm s.sid term) (UInt8.ofNat s.idx)) := by
      rw [(raise_spec hl hbound).2.2]
      exact UInt64.lt_of_lt_of_le (sidGetTerm_lt_of_sidSetL_lt hlt (hreq j)) hle
    exact ⟨⟨rfl, UInt64.le_of_lt (lt_of_sidGetTerm_lt hterm), fun hf => ⟨hf.1, hdrop.requestOk hf.2⟩,
      fun _ => postsOk_nil, fun h => h,
      fun _ _ => rfl⟩,
      hterm⟩
  · cases heq

/-- A vote is for a SID of a higher term. -/
theorem pollVoteRequests_vote {best : VoteReq} (h : s.pollVoteRequests = some (.vote s' best))
    (hreq : ∀ j, sidGetL (s.ctrl.voteReq j).sid = false) :
    Grows Q s s'.done ∧ sidGetTerm s.sid < sidGetTerm best.sid ∧ s'.sid = best.sid ∧
      ∃ j < s.size, best = s.ctrl.voteReq j := by
  rcases pollVoteRequests_cases h with ⟨q, -, heq⟩ | ⟨-, -, -, heq⟩ |
    ⟨q, term, j, -, -, -, -, -, heq⟩ | ⟨q, j, hj, hl, hdrop, hlt, heq⟩
  · cases heq
  · cases heq
  · cases heq
  · cases heq
    have hterm := sidGetTerm_lt_of_sidSetL_lt hlt (hreq j)
    exact ⟨⟨rfl, UInt64.le_of_lt (lt_of_sidGetTerm_lt hterm), fun hf => ⟨hf.1, hdrop.requestOk hf.2⟩,
      fun _ => postsOk_nil, fun h => h,
      fun _ _ => rfl⟩,
      hterm, rfl, j, hj, rfl⟩

/-- `update_cid` changes the configuration and the connections only. -/
theorem updateCid_eq {cid : DareCid} (h : s.updateCid cid = some s') : ∃ cid' connected,
    (cid' = s.cid ∨ cid' = cid) ∧ s' = { s with cid := cid', connected := connected } := by
  rw [Server.updateCid] at h
  split at h
  · cases h
    exact ⟨s.cid, s.connected, .inl rfl, rfl⟩
  · dsimp only at h
    split at h
    · cases h
    · cases h
      exact ⟨_, _, .inr rfl, rfl⟩

/-! ### A server that joins -/

/-- The end of `rc_get_replicated_vote` takes the highest SID that was read. -/
theorem takeVoteSids_foldl (posted : Nat → Int) (is : List Nat) (s : Server) : ∃ v rsid,
    is.foldl (Server.takeVoteSids posted) s =
      { s with ctrl := { s.ctrl with sid := v, rsid := rsid } } ∧
    (v = s.sid ∨ s.sid < v ∧ ∃ i, v = s.ctrl.rsid i) ∧ Cleared s.ctrl.rsid rsid ∧
    ∀ i ∈ is, posted i = 0 → s.ctrl.rsid i ≤ v := by
  induction is generalizing s with
  | nil => exact ⟨s.sid, s.ctrl.rsid, rfl, .inl rfl, cleared_refl _, by simp⟩
  | cons i is ih =>
    rw [List.foldl_cons]
    by_cases hposted : posted i = 0
    · rw [Server.takeVoteSids, if_pos hposted]
      generalize hsid : (if s.ctrl.sid < s.ctrl.rsid i then s.ctrl.rsid i else s.ctrl.sid) = sid
      have hge : s.ctrl.rsid i ≤ sid ∧
          (sid = s.ctrl.sid ∨ s.ctrl.sid < sid ∧ sid = s.ctrl.rsid i) := by
        rw [← hsid]
        split
        · rename_i hlt
          exact ⟨UInt64.le_refl _, .inr ⟨hlt, rfl⟩⟩
        · rename_i hnot
          exact ⟨UInt64.not_lt.mp hnot, .inl rfl⟩
      obtain ⟨v, rsid, heq, hv, hclear, hall⟩ := ih { s with ctrl := { s.ctrl with
        sid := sid, rsid := Function.update s.ctrl.rsid i 0 } }
      have hle : sid ≤ v := by
        rcases hv with rfl | ⟨hlt, -⟩
        · exact UInt64.le_refl _
        · exact UInt64.le_of_lt hlt
      refine ⟨v, rsid, heq, ?_, fun j => ?_, fun j hj hj0 => ?_⟩
      · rcases hv with rfl | ⟨hlt, j, hj⟩
        · exact hge.2.imp_right fun h => ⟨h.1, i, h.2⟩
        · right
          have hlt' : s.ctrl.sid < v := by
            rcases hge.2 with heq' | ⟨hlt', -⟩
            · exact heq' ▸ hlt
            · exact UInt64.lt_trans hlt' hlt
          refine ⟨hlt', j, ?_⟩
          by_cases hji : j = i
          · -- the slot of the server just read is empty
            rw [hji] at hj
            simp only [Function.update_self] at hj
            rw [hj] at hlt'
            exact absurd hlt' (UInt64.not_lt.mpr UInt64.zero_le)
          · simpa only [Function.update_of_ne hji] using hj
      · rcases hclear j with h | h
        · exact .inl h
        · rw [h]
          exact (cleared_refl s.ctrl.rsid).update i j
      · by_cases hji : j = i
        · exact hji ▸ UInt64.le_trans hge.1 hle
        · have := hall j ((List.mem_cons.mp hj).resolve_left hji) hj0
          simpa only [Function.update_of_ne hji] using this
    · rw [Server.takeVoteSids, if_neg hposted]
      obtain ⟨v, rsid, heq, hv, hclear, hall⟩ := ih s
      refine ⟨v, rsid, heq, hv, hclear, fun j hj hj0 => ?_⟩
      rcases List.mem_cons.mp hj with rfl | hj
      · exact absurd hj0 hposted
      · exact hall j hj hj0

/-- What `rc_get_replicated_vote` leaves. -/
theorem getReplicatedVote_cases (s : Server) (r : (Nat → Int) × Bool) :
    s.getReplicatedVote r = s ∨ ∃ v rsid,
      s.getReplicatedVote r = { s with
        ctrl := { s.ctrl with sid := v, rsid := rsid }
        progress := .sendSmRequest } ∧
      (v = s.sid ∨ s.sid < v ∧ ∃ i, v = s.ctrl.rsid i) ∧ Cleared s.ctrl.rsid rsid ∧
      ∀ i < s.size, r.1 i = 0 → s.ctrl.rsid i ≤ v := by
  rw [Server.getReplicatedVote]
  split
  · obtain ⟨v, rsid, heq, hv, hclear, hall⟩ := takeVoteSids_foldl r.1 (List.range s.size) s
    refine .inr ⟨v, rsid, ?_, hv, hclear, fun i hi => hall i (List.mem_range.mpr hi)⟩
    rw [heq]
  · exact .inl rfl

theorem grows_getReplicatedVote (s : Server) (r : (Nat → Int) × Bool) :
    Grows Q s (s.getReplicatedVote r).done := by
  rcases getReplicatedVote_cases s r with heq | ⟨v, rsid, heq, hv, -, -⟩
  · rw [heq]
    exact ⟨rfl, UInt64.le_refl _, fun h => h, fun _ => postsOk_nil, fun h => h,
      fun _ _ => rfl⟩
  · rw [heq]
    refine ⟨rfl, ?_, fun h => h, fun _ => postsOk_nil, by simp [Server.done],
      fun _ _ => rfl⟩
    rcases hv with rfl | ⟨hlt, -⟩
    · exact UInt64.le_refl _
    · exact UInt64.le_of_lt hlt

theorem grows_sendSmRequest (s : Server) : Grows Q s s.sendSmRequest :=
  ⟨rfl, UInt64.le_refl s.sid, fun h => h, fun _ => postsOk_map (by simp) (by simp) _,
    fun h => h, fun _ _ => rfl⟩

theorem grows_pollSmRequests (s : Server) (mem : UInt64 × UInt32 × UInt32) :
    Grows Q s (s.pollSmRequests mem) :=
  ⟨rfl, UInt64.le_refl s.sid, fun h => h, fun _ => postsOk_map (by simp) (by simp) _,
    fun h => h, fun _ _ => rfl⟩

/-- What `poll_sm_reply` leaves. -/
theorem pollSmReply_cases (s : Server) (recovered : Bool) : s.pollSmReply recovered = s ∨
    ∃ target, ∃ smRep progress, target < s.size ∧ s.smReplyGood target = true ∧
      s.pollSmReply recovered = { s with
        ctrl := { s.ctrl with sid := (s.ctrl.smRep target).sid, smRep := smRep }
        progress := progress } ∧
      (smRep = s.ctrl.smRep ∧ progress = s.progress ∨
        (smRep = fun _ => default) ∧ progress = .recoverLog) := by
  rw [Server.pollSmReply]
  split
  · exact .inl rfl
  · rename_i target hfind
    refine .inr ⟨target, ?_⟩
    have hgood := List.find?_some hfind
    have hin := List.mem_range.mp (List.mem_of_find?_eq_some hfind)
    dsimp only
    split
    · exact ⟨_, _, hin, hgood, rfl, .inr ⟨rfl, rfl⟩⟩
    · exact ⟨_, _, hin, hgood, rfl, .inl ⟨rfl, rfl⟩⟩

theorem lt_of_smReplyGood {target : Nat} (h : s.smReplyGood target = true) :
    s.sid < (s.ctrl.smRep target).sid := by
  simp only [Server.smReplyGood, Bool.and_eq_true, decide_eq_true_eq] at h
  exact h.1.1.1.2

theorem grows_pollSmReply (s : Server) (recovered : Bool) :
    Grows Q s (s.pollSmReply recovered).done := by
  rcases pollSmReply_cases s recovered with heq | ⟨target, smRep, progress, -, hgood, heq, hprogress⟩
  · rw [heq]
    exact ⟨rfl, UInt64.le_refl _, fun h => h, fun _ => postsOk_nil, fun h => h,
      fun _ _ => rfl⟩
  · rw [heq]
    refine ⟨rfl, UInt64.le_of_lt (lt_of_smReplyGood hgood), fun h => h, fun _ => postsOk_nil, ?_,
      fun _ _ => rfl⟩
    rcases hprogress with ⟨-, rfl⟩ | ⟨-, rfl⟩
    · exact fun h => h
    · simp [Server.done]

theorem grows_recoverLog (hlow : TermLow s.sid) (h : s.recoverLog ackFails = some o) :
    Grows Q s o := by
  have hkeep : Grows Q s ⟨{ s with progress := .recovered }, [], []⟩ :=
    ⟨rfl, UInt64.le_refl s.sid, fun h => h, fun _ => postsOk_nil, by simp,
      fun _ _ => rfl⟩
  rw [Server.recoverLog] at h
  split at h
  · have hg := grows_startElection (Q := Q) (s := { s with progress := .recovered }) hlow h
    exact ⟨hg.idx, hg.le, hg.fine, fun hf =>
        postsOk_startElection (s := { s with progress := .recovered }) hlow hf.1 h,
      fun _ => hg.started (by simp), hg.kept⟩
  · exact hkeep.toFollower hlow postsOk_nil h

/-! ### Verifying the leadership -/

/-- The search of `rc_verify_leadership` finds the SID of a leader. -/
theorem betterLeader_spec (s : Server) (posted : Nat → Int) :
    s.sid ≤ s.betterLeader posted ∧ (s.betterLeader posted = s.sid ∨
      sidGetL (s.betterLeader posted) = true ∧
        ∃ i < s.size, s.betterLeader posted = s.ctrl.rsid i) := by
  rw [Server.betterLeader]
  refine List.foldlRecOn _ _ (motive := fun v => s.sid ≤ v ∧
    (v = s.sid ∨ sidGetL v = true ∧ ∃ i < s.size, v = s.ctrl.rsid i)) ⟨UInt64.le_refl _, .inl rfl⟩ ?_
  intro v hv i hi
  split
  · exact hv
  · split
    · rename_i hbetter
      exact ⟨UInt64.le_trans hv.1 (UInt64.le_of_lt hbetter.1), .inr ⟨hbetter.2, i, List.mem_range.mp hi, rfl⟩⟩
    · exact hv

theorem grows_verifyLeadership {r : (Nat → Int) × Bool} (hlow : TermLow s.sid)
    (hrsid : ∀ j < s.size, TermLow (s.ctrl.rsid j)) (h : s.verifyLeadership r ackFails = some o) :
    Grows Q s o := by
  obtain ⟨hle, hfrom⟩ := betterLeader_spec s r.1
  rw [Server.verifyLeadership] at h
  split at h
  · have hnew : Grows Q s ⟨s.setSid (s.betterLeader r.1), [], []⟩ :=
      ⟨rfl, hle, fun h => h, fun _ => postsOk_nil, fun h => h,
      fun _ _ => rfl⟩
    refine hnew.toFollower ?_ postsOk_nil h
    show TermLow (s.betterLeader r.1)
    rcases hfrom with heq | ⟨-, i, hi, heq⟩ <;> rw [heq]
    · exact hlow
    · exact hrsid i hi
  · cases h
    exact ⟨rfl, UInt64.le_refl s.sid, fun h => h, fun _ => postsOk_nil, fun h => h,
      fun _ _ => rfl⟩

/-! ### The record -/

@[simp] theorem act_ballots (r : Record) (i : Nat) (o : Outcome) :
    (r.act i o).ballots = Function.update r.ballots i (r.ballots i ++ o.ballots) := rfl

theorem act_top_of_ne (r : Record) (o : Outcome) (h : j ≠ i) : (r.act i o).top j = r.top j := by
  simp only [Record.act]
  split
  · rw [Function.update_of_ne h]
  · rfl

end Apus
