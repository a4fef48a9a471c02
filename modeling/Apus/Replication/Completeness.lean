import Apus.Election.Steps
import Apus.Replication.Simulation

namespace Apus

open Lib

/-!
# Committed entries across elections

The elections, the commit rule and the memory of the servers, and what holds over runs.

* `Simulates.step` — the replicas simulate every step under the condition;
* `committed_kept` — so committed entries are kept;
* `not_committed_kept` — a vote ACK of an earlier election makes a server leader that has not got what is
  committed.
-/

variable {n : Nat} {s s' : VoteCluster} {a a' : AbsCluster} {i j p q : ServerIdx} {t : PersistState}
  {log : DareLog} {hist h h' : List DareLogEntry} {e : DareLogEntry} {lo u k off : Nat}

/-! ### What the functions of an election leave -/

/-- The vote request has the last entry of the log. -/
theorem lastEntry_of_startElection {server : Server} {o : Outcome}
    (h : server.startElection = some o) : Server.lastEntry server.log =
      some ((o.server.ctrl.voteReq server.idx).index, (o.server.ctrl.voteReq server.idx).term) := by
  simp only [Server.startElection, Server.sendVoteRequest, Option.bind_eq_bind,
    Option.bind_eq_some_iff, Option.pure_def, Option.some.injEq] at h
  obtain ⟨o', ⟨last, hlast, rfl⟩, rfl⟩ := h
  dsimp only [Server.setSid] at hlast ⊢
  rw [hlast, Function.update_self]

/-- What `poll_vote_count` leaves. -/
theorem pollVoteCount_spec (server : Server) :
    server.pollVoteCount.log = { server.log with commit := server.pollVoteCount.log.commit } ∧
    server.pollVoteCount.ctrl.voteReq = server.ctrl.voteReq ∧
    sidGetTerm server.pollVoteCount.sid = sidGetTerm server.sid ∧
    (sidGetL server.sid = false → sidGetL server.pollVoteCount.sid = true →
      votesPass server.cid server.idx server.log.len server.ctrl.voteAck = true) := by
  rw [Server.pollVoteCount]
  dsimp only
  split
  · rename_i hpass
    refine ⟨rfl, rfl, ?_, fun _ _ => hpass⟩
    show sidGetTerm (sidSetL server.sid) = sidGetTerm server.sid
    rw [sidGetTerm_eq_iff, toNat_sidSetL]
    omega
  · exact ⟨rfl, rfl, rfl, fun hl hl' => absurd (hl.symm.trans hl') (by decide)⟩

theorem Dropped.requestFrom {q q' : Nat → VoteReq} (h : Dropped q q')
    (hq : ∀ j, RequestFrom a j (q j)) (j : Nat) : RequestFrom a j (q' j) := by
  rcases h j with heq | heq <;> rw [heq]
  · exact hq j
  · exact ⟨sidGetL_zero, .inl rfl⟩

/-- A candidate that is up to date is not behind. -/
theorem lastLe_of_upToDate {r : VoteReq} (hpos : ∀ e ∈ h, e.idx ≠ 0) (hup : UpToDate h r)
    (hr : lastIdxTerm h' = (r.index, r.term)) : LastLe entryTerm entryIdx h h' := by
  intro e he
  have hbehind := hup e he
  rw [lastIdxTerm] at hr
  cases hlast : h'.getLast? with
  | none =>
    rw [hlast] at hr
    obtain ⟨hidx, hterm⟩ := Prod.mk.inj hr
    rcases hbehind with hlt | ⟨-, hle⟩
    · rw [← hterm] at hlt
      exact absurd hlt (UInt64.not_lt.mpr UInt64.zero_le)
    · rw [← hidx] at hle
      exact absurd (UInt64.le_zero_iff.mp hle) (hpos e (List.mem_of_getLast? he))
  | some e' =>
    rw [hlast] at hr
    obtain ⟨hidx, hterm⟩ := Prod.mk.inj hr
    refine ⟨e', rfl, ?_⟩
    rcases hbehind with hlt | ⟨heq, hle⟩
    · left
      rw [← hterm] at hlt
      exact UInt64.lt_iff_toNat_lt.mp hlt
    · right
      rw [← hterm] at heq
      rw [← hidx] at hle
      exact ⟨congrArg UInt64.toNat heq, UInt64.le_iff_toNat_le.mp hle⟩

/-- No server has been leader in the term of a candidate that becomes leader. -/
theorem MatchSafe.not_led {s : MatchCluster} (h : MatchSafe s) (hone : oneLeader s (.lead i))
    (hfollower : (s.servers i).isLeader = false) (helected : ∃ U p, U.toNat = (s.term i).toNat ∧
      (U, p) ∈ s.led) : False := by
  obtain ⟨U, p, hU, hp⟩ := helected
  obtain rfl := UInt64.toNat_inj.mp hU
  obtain rfl := hone p hp
  rcases h.led _ p hp with hlt | ⟨-, hlead⟩
  · exact UInt64.lt_irrefl _ hlt
  · exact absurd (hfollower.symm.trans hlead) (by decide)

/-! ### A server that has called a function -/

/-- What is known of the requests and ballots after a call of a function. -/
structure Posts (a : AbsCluster) (i : ServerIdx) (o : Outcome) : Prop where
  posts : ∀ p ∈ o.posts, ∀ r, p.2.write = .voteReq r → RequestFrom a i r
  slots : ∀ j, RequestFrom a j (o.server.ctrl.voteReq j)
  ballots : ∀ v ∈ o.ballots, (sidGetIdx v).toNat = i ∨ ∃ b ∈ a.votes, b.voter = i ∧
    b.candidate.val = (sidGetIdx v).toNat ∧ b.term = (sidGetTerm v).toNat

/-- A server has called a function. -/
theorem OnRecord.act {o : Outcome} {logs : MatchCluster} (h : OnRecord s a) (ho : Posts a i o) :
    OnRecord (s.act i o logs) a := by
  refine ⟨h.passed, h.past, fun x y p hp r hr => ?_, fun x j => ?_, fun k v hv => ?_⟩
  · simp only [VoteCluster.act] at hp
    split at hp
    · rename_i hx
      rcases List.mem_append.mp hp with hp | hp
      · exact h.flight x y p hp r hr
      · obtain ⟨w, hw, rfl⟩ := List.mem_map.mp hp
        exact hx ▸ ho.posts w (List.mem_of_mem_filter hw) r hr
    · exact h.flight x y p hp r hr
  · by_cases hx : x = i
    · subst hx
      simp only [VoteCluster.act, Function.update_self]
      exact ho.slots j
    · simp only [VoteCluster.act, Function.update_of_ne hx]
      exact h.slots x j
  · by_cases hk : k = i
    · subst hk
      simp only [VoteCluster.act, Function.update_self] at hv
      rcases List.mem_append.mp hv with hv | hv
      · exact h.ballots k v hv
      · exact ho.ballots v hv
    · simp only [VoteCluster.act, Function.update_of_ne hk] at hv
      exact h.ballots k v hv

/-- A server has another SID, or another role. -/
theorem Tracks.role {b : AbsCluster} {o : Outcome} {logs : MatchCluster} {T : UInt64} {lead : Bool}
    (h : Tracks s a)
    (hsafe : MatchSafe logs) (hhist : logs.hist = s.logs.hist)
    (hterm : logs.term = Function.update s.logs.term i T)
    (hleader : (logs.servers i).isLeader = lead)
    (hothers : ∀ j, j ≠ i → logs.servers j = s.logs.servers j)
    (hrec : (logs.servers i).recovered = (s.logs.servers i).recovered)
    (hsid : sidGetTerm o.server.sid = T)
    (helected : ∀ U, b.elected U → ∃ V p, V.toNat = U ∧ (V, p) ∈ logs.led)
    (hhist' : b.hist = a.hist) (hterm' : b.term = Function.update a.term i T.toNat)
    (hleads' : b.leads = Function.update a.leads i lead) (hjoined' : b.joined = a.joined)
    (htaken' : b.taken = a.taken) : Tracks (s.act i o logs) b := by
  have hlogs : (s.act i o logs).logs = logs := rfl
  refine ⟨hsafe, ?_, fun j => ?_, fun j => ?_, fun j => ?_, helected, fun j U => ?_, fun j => ?_⟩
  · rw [hlogs, hhist', h.hist, hhist]
  · rw [hlogs, hterm', hterm]
    by_cases hj : j = i
    · subst hj
      rw [Function.update_self, Function.update_self]
    · rw [Function.update_of_ne hj, Function.update_of_ne hj]
      exact h.term j
  · rw [hlogs, hleads']
    by_cases hj : j = i
    · subst hj
      rw [Function.update_self, hleader]
    · rw [Function.update_of_ne hj, hothers j hj]
      exact h.leads j
  · rw [hlogs, hjoined', h.joined]
    by_cases hj : j = i
    · subst hj
      exact hrec.symm
    · rw [hothers j hj]
  · rw [htaken']
    exact h.taken j U
  · rw [hlogs, hterm]
    by_cases hj : j = i
    · subst hj
      rw [Function.update_self, ← hsid]
      exact congrArg (fun c : CtrlData => sidGetTerm c.sid) (Function.update_self ..)
    · rw [Function.update_of_ne hj, ← h.sid j]
      exact congrArg (fun c : CtrlData => sidGetTerm c.sid) (Function.update_of_ne hj ..)

/-- A server is in another term, and not its leader. -/
theorem Tracks.follow {b : AbsCluster} {o : Outcome} {logs : MatchCluster} {T : UInt64} (h : Tracks s a)
    (hs : matchStep s.logs (.follow i T) logs) (hsid : sidGetTerm o.server.sid = T)
    (hhist : b.hist = a.hist) (hterm : b.term = Function.update a.term i T.toNat)
    (hleads : b.leads = Function.update a.leads i false) (hjoined : b.joined = a.joined)
    (helected : b.elected = a.elected) (htaken : b.taken = a.taken) :
    Tracks (s.act i o logs) b ∧ a.term i ≤ T.toNat ∧ a.joined i = true := by
  have hsafe := h.safe.step (l := .follow i T) ⟨trivial, trivial⟩ hs
  obtain ⟨hup, t, ⟨hrec, rfl⟩, rfl⟩ := hs
  have hself : (s.logs.set i { s.logs.servers i with isLeader := false }).servers i =
      { s.logs.servers i with isLeader := false } := MatchSafe.servers_set_self
  refine ⟨h.role hsafe (MatchSafe.hist_role rfl rfl) rfl (congrArg PersistState.isLeader hself)
    (fun j hj => MatchSafe.servers_set_of_ne hj) (congrArg PersistState.recovered hself :) hsid ?_ hhist
    hterm hleads hjoined htaken, ?_, (h.joined i).trans hrec⟩
  · rw [helected]
    exact h.elected
  · rw [h.term]
    split at hup
    · exact (UInt64.lt_iff_toNat_lt.mp hup).le
    · exact UInt64.le_iff_toNat_le.mp hup

namespace Simulates

/-! ### Elections -/

/-- A server takes another SID, and does not vote. -/
theorem follow {o : Outcome} {logs : MatchCluster} {T : UInt64} (h : Simulates n s a)
    (hs : matchStep s.logs (.follow i T) logs) (hsid : sidGetTerm o.server.sid = T)
    (ho : Posts a i o) : ∃ a', Simulates n (s.act i o logs) a' := by
  obtain ⟨htracks, hle, -⟩ := Tracks.follow (b := a.follow i T.toNat) h.tracks hs hsid rfl rfl rfl rfl rfl
    rfl
  have hm : AbsStep n a (a.follow i T.toNat) := .follow hle
  exact ⟨_, h.next hm htracks ((h.onRecord.act ho).evolves (h.sound.evolves hm))⟩

theorem posts_setSid (h : Simulates n s a) (sid : UInt64) :
    Posts a i ((s.server i).setSid sid).done :=
  ⟨fun _ hp => absurd hp List.not_mem_nil, h.onRecord.slots i, fun _ hv => absurd hv List.not_mem_nil⟩

/-- A server starts an election. -/
theorem startElection {o : Outcome} {logs : MatchCluster} (h : Simulates n s a)
    (hlow : TermLow (s.ctrl i).sid)
    (hlast : Server.lastEntry (s.logs.servers i).log = some (lastIdxTerm (s.logs.servers i).written))
    (hstart : (s.server i).startElection = some o)
    (hs : matchStep s.logs (.follow i (sidGetTerm o.server.sid)) logs) :
    ∃ a', Simulates n (s.act i o logs) a' := by
  have hentry := lastEntry_of_startElection hstart
  obtain ⟨request, hsid, -, hballots, hposts, hserver⟩ := startElection_eq hstart
  obtain ⟨hl, hidx, -, -⟩ := candidateSid_spec (s := s.server i) hlow
  have hsid' : o.server.sid = (s.server i).candidateSid := by rw [hserver]; rfl
  have hown : (sidGetIdx (s.server i).candidateSid).toNat = i := by
    rw [hidx]
    exact toNat_ofNat_of_lt i.isLt
  obtain ⟨htracks, hle, hjoined⟩ := Tracks.follow
    (b := a.stand i (sidGetTerm o.server.sid).toNat) h.tracks hs rfl rfl rfl rfl rfl rfl rfl
  have hm : AbsStep n a (a.stand i (sidGetTerm o.server.sid).toNat) := .stand hle hjoined
  have hg := h.sound.evolves hm
  obtain ⟨-, -, -, hhist, -⟩ := h.servers_holds hjoined
  have hvoteReq : o.server.ctrl.voteReq = Function.update (s.ctrl i).voteReq i request := by
    rw [hserver]
    rfl
  have hrequest : RequestFrom (a.stand i (sidGetTerm o.server.sid).toNat) i request := by
    refine ⟨hsid ▸ hl, .inr ⟨_, List.mem_cons_self, rfl, hsid ▸ hown, by rw [hsid, hsid'], ?_⟩⟩
    have hslot : o.server.ctrl.voteReq (s.server i).idx = request := by
      rw [hvoteReq]
      exact Function.update_self ..
    rw [hslot] at hentry
    show lastIdxTerm (a.hist i) = _
    rw [hhist]
    exact Option.some.inj (hlast.symm.trans hentry)
  refine ⟨_, h.next hm htracks
    ((h.onRecord.evolves hg).act ⟨fun p hp r hr => ?_, fun j => ?_, fun v hv => ?_⟩)⟩
  · rw [hposts p hp] at hr
    exact RemoteWrite.voteReq.inj hr ▸ hrequest
  · rw [hvoteReq]
    by_cases hj : j = i
    · subst hj
      rw [Function.update_self]
      exact hrequest
    · rw [Function.update_of_ne hj]
      exact (h.onRecord.slots i j).evolves hg
  · rw [hballots, List.mem_singleton] at hv
    exact .inl (hv ▸ hown)

/-- A server that joins takes a SID. -/
theorem joinSid {sid : UInt64} (h : Simulates n s a) (hnew : (s.logs.servers i).recovered = false)
    (hle : sidGetTerm (s.ctrl i).sid ≤ sidGetTerm sid) :
    ∃ a', Simulates n (s.act i ((s.server i).setSid sid).done
      { s.logs with term := Function.update s.logs.term i (sidGetTerm sid) }) a' := by
  have hinv := h.tracks.safe.server i
  have hfollower := (hinv.joining hnew).2
  rw [h.tracks.sid] at hle
  have hsame : s.logs.set i (s.logs.servers i) = s.logs := by
    rw [MatchCluster.set, Function.update_eq_self]
  have hsafe := h.tracks.safe.changeTerm (by rw [hfollower]; exact hle) hinv hfollower rfl rfl
  rw [hsame] at hsafe
  have hle' : a.term i ≤ (sidGetTerm sid).toNat := by
    rw [h.tracks.term]
    exact UInt64.le_iff_toNat_le.mp hle
  have hm : AbsStep n a (a.follow i (sidGetTerm sid).toNat) := .follow hle'
  refine ⟨_, h.next hm ?_ ((h.onRecord.act (h.posts_setSid sid)).evolves (h.sound.evolves hm))⟩
  exact h.tracks.role hsafe rfl rfl hfollower (fun _ _ => rfl) rfl rfl h.tracks.elected rfl rfl
    rfl rfl rfl

/-- The requests in the slots of a server are those of candidates. -/
theorem fromCandidates (h : Simulates n s a) (i : ServerIdx) : (s.server i).FromCandidates := by
  refine ⟨fun j => (h.onRecord.slots i j).noL, ?_⟩
  show sidGetTerm ((s.ctrl i).voteReq i).sid ≤ sidGetTerm (s.ctrl i).sid
  rcases (h.onRecord.slots i i).candidacy with hzero | ⟨c, hc, hcand, -, hterm, -⟩
  · rw [hzero]
    exact UInt64.zero_le
  · obtain ⟨-, hle, -⟩ := h.sound.candidacy c hc
    obtain rfl : c.candidate = i := Fin.ext hcand
    rw [hterm, h.tracks.term, ← h.tracks.sid] at hle
    exact UInt64.le_iff_toNat_le.mpr hle

/-- A server votes. -/
theorem vote {server voter : Server} {best : VoteReq} {logs : MatchCluster} (h : Simulates n s a)
    (hlast : Server.localLast (s.logs.servers i).log = some (lastIdxTerm (s.logs.servers i).written))
    (hpoll : (s.server i).pollVoteRequests = some (.vote server best))
    (hcid : server.updateCid best.cid = some voter)
    (hs : matchStep s.logs (.follow i (sidGetTerm best.sid)) logs) :
    ∃ a', Simulates n (s.act i ⟨voter, voter.sendVoteAck, [best.sid]⟩ logs) a' := by
  obtain ⟨j, ⟨-, hlt⟩, hbest, hup⟩ := ((h.fromCandidates i).votesUpToDate hlast).vote server best hpoll
  obtain ⟨cid, connected, -, rfl⟩ := updateCid_eq hcid
  -- the request is that of a candidate
  have hfrom : RequestFrom a j best := hbest ▸ h.onRecord.slots i j
  have hhigher : sidGetTerm (s.ctrl i).sid < sidGetTerm best.sid := hbest ▸ hlt
  obtain ⟨c, hc, hcand, hidx, hterm, hreq⟩ := hfrom.candidacy.resolve_left fun hzero => by
    rw [hzero] at hhigher
    exact absurd hhigher (UInt64.not_lt.mpr UInt64.zero_le)
  obtain ⟨hsid, hdrop⟩ : server.sid = best.sid ∧ Dropped (s.ctrl i).voteReq server.ctrl.voteReq := by
    rcases pollVoteRequests_cases hpoll with ⟨q, -, heq⟩ | ⟨-, -, -, heq⟩ |
      ⟨q, term, k, -, -, -, -, -, heq⟩ | ⟨q, k, -, -, hdrop, -, heq⟩
    · cases heq
    · cases heq
    · cases heq
    · obtain ⟨rfl, rfl⟩ := Server.Poll.vote.inj heq
      exact ⟨rfl, hdrop⟩
  obtain ⟨htracks, -, hjoined⟩ := Tracks.follow
    (o := ⟨{ server with cid := cid, connected := connected },
      Server.sendVoteAck { server with cid := cid, connected := connected }, [best.sid]⟩)
    (b := a.grant i c) h.tracks hs (congrArg sidGetTerm hsid) rfl (by rw [← hterm]; rfl) rfl rfl rfl rfl
  obtain ⟨-, -, -, hhist, -⟩ := h.servers_holds hjoined
  have hm : AbsStep n a (a.grant i c) := by
    refine .grant hc ?_ (lastLe_of_upToDate (r := best) (fun e he => ?_) ?_ hreq)
    · rw [h.tracks.term, hterm, ← h.tracks.sid]
      exact UInt64.lt_iff_toNat_lt.mp hhigher
    · rw [h.tracks.hist] at he
      exact h.tracks.safe.pos i e he
    · rw [hhist]
      exact hup
  have hg := h.sound.evolves hm
  refine ⟨_, h.next hm htracks
    ((h.onRecord.evolves hg).act ⟨fun p hp r hr => ?_, fun k => ?_, fun v hv => ?_⟩)⟩
  · rw [Server.sendVoteAck] at hp
    dsimp only at hp
    split at hp
    · rw [List.mem_singleton] at hp
      subst hp
      cases hr
    · cases hp
  · exact (hdrop.requestFrom (h.onRecord.slots i) k).evolves hg
  · rw [List.mem_singleton] at hv
    subst hv
    exact .inr ⟨_, List.mem_cons_self, rfl, hcand.trans hidx.symm, hterm⟩

/-- A server takes a higher term, and does not vote. -/
theorem raise {server : Server} {logs : MatchCluster} (h : Simulates n s a)
    (hpoll : (s.server i).pollVoteRequests = some (.raise server))
    (hs : matchStep s.logs (.follow i (sidGetTerm server.sid)) logs) :
    ∃ a', Simulates n (s.act i ⟨server, [], [server.sid]⟩ logs) a' := by
  rcases pollVoteRequests_cases hpoll with ⟨q, -, heq⟩ | ⟨-, -, -, heq⟩ |
    ⟨q, term, k, hl, hdrop, -, -, hbound, heq⟩ | ⟨q, k, -, -, -, -, heq⟩
  · cases heq
  · cases heq
  · obtain rfl := Server.Poll.raise.inj heq
    refine h.follow hs rfl ⟨fun p hp => absurd hp List.not_mem_nil,
      hdrop.requestFrom (h.onRecord.slots i), fun v hv => .inl ?_⟩
    obtain rfl := List.mem_singleton.mp hv
    have hidx := (raise_spec (s := s.server i) hl hbound).2.1
    exact (congrArg UInt8.toNat hidx).trans (toNat_ofNat_of_lt i.isLt)
  · cases heq

/-- A server stays in its term, with its role. -/
theorem keep {o : Outcome} (h : Simulates n s a) (hsid : sidGetTerm o.server.sid = s.logs.term i)
    (ho : Posts a i o) : Simulates n (s.act i o s.logs) a := by
  refine h.stay ?_ (h.onRecord.act ho)
  refine h.tracks.role (T := s.logs.term i) h.tracks.safe rfl (Function.update_eq_self ..).symm rfl
    (fun _ _ => rfl) rfl hsid h.tracks.elected rfl ?_ ?_ rfl rfl
  · rw [← h.tracks.term, Function.update_eq_self]
  · rw [← h.tracks.leads, Function.update_eq_self]

/-- A server does nothing, other than to drop requests. -/
theorem ignore {server : Server} (h : Simulates n s a)
    (hpoll : (s.server i).pollVoteRequests = some (.ignore server)) (hsid : server.sid = (s.ctrl i).sid) :
    Simulates n (s.act i server.done s.logs) a := by
  refine h.keep ?_ ⟨fun p hp => absurd hp List.not_mem_nil, ?_, fun v hv => absurd hv List.not_mem_nil⟩
  · rw [← h.tracks.sid i]
    exact congrArg sidGetTerm hsid
  · rcases pollVoteRequests_cases hpoll with ⟨q, hdrop, heq⟩ | ⟨-, -, -, heq⟩ |
      ⟨q, term, k, -, -, -, -, -, heq⟩ | ⟨q, k, -, -, -, -, heq⟩
    · obtain rfl := Server.Poll.ignore.inj heq
      exact hdrop.requestFrom (h.onRecord.slots i)
    · obtain rfl := Server.Poll.ignore.inj heq
      exact h.onRecord.slots i
    · cases heq
    · cases heq

/-- The voters that a new leader has counted are those of its term. -/
theorem voted (h : Simulates n s a) (hcand : (s.server i).isCandidate = true) (hwins : s.Wins i)
    (hcount : CountOk n s i) : ∃ V, ChainQuorum n V ∧ ∀ k, V k → k = i ∨
      ∃ b ∈ a.votes, b.voter = k ∧ b.candidate = i ∧ b.term = a.term i := by
  obtain ⟨⟨-, hself⟩, hl⟩ : ((s.server i).isNone = false ∧ (sidGetIdx (s.ctrl i).sid).toNat = i) ∧
      sidGetL (s.ctrl i).sid = false := by
    simpa [Server.isCandidate, Server.sid, VoteCluster.server] using hcand
  have hpass := (pollVoteCount_spec (s.server i)).2.2.2 hl hwins
  refine ⟨fun k => isVoter (s.cid i) i (s.logs.servers i).log.len (s.ctrl i).voteAck k = true, ?_, ?_⟩
  · rcases isMajority_voters hcount.cid hcount.member hpass with hm | hm
    · exact ⟨n, _, .inl rfl, hm, fun _ => id⟩
    · exact ⟨n + 1, _, .inr rfl, hm, fun _ => id⟩
  · intro k hk
    simp only [isVoter, Bool.or_eq_true, beq_iff_eq] at hk
    rcases hk with hk | hk
    · exact .inl (Fin.ext hk)
    · rcases h.onRecord.ballots k _ (hcount.voted k hk) with hown | ⟨b, hb, hvoter, hfor, hterm⟩
      · exact .inl (Fin.ext (hown.symm.trans hself))
      · refine .inr ⟨b, hb, hvoter, Fin.ext (hfor.trans hself), ?_⟩
        rw [hterm, h.tracks.sid, h.tracks.term]

/-- A candidate becomes leader. -/
theorem lead {o : Outcome} {logs : MatchCluster} {V : ServerIdx → Prop} (h : Simulates n s a)
    (hone : oneLeader s.logs (.lead i)) (hV : ChainQuorum n V)
    (hvotes : ∀ k, V k → k = i ∨ ∃ b ∈ a.votes, b.voter = k ∧ b.candidate = i ∧ b.term = a.term i)
    (hs : matchStep s.logs (.lead i) logs) (hsid : sidGetTerm o.server.sid = s.logs.term i)
    (ho : Posts a i o) : ∃ a', Simulates n (s.act i o logs) a' := by
  have hsafe := h.tracks.safe.step (l := .lead i) ⟨hone, trivial⟩ hs
  obtain ⟨hfollower, t, ⟨hrec, rfl⟩, rfl⟩ := hs
  have hself : (s.logs.set i { s.logs.servers i with isLeader := true }).servers i =
      { s.logs.servers i with isLeader := true } := MatchSafe.servers_set_self
  have hnone : ¬ a.elected (a.term i) := by
    intro hcon
    rw [h.tracks.term] at hcon
    exact h.tracks.safe.not_led hone hfollower (h.tracks.elected _ hcon)
  have hm : AbsStep n a (a.lead i) := .lead ((h.tracks.joined i).trans hrec) hnone hV hvotes
  refine ⟨_, h.next hm ?_ ((h.onRecord.act ho).evolves (h.sound.evolves hm))⟩
  refine h.tracks.role (T := s.logs.term i) hsafe (MatchSafe.hist_role rfl rfl)
    (Function.update_eq_self ..).symm (congrArg PersistState.isLeader hself)
    (fun j hj => MatchSafe.servers_set_of_ne hj) (congrArg PersistState.recovered hself :) hsid ?_ rfl ?_
    rfl rfl rfl
  · rintro U (hU | rfl)
    · obtain ⟨W, p, hW, hp⟩ := h.tracks.elected U hU
      exact ⟨W, p, hW, List.mem_cons_of_mem _ hp⟩
    · exact ⟨s.logs.term i, i, (h.tracks.term i).symm, List.mem_cons_self⟩
  · rw [← h.tracks.term, Function.update_eq_self]
    rfl

/-- A candidate counts the votes. -/
theorem pollVoteCount {logs logs' : MatchCluster} (h : Simulates n s a)
    (hone : onePerTerm s (.pollVoteCount i)) (hcount : s.Wins i → CountOk n s i)
    (hbefore : PassedBefore s i (s.server i).pollVoteCount.log)
    (hcand : (s.server i).isCandidate = true)
    (hcommit : matchStep s.logs (.own i (.setCommit (s.server i).pollVoteCount.log.commit)) logs)
    (hlead : if sidGetL (s.server i).pollVoteCount.sid = true then matchStep logs (.lead i) logs'
      else logs' = logs) :
    ∃ a', Simulates n ((s.act i (s.server i).pollVoteCount.done logs').setPast i
      (s.server i).pollVoteCount.log) a' := by
  obtain ⟨hlog, hvoteReq, hterm, -⟩ := pollVoteCount_spec (s.server i)
  have hvoted := fun hwins => h.voted hcand hwins (hcount hwins)
  rw [onePerTerm] at hone
  rw [VoteCluster.Wins] at hone hvoted
  have h₁ := h.own (i := i) (l := .setCommit _) trivial hcommit
  generalize (s.server i).pollVoteCount = server at *
  obtain ⟨-, t, ⟨hrec, rfl⟩, rfl⟩ := hcommit
  have hself : (s.logs.set i { s.logs.servers i with log := { (s.logs.servers i).log with
      commit := server.log.commit } }).servers i = { s.logs.servers i with
        log := { (s.logs.servers i).log with commit := server.log.commit } } :=
    MatchSafe.servers_set_self
  have hposts : Posts a i server.done := by
    refine ⟨fun _ hp => absurd hp List.not_mem_nil, fun j => ?_, fun _ hv => absurd hv List.not_mem_nil⟩
    show RequestFrom a j (server.ctrl.voteReq j)
    rw [hvoteReq]
    exact h.onRecord.slots i j
  have hsid : sidGetTerm server.sid = s.logs.term i := hterm.trans (h.tracks.sid i)
  split at hlead
  · rename_i hwins
    obtain ⟨V, hV, hvotes⟩ := hvoted hwins
    obtain ⟨a', h'⟩ := h₁.lead (o := server.done) (hone hwins) hV hvotes hlead hsid hposts
    obtain ⟨-, t, ⟨hrec', rfl⟩, rfl⟩ := hlead
    refine h'.setPast (i := i) ?_ ?_ hbefore
    · exact congrArg PersistState.recovered MatchSafe.servers_set_self |>.trans hrec'
    · refine (congrArg PersistState.log MatchSafe.servers_set_self).trans ?_
      rw [hlog]
      exact congrArg PersistState.log hself
  · subst hlead
    have h' := h₁.keep (o := server.done) hsid hposts
    refine h'.setPast (i := i) ?_ ?_ hbefore
    · exact (congrArg PersistState.recovered hself).trans hrec
    · rw [hlog]
      exact congrArg PersistState.log hself

/-! ### The commit rule -/

/-- The commit offset of a leader passes entries. -/
theorem passed {new : List (Nat × DareLogEntry)}
    (hnew : new = passedEntries (s.logs.servers i).log i (commitSize (s.cid i))) (h : Simulates n s a)
    (hlead : (s.logs.servers i).isLeader = true) (hok : ReplyOk n s i) :
    (∀ c ∈ new, ∃ k, AtPlace (s.logs.servers i).written k c) ∧
    ∃ a', Simulates n { s with passed := new.map (fun c => (s.logs.term i, c)) ++ s.passed } a' := by
  have hleads : a.leads i = true := (h.tracks.leads i).trans hlead
  obtain ⟨hjoined, -, hled⟩ := h.sound.leader i hleads
  obtain ⟨lo, u, hh, hhist, hlen⟩ := h.servers_holds hjoined
  obtain ⟨visited, hwalk⟩ := hok.commit
  have hpassed : ∀ c ∈ new, ∃ k, AtPlace (s.logs.servers i).written k c :=
    fun c hc => (hh.passed hlen hwalk (hnew ▸ hc)).1
  refine ⟨hpassed, ?_⟩
  choose! place hplace using hpassed
  have hterm : a.term i = (s.logs.term i).toNat := h.tracks.term i
  obtain ⟨x, hx, hxterm⟩ := hok.own
  have hm : AbsStep n a (a.commit i (new.map fun c => (place c, c.2))) := by
    refine .commit hleads ⟨x, hhist ▸ hx, ?_⟩ fun r hr => ?_
    · rw [hterm, entryTerm, hxterm]
    · obtain ⟨c, hc, rfl⟩ := List.mem_map.mp hr
      refine ⟨hhist ▸ (hplace c hc).1,
        fun k => isAcker (s.logs.servers i).log.entries c.1 i k = true, ?_, fun k hk => ?_⟩
      · exact ⟨_, _, commitSize_of_chain hok.cid, (hh.passed hlen hwalk (hnew ▸ hc)).2, fun _ => id⟩
      · refine (hok.taken c (hnew ▸ hc) k hk).imp id fun htaken => ?_
        rw [hterm]
        exact h.tracks.taken k _ _ htaken
  have hg := h.sound.evolves hm
  have hr := h.onRecord.evolves hg
  refine ⟨_, h.next hm ?_ ⟨fun T c hc => ?_, hr.past, hr.flight, hr.slots, hr.ballots⟩⟩
  · exact ⟨h.tracks.safe, h.tracks.hist, h.tracks.term, h.tracks.leads, h.tracks.joined,
      h.tracks.elected, fun j T e he => (hg.keeps j _).mem (h.tracks.taken j T e he), h.tracks.sid⟩
  · rcases List.mem_append.mp hc with hc | hc
    · obtain ⟨c', hc', heq⟩ := List.mem_map.mp hc
      obtain ⟨rfl, rfl⟩ := Prod.mk.inj heq
      refine ⟨place c', List.mem_append_left _ ?_, ?_⟩
      · exact List.mem_map.mpr ⟨_, List.mem_map.mpr ⟨c', hc', rfl⟩, by rw [hterm]⟩
      · exact (atPlace_iff (h.sound.source i) (hhist ▸ (hplace c' hc').1)).mp (hhist ▸ hplace c' hc')
    · exact hr.passed T c hc

/-- The commit rule of a leader. -/
theorem commit {r : DareLog × List Pass} {logs : MatchCluster} (h : Simulates n s a)
    (hok : ReplyOk n s i) (hlead : (s.logs.servers i).isLeader = true)
    (hs : matchStep s.logs (.own i (.setCommit r.1.commit)) logs) :
    ∃ a', Simulates n { s with
      logs := logs
      passed := (passedEntries (s.logs.servers i).log i (commitSize (s.cid i))).map
        (fun c => (s.logs.term i, c)) ++ s.passed
      past := Function.update s.past i
        (s.past i ++ passedEntries (s.logs.servers i).log i (commitSize (s.cid i))) } a' := by
  have hrec := (h.tracks.safe.server i).recovered_of_leader hlead
  obtain ⟨hplace, a₁, h₁⟩ := passed rfl h hlead hok
  obtain ⟨a₂, h₂⟩ := h₁.learn hrec fun c hc => ⟨hplace c hc, s.logs.term i, UInt64.le_refl _,
    List.mem_append_left _ (List.mem_map.mpr ⟨c, hc, rfl⟩)⟩
  exact ⟨a₂, h₂.own (i := i) (l := .setCommit _) trivial hs⟩

/-! ### The memory -/

/-- Writes land or are lost. -/
theorem memory {ctrl : ServerIdx → CtrlData} {flight : ServerIdx → ServerIdx → List Posted}
    (h : Simulates n s a) (hsid : ∀ j, (ctrl j).sid = (s.ctrl j).sid)
    (hslots : ∀ j k, RequestFrom a k ((ctrl j).voteReq k))
    (hflight : ∀ j k, ∀ w ∈ flight j k, w ∈ s.flight j k) :
    Simulates n { s with ctrl := ctrl, flight := flight } a := by
  refine h.stay (h.tracks.of_eq rfl hsid rfl) ?_
  exact ⟨h.onRecord.passed, h.onRecord.past, fun j k w hw => h.onRecord.flight j k w (hflight j k w hw),
    hslots, h.onRecord.ballots⟩

/-- A write lands. -/
theorem land {w : Posted} {ps : List Posted} (h : Simulates n s a) (hflight : s.flight i j = w :: ps) :
    Simulates n { s with
      ctrl := Function.update s.ctrl j (w.write.land (s.ctrl j) i)
      flight := Function.update s.flight i (Function.update (s.flight i) j ps) } a := by
  refine h.memory (fun k => ?_) (fun k x => ?_) fun k x w' hw' =>
    mem_of_mem_update (fun p hp => hflight ▸ List.mem_cons_of_mem _ hp) hw'
  · by_cases hk : k = j
    · subst hk
      rw [Function.update_self]
      exact land_sid ..
    · rw [Function.update_of_ne hk]
  · by_cases hk : k = j
    · subst hk
      rw [Function.update_self]
      cases hwrite : w.write with
      | voteReq r =>
        -- the request is in the slot of its sender
        show RequestFrom a x (Function.update (s.ctrl k).voteReq i r x)
        by_cases hx : x = i
        · subst hx
          rw [Function.update_self]
          exact h.onRecord.flight i k w (hflight ▸ List.mem_cons_self) r hwrite
        · rw [Function.update_of_ne hx]
          exact h.onRecord.slots k x
      | _ => exact h.onRecord.slots k x
    · rw [Function.update_of_ne hk]
      exact h.onRecord.slots k x

/-- The writes on their way are lost. -/
theorem lose (h : Simulates n s a) : Simulates n { s with
    flight := Function.update s.flight i (Function.update (s.flight i) j []) } a :=
  h.memory (fun _ => rfl) h.onRecord.slots fun _ _ _ hw =>
    mem_of_mem_update (fun _ hp => absurd hp List.not_mem_nil) hw

/-- The heartbeats of a server do not matter. -/
theorem setHb (h : Simulates n s a) (hb : Nat → UInt64) :
    Simulates n { s with ctrl := Function.update s.ctrl i { s.ctrl i with hb := hb } } a := by
  refine h.memory (fun k => ?_) (fun k x => ?_) fun _ _ _ hw => hw
  · by_cases hk : k = i
    · subst hk
      rw [Function.update_self]
    · rw [Function.update_of_ne hk]
  · by_cases hk : k = i
    · subst hk
      rw [Function.update_self]
      exact h.onRecord.slots k x
    · rw [Function.update_of_ne hk]
      exact h.onRecord.slots k x

/-! ### Runs -/

/-- The servers are new. -/
theorem init (hn : n < MAX_SERVER_COUNT) (h : voteInit s) : Simulates n s (Replicas.new 0) := by
  obtain ⟨hlogs, hflight, hpassed, hservers⟩ := h
  have hnew : ∀ i, (s.logs.servers i).isLeader = false ∧ (s.logs.servers i).recovered = false :=
    fun i => ⟨(hlogs.1 i).1.2.2.1, (hlogs.1 i).1.2.2.2.1⟩
  have hzero : ∀ i, RequestFrom (Replicas.new 0) i ⟨0, 0, 0, ⟨0, 0, 0, 0, 0⟩⟩ := fun i =>
    ⟨sidGetL_zero, .inl rfl⟩
  have hctrl : ∀ i, (s.ctrl i).sid = SID_NULL ∧
      (s.ctrl i).voteReq = fun _ => ⟨0, 0, 0, ⟨0, 0, 0, 0, 0⟩⟩ := by
    intro i
    obtain ⟨-, ⟨cid, hc⟩, -⟩ := hservers i
    exact ⟨by rw [hc]; rfl, by rw [hc]; rfl⟩
  refine ⟨hn, .refl, ⟨MatchSafe.init hlogs, funext fun i => ?_, fun i => ?_, fun i => ?_, fun i => ?_,
    fun T hT => hT.elim, fun i T e he => ?_, fun i => ?_⟩,
    ⟨fun T c hc => ?_, fun i c hc => ?_, fun i j w hw => ?_, fun i j => ?_, fun k v hv => ?_⟩⟩
  · exact (historyOf_of_joining (hnew i).2).symm
  · rw [(hservers i).1]
    rfl
  · exact (hnew i).1.symm
  · exact (hnew i).2.symm
  · rw [(hservers i).2.2.2.1 T] at he
    cases he
  · rw [(hctrl i).1, (hservers i).1]
    decide
  · rw [hpassed] at hc
    cases hc
  · rw [(hservers i).2.2.2.2] at hc
    cases hc
  · rw [hflight] at hw
    cases hw
  · rw [(hctrl i).2]
    exact hzero j
  · rw [(hservers k).2.2.1] at hv
    cases hv

/-- The replicas simulate every step under the condition. -/
theorem step {l : VoteLabel} (h : Simulates n s a) (hok : voteOk n s l) (hs : voteStep s l s') :
    ∃ a', Simulates n s' a' := by
  obtain ⟨hone, hok⟩ := hok
  cases l with
  | logs l =>
    obtain ⟨hlog, logs, hstep, rfl⟩ := hs
    exact h.logStep hlog hok.1 hok.2 hstep
  | joinSid i sid =>
    obtain ⟨hnew, rfl⟩ := hs
    exact h.joinSid hnew hok
  | follow i sid =>
    obtain ⟨-, logs, hstep, rfl⟩ := hs
    exact h.follow hstep rfl (h.posts_setSid sid)
  | startElection i =>
    obtain ⟨o, logs, hstart, hstep, rfl⟩ := hs
    exact h.startElection hok.1 hok.2 hstart hstep
  | pollVoteRequests i =>
    rcases hs with ⟨server, best, voter, logs, hpoll, hcid, hstep, rfl⟩ |
      ⟨server, logs, hpoll, hstep, rfl⟩ | ⟨server, hpoll, hsid, rfl⟩
    · exact h.vote hok hpoll hcid hstep
    · exact h.raise hpoll hstep
    · exact ⟨a, h.ignore hpoll hsid⟩
  | pollVoteCount i =>
    obtain ⟨hcand, logs, logs', hcommit, hlead, rfl⟩ := hs
    exact h.pollVoteCount hone hok.1 hok.2 hcand hcommit hlead
  | commit i =>
    obtain ⟨hlead, r, logs, -, hstep, rfl⟩ := hs
    exact h.commit hok hlead hstep
  | land i j =>
    obtain ⟨w, ps, hflight, rfl⟩ := hs
    exact ⟨a, h.land hflight⟩
  | lose i j =>
    obtain rfl := hs
    exact ⟨a, h.lose⟩
  | hb i hb =>
    obtain rfl := hs
    exact ⟨a, h.setHb hb⟩
  | config i cid =>
    obtain rfl := hs
    exact ⟨a, h.stay (h.tracks.of_eq rfl (fun _ => rfl) rfl)
      (h.onRecord.of_eq rfl rfl rfl (fun _ => rfl) rfl)⟩

end Simulates

/-- The replicas simulate every run under the condition. -/
theorem simulated (hn : n < MAX_SERVER_COUNT) (h : Reach voteInit voteStep (voteOk n) s) :
    ∃ a, Simulates n s a := by
  induction h with
  | start hinit => exact ⟨_, Simulates.init hn hinit⟩
  | step _ hok hs ih =>
    obtain ⟨a, ha⟩ := ih
    exact ha.step hok hs

section Examples

/-- A stable group of three servers, all of them new. -/
def group : DareCid := ⟨0, 3, 0, CID_STABLE, 7⟩

def newVoters : VoteCluster where
  logs := newCluster
  ctrl := fun i => (newServer i group).ctrl
  cid := fun _ => group
  flight := fun _ _ => []
  ballots := fun _ => []
  taken := fun _ _ => []
  passed := []
  past := fun _ => []

theorem voteInit_newVoters : voteInit newVoters :=
  ⟨matchInit_newCluster, rfl, rfl, fun _ => ⟨rfl, ⟨group, rfl⟩, rfl, fun _ => rfl, rfl⟩⟩


/-- The memory of server 0 after three calls of `start_election`. -/
def standingCtrl : CtrlData :=
  [512, 1024, 1536].foldl (fun c sid => { c with
    sid := sid
    voteReq := Function.update c.voteReq 0 ⟨sid, 0, 0, group⟩
    voteAck := fun i => if i < 3 then LOG_SIZE else c.voteAck i }) (newServer 0 group).ctrl

/-- Server 1 votes for server 0 in term 1, and then for server 2 in term 2; the ACK for server 0, which
    is a candidate of term 3 now, is on its way. -/
theorem reach_elected : ∃ s, Reach voteInit voteStep (voteOk 3) s ∧
    s.logs.servers 0 = ⟨logNew, 0, false, true, [], []⟩ ∧
    s.logs.servers 1 = ⟨logNew, 1, false, true, [], []⟩ ∧
    s.logs.servers 2 = ⟨logNew, 2, true, true, [], []⟩ ∧
    s.logs.term 0 = 3 ∧ s.logs.term 1 = 2 ∧ s.logs.term 2 = 2 ∧ s.logs.led = [(2, 2)] ∧
    s.ctrl 0 = standingCtrl ∧ s.cid 0 = group ∧ s.cid 2 = group ∧ s.flight 1 0 = [⟨.voteAck 0, 512⟩] ∧
    s.passed = [] := by
  have hinit : Reach voteInit voteStep (voteOk 3) newVoters := .start voteInit_newVoters
  have hstart₀ := hinit.step (l := VoteLabel.logs (.start 0)) ⟨trivial, ⟨trivial, trivial⟩, trivial⟩
    ⟨trivial, _, ⟨_, ⟨rfl, rfl, rfl, rfl⟩, rfl⟩, rfl⟩
  have hstart₁ := hstart₀.step (l := VoteLabel.logs (.start 1)) ⟨trivial, ⟨trivial, trivial⟩, trivial⟩
    ⟨trivial, _, ⟨_, ⟨rfl, rfl, rfl, rfl⟩, rfl⟩, rfl⟩
  have hstart₂ := hstart₁.step (l := VoteLabel.logs (.start 2)) ⟨trivial, ⟨trivial, trivial⟩, trivial⟩
    ⟨trivial, _, ⟨_, ⟨rfl, rfl, rfl, rfl⟩, rfl⟩, rfl⟩
  have hstand₀ := hstart₂.step (l := VoteLabel.startElection 0) ⟨trivial, by unfold TermLow; decide, rfl⟩
    ⟨_, _, rfl, ⟨by decide, _, ⟨rfl, rfl⟩, rfl⟩, rfl⟩
  have hasked₀ := hstand₀.step (l := VoteLabel.land 0 1) ⟨trivial, trivial⟩ ⟨_, _, rfl, rfl⟩
  have hvote₀ := hasked₀.step (l := VoteLabel.pollVoteRequests 1) ⟨trivial, rfl⟩
    (.inl ⟨_, _, _, _, rfl, rfl, ⟨by decide, _, ⟨rfl, rfl⟩, rfl⟩, rfl⟩)
  have hagain₀ := hvote₀.step (l := VoteLabel.startElection 0) ⟨trivial, by unfold TermLow; decide, rfl⟩
    ⟨_, _, rfl, ⟨by decide, _, ⟨rfl, rfl⟩, rfl⟩, rfl⟩
  have hagain₀' := hagain₀.step (l := VoteLabel.startElection 0) ⟨trivial, by unfold TermLow; decide, rfl⟩
    ⟨_, _, rfl, ⟨by decide, _, ⟨rfl, rfl⟩, rfl⟩, rfl⟩
  have hstand₂ := hagain₀'.step (l := VoteLabel.startElection 2) ⟨trivial, by unfold TermLow; decide, rfl⟩
    ⟨_, _, rfl, ⟨by decide, _, ⟨rfl, rfl⟩, rfl⟩, rfl⟩
  have hagain₂ := hstand₂.step (l := VoteLabel.startElection 2) ⟨trivial, by unfold TermLow; decide, rfl⟩
    ⟨_, _, rfl, ⟨by decide, _, ⟨rfl, rfl⟩, rfl⟩, rfl⟩
  have hasked₂ := hagain₂.step (l := VoteLabel.land 2 1) ⟨trivial, trivial⟩ ⟨_, _, rfl, rfl⟩
  have hasked₂' := hasked₂.step (l := VoteLabel.land 2 1) ⟨trivial, trivial⟩ ⟨_, _, rfl, rfl⟩
  have hvote₂ := hasked₂'.step (l := VoteLabel.pollVoteRequests 1) ⟨trivial, rfl⟩
    (.inl ⟨_, _, _, _, rfl, rfl, ⟨by decide, _, ⟨rfl, rfl⟩, rfl⟩, rfl⟩)
  have hack₂ := hvote₂.step (l := VoteLabel.land 1 2) ⟨trivial, trivial⟩ ⟨_, _, rfl, rfl⟩
  have hcount₂ := hack₂.step (l := VoteLabel.pollVoteCount 2)
    ⟨fun _ _ hp => absurd hp List.not_mem_nil, fun _ => ⟨.stable rfl rfl rfl, by decide, by decide⟩,
      fun _ hc => absurd hc List.not_mem_nil⟩
    ⟨rfl, _, _, ⟨trivial, _, ⟨rfl, rfl⟩, rfl⟩, ⟨rfl, _, ⟨rfl, rfl⟩, rfl⟩, rfl⟩
  refine ⟨_, hcount₂, ?_, ?_, ?_, ?_, ?_, ?_, ?_, ?_, ?_, ?_, ?_, ?_⟩ <;> rfl

/-- The log of server 2 with the reply of server 1. -/
def countedLog : DareLog := { nextLog with entries := setReply nextLog.entries 0 1 1 }

theorem readerWalk_countedLog :
    readerWalk countedLog (walkFuel countedLog) countedLog.head = some ([0], 64) ∧
      [0].map (readEntry countedLog.entries) = [nextEntry] := by
  refine ⟨readerWalk_single ?_ ?_ ?_ ?_, ?_⟩ <;> decide +kernel

theorem passedEntries_countedLog : passedEntries countedLog 2 3 = [(0, nextEntry)] := by
  decide +kernel

theorem isAcker_countedLog : ∀ k : ServerIdx, isAcker countedLog.entries 0 2 k = true →
    k = 2 ∨ k = 1 := by
  decide +kernel

/-- Server 2 appends an entry and writes it to the log of server 1, which replies. -/
theorem reach_committed : ∃ s, Reach voteInit voteStep (voteOk 3) s ∧
    s.logs.servers 0 = ⟨logNew, 0, false, true, [], []⟩ ∧ (s.logs.servers 2).isLeader = true ∧
    s.logs.term 0 = 3 ∧ s.logs.term 2 = 2 ∧ s.logs.led = [(2, 2)] ∧ s.ctrl 0 = standingCtrl ∧
    s.cid 0 = group ∧ s.flight 1 0 = [⟨.voteAck 0, 512⟩] ∧ s.passed = [(2, 0, nextEntry)] := by
  obtain ⟨s, hreach, hs₀, hs₁, hs₂, hterm₀, hterm₁, hterm₂, hled, hctrl, hcid₀, hcid₂, hflight, hpassed⟩ :=
    reach_elected
  obtain ⟨hwalk, hread⟩ := readerWalk_nextLog
  have hroom : PersistAppendOk (s.logs.servers 2) NOOP default := by
    rw [hs₂]
    refine ⟨?_, by decide, by decide, ⟨[], .refl _⟩, ⟨[], .refl _⟩, fun last hlast => by cases hlast⟩
    unfold AppendRoom
    decide
  have happend := hreach.step (l := VoteLabel.logs (.append 2 0 0 NOOP default))
    ⟨trivial, ⟨trivial, hroom⟩, trivial⟩
    ⟨trivial, _, ⟨⟨nextLog, 2, true, true, [], [nextEntry]⟩, by
      rw [hs₂, hterm₂]
      exact ⟨rfl, rfl, _, _, append_nextLog, rfl⟩, rfl⟩, rfl⟩
  -- the log of server 1 becomes a copy
  have hchain : Chain entryFormat nextLog.entries LOG_SIZE 0 [nextEntry] := by
    rw [chain_singleton]
    exact ⟨by decide, (List.cons.inj hread).1, fun _ hnot => absurd hnot (by decide)⟩
  have hok : UpdateOk ⟨logNew, 1, false, true, [], []⟩ nextLog 0 [nextEntry] :=
    ⟨rfl, by decide, by simp, hchain, by decide +kernel, by decide +kernel,
      List.pairwise_singleton _ _⟩
  have hlast : LastEntries nextLog 0 [nextEntry] := ⟨⟨[], .refl _⟩, [0], 64, hwalk, hread⟩
  have hupdate := happend.step (l := VoteLabel.logs (.update 2 1 0 [nextEntry]))
    ⟨trivial, ⟨trivial, by
      show (s.logs.servers 1).isLeader = false
      rw [hs₁], by
      show UpdateOk (s.logs.servers 1) nextLog 0 [nextEntry]
      rw [hs₁]
      exact hok, hlast, by
      show SharesLast (s.logs.servers 1) _ _
      rw [hs₁]
      rfl⟩, by
      show s.logs.term 1 = s.logs.term 2
      rw [hterm₁, hterm₂], nextEntry, List.mem_singleton_self _, hterm₂.symm⟩
    ⟨trivial, _, ⟨by decide, rfl, _, ⟨by
      show (s.logs.servers 1).recovered = true
      rw [hs₁], rfl⟩, rfl⟩, rfl⟩
  have hreply := hupdate.step (l := VoteLabel.logs (.own 2 (.reply 0 1 1)))
    ⟨trivial, ⟨trivial, by decide, [0], 64, hwalk, List.mem_singleton_self _⟩, trivial⟩
    ⟨trivial, _, ⟨trivial, ⟨countedLog, 2, true, true, [], [nextEntry]⟩, ⟨rfl, rfl⟩, rfl⟩, rfl⟩
  obtain ⟨r, hr⟩ : ∃ r, updateCommit countedLog 2 3 = some r := by
    rw [← Option.isSome_iff_exists]
    decide +kernel
  have hpasses : passedEntries countedLog 2 (commitSize (s.cid 2)) = [(0, nextEntry)] := by
    rw [hcid₂]
    exact passedEntries_countedLog
  -- two of the three servers have the entry
  have hcommit := hreply.step (l := VoteLabel.commit 2)
    ⟨trivial, .stable (congrArg DareCid.state hcid₂)
      (congrArg (fun c : DareCid => c.size0.toNat) hcid₂)
      (congrArg (fun c : DareCid => c.size1.toNat) hcid₂),
      ⟨nextEntry, List.mem_singleton_self _, hterm₂.symm⟩, ⟨[], .refl _⟩, fun c hc k hk => by
        have hc' : c ∈ passedEntries countedLog 2 (commitSize (s.cid 2)) := hc
        rw [hpasses] at hc'
        obtain rfl := List.mem_singleton.mp hc'
        rcases isAcker_countedLog k hk with rfl | rfl
        · exact .inl rfl
        · right
          show nextEntry ∈ Function.update (s.taken 1) (s.logs.term 2)
            ((s.logs.servers 1).written ++ [nextEntry]) (s.logs.term 2)
          rw [Function.update_self]
          exact List.mem_append_right _ (List.mem_singleton_self _)⟩
    ⟨rfl, r, _, by
      show updateCommit countedLog 2 (commitSize (s.cid 2)) = some r
      rw [hcid₂]
      exact hr, ⟨trivial, _, ⟨rfl, rfl⟩, rfl⟩, rfl⟩
  refine ⟨_, hcommit, hs₀, rfl, hterm₀, hterm₂, hled, hctrl, hcid₀, hflight, ?_⟩
  show (passedEntries countedLog 2 (commitSize (s.cid 2))).map (fun c => (s.logs.term 2, c)) ++ s.passed = _
  rw [hpasses, hterm₂, hpassed]
  rfl

end Examples

end Apus
