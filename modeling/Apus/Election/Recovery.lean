import Apus.Election.Safety
import Apus.Election.TwoMajorities

namespace Apus

open Lib

/-!
# Votes over a crash

`rc_replicate_vote` writes the SID of the candidate into the private data of the voter at the other
servers, and `rc_get_replicated_vote` of the server that takes the slot later reads it from more than half
of the group.  It does not look at whether `wait_for_majority` has a majority of the writes: the ACK is
sent in any case.

* `StoredAt` — what another server has of the votes of the slot, with what is in flight to it;
* `VoteStored.step` — the invariant of the run after the vote;
* `vote_survives` — the runs in which the vote was written at a majority;
* `not_vote_survives` — a voter that only reaches the candidate.
-/

variable {Q : DareCid → Prop} {n : UInt8} {v i j k : Nat} {b : UInt64} {W : List Nat}
  {s s' s₁ s₂ : Cluster} {l : ElectLabel} {o : Outcome} {server : Server} {best best' : VoteReq}
  {early early' : List WorkCompletion} {polls polls' : List (List WorkCompletion)}
  {ackFails ackFails' : Bool}

/-- A stable configuration of a group of `n` slots. -/
def StableOf (n : UInt8) (cid : DareCid) : Prop := cid.state = CID_STABLE ∧ cid.size0 = n

/-- A step that lowers no SID, and that stays in the stable configurations of the group. -/
def InStable (n : UInt8) (s : Cluster) (l : ElectLabel) : Prop :=
  KeepsSid s l ∧ ∀ cid ∈ l.gives, StableOf n cid

/-- The servers have stable configurations, and have not done anything. -/
def stableInit (n : UInt8) (s : Cluster) : Prop :=
  electInit s ∧ ∀ i, StableOf n (s.servers i).cid

/-- After a vote of slot `v`, only this slot is taken, and the servers that take it join: the vote is read
    before a snapshot is.  In each poll of that round the first completion tells what the others are. -/
def SlotJoins (n : UInt8) (v : Nat) (s : Cluster) (l : ElectLabel) : Prop :=
  InStable n s l ∧
  match l with
  | .take i _ => i = v
  | .established i joined => i = v → joined = true
  | .pollSmReply i _ => i = v → (s.servers v).progress = .getVote →
    ∀ target < (s.servers v).size, (s.servers v).smReplyGood target = false
  | .getReplicatedVote i _ polls _ => i = v → ∀ poll ∈ polls, firstTells poll = true
  | _ => True

instance (n : UInt8) (cid : DareCid) : Decidable (StableOf n cid) :=
  inferInstanceAs (Decidable (_ ∧ _))

instance (n : UInt8) (s : Cluster) (l : ElectLabel) : Decidable (InStable n s l) :=
  inferInstanceAs (Decidable (_ ∧ ∀ cid ∈ l.gives, StableOf n cid))

instance (n : UInt8) (v : Nat) (s : Cluster) (l : ElectLabel) : Decidable (SlotJoins n v s l) :=
  match l with
  | .take .. | .established .. | .getReplicatedVote .. | .sendSmRequest _ | .pollSmRequests ..
  | .pollSmReply .. | .recoverLog .. | .hbReceive .. | .hbSend .. | .toAdjust _ | .pollVoteCount _
  | .pollVoteRequests .. | .verifyLeadership .. | .land .. | .lose .. | .log .. | .config ..
  | .connect .. => inferInstanceAs (Decidable (_ ∧ _))

/-- The server has not yet read the vote of its slot. -/
def Server.Unread (s : Server) : Prop := s.progress = .connecting ∨ s.progress = .getVote

/-- The votes of slot `v` that server `k` has, or that are on the way to it, are not below `b`. -/
structure StoredAt (v : Nat) (b : UInt64) (k : Nat) (s : Cluster) : Prop where
  stored : b ≤ (s.servers k).ctrl.voteSid v
  flight : ∀ p ∈ s.flight v k, ∀ u, p.write = .voteSid u → b ≤ u

/-- The servers of `W` have stored a vote `b` of slot `v`, and the server there knows it. -/
structure VoteStored (v : Nat) (b : UInt64) (W : List Nat) (s : Cluster) : Prop where
  others : ∀ k ∈ W, StoredAt v b k s
  known : (s.servers v).Unread ∨ b ≤ (s.servers v).sid

/-! ### What the steps keep -/

/-- A call of a function: the voter replicates no lower SID. -/
theorem StoredAt.act (h : StoredAt v b k s) (hreq : RequestsOk Q s) (hg : Grows Q (s.servers i) o)
    (hk : k ≠ v) (hknown : i = v → (s.servers i).progress = .recovered → b ≤ (s.servers i).sid) :
    StoredAt v b k (s.act i o) where
  stored := by
    rw [act_servers]
    by_cases hki : k = i
    · subst hki
      rw [Function.update_self, hg.kept v (by rw [hreq.idx]; exact hk.symm)]
      exact h.stored
    · rw [Function.update_of_ne hki]
      exact h.stored
  flight := by
    intro p hp u hu
    rcases mem_act_flight hp with hold | ⟨rfl, hnew⟩
    · exact h.flight p hold u hu
    · obtain ⟨hrec, hle⟩ := (hg.posts (hreq.fine v) _ hnew).2 u hu
      exact UInt64.le_trans (hknown rfl hrec) hle

theorem StoredAt.land (h : StoredAt v b k s) (i j : Nat) : StoredAt v b k (s.land i j) := by
  rcases land_cases s i j with heq | ⟨p, ps, hflight, heq⟩
  · rw [heq]
    exact h
  · rw [heq]
    refine ⟨?_, fun q hq => h.flight q (mem_of_mem_update (fun q hq => ?_) hq)⟩
    · by_cases hkj : k = j
      · subst hkj
        show b ≤ (Function.update s.servers k _ k).ctrl.voteSid v
        rw [Function.update_self]
        -- only the private data of the sender is written to
        cases hw : p.write with
        | voteSid u =>
          show b ≤ Function.update (s.servers k).ctrl.voteSid i u v
          by_cases hi : v = i
          · subst hi
            rw [Function.update_self]
            exact h.flight p (hflight ▸ List.mem_cons_self) u hw
          · rw [Function.update_of_ne hi]
            exact h.stored
        | _ => exact h.stored
      · show b ≤ (Function.update s.servers j _ k).ctrl.voteSid v
        rw [Function.update_of_ne hkj]
        exact h.stored
    · rw [hflight]
      exact List.mem_cons_of_mem p hq

theorem StoredAt.moves (h : StoredAt v b k s) (hreq : RequestsOk Q s) (hm : Moves Q s s') (hk : k ≠ v)
    (hknown : (s.servers v).progress = .recovered → b ≤ (s.servers v).sid) : StoredAt v b k s' := by
  cases hm with
  | call hg => exact h.act hreq hg hk fun hi => hi ▸ hknown
  | @vote i o₁ o₂ js hrec hg₁ hjs hg₂ =>
    have hland := flush_rec (P := fun s₁ => StoredAt v b k s₁ ∧ RequestsOk Q s₁) (i := i) js
      (fun s₁ j _ hs₁ => ⟨hs₁.1.land i j, hs₁.2.land i j⟩)
      ⟨h.act hreq hg₁ hk fun hi => hi ▸ hknown, hreq.act hg₁⟩
    have hserver := flush_servers (s.act i o₁) hjs
    rw [act_servers, Function.update_self] at hserver
    refine hland.1.act hland.2 (o := o₂) (by rw [hserver]; exact hg₂) hk fun hi _ => ?_
    rw [hserver]
    exact UInt64.le_trans (hi ▸ hknown (hi ▸ hrec)) hg₁.le
  | @set i server hidx hcid hctrl hprogress =>
    refine ⟨?_, h.flight⟩
    rw [set_servers]
    by_cases hki : k = i
    · subst hki
      rw [Function.update_self, hctrl]
      exact h.stored
    · rw [Function.update_of_ne hki]
      exact h.stored
  | land i j => exact h.land i j
  | lose i j => exact ⟨h.stored, fun p hp => h.flight p (mem_of_mem_update (by simp) hp)⟩

/-- A server takes the slot of the voter: the writes of the server before it may still land. -/
theorem StoredAt.replace (h : StoredAt v b k s) (hk : k ≠ v) (cid : DareCid) :
    StoredAt v b k (s.replace v cid) where
  stored := by
    show b ≤ (Function.update s.servers v (newServer v cid) k).ctrl.voteSid v
    rw [Function.update_of_ne hk]
    exact h.stored
  flight := by
    intro p hp
    simp only [Cluster.replace] at hp
    rw [if_neg hk] at hp
    exact h.flight p hp

/-! ### The server that reads the vote -/

/-- The calls that a server makes before it has read the vote. -/
theorem actor_of_unread (hs : electStep s l = some s') (hactor : l.actor = some v)
    (hunread : (s.servers v).Unread) :
    (∃ joined, l = .established v joined) ∨
      (∃ early polls arrived, l = .getReplicatedVote v early polls arrived) ∨
      ∃ recovered, l = .pollSmReply v recovered := by
  have hrec : (s.servers v).progress ≠ .recovered := by
    rcases hunread with heq | heq <;> simp [heq]
  have hsm : (s.servers v).progress ≠ .sendSmRequest := by
    rcases hunread with heq | heq <;> simp [heq]
  have hlog : (s.servers v).progress ≠ .recoverLog := by
    rcases hunread with heq | heq <;> simp [heq]
  cases l <;> simp only [ElectLabel.actor, Option.some.injEq, reduceCtorEq] at hactor <;> subst hactor
  case established joined => exact .inl ⟨joined, rfl⟩
  case getReplicatedVote early polls arrived => exact .inr (.inl ⟨early, polls, arrived, rfl⟩)
  case pollSmReply recovered => exact .inr (.inr ⟨recovered, rfl⟩)
  all_goals simp [electStep, hrec, hsm, hlog] at hs

/-- A step of another server, or of none, keeps the progress. -/
theorem progress_of_not_actor (hs : electStep s l = some s') (hactor : l.actor ≠ some v)
    (htakes : l.takes v = false) : (s'.servers v).progress = (s.servers v).progress := by
  have hact {i : Nat} {o : Outcome} (s : Cluster) (hi : some i ≠ some v) :
      ((s.act i o).servers v).progress = (s.servers v).progress := by
    rw [act_servers, Function.update_of_ne fun heq => hi (congrArg some heq.symm)]
  have hset {i : Nat} {server : Server} (hp : server.progress = (s.servers i).progress) :
      ((s.set i server).servers v).progress = (s.servers v).progress := by
    rw [set_servers]
    by_cases hi : v = i
    · subst hi
      rw [Function.update_self, hp]
    · rw [Function.update_of_ne hi]
  cases next_of_electStep hs with
  | take i cid =>
    have hne : v ≠ i := by
      rintro rfl
      simp [ElectLabel.takes] at htakes
    show (Function.update s.servers i _ v).progress = _
    rw [Function.update_of_ne hne]
  | joins => rw [set_servers, Function.update_of_ne fun heq => hactor (congrArg some heq.symm)]
  | @votes i _ _ _ _ _ _ _ _ hvote =>
    obtain ⟨voter, o, -, -, -, -, rfl⟩ := vote_cases hvote
    refine (hact _ hactor).trans ?_
    refine flush_rec (P := fun s₁ => (s₁.servers v).progress = (s.servers v).progress) _
      (fun s₁ j _ hs₁ => (land_progress s₁ i j v).trans hs₁) (hact s hactor)
  | land i j => exact land_progress s i j v
  | lose i j => rfl
  | log | config | connect => exact hset rfl
  | _ => exact hact s hactor

/-- The round of `rc_get_replicated_vote`. -/
def Server.readRound (s : Server) (early : List WorkCompletion) (polls : List (List WorkCompletion)) :
    SendRound :=
  ⟨s.idx, -1, s.connected, early, polls⟩

/-- A round fits a server if there are only completions of what it has posted. -/
theorem readRound_ok (hfits : roundFits server early polls = true) :
    (server.readRound early polls).Ok server.cid := by
  simp only [roundFits, Bool.and_eq_true, decide_eq_true_eq, List.all_eq_true, List.mem_map,
    List.mem_filter, forall_exists_index, and_imp] at hfits
  refine ⟨.inr rfl, fun wc hwc hcurrent => ?_, hfits.1⟩
  have htarget := hfits.2 wc.conn wc hwc hcurrent rfl
  simp only [Server.targets, List.mem_filter, List.mem_range, Bool.and_eq_true, bne_iff_ne] at htarget
  obtain ⟨hlt, hne, hreaches⟩ := htarget
  have hsize : ¬(getGroupSize server.cid).toNat ≤ wc.conn := Nat.not_le.mpr hlt
  show groupSends (getGroupSize server.cid).toNat server.idx (-1) server.reaches wc.conn = 1
  rw [groupSends, if_neg hsize, if_neg hne, if_pos hreaches]

/-- The server in its own slot is not read from. -/
theorem answered_readRound (h : (server.readRound early polls).answered i = true) :
    i ∈ succeeded early polls := by
  simp only [SendRound.answered, Server.readRound, SendRound.completions, Bool.or_eq_true,
    Bool.and_eq_true, List.any_eq_true, beq_iff_eq] at h
  rcases h with ⟨-, hown⟩ | ⟨wc, hwc, ⟨rfl, hcurrent⟩, hstatus⟩
  · cases hown
  · simp only [succeeded, List.mem_map, List.mem_filter, Bool.and_eq_true, beq_iff_eq]
    exact ⟨wc, ⟨hwc, hcurrent, hstatus⟩, rfl⟩

theorem StableOf.getGroupSize {cid : DareCid} (h : StableOf n cid) : getGroupSize cid = n := by
  rw [Apus.getGroupSize, if_pos (by rw [h.1]; decide), h.2]

/-- A round that succeeds has completed reads from more than half of the group. -/
theorem isMajority_of_read {r : (Nat → Int) × Bool} (hcid : StableOf n server.cid)
    (hfits : roundFits server early polls = true) (htells : ∀ poll ∈ polls, firstTells poll = true)
    (hwait : server.wait (-1) early polls = some r) (hr : r.2 = true) :
    IsMajority n.toNat (fun i => r.1 i == 0) ∧
      ∀ i < n.toNat, r.1 i = 0 → i ∈ succeeded early polls := by
  obtain ⟨posted', pass⟩ := r
  obtain rfl : pass = true := hr
  obtain ⟨hmajority, hdone⟩ := SendRound.decided (r := server.readRound early polls)
    (readRound_ok hfits) htells hwait
  rw [decidingSize, if_pos hcid.1, hcid.2] at hmajority
  refine ⟨hmajority, fun i hi hzero => ?_⟩
  rcases hdone i hzero with hanswered | hout
  · exact answered_readRound hanswered
  · rw [hcid.getGroupSize] at hout
    omega

/-- A value that was read is not above the SID that is taken. -/
theorem le_getReplicatedVote {r : (Nat → Int) × Bool} (hr : r.2 = true) (hi : i < server.size)
    (hread : r.1 i = 0) : server.ctrl.rsid i ≤ (server.getReplicatedVote r).sid := by
  obtain ⟨u, rsid, heq, -, -, hall⟩ := takeVoteSids_foldl r.1 (List.range server.size) server
  rw [Server.getReplicatedVote, if_pos hr, heq]
  exact hall i (List.mem_range.mpr hi) hread

/-- A server that has not read the vote knows it when `rc_get_replicated_vote` is done. -/
theorem known_of_read {arrived : Nat → Bool} (hreq : RequestsOk (StableOf n) s) (hn : n ≠ 2)
    (h : VoteStored v b W s) (hW : IsMajority n.toNat fun i => i == v || decide (i ∈ W))
    (htells : ∀ poll ∈ polls, firstTells poll = true)
    (hs : electStep s (.getReplicatedVote v early polls arrived) = some s') :
    (s'.servers v).Unread ∨ b ≤ (s'.servers v).sid := by
  have hcid : StableOf n (s.servers v).setUpSid.cid := (hreq.fine v).1
  have hidx : (s.servers v).setUpSid.idx = v := hreq.idx v
  cases next_of_electStep hs with
  | skipsVote _ htwo => exact absurd (hcid.2.symm.trans htwo) hn
  | @readsVote _ _ _ _ r hprog _ hfits harrived hwait =>
    rw [act_servers, Function.update_self]
    simp only [Server.done]
    generalize hreader : s.readAll (s.servers v).setUpSid arrived (fun t => t.ctrl.voteSid v) = reader
      at hwait ⊢
    have hcid' : StableOf n reader.cid := hreader ▸ hcid
    by_cases hr : r.2 = true
    · have hfits' : roundFits reader early polls = true := hreader ▸ hfits
      obtain ⟨hmajority, hdone⟩ := isMajority_of_read hcid' hfits' htells hwait hr
      -- a server that has stored the vote has been read from
      obtain ⟨k, hk, -, hstored, hread⟩ := hW.meet hmajority (by omega) (by omega)
      rw [beq_iff_eq] at hread
      have hmem := hdone k hk hread
      have hne : k ≠ v := hidx ▸ succeeded_ne hfits k hmem
      have hkW : k ∈ W := by simpa [hne] using hstored
      have hsize : k < reader.size := by
        rw [Server.size, hcid'.getGroupSize]
        exact hk
      have hrsid : reader.ctrl.rsid k = (s.servers k).ctrl.voteSid v := by
        rw [← hreader]
        exact if_pos (harrived k hmem)
      refine .inr (UInt64.le_trans (h.others k hkW).stored ?_)
      rw [← hrsid]
      exact le_getReplicatedVote hr hsize hread
    · left
      rw [Server.getReplicatedVote, if_neg hr, ← hreader]
      exact .inr hprog

/-- Nothing changes for a server that finds no usable SM reply. -/
theorem pollSmReply_none {recovered : Bool}
    (h : ∀ target < server.size, server.smReplyGood target = false) :
    server.pollSmReply recovered = server := by
  have hnone : (List.range server.size).find? server.smReplyGood = none := by
    rw [List.find?_eq_none]
    intro target hmem
    rw [h target (List.mem_range.mp hmem)]
    exact Bool.false_ne_true
  rw [Server.pollSmReply, hnone]

theorem take_of_takes (h : l.takes v = true) : ∃ cid, l = .take v cid := by
  cases l with
  | take i cid =>
    obtain rfl : i = v := by simpa [ElectLabel.takes] using h
    exact ⟨cid, rfl⟩
  | _ => cases h

theorem replace_server (s : Cluster) (v : Nat) (cid : DareCid) :
    (s.replace v cid).servers v = newServer v cid := Function.update_self v _ s.servers

/-- What a server knows that has not read the vote before the step. -/
theorem known_of_unread (hreq : RequestsOk (StableOf n) s) (hn : n ≠ 2) (h : VoteStored v b W s)
    (hW : IsMajority n.toNat fun i => i == v || decide (i ∈ W)) (hok : SlotJoins n v s l)
    (hunread : (s.servers v).Unread) (hs : electStep s l = some s') :
    (s'.servers v).Unread ∨ b ≤ (s'.servers v).sid := by
  by_cases htakes : l.takes v = true
  · obtain ⟨cid, rfl⟩ := take_of_takes htakes
    cases hs
    left
    show (((s.replace v cid).servers v).Unread)
    rw [replace_server]
    exact .inl rfl
  by_cases hactor : l.actor = some v
  · rcases actor_of_unread hs hactor hunread with
      ⟨joined, rfl⟩ | ⟨early, polls, arrived, rfl⟩ | ⟨recovered, rfl⟩
    · obtain rfl : joined = true := hok.2 rfl
      cases next_of_electStep hs with
      | joins =>
        rw [set_servers, Function.update_self]
        exact .inl (.inr rfl)
    · exact known_of_read hreq hn h hW (hok.2 rfl) hs
    · cases next_of_electStep hs with
      | pollSmReply hprog =>
        -- the snapshot comes after the vote
        have hgetVote : (s.servers v).progress = .getVote := by
          rcases hunread with heq | heq
          · simp [heq] at hprog
          · exact heq
        rw [act_servers, Function.update_self, pollSmReply_none (hok.2 rfl hgetVote)]
        exact .inl hunread
  · left
    rw [Server.Unread, progress_of_not_actor hs hactor (by simpa using htakes)]
    exact hunread

/-- **What the steps after the vote keep.** -/
theorem VoteStored.step (h : VoteStored v b W s) (hreq : RequestsOk (StableOf n) s) (hn : n ≠ 2)
    (hv : v ∉ W) (hW : IsMajority n.toNat fun i => i == v || decide (i ∈ W))
    (hok : SlotJoins n v s l) (hs : electStep s l = some s') : VoteStored v b W s' := by
  have hne : ∀ k ∈ W, k ≠ v := fun k hk heq => hv (heq ▸ hk)
  rcases electStep_moves hreq hok.1.1 hok.1.2 hs with ⟨i, cid, rfl, -, rfl⟩ | hm
  · obtain rfl : i = v := hok.2
    refine ⟨fun k hk => (h.others k hk).replace (hne k hk) cid, ?_⟩
    rw [replace_server]
    exact .inl (.inl rfl)
  · have hknown : (s.servers v).progress = .recovered → b ≤ (s.servers v).sid := by
      intro hrec
      rcases h.known with (heq | heq) | hle
      · simp [heq] at hrec
      · simp [heq] at hrec
      · exact hle
    refine ⟨fun k hk => (h.others k hk).moves hreq hm (hne k hk) hknown, ?_⟩
    rcases h.known with hunread | hle
    · exact known_of_unread hreq hn h hW hok hunread hs
    · exact .inr (UInt64.le_trans hle ((hm.grows hreq).le v))

theorem VoteStored.steps (h : VoteStored v b W s) (hreq : RequestsOk (StableOf n) s) (hn : n ≠ 2)
    (hv : v ∉ W) (hW : IsMajority n.toNat fun i => i == v || decide (i ∈ W))
    (hs : Steps ElectStep (SlotJoins n v) s s') :
    VoteStored v b W s' ∧ RequestsOk (StableOf n) s' := by
  induction hs with
  | refl => exact ⟨h, hreq⟩
  | step _ hok hstep ih =>
    exact ⟨ih.1.step ih.2 hn hv hW hok hstep, ih.2.step hok.1.1 hok.1.2 hstep⟩

/-! ### The vote -/

/-- All writes to the server have landed, the last of them the vote. -/
def Landed (v : Nat) (b : UInt64) (k : Nat) (s : Cluster) : Prop :=
  s.flight v k = [] ∧ (s.servers k).ctrl.voteSid v = b

/-- The vote is the last write on the way to the server. -/
def LastPosted (v : Nat) (b : UInt64) (k : Nat) (s : Cluster) : Prop :=
  ∃ ps sid, s.flight v k = ps ++ [⟨.voteSid b, sid⟩]

theorem land_flight_of_ne (s : Cluster) (i : Nat) (h : k ≠ j) :
    (s.land i j).flight i k = s.flight i k := by
  rcases land_cases s i j with heq | ⟨p, ps, -, heq⟩
  · rw [heq]
  · simp [heq, h]

theorem Landed.land (h : Landed v b k s) (j : Nat) : Landed v b k (s.land v j) := by
  by_cases hkj : k = j
  · subst hkj
    rwa [Cluster.land, h.1]
  · rw [Landed, land_flight_of_ne s v hkj, land_servers_of_ne s v hkj]
    exact h

theorem LastPosted.land (h : LastPosted v b k s) (hkj : k ≠ j) : LastPosted v b k (s.land v j) := by
  rw [LastPosted, land_flight_of_ne s v hkj]
  exact h

/-- The landings come to the vote, by induction on the writes before it. -/
theorem LastPosted.flush (h : LastPosted v b k s) : Landed v b k (s.flush v k) := by
  obtain ⟨ps, sid, hps⟩ := h
  rw [Cluster.flush, hps, List.length_append, List.length_singleton]
  induction ps generalizing s with
  | nil =>
    rw [List.nil_append] at hps
    simp [Cluster.land, hps, Landed, RemoteWrite.land]
  | cons p ps ih =>
    rw [List.cons_append] at hps
    rw [List.length_cons, Function.iterate_succ_apply]
    refine ih ?_
    simp [Cluster.land, hps]

theorem landed_of_flush {js : List Nat} (hnodup : js.Nodup) (h : ∀ k ∈ js, LastPosted v b k s) :
    ∀ k ∈ js, Landed v b k (js.foldl (fun s j => s.flush v j) s) := by
  induction js generalizing s with
  | nil => simp
  | cons j js ih =>
    obtain ⟨hj, hnodup⟩ := List.nodup_cons.mp hnodup
    intro k hk
    rw [List.foldl_cons]
    rcases List.mem_cons.mp hk with rfl | hk
    · exact flush_rec js (fun s j _ hs => hs.land j) (h k List.mem_cons_self).flush
    · refine ih hnodup (fun k hk => ?_) k hk
      have hkj : k ≠ j := fun heq => hj (heq ▸ hk)
      exact Function.Iterate.rec (LastPosted v b k) (h k (List.mem_cons_of_mem j hk))
        (fun s hs => hs.land hkj) _

theorem Landed.storedAt (h : Landed v b k s) : StoredAt v b k s := by
  refine ⟨h.2 ▸ UInt64.le_refl _, fun p hp => ?_⟩
  rw [h.1] at hp
  cases hp

theorem succeeded_fits (h : roundFits server early polls = true) :
    (succeeded early polls).Nodup ∧ ∀ k ∈ succeeded early polls, k ∈ server.targets := by
  simp only [roundFits, Bool.and_eq_true, decide_eq_true_eq, List.all_eq_true, List.mem_map,
    List.mem_filter, forall_exists_index, and_imp] at h
  constructor
  · refine h.1.sublist (List.Sublist.map _ ?_)
    rw [show (fun wc : WorkCompletion => wc.current && wc.status == .success) =
      fun wc => (wc.status == .success) && wc.current from funext fun wc => Bool.and_comm _ _,
      ← List.filter_filter]
    exact List.filter_sublist
  · intro k hk
    simp only [succeeded, List.mem_map, List.mem_filter, Bool.and_eq_true] at hk
    obtain ⟨wc, ⟨hmem, hcurrent, -⟩, rfl⟩ := hk
    exact h.2 wc.conn wc hmem hcurrent rfl

/-- What is posted to the whole group goes once to each server. -/
theorem lastPosted_replicateVote (s : Cluster) (v : Nat) (ballots : List UInt64)
    (hk : k ∈ server.targets) : LastPosted v server.sid k
      (s.act v ⟨server.replicateVote.1, server.replicateVote.2, ballots⟩) := by
  refine ⟨s.flight v k, server.sid, ?_⟩
  have hposts : server.replicateVote.2 = server.targets.map fun i => (i, ⟨.voteSid server.sid, server.sid⟩) :=
    rfl
  have hcount : server.targets.count k = 1 :=
    List.count_eq_one_of_mem (List.nodup_range.filter _) hk
  simp only [Cluster.act, if_true, hposts, List.filter_map, Function.comp_def]
  rw [List.filter_beq, hcount]
  rfl

/-- The servers at which the write was completed have stored the vote. -/
theorem voteStored_of_vote (hreq : RequestsOk Q s) (hlow : (s.servers v).TermsLow)
    (hgrants : s.Grants v best)
    (hs : electStep s (.pollVoteRequests v early polls ackFails) = some s') :
    VoteStored v best.sid (succeeded early polls) s' ∧ ∀ k ∈ succeeded early polls, k ≠ v := by
  have hsid := sid_of_vote hreq hlow hgrants hs
  obtain ⟨server, hpoll⟩ := hgrants
  obtain ⟨hprog, hvote⟩ := votes_of_poll hpoll hs
  obtain ⟨voter, o, hg₁, hjs, hg₂, hbest, hfits, rfl⟩ := vote_grows hreq hlow hprog hpoll hvote
  obtain ⟨hnodup, htargets⟩ := succeeded_fits hfits
  refine ⟨⟨fun k hk => ?_, .inr hsid⟩, hjs⟩
  have hlanded := landed_of_flush hnodup
    (fun k hk => lastPosted_replicateVote s v [best.sid] (htargets k hk)) k hk
  have hreq₁ := flush_rec (P := RequestsOk Q) (succeeded early polls)
    (fun s j _ hs => hs.land v j) (hreq.act hg₁)
  have hvoter := flush_servers
    (s.act v ⟨voter.replicateVote.1, voter.replicateVote.2, [best.sid]⟩) hjs
  rw [act_servers, Function.update_self] at hvoter
  -- the ACK comes last, and a candidacy if it fails
  refine (hbest ▸ hlanded.storedAt).act hreq₁ (hvoter.symm ▸ hg₂) (hjs k hk) fun _ _ => ?_
  rw [hvoter, ← hbest]
  exact UInt64.le_refl voter.sid

theorem requestsOk_stable (h : Reach (stableInit n) ElectStep (InStable n) s) :
    RequestsOk (StableOf n) s :=
  h.invariant (fun _ hs => requestsOk_init hs.1 hs.2) fun _ _ _ hinv hok hs =>
    hinv.step hok.1 hok.2 hs

/-- **A vote survives a crash** of the voter, any number of times: if it was written at a majority of a
    stable group of at least three slots, no other server loses its memory, and the servers that take the
    slot join, then the slot has a SID that is not below the vote whenever its server has read the vote, and
    goes on to vote in higher terms only. -/
theorem vote_survives (hn : 3 ≤ n) (h : Reach (stableInit n) ElectStep (InStable n) s)
    (hok : InStable n s (.pollVoteRequests v early polls ackFails)) (hgrants : s.Grants v best)
    (hvote : ElectStep s (.pollVoteRequests v early polls ackFails) s₁)
    (hmajority : IsMajority n.toNat fun i => i == v || decide (i ∈ succeeded early polls))
    (hsteps : Steps ElectStep (SlotJoins n v) s₁ s₂) :
    ((s₂.servers v).progress ≠ .connecting → (s₂.servers v).progress ≠ .getVote →
      best.sid ≤ (s₂.servers v).sid) ∧
    ∀ early' polls' ackFails' best' s₃, s₂.Grants v best' →
      ElectStep s₂ (.pollVoteRequests v early' polls' ackFails') s₃ →
      sidGetTerm best.sid < sidGetTerm best'.sid := by
  have hreq := requestsOk_stable h
  have hn : n ≠ 2 := by
    rintro rfl
    exact absurd hn (by decide)
  obtain ⟨hstored, hne⟩ := voteStored_of_vote hreq (hok.1.1 v rfl).1 hgrants hvote
  have hinv := hstored.steps (hreq.step hok.1 hok.2 hvote) hn (fun hv => hne v hv rfl) hmajority hsteps
  have hknown : (s₂.servers v).progress ≠ .connecting → (s₂.servers v).progress ≠ .getVote →
      best.sid ≤ (s₂.servers v).sid := fun hc hg =>
    hinv.1.known.resolve_left fun hunread => hunread.elim hc hg
  refine ⟨hknown, fun early' polls' ackFails' best' s₃ hgrants' hstep => ?_⟩
  obtain ⟨server, hpoll⟩ := hgrants'
  have hrec : (s₂.servers v).progress = .recovered := by
    by_contra hprog
    simp [ElectStep, electStep, hprog] at hstep
  exact UInt64.lt_of_le_of_lt (sidGetTerm_mono (hknown (by simp [hrec]) (by simp [hrec])))
    (pollVoteRequests_vote (Q := StableOf n) hpoll (hinv.2.noL v)).2.1

/-- Server 1 becomes a candidate of term 2. -/
def secondTerm : List ElectLabel := startAll ++ [.hbReceive 1 false] ++ landings 1 0 2

/-- Another server takes slot 0, and reads the vote. -/
def takenAgain : List ElectLabel :=
  [.take 0 ⟨0, 3, 0, CID_STABLE, 7⟩, .connect 0 fun _ => true, .established 0 true,
    .getReplicatedVote 0 [] (reached [1, 2]) fun _ => true]

theorem stableInit_fresh : stableInit 3 freshCluster := ⟨electInit_fresh, fun _ => ⟨rfl, rfl⟩⟩

/-- Server 0 votes for `[2|0|1]`, and the server that takes its slot has this SID. -/
theorem vote_survives_read : ∃ s : Cluster, (s.servers 0).progress = .sendSmRequest ∧
    2 * 512 + 1 ≤ (s.servers 0).sid := by
  have hrun : ((execIf electStep (InStable 3) freshCluster secondTerm).bind fun s =>
      ((s.servers 0).pollVoteRequests.bind Server.Poll.request).bind fun best =>
      (electStep s (.pollVoteRequests 0 [] (reached [1]) false)).bind fun s₁ =>
      (execIf electStep (SlotJoins 3 0) s₁ takenAgain).map fun s₂ =>
        (decide (InStable 3 s (.pollVoteRequests 0 [] (reached [1]) false)), best.sid,
          (s₂.servers 0).progress)) = some (true, 2 * 512 + 1, .sendSmRequest) := by decide +kernel
  obtain ⟨s, hs, hrun⟩ := Option.bind_eq_some_iff.mp hrun
  obtain ⟨best, hbest, hrun⟩ := Option.bind_eq_some_iff.mp hrun
  obtain ⟨s₁, hs₁, hrun⟩ := Option.bind_eq_some_iff.mp hrun
  obtain ⟨s₂, hs₂, hrun⟩ := Option.map_eq_some_iff.mp hrun
  simp only [Prod.mk.injEq, decide_eq_true_eq] at hrun
  obtain ⟨hok, hsid, hprog⟩ := hrun
  have hstart : Reach (stableInit 3) ElectStep (InStable 3) freshCluster := .start stableInit_fresh
  have hreach := hstart.steps (fun _ _ h => h) (Steps.refl.execIf hs)
  refine ⟨s₂, hprog, ?_⟩
  have hmajority : IsMajority 3 fun i => i == 0 || decide (i ∈ succeeded [] (reached [1])) := by
    unfold IsMajority
    decide
  rw [← hsid]
  exact (vote_survives (by decide) hreach hok (grants_of_request hbest) hs₁ hmajority
    (Steps.refl.execIf hs₂)).1 (by simp [hprog]) (by simp [hprog])

/-! ### A voter that reaches the candidate only -/

def fiveServers : DareCid := ⟨0, 5, 0, CID_STABLE, 31⟩

/-- A cluster of five servers that have not done anything. -/
def freshFive : Cluster where
  servers := fun i => newServer i fiveServers
  flight := fun _ _ => []
  record := ⟨fun _ => [], fun _ => 0⟩

/-- Server 0 loses its connections to the servers 2, 3 and 4, and gets a request of server 1. -/
def fewReached : List ElectLabel :=
  (List.range 5).flatMap (fun i => [.connect i fun _ => true, .established i false]) ++
  [.connect 0 fun i => i == 1, .hbReceive 1 false] ++ landings 1 0 2

/-- Server 1 gets the ACK.  The server that takes slot 0 reads from the servers 2, 3 and 4, recovers, and
    gets a request of server 3. -/
def readElsewhere : List ElectLabel :=
  [.land 0 1, .take 0 fiveServers, .connect 0 fun _ => true, .established 0 true,
    .getReplicatedVote 0 [] (reached [2, 3, 4]) fun _ => true, .sendSmRequest 0] ++ landings 0 2 2 ++
  [.pollSmRequests 2 (1, 1, 1), .land 2 0, .pollSmReply 0 true, .recoverLog 0 false,
    .hbReceive 3 false, .land 3 0]

/-- Server 0 votes for the servers 1 and 3 in term 2. -/
theorem not_vote_survives : ∃ s s₁ s₂ s₃ best best',
    Reach (stableInit 5) ElectStep (InStable 5) s ∧
    InStable 5 s (.pollVoteRequests 0 [] (reached [1]) false) ∧ s.Grants 0 best ∧
    ElectStep s (.pollVoteRequests 0 [] (reached [1]) false) s₁ ∧
    Steps ElectStep (SlotJoins 5 0) s₁ s₂ ∧ (s₂.servers 0).progress = .recovered ∧
    hasVoted fiveServers 1 (s₂.servers 1).log.len (s₂.servers 1).ctrl.voteAck 0 = true ∧
    (s₂.servers 0).sid < best.sid ∧ s₂.Grants 0 best' ∧
    ElectStep s₂ (.pollVoteRequests 0 [] (reached [1, 2]) false) s₃ ∧
    best.sid = 2 * 512 + 1 ∧ best'.sid = 2 * 512 + 3 := by
  have hrun : ((execIf electStep (InStable 5) freshFive fewReached).bind fun s =>
      ((s.servers 0).pollVoteRequests.bind Server.Poll.request).bind fun best =>
      (electStep s (.pollVoteRequests 0 [] (reached [1]) false)).bind fun s₁ =>
      (execIf electStep (SlotJoins 5 0) s₁ readElsewhere).bind fun s₂ =>
      ((s₂.servers 0).pollVoteRequests.bind Server.Poll.request).bind fun best' =>
      (electStep s₂ (.pollVoteRequests 0 [] (reached [1, 2]) false)).map fun _ =>
        (decide (InStable 5 s (.pollVoteRequests 0 [] (reached [1]) false)), (s₂.servers 0).progress,
          hasVoted fiveServers 1 (s₂.servers 1).log.len (s₂.servers 1).ctrl.voteAck 0,
          decide ((s₂.servers 0).sid < best.sid), best.sid, best'.sid)) =
      some (true, .recovered, true, true, 2 * 512 + 1, 2 * 512 + 3) := by decide +kernel
  obtain ⟨s, hs, hrun⟩ := Option.bind_eq_some_iff.mp hrun
  obtain ⟨best, hbest, hrun⟩ := Option.bind_eq_some_iff.mp hrun
  obtain ⟨s₁, hs₁, hrun⟩ := Option.bind_eq_some_iff.mp hrun
  obtain ⟨s₂, hs₂, hrun⟩ := Option.bind_eq_some_iff.mp hrun
  obtain ⟨best', hbest', hrun⟩ := Option.bind_eq_some_iff.mp hrun
  obtain ⟨s₃, hs₃, hrun⟩ := Option.map_eq_some_iff.mp hrun
  simp only [Prod.mk.injEq, decide_eq_true_eq] at hrun
  obtain ⟨hok, hprog, hack, hlt, hsid, hsid'⟩ := hrun
  have hinit : stableInit 5 freshFive :=
    ⟨⟨fun _ => ⟨_, rfl⟩, fun _ _ => rfl, rfl⟩, fun _ => ⟨rfl, rfl⟩⟩
  have hstart : Reach (stableInit 5) ElectStep (InStable 5) freshFive := .start hinit
  exact ⟨s, s₁, s₂, s₃, best, best', hstart.steps (fun _ _ h => h) (Steps.refl.execIf hs), hok,
    grants_of_request hbest, hs₁, Steps.refl.execIf hs₂, hprog, hack, hlt, grants_of_request hbest', hs₃,
    hsid, hsid'⟩

end Apus
