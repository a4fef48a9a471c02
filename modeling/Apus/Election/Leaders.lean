import Apus.Election.Safety

namespace Apus

open Lib

/-!
# One leader per term

A group of servers that start together in a stable configuration.  A vote ACK carries no term: an ACK
that lands late is counted for whichever candidacy of its receiver is the current one.  As long as
`poll_vote_count` counts only servers that voted for the current SID (`CountsVotes`), a leader has a
majority of ballots, and no term has two leaders.

* `GroupOk` — the invariant;
* `majority_of_leads` — a new leader has a majority of ballots;
* `one_leader_per_term`, and `not_one_leader_per_term` for the other runs.
-/

variable {c : DareCid} {i j : Nat} {s s' s₁ s₂ s₃ : Cluster} {l : ElectLabel}

/-- The steps of a group of `n` servers that start in it: none is replaced, and the configuration does
    not change. -/
def ElectLabel.InGroup (n : Nat) : ElectLabel → Prop
  | .established i joined => i < n ∧ joined = false
  | .hbReceive i _ | .hbSend i _ | .toAdjust i | .pollVoteCount i | .pollVoteRequests i _ _ _ => i < n
  | .verifyLeadership i _ _ _ _ | .pollSmRequests i _ | .log i _ | .connect i _ => i < n
  | .land i j | .lose i j => i < n ∧ j < n
  | _ => False

/-- All servers have the same configuration, and have not done anything. -/
def freshGroup (c : DareCid) (s : Cluster) : Prop := electInit s ∧ ∀ i, (s.servers i).cid = c

/-- A step of the group; `poll_vote_count` counts only the ACKs of servers that voted for the SID that
    the candidate has now. -/
def CountsVotes (c : DareCid) (s : Cluster) (l : ElectLabel) : Prop :=
  l.InGroup c.size0.toNat ∧ s.TermsLow l ∧
  match l with
  | .pollVoteCount i => ∀ k < c.size0.toNat,
    hasVoted c i (s.servers i).log.len (s.servers i).ctrl.voteAck k = true →
      (s.servers i).sid ∈ s.record.ballots k
  | _ => True

instance (n : Nat) (l : ElectLabel) : Decidable (l.InGroup n) :=
  match l with
  | .established .. | .land .. | .lose .. => inferInstanceAs (Decidable (_ ∧ _))
  | .hbReceive .. | .hbSend .. | .toAdjust _ | .pollVoteCount _ | .pollVoteRequests ..
  | .verifyLeadership .. | .pollSmRequests .. | .log .. | .connect .. =>
    inferInstanceAs (Decidable (_ < _))
  | .take .. | .getReplicatedVote .. | .sendSmRequest _ | .pollSmReply .. | .recoverLog ..
  | .config .. => inferInstanceAs (Decidable False)

instance (c : DareCid) (s : Cluster) (l : ElectLabel) : Decidable (CountsVotes c s l) :=
  match l with
  | .take .. | .established .. | .getReplicatedVote .. | .sendSmRequest _ | .pollSmRequests ..
  | .pollSmReply .. | .recoverLog .. | .hbReceive .. | .hbSend .. | .toAdjust _ | .pollVoteCount _
  | .pollVoteRequests .. | .verifyLeadership .. | .land .. | .lose .. | .log .. | .config ..
  | .connect .. => inferInstanceAs (Decidable (_ ∧ _ ∧ _))

/-- The step is that `poll_vote_count` makes server `i` the leader. -/
def Cluster.Leads (s : Cluster) (i : Nat) (s' : Cluster) : Prop :=
  ElectStep s (.pollVoteCount i) s' ∧ sidGetL (s.servers i).sid = false ∧
    sidGetL (s'.servers i).sid = true

/-! ### The invariant -/

structure GroupOk (c : DareCid) (s : Cluster) : Prop where
  cluster : ClusterOk s
  requests : RequestsOk (fun cid => cid = c) s
  connecting : ∀ i, (s.servers i).progress = .connecting → s.record.top i = 0

/-- No server takes the slot of another one. -/
theorem keepsSlot_of_inGroup {n : Nat} (h : GroupOk c s) (hin : l.InGroup n)
    (hlow : s.TermsLow l) (hs : electStep s l = some s') : KeepsSlot s l := by
  refine ⟨hlow, ?_⟩
  cases l with
  | established i joined =>
    intro _
    cases next_of_electStep hs with
    | joins hprog _ | starts hprog _ _ => exact h.connecting i hprog
  | recoverLog i ackFails => exact hin.elim
  | pollSmReply i recovered => exact hin.elim
  | _ => trivial

theorem gives_of_inGroup {n : Nat} (hin : l.InGroup n) : l.gives = none := by
  cases l with
  | take j cid => exact hin.elim
  | config j cid => exact hin.elim
  | _ => rfl

theorem moves_of_inGroup {n : Nat} (h : GroupOk c s) (hin : l.InGroup n)
    (hlow : s.TermsLow l) (hs : electStep s l = some s') : Moves (fun cid => cid = c) s s' := by
  have hkeeps := keepsSid_of_keepsSlot h.cluster (keepsSlot_of_inGroup h hin hlow hs) hs
  have hmoves := electStep_moves h.requests hkeeps (fun cid hgives => by
    rw [gives_of_inGroup hin] at hgives
    cases hgives) hs
  rcases hmoves with ⟨i, cid, rfl, -⟩ | hm
  · exact hin.elim
  · exact hm

theorem groupOk_step {n : Nat} (h : GroupOk c s) (hin : l.InGroup n)
    (hlow : s.TermsLow l) (hs : electStep s l = some s') : GroupOk c s' := by
  have hg := (moves_of_inGroup h hin hlow hs).grows h.requests
  refine ⟨clusterOk_step h.cluster (keepsSlot_of_inGroup h hin hlow hs) hs, hg.requests,
    fun i hconnecting => ?_⟩
  have hbefore : (s.servers i).progress = .connecting := by
    by_contra hne
    exact hg.started i hne hconnecting
  rw [hg.top i hconnecting]
  exact h.connecting i hbefore

theorem groupOk_init (h : freshGroup c s) : GroupOk c s :=
  ⟨clusterOk_init h.1, requestsOk_init h.1 h.2, fun i _ => by rw [h.1.2.2]⟩

theorem groupOk_of_reach (h : Reach (freshGroup c) ElectStep (CountsVotes c) s) : GroupOk c s :=
  h.invariant (fun _ => groupOk_init) fun _ _ _ hinv hok hs => groupOk_step hinv hok.1 hok.2.1 hs

/-- What has been supported stays in the record. -/
theorem ballots_of_steps (h : Reach (freshGroup c) ElectStep (CountsVotes c) s)
    (hs : Steps ElectStep (CountsVotes c) s s') {k : Nat} {v : UInt64}
    (hv : v ∈ s.record.ballots k) : v ∈ s'.record.ballots k := by
  induction hs with
  | refl => exact hv
  | step hs hok hstep ih =>
    have hinv := groupOk_of_reach (h.steps (fun _ _ hok => hok) hs)
    exact ((moves_of_inGroup hinv hok.1 hok.2.1 hstep).grows hinv.requests).ballots k v ih

/-! ### Leaders -/

/-- A server has supported the SID. -/
def Cluster.supports (s : Cluster) (v : UInt64) (k : Nat) : Bool :=
  decide (v ∈ s.record.ballots k)

/-- What a server has when it becomes a leader. -/
theorem leads_cases (h : s.Leads i s') :
    (s.servers i).progress = .recovered ∧ (s.servers i).isCandidate = true ∧
    votesPass (s.servers i).cid (s.servers i).idx (s.servers i).log.len (s.servers i).ctrl.voteAck =
      true ∧ (s'.servers i).sid = sidSetL (s.servers i).sid := by
  obtain ⟨hstep, hl, hl'⟩ := h
  cases next_of_electStep hstep with
  | pollVoteCount hprog hcandidate =>
    rw [act_servers, Function.update_self] at hl' ⊢
    rw [Server.pollVoteCount] at hl' ⊢
    dsimp only at hl' ⊢
    split at hl'
    · rename_i hpass
      rw [if_pos hpass]
      exact ⟨hprog, hcandidate, hpass, rfl⟩
    · -- without the votes the SID is the old one
      have hsame : sidGetL (s.servers i).sid = true := hl'
      rw [hl] at hsame
      cases hsame

theorem votesPass_stable {idx len : Nat} {voteAck : Nat → Nat} (hstable : c.state = CID_STABLE)
    (hidx : idx < c.size0.toNat) (hpass : votesPass c idx len voteAck = true) :
    IsMajority c.size0.toNat (isVoter c idx len voteAck) := by
  have hgroup : getGroupSize c = c.size0 := by
    rw [getGroupSize, if_pos (by rw [hstable]; decide)]
  have hvoters := voteCount_le_voters len voteAck c.size0 (hgroup.symm ▸ hidx) hidx
  rw [votesPass] at hpass
  split at hpass
  · cases hpass
  · rename_i hcount
    show _ ≤ _
    omega

/-- A new leader has a majority of ballots. -/
theorem majority_of_leads (hstable : c.state = CID_STABLE)
    (h : Reach (freshGroup c) ElectStep (CountsVotes c) s) (hok : CountsVotes c s (.pollVoteCount i))
    (hleads : s.Leads i s') : IsMajority c.size0.toNat (s.supports (s.servers i).sid) ∧
      (sidGetIdx (s.servers i).sid).toNat = i := by
  have hinv := groupOk_of_reach h
  obtain ⟨hin, -, hcount⟩ := hok
  obtain ⟨hrec, hcandidate, hpass, -⟩ := leads_cases hleads
  have hserver := hinv.cluster.server i
  rw [(hinv.requests.fine i).1, hserver.idx] at hpass
  simp only [Server.isCandidate, Bool.and_eq_true, beq_iff_eq] at hcandidate
  have hown : (sidGetIdx (s.servers i).sid).toNat = i := hcandidate.1.2.trans hserver.idx
  refine ⟨(votesPass_stable hstable hin hpass).trans (card_members_mono fun k hlt hk => ?_), hown⟩
  rw [Cluster.supports, decide_eq_true_eq]
  rw [isVoter, Bool.or_eq_true, beq_iff_eq] at hk
  rcases hk with rfl | hk
  · -- the candidate itself
    rcases hserver.known with hnull | hl | hmem
    · have hhigh := hserver.joined (by simp [hrec]) (by simp [hrec])
      exact absurd hhigh (UInt64.not_lt.mpr hnull)
    · rw [hleads.2.1] at hl
      cases hl
    · rwa [hown] at hmem
  · exact hcount k hlt hk

/-- **A term has one leader**, in every run of a group in which `poll_vote_count` counts only servers
    that voted for the current SID of the candidate. -/
theorem one_leader_per_term (hstable : c.state = CID_STABLE)
    (h : Reach (freshGroup c) ElectStep (CountsVotes c) s)
    (hi : CountsVotes c s (.pollVoteCount i)) (hleads : s.Leads i s₁)
    (hsteps : Steps ElectStep (CountsVotes c) s₁ s₂)
    (hj : CountsVotes c s₂ (.pollVoteCount j)) (hleads' : s₂.Leads j s₃) (hne : i ≠ j) :
    sidGetTerm (s₁.servers i).sid ≠ sidGetTerm (s₃.servers j).sid := by
  intro hterm
  have h₁ : Reach (freshGroup c) ElectStep (CountsVotes c) s₁ := h.step hi hleads.1
  have h₂ := h₁.steps (fun _ _ hok => hok) hsteps
  obtain ⟨hmajority, hown⟩ := majority_of_leads hstable h hi hleads
  obtain ⟨hmajority', hown'⟩ := majority_of_leads hstable h₂ hj hleads'
  rw [(leads_cases hleads).2.2.2, (leads_cases hleads').2.2.2] at hterm
  have hterm' : sidGetTerm (s.servers i).sid = sidGetTerm (s₂.servers j).sid := by
    rw [sidGetTerm_eq_iff, toNat_sidSetL, toNat_sidSetL] at hterm
    rw [sidGetTerm_eq_iff]
    omega
  obtain ⟨k, -, -, hk, hk'⟩ := hmajority.meet hmajority' (by omega) (by omega)
  rw [Cluster.supports, decide_eq_true_eq] at hk hk'
  have hinv := groupOk_of_reach h
  have hkept₁ := ((moves_of_inGroup hinv hi.1 hi.2.1 hleads.1).grows hinv.requests).ballots k _ hk
  have hkept := ballots_of_steps h₁ hsteps hkept₁
  have hsame := (groupOk_of_reach h₂).cluster.once k _ hkept _ hk' hterm'
  rw [hsame, hown'] at hown
  exact hne hown.symm

/-- A stable group of three servers. -/
def threeServers : DareCid := ⟨0, 3, 0, CID_STABLE, 7⟩

theorem freshGroup_freshCluster : freshGroup threeServers freshCluster := ⟨electInit_fresh, fun _ => rfl⟩

/-- Server 1 votes for server 0 in term 2. -/
def firstVote : List ElectLabel :=
  [.hbReceive 0 false] ++ landings 0 1 2 ++ [.pollVoteRequests 1 [] (reached [2]) false]

/-- Server 2 votes for server 1 in term 3. -/
def secondVote : List ElectLabel :=
  [.hbReceive 1 false] ++ landings 1 2 4 ++ [.pollVoteRequests 2 [] (reached [0]) false] ++
  landings 2 1 3

/-- Server 0 is the leader of term 2, and server 1 of term 3. -/
theorem one_leader_per_term_two : ∃ s₁ s₃ : Cluster, (s₁.servers 0).sid = sidSetL (2 * 512) ∧
    (s₃.servers 1).sid = sidSetL (3 * 512 + 1) ∧
    sidGetTerm (s₁.servers 0).sid ≠ sidGetTerm (s₃.servers 1).sid := by
  have hrun : ((execIf electStep (CountsVotes threeServers) freshCluster
      (startAll ++ firstVote ++ landings 1 0 3)).bind fun s =>
      (electStep s (.pollVoteCount 0)).bind fun s₁ =>
      (execIf electStep (CountsVotes threeServers) s₁ secondVote).bind fun s₂ =>
      (electStep s₂ (.pollVoteCount 1)).map fun s₃ =>
        (decide (CountsVotes threeServers s (.pollVoteCount 0)),
          decide (CountsVotes threeServers s₂ (.pollVoteCount 1)), (s.servers 0).sid,
          (s₁.servers 0).sid, (s₂.servers 1).sid, (s₃.servers 1).sid)) =
      some (true, true, 2 * 512, sidSetL (2 * 512), 3 * 512 + 1, sidSetL (3 * 512 + 1)) := by
    decide +kernel
  obtain ⟨s, hs, hrun⟩ := Option.bind_eq_some_iff.mp hrun
  obtain ⟨s₁, hs₁, hrun⟩ := Option.bind_eq_some_iff.mp hrun
  obtain ⟨s₂, hs₂, hrun⟩ := Option.bind_eq_some_iff.mp hrun
  obtain ⟨s₃, hs₃, hrun⟩ := Option.map_eq_some_iff.mp hrun
  simp only [Prod.mk.injEq, decide_eq_true_eq] at hrun
  obtain ⟨hok, hok', hsid, hsid₁, hsid₂, hsid₃⟩ := hrun
  -- the first election is a run, and the second one goes on from it
  have hreach : Reach (freshGroup threeServers) ElectStep (CountsVotes threeServers) s :=
    Reach.steps (.start freshGroup_freshCluster) (fun _ _ h => h) (Steps.refl.execIf hs)
  refine ⟨s₁, s₃, hsid₁, hsid₃, one_leader_per_term rfl hreach hok ⟨hs₁, ?_, ?_⟩
    (Steps.refl.execIf hs₂) hok' ⟨hs₃, ?_, ?_⟩ (by decide)⟩
  · rw [hsid]
    rfl
  · rw [hsid₁]
    rfl
  · rw [hsid₂]
    rfl
  · rw [hsid₃]
    rfl

/-! ### A vote ACK that comes late -/

/-- Server 0 starts another election before the ACK of server 1 lands. -/
def lateAck : List ElectLabel := [.hbReceive 0 false] ++ landings 1 0 3

/-- Server 2 becomes a candidate of term 3, too, and server 1 votes for it. -/
def thirdVote : List ElectLabel :=
  [.hbReceive 2 false, .hbReceive 2 false] ++ landings 2 1 3 ++
  [.pollVoteRequests 1 [] (reached [2]) false] ++ landings 1 2 3

/-- Servers 0 and 2 become leaders of term 3. -/
theorem not_one_leader_per_term : ∃ s s₁ s₂ s₃ : Cluster,
    Reach (freshGroup threeServers) ElectStep (fun _ l => l.InGroup 3) s ∧ s.Leads 0 s₁ ∧
    Steps ElectStep (fun _ l => l.InGroup 3) s₁ s₂ ∧ s₂.Leads 2 s₃ ∧
    sidGetTerm (s₁.servers 0).sid = 3 ∧ sidGetTerm (s₃.servers 2).sid = 3 := by
  have hrun : ((execIf electStep (fun _ l => l.InGroup 3) freshCluster
      (startAll ++ firstVote ++ lateAck)).bind fun s =>
      (electStep s (.pollVoteCount 0)).bind fun s₁ =>
      (execIf electStep (fun _ l => l.InGroup 3) s₁ thirdVote).bind fun s₂ =>
      (electStep s₂ (.pollVoteCount 2)).map fun s₃ =>
        ((s.servers 0).sid, (s₁.servers 0).sid, (s₂.servers 2).sid, (s₃.servers 2).sid)) =
      some (3 * 512, sidSetL (3 * 512), 3 * 512 + 2, sidSetL (3 * 512 + 2)) := by decide +kernel
  obtain ⟨s, hs, hrun⟩ := Option.bind_eq_some_iff.mp hrun
  obtain ⟨s₁, hs₁, hrun⟩ := Option.bind_eq_some_iff.mp hrun
  obtain ⟨s₂, hs₂, hrun⟩ := Option.bind_eq_some_iff.mp hrun
  obtain ⟨s₃, hs₃, hrun⟩ := Option.map_eq_some_iff.mp hrun
  simp only [Prod.mk.injEq] at hrun
  obtain ⟨hsid, hsid₁, hsid₂, hsid₃⟩ := hrun
  refine ⟨s, s₁, s₂, s₃, Reach.steps (.start freshGroup_freshCluster) (fun _ _ h => h) (Steps.refl.execIf hs),
    ⟨hs₁, ?_, ?_⟩, Steps.refl.execIf hs₂, ⟨hs₃, ?_, ?_⟩, ?_, ?_⟩
  · rw [hsid]
    rfl
  · rw [hsid₁]
    rfl
  · rw [hsid₂]
    rfl
  · rw [hsid₃]
    rfl
  · rw [hsid₁]
    rfl
  · rw [hsid₃]
    rfl

end Apus
