import Apus.Election.Growth
import Apus.Election.Heartbeats

namespace Apus

open Lib

/-!
# One vote per term

* `ClusterOk` — what is known of every server and of the writes in flight, over a run in which the
  servers that join do not end with a lower SID than their slot has had (`KeepsSlot`);
* `sids_grow` — the SIDs grow, and a server votes once per term;
* `not_sids_grow` — the other runs: a server takes a heartbeat that lowers its SID.
-/

variable {r : Record} {i j : Nat} {o : Outcome} {u : UInt64} {ackFails : Bool}

/-! ### The cluster -/

variable {s s' s₁ : Cluster} {l : ElectLabel} {server : Server}

/-- The invariant. -/
structure ClusterOk (s : Cluster) : Prop where
  ballots : BallotsOk s.record
  once : BallotsOnce s.record
  server : ∀ i, ServerOk s.record i (s.servers i)
  flight : ∀ i j, ∀ p ∈ s.flight i j, PostOk s.record i p.write

theorem ActOk.ballotsOk (h : ActOk r i u o) (hb : BallotsOk r) : BallotsOk (r.act i o) := by
  intro p b hmem
  rw [act_ballots] at hmem
  by_cases hp : p = i
  · subst hp
    rw [Function.update_self] at hmem
    rcases List.mem_append.mp hmem with hmem | hmem
    · exact ⟨(hb p b hmem).1, UInt64.le_trans (hb p b hmem).2 (top_le_act r p p o)⟩
    · have hrec := h.active (List.ne_nil_of_mem hmem)
      obtain ⟨hl, -, hle⟩ := h.ballots b hmem
      rw [act_top_self hrec (h.top_le hrec)]
      exact ⟨hl, hle⟩
  · rw [Function.update_of_ne hp] at hmem
    exact ⟨(hb p b hmem).1, UInt64.le_trans (hb p b hmem).2 (top_le_act r i p o)⟩

theorem ActOk.ballotsOnce (h : ActOk r i u o) (hb : BallotsOk r) (hr : BallotsOnce r) :
    BallotsOnce (r.act i o) := by
  intro p b hmem b' hmem' heq
  rw [act_ballots] at hmem hmem'
  by_cases hp : p = i
  · subst hp
    rw [Function.update_self] at hmem hmem'
    have hlater : ∀ b ∈ r.ballots p, ∀ b' ∈ o.ballots, sidGetTerm b < sidGetTerm b' :=
      fun b hb₁ b' hb' => UInt64.lt_of_le_of_lt (sidGetTerm_mono (hb p b hb₁).2) (h.ballots b' hb').2.1
    rcases List.mem_append.mp hmem with hmem | hmem <;>
      rcases List.mem_append.mp hmem' with hmem' | hmem'
    · exact hr p b hmem b' hmem' heq
    · exact absurd (hlater b hmem b' hmem') (heq ▸ UInt64.lt_irrefl _)
    · exact absurd (hlater b' hmem' b hmem) (heq ▸ UInt64.lt_irrefl _)
    · exact h.once b hmem b' hmem' heq
  · rw [Function.update_of_ne hp] at hmem hmem'
    exact hr p b hmem b' hmem' heq

theorem ClusterOk.act (h : ClusterOk s) (ha : ActOk s.record i u o) : ClusterOk (s.act i o) where
  ballots := ha.ballotsOk h.ballots
  once := ha.ballotsOnce h.ballots h.once
  server := by
    intro j
    rw [act_servers, act_record]
    by_cases hj : j = i
    · rw [hj, Function.update_self]
      exact ha.ok
    · rw [Function.update_of_ne hj]
      exact (h.server j).mono ha.record_le (act_top_of_ne s.record o hj)
  flight := by
    intro a b p hp
    rcases mem_act_flight hp with hold | ⟨rfl, hnew⟩
    · exact (h.flight a b p hold).mono ha.record_le
    · exact ha.posts _ hnew

/-- One server changes, and nothing is done. -/
theorem ClusterOk.update (h : ClusterOk s) (hrecord : s'.record = s.record)
    (hservers : s'.servers = Function.update s.servers i server)
    (hok : ServerOk s.record i server)
    (hflight : ∀ a b, ∀ p ∈ s'.flight a b, p ∈ s.flight a b) : ClusterOk s' where
  ballots := hrecord ▸ h.ballots
  once := hrecord ▸ h.once
  server := by
    intro j
    rw [hservers, hrecord]
    by_cases hj : j = i
    · rw [hj, Function.update_self]
      exact hok
    · rw [Function.update_of_ne hj]
      exact h.server j
  flight := fun a b p hp => hrecord ▸ h.flight a b p (hflight a b p hp)

/-- A write lands in the slot of its sender. -/
theorem SlotsOk.land {c : CtrlData} {latest : UInt64} {w : RemoteWrite} (h : SlotsOk r c latest)
    (hw : PostOk r i w) : SlotsOk r (w.land c i) latest := by
  cases w with
  | hb v =>
    refine ⟨fun j => ?_, h.latest, h.voteReq, h.smRep, h.voteSid, h.rsid⟩
    by_cases hj : j = i
    · simp only [RemoteWrite.land, hj, Function.update_self]
      exact .inr hw
    · simp only [RemoteWrite.land, Function.update_of_ne hj]
      exact h.hb j
  | voteReq request =>
    refine ⟨h.hb, h.latest, fun j => ?_, h.smRep, h.voteSid, h.rsid⟩
    by_cases hj : j = i
    · simp only [RemoteWrite.land, hj, Function.update_self]
      exact hw
    · simp only [RemoteWrite.land, Function.update_of_ne hj]
      exact h.voteReq j
  | voteAck commit => exact ⟨h.hb, h.latest, h.voteReq, h.smRep, h.voteSid, h.rsid⟩
  | smReq => exact ⟨h.hb, h.latest, h.voteReq, h.smRep, h.voteSid, h.rsid⟩
  | smRep reply =>
    refine ⟨h.hb, h.latest, h.voteReq, fun j => ?_, h.voteSid, h.rsid⟩
    by_cases hj : j = i
    · simp only [RemoteWrite.land, hj, Function.update_self]
      exact hw
    · simp only [RemoteWrite.land, Function.update_of_ne hj]
      exact h.smRep j
  | voteSid v =>
    refine ⟨h.hb, h.latest, h.voteReq, h.smRep, fun j => ?_, h.rsid⟩
    by_cases hj : j = i
    · simp only [RemoteWrite.land, hj, Function.update_self]
      exact hw
    · simp only [RemoteWrite.land, Function.update_of_ne hj]
      exact h.voteSid j

theorem ServerOk.land {w : RemoteWrite} {server : Server} (h : ServerOk r j server)
    (hw : PostOk r i w) : ServerOk r j { server with ctrl := w.land server.ctrl i } := by
  have hsid := land_sid server.ctrl i w
  refine ⟨h.idx, h.lt, ?_, fun hp => ?_, fun hp hp' => ?_, fun hp => ?_, h.slots.land hw⟩
  · show Known r (w.land server.ctrl i).sid
    rw [hsid]
    exact h.known
  · show SID_NULL ≤ (w.land server.ctrl i).sid ∧ (w.land server.ctrl i).sid.toNat ≤ 256 + j
    rw [hsid]
    exact h.joining hp
  · show SID_NULL < (w.land server.ctrl i).sid
    rw [hsid]
    exact h.joined hp hp'
  · show (w.land server.ctrl i).sid = r.top j
    rw [hsid]
    exact h.top hp

theorem ClusterOk.land (h : ClusterOk s) (i j : Nat) : ClusterOk (s.land i j) := by
  rcases land_cases s i j with heq | ⟨p, ps, hflight, heq⟩
  · rw [heq]
    exact h
  · rw [heq]
    refine h.update rfl rfl ((h.server j).land (h.flight i j p (hflight ▸ List.mem_cons_self)))
      fun a b p' hp' => mem_of_mem_update (fun q hq => ?_) hp'
    rw [hflight]
    exact List.mem_cons_of_mem p hq

/-- A new server. -/
theorem serverOk_new (r : Record) (i : Nat) (cid : DareCid) : ServerOk r i (newServer i cid) := by
  have hnull : SID_NULL ≤ SID_NULL := UInt64.le_refl _
  refine ⟨rfl, fun h => absurd rfl h, .inl hnull, fun _ => ⟨hnull, ?_⟩, fun h => absurd rfl h,
    fun h => ?_, ⟨fun _ => .inl rfl, known_zero r, fun _ => .inl rfl, fun _ => known_zero r,
      fun _ => known_zero r, fun _ => known_zero r⟩⟩
  · show SID_NULL.toNat ≤ 256 + i
    rw [sidNull_toNat]
    omega
  · cases h

theorem clusterOk_init (h : electInit s) : ClusterOk s := by
  obtain ⟨hservers, hflight, hrecord⟩ := h
  refine ⟨fun p b hb => ?_, fun p b hb => ?_, fun i => ?_, fun i j p hp => ?_⟩
  · rw [hrecord] at hb
    cases hb
  · rw [hrecord] at hb
    cases hb
  · obtain ⟨cid, heq⟩ := hservers i
    rw [heq]
    exact serverOk_new _ i cid
  · rw [hflight i j] at hp
    cases hp

/-- A server that takes a slot ends with a SID that is not below those that the slot has had, and
    replies to an SM request come after the vote has been read. -/
def KeepsSlot (s : Cluster) (l : ElectLabel) : Prop :=
  s.TermsLow l ∧
  match l with
  | .established i joined => joined = false → s.record.top i = 0
  | .recoverLog i _ => s.record.top i ≤ (s.servers i).sid
  | .pollSmReply i _ =>
    (s.servers i).progress = .getVote →
      ∀ target < (s.servers i).size, (s.servers i).smReplyGood target = false
  | _ => True

theorem clusterOk_vote {best : VoteReq} {early : List WorkCompletion}
    {polls : List (List WorkCompletion)} (h : ClusterOk s)
    (hrec : (s.servers i).progress = .recovered) (hlow : (s.servers i).TermsLow)
    (hpoll : (s.servers i).pollVoteRequests = some (.vote server best))
    (hs : s.vote i server best early polls ackFails = some s') : ClusterOk s' := by
  have hserver := h.server i
  obtain ⟨hg, -, hsid, j, hj, hbest⟩ := pollVoteRequests_vote (Q := fun _ => True) hpoll hserver.slots.noL
  obtain ⟨voter, o, hvoter, hfits, -, ho, rfl⟩ := vote_cases hs
  have hfirst := actOk_vote hserver hrec hpoll hvoter
  have hrec₁ : voter.replicateVote.1.progress = .recovered := hfirst.active (by simp)
  have hlow₁ : TermLow voter.replicateVote.1.sid := by
    obtain ⟨cid, connected, -, rfl⟩ := updateCid_eq hvoter
    show TermLow server.sid
    rw [hsid, hbest]
    exact (hlow.2.2 j hj).2.1
  have hidx₁ : voter.replicateVote.1.idx = i := hfirst.ok.idx
  -- the landings do not touch the voter itself
  obtain ⟨hland, hsame⟩ := flush_rec
    (s := s.act i ⟨voter.replicateVote.1, voter.replicateVote.2, [best.sid]⟩)
    (P := fun s₁ => ClusterOk s₁ ∧ s₁.servers i = voter.replicateVote.1) (i := i)
    (succeeded early polls)
    (fun s₁ j hj hs₁ => ⟨hs₁.1.land i j, by
      have hne := succeeded_ne hfits j hj
      rw [hidx₁] at hne
      rw [land_servers_of_ne s₁ i hne.symm]
      exact hs₁.2⟩) ⟨h.act hfirst, by rw [act_servers, Function.update_self]⟩
  have hvoter₁ := hland.server i
  rw [hsame] at hvoter₁
  have hkeep : ActOk _ i voter.replicateVote.1.sid
      ⟨{ voter.replicateVote.1 with sendsHb := false }, [], []⟩ :=
    hvoter₁.acts hrec₁ rfl rfl (UInt64.le_refl _) hvoter₁.known hvoter₁.slots (by simp)
  exact hland.act (hkeep.ackOrElect hrec₁ hlow₁ ho)

theorem clusterOk_step (h : ClusterOk s) (hok : KeepsSlot s l) (hs : electStep s l = some s') :
    ClusterOk s' := by
  obtain ⟨hlow, hok⟩ := hok
  cases next_of_electStep hs with
  | take i cid =>
    refine h.update (i := i) rfl rfl (serverOk_new s.record i cid) fun a b p hp => ?_
    dsimp only [Cluster.replace] at hp
    split at hp
    · cases hp
    · exact hp
  | @joins i hprog hi =>
    have hserver := h.server i
    exact h.update rfl rfl ⟨hserver.idx, fun _ => hi, hserver.known,
      fun _ => hserver.joining (.inl hprog), by simp, by simp, hserver.slots⟩ fun _ _ _ hp => hp
  | @starts i o hprog hi ho =>
    have hserver := h.server i
    have htop : s.record.top i ≤ (s.servers i).sid := by
      rw [hok rfl]
      exact UInt64.zero_le
    exact h.act (actOk_startElection (s := { s.servers i with progress := .recovered }) hserver.idx
      hi rfl htop hserver.slots (hlow i rfl).1.1 ho).1
  | @skipsVote i _ _ _ hprog _ =>
    have hserver := h.server i
    refine h.act (hserver.setUp hprog (UInt64.le_refl _) (.inr (.inl ?_)) hserver.slots.rsid)
    exact (setUpSid_spec hserver.idx (hserver.lt (by simp [hprog]))).1
  | @readsVote i _ _ arrived r hprog _ _ _ _ =>
    have hserver := h.server i
    refine h.act (actOk_getReplicatedVote hserver hprog (fun j => ?_) r)
    dsimp only
    split
    · exact (h.server j).slots.voteSid i
    · exact hserver.slots.rsid j
  | @sendSmRequest i hprog => exact h.act (actOk_sendSmRequest (h.server i) hprog)
  | @pollSmRequests i mem hprog => exact h.act (actOk_pollSmRequests (h.server i) hprog mem)
  | @pollSmReply i recovered hprog =>
    refine h.act (actOk_pollSmReply (h.server i) ?_ ?_ hok recovered)
    · rcases hprog with heq | heq <;> simp [heq]
    · rcases hprog with heq | heq <;> simp [heq]
  | @recoverLog i _ o hprog ho =>
    exact h.act (actOk_recoverLog (h.server i) hprog hok (hlow i rfl).1.1 ho)
  | @hbReceive i _ o hprog _ ho =>
    exact h.act (actOk_hbReceive (h.server i) h.ballots hprog (hlow i rfl).1 ho)
  | @hbSend i _ o hprog _ ho =>
    exact h.act (actOk_hbSend (h.server i) h.ballots hprog (hlow i rfl).1.1 ho)
  | @toAdjust i hprog => exact h.act (actOk_toAdjust (h.server i) hprog)
  | @pollVoteCount i hprog _ => exact h.act (actOk_pollVoteCount (h.server i) hprog)
  | @ignores i _ _ _ _ hprog hpoll => exact h.act (actOk_ignore (h.server i) hprog hpoll)
  | @raises i _ _ _ _ hprog hpoll => exact h.act (actOk_raise (h.server i) hprog hpoll)
  | @votes i _ _ _ _ _ _ hprog hpoll hvote =>
    exact clusterOk_vote h hprog (hlow i rfl).1 hpoll hvote
  | @verifyLeadership i _ _ arrived _ r o hprog _ ho =>
    have hserver := h.server i
    have hsl := hserver.slots
    have hread : ServerOk s.record i (s.readAll (s.servers i) arrived Server.sid) := by
      refine ⟨hserver.idx, hserver.lt, hserver.known, hserver.joining, hserver.joined, hserver.top,
        ⟨hsl.hb, hsl.latest, hsl.voteReq, hsl.smRep, hsl.voteSid, fun j => ?_⟩⟩
      show Known s.record (if arrived j then (s.servers j).sid else (s.servers i).ctrl.rsid j)
      split
      · exact (h.server j).known
      · exact hsl.rsid j
    exact h.act (actOk_verifyLeadership hread hprog (hlow i rfl).1.1 (termLow_readAll hlow) ho)
  | land i j => exact h.land i j
  | lose i j =>
    exact ⟨h.ballots, h.once, h.server, fun a b p hp => h.flight a b p (mem_of_mem_update (by simp) hp)⟩
  -- what other functions write is not in the invariant
  | @log i | config i | connect i =>
    have hserver := h.server i
    exact h.update rfl rfl ⟨hserver.idx, hserver.lt, hserver.known, hserver.joining, hserver.joined,
      hserver.top, hserver.slots⟩ fun _ _ _ hp => hp

/-- In a run that keeps the slots, no step lowers a SID. -/
theorem keepsSid_of_keepsSlot (h : ClusterOk s) (hok : KeepsSlot s l)
    (hs : electStep s l = some s') : KeepsSid s l := by
  refine ⟨hok.1, ?_⟩
  cases next_of_electStep hs with
  | @ignores i _ _ _ _ hprog _ | @raises i _ _ _ _ hprog _ | @votes i _ _ _ _ _ _ hprog _ _ =>
    exact (h.server i).not_lowHb hprog
  | @skipsVote i _ _ _ hprog _ | @readsVote i _ _ _ _ hprog _ _ _ _ =>
    exact (h.server i).le_setUpSid hprog
  | _ => trivial

/-- **The SIDs grow, and a server votes once per term**, in every run whose steps meet `KeepsSid`.
    Such are the runs in which a server that takes a slot ends with a SID that is not below those that
    the slot has had. -/
theorem sids_grow (i : Nat) :
    (∀ s s', Reach electInit ElectStep KeepsSid s → Steps ElectStep (Stays i) s s' →
      (s.servers i).sid ≤ (s'.servers i).sid ∧
      ∀ best, s'.Grants i best → sidGetTerm (s.servers i).sid < sidGetTerm best.sid) ∧
    (∀ s s₁ s' early polls ackFails best best', Reach electInit ElectStep KeepsSid s →
      KeepsSid s (.pollVoteRequests i early polls ackFails) → s.Grants i best →
      ElectStep s (.pollVoteRequests i early polls ackFails) s₁ →
      Steps ElectStep (Stays i) s₁ s' → s'.Grants i best' →
      sidGetTerm best.sid < sidGetTerm best'.sid) ∧
    ∀ s, Reach electInit ElectStep KeepsSlot s → Reach electInit ElectStep KeepsSid s := by
  refine ⟨fun s s' h hs => ⟨sid_le_of_steps h hs, fun best => term_lt_of_grants h hs⟩,
    fun s s₁ s' early polls ackFails best best' h hok hgrants hstep hs hgrants' => ?_, fun s h => ?_⟩
  · have hvote := sid_of_vote (requestsOk_of_reach h) (hok.1 i rfl).1 hgrants hstep
    have h₁ : Reach electInit ElectStep KeepsSid s₁ := h.step hok hstep
    exact UInt64.lt_of_le_of_lt (sidGetTerm_mono hvote) (term_lt_of_grants h₁ hs hgrants')
  · exact h.of_invariant (fun _ => clusterOk_init) (fun _ _ _ => clusterOk_step)
      fun _ _ _ => keepsSid_of_keepsSlot

/-- A cluster of three servers that have not done anything. -/
def freshCluster : Cluster where
  servers := fun i => newServer i ⟨0, 3, 0, CID_STABLE, 7⟩
  flight := fun _ _ => []
  record := ⟨fun _ => [], fun _ => 0⟩

theorem electInit_fresh : electInit freshCluster := ⟨fun _ => ⟨_, rfl⟩, fun _ _ => rfl, rfl⟩

/-- The completions of a round that reaches these servers. -/
def reached (is : List Nat) : List (List WorkCompletion) := [is.map fun i => ⟨i, true, .success⟩]

def landings (i j n : Nat) : List ElectLabel := List.replicate n (.land i j)

/-- All servers become candidates. -/
def startAll : List ElectLabel :=
  [.connect 0 fun _ => true, .connect 1 fun _ => true, .connect 2 fun _ => true,
    .established 0 false, .established 1 false, .established 2 false]

/-- The request that was voted for. -/
def Server.Poll.request : Server.Poll → Option VoteReq
  | .vote _ best => some best
  | _ => none

theorem grants_of_request {best : VoteReq}
    (h : (s.servers i).pollVoteRequests.bind Server.Poll.request = some best) : s.Grants i best := by
  obtain ⟨poll, hpoll, hbest⟩ := Option.bind_eq_some_iff.mp h
  cases poll with
  | vote server request =>
    cases hbest
    exact ⟨server, hpoll⟩
  | _ => cases hbest

/-- Server 1 becomes a candidate of term 2, and server 0 votes for it. -/
theorem sids_grow_vote : ∃ s best, Steps ElectStep (Stays 0) freshCluster s ∧ s.Grants 0 best ∧
    sidGetTerm (freshCluster.servers 0).sid < sidGetTerm best.sid := by
  have hrun : ((execIf electStep (Stays 0) freshCluster
      (startAll ++ [.hbReceive 1 false] ++ landings 1 0 2)).bind fun s =>
        (s.servers 0).pollVoteRequests.bind Server.Poll.request).isSome = true := by decide +kernel
  obtain ⟨best, hbest⟩ := Option.isSome_iff_exists.mp hrun
  obtain ⟨s, hs, hbest⟩ := Option.bind_eq_some_iff.mp hbest
  have hgrants : s.Grants 0 best := grants_of_request hbest
  have hsteps := Steps.refl.execIf hs
  exact ⟨s, best, hsteps, hgrants, ((sids_grow 0).1 _ s (.start electInit_fresh) hsteps).2 best hgrants⟩

/-! ### A heartbeat of a server that recovered a lower SID -/

/-- Server 0 votes for server 1 in term 2; server 2 goes on to `[4|0|2]`.  A new server takes its slot
    and recovers from server 0. -/
def slotTaken : List ElectLabel :=
  [.hbReceive 1 false] ++ landings 1 0 2 ++ [.pollVoteRequests 0 [] (reached [1]) false] ++
  landings 0 1 3 ++ [.pollVoteCount 1, .hbSend 1 false] ++
  List.replicate 3 (.hbReceive 2 false) ++ landings 2 1 4 ++
  [.take 2 ⟨0, 3, 0, CID_STABLE, 7⟩, .connect 2 fun _ => true, .established 2 true,
    .getReplicatedVote 2 [] (reached [0, 1]) fun _ => true, .sendSmRequest 2] ++ landings 2 0 5 ++
  [.pollSmRequests 0 (1, 1, 1), .land 0 2, .pollSmReply 2 true, .recoverLog 2 false]

/-- The new server votes for `[4|0|0]`, and answers the heartbeat of server 1 with it; server 1, which
    has found the request of the server that was in the slot before, has the SID `[4|0|2]`. -/
def slotVotes : List ElectLabel :=
  [.hbReceive 0 false, .land 1 0, .hbReceive 0 false] ++ landings 0 2 2 ++
  [.pollVoteRequests 2 [] (reached [0]) false, .hbSend 1 false, .land 1 2, .hbReceive 2 false] ++
  landings 0 1 2 ++
  [.hbSend 1 false, .hbReceive 1 false, .pollVoteRequests 1 [] (reached [0]) false] ++
  landings 2 1 3

/-- Server 1 goes from `[4|0|2]` back to `[4|0|0]`. -/
theorem not_sids_grow : ∃ s s', Reach electInit ElectStep Always s ∧
    ElectStep s (.pollVoteRequests 1 [] [] false) s' ∧
    (s.servers 1).sid = 4 * 512 + 2 ∧ (s'.servers 1).sid = 4 * 512 := by
  have hrun : (exec electStep freshCluster (startAll ++ slotTaken ++ slotVotes)).bind (fun s =>
      (electStep s (.pollVoteRequests 1 [] [] false)).map fun s' =>
        ((s.servers 1).sid, (s'.servers 1).sid)) = some (4 * 512 + 2, 4 * 512) := by decide +kernel
  obtain ⟨s, hs, hrun⟩ := Option.bind_eq_some_iff.mp hrun
  obtain ⟨s', hs', hsids⟩ := Option.map_eq_some_iff.mp hrun
  rw [Prod.mk.injEq] at hsids
  exact ⟨s, s', Reach.exec (.start electInit_fresh) hs, hs', hsids.1, hsids.2⟩

end Apus
