import Apus.Election.Leaders

namespace Apus

open Lib

/-!
# A leader that hears a larger SID

`hb_send_cb` looks for heartbeats that are not below the SID of the leader, and calls
`server_to_follower` if there is one.  The SID it installs before is the one the leader has already: the
variable `new_sid` is never assigned the heartbeat.  So the server is still the leader of its term, with
another callback for heartbeats, unless it goes on with an election because the vote ACK it sends to
itself fails.

* `hbSendScan_iff` — when the loop finds a heartbeat;
* `hbSend_stepsDown_iff` — when the leader steps down.
-/

variable {s s' : Server} {o : Outcome} {ackFails : Bool} {i : Nat}

/-- `IS_LEADER`. -/
def Server.isLeader (s : Server) : Bool :=
  !s.isNone && (sidGetIdx s.sid).toNat == s.idx && sidGetL s.sid

/-- A server of the group that is ON, and whose heartbeat has a larger SID. -/
def Server.Outranks (s : Server) (i : Nat) : Prop :=
  i < s.size ∧ cidIsServerOn s.cid i = true ∧ s.sid < s.ctrl.hb i

/-- The leader has stepped down for the larger SIDs. -/
structure StepsDown (s : Server) (o : Outcome) : Prop where
  le : ∀ i, s.Outranks i → s.ctrl.hb i ≤ o.server.sid
  notLeader : o.server.isLeader = false
  sendsHb : o.server.sendsHb = false

/-- The loop of `hb_send_cb` finds a heartbeat of another server that is not below the own SID. -/
theorem hbSendScan_iff (s : Server) {is : List Nat} (hnodup : is.Nodup) (hb : Nat → UInt64) :
    (s.hbSendScan is hb).2 = true ↔
      ∃ i ∈ is, i ≠ s.idx ∧ cidIsServerOn s.cid i = true ∧ s.sid ≤ hb i := by
  induction is generalizing hb with
  | nil => simp [Server.hbSendScan]
  | cons i is ih =>
    obtain ⟨hnot, hrest⟩ := List.nodup_cons.mp hnodup
    rw [Server.hbSendScan]
    split
    · rename_i hskip
      rw [ih hrest hb, List.exists_mem_cons_iff]
      have hno : ¬(i ≠ s.idx ∧ cidIsServerOn s.cid i = true ∧ s.sid ≤ hb i) := by
        rintro ⟨hne, hon, -⟩
        rcases hskip with heq | hoff
        · exact hne heq
        · rw [hoff] at hon
          cases hon
      exact (or_iff_right hno).symm
    · rename_i hon
      rw [not_or, Bool.not_eq_false] at hon
      rw [List.exists_mem_cons_iff]
      split
      · rename_i hlow
        rw [ih hrest]
        -- the slots of the other servers have not been reset
        have hsame : ∀ j ∈ is, Function.update hb i 0 j = hb j := by
          intro j hj
          refine Function.update_of_ne ?_ 0 hb
          rintro rfl
          exact hnot hj
        constructor
        · rintro ⟨j, hj, hne, hj', hle⟩
          exact .inr ⟨j, hj, hne, hj', hsame j hj ▸ hle⟩
        · rintro (⟨-, -, hle⟩ | ⟨j, hj, hne, hj', hle⟩)
          · exact absurd hlow (UInt64.not_lt.mpr hle)
          · exact ⟨j, hj, hne, hj', (hsame j hj).symm ▸ hle⟩
      · rename_i hhigh
        exact iff_of_true rfl (.inl ⟨hon.1, hon.2, UInt64.not_lt.mp hhigh⟩)

/-- A server whose SID names a leader sends it a vote ACK. -/
theorem toFollower_of_leader (hl : sidGetL s.sid = true) (posts : List (Nat × Posted)) :
    s.toFollower ackFails posts = { s with sendsHb := false }.ackOrElect ackFails posts := by
  rw [Server.toFollower]
  exact if_pos hl

/-- A candidate is not a leader. -/
theorem sidGetL_candidateSid (s : Server) : sidGetL s.candidateSid = false := by
  rw [sidGetL_eq_false_iff, Server.candidateSid, toNat_sidSetIdx, toNat_sidUnsetL]
  have hidx := (UInt8.ofNat s.idx).toNat_lt
  omega

/-- A server that is outranked and keeps its SID has not stepped down. -/
theorem not_stepsDown (hi : s.Outranks i) (hsid : o.server.sid = s.sid) : ¬StepsDown s o := by
  intro h
  have hle := h.le i hi
  rw [hsid] at hle
  exact UInt64.not_lt.mpr hle hi.2.2

/-- **When an outranked leader steps down**: only if the vote ACK that it sends to itself fails, so that
    it becomes a candidate of the next term, and no heartbeat has a larger SID than that. -/
theorem hbSend_stepsDown_iff (hlead : s.isLeader = true) (hi : s.Outranks i)
    (h : s.hbSend ackFails = some o) : StepsDown s o ↔
      ackFails = true ∧ s.reaches s.idx = true ∧
      (∃ j < s.size, j ≠ s.idx ∧ cidIsServerOn s.cid j = true ∧ s.sid ≤ s.ctrl.hb j) ∧
      ∀ j, s.Outranks j → s.ctrl.hb j ≤ s.candidateSid := by
  simp only [Server.isLeader, Bool.and_eq_true, beq_iff_eq] at hlead
  obtain ⟨⟨-, hown⟩, hl⟩ := hlead
  have hscan := hbSendScan_iff s (List.nodup_range (n := s.size)) s.ctrl.hb
  simp only [List.mem_range] at hscan
  rw [Server.hbSend] at h
  dsimp only at h
  split at h
  · rename_i hfound
    rw [hscan] at hfound
    -- the SID is what it was, so that the ACK goes to the server itself
    rw [toFollower_of_leader (s := { s with ctrl := { s.ctrl with
      hb := (s.hbSendScan (List.range s.size) s.ctrl.hb).1 } }) hl, Server.ackOrElect] at h
    split at h
    · rename_i hfails
      have hfails : ackFails = true ∧ s.reaches s.idx = true := by
        rw [Bool.and_eq_true] at hfails
        exact ⟨hfails.1, hown ▸ hfails.2⟩
      obtain ⟨o', ho', rfl⟩ := Option.map_eq_some_iff.mp h
      obtain ⟨request, -, -, -, -, hserver⟩ := startElection_eq ho'
      have hsid : o'.server.sid = s.candidateSid := by
        rw [hserver]
        rfl
      constructor
      · exact fun hdown => ⟨hfails.1, hfails.2, hfound, fun j hj => hsid ▸ hdown.le j hj⟩
      · rintro ⟨-, -, -, hall⟩
        refine ⟨fun j hj => hsid.symm ▸ hall j hj, ?_, by rw [hserver]⟩
        show o'.server.isLeader = false
        rw [Server.isLeader, hsid, sidGetL_candidateSid, Bool.and_false]
    · rename_i hfails
      cases h
      refine iff_of_false (not_stepsDown hi rfl) ?_
      rintro ⟨hack, hreach, -, -⟩
      refine hfails ?_
      rw [Bool.and_eq_true]
      exact ⟨hack, show s.reaches (sidGetIdx s.sid).toNat = true from hown.symm ▸ hreach⟩
  · rename_i hnone
    rw [hscan] at hnone
    cases h
    exact iff_of_false (not_stepsDown hi rfl) fun hcond => hnone hcond.2.2.1

/-! ### A deposed leader -/

/-- Server 1 leads term 2 with the vote of server 0, while server 2 starts two elections and does not
    get a vote; it answers the heartbeat of server 1 with its own SID. -/
def outranked : List ElectLabel :=
  startAll ++ [.hbReceive 1 false] ++ landings 1 0 2 ++ [.pollVoteRequests 0 [] (reached [1]) false] ++
  landings 0 1 3 ++ [.pollVoteCount 1, .hbSend 1 false] ++ List.replicate 2 (.hbReceive 2 false) ++
  landings 1 2 3 ++ [.hbReceive 2 false] ++ landings 2 1 5

instance (s : Server) (i : Nat) : Decidable (s.Outranks i) := inferInstanceAs (Decidable (_ ∧ _ ∧ _))

/-- In this state the leader keeps its SID. -/
theorem hbSend_stepsDown_iff_outranked : ∃ s : Server, s.isLeader = true ∧ s.Outranks 2 ∧
    ∃ o, s.hbSend false = some o ∧ (StepsDown s o ↔ false = true ∧ s.reaches s.idx = true ∧
      (∃ j < s.size, j ≠ s.idx ∧ cidIsServerOn s.cid j = true ∧ s.sid ≤ s.ctrl.hb j) ∧
      ∀ j, s.Outranks j → s.ctrl.hb j ≤ s.candidateSid) := by
  have hrun : ((exec electStep freshCluster outranked).any fun s =>
      (s.servers 1).isLeader && decide ((s.servers 1).Outranks 2) &&
        ((s.servers 1).hbSend false).isSome) = true := by decide +kernel
  obtain ⟨s, -, hrun⟩ := (Option.any_eq_true _ _).mp hrun
  simp only [Bool.and_eq_true, decide_eq_true_eq, Option.isSome_iff_exists] at hrun
  obtain ⟨⟨hlead, hi⟩, o, ho⟩ := hrun
  exact ⟨s.servers 1, hlead, hi, o, ho, hbSend_stepsDown_iff hlead hi ho⟩

/-- Server 1 has heard `[3|0|2]`, and is still the leader with `[2|1|1]` after `hb_send_cb`. -/
theorem not_stepsDown_outranked : ∃ s s', Reach electInit ElectStep Always s ∧
    (s.servers 1).isLeader = true ∧ (s.servers 1).Outranks 2 ∧
    ElectStep s (.hbSend 1 false) s' ∧ (s'.servers 1).sid < (s.servers 1).ctrl.hb 2 ∧
    (s'.servers 1).isLeader = true := by
  have hrun : ((exec electStep freshCluster outranked).any fun s =>
      (s.servers 1).isLeader && decide ((s.servers 1).Outranks 2) &&
        (electStep s (.hbSend 1 false)).any fun s' =>
          decide ((s'.servers 1).sid < (s.servers 1).ctrl.hb 2) && (s'.servers 1).isLeader) = true := by
    decide +kernel
  obtain ⟨s, hs, hrun⟩ := (Option.any_eq_true _ _).mp hrun
  simp only [Bool.and_eq_true, decide_eq_true_eq] at hrun
  obtain ⟨⟨hlead, hi⟩, hstep⟩ := hrun
  obtain ⟨s', hs', hstep⟩ := (Option.any_eq_true _ _).mp hstep
  simp only [Bool.and_eq_true, decide_eq_true_eq] at hstep
  exact ⟨s, s', Reach.exec (.start electInit_fresh) hs, hlead, hi, hs', hstep.1, hstep.2⟩

end Apus
