import Apus.Election.Steps

namespace Apus

open Lib

/-!
# The growth of SIDs

A step that meets `KeepsSid` lowers no SID (`StepGrows`), and a vote is for a higher term than any SID
that the server has had (`term_lt_of_grants`).
-/

variable {Q : DareCid → Prop} {i j : Nat} {o : Outcome} {ackFails : Bool}
  {s s' s₁ : Cluster} {l : ElectLabel} {server : Server}

/-! ### What the steps keep -/

/-- One server changes, and no vote request with the L flag is posted. -/
theorem RequestsOk.update (h : RequestsOk Q s)
    (hservers : s'.servers = Function.update s.servers i server) (hidx : server.idx = i)
    (hfine : server.Fine Q)
    (hflight : ∀ a b, ∀ p ∈ s'.flight a b, p ∈ s.flight a b ∨
      ∀ request, p.write = .voteReq request → RequestOk Q request) : RequestsOk Q s' where
  idx := by
    intro j
    rw [hservers]
    by_cases hj : j = i
    · rw [hj, Function.update_self]
      exact hidx
    · rw [Function.update_of_ne hj]
      exact h.idx j
  fine := by
    intro j
    rw [hservers]
    by_cases hj : j = i
    · rw [hj, Function.update_self]
      exact hfine
    · rw [Function.update_of_ne hj]
      exact h.fine j
  flight := by
    intro a b p hp
    rcases hflight a b p hp with hp | hp
    · exact h.flight a b p hp
    · exact hp

theorem RequestsOk.act (h : RequestsOk Q s) (hg : Grows Q (s.servers i) o) :
    RequestsOk Q (s.act i o) := by
  refine h.update (act_servers s i o) (hg.idx.trans (h.idx i)) (hg.fine (h.fine i)) ?_
  intro a b p hp
  exact (mem_act_flight hp).imp_right fun hp => (hg.posts (h.fine i) _ hp.2).1

theorem RequestsOk.land (h : RequestsOk Q s) (i j : Nat) : RequestsOk Q (s.land i j) := by
  rcases land_cases s i j with heq | ⟨p, ps, hflight, heq⟩
  · rw [heq]
    exact h
  · rw [heq]
    refine h.update rfl (h.idx j) ⟨?_, fun a => ?_⟩ fun a b p' hp' => .inl ?_
    · exact (h.fine j).1
    · -- only a vote request changes these slots
      cases hw : p.write with
      | voteReq request =>
        by_cases ha : a = i
        · simp only [RemoteWrite.land, ha, Function.update_self]
          exact h.flight i j p (hflight ▸ List.mem_cons_self) request hw
        · simp only [RemoteWrite.land, Function.update_of_ne ha]
          exact (h.fine j).2 a
      | _ => exact (h.fine j).2 a
    · refine mem_of_mem_update (fun q hq => ?_) hp'
      rw [hflight]
      exact List.mem_cons_of_mem p hq

/-- A change of the log, the configuration or the connections of a server. -/
theorem RequestsOk.set (h : RequestsOk Q s) (hidx : server.idx = (s.servers i).idx)
    (hcid : Q server.cid) (hctrl : server.ctrl = (s.servers i).ctrl) :
    RequestsOk Q (s.set i server) :=
  h.update rfl (hidx.trans (h.idx i)) ⟨hcid, fun j => hctrl ▸ (h.fine i).2 j⟩
    fun _ _ _ hp => .inl hp

/-- A new server. -/
theorem RequestsOk.replace (h : RequestsOk Q s) {cid : DareCid} (hcid : Q cid) (i : Nat) :
    RequestsOk Q (s.replace i cid) := by
  refine h.update (i := i) rfl rfl ⟨hcid, fun _ => ⟨sidGetL_zero, fun hne => absurd rfl hne⟩⟩
    fun a b p hp => ?_
  simp only [Cluster.replace] at hp
  split at hp
  · cases hp
  · exact .inl hp

/-! ### What a step does to the SIDs -/

/-- What every move does. -/
structure StepGrows (Q : DareCid → Prop) (s s' : Cluster) : Prop where
  requests : RequestsOk Q s'
  le : ∀ i, (s.servers i).sid ≤ (s'.servers i).sid
  started : ∀ i, (s.servers i).progress ≠ .connecting → (s'.servers i).progress ≠ .connecting
  /-- Nothing is recorded of a server that does not start. -/
  top : ∀ i, (s'.servers i).progress = .connecting → s'.record.top i = s.record.top i
  ballots : ∀ i, ∀ b ∈ s.record.ballots i, b ∈ s'.record.ballots i

theorem StepGrows.of_act (h : RequestsOk Q s) (hg : Grows Q (s.servers i) o) :
    StepGrows Q s (s.act i o) where
  requests := h.act hg
  le := by
    intro k
    rw [act_servers]
    by_cases hk : k = i
    · subst hk
      rw [Function.update_self]
      exact hg.le
    · rw [Function.update_of_ne hk]
      exact UInt64.le_refl _
  started := by
    intro k hstarted
    rw [act_servers]
    by_cases hk : k = i
    · subst hk
      rw [Function.update_self]
      exact hg.started hstarted
    · rwa [Function.update_of_ne hk]
  top := by
    intro k hconnecting
    rw [act_record]
    by_cases hk : k = i
    · subst hk
      rw [act_servers, Function.update_self] at hconnecting
      rw [Record.act, if_neg (by rw [hconnecting]; simp)]
    · exact act_top_of_ne s.record o hk
  ballots := by
    intro k b hb
    rw [act_record, act_ballots]
    by_cases hk : k = i
    · subst hk
      rw [Function.update_self]
      exact List.mem_append_left _ hb
    · rwa [Function.update_of_ne hk]

/-- A change that does not touch SIDs, and records nothing. -/
theorem StepGrows.of_same (h : RequestsOk Q s') (hrecord : s'.record = s.record)
    (hsid : ∀ k, (s'.servers k).sid = (s.servers k).sid)
    (hprogress : ∀ k, (s.servers k).progress ≠ .connecting →
      (s'.servers k).progress ≠ .connecting) : StepGrows Q s s' :=
  ⟨h, fun k => hsid k ▸ UInt64.le_refl _, hprogress, fun _ _ => by rw [hrecord],
    fun _ _ hb => hrecord ▸ hb⟩

theorem StepGrows.of_set (h : RequestsOk Q s) (hidx : server.idx = (s.servers i).idx)
    (hcid : Q server.cid) (hctrl : server.ctrl = (s.servers i).ctrl)
    (hprogress : (s.servers i).progress ≠ .connecting → server.progress ≠ .connecting) :
    StepGrows Q s (s.set i server) := by
  refine .of_same (h.set hidx hcid hctrl) rfl (fun k => ?_) fun k => ?_
  · rw [set_servers]
    by_cases hk : k = i
    · subst hk
      rw [Function.update_self, Server.sid, Server.sid, hctrl]
    · rw [Function.update_of_ne hk]
  · rw [set_servers]
    by_cases hk : k = i
    · subst hk
      rw [Function.update_self]
      exact hprogress
    · rw [Function.update_of_ne hk]
      exact id

theorem StepGrows.trans {s₂ : Cluster} (h : StepGrows Q s s₁) (h' : StepGrows Q s₁ s₂) :
    StepGrows Q s s₂ where
  requests := h'.requests
  le := fun i => UInt64.le_trans (h.le i) (h'.le i)
  started := fun i hp => h'.started i (h.started i hp)
  top := by
    intro i hconnecting
    have hbefore : (s₁.servers i).progress = .connecting := by
      by_contra hne
      exact h'.started i hne hconnecting
    rw [h'.top i hconnecting, h.top i hbefore]
  ballots := fun i b hb => h'.ballots i b (h.ballots i b hb)

theorem land_progress (s : Cluster) (i j k : Nat) :
    ((s.land i j).servers k).progress = (s.servers k).progress := by
  rcases land_cases s i j with heq | ⟨p, ps, -, heq⟩
  · rw [heq]
  · rw [heq]
    by_cases hk : k = j
    · subst hk
      simp only [Function.update_self]
    · simp only [Function.update_of_ne hk]

theorem StepGrows.of_land (h : RequestsOk Q s) (i j : Nat) : StepGrows Q s (s.land i j) :=
  .of_same (h.land i j) (land_record s i j) (land_servers_sid s i j)
    fun k hp => land_progress s i j k ▸ hp

/-- The landings of a round do not touch the server that has posted the writes. -/
theorem flush_servers {js : List Nat} (s : Cluster) (hjs : ∀ j ∈ js, j ≠ i) :
    (js.foldl (fun s j => s.flush i j) s).servers i = s.servers i :=
  flush_rec (P := fun s₁ => s₁.servers i = s.servers i) js
    (fun s₁ j hj hs₁ => (land_servers_of_ne s₁ i (hjs j hj).symm).trans hs₁) rfl

/-- A vote: it is posted, lands, and is acknowledged. -/
theorem StepGrows.of_vote {o₁ o₂ : Outcome} {js : List Nat} (h : RequestsOk Q s)
    (hg₁ : Grows Q (s.servers i) o₁) (hjs : ∀ j ∈ js, j ≠ i) (hg₂ : Grows Q o₁.server o₂) :
    StepGrows Q s ((js.foldl (fun s j => s.flush i j) (s.act i o₁)).act i o₂) := by
  have hland := flush_rec (P := StepGrows Q s) js
    (fun s₁ j _ hs₁ => hs₁.trans (.of_land hs₁.requests i j)) (.of_act h hg₁)
  refine hland.trans (.of_act hland.requests ?_)
  rw [flush_servers _ hjs, act_servers, Function.update_self]
  exact hg₂

/-- **No move lowers a SID.** -/
theorem Moves.grows (h : RequestsOk Q s) (hm : Moves Q s s') : StepGrows Q s s' := by
  cases hm with
  | call hg => exact .of_act h hg
  | vote _ hg₁ hjs hg₂ => exact .of_vote h hg₁ hjs hg₂
  | set hidx hcid hctrl hprogress => exact .of_set h hidx hcid hctrl hprogress
  | land i j => exact .of_land h i j
  | lose i j =>
    exact .of_same ⟨h.idx, h.fine, fun a b p hp => h.flight a b p (mem_of_mem_update (by simp) hp)⟩
      rfl (fun _ => rfl) fun _ hp => hp

/-! ### Runs -/

theorem RequestsOk.step (h : RequestsOk Q s) (hok : KeepsSid s l)
    (hgives : ∀ cid, l.gives = some cid → Q cid) (hs : electStep s l = some s') :
    RequestsOk Q s' := by
  rcases electStep_moves h hok hgives hs with ⟨i, cid, -, hcid, rfl⟩ | hm
  · exact h.replace hcid i
  · exact (hm.grows h).requests

/-- A step that does not replace the server keeps its SID or raises it. -/
theorem sid_le_of_step (h : RequestsOk Q s) (hok : KeepsSid s l)
    (hgives : ∀ cid, l.gives = some cid → Q cid) (hl : l.takes i = false)
    (hs : electStep s l = some s') : (s.servers i).sid ≤ (s'.servers i).sid := by
  rcases electStep_moves h hok hgives hs with ⟨j, cid, rfl, -, rfl⟩ | hm
  · have hne : i ≠ j := by
      rintro rfl
      simp [ElectLabel.takes] at hl
    simp only [Cluster.replace, set_servers, Function.update_of_ne hne]
    exact UInt64.le_refl _
  · exact (hm.grows h).le i

theorem requestsOk_init (h : electInit s) (hcid : ∀ i, Q (s.servers i).cid) : RequestsOk Q s := by
  obtain ⟨hservers, hflight, -⟩ := h
  refine ⟨fun i => ?_, fun i => ⟨hcid i, fun j => ?_⟩, fun i j p hp => ?_⟩
  · obtain ⟨cid, heq⟩ := hservers i
    rw [heq]
    rfl
  · obtain ⟨cid, heq⟩ := hservers i
    rw [heq]
    exact ⟨sidGetL_zero, fun hne => absurd rfl hne⟩
  · rw [hflight i j] at hp
    cases hp

/-- In a run with any configurations. -/
theorem requestsOk_of_reach (h : Reach electInit ElectStep KeepsSid s) :
    RequestsOk (fun _ => True) s :=
  h.invariant (fun _ hs => requestsOk_init hs fun _ => trivial) fun _ _ _ hinv hok hs =>
    hinv.step hok (fun _ _ => trivial) hs

/-- `poll_vote_requests` of server `i` votes for the sender of the request. -/
def Cluster.Grants (s : Cluster) (i : Nat) (best : VoteReq) : Prop :=
  ∃ server, (s.servers i).pollVoteRequests = some (.vote server best)

/-- A vote raises the SID to that of the candidate. -/
theorem sid_of_vote {best : VoteReq} {early : List WorkCompletion}
    {polls : List (List WorkCompletion)} (h : RequestsOk Q s) (hlow : (s.servers i).TermsLow)
    (hgrants : s.Grants i best)
    (hs : electStep s (.pollVoteRequests i early polls ackFails) = some s') :
    best.sid ≤ (s'.servers i).sid := by
  obtain ⟨server, hpoll⟩ := hgrants
  obtain ⟨hprog, hvote⟩ := votes_of_poll hpoll hs
  obtain ⟨voter, o, -, -, hg₂, hsid, -, rfl⟩ := vote_grows h hlow hprog hpoll hvote
  rw [act_servers, Function.update_self]
  exact hsid ▸ hg₂.le

/-- The run of a server that keeps its slot. -/
abbrev Stays (i : Nat) (s : Cluster) (l : ElectLabel) : Prop := KeepsSid s l ∧ l.takes i = false

theorem sid_le_of_steps (h : Reach electInit ElectStep KeepsSid s)
    (hs : Steps ElectStep (Stays i) s s') : (s.servers i).sid ≤ (s'.servers i).sid := by
  induction hs with
  | refl => exact UInt64.le_refl _
  | step hs hok hstep ih =>
    have hinv := requestsOk_of_reach (h.steps (fun _ _ hok => hok.1) hs)
    exact UInt64.le_trans ih (sid_le_of_step hinv hok.1 (fun _ _ => trivial) hok.2 hstep)

/-- A vote is for a higher term than any SID that the server has had. -/
theorem term_lt_of_grants {best : VoteReq} (h : Reach electInit ElectStep KeepsSid s)
    (hs : Steps ElectStep (Stays i) s s') (hgrants : s'.Grants i best) :
    sidGetTerm (s.servers i).sid < sidGetTerm best.sid := by
  obtain ⟨server, hpoll⟩ := hgrants
  have hinv := requestsOk_of_reach (h.steps (fun _ _ hok => hok.1) hs)
  exact UInt64.lt_of_le_of_lt (sidGetTerm_mono (sid_le_of_steps h hs))
    (pollVoteRequests_vote (Q := fun _ => True) hpoll (hinv.noL i)).2.1

end Apus
