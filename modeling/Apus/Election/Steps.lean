import Apus.Election.Calls

namespace Apus

open Lib

/-!
# What a step can do

The frame lemmas of the cluster, and the kinds of steps there are (`Moves`): a call of a function, a
vote, a change of the log, the configuration or the connections of a server, and a write that lands or
is lost.  The invariants are proved for these kinds.

* `RequestsOk` — the invariant that the calls of functions rest on: no vote request has the L flag;
* `next_of_electStep` — what each label can do;
* `KeepsSid` — the condition on the steps;
* `electStep_moves` — the kind of each step.
-/

variable {Q : DareCid → Prop} {i j : Nat} {o : Outcome} {ackFails : Bool}

/-! ### The cluster -/

variable {s s' s₁ : Cluster} {l : ElectLabel} {server : Server}

/-- The label is that a new server takes slot `i`. -/
def ElectLabel.takes (i : Nat) : ElectLabel → Bool
  | .take j _ => j == i
  | _ => false

/-- The server that calls a function. -/
def ElectLabel.actor : ElectLabel → Option Nat
  | .established i _ | .getReplicatedVote i _ _ _ | .sendSmRequest i | .pollSmRequests i _ => some i
  | .pollSmReply i _ | .recoverLog i _ | .hbReceive i _ | .hbSend i _ | .toAdjust i => some i
  | .pollVoteCount i | .pollVoteRequests i _ _ _ | .verifyLeadership i _ _ _ _ => some i
  | .take _ _ | .land _ _ | .lose _ _ | .log _ _ | .config _ _ | .connect _ _ => none

/-- The SIDs that the server that calls a function may see are small enough for another election. -/
def Cluster.TermsLow (s : Cluster) (l : ElectLabel) : Prop :=
  ∀ i ∈ l.actor, (s.servers i).TermsLow ∧ ∀ j < (s.servers i).size, TermLow (s.servers j).sid

instance (s : Cluster) (l : ElectLabel) : Decidable (s.TermsLow l) :=
  inferInstanceAs (Decidable (∀ i ∈ l.actor, _ ∧ _))

/-- The configuration that the label gives to a server. -/
def ElectLabel.gives : ElectLabel → Option DareCid
  | .take _ cid | .config _ cid => some cid
  | _ => none

/-- The servers are in their slots, and no vote request has the L flag.  All configurations are of a
    set that is given, in which the run is to stay. -/
structure RequestsOk (Q : DareCid → Prop) (s : Cluster) : Prop where
  idx : ∀ i, (s.servers i).idx = i
  fine : ∀ i, (s.servers i).Fine Q
  flight : ∀ i j, ∀ p ∈ s.flight i j, ∀ request, p.write = .voteReq request → RequestOk Q request

theorem RequestsOk.noL (h : RequestsOk Q s) (i j : Nat) :
    sidGetL ((s.servers i).ctrl.voteReq j).sid = false := ((h.fine i).2 j).1

@[simp] theorem act_servers (s : Cluster) (i : Nat) (o : Outcome) :
    (s.act i o).servers = Function.update s.servers i o.server := rfl

@[simp] theorem set_servers (s : Cluster) (i : Nat) (server : Server) :
    (s.set i server).servers = Function.update s.servers i server := rfl

@[simp] theorem act_record (s : Cluster) (i : Nat) (o : Outcome) :
    (s.act i o).record = s.record.act i o := rfl

/-- A write in flight after a call is an old one or was posted by it. -/
theorem mem_act_flight {p : Posted} {a b : Nat} (h : p ∈ (s.act i o).flight a b) :
    p ∈ s.flight a b ∨ a = i ∧ (b, p) ∈ o.posts := by
  simp only [Cluster.act] at h
  split at h
  · rename_i ha
    rcases List.mem_append.mp h with h | h
    · exact .inl h
    · obtain ⟨⟨b', p'⟩, hmem, rfl⟩ := List.mem_map.mp h
      obtain ⟨hmem, hb⟩ := List.mem_filter.mp hmem
      rw [beq_iff_eq] at hb
      exact .inr ⟨ha, hb ▸ hmem⟩
  · exact .inl h

/-- What a landing changes. -/
theorem land_cases (s : Cluster) (i j : Nat) : s.land i j = s ∨ ∃ p ps, s.flight i j = p :: ps ∧
    s.land i j = { s with
      servers := Function.update s.servers j
        { s.servers j with ctrl := p.write.land (s.servers j).ctrl i }
      flight := Function.update s.flight i (Function.update (s.flight i) j ps) } := by
  rw [Cluster.land]
  split
  · exact .inl rfl
  · rename_i p ps heq
    exact .inr ⟨p, ps, heq, rfl⟩

/-- A write in flight after a landing was in flight before. -/
theorem mem_of_mem_update {ι : Type} [DecidableEq ι] {i j a b : ι} {p : Posted}
    {f : ι → ι → List Posted} {ps : List Posted} (hps : ∀ p ∈ ps, p ∈ f i j)
    (h : p ∈ Function.update f i (Function.update (f i) j ps) a b) : p ∈ f a b := by
  by_cases ha : a = i
  · subst ha
    rw [Function.update_self] at h
    by_cases hb : b = j
    · subst hb
      rw [Function.update_self] at h
      exact hps p h
    · rwa [Function.update_of_ne hb] at h
  · rwa [Function.update_of_ne ha] at h

/-- A landing write does not touch the SID. -/
theorem land_sid (c : CtrlData) (i : Nat) (w : RemoteWrite) : (w.land c i).sid = c.sid := by
  cases w <;> rfl

theorem land_servers_sid (s : Cluster) (i j k : Nat) :
    ((s.land i j).servers k).sid = (s.servers k).sid := by
  rcases land_cases s i j with heq | ⟨p, ps, -, heq⟩
  · rw [heq]
  · rw [heq]
    by_cases hk : k = j
    · subst hk
      simp only [Function.update_self]
      exact land_sid _ i p.write
    · simp only [Function.update_of_ne hk]

theorem land_servers_of_ne (s : Cluster) {k : Nat} (i : Nat) (h : k ≠ j) :
    (s.land i j).servers k = s.servers k := by
  rcases land_cases s i j with heq | ⟨p, ps, -, heq⟩
  · rw [heq]
  · rw [heq]
    exact Function.update_of_ne h _ _

theorem land_record (s : Cluster) (i j : Nat) : (s.land i j).record = s.record := by
  rcases land_cases s i j with heq | ⟨p, ps, -, heq⟩ <;> rw [heq]

/-- What landings keep is kept when the writes to some servers land. -/
theorem flush_rec {P : Cluster → Prop} (js : List Nat)
    (hland : ∀ s, ∀ j ∈ js, P s → P (s.land i j)) (h : P s) :
    P (js.foldl (fun s j => s.flush i j) s) := by
  refine List.foldlRecOn js _ h fun s hs j hj => ?_
  exact Function.Iterate.rec P hs (fun s hs => hland s j hj hs) _


/-- What a vote comes to: the server replicates it, the writes of the round land at the servers that
    were reached, and the server sends the ACK. -/
theorem vote_cases {best : VoteReq} {early : List WorkCompletion} {polls : List (List WorkCompletion)}
    (h : s.vote i server best early polls ackFails = some s') :
    ∃ voter o, server.updateCid best.cid = some voter ∧
      roundFits voter.replicateVote.1 early polls = true ∧
      (∃ r, voter.replicateVote.1.wait 0 early polls = some r) ∧
      { voter.replicateVote.1 with sendsHb := false }.ackOrElect ackFails [] = some o ∧
      s' = ((succeeded early polls).foldl (fun s j => s.flush i j)
        (s.act i ⟨voter.replicateVote.1, voter.replicateVote.2, [best.sid]⟩)).act i o := by
  rw [Cluster.vote] at h
  simp only [Option.bind_eq_bind, Option.bind_eq_some_iff] at h
  obtain ⟨voter, hvoter, h⟩ := h
  split at h
  · cases h
  · rename_i hfits
    simp only [Option.bind_eq_some_iff, Option.some.injEq] at h
    obtain ⟨r, hr, o, ho, rfl⟩ := h
    exact ⟨voter, o, hvoter, by simpa using hfits, ⟨r, hr⟩, ho, rfl⟩

/-- A round reaches other servers only. -/
theorem succeeded_ne {early : List WorkCompletion} {polls : List (List WorkCompletion)}
    (h : roundFits server early polls = true) : ∀ j ∈ succeeded early polls, j ≠ server.idx := by
  intro j hj
  simp only [succeeded, List.mem_map, List.mem_filter, Bool.and_eq_true] at hj
  obtain ⟨wc, ⟨hmem, hcurrent, -⟩, rfl⟩ := hj
  simp only [roundFits, Bool.and_eq_true, List.all_eq_true, List.mem_map, List.mem_filter,
    decide_eq_true_eq, forall_exists_index, and_imp] at h
  have htarget := h.2 wc.conn wc hmem hcurrent rfl
  simp only [Server.targets, List.mem_filter, Bool.and_eq_true, bne_iff_ne] at htarget
  exact htarget.2.1

/-! ### The steps -/

/-- A new server takes the slot. -/
def Cluster.replace (s : Cluster) (i : Nat) (cid : DareCid) : Cluster :=
  { s.set i (newServer i cid) with flight := fun a b => if b = i then [] else s.flight a b }

/-- What the steps do: one case for each way that a label can go. -/
inductive Cluster.Next (s : Cluster) : ElectLabel → Cluster → Prop
  | take (i : Nat) (cid : DareCid) : s.Next (.take i cid) (s.replace i cid)
  | joins {i : Nat} : (s.servers i).progress = .connecting → i < MAX_SERVER_COUNT →
      s.Next (.established i true) (s.set i { s.servers i with progress := .getVote })
  | starts {i : Nat} {o : Outcome} : (s.servers i).progress = .connecting → i < MAX_SERVER_COUNT →
      { s.servers i with progress := .recovered }.startElection = some o →
      s.Next (.established i false) (s.act i o)
  /-- In a group of two the vote is not read. -/
  | skipsVote {i : Nat} {early : List WorkCompletion} {polls : List (List WorkCompletion)}
      {arrived : Nat → Bool} : (s.servers i).progress = .getVote →
      (s.servers i).setUpSid.cid.size0 = 2 →
      s.Next (.getReplicatedVote i early polls arrived)
        (s.act i { (s.servers i).setUpSid with progress := .sendSmRequest }.done)
  | readsVote {i : Nat} {early : List WorkCompletion} {polls : List (List WorkCompletion)}
      {arrived : Nat → Bool} {r : (Nat → Int) × Bool} : (s.servers i).progress = .getVote →
      (s.servers i).setUpSid.cid.size0 ≠ 2 → roundFits (s.servers i).setUpSid early polls = true →
      (∀ k ∈ succeeded early polls, arrived k = true) →
      (s.readAll (s.servers i).setUpSid arrived fun t => t.ctrl.voteSid i).wait (-1) early polls =
        some r →
      s.Next (.getReplicatedVote i early polls arrived) (s.act i
        ((s.readAll (s.servers i).setUpSid arrived fun t => t.ctrl.voteSid i).getReplicatedVote r).done)
  | sendSmRequest {i : Nat} : (s.servers i).progress = .sendSmRequest →
      s.Next (.sendSmRequest i) (s.act i (s.servers i).sendSmRequest)
  | pollSmRequests {i : Nat} {mem : UInt64 × UInt32 × UInt32} : (s.servers i).progress = .recovered →
      s.Next (.pollSmRequests i mem) (s.act i ((s.servers i).pollSmRequests mem))
  | pollSmReply {i : Nat} {recovered : Bool} :
      (s.servers i).progress = .getVote ∨ (s.servers i).progress = .sendSmRequest →
      s.Next (.pollSmReply i recovered) (s.act i ((s.servers i).pollSmReply recovered).done)
  | recoverLog {i : Nat} {ackFails : Bool} {o : Outcome} :
      (s.servers i).progress = .recoverLog →
      (s.servers i).recoverLog ackFails = some o → s.Next (.recoverLog i ackFails) (s.act i o)
  | hbReceive {i : Nat} {ackFails : Bool} {o : Outcome} : (s.servers i).progress = .recovered →
      (s.servers i).sendsHb = false → (s.servers i).hbReceive ackFails = some o →
      s.Next (.hbReceive i ackFails) (s.act i o)
  | hbSend {i : Nat} {ackFails : Bool} {o : Outcome} : (s.servers i).progress = .recovered →
      (s.servers i).sendsHb = true → (s.servers i).hbSend ackFails = some o →
      s.Next (.hbSend i ackFails) (s.act i o)
  | toAdjust {i : Nat} : (s.servers i).progress = .recovered →
      s.Next (.toAdjust i) (s.act i (s.servers i).toAdjust.done)
  | pollVoteCount {i : Nat} : (s.servers i).progress = .recovered →
      (s.servers i).isCandidate = true →
      s.Next (.pollVoteCount i) (s.act i (s.servers i).pollVoteCount.done)
  | ignores {i : Nat} {early : List WorkCompletion} {polls : List (List WorkCompletion)}
      {ackFails : Bool} {server : Server} : (s.servers i).progress = .recovered →
      (s.servers i).pollVoteRequests = some (.ignore server) →
      s.Next (.pollVoteRequests i early polls ackFails) (s.act i server.done)
  | raises {i : Nat} {early : List WorkCompletion} {polls : List (List WorkCompletion)}
      {ackFails : Bool} {server : Server} : (s.servers i).progress = .recovered →
      (s.servers i).pollVoteRequests = some (.raise server) →
      s.Next (.pollVoteRequests i early polls ackFails) (s.act i ⟨server, [], [server.sid]⟩)
  | votes {i : Nat} {early : List WorkCompletion} {polls : List (List WorkCompletion)}
      {ackFails : Bool} {server : Server} {best : VoteReq} {s' : Cluster} :
      (s.servers i).progress = .recovered →
      (s.servers i).pollVoteRequests = some (.vote server best) →
      s.vote i server best early polls ackFails = some s' →
      s.Next (.pollVoteRequests i early polls ackFails) s'
  | verifyLeadership {i : Nat} {early : List WorkCompletion} {polls : List (List WorkCompletion)}
      {arrived : Nat → Bool} {ackFails : Bool} {r : (Nat → Int) × Bool} {o : Outcome} :
      (s.servers i).progress = .recovered →
      (s.readAll (s.servers i) arrived Server.sid).wait 0 early polls = some r →
      (s.readAll (s.servers i) arrived Server.sid).verifyLeadership r ackFails = some o →
      s.Next (.verifyLeadership i early polls arrived ackFails) (s.act i o)
  | land (i j : Nat) : s.Next (.land i j) (s.land i j)
  | lose (i j : Nat) : s.Next (.lose i j)
      { s with flight := Function.update s.flight i (Function.update (s.flight i) j []) }
  | log {i : Nat} {log : DareLog} : log.len = (s.servers i).log.len →
      s.Next (.log i log) (s.set i { s.servers i with log := log })
  | config (i : Nat) (cid : DareCid) :
      s.Next (.config i cid) (s.set i { s.servers i with cid := cid })
  | connect (i : Nat) (connected : Nat → Bool) :
      s.Next (.connect i connected) (s.set i { s.servers i with connected := connected })

theorem next_of_electStep (hs : electStep s l = some s') : s.Next l s' := by
  cases l with
  | take i cid =>
    cases hs
    exact .take i cid
  | established i joined =>
    simp only [electStep] at hs
    split at hs
    · cases hs
    · rename_i hfirst
      simp only [not_or, not_not, Nat.not_le] at hfirst
      cases joined with
      | true =>
        cases hs
        exact .joins hfirst.1 hfirst.2
      | false =>
        obtain ⟨o, ho, rfl⟩ := Option.map_eq_some_iff.mp hs
        exact .starts hfirst.1 hfirst.2 ho
  | getReplicatedVote i early polls arrived =>
    simp only [electStep] at hs
    split at hs
    · cases hs
    · rename_i hprog
      rw [not_not] at hprog
      split at hs
      · rename_i htwo
        cases hs
        exact .skipsVote hprog htwo
      · rename_i htwo
        split at hs
        · cases hs
        · rename_i hround
          simp only [not_or, Bool.not_eq_false, Bool.not_eq_true', List.all_eq_true] at hround
          obtain ⟨r, hwait, rfl⟩ := Option.map_eq_some_iff.mp hs
          exact .readsVote hprog htwo hround.1 hround.2 hwait
  | sendSmRequest i =>
    simp only [electStep, Option.ite_none_right_eq_some, Option.some.injEq] at hs
    obtain ⟨hprog, rfl⟩ := hs
    exact .sendSmRequest hprog
  | pollSmRequests i mem =>
    simp only [electStep, Option.ite_none_right_eq_some, Option.some.injEq] at hs
    obtain ⟨hprog, rfl⟩ := hs
    exact .pollSmRequests hprog
  | pollSmReply i recovered =>
    simp only [electStep, Option.ite_none_right_eq_some, Option.some.injEq] at hs
    obtain ⟨hprog, rfl⟩ := hs
    exact .pollSmReply hprog
  | recoverLog i ackFails =>
    simp only [electStep, Option.ite_none_right_eq_some, Option.map_eq_some_iff] at hs
    obtain ⟨hprog, o, ho, rfl⟩ := hs
    exact .recoverLog hprog ho
  | hbReceive i ackFails =>
    simp only [electStep, Option.ite_none_right_eq_some, Option.map_eq_some_iff] at hs
    obtain ⟨⟨hprog, hsends⟩, o, ho, rfl⟩ := hs
    exact .hbReceive hprog hsends ho
  | hbSend i ackFails =>
    simp only [electStep, Option.ite_none_right_eq_some, Option.map_eq_some_iff] at hs
    obtain ⟨⟨hprog, hsends⟩, o, ho, rfl⟩ := hs
    exact .hbSend hprog hsends ho
  | toAdjust i =>
    simp only [electStep, Option.ite_none_right_eq_some, Option.some.injEq] at hs
    obtain ⟨hprog, rfl⟩ := hs
    exact .toAdjust hprog
  | pollVoteCount i =>
    simp only [electStep, Option.ite_none_right_eq_some, Option.some.injEq] at hs
    obtain ⟨⟨hprog, hcandidate⟩, rfl⟩ := hs
    exact .pollVoteCount hprog hcandidate
  | pollVoteRequests i early polls ackFails =>
    simp only [electStep, Option.bind_eq_bind, Option.ite_none_left_eq_some,
      Option.bind_eq_some_iff, not_not] at hs
    obtain ⟨hprog, poll, hpoll, hs⟩ := hs
    cases poll with
    | ignore server =>
      cases hs
      exact .ignores hprog hpoll
    | raise server =>
      cases hs
      exact .raises hprog hpoll
    | vote server best => exact .votes hprog hpoll hs
  | verifyLeadership i early polls arrived ackFails =>
    simp only [electStep, Option.bind_eq_bind, Option.ite_none_left_eq_some,
      Option.bind_eq_some_iff, Option.some.injEq, not_or, not_not] at hs
    obtain ⟨⟨hprog, -⟩, r, hwait, o, ho, rfl⟩ := hs
    exact .verifyLeadership hprog hwait ho
  | land i j =>
    cases hs
    exact .land i j
  | lose i j =>
    cases hs
    exact .lose i j
  | log i log =>
    simp only [electStep, Option.ite_none_right_eq_some, Option.some.injEq] at hs
    obtain ⟨hlen, rfl⟩ := hs
    exact .log hlen
  | config i cid =>
    cases hs
    exact .config i cid
  | connect i connected =>
    cases hs
    exact .connect i connected

/-- What `poll_vote_requests` decides is what the step does. -/
theorem votes_of_poll {best : VoteReq} {early : List WorkCompletion}
    {polls : List (List WorkCompletion)}
    (hpoll : (s.servers i).pollVoteRequests = some (.vote server best))
    (hs : electStep s (.pollVoteRequests i early polls ackFails) = some s') :
    (s.servers i).progress = .recovered ∧ s.vote i server best early polls ackFails = some s' := by
  cases next_of_electStep hs with
  | ignores _ hignore =>
    rw [hpoll] at hignore
    cases hignore
  | raises _ hraise =>
    rw [hpoll] at hraise
    cases hraise
  | votes hprog hvote hs =>
    rw [hpoll] at hvote
    cases hvote
    exact ⟨hprog, hs⟩

/-- The terms that are read from other servers are low. -/
theorem termLow_readAll {early : List WorkCompletion} {polls : List (List WorkCompletion)}
    {arrived : Nat → Bool}
    (h : s.TermsLow (.verifyLeadership i early polls arrived ackFails)) :
    ∀ j < (s.servers i).size, TermLow ((s.readAll (s.servers i) arrived Server.sid).ctrl.rsid j) := by
  intro j hj
  show TermLow (if arrived j then (s.servers j).sid else (s.servers i).ctrl.rsid j)
  split
  · exact (h i rfl).2 j hj
  · exact ((h i rfl).1.2.2 j hj).2.2

/-! ### The kinds of steps -/

/-- The step does not lower a SID: the heartbeat that `poll_vote_requests` may take is not below the
    SID, and a server that joins has not yet got a SID above the one it starts over with. -/
def KeepsSid (s : Cluster) (l : ElectLabel) : Prop :=
  s.TermsLow l ∧
  match l with
  | .pollVoteRequests i _ _ _ => ¬(s.servers i).LowHb
  | .getReplicatedVote i _ _ _ => (s.servers i).sid ≤ (s.servers i).setUpSid.sid
  | _ => True

instance (s : Server) : Decidable s.LowHb := inferInstanceAs (Decidable (_ ∧ _ ∧ _ ∧ _))

instance (s : Cluster) (l : ElectLabel) : Decidable (KeepsSid s l) := by
  cases l <;> exact inferInstanceAs (Decidable (_ ∧ _))

/-- What a step can do, apart from a new server. -/
inductive Moves (Q : DareCid → Prop) (s : Cluster) : Cluster → Prop
  | call {i : Nat} {o : Outcome} : Grows Q (s.servers i) o → Moves Q s (s.act i o)
  /-- The vote is posted, lands at some of the other servers, and is acknowledged. -/
  | vote {i : Nat} {o₁ o₂ : Outcome} {js : List Nat} : (s.servers i).progress = .recovered →
      Grows Q (s.servers i) o₁ → (∀ j ∈ js, j ≠ i) → Grows Q o₁.server o₂ →
      Moves Q s ((js.foldl (fun s j => s.flush i j) (s.act i o₁)).act i o₂)
  | set {i : Nat} {server : Server} : server.idx = (s.servers i).idx → Q server.cid →
      server.ctrl = (s.servers i).ctrl →
      ((s.servers i).progress ≠ .connecting → server.progress ≠ .connecting) →
      Moves Q s (s.set i server)
  | land (i j : Nat) : Moves Q s (s.land i j)
  | lose (i j : Nat) :
      Moves Q s { s with flight := Function.update s.flight i (Function.update (s.flight i) j []) }

/-- A vote: the voter has the SID of the request. -/
theorem vote_grows {best : VoteReq} {early : List WorkCompletion}
    {polls : List (List WorkCompletion)} (h : RequestsOk Q s)
    (hlow : (s.servers i).TermsLow) (hrec : (s.servers i).progress = .recovered)
    (hpoll : (s.servers i).pollVoteRequests = some (.vote server best))
    (hs : s.vote i server best early polls ackFails = some s') : ∃ voter o,
      Grows Q (s.servers i) ⟨voter.replicateVote.1, voter.replicateVote.2, [best.sid]⟩ ∧
      (∀ j ∈ succeeded early polls, j ≠ i) ∧ Grows Q voter.replicateVote.1 o ∧
      voter.sid = best.sid ∧ roundFits voter early polls = true ∧
      s' = ((succeeded early polls).foldl (fun s j => s.flush i j)
        (s.act i ⟨voter.replicateVote.1, voter.replicateVote.2, [best.sid]⟩)).act i o := by
  obtain ⟨hg, hterm, hsid, j, hj, hbest⟩ := pollVoteRequests_vote (Q := Q) hpoll (h.noL i)
  obtain ⟨voter, o, hvoter, hfits, -, ho, rfl⟩ := vote_cases hs
  obtain ⟨cid, connected, hcid, rfl⟩ := updateCid_eq hvoter
  have hne := succeeded_ne hfits
  generalize hvoter₁ : Server.replicateVote { server with cid := cid, connected := connected } = r at *
  -- first the vote is replicated
  have hfirst : Grows Q (s.servers i) ⟨r.1, r.2, [best.sid]⟩ := by
    rw [← hvoter₁]
    refine ⟨hg.idx, hg.le, fun hf => ⟨?_, (hg.fine hf).2⟩, fun _ => postsOk_map (by simp) ?_ _,
      hg.started, fun k hk => ?_⟩
    · -- the CID is its own, or that of the request
      show Q cid
      rcases hcid with rfl | rfl
      · exact (hg.fine hf).1
      · rw [hbest]
        refine (hf.2 j).2 fun hzero => ?_
        rw [hbest, hzero] at hterm
        exact absurd hterm (UInt64.not_lt.mpr UInt64.zero_le)
    · rintro v ⟨⟩
      exact ⟨hrec, hg.le⟩
    · show Function.update server.ctrl.voteSid server.idx server.sid k = _
      rw [Function.update_of_ne (by rw [show server.idx = (s.servers i).idx from hg.idx]; exact hk)]
      exact hg.kept k hk
  have hsid₁ : r.1.sid = best.sid := by
    rw [← hvoter₁]
    exact hsid
  have hlow₁ : TermLow r.1.sid := by
    rw [hsid₁, hbest]
    exact (hlow.2.2 j hj).2.1
  -- then the server stops its heartbeats, and posts the ACK
  have hkeep : Grows Q r.1 ⟨{ r.1 with sendsHb := false }, [], []⟩ :=
    ⟨rfl, UInt64.le_refl r.1.sid, fun h => h, fun _ => postsOk_nil, fun h => h, fun _ _ => rfl⟩
  subst hvoter₁
  refine ⟨_, o, hfirst, fun k hk => ?_, hkeep.ackOrElect hlow₁ postsOk_nil ho, hsid, hfits, rfl⟩
  have hother := hne k hk
  rwa [hfirst.idx, h.idx i] at hother

/-- The kind of each step that meets the condition. -/
theorem electStep_moves (h : RequestsOk Q s) (hok : KeepsSid s l)
    (hgives : ∀ cid, l.gives = some cid → Q cid) (hs : electStep s l = some s') :
    (∃ i cid, l = .take i cid ∧ Q cid ∧ s' = s.replace i cid) ∨ Moves Q s s' := by
  obtain ⟨hlow, hok⟩ := hok
  cases next_of_electStep hs with
  | take i cid => exact .inl ⟨i, cid, rfl, hgives cid rfl, rfl⟩
  | @joins i => exact .inr (.set rfl (h.fine i).1 rfl (by simp))
  | @starts i _ _ _ ho =>
    have hg := grows_startElection (Q := Q) (s := { s.servers i with progress := .recovered })
      (hlow i rfl).1.1 ho
    exact .inr (.call ⟨hg.idx, hg.le, hg.fine, fun hf =>
      postsOk_startElection (s := { s.servers i with progress := .recovered }) (hlow i rfl).1.1
        hf.1 ho, fun _ => hg.started (by simp), hg.kept⟩)
  | skipsVote =>
    exact .inr (.call ⟨rfl, hok, fun h => h, fun _ => postsOk_nil, by simp [Server.done],
      fun _ _ => rfl⟩)
  | @readsVote i early polls arrived r =>
    have hg := grows_getReplicatedVote (Q := Q)
      (s.readAll (s.servers i).setUpSid arrived fun t => t.ctrl.voteSid i) r
    exact .inr (.call ⟨hg.idx, UInt64.le_trans hok hg.le, hg.fine, fun _ => postsOk_nil,
      hg.started, hg.kept⟩)
  | sendSmRequest => exact .inr (.call (grows_sendSmRequest _))
  | pollSmRequests => exact .inr (.call (grows_pollSmRequests _ _))
  | pollSmReply => exact .inr (.call (grows_pollSmReply _ _))
  | @recoverLog i _ o _ ho => exact .inr (.call (grows_recoverLog (hlow i rfl).1.1 ho))
  | @hbReceive i _ o _ _ ho => exact .inr (.call (grows_hbReceive (hlow i rfl).1 ho))
  | @hbSend i _ o _ _ ho => exact .inr (.call (grows_hbSend (hlow i rfl).1.1 ho))
  | toAdjust => exact .inr (.call (grows_toAdjust _))
  | pollVoteCount => exact .inr (.call (grows_pollVoteCount _))
  | ignores _ hpoll => exact .inr (.call (grows_ignore hok hpoll))
  | @raises i _ _ _ _ _ hpoll => exact .inr (.call (grows_raise hpoll (h.noL i)).1)
  | @votes i _ _ _ _ _ _ hrec hpoll hs =>
    obtain ⟨voter, o, hg₁, hjs, hg₂, -, -, rfl⟩ := vote_grows h (hlow i rfl).1 hrec hpoll hs
    exact .inr (.vote hrec hg₁ hjs hg₂)
  | @verifyLeadership i _ _ arrived _ _ o _ _ ho =>
    have hg := grows_verifyLeadership (Q := Q) (s := s.readAll (s.servers i) arrived Server.sid)
      (hlow i rfl).1.1 (termLow_readAll hlow) ho
    exact .inr (.call ⟨hg.idx, hg.le, hg.fine, hg.posts, hg.started, hg.kept⟩)
  | land i j => exact .inr (.land i j)
  | lose i j => exact .inr (.lose i j)
  | @log i => exact .inr (.set rfl (h.fine i).1 rfl fun hp => hp)
  | config i cid => exact .inr (.set rfl (hgives cid rfl) rfl fun hp => hp)
  | connect i connected => exact .inr (.set rfl (h.fine i).1 rfl fun hp => hp)

end Apus
