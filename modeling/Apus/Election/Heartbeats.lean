import Apus.Election.Calls

namespace Apus

open Lib

/-!
# Heartbeats of a candidate

When does the heartbeat that `poll_vote_requests` takes not lower the SID?  Every SID without the L
flag was created by a server that supported it: as its own, when it became a candidate, or raised its
term.  A heartbeat of a slot is at most the highest SID of the slot, and not below the SID with which
a server of the slot became candidate in the same term (`Heard`).  So a voter that takes the heartbeat
of its candidate gets a higher SID (`ServerOk.not_lowHb`), as long as no server that joins ends with a
lower SID than its slot has had.

* `ServerOk` — what the memory of a server holds;
* `ActOk` — what a function keeps, one lemma for each function.
-/

variable {r r' : Record} {i j p : Nat} {s s' : Server} {o : Outcome} {u v : UInt64}
  {posts : List (Nat × Posted)} {ackFails : Bool}

theorem sidNull_toNat : SID_NULL.toNat = 255 := rfl

/-! ### What is known of a SID -/

/-- A SID without the L flag was supported by the server it names. -/
def Known (r : Record) (v : UInt64) : Prop :=
  v ≤ SID_NULL ∨ sidGetL v = true ∨ v ∈ r.ballots (sidGetIdx v).toNat

/-- A vote request has the SID of a candidate, unless it was dropped. -/
def Requested (r : Record) (v : UInt64) : Prop :=
  v = 0 ∨ sidGetL v = false ∧ v ∈ r.ballots (sidGetIdx v).toNat

/-- A heartbeat of slot `p`. -/
structure Heard (r : Record) (p : Nat) (v : UInt64) : Prop where
  known : Known r v
  le_top : v ≤ r.top p
  /-- It is not below the SID of a candidate of that slot and the same term. -/
  candidate : ∀ b ∈ r.ballots p, (sidGetIdx b).toNat = p → sidGetTerm b = sidGetTerm v → b ≤ v

theorem known_zero (r : Record) : Known r 0 := .inl (UInt64.zero_le)

theorem Requested.known (h : Requested r v) : Known r v := by
  rcases h with rfl | ⟨-, hmem⟩
  · exact known_zero r
  · exact .inr (.inr hmem)

/-- A heartbeat of the candidate that a voter has voted for is higher than the vote. -/
theorem Heard.le_of_vote (hu : Known r u) (hl : sidGetL u = false) (hnull : SID_NULL < u)
    (hv : Heard r (sidGetIdx u).toNat v) (hterm : sidGetTerm v = sidGetTerm u) : u ≤ v := by
  rcases hu with hu | hu | hu
  · exact absurd hnull (UInt64.not_lt.mpr hu)
  · rw [hl] at hu
    cases hu
  · exact hv.candidate u hu rfl hterm.symm

/-! ### The memory of a server -/

/-- The slots that other servers write to. -/
structure SlotsOk (r : Record) (c : CtrlData) (latest : UInt64) : Prop where
  hb : ∀ j, c.hb j = 0 ∨ Heard r j (c.hb j)
  latest : Known r latest
  voteReq : ∀ j, Requested r (c.voteReq j).sid
  smRep : ∀ j, Known r (c.smRep j).sid
  voteSid : ∀ j, Known r (c.voteSid j)
  rsid : ∀ j, Known r (c.rsid j)

/-- The server in slot `i`. -/
structure ServerOk (r : Record) (i : Nat) (s : Server) : Prop where
  idx : s.idx = i
  lt : s.progress ≠ .connecting → i < MAX_SERVER_COUNT
  known : Known r s.sid
  /-- Before it has got its replicated vote. -/
  joining : s.progress = .connecting ∨ s.progress = .getVote →
    SID_NULL ≤ s.sid ∧ s.sid.toNat ≤ 256 + i
  joined : s.progress ≠ .connecting → s.progress ≠ .getVote → SID_NULL < s.sid
  top : s.progress = .recovered → s.sid = r.top i
  slots : SlotsOk r s.ctrl s.latestHbReceived

/-- A posted write of slot `i`. -/
def PostOk (r : Record) (i : Nat) : RemoteWrite → Prop
  | .hb v => Heard r i v
  | .voteReq request => Requested r request.sid
  | .smRep reply => Known r reply.sid
  | .voteSid v => Known r v
  | .voteAck _ | .smReq => True

/-- More was done. -/
structure Record.Le (r r' : Record) : Prop where
  ballots : ∀ p, ∀ b ∈ r.ballots p, b ∈ r'.ballots p
  heard : ∀ p v, Heard r p v → Heard r' p v

theorem Known.mono (h : r.Le r') (hv : Known r v) : Known r' v := by
  rcases hv with hv | hv | hv
  · exact .inl hv
  · exact .inr (.inl hv)
  · exact .inr (.inr (h.ballots _ _ hv))

theorem Requested.mono (h : r.Le r') (hv : Requested r v) : Requested r' v := by
  rcases hv with hv | ⟨hl, hv⟩
  · exact .inl hv
  · exact .inr ⟨hl, h.ballots _ _ hv⟩

theorem SlotsOk.mono {c : CtrlData} {latest : UInt64} (h : r.Le r') (hs : SlotsOk r c latest) :
    SlotsOk r' c latest where
  hb := fun j => (hs.hb j).imp_right (h.heard j _)
  latest := hs.latest.mono h
  voteReq := fun j => (hs.voteReq j).mono h
  smRep := fun j => (hs.smRep j).mono h
  voteSid := fun j => (hs.voteSid j).mono h
  rsid := fun j => (hs.rsid j).mono h

theorem ServerOk.mono (h : r.Le r') (htop : r'.top i = r.top i) (hs : ServerOk r i s) :
    ServerOk r' i s :=
  ⟨hs.idx, hs.lt, hs.known.mono h, hs.joining, hs.joined, fun hrec => (hs.top hrec).trans htop.symm,
    hs.slots.mono h⟩

theorem PostOk.mono {w : RemoteWrite} (h : r.Le r') (hw : PostOk r i w) : PostOk r' i w := by
  cases w with
  | hb v => exact h.heard i v hw
  | voteReq request => exact Requested.mono h hw
  | smRep reply => exact Known.mono h hw
  | voteSid v => exact Known.mono h hw
  | voteAck commit => trivial
  | smReq => trivial

/-! ### What a function keeps -/

/-- The call of a function by the server in slot `i`, whose SID was `u` before. -/
structure ActOk (r : Record) (i : Nat) (u : UInt64) (o : Outcome) : Prop where
  le : u ≤ o.server.sid
  ok : ServerOk (r.act i o) i o.server
  ballots : ∀ b ∈ o.ballots, sidGetL b = false ∧ sidGetTerm (r.top i) < sidGetTerm b ∧
    b ≤ o.server.sid
  once : ∀ b ∈ o.ballots, ∀ b' ∈ o.ballots, sidGetTerm b = sidGetTerm b' → b = b'
  active : o.ballots ≠ [] → o.server.progress = .recovered
  top_le : o.server.progress = .recovered → r.top i ≤ o.server.sid
  posts : ∀ p ∈ o.posts, PostOk (r.act i o) i p.2.write

theorem act_top_self (hrec : o.server.progress = .recovered) (hle : r.top i ≤ o.server.sid) :
    (r.act i o).top i = o.server.sid := by
  simp only [Record.act, if_pos hrec, Function.update_self]
  split
  · rfl
  · rename_i hnot
    exact UInt64.le_antisymm hle (UInt64.not_lt.mp hnot)

theorem top_le_act (r : Record) (i j : Nat) (o : Outcome) : r.top j ≤ (r.act i o).top j := by
  simp only [Record.act]
  split
  · by_cases hj : j = i
    · rw [hj, Function.update_self]
      split
      · rename_i hlt
        exact UInt64.le_of_lt hlt
      · exact UInt64.le_refl _
    · rw [Function.update_of_ne hj]
      exact UInt64.le_refl _
  · exact UInt64.le_refl _

/-- New ballots have a higher term than anything the slot has done before. -/
theorem le_act (h : ∀ b ∈ o.ballots, sidGetTerm (r.top i) < sidGetTerm b) : r.Le (r.act i o) where
  ballots := by
    intro p b hb
    rw [act_ballots]
    by_cases hp : p = i
    · subst hp
      rw [Function.update_self]
      exact List.mem_append_left _ hb
    · rwa [Function.update_of_ne hp]
  heard := by
    intro p v hv
    refine ⟨?_, UInt64.le_trans hv.le_top (top_le_act r i p o), ?_⟩
    · rcases hv.known with hk | hk | hk
      · exact .inl hk
      · exact .inr (.inl hk)
      · refine .inr (.inr ?_)
        rw [act_ballots]
        by_cases hp : (sidGetIdx v).toNat = i
        · rw [hp, Function.update_self]
          exact List.mem_append_left _ (hp ▸ hk)
        · rwa [Function.update_of_ne hp]
    · intro b hb hidx hterm
      rw [act_ballots] at hb
      by_cases hp : p = i
      · subst hp
        rw [Function.update_self] at hb
        rcases List.mem_append.mp hb with hb | hb
        · exact hv.candidate b hb hidx hterm
        · -- the term of the heartbeat is lower
          have hlow := sidGetTerm_mono hv.le_top
          have hhigh := h b hb
          rw [hterm] at hhigh
          exact absurd hhigh (UInt64.not_lt.mpr hlow)
      · rw [Function.update_of_ne hp] at hb
        exact hv.candidate b hb hidx hterm

theorem ActOk.record_le (h : ActOk r i u o) : r.Le (r.act i o) :=
  le_act fun b hb => (h.ballots b hb).2.1

/-- What has been supported in a slot is below its highest SID. -/
def BallotsOk (r : Record) : Prop :=
  ∀ p, ∀ b ∈ r.ballots p, sidGetL b = false ∧ b ≤ r.top p

/-- A slot supports one SID in a term. -/
def BallotsOnce (r : Record) : Prop :=
  ∀ p, ∀ b ∈ r.ballots p, ∀ b' ∈ r.ballots p, sidGetTerm b = sidGetTerm b' → b = b'

/-- A server that is recovered may send its SID as a heartbeat. -/
theorem ServerOk.heard (h : ServerOk r i s) (hb : BallotsOk r) (hrec : s.progress = .recovered) :
    Heard r i s.sid where
  known := h.known
  le_top := (h.top hrec).symm ▸ UInt64.le_refl _
  candidate := fun b hmem _ _ => (h.top hrec).symm ▸ (hb i b hmem).2

/-- A function that ends with a recovered server. -/
theorem actOk_of (hidx : o.server.idx = i) (hi : i < MAX_SERVER_COUNT)
    (hrec : o.server.progress = .recovered) (htop : r.top i ≤ u) (hle : u ≤ o.server.sid)
    (hnull : SID_NULL < o.server.sid)
    (hballots : ∀ b ∈ o.ballots, sidGetL b = false ∧ sidGetTerm u < sidGetTerm b ∧
      b ≤ o.server.sid)
    (honce : ∀ b ∈ o.ballots, ∀ b' ∈ o.ballots, sidGetTerm b = sidGetTerm b' → b = b')
    (hknown : Known (r.act i o) o.server.sid)
    (hslots : SlotsOk (r.act i o) o.server.ctrl o.server.latestHbReceived)
    (hposts : ∀ p ∈ o.posts, PostOk (r.act i o) i p.2.write) : ActOk r i u o where
  le := hle
  ok := ⟨hidx, fun _ => hi, hknown, by simp [hrec], fun _ _ => hnull,
    fun _ => (act_top_self hrec (UInt64.le_trans htop hle)).symm, hslots⟩
  ballots := fun b hb => ⟨(hballots b hb).1,
    UInt64.lt_of_le_of_lt (sidGetTerm_mono htop) (hballots b hb).2.1, (hballots b hb).2.2⟩
  once := honce
  active := fun _ => hrec
  top_le := fun _ => UInt64.le_trans htop hle
  posts := hposts

/-- A function that ends with a server that is not recovered. -/
theorem actOk_joining (hrec : s'.progress ≠ .recovered) (hle : u ≤ s'.sid) (hok : ServerOk r i s')
    (hposts : ∀ p ∈ posts, PostOk r i p.2.write) : ActOk r i u ⟨s', posts, []⟩ := by
  have hr : r.Le (r.act i ⟨s', posts, []⟩) := le_act (by simp)
  refine ⟨hle, ⟨hok.idx, hok.lt, hok.known.mono hr, hok.joining, hok.joined,
    fun h => absurd h hrec, hok.slots.mono hr⟩, by simp, by simp, by simp, fun h => absurd h hrec, ?_⟩
  exact fun p hp => (hposts p hp).mono hr

/-- A function of a recovered server that supports nobody. -/
theorem ServerOk.acts (h : ServerOk r i s) (hrec : s.progress = .recovered)
    (hidx : s'.idx = s.idx) (hprogress : s'.progress = s.progress) (hle : s.sid ≤ s'.sid)
    (hknown : Known r s'.sid) (hslots : SlotsOk r s'.ctrl s'.latestHbReceived)
    (hposts : ∀ p ∈ posts, PostOk r i p.2.write) : ActOk r i s.sid ⟨s', posts, []⟩ := by
  have hr : r.Le (r.act i ⟨s', posts, []⟩) := le_act (by simp)
  have hnull := h.joined (by simp [hrec]) (by simp [hrec])
  exact actOk_of (hidx.trans h.idx) (h.lt (by simp [hrec])) (hprogress.trans hrec)
    ((h.top hrec).symm ▸ UInt64.le_refl _) hle (UInt64.lt_of_lt_of_le hnull hle) (by simp)
    (by simp) (hknown.mono hr) (hslots.mono hr) fun p hp => (hposts p hp).mono hr

theorem ActOk.addPosts {ballots : List UInt64} {posts' : List (Nat × Posted)}
    (h : ActOk r i u ⟨s', posts, ballots⟩)
    (hposts : ∀ p ∈ posts', PostOk (r.act i ⟨s', posts, ballots⟩) i p.2.write) :
    ActOk r i u ⟨s', posts ++ posts', ballots⟩ := by
  refine ⟨h.le, h.ok, h.ballots, h.once, h.active, h.top_le, fun p hp => ?_⟩
  rcases List.mem_append.mp hp with hp | hp
  · exact h.posts p hp
  · exact hposts p hp

/-- One function after another. -/
theorem act_act {o₁ o₂ : Outcome} (posts : List (Nat × Posted))
    (h₁ : o₁.server.progress = .recovered) (h₂ : o₂.server.progress = .recovered)
    (htop : r.top i ≤ o₁.server.sid) (hle : o₁.server.sid ≤ o₂.server.sid) :
    (r.act i o₁).act i o₂ = r.act i ⟨o₂.server, posts, o₁.ballots ++ o₂.ballots⟩ := by
  have htops : ((r.act i o₁).act i o₂).top =
      (r.act i ⟨o₂.server, posts, o₁.ballots ++ o₂.ballots⟩).top := by
    funext j
    by_cases hj : j = i
    · subst hj
      have hfirst := act_top_self h₁ htop
      rw [act_top_self h₂ (hfirst.symm ▸ hle)]
      exact (act_top_self (o := ⟨o₂.server, posts, o₁.ballots ++ o₂.ballots⟩) h₂
        (UInt64.le_trans htop hle)).symm
    · rw [act_top_of_ne _ _ hj, act_top_of_ne _ _ hj, act_top_of_ne _ _ hj]
  have hballots : ((r.act i o₁).act i o₂).ballots =
      (r.act i ⟨o₂.server, posts, o₁.ballots ++ o₂.ballots⟩).ballots := by
    simp [Function.update_idem, List.append_assoc]
  cases hact : (r.act i o₁).act i o₂
  cases hact' : r.act i ⟨o₂.server, posts, o₁.ballots ++ o₂.ballots⟩
  rw [hact, hact'] at htops hballots
  simp only at htops hballots
  rw [htops, hballots]

/-- A function that goes on with another one. -/
theorem ActOk.trans {o₁ o₂ : Outcome} (h₁ : ActOk r i u o₁)
    (hrec : o₁.server.progress = .recovered) (h₂ : ActOk (r.act i o₁) i o₁.server.sid o₂)
    (hrec' : o₂.server.progress = .recovered) :
    ActOk r i u ⟨o₂.server, o₁.posts ++ o₂.posts, o₁.ballots ++ o₂.ballots⟩ := by
  have htop := h₁.top_le hrec
  have hsame := act_act (o₁.posts ++ o₂.posts) hrec hrec' htop h₂.le
  refine ⟨UInt64.le_trans h₁.le h₂.le, ?_, ?_, ?_, fun _ => hrec', fun _ => UInt64.le_trans htop h₂.le, ?_⟩
  · rw [← hsame]
    exact h₂.ok
  · intro b hb
    rcases List.mem_append.mp hb with hb | hb
    · obtain ⟨hl, hterm, hle⟩ := h₁.ballots b hb
      exact ⟨hl, hterm, UInt64.le_trans hle h₂.le⟩
    · obtain ⟨hl, hterm, hle⟩ := h₂.ballots b hb
      refine ⟨hl, UInt64.lt_of_le_of_lt (sidGetTerm_mono ?_) hterm, hle⟩
      exact top_le_act r i i o₁
  · -- the ballots of the second function have a higher term
    have hlater : ∀ b ∈ o₁.ballots, ∀ b' ∈ o₂.ballots, sidGetTerm b < sidGetTerm b' := by
      intro b hb b' hb'
      have hlow := sidGetTerm_mono (h₁.ballots b hb).2.2
      have hhigh := (h₂.ballots b' hb').2.1
      rw [act_top_self hrec htop] at hhigh
      exact UInt64.lt_of_le_of_lt hlow hhigh
    intro b hb b' hb' heq
    rcases List.mem_append.mp hb with hb | hb <;> rcases List.mem_append.mp hb' with hb' | hb'
    · exact h₁.once b hb b' hb' heq
    · exact absurd (hlater b hb b' hb') (heq ▸ UInt64.lt_irrefl _)
    · exact absurd (hlater b' hb' b hb) (heq ▸ UInt64.lt_irrefl _)
    · exact h₂.once b hb b' hb' heq
  · intro p hp
    rw [← hsame]
    rcases List.mem_append.mp hp with hp | hp
    · exact (h₁.posts p hp).mono h₂.record_le
    · exact h₂.posts p hp

/-! ### Elections -/

theorem actOk_startElection (hidx : s.idx = i) (hi : i < MAX_SERVER_COUNT)
    (hrec : s.progress = .recovered) (htop : r.top i ≤ s.sid)
    (hslots : SlotsOk r s.ctrl s.latestHbReceived) (hlow : TermLow s.sid)
    (ho : s.startElection = some o) : ActOk r i s.sid o ∧ o.server.progress = .recovered := by
  have hg := grows_startElection (Q := fun _ => True) hlow ho
  obtain ⟨request, hsid, -, hballots, hposts, hserver⟩ := startElection_eq ho
  obtain ⟨hl, hown, hnext, hlt⟩ := candidateSid_spec hlow
  have hnew : o.server.sid = s.candidateSid := by rw [hserver]; rfl
  have hrec' : o.server.progress = .recovered := by rw [hserver]; exact hrec
  have hterm : sidGetTerm s.sid < sidGetTerm s.candidateSid := by
    rw [UInt64.lt_iff_toNat_lt]
    omega
  -- the new ballot is above those before
  have hr : r.Le (r.act i o) := le_act fun b hb => by
    rw [hballots, List.mem_singleton] at hb
    rw [hb]
    exact UInt64.lt_of_le_of_lt (sidGetTerm_mono htop) hterm
  have hmem : s.candidateSid ∈ (r.act i o).ballots (sidGetIdx s.candidateSid).toNat := by
    rw [hown, hidx, toNat_ofNat_of_lt hi, act_ballots, Function.update_self, hballots]
    exact List.mem_append_right _ (List.mem_singleton.mpr rfl)
  have hrequest : Requested (r.act i o) request.sid := .inr ⟨hsid ▸ hl, hsid ▸ hmem⟩
  have hold := hslots.mono hr
  refine ⟨actOk_of (hg.idx.trans hidx) hi hrec' htop hg.le ?_ ?_ (by simp [hballots]) (hnew.symm ▸ .inr (.inr hmem)) ?_ ?_,
    hrec'⟩
  · rw [hnew, UInt64.lt_iff_toNat_lt, sidNull_toNat, toNat_candidateSid hlow]
    omega
  · intro b hb
    rw [hballots, List.mem_singleton] at hb
    exact ⟨hb ▸ hl, hb ▸ hterm, by rw [hb, hnew]; exact UInt64.le_refl _⟩
  · rw [hserver]
    refine ⟨hold.hb, hold.latest, fun j => ?_, hold.smRep, hold.voteSid, hold.rsid⟩
    -- the own slot has the new request, the others keep theirs
    by_cases hj : j = s.idx
    · simp only [hj, Function.update_self]
      exact hrequest
    · simp only [Function.update_of_ne hj]
      exact hold.voteReq j
  · intro p hp
    rw [hposts p hp]
    exact hrequest

/-- A function of a recovered server that goes on with `start_election`. -/
theorem ActOk.thenElection (h : ActOk r i u ⟨s', posts, []⟩) (hrec : s'.progress = .recovered)
    (hlow : TermLow s'.sid) (ho : s'.thenElection posts = some o) : ActOk r i u o := by
  obtain ⟨o', ho', rfl⟩ := Option.map_eq_some_iff.mp ho
  have hi : i < MAX_SERVER_COUNT := h.ok.lt (by simp [hrec])
  have htop : (r.act i ⟨s', posts, []⟩).top i ≤ s'.sid := by
    rw [act_top_self hrec (h.top_le hrec)]
    exact UInt64.le_refl _
  obtain ⟨hact, hrec'⟩ := actOk_startElection h.ok.idx hi hrec htop h.ok.slots hlow ho'
  exact h.trans hrec hact hrec'

theorem ActOk.ackOrElect (h : ActOk r i u ⟨s', posts, []⟩) (hrec : s'.progress = .recovered)
    (hlow : TermLow s'.sid) (ho : s'.ackOrElect ackFails posts = some o) : ActOk r i u o := by
  have hack : ActOk r i u ⟨s', posts ++ s'.sendVoteAck, []⟩ := by
    refine h.addPosts fun p hp => ?_
    rw [Server.sendVoteAck] at hp
    split at hp
    · rw [List.mem_singleton.mp hp]
      trivial
    · cases hp
  rw [Server.ackOrElect] at ho
  split at ho
  · exact hack.thenElection hrec hlow ho
  · cases ho
    exact hack

theorem ActOk.toFollower (h : ActOk r i u ⟨s', posts, []⟩) (hrec : s'.progress = .recovered)
    (hlow : TermLow s'.sid) (ho : s'.toFollower ackFails posts = some o) : ActOk r i u o := by
  have hfollower : ActOk r i u ⟨{ s' with sendsHb := false }, posts, []⟩ :=
    ⟨h.le, ⟨h.ok.idx, h.ok.lt, h.ok.known, h.ok.joining, h.ok.joined, h.ok.top, h.ok.slots⟩,
      h.ballots, h.once, h.active, h.top_le, h.posts⟩
  rw [Server.toFollower] at ho
  split at ho
  · exact hfollower.ackOrElect hrec hlow ho
  · cases ho
    exact hfollower

/-! ### The functions of a recovered server -/

theorem SlotsOk.clear {c : CtrlData} {latest latest' : UInt64} {hb : Nat → UInt64}
    (h : SlotsOk r c latest) (hclear : Cleared c.hb hb) (hlatest : Known r latest') :
    SlotsOk r { c with hb := hb } latest' := by
  refine ⟨fun j => ?_, hlatest, h.voteReq, h.smRep, h.voteSid, h.rsid⟩
  rcases hclear j with heq | heq
  · exact .inl heq
  · show hb j = 0 ∨ Heard r j (hb j)
    rw [heq]
    exact h.hb j

theorem actOk_hbReceive (h : ServerOk r i s) (hb : BallotsOk r) (hrec : s.progress = .recovered)
    (hlow : s.TermsLow) (ho : s.hbReceive ackFails = some o) : ActOk r i s.sid o := by
  rcases hbReceive_cases ho with rfl | ⟨scan, hscan, ho⟩
  · exact h.acts hrec rfl rfl (UInt64.le_refl _) h.known h.slots (by simp)
  · have hposts : ∀ p ∈ scan.posts, PostOk r i p.2.write := by
      intro p hp
      rw [hscan.posts p hp]
      exact h.heard hb hrec
    have hlatest : Known r scan.latest := by
      rcases hscan.latest with heq | heq <;> rw [heq]
      · exact known_zero r
      · exact h.slots.latest
    have hslots := h.slots.clear hscan.hb hlatest
    have hkeep : ActOk r i s.sid ⟨s.scanned scan, scan.posts, []⟩ :=
      h.acts hrec rfl rfl (UInt64.le_refl _) h.known hslots hposts
    have hknown : Known r scan.newSid := by
      rcases hscan.newSid with heq | ⟨hl, -⟩
      · exact heq ▸ h.known
      · exact .inr (.inl hl)
    have hnew : ActOk r i s.sid ⟨(s.scanned scan).setSid scan.newSid, scan.posts, []⟩ :=
      h.acts hrec rfl rfl hscan.le hknown
        ⟨hslots.hb, hslots.latest, hslots.voteReq, hslots.smRep, hslots.voteSid, hslots.rsid⟩ hposts
    rcases ho with ho | rfl | ho | rfl
    · exact hkeep.thenElection hrec hlow.1 ho
    · exact hkeep
    · exact hnew.toFollower hrec (hscan.low hlow) ho
    · exact hnew

theorem actOk_hbSend (h : ServerOk r i s) (hb : BallotsOk r) (hrec : s.progress = .recovered)
    (hlow : TermLow s.sid) (ho : s.hbSend ackFails = some o) : ActOk r i s.sid o := by
  have hclear := hbSendScan_cleared s (List.range s.size) (cleared_refl s.ctrl.hb)
  have hslots := h.slots.clear hclear h.slots.latest
  rw [Server.hbSend] at ho
  split at ho
  · have hkeep : ActOk r i s.sid ⟨{ s with ctrl := { s.ctrl with
        hb := (s.hbSendScan (List.range s.size) s.ctrl.hb).1 } }, [], []⟩ :=
      h.acts hrec rfl rfl (UInt64.le_refl _) h.known hslots (by simp)
    exact hkeep.toFollower hrec hlow ho
  · cases ho
    refine h.acts hrec rfl rfl (UInt64.le_refl _) h.known hslots fun p hp => ?_
    obtain ⟨j, -, rfl⟩ := List.mem_map.mp hp
    exact h.heard hb hrec

theorem actOk_toAdjust (h : ServerOk r i s) (hrec : s.progress = .recovered) :
    ActOk r i s.sid s.toAdjust.done := by
  have hclear := (cleared_refl s.ctrl.hb).update (sidGetIdx s.sid).toNat
  rw [Server.toAdjust]
  dsimp only
  split
  · rename_i hne
    refine h.acts hrec rfl rfl (UInt64.le_refl _) h.known (h.slots.clear hclear ?_) (by simp)
    exact ((h.slots.hb _).resolve_left hne).known
  · exact h.acts hrec rfl rfl (UInt64.le_refl _) h.known (h.slots.clear hclear h.slots.latest)
      (by simp)

theorem actOk_pollVoteCount (h : ServerOk r i s) (hrec : s.progress = .recovered) :
    ActOk r i s.sid s.pollVoteCount.done := by
  have hs := h.slots
  have hslots (v : UInt64) : SlotsOk r { s.ctrl with sid := v } s.latestHbReceived :=
    ⟨hs.hb, hs.latest, hs.voteReq, hs.smRep, hs.voteSid, hs.rsid⟩
  rw [Server.pollVoteCount]
  dsimp only
  split
  · exact h.acts hrec rfl rfl (le_sidSetL s.sid) (.inr (.inl (sidGetL_sidSetL s.sid)))
      (hslots (sidSetL s.sid)) (by simp)
  · exact h.acts hrec rfl rfl (UInt64.le_refl _) h.known h.slots (by simp)

theorem actOk_pollSmRequests (h : ServerOk r i s) (hrec : s.progress = .recovered)
    (mem : UInt64 × UInt32 × UInt32) : ActOk r i s.sid (s.pollSmRequests mem) := by
  have hs := h.slots
  refine h.acts hrec rfl rfl (UInt64.le_refl _) h.known
    ⟨hs.hb, hs.latest, hs.voteReq, fun j => ?_, hs.voteSid, hs.rsid⟩ fun p hp => ?_
  · dsimp only
    split
    · exact hs.smRep j
    · by_cases hj : j = s.idx
      · rw [hj, Function.update_self]
        exact h.known
      · rw [Function.update_of_ne hj]
        exact hs.smRep j
  · obtain ⟨j, -, rfl⟩ := List.mem_map.mp hp
    exact h.known

theorem actOk_verifyLeadership {a : (Nat → Int) × Bool} (h : ServerOk r i s)
    (hrec : s.progress = .recovered) (hlow : TermLow s.sid) (hrsid : ∀ j < s.size, TermLow (s.ctrl.rsid j))
    (ho : s.verifyLeadership a ackFails = some o) : ActOk r i s.sid o := by
  obtain ⟨hle, hfrom⟩ := betterLeader_spec s a.1
  have hs := h.slots
  rw [Server.verifyLeadership] at ho
  split at ho
  · have hknown : Known r (s.betterLeader a.1) := by
      rcases hfrom with heq | ⟨hl, -⟩
      · exact heq ▸ h.known
      · exact .inr (.inl hl)
    have hnew : ActOk r i s.sid ⟨s.setSid (s.betterLeader a.1), [], []⟩ :=
      h.acts hrec rfl rfl hle hknown
        ⟨hs.hb, hs.latest, hs.voteReq, hs.smRep, hs.voteSid, hs.rsid⟩ (by simp)
    refine hnew.toFollower hrec ?_ ho
    show TermLow (s.betterLeader a.1)
    rcases hfrom with heq | ⟨-, k, hk, heq⟩ <;> rw [heq]
    · exact hlow
    · exact hrsid k hk
  · cases ho
    exact h.acts hrec rfl rfl (UInt64.le_refl _) h.known h.slots (by simp)

/-! ### Voters -/

theorem Dropped.requested {q q' : Nat → VoteReq} (h : Dropped q q')
    (hq : ∀ j, Requested r (q j).sid) (j : Nat) : Requested r (q' j).sid := by
  rcases h j with heq | heq <;> rw [heq]
  · exact hq j
  · exact .inl rfl

/-- The heartbeat that `poll_vote_requests` takes is not below the SID. -/
theorem ServerOk.not_lowHb (h : ServerOk r i s) (hrec : s.progress = .recovered) : ¬s.LowHb := by
  rintro ⟨hl, hne, hterm, hlt⟩
  have hheard := (h.slots.hb _).resolve_left hne
  have hnull := h.joined (by simp [hrec]) (by simp [hrec])
  exact absurd hlt (UInt64.not_lt.mpr (hheard.le_of_vote h.known hl hnull hterm))

theorem SlotsOk.noL {c : CtrlData} {latest : UInt64} (h : SlotsOk r c latest) (j : Nat) :
    sidGetL (c.voteReq j).sid = false := by
  rcases h.voteReq j with heq | ⟨hl, -⟩
  · rw [heq]
    exact sidGetL_zero
  · exact hl

theorem actOk_ignore (h : ServerOk r i s) (hrec : s.progress = .recovered)
    (hpoll : s.pollVoteRequests = some (.ignore s')) : ActOk r i s.sid s'.done := by
  have hg := grows_ignore (Q := fun _ => True) (h.not_lowHb hrec) hpoll
  have hs := h.slots
  rcases pollVoteRequests_cases hpoll with ⟨q, hdrop, heq⟩ | ⟨hl, hne, hterm, heq⟩ |
    ⟨q, term, j, -, -, -, -, -, heq⟩ | ⟨q, j, -, -, -, -, heq⟩
  · cases heq
    exact h.acts hrec rfl rfl hg.le h.known
      ⟨hs.hb, hs.latest, hdrop.requested hs.voteReq, hs.smRep, hs.voteSid, hs.rsid⟩ (by simp)
  · cases heq
    exact h.acts hrec rfl rfl hg.le ((hs.hb _).resolve_left hne).known
      ⟨hs.hb, hs.latest, hs.voteReq, hs.smRep, hs.voteSid, hs.rsid⟩ (by simp)
  · cases heq
  · cases heq

theorem actOk_raise (h : ServerOk r i s) (hrec : s.progress = .recovered)
    (hpoll : s.pollVoteRequests = some (.raise s')) : ActOk r i s.sid ⟨s', [], [s'.sid]⟩ := by
  obtain ⟨hg, hterm⟩ := grows_raise (Q := fun _ => True) hpoll h.slots.noL
  have hi : i < MAX_SERVER_COUNT := h.lt (by simp [hrec])
  have htop := h.top hrec
  have hnull := h.joined (by simp [hrec]) (by simp [hrec])
  rcases pollVoteRequests_cases hpoll with ⟨q, -, heq⟩ | ⟨-, -, -, heq⟩ |
    ⟨q, term, j, hl, hdrop, -, -, hbound, heq⟩ | ⟨q, j, -, -, -, -, heq⟩
  · cases heq
  · cases heq
  · cases heq
    obtain ⟨hl', hown, -⟩ := raise_spec hl hbound
    generalize hv : sidSetIdx (sidSetTerm s.sid term) (UInt8.ofNat s.idx) = v at *
    have hr : r.Le (r.act i ⟨{ s with ctrl := { s.ctrl with voteReq := q, sid := v } }, [], [v]⟩) :=
      le_act fun b hb => by
        rw [List.mem_singleton.mp hb, ← htop]
        exact hterm
    have hs := h.slots.mono hr
    refine actOk_of h.idx hi hrec (htop ▸ UInt64.le_refl _) hg.le (UInt64.lt_of_lt_of_le hnull hg.le)
      (fun b hb => ?_) (by simp) (.inr (.inr ?_))
      ⟨hs.hb, hs.latest, hdrop.requested hs.voteReq, hs.smRep, hs.voteSid, hs.rsid⟩ (by simp)
    · rw [List.mem_singleton.mp hb]
      exact ⟨hl', hterm, UInt64.le_refl _⟩
    · show v ∈ (r.act i _).ballots (sidGetIdx v).toNat
      rw [hown, h.idx, toNat_ofNat_of_lt hi, act_ballots, Function.update_self]
      exact List.mem_append_right _ (List.mem_singleton.mpr rfl)
  · cases heq

/-- A vote, up to its replication. -/
theorem actOk_vote {best : VoteReq} {cid : DareCid} (h : ServerOk r i s)
    (hrec : s.progress = .recovered) (hpoll : s.pollVoteRequests = some (.vote s' best))
    {voter : Server} (hcid : s'.updateCid cid = some voter) :
    ActOk r i s.sid ⟨voter.replicateVote.1, voter.replicateVote.2, [best.sid]⟩ := by
  obtain ⟨hg, hterm, hsid, j, -, hbest⟩ := pollVoteRequests_vote (Q := fun _ => True) hpoll h.slots.noL
  obtain ⟨cid', connected, -, rfl⟩ := updateCid_eq hcid
  have hi : i < MAX_SERVER_COUNT := h.lt (by simp [hrec])
  have htop := h.top hrec
  have hnull := h.joined (by simp [hrec]) (by simp [hrec])
  have hle : s.sid ≤ best.sid := UInt64.le_of_lt (lt_of_sidGetTerm_lt hterm)
  have hknown : Known r best.sid := hbest ▸ (h.slots.voteReq j).known
  have hl : sidGetL best.sid = false := hbest ▸ h.slots.noL j
  rcases pollVoteRequests_cases hpoll with ⟨q, -, heq⟩ | ⟨-, -, -, heq⟩ |
    ⟨q, term, j, -, -, -, -, -, heq⟩ | ⟨q, k, -, -, hdrop, -, heq⟩
  · cases heq
  · cases heq
  · cases heq
  · cases heq
    generalize hv : (s.ctrl.voteReq k).sid = v at *
    generalize ho : (⟨_, _, [v]⟩ : Outcome) = o
    have hballots : o.ballots = [v] := by rw [← ho]
    have hr : r.Le (r.act i o) := le_act fun b hb => by
      rw [hballots, List.mem_singleton] at hb
      rw [hb, ← htop]
      exact hterm
    have hs := h.slots.mono hr
    have hknown' := hknown.mono hr
    rw [← ho] at hknown' hs ⊢
    refine actOk_of h.idx hi hrec (htop ▸ UInt64.le_refl _) hle (UInt64.lt_of_lt_of_le hnull hle)
      (fun b hb => ?_) (by simp) hknown'
      ⟨hs.hb, hs.latest, hdrop.requested hs.voteReq, hs.smRep, fun a => ?_, hs.rsid⟩ fun p hp => ?_
    · rw [List.mem_singleton.mp hb]
      exact ⟨hl, hterm, UInt64.le_refl _⟩
    · by_cases ha : a = s.idx
      · simp only [ha, Server.replicateVote, Function.update_self]
        exact hknown'
      · simp only [Server.replicateVote, Function.update_of_ne ha]
        exact hs.voteSid a
    · obtain ⟨b, -, rfl⟩ := List.mem_map.mp hp
      exact hknown'

/-! ### A server that joins -/

/-- The SID that a server that joins starts over with. -/
theorem setUpSid_spec (hidx : s.idx = i) (hi : i < MAX_SERVER_COUNT) :
    sidGetL s.setUpSid.sid = true ∧ SID_NULL < s.setUpSid.sid ∧ s.setUpSid.sid.toNat = 256 + i := by
  have hnat := toNat_setUpSid s
  rw [hidx, toNat_ofNat_of_lt hi] at hnat
  have hmax : MAX_SERVER_COUNT = 13 := rfl
  refine ⟨?_, ?_, hnat⟩
  · rw [sidGetL_iff]
    omega
  · rw [UInt64.lt_iff_toNat_lt, sidNull_toNat]
    omega

/-- Before it has got its vote, the SID of a server is not above the one it starts over with. -/
theorem ServerOk.le_setUpSid (h : ServerOk r i s) (hprog : s.progress = .getVote) :
    s.sid ≤ s.setUpSid.sid := by
  have hi : i < MAX_SERVER_COUNT := h.lt (by simp [hprog])
  obtain ⟨-, hle⟩ := h.joining (.inr hprog)
  rw [UInt64.le_iff_toNat_le, (setUpSid_spec h.idx hi).2.2]
  exact hle

/-- The progress of a server that has set up its SID. -/
theorem ServerOk.setUp {v : UInt64} {rsid : Nat → UInt64} (h : ServerOk r i s)
    (hprog : s.progress = .getVote) (hv : s.setUpSid.sid ≤ v) (hknown : Known r v)
    (hrsid : ∀ j, Known r (rsid j)) : ActOk r i s.sid
      ⟨{ s with ctrl := { s.ctrl with sid := v, rsid := rsid }, progress := .sendSmRequest }, [], []⟩ := by
  have hi : i < MAX_SERVER_COUNT := h.lt (by simp [hprog])
  have hs := h.slots
  refine actOk_joining (by simp) (UInt64.le_trans (h.le_setUpSid hprog) hv)
    ⟨h.idx, fun _ => hi, hknown, by simp, fun _ _ => ?_, by simp,
      ⟨hs.hb, hs.latest, hs.voteReq, hs.smRep, hs.voteSid, hrsid⟩⟩ (by simp)
  exact UInt64.lt_of_lt_of_le (setUpSid_spec h.idx hi).2.1 hv

theorem actOk_getReplicatedVote {rsid : Nat → UInt64} (h : ServerOk r i s)
    (hprog : s.progress = .getVote) (hrsid : ∀ j, Known r (rsid j)) (a : (Nat → Int) × Bool) :
    ActOk r i s.sid (({ s.setUpSid with ctrl := { s.setUpSid.ctrl with rsid := rsid } } : Server)
      |>.getReplicatedVote a).done := by
  have hi : i < MAX_SERVER_COUNT := h.lt (by simp [hprog])
  obtain ⟨hl, hnull, hnat⟩ := setUpSid_spec h.idx hi
  have hs := h.slots
  have hnot : s.progress ≠ .recovered := by simp [hprog]
  generalize hjoin : ({ s.setUpSid with ctrl := { s.setUpSid.ctrl with rsid := rsid } } : Server) = join
  have hok : ServerOk r i join := by
    rw [← hjoin]
    exact ⟨h.idx, fun _ => hi, .inr (.inl hl), fun _ => ⟨UInt64.le_of_lt hnull, Nat.le_of_eq hnat⟩,
      fun _ hne => absurd hprog hne, fun hrec => absurd hrec hnot,
      ⟨hs.hb, hs.latest, hs.voteReq, hs.smRep, hs.voteSid, hrsid⟩⟩
  have hsid : join.sid = s.setUpSid.sid := by rw [← hjoin]; rfl
  rcases getReplicatedVote_cases join a with heq | ⟨v, rsid', heq, hv, hclear, -⟩
  · rw [heq]
    refine actOk_joining ?_ (hsid ▸ h.le_setUpSid hprog) hok (by simp)
    rw [← hjoin]
    exact hnot
  · rw [heq, ← hjoin]
    rw [← hjoin] at hv hclear
    refine h.setUp hprog ?_ ?_ fun j => ?_
    · rcases hv with rfl | ⟨hlt, -⟩
      · exact UInt64.le_refl _
      · exact UInt64.le_of_lt hlt
    · rcases hv with rfl | ⟨-, k, rfl⟩
      · exact .inr (.inl hl)
      · exact hrsid k
    · rcases hclear j with heq' | heq'
      · exact heq' ▸ known_zero r
      · exact heq' ▸ hrsid j

theorem actOk_sendSmRequest (h : ServerOk r i s) (hprog : s.progress = .sendSmRequest) :
    ActOk r i s.sid s.sendSmRequest := by
  have hs := h.slots
  refine actOk_joining (fun hrec => ?_) (UInt64.le_refl _)
    ⟨h.idx, h.lt, h.known, h.joining, h.joined, h.top,
      ⟨hs.hb, hs.latest, hs.voteReq, hs.smRep, hs.voteSid, hs.rsid⟩⟩ fun p hp => ?_
  · have hrec' : s.progress = .recovered := hrec
    rw [hprog] at hrec'
    cases hrec'
  · obtain ⟨j, -, rfl⟩ := List.mem_map.mp hp
    trivial

theorem actOk_pollSmReply (h : ServerOk r i s) (hrec : s.progress ≠ .recovered)
    (hprog : s.progress ≠ .connecting)
    (hgood : s.progress = .getVote → ∀ target < s.size, s.smReplyGood target = false) (recovered : Bool) :
    ActOk r i s.sid (s.pollSmReply recovered).done := by
  have hs := h.slots
  rcases pollSmReply_cases s recovered with heq |
    ⟨target, smRep, progress, hin, htarget, heq, hreply⟩
  · rw [heq]
    exact actOk_joining hrec (UInt64.le_refl _) h (by simp)
  · have hvote : s.progress ≠ .getVote := by
      intro hp
      rw [hgood hp target hin] at htarget
      cases htarget
    have hlt := lt_of_smReplyGood htarget
    have hi := h.lt hprog
    have hprogress : progress ≠ .recovered ∧ progress ≠ .connecting ∧ progress ≠ .getVote := by
      rcases hreply with ⟨-, rfl⟩ | ⟨-, rfl⟩
      · exact ⟨hrec, hprog, hvote⟩
      · simp
    have hsmRep : ∀ j, Known r (smRep j).sid := by
      rcases hreply with ⟨rfl, -⟩ | ⟨rfl, -⟩
      · exact hs.smRep
      · exact fun _ => known_zero r
    rw [heq]
    refine actOk_joining hprogress.1 (UInt64.le_of_lt hlt)
      ⟨h.idx, fun _ => hi, hs.smRep target, fun hp => ?_, fun _ _ => ?_,
        fun hp => absurd hp hprogress.1,
        ⟨hs.hb, hs.latest, hs.voteReq, hsmRep, hs.voteSid, hs.rsid⟩⟩ (by simp)
    · rcases hp with hp | hp
      · exact absurd hp hprogress.2.1
      · exact absurd hp hprogress.2.2
    · exact UInt64.lt_trans (h.joined hprog hvote) hlt

theorem actOk_recoverLog (h : ServerOk r i s) (hprog : s.progress = .recoverLog)
    (htop : r.top i ≤ s.sid) (hlow : TermLow s.sid) (ho : s.recoverLog ackFails = some o) :
    ActOk r i s.sid o := by
  have hi : i < MAX_SERVER_COUNT := h.lt (by simp [hprog])
  have hnull := h.joined (by simp [hprog]) (by simp [hprog])
  rw [Server.recoverLog] at ho
  split at ho
  · exact (actOk_startElection (s := { s with progress := .recovered }) h.idx hi rfl htop h.slots hlow
      ho).1
  · have hr : r.Le (r.act i ⟨{ s with progress := .recovered }, [], []⟩) := le_act (by simp)
    have hkeep : ActOk r i s.sid ⟨{ s with progress := .recovered }, [], []⟩ :=
      actOk_of h.idx hi rfl htop (UInt64.le_refl _) hnull (by simp) (by simp) (h.known.mono hr)
        (h.slots.mono hr) (by simp)
    exact hkeep.toFollower rfl hlow ho

end Apus
