import Apus.Commit.Invariant

namespace Apus

open Lib

/-!
# The runs of commit and apply

The invariant of the runs (`ReplInv`) puts the two logs and the writes between them together; each
step keeps it, and it gives the property (`AppliesAcked`).

It does so in the runs that meet `replOk`: no append ends exactly at the buffer end, and the loop
over the not committed entries does not stop at an entry that was moved past the buffer end because
no header fits there.  In the first case no offset of the log is larger than another; in the second
the commit offset becomes `0`, and the apply loops, which are still before the buffer end, go past
the entry at `0`.
-/

/-- The steps that do not reach the defects. -/
def replOk (s : ReplState) : ReplLabel → Prop
  | .append _ _ _ type data => endAfterAppend s.leader.log type data ≠ s.leader.log.len
  | .update _ =>
    CommitOkFrom s.leader.log s.leader.idx (commitSize s.leader.cid) s.leader.log.commit
  | .applyLeader => ∀ entry, logGetEntry s.leader.log s.leader.log.apply = some entry →
      logFitEntry s.leader.log entry entry = true →
      isUnstableConfig s.leader.cid (readEntry s.leader.log.entries entry) = true →
      endAfterAppend s.leader.log CONFIG
        { cid := nextCid s.leader.cid (readEntry s.leader.log.entries entry).cid.state } ≠
        s.leader.log.len
  | _ => True

/-- What the leader knows about a follower at the stage `g`, which will be at `v`. -/
structure Phase (s : ReplState) (hist : List DareLogEntry) (g v : Stage) : Prop where
  signaled : s.sendFlag = true → ∀ w ∈ s.posted, w.isSignaled = false
  updateLog : s.nextLrStep = .updateLog →
    s.remoteEnd = logPos s.leader.log hist v.ended % s.leader.log.len ∧ v.ended = g.ended ∧
      (s.sendFlag = false →
        s.cachedEndOffset = logPos s.leader.log hist v.stored % s.leader.log.len)
  updateEnd : s.nextLrStep = .updateEnd →
    s.cachedEndOffset = logPos s.leader.log hist g.stored % s.leader.log.len ∧
      v.stored = g.stored ∧
      (s.sendFlag = false → s.remoteEnd = logPos s.leader.log hist v.ended % s.leader.log.len)

/-- The invariant: the spots of the leader's `head`, apply and commit offset are `h`, `a` and `k`,
    that of the follower's apply offset is `fa`. -/
structure ReplInv (s : ReplState) (hist : List DareLogEntry) (h a k fa : Spot) (g v : Stage) :
    Prop where
  leader : LeaderInv s.leader.log hist h a k
  follower : FollowerInv s.follower hist fa g
  len : s.follower.len = s.leader.log.len
  head_le : h.pos ≤ fa.pos
  lands : Lands s.leader.log.len hist g s.posted v
  commit_le : v.commit.pos ≤ k.pos
  commitCount : v.commit.count ≤ k.count
  phase : Phase s hist g v
  acked : ∀ p ∈ s.passed, p.Acked
  passed : s.passed.map Pass.entry = hist.take k.count
  leaderApplied : s.leaderApplied = hist.take a.count
  followerApplied : s.followerApplied = hist.take fa.count

variable {s s' : ReplState} {hist fs : List DareLogEntry} {h a k fa : Spot} {g v : Stage}

/-! ### The property -/

theorem Phase.extend {l' : Leader} {ps : List Pass} {es : List DareLogEntry}
    (hp : Phase s hist g v) (hlen : l'.log.len = s.leader.log.len) (hv : v.ended ≤ v.stored)
    (hvs : v.stored ≤ hist.length) :
    Phase { s with leader := l', passed := ps, leaderApplied := es } (hist ++ fs) g v := by
  refine ⟨hp.signaled, fun hstep => ?_, fun hstep => ?_⟩
  · obtain ⟨hend, heq, hcached⟩ := hp.updateLog hstep
    simp only [logPos, hlen, pos_append hvs, pos_append (le_trans hv hvs)]
    exact ⟨hend, heq, hcached⟩
  · obtain ⟨hcached, heq, hend⟩ := hp.updateEnd hstep
    simp only [logPos, hlen, ← heq, pos_append hvs, pos_append (le_trans hv hvs)]
    rw [← heq] at hcached
    exact ⟨hcached, trivial, hend⟩

/-- A step of the leader that does not touch the writes. -/
theorem ReplInv.ofLeader {h' a' k' : Spot} (hi : ReplInv s hist h a k fa g v) (l' : Leader)
    (ps : List Pass) (es : List DareLogEntry) (hl : LeaderInv l'.log (hist ++ fs) h' a' k')
    (hlen : l'.log.len = s.leader.log.len) (hhead : h'.pos ≤ fa.pos) (hpos : k.pos ≤ k'.pos)
    (hcount : k.count ≤ k'.count) (hacked : ∀ p ∈ ps, p.Acked)
    (hpassed : ps.map Pass.entry = (hist ++ fs).take k'.count)
    (happlied : es = (hist ++ fs).take a'.count) :
    ReplInv { s with leader := l', passed := ps, leaderApplied := es } (hist ++ fs) h' a' k' fa g v
    where
  leader := hl
  follower := hi.follower.extend
  len := hi.len.trans hlen.symm
  head_le := hhead
  lands := by
    show Lands l'.log.len _ _ _ _
    rw [hlen]
    exact hi.lands.extend hi.follower.ended_le hi.follower.stored_le
  commit_le := le_trans hi.commit_le hpos
  commitCount := le_trans hi.commitCount hcount
  phase := by
    obtain ⟨-, -, hv, -, -⟩ := hi.lands.mono hi.follower.ended_le
    exact hi.phase.extend hlen hv (hi.lands.stored_le hi.follower.ended_le hi.follower.stored_le)
  acked := hacked
  passed := hpassed
  leaderApplied := happlied
  followerApplied := by
    have hcounts := hi.follower.offsets.count_le
    have h1 := hi.follower.commitCount
    have h2 := hi.follower.ended_le
    have h3 := hi.follower.stored_le
    rw [List.take_append_of_le_length (by omega)]
    exact hi.followerApplied

/-- The invariant of some history. -/
def ReplSafe (s : ReplState) : Prop := ∃ hist h a k fa g v, ReplInv s hist h a k fa g v

/-- The invariant of a given history. -/
def SafeWith (s : ReplState) (hist : List DareLogEntry) : Prop :=
  ∃ h a k fa g v, ReplInv s hist h a k fa g v

/-- What a step adds to the history: an append its entry, and an iteration of the leader at most a CONFIG
    entry. -/
def Adds (s : ReplState) : ReplLabel → List DareLogEntry → Prop
  | .append term reqId cltId type data, fs => fs = appendedEntry s.leader.log term reqId cltId type data
  | .applyLeader, fs => ∀ e ∈ fs, e.type = CONFIG
  | _, fs => fs = []

theorem ReplInv.append {term reqId : UInt64} {cltId : UInt16} {type : UInt8} {data : EntryData}
    (hi : ReplInv s hist h a k fa g v) (hok : replOk s (.append term reqId cltId type data))
    (hs : replStep s (.append term reqId cltId type data) s') :
    SafeWith s' (hist ++ appendedEntry s.leader.log term reqId cltId type data) := by
  obtain ⟨hroom, ⟨log', idx⟩, happend, rfl⟩ := hs
  obtain ⟨hl, hlen⟩ := hi.leader.append hroom hok happend
  refine ⟨h, a, k, fa, g, v, hi.ofLeader { s.leader with log := log' } _ _ hl hlen
    hi.head_le (le_refl _) (le_refl _) hi.acked ?_ ?_⟩
  · rw [List.take_append_of_le_length hi.leader.commitCount]
    exact hi.passed
  · rw [List.take_append_of_le_length
      (le_trans hi.leader.offsets.count_le hi.leader.commitCount)]
    exact hi.leaderApplied

/-- A step of the leader that changes neither the history nor what was passed and applied. -/
theorem ReplInv.ofLog {log' : DareLog} {h' : Spot} (hi : ReplInv s hist h a k fa g v)
    (hl : LeaderInv log' hist h' a k) (hlen : log'.len = s.leader.log.len)
    (hhead : h'.pos ≤ fa.pos) :
    SafeWith { s with leader := { s.leader with log := log' } } hist := by
  rw [← List.append_nil hist]
  refine ⟨h', a, k, fa, g, v, hi.ofLeader { s.leader with log := log' } _ _ ?_
    hlen hhead (le_refl _) (le_refl _) hi.acked ?_ ?_⟩
  · rw [List.append_nil]
    exact hl
  · rw [List.append_nil]
    exact hi.passed
  · rw [List.append_nil]
    exact hi.leaderApplied

theorem ReplInv.ack {entry i : Nat} {b : UInt8} (hi : ReplInv s hist h a k fa g v)
    (hs : replStep s (.ack entry i b) s') : SafeWith s' hist := by
  obtain ⟨hidx, ⟨visited, stop, hwalk, hmem⟩, rfl⟩ := hs
  exact hi.ofLog (hi.leader.ack hidx hwalk hmem) rfl hi.head_le

theorem ReplInv.prune {visited : List Nat} {off : Nat} (hi : ReplInv s hist h a k fa g v)
    (hs : replStep s (.prune visited off) s') : SafeWith s' hist := by
  obtain ⟨hw, ⟨vs, ha⟩, ⟨vs', hfa⟩, rfl⟩ := hs
  obtain ⟨h', hl, hle⟩ := hi.leader.prune hw ha
  have hf := hi.follower
  have hoff := hf.offsets.applyOff
  rw [hi.len] at hoff
  have hend : fa.pos ≤ logPos s.leader.log hist g.ended := by
    rw [logPos, ← hi.len]
    exact le_trans hf.offsets.pos_le hf.commit_le
  have hmono : logPos s.leader.log hist g.ended ≤ logPos s.leader.log hist hist.length :=
    pos_mono hi.leader.window.len_pos (le_trans hf.ended_le hf.stored_le)
  exact hi.ofLog hl rfl (hle hfa hoff hi.head_le (le_trans hend hmono))

/-- The leader posts the entries behind the follower's end, or the end of those written. -/
theorem ReplInv.postUpdate (hi : ReplInv s hist h a k fa g v) :
    ∃ v', ReplInv (postUpdate s) hist h a k fa g v' := by
  have hlen := hi.leader.window.len_pos
  obtain ⟨-, -, hvend, -, -⟩ := hi.lands.mono hi.follower.ended_le
  have hstored := hi.lands.stored_le hi.follower.ended_le hi.follower.stored_le
  unfold Apus.postUpdate
  by_cases hflag : s.sendFlag = true
  · simp only [hflag, Bool.not_true, Bool.false_eq_true, if_false]
    cases hstep : s.nextLrStep with
    | updateLog =>
      obtain ⟨hremote, hended, -⟩ := hi.phase.updateLog hstep
      by_cases hdist : logOffsetEndDistance s.leader.log s.remoteEnd = 0
      · simp only [if_pos hdist]
        exact ⟨v, hi⟩
      · simp only [if_neg hdist]
        have hne : s.leader.log.end_ ≠ s.leader.log.len :=
          fun hcon => hdist (logOffsetEndDistance_of_end_eq_len hcon _)
        have hend : s.leader.log.end_ =
            logPos s.leader.log hist hist.length % s.leader.log.len := by
          rcases hi.leader.endOff.cases hlen with heq | ⟨hcon, -⟩
          · exact heq
          · exact absurd hcon hne
        -- the follower has not got all entries
        have hlt : v.ended < hist.length := by
          refine Nat.lt_of_le_of_ne (le_trans hvend hstored) fun hcon => hdist ?_
          rw [hremote, hcon, logOffsetEndDistance, if_neg hne, ← hend, if_pos (le_refl _),
            Nat.sub_self]
        refine ⟨{ v with stored := hist.length }, { hi with
          lands := hi.lands.append ?_, commit_le := hi.commit_le, phase := ⟨fun hcon => ?_,
            fun _ => ⟨hremote, hended, fun _ => hend⟩, fun hcon => ?_⟩ }⟩
        · rw [hremote, hend]
          exact .entries hlt (le_refl _) hstored (.nil _)
        · cases hcon
        · cases hcon
    | updateEnd =>
      obtain ⟨hcached, hsame, -⟩ := hi.phase.updateEnd hstep
      refine ⟨{ v with ended := v.stored }, { hi with
        lands := hi.lands.append ?_, commit_le := hi.commit_le, phase := ⟨fun hcon => ?_,
          fun hcon => ?_, fun _ => ⟨hcached, hsame, fun _ => ?_⟩⟩ }⟩
      · rw [hcached, ← hsame]
        exact .end_ (.nil _)
      · cases hcon
      · cases hcon
      · show s.cachedEndOffset = logPos s.leader.log hist v.stored % s.leader.log.len
        rw [hsame]
        exact hcached
  · simp only [hflag, Bool.not_false, if_true]
    exact ⟨v, hi⟩

/-- The commit offset that the leader posts is neither past its own nor past the follower's end. -/
theorem ReplInv.postCommit (hi : ReplInv s hist h a k fa g v) :
    ∃ v', ReplInv (postCommit s) hist h a k fa g v' := by
  have hl := hi.leader
  have hf := hi.follower
  have hlen := hl.window.len_pos
  unfold Apus.postCommit
  by_cases hstep : s.nextLrStep = .updateEnd
  · rw [if_pos hstep]
    exact ⟨v, hi⟩
  rw [if_neg hstep]
  by_cases hskip : s.remoteCommit = s.remoteEnd ∨ s.remoteCommit = s.leader.log.commit
  · rw [if_pos hskip]
    exact ⟨v, hi⟩
  rw [if_neg hskip]
  have hlog : s.nextLrStep = .updateLog := by
    cases hcase : s.nextLrStep with
    | updateLog => rfl
    | updateEnd => exact absurd hcase hstep
  obtain ⟨hremote, hended, hcached⟩ := hi.phase.updateLog hlog
  obtain ⟨-, hgv, hvend, -, -⟩ := hi.lands.mono hf.ended_le
  have hstored := hi.lands.stored_le hf.ended_le hf.stored_le
  have hfcommit := hf.commit_le
  rw [logPos, hi.len] at hfcommit
  obtain ⟨hvpos, hvcount⟩ := hi.lands.commit_le hlen hfcommit hf.commitCount hf.ended_le
  have hmark : Mark entryFormat s.leader.log.len hist v.ended
    (logPos s.leader.log hist v.ended) := Mark.pos _
  have hheadEnd : h.pos ≤ logPos s.leader.log hist v.ended := by
    have hmono : logPos s.leader.log hist g.ended ≤ logPos s.leader.log hist v.ended :=
      pos_mono hlen hgv
    exact le_trans hi.head_le (le_trans hf.offsets.pos_le (le_trans hfcommit hmono))
  have hendV : logPos s.leader.log hist v.ended ≤ logPos s.leader.log hist hist.length :=
    pos_mono hlen (le_trans hvend hstored)
  have hkpos := le_trans hl.head_le hl.offsets.pos_le
  have hremoteOff : IsOffset s.leader.log.len (logPos s.leader.log hist v.ended) s.remoteEnd := by
    rw [hremote]
    exact isOffset_mod hlen
  have hlarger := hl.larger_iff hl.offsets.commitOff hremoteOff hkpos hheadEnd hl.commit_le hendV
  have hpost : ∀ (k' : Spot) {off : Nat}, SoftMark entryFormat s.leader.log.len hist k'.count k'.pos →
      IsOffset s.leader.log.len k'.pos off → v.commit.pos ≤ k'.pos → v.commit.count ≤ k'.count →
      k'.pos ≤ logPos s.leader.log hist v.ended → k'.count ≤ v.ended → k'.pos ≤ k.pos →
      k'.count ≤ k.count → ReplInv { s with
        remoteCommit := off, posted := s.posted ++ [.commit off] } hist h a k fa g
        { v with commit := k' } := by
    intro k' off hsoft hoff hpos hcount hend hle hkle hkcount
    refine { hi with
      lands := hi.lands.append (.commit hsoft hoff hpos hcount hend hle (.nil _)),
      commit_le := hkle, commitCount := hkcount,
      phase := ⟨fun hflag w hw => ?_, fun _ => ⟨hremote, hended, hcached⟩, fun hcon => ?_⟩ }
    · rcases List.mem_append.mp hw with hw | hw
      · exact hi.phase.signaled hflag w hw
      · rw [List.mem_singleton.mp hw]
        rfl
    · exact absurd hcon hstep
  by_cases hcase : logIsOffsetLarger s.leader.log s.leader.log.commit s.remoteEnd = true
  · -- the follower does not have all the committed entries
    have hlt := hlarger.mp hcase
    rw [if_pos hcase]
    refine ⟨_, hpost ⟨v.ended, logPos s.leader.log hist v.ended⟩ (SoftMark.pos _) hremoteOff
      hvpos hvcount (le_refl _) (le_refl _) hlt.le ?_⟩
    exact hmark.le_of_le hlen hl.offsets.commit.mark hlt.le (le_trans hvend hstored)
  · rw [if_neg hcase]
    have hle : k.pos ≤ logPos s.leader.log hist v.ended := by
      by_contra hcon
      exact hcase (hlarger.mpr (Nat.lt_of_not_le hcon))
    exact ⟨_, hpost k hl.offsets.commit hl.offsets.commitOff hi.commit_le hi.commitCount hle
      (hl.offsets.commit.mark.le_of_le hlen hmark hle hl.commitCount) (le_refl _) (le_refl _)⟩

/-- The commit offset of the leader moves over acknowledged entries. -/
theorem ReplInv.commit {log' : DareLog} {passes : List Pass} {idx size : Nat}
    (hi : ReplInv s hist h a k fa g v) (hok : CommitOkFrom s.leader.log idx size s.leader.log.commit)
    (hupdate : updateCommit s.leader.log idx size = some (log', passes)) :
    ∃ k', ReplInv { s with
      leader := { s.leader with log := log' }, passed := s.passed ++ passes } hist h a k' fa g v := by
  obtain ⟨k', hl, hlen, hpos, hcount, htake, hacked⟩ := hi.leader.updateCommit hok hupdate
  have hsame : hist ++ [] = hist := List.append_nil hist
  rw [← hsame] at hl
  have hinv := hi.ofLeader { s.leader with log := log' } (s.passed ++ passes) s.leaderApplied hl
    hlen hi.head_le
    hpos hcount (fun p hp => (List.mem_append.mp hp).elim (hi.acked p) (hacked p))
    (by rw [hsame, List.map_append, hi.passed, htake]) (by rw [hsame]; exact hi.leaderApplied)
  rw [hsame] at hinv
  exact ⟨k', hinv⟩

theorem postUpdate_leader (s : ReplState) : (postUpdate s).leader = s.leader := by
  unfold postUpdate
  split
  · rfl
  · split
    · split <;> rfl
    · rfl

theorem ReplInv.update {linked : Bool} (hi : ReplInv s hist h a k fa g v)
    (hok : replOk s (.update linked)) (hs : replStep s (.update linked) s') : SafeWith s' hist := by
  obtain ⟨⟨log', passes⟩, hupdate, rfl⟩ := Option.map_eq_some_iff.mp hs
  cases linked with
  | false =>
    obtain ⟨k', hinv⟩ := hi.commit hok hupdate
    exact ⟨_, _, _, _, _, _, hinv⟩
  | true =>
    obtain ⟨v', hposted⟩ := hi.postUpdate
    simp only [if_true, postUpdate_leader] at hupdate
    have hok' : CommitOkFrom (Apus.postUpdate s).leader.log s.leader.idx (commitSize s.leader.cid)
        (Apus.postUpdate s).leader.log.commit := by
      rw [postUpdate_leader]
      exact hok
    obtain ⟨k', hinv⟩ := hposted.commit hok' (by rw [postUpdate_leader]; exact hupdate)
    obtain ⟨v'', hcommit⟩ := hinv.postCommit
    exact ⟨_, _, _, _, _, _, hcommit⟩

/-- An unstable CONFIG entry makes the leader append the one that follows it. -/
theorem LeaderInv.appendNextConfig {l l' : Leader} {e : DareLogEntry}
    (hl : LeaderInv l.log hist h a k)
    (hroom : isUnstableConfig l.cid e = true →
      AppendRoom l.log CONFIG { cid := nextCid l.cid e.cid.state })
    (hok : isUnstableConfig l.cid e = true →
      endAfterAppend l.log CONFIG { cid := nextCid l.cid e.cid.state } ≠ l.log.len)
    (hnext : Apus.appendNextConfig l e = some l') :
    ∃ fs, (∀ e ∈ fs, e.type = CONFIG) ∧ LeaderInv l'.log (hist ++ fs) h a k ∧
      l'.log.len = l.log.len := by
  unfold Apus.appendNextConfig at hnext
  by_cases hunstable : isUnstableConfig l.cid e = true
  · rw [if_pos hunstable] at hnext
    obtain ⟨⟨log', idx⟩, happend, rfl⟩ := Option.map_eq_some_iff.mp hnext
    refine ⟨_, fun e he => ?_, hl.append (hroom hunstable) (hok hunstable) happend⟩
    rw [appendedEntry] at he
    split at he
    · cases he
    · rw [List.mem_singleton.mp he]
      rfl
  · rw [if_neg hunstable] at hnext
    cases hnext
    exact ⟨[], fun e he => absurd he List.not_mem_nil, by rw [List.append_nil]; exact hl, rfl⟩

theorem ReplInv.applyLeader (hi : ReplInv s hist h a k fa g v) (hok : replOk s .applyLeader)
    (hs : replStep s .applyLeader s') :
    ∃ fs, (∀ e ∈ fs, e.type = CONFIG) ∧ SafeWith s' (hist ++ fs) := by
  obtain ⟨hguard, hroom, l', es, hiter, rfl⟩ := hs
  have hl := hi.leader
  obtain ⟨e, entry, he, hget, hcases⟩ := hl.applies hguard
  rw [applyIterLeader, hget] at hiter
  rcases hcases with hr | happ
  · -- the apply offset goes back to the start of the buffer
    simp only [hr.fit, Bool.not_false, if_true, Option.some.injEq, Prod.mk.injEq] at hiter
    obtain ⟨rfl, rfl⟩ := hiter
    refine ⟨[], fun e he => absurd he List.not_mem_nil, h, _, k, fa, g, v, hi.ofLeader _ _ _
      (by rw [List.append_nil]; exact hl.rewind hr) rfl hi.head_le (le_refl _) (le_refl _) hi.acked ?_ ?_⟩
    · rw [List.append_nil]
      exact hi.passed
    · rw [List.append_nil, List.append_nil]
      exact hi.leaderApplied
  · simp only [happ.fit, Bool.not_true, Bool.false_eq_true, if_false, happ.read] at hiter
    obtain ⟨l₁, hnext, heq⟩ := Option.map_eq_some_iff.mp hiter
    obtain ⟨rfl, rfl⟩ := Prod.mk.inj heq
    have hread := happ.read
    -- an entry of the next configuration may be appended first
    obtain ⟨fs, hconfig, hl₁, hlen⟩ := hl.appendNextConfig
      (fun hu => by have := hroom entry hget happ.fit (by rw [hread]; exact hu); rwa [hread] at this)
      (fun hu => by have := hok entry hget happ.fit (by rw [hread]; exact hu); rwa [hread] at this)
      hnext
    have hlength := (List.getElem?_eq_some_iff.mp he).1
    have he' : (hist ++ fs)[a.count]? = some e := by
      rw [List.getElem?_append_left hlength]
      exact he
    have hle : logPos l₁.log (hist ++ fs) (a.count + 1) ≤ k.pos := by
      rw [logPos, hlen, pos_append hlength]
      exact happ.le
    have hplace : place l₁.log.len a.pos e.size % l₁.log.len = entry := by
      rw [hlen]
      exact happ.place_eq
    have hl₂ := hl₁.advanceApply he' hplace happ.lt hle
    refine ⟨fs, hconfig, h, _, k, fa, g, v, hi.ofLeader _ _ _ hl₂ hlen hi.head_le (le_refl _) (le_refl _)
      hi.acked ?_ ?_⟩
    · rw [List.take_append_of_le_length hl.commitCount]
      exact hi.passed
    · rw [List.take_append_of_le_length hlength, List.take_add_one, he, hi.leaderApplied]
      rfl

/-! ### Steps of the follower and of the writes -/

theorem ReplInv.applyFollower (hi : ReplInv s hist h a k fa g v)
    (hs : replStep s .applyFollower s') : SafeWith s' hist := by
  obtain ⟨hguard, log', es, hiter, rfl⟩ := hs
  obtain ⟨fa', hf, hlen, hpos, htake⟩ := hi.follower.applyIter hguard hiter
  exact ⟨h, a, k, fa', g, v, { hi with
    follower := hf, len := hlen.trans hi.len, head_le := le_trans hi.head_le hpos,
    phase := ⟨hi.phase.signaled, hi.phase.updateLog, hi.phase.updateEnd⟩,
    followerApplied := by rw [htake, ← hi.followerApplied] }⟩

theorem ReplInv.land (hi : ReplInv s hist h a k fa g v) (hs : replStep s .land s') :
    SafeWith s' hist := by
  obtain ⟨w, ws, hposted, rfl⟩ := hs
  have hlands := hi.lands
  rw [hposted, ← hi.len] at hlands
  obtain ⟨g', hf, hrest, hended, hstored⟩ := hi.follower.land hi.leader hi.len hi.head_le hlands
  have hlen : (landWrite s.follower s.leader.log.entries w).len = s.leader.log.len := by
    rw [← hi.len]
    cases w <;> rfl
  rw [hi.len] at hrest
  obtain ⟨hs', he', -, -, -⟩ := hrest.mono hf.ended_le
  refine ⟨h, a, k, fa, g', v, { hi with
    follower := hf, len := hlen, lands := hrest,
    phase := ⟨fun hflag w' hw => ?_, fun hstep => ?_, fun hstep => ?_⟩ }⟩
  · exact hi.phase.signaled hflag w' (by rw [hposted]; exact List.mem_cons_of_mem _ hw)
  · obtain ⟨hremote, hsame, hcached⟩ := hi.phase.updateLog hstep
    exact ⟨hremote, by omega, hcached⟩
  · obtain ⟨hcached, hsame, hremote⟩ := hi.phase.updateEnd hstep
    have heq : g'.stored = g.stored := by omega
    exact ⟨by rw [heq]; exact hcached, by omega, hremote⟩

theorem ReplInv.complete (hi : ReplInv s hist h a k fa g v) (hs : replStep s .complete s') :
    SafeWith s' hist := by
  obtain ⟨hflag, hunsignaled, rfl⟩ := hs
  obtain ⟨hstored, hended⟩ := hi.lands.unsignaled hunsignaled
  refine ⟨h, a, k, fa, g, v, { hi with
    phase := ⟨fun _ => hunsignaled, fun hstep => ?_, fun hstep => ?_⟩ }⟩
  · cases hcase : s.nextLrStep with
    | updateLog => rw [hcase] at hstep; cases hstep
    | updateEnd =>
      obtain ⟨-, -, hremote⟩ := hi.phase.updateEnd hcase
      exact ⟨hremote hflag, hended, fun hcon => by cases hcon⟩
  · cases hcase : s.nextLrStep with
    | updateLog =>
      obtain ⟨-, -, hcached⟩ := hi.phase.updateLog hcase
      exact ⟨by rw [← hstored]; exact hcached hflag, hstored, fun hcon => by cases hcon⟩
    | updateEnd => rw [hcase] at hstep; cases hstep

theorem ReplInv.fail (hi : ReplInv s hist h a k fa g v) (hs : replStep s .fail s') :
    SafeWith s' hist := by
  obtain ⟨-, rfl⟩ := hs
  obtain ⟨-, -, -, hpos, hcount⟩ := hi.lands.mono hi.follower.ended_le
  refine ⟨h, a, k, fa, g, g, { hi with
    lands := .nil g, commit_le := le_trans hpos hi.commit_le,
    commitCount := le_trans hcount hi.commitCount,
    phase := ⟨fun _ w hw => (by cases hw), fun hstep => ?_, fun hstep => ?_⟩ }⟩
  · obtain ⟨hremote, hsame, -⟩ := hi.phase.updateLog hstep
    exact ⟨by rw [← hsame]; exact hremote, rfl, fun hcon => (by cases hcon)⟩
  · exact ⟨(hi.phase.updateEnd hstep).1, rfl, fun hcon => by cases hcon⟩

/-! ### Every run -/

/-- Every step under the condition keeps the invariant, with what it adds to the history. -/
theorem SafeWith.step {l : ReplLabel} (hsafe : SafeWith s hist) (hok : replOk s l)
    (hs : replStep s l s') : ∃ fs, Adds s l fs ∧ SafeWith s' (hist ++ fs) := by
  obtain ⟨h, a, k, fa, g, v, hi⟩ := hsafe
  have hsame : SafeWith s' hist → SafeWith s' (hist ++ []) := by
    rw [List.append_nil]
    exact id
  cases l with
  | append => exact ⟨_, rfl, hi.append hok hs⟩
  | ack => exact ⟨[], rfl, hsame (hi.ack hs)⟩
  | prune => exact ⟨[], rfl, hsame (hi.prune hs)⟩
  | update => exact ⟨[], rfl, hsame (hi.update hok hs)⟩
  | land => exact ⟨[], rfl, hsame (hi.land hs)⟩
  | complete => exact ⟨[], rfl, hsame (hi.complete hs)⟩
  | fail => exact ⟨[], rfl, hsame (hi.fail hs)⟩
  | applyLeader => exact hi.applyLeader hok hs
  | applyFollower => exact ⟨[], rfl, hsame (hi.applyFollower hs)⟩

theorem ReplSafe.step {l : ReplLabel} (hsafe : ReplSafe s) (hok : replOk s l)
    (hs : replStep s l s') : ReplSafe s' := by
  obtain ⟨hist, hsafe⟩ := hsafe
  obtain ⟨fs, -, hsafe'⟩ := SafeWith.step hsafe hok hs
  exact ⟨_, hsafe'⟩

/-- The invariant holds of two new logs. -/
theorem SafeWith.init (hinit : replInit s) : SafeWith s [] := by
  obtain ⟨hl, hf, hstep, hflag, hremote, hrcommit, hposted, hpassed, hla, hfa⟩ := hinit
  have hzero : IsOffset LOG_SIZE 0 0 := ⟨Nat.zero_le _, rfl⟩
  have hend : IsOffset LOG_SIZE 0 LOG_SIZE := endsAt_logNew.offset
  have hwin : LogWindow logNew [] 0 0 := window_nil _ endsAt_logNew.entrySize_le_len
  have hoffsets : Offsets logNew [] ⟨0, 0⟩ ⟨0, 0⟩ :=
    ⟨.inl pos_zero.symm, hzero, .inl pos_zero.symm, hzero, le_refl _, le_refl _⟩
  refine ⟨⟨0, 0⟩, ⟨0, 0⟩, ⟨0, 0⟩, ⟨0, 0⟩, ⟨0, 0, ⟨0, 0⟩⟩, ⟨0, 0, ⟨0, 0⟩⟩, ?_⟩
  refine ⟨?_, ?_, ?_, le_refl _, ?_, le_refl _, le_refl _, ⟨?_, ?_, ?_⟩, ?_, ?_, ?_, ?_⟩
  · rw [hl]
    exact ⟨hwin, hzero, hend, .inr rfl, fun _ => rfl, hoffsets, le_refl _, Nat.zero_le _, le_refl _⟩
  · rw [hf]
    exact ⟨hwin, hend, fun _ => rfl, hoffsets, Nat.zero_le _, le_refl _, le_refl _, le_refl _⟩
  · rw [hl, hf]
  · rw [hposted]
    exact .nil _
  · intro _ w hw
    rw [hposted] at hw
    cases hw
  · intro _
    refine ⟨?_, rfl, fun hcon => ?_⟩
    · rw [hremote, logPos, pos_zero, Nat.zero_mod]
    · rw [hflag] at hcon
      cases hcon
  · intro hcon
    rw [hstep] at hcon
    cases hcon
  · rw [hpassed]
    simp
  · rw [hpassed]
    rfl
  · rw [hla]
    rfl
  · rw [hfa]
    rfl

theorem ReplSafe.init (hinit : replInit s) : ReplSafe s := ⟨[], SafeWith.init hinit⟩

theorem reach_replSafe (hr : Reach replInit replStep replOk s) : ReplSafe s :=
  hr.invariant (fun _ hinit => .init hinit) fun _ _ _ hsafe hok hs => hsafe.step hok hs

end Apus
