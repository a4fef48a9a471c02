import Apus.Commit.Walk
import Apus.Lib.Quorum

namespace Apus

open Lib

/-!
# Votes and commits across an upsize

An upsize takes a group of `n` through the configurations STABLE `n`, EXTENDED, TRANSIT and
STABLE `n + 1` (`UpsizeChain`).  The leader of one of them commits by counting replies
(`Majority`), a candidate of another one is elected by counting votes (`votesPass`).

The two tests treat the sizes differently: the commit loop counts over the last size it assigned,
which is the new one in a transitional configuration only; a candidate counts itself in both
groups, and needs both majorities in an extended configuration too, although only servers of the
old group vote in it.  The servers counted by the two tests always meet (`quorums_intersect`),
since both are majorities of `n` or of `n + 1` servers.
-/

/-! ### The size counted by the commit loop -/

/-- `size[j]`. -/
def roundSize (cid : DareCid) (j : Nat) : Nat := if j = 0 then cid.size0.toNat else cid.size1.toNat

/-- The value of `size` after the loop `while (j < 2)` of `update_remote_logs`, from round `j` with
    `rounds` left; `larger j` is the value of `larger_offset_count` in round `j`. -/
def sizeAfterLoop (cid : DareCid) (larger : Nat → Nat) : Nat → Nat → Nat → Nat
  | 0, _, size => size
  | rounds + 1, j, _ =>
    let size := roundSize cid j
    if larger j < size / 2 then
      if cid.state ≠ CID_TRANSIT then size
      else if j = 0 then sizeAfterLoop cid larger rounds (j + 1) size
      else size
    else if cid.state ≠ CID_TRANSIT then size
    else sizeAfterLoop cid larger rounds (j + 1) size

/-- Whatever the end offsets are, the last size assigned is the one counted. -/
theorem sizeAfterLoop_eq (cid : DareCid) (larger : Nat → Nat) (size : Nat) :
    sizeAfterLoop cid larger 2 0 size = commitSize cid := by
  by_cases hs : cid.state = CID_TRANSIT <;> simp [sizeAfterLoop, commitSize, roundSize, hs]

/-! ### The vote tests -/

/-- The servers whose vote is counted by the loop of `poll_vote_count`: they sent their commit
    offset, which is never `len`. -/
def hasVoted (cid : DareCid) (idx len : Nat) (voteAck : Nat → Nat) (i : Nat) : Bool :=
  decide (i < (getGroupSize cid).toNat) && i != idx && voteAck i != len

/-- `vote_count[j]` after the loop, for `size[j]`; it starts with the candidate's own vote. -/
def voteCount (cid : DareCid) (idx len : Nat) (voteAck : Nat → Nat) (size : UInt8) : UInt8 :=
  UInt8.ofNat (1 + ((List.range (getGroupSize cid).toNat).filter fun i =>
    hasVoted cid idx len voteAck i && decide (i < size.toNat)).length)

/-- The tests of `poll_vote_count`. -/
def votesPass (cid : DareCid) (idx len : Nat) (voteAck : Nat → Nat) : Bool :=
  if (voteCount cid idx len voteAck cid.size0).toNat < cid.size0.toNat / 2 + 1 then false
  else if cid.state ≠ CID_STABLE then
    !decide ((voteCount cid idx len voteAck cid.size1).toNat < cid.size1.toNat / 2 + 1)
  else true

/-- The candidate or a server that voted for it. -/
def isVoter (cid : DareCid) (idx len : Nat) (voteAck : Nat → Nat) (i : Nat) : Bool :=
  i == idx || hasVoted cid idx len voteAck i

/-- The leader or a server that acknowledged the entry. -/
def isAcker (m : Mem) (entry idx i : Nat) : Bool := i == idx || replyAt m entry i == 1

/-- The configurations of an upsize from `n` to `n + 1` servers. -/
inductive UpsizeChain (n : Nat) (cid : DareCid) : Prop
  | stable : cid.state = CID_STABLE → cid.size0.toNat = n → cid.size1.toNat = 0 → UpsizeChain n cid
  | extended : cid.state = CID_EXTENDED → cid.size0.toNat = n → cid.size1.toNat = n + 1 →
      UpsizeChain n cid
  | transit : cid.state = CID_TRANSIT → cid.size0.toNat = n → cid.size1.toNat = n + 1 →
      UpsizeChain n cid
  | upsized : cid.state = CID_STABLE → cid.size0.toNat = n + 1 → cid.size1.toNat = 0 →
      UpsizeChain n cid

variable {n idx ldr len entry size : Nat} {cid c1 c2 : DareCid} {larger voteAck : Nat → Nat}
  {log : DareLog}

/-! ### What the tests count -/

/-- The commit loop counts a majority of the old or of the new group. -/
theorem commitSize_of_chain (h : UpsizeChain n cid) : commitSize cid = n ∨ commitSize cid = n + 1 := by
  unfold commitSize
  cases h with
  | stable hs h0 h1 => rw [hs, if_neg (by decide), h0]; exact .inl rfl
  | extended hs h0 h1 => rw [hs, if_neg (by decide), h0]; exact .inl rfl
  | transit hs h0 h1 => rw [hs, if_pos rfl, h1]; exact .inr rfl
  | upsized hs h0 h1 => rw [hs, if_neg (by decide), h0]; exact .inr rfl

theorem countReplies_eq (m : Mem) (entry idx size : Nat) :
    countReplies m entry idx size = (members size (isAcker m entry idx)).card :=
  length_filter_range size _

/-- The candidate's own vote is counted besides the others. -/
theorem voteCount_toNat (size : UInt8) (hidx : idx < (getGroupSize cid).toNat) :
    (voteCount cid idx len voteAck size).toNat = 1 + (members (getGroupSize cid).toNat fun i =>
      hasVoted cid idx len voteAck i && decide (i < size.toNat)).card := by
  have hsize := (getGroupSize cid).toNat_lt
  have hsub : members (getGroupSize cid).toNat (fun i =>
      hasVoted cid idx len voteAck i && decide (i < size.toNat)) ⊆
        (Finset.range (getGroupSize cid).toNat).erase idx := by
    intro i hi
    simp only [mem_members, hasVoted, Bool.and_eq_true, bne_iff_ne, decide_eq_true_eq] at hi
    exact Finset.mem_erase.mpr ⟨hi.2.1.1.2, Finset.mem_range.mpr hi.1⟩
  have hcard := Finset.card_le_card hsub
  rw [Finset.card_erase_of_mem (Finset.mem_range.mpr hidx), Finset.card_range] at hcard
  rw [voteCount, length_filter_range, UInt8.toNat_ofNat']
  exact Nat.mod_eq_of_lt (by omega)

/-- The votes counted for a group of at least the candidate's size: the voters in it. -/
theorem voteCount_le_voters (len : Nat) (voteAck : Nat → Nat) (size : UInt8) (hidx : idx < (getGroupSize cid).toNat)
    (hin : idx < size.toNat) : (voteCount cid idx len voteAck size).toNat ≤
      (members size.toNat (isVoter cid idx len voteAck)).card := by
  rw [voteCount_toNat size hidx]
  have hsub : insert idx (members (getGroupSize cid).toNat fun i =>
      hasVoted cid idx len voteAck i && decide (i < size.toNat)) ⊆
        members size.toNat (isVoter cid idx len voteAck) := by
    intro i hi
    rcases Finset.mem_insert.mp hi with rfl | hi
    · simp [hin, isVoter]
    · simp only [mem_members, Bool.and_eq_true, decide_eq_true_eq] at hi
      simp [hi.2.2, isVoter, hi.2.1]
  have hnot : idx ∉ members (getGroupSize cid).toNat fun i =>
      hasVoted cid idx len voteAck i && decide (i < size.toNat) := by
    simp [hasVoted]
  have hcard := Finset.card_le_card hsub
  rw [Finset.card_insert_of_notMem hnot] at hcard
  omega

/-- A candidate that passes the tests has a majority of the old or of the new group. -/
theorem isMajority_voters (h : UpsizeChain n cid) (hidx : idx < (getGroupSize cid).toNat)
    (hpass : votesPass cid idx len voteAck = true) :
    IsMajority n (isVoter cid idx len voteAck) ∨
      IsMajority (n + 1) (isVoter cid idx len voteAck) := by
  unfold votesPass at hpass
  split at hpass
  · cases hpass
  · rename_i hfirst
    have hle0 : ∀ k, cid.size0.toNat = k → idx < k →
        IsMajority k (isVoter cid idx len voteAck) := by
      rintro k rfl hin
      have hvoters := voteCount_le_voters len voteAck cid.size0 hidx hin
      show _ ≤ _
      omega
    cases h with
    | stable hs h0 h1 =>
      refine .inl (hle0 n h0 ?_)
      rw [getGroupSize, if_pos (by rw [hs]; decide), h0] at hidx
      exact hidx
    | extended hs h0 h1 =>
      refine .inl (hle0 n h0 ?_)
      rw [getGroupSize, if_pos (by rw [hs]; decide), h0] at hidx
      exact hidx
    | transit hs h0 h1 =>
      -- the candidate may be the new server, which is not in the old group
      right
      rw [if_pos (by rw [hs]; decide), Bool.not_eq_true', decide_eq_false_iff_not] at hpass
      have hlt : cid.size0 < cid.size1 := by
        rw [UInt8.lt_iff_toNat_lt]
        omega
      have hin : idx < cid.size1.toNat := by
        rw [getGroupSize, if_neg (by rw [hs]; decide), if_pos hlt] at hidx
        exact hidx
      have hvoters := voteCount_le_voters len voteAck cid.size1 hidx hin
      rw [← h1]
      show _ ≤ _
      omega
    | upsized hs h0 h1 =>
      refine .inr (hle0 (n + 1) h0 ?_)
      rw [getGroupSize, if_pos (by rw [hs]; decide), h0] at hidx
      exact hidx

/-- **Election and commit quorums intersect across an upsize**: an entry that the commit loop
    passes in one configuration was counted on a server whose vote is counted in any other one. -/
theorem quorums_intersect (h1 : UpsizeChain n c1) (h2 : UpsizeChain n c2)
    (hcommit : Majority log ldr (sizeAfterLoop c1 larger 2 0 size) entry) (hidx : idx < (getGroupSize c2).toNat)
    (hpass : votesPass c2 idx len voteAck = true) :
    ∃ i, i < sizeAfterLoop c1 larger 2 0 size ∧ (i = ldr ∨ replyAt log.entries entry i = 1) ∧
      (i = idx ∨ i < (getGroupSize c2).toNat ∧ voteAck i ≠ len) := by
  rw [sizeAfterLoop_eq] at hcommit ⊢
  have hacks : IsMajority (commitSize c1) (isAcker log.entries entry ldr) := by
    rw [Majority, countReplies_eq] at hcommit
    exact hcommit
  have hsize := commitSize_of_chain h1
  obtain ⟨i, hi, hack, hvoter⟩ : ∃ i, i < commitSize c1 ∧
      isAcker log.entries entry ldr i = true ∧ isVoter c2 idx len voteAck i = true := by
    rcases isMajority_voters h2 hidx hpass with hv | hv
    · obtain ⟨i, hi, -, hack, hvoter⟩ := hacks.meet hv (by omega) (by omega)
      exact ⟨i, hi, hack, hvoter⟩
    · obtain ⟨i, hi, -, hack, hvoter⟩ := hacks.meet hv (by omega) (by omega)
      exact ⟨i, hi, hack, hvoter⟩
  refine ⟨i, hi, by simpa [isAcker] using hack, ?_⟩
  simp only [isVoter, hasVoted, Bool.or_eq_true, beq_iff_eq, Bool.and_eq_true, decide_eq_true_eq,
    bne_iff_ne] at hvoter
  rcases hvoter with hc | ⟨⟨hlt, -⟩, hack⟩
  · exact .inl hc
  · exact .inr ⟨hlt, hack⟩

/-- A log whose first entry is acknowledged by servers 1 and 2. -/
def ackedLog : DareLog :=
  { logNew with entries := setReply (setReply (fun _ => 0) 0 1 1) 0 2 1 }

/-- The leader 0 of a transitional configuration of 4 servers, and the candidate 2 of the group of
    3 before it, which server 1 voted for. -/
theorem quorums_intersect_three :
    ∃ i, i < sizeAfterLoop ⟨1, 3, 4, CID_TRANSIT, 15⟩ (fun _ => 0) 2 0 0 ∧
      (i = 0 ∨ replyAt ackedLog.entries 0 i = 1) ∧
      (i = 2 ∨ i < (getGroupSize ⟨0, 3, 0, CID_STABLE, 7⟩).toNat ∧
        (if i = 1 then 0 else LOG_SIZE) ≠ LOG_SIZE) :=
  quorums_intersect (n := 3) (.transit rfl rfl rfl) (.stable rfl rfl rfl)
    (show 4 / 2 + 1 ≤ countReplies ackedLog.entries 0 0 4 by decide) (by decide) (by decide)

end Apus
