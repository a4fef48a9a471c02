import Apus.Election.Majority
import Mathlib.Order.Interval.Finset.Nat

namespace Apus

open Lib

/-!
# The majorities of a configuration

In a transitional configuration an operation needs the majorities of both sizes, in an extended one that
of the old size.  `wait_for_majority` waits for the first size, and then for the second, but only looks
at the second when it returns; in an extended configuration that size goes over slots for which nothing
was posted, and these stay 0.

* `SendRound.isMajority` — what a round that succeeds has, if the sizes are such that the second majority
  contains the first (`SizesMeet`);
* `isMajority_iff` — for other sizes there are rounds that succeed without it.
-/

/-- A round of one operation, posted to the group by server `idx`: what `post_send` finds in the
    completion queue, and what `wait_for_majority` finds there. -/
structure SendRound where
  idx : Nat
  /-- What the caller puts into its own slot. -/
  own : Int
  /-- `rc_connected` of the servers. -/
  connected : Nat → Bool
  early : List WorkCompletion
  polls : List (List WorkCompletion)

namespace SendRound

variable (cid : DareCid) (r : SendRound)

/-- `posted_sends` as the callers set it up. -/
def posted : Nat → Int :=
  groupSends (getGroupSize cid).toNat r.idx r.own fun i => cidIsServerOn cid i && r.connected i

/-- All completions of the round. -/
def completions : List WorkCompletion := r.early ++ r.polls.flatten

/-- The call of `wait_for_majority`. -/
def wait : Option ((Nat → Int) × Bool) :=
  waitForMajority cid r.connected (emptyCompletionQueue (r.posted cid) r.early) r.polls

/-- The slot is that of the caller and marked 0, or its server completed the operation. -/
def answered (i : Nat) : Bool :=
  (i == r.idx && r.own == 0) || r.completions.any fun wc =>
    wc.conn == i && wc.current && wc.status == .success

/-- A round of one of the callers: one operation for each server, and no more than one completion of
    each. -/
structure Ok : Prop where
  own : r.own = 0 ∨ r.own = -1
  posted : ∀ wc ∈ r.completions, wc.current = true → r.posted cid wc.conn = 1
  nodup : ((r.completions.filter WorkCompletion.current).map WorkCompletion.conn).Nodup

/-- In no poll a success at the first place stands for a completion of the round that is none. -/
def Tells : Prop := ∀ poll ∈ r.polls, firstTells poll = true

instance : Decidable r.Tells := by
  unfold Tells
  infer_instance

/-- If the round succeeds, it has the majorities that the configuration asks for. -/
def MajorityOk : Prop :=
  ∀ posted', r.wait cid = some (posted', true) →
    IsMajority cid.size0.toNat r.answered ∧
      (cid.state = CID_TRANSIT → IsMajority cid.size1.toNat r.answered)

end SendRound

/-- The sizes for which the majority that is looked at last contains the first one. -/
def SizesMeet (cid : DareCid) : Prop :=
  cid.state = CID_STABLE ∨ cid.size1 = 0 ∨
    cid.size0.toNat / 2 + (cid.size1.toNat - cid.size0.toNat) ≤ cid.size1.toNat / 2

instance (cid : DareCid) : Decidable (SizesMeet cid) := by
  unfold SizesMeet
  infer_instance

variable {cid : DareCid} {r : SendRound} {posted : Nat → Int}

/-! ### Rounds that have a majority -/

/-- The slots of `posted_sends` that are 0 at the start. -/
theorem SendRound.posted_eq_zero {i : Nat} (h : r.posted cid i = 0) :
    r.answered i = true ∨ (getGroupSize cid).toNat ≤ i := by
  rw [SendRound.posted, groupSends] at h
  split at h
  · exact .inr ‹_›
  · left
    split at h
    · rename_i hidx
      simp [answered, hidx, h]
    · split at h <;> cases h

/-- What a round that succeeds is sure to have. -/
theorem SendRound.decided {posted' : Nat → Int} (hok : r.Ok cid) (htells : r.Tells)
    (hwait : r.wait cid = some (posted', true)) :
    IsMajority (decidingSize cid).toNat (fun i => posted' i == 0) ∧
      ∀ i, posted' i = 0 → r.answered i = true ∨ (getGroupSize cid).toNat ≤ i := by
  have hin : ∀ wc ∈ r.completions, wc.current = true → wc.status = .success →
      r.answered wc.conn = true ∨ (getGroupSize cid).toNat ≤ wc.conn := by
    intro wc hmem hcurrent hstatus
    refine .inl ?_
    rw [answered, Bool.or_eq_true, List.any_eq_true]
    exact .inr ⟨wc, hmem, by simp [hcurrent, hstatus]⟩
  have hround : RoundOk (fun i => r.answered i = true ∨ (getGroupSize cid).toNat ≤ i)
      (r.posted cid) (r.early ++ r.polls.flatten) :=
    ⟨fun i => SendRound.posted_eq_zero, hok.posted, hok.nodup⟩
  refine isMajority_of_wait (hround.emptyCompletionQueue fun wc hmem => ?_)
    (fun poll hpoll => ⟨htells poll hpoll, fun wc hmem => ?_⟩) hwait
  · exact hin wc (List.mem_append_left _ hmem)
  · exact hin wc (List.mem_append_right _ (List.mem_flatten.mpr ⟨poll, hpoll, hmem⟩))

/-- A transitional group is as large as the larger of the sizes. -/
theorem size_le_getGroupSize (cid : DareCid) :
    cid.size0.toNat ≤ (getGroupSize cid).toNat ∧
      (cid.state = CID_TRANSIT → cid.size1.toNat ≤ (getGroupSize cid).toNat) := by
  rw [getGroupSize]
  split
  · exact ⟨le_refl _, fun h => absurd h ‹_›⟩
  · split
    · rename_i hlt
      exact ⟨(UInt8.lt_iff_toNat_lt.mp hlt).le, fun _ => le_refl _⟩
    · rename_i hge
      rw [UInt8.lt_iff_toNat_lt] at hge
      exact ⟨le_refl _, fun _ => Nat.le_of_not_lt hge⟩

/-- **A round that succeeds has the majorities** that its configuration asks for, if the sizes meet. -/
theorem SendRound.isMajority (hok : r.Ok cid) (htells : r.Tells) (hsizes : SizesMeet cid) :
    r.MajorityOk cid := by
  intro posted' hwait
  obtain ⟨hmajority, hzero⟩ := SendRound.decided hok htells hwait
  obtain ⟨hsize0, hsize1⟩ := size_le_getGroupSize cid
  -- a slot of the group that is 0 has answered
  have hanswered : ∀ n ≤ (getGroupSize cid).toNat,
      (members n fun i => posted' i == 0).card ≤ (members n r.answered).card := by
    intro n hn
    refine card_members_mono fun i hi hslot => ?_
    exact (hzero i (beq_iff_eq.mp hslot)).resolve_right (by omega)
  have hanswered0 := hanswered _ hsize0
  rw [IsMajority] at hmajority
  by_cases hstable : cid.state = CID_STABLE
  · rw [decidingSize, if_pos hstable] at hmajority
    refine ⟨hmajority.trans hanswered0, fun htransit => ?_⟩
    rw [hstable] at htransit
    exact absurd htransit (by decide)
  · rw [decidingSize, if_neg hstable] at hmajority
    refine ⟨?_, fun htransit => hmajority.trans (hanswered _ (hsize1 htransit))⟩
    have hmeet := hsizes.resolve_left hstable
    by_cases hle : cid.size1.toNat ≤ cid.size0.toNat
    · have hsub : (members cid.size1.toNat fun i => posted' i == 0).card ≤
          (members cid.size0.toNat fun i => posted' i == 0).card := by
        refine Finset.card_le_card fun i hi => ?_
        obtain ⟨hi, hslot⟩ := mem_members.mp hi
        exact mem_members.mpr ⟨hi.trans_le hle, hslot⟩
      rcases hmeet with hnone | hmeet
      · have hcard := card_members_le cid.size1.toNat fun i => posted' i == 0
        rw [hnone] at hcard hmajority
        exact absurd (hmajority.trans hcard) (by decide)
      · rw [IsMajority]
        omega
    · -- the slots above the old size count for the new one at most
      obtain ⟨k, hk⟩ := Nat.exists_eq_add_of_le (Nat.le_of_not_le hle)
      have hsub := card_members_add_le cid.size0.toNat k fun i => posted' i == 0
      rw [← hk] at hsub
      rcases hmeet with hnone | hmeet
      · rw [hnone] at hle
        exact absurd (Nat.zero_le _) hle
      · rw [IsMajority]
        omega

/-! ### Rounds that have none -/

/-- Completions that are all successes. -/
theorem emptyCompletionQueue_successes {is : List Nat} (hnodup : is.Nodup) (i : Nat) :
    emptyCompletionQueue posted (is.map fun i => ⟨i, true, .success⟩) i =
      if i ∈ is then posted i - 1 else posted i := by
  induction is generalizing posted with
  | nil => rfl
  | cons j is ih =>
    obtain ⟨hj, hnodup⟩ := List.nodup_cons.mp hnodup
    rw [List.map_cons, emptyCompletionQueue, ih hnodup]
    by_cases hi : i = j
    · subst hi
      simp [hj]
    · simp [hi]

/-- Without operations left nothing is waited for. -/
theorem countPosted_eq_zero {size : UInt8} (h : ∀ i < size.toNat, posted i ≤ 0) :
    countPosted posted size = 0 := by
  rw [countPosted]
  have hfold : ∀ is : List Nat, (∀ i ∈ is, posted i ≤ 0) → is.foldl (fun (count : UInt8) i =>
      if posted i < 0 then count else count + UInt8.ofNat (posted i).toNat) 0 = 0 := by
    intro is his
    induction is with
    | nil => rfl
    | cons i is ih =>
      obtain ⟨hi, hrest⟩ := List.forall_mem_cons.mp his
      have hzero : (posted i).toNat = 0 := Int.toNat_eq_zero.mpr hi
      have hadd : (0 : UInt8) + UInt8.ofNat 0 = 0 := rfl
      rw [List.foldl_cons, hzero, hadd, ite_self]
      exact ih hrest
  exact hfold _ fun i hi => h i (List.mem_range.mp hi)

/-- A call with no operation left returns at once. -/
theorem waitForMajority_of_no_pending {connected : Nat → Bool}
    (h : ∀ i < (getGroupSize cid).toNat, posted i ≤ 0) :
    waitForMajority cid connected posted [] =
      some (posted, decide (decidingSize cid / 2 < countSuccesses posted (decidingSize cid))) := by
  have hpending := countPosted_eq_zero h
  have hloop (size : UInt8) (w : Waiting) (hw : w.pending = 0) :
      waitLoop size connected [] w = some (w, []) := by
    rw [waitLoop, if_neg fun hcon => hcon.2 hw]
  rw [waitForMajority]
  simp only [hpending, hloop, decidingSize]
  split <;> rfl

/-- The configuration with all servers ON. -/
def allOn (cid : DareCid) : DareCid := { cid with bitmask := 0xFFFFFFFF }

theorem cidIsServerOn_allOn (i : Nat) : cidIsServerOn (allOn cid) i = true := by
  have hbits : ∀ j < 32, (0xFFFFFFFF : UInt32).toBitVec.getLsbD j = true := by decide
  rw [cidIsServerOn_eq_mod]
  exact hbits _ (Nat.mod_lt i (by decide))

/-- The lowest of the last slots of the second size that are more than half of it. -/
def lowest (cid : DareCid) : Nat := cid.size1.toNat - (cid.size1.toNat / 2 + 1)

/-- The round of server 0 in which just the servers from `lowest` on are connected, and complete the
    operation while it is posted. -/
def lastAnswer (cid : DareCid) : SendRound where
  idx := 0
  own := if lowest cid = 0 then 0 else -1
  connected := fun i => decide (lowest cid ≤ i ∧ i < cid.size1.toNat)
  early := ((List.range' 1 ((getGroupSize cid).toNat - 1)).filter fun i =>
    lowest cid ≤ i ∧ i < cid.size1.toNat).map fun i => ⟨i, true, .success⟩
  polls := []

theorem mem_early {i : Nat} :
    i ∈ (List.range' 1 ((getGroupSize cid).toNat - 1)).filter (fun i =>
        lowest cid ≤ i ∧ i < cid.size1.toNat) ↔
      0 < i ∧ i < (getGroupSize cid).toNat ∧ lowest cid ≤ i ∧ i < cid.size1.toNat := by
  rw [List.mem_filter, List.mem_range'_1, decide_eq_true_iff]
  omega

theorem lastAnswer_posted (i : Nat) : (lastAnswer cid).posted (allOn cid) i =
    if (getGroupSize cid).toNat ≤ i then 0 else if i = 0 then (lastAnswer cid).own
    else if lowest cid ≤ i ∧ i < cid.size1.toNat then 1 else -1 := by
  have hsize : getGroupSize (allOn cid) = getGroupSize cid := rfl
  simp only [SendRound.posted, groupSends, hsize, cidIsServerOn_allOn, Bool.true_and]
  simp only [lastAnswer, decide_eq_true_eq]

theorem lastAnswer_ok : (lastAnswer cid).Ok (allOn cid) where
  own := by
    simp only [lastAnswer]
    split
    · exact .inl rfl
    · exact .inr rfl
  posted := by
    intro wc hmem _
    obtain ⟨i, hi, rfl⟩ : ∃ i, i ∈ (List.range' 1 ((getGroupSize cid).toNat - 1)).filter (fun i =>
        lowest cid ≤ i ∧ i < cid.size1.toNat) ∧ WorkCompletion.mk i true .success = wc := by
      simpa [SendRound.completions, lastAnswer] using hmem
    obtain ⟨hpos, hlt, hin⟩ := mem_early.mp hi
    dsimp only
    rw [lastAnswer_posted, if_neg (by omega), if_neg (by omega), if_pos hin]
  nodup := by
    have hconns : ((lastAnswer cid).completions.filter WorkCompletion.current).map
        WorkCompletion.conn = (List.range' 1 ((getGroupSize cid).toNat - 1)).filter fun i =>
          lowest cid ≤ i ∧ i < cid.size1.toNat := by
      simp [SendRound.completions, lastAnswer, List.filter_map, Function.comp_def]
    rw [hconns]
    exact List.Nodup.filter _ List.nodup_range'

/-- `posted_sends` when everything was completed. -/
theorem lastAnswer_done (i : Nat) :
    emptyCompletionQueue ((lastAnswer cid).posted (allOn cid)) (lastAnswer cid).early i =
      if (getGroupSize cid).toNat ≤ i then 0 else if i = 0 then (lastAnswer cid).own
      else if lowest cid ≤ i ∧ i < cid.size1.toNat then 0 else -1 := by
  rw [lastAnswer, emptyCompletionQueue_successes (List.Nodup.filter _ List.nodup_range'),
    ← lastAnswer, lastAnswer_posted]
  simp only [mem_early]
  split
  · rename_i h
    have hlt : ¬(getGroupSize cid).toNat ≤ i := by omega
    have hpos : i ≠ 0 := by omega
    simp only [if_neg hlt, if_neg hpos, if_pos h.2.2]
    rfl
  · rename_i h
    split
    · rfl
    · split
      · rfl
      · rename_i hlt hpos
        have hnot : ¬(lowest cid ≤ i ∧ i < cid.size1.toNat) :=
          fun hin => h ⟨Nat.pos_of_ne_zero hpos, Nat.lt_of_not_le hlt, hin⟩
        rw [if_neg hnot, if_neg hnot]

/-- The round succeeds: all slots from `lowest` on are 0. -/
theorem lastAnswer_succeeds (hunstable : cid.state ≠ CID_STABLE) (hpos : cid.size1 ≠ 0) :
    ∃ posted', (lastAnswer cid).wait (allOn cid) = some (posted', true) := by
  have hsize1 : 0 < cid.size1.toNat := Nat.pos_of_ne_zero fun h => hpos (UInt8.toNat_inj.mp h)
  have htwo : (2 : UInt8).toNat = 2 := rfl
  have hsize : getGroupSize (allOn cid) = getGroupSize cid := rfl
  have hdeciding : decidingSize (allOn cid) = cid.size1 := if_neg hunstable
  have hown : (lastAnswer cid).own ≤ 0 := by
    simp only [lastAnswer]
    split <;> decide
  let posted := emptyCompletionQueue ((lastAnswer cid).posted (allOn cid)) (lastAnswer cid).early
  -- more than half of the slots of the new size are 0
  have hcard : cid.size1.toNat / 2 + 1 ≤ (members cid.size1.toNat fun i => posted i == 0).card := by
    have hsub : Finset.Ico (lowest cid) cid.size1.toNat ⊆
        members cid.size1.toNat fun i => posted i == 0 := by
      intro i hi
      obtain ⟨hlo, hhi⟩ := Finset.mem_Ico.mp hi
      refine mem_members.mpr ⟨hhi, beq_iff_eq.mpr ?_⟩
      show emptyCompletionQueue _ _ i = 0
      rw [lastAnswer_done]
      split
      · rfl
      · split
        · rename_i hzero
          rw [lastAnswer, if_pos (by omega)]
        · rw [if_pos ⟨hlo, hhi⟩]
    have hle := Finset.card_le_card hsub
    rw [Nat.card_Ico, lowest] at hle
    omega
  refine ⟨posted, ?_⟩
  rw [SendRound.wait]
  refine (waitForMajority_of_no_pending fun i hi => ?_).trans ?_
  · rw [lastAnswer_done, ← hsize, if_neg (by omega)]
    split
    · exact hown
    · split <;> decide
  · rw [hdeciding]
    have hpass : cid.size1 / 2 < countSuccesses posted cid.size1 := by
      rw [UInt8.lt_iff_toNat_lt, UInt8.toNat_div, htwo, toNat_countSuccesses]
      exact hcard
    rw [decide_eq_true hpass]

/-- All that have answered are slots from `lowest` on. -/
theorem lastAnswer_answered (hpos : cid.size1 ≠ 0) {i : Nat}
    (h : (lastAnswer cid).answered i = true) : lowest cid ≤ i ∧ i < cid.size1.toNat := by
  have hsize1 : 0 < cid.size1.toNat := Nat.pos_of_ne_zero fun h => hpos (UInt8.toNat_inj.mp h)
  rw [SendRound.answered, Bool.or_eq_true, Bool.and_eq_true, beq_iff_eq, beq_iff_eq] at h
  rcases h with ⟨hidx, hown⟩ | h
  · have hidx : i = 0 := hidx
    have hlow : lowest cid = 0 := by
      by_contra hne
      rw [lastAnswer, if_neg hne] at hown
      exact absurd hown (show (-1 : Int) ≠ 0 by decide)
    omega
  · obtain ⟨wc, hmem, hwc⟩ := List.any_eq_true.mp h
    obtain ⟨j, hj, rfl⟩ : ∃ j, j ∈ (List.range' 1 ((getGroupSize cid).toNat - 1)).filter (fun i =>
        lowest cid ≤ i ∧ i < cid.size1.toNat) ∧ WorkCompletion.mk j true .success = wc := by
      simpa [SendRound.completions, lastAnswer] using hmem
    simp only [Bool.and_eq_true, beq_iff_eq] at hwc
    exact hwc.1.1 ▸ (mem_early.mp hj).2.2

/-- **For which sizes a round that succeeds has the majorities**, whoever is ON, provided that the first
    completion of every poll tells. -/
theorem isMajority_iff (cid : DareCid) :
    (∀ bitmask, ∀ r : SendRound, r.Ok { cid with bitmask := bitmask } → r.Tells →
      r.MajorityOk { cid with bitmask := bitmask }) ↔ SizesMeet cid := by
  constructor
  · intro h
    by_contra hsizes
    simp only [SizesMeet, not_or, not_le] at hsizes
    obtain ⟨hunstable, hpos, hgap⟩ := hsizes
    have htells : (lastAnswer cid).Tells := fun poll hpoll => absurd hpoll List.not_mem_nil
    obtain ⟨posted', hwait⟩ := lastAnswer_succeeds hunstable hpos
    obtain ⟨hmajority, -⟩ := h 0xFFFFFFFF (lastAnswer cid) lastAnswer_ok htells posted' hwait
    -- those that have answered are too few of the old size
    have hsub : members cid.size0.toNat (lastAnswer cid).answered ⊆
        Finset.Ico (lowest cid) (min cid.size0.toNat cid.size1.toNat) := by
      intro i hi
      obtain ⟨hlt, hanswered⟩ := mem_members.mp hi
      obtain ⟨hlo, hhi⟩ := lastAnswer_answered hpos hanswered
      exact Finset.mem_Ico.mpr ⟨hlo, lt_min hlt hhi⟩
    have hle := Finset.card_le_card hsub
    rw [Nat.card_Ico, lowest] at hle
    rw [IsMajority] at hmajority
    have hmajority' : cid.size0.toNat / 2 + 1 ≤
        (members cid.size0.toNat (lastAnswer cid).answered).card := hmajority
    omega
  · intro hsizes bitmask r hok htells
    exact SendRound.isMajority hok htells hsizes

/-- A stable group of three. -/
def stableThree : DareCid := ⟨0, 3, 0, CID_STABLE, 7⟩

/-- Server 0 reads from servers 1 and 2; both completions are found by one poll, and the second of them
    is a failure. -/
def mixedPoll : SendRound := ⟨0, -1, fun _ => true, [], [[⟨1, true, .success⟩, ⟨2, true, .failure⟩]]⟩

/-- One server is added to a group of four. -/
def extendedFour : DareCid := ⟨0, 4, 5, CID_EXTENDED, 31⟩

/-- Server 0 writes to servers 1, 2 and 3, and only the write to server 1 is completed successfully. -/
def oneOfThree : SendRound :=
  ⟨0, 0, fun _ => true, [], [[⟨1, true, .success⟩], [⟨2, true, .failure⟩], [⟨3, true, .failure⟩]]⟩

/-- Both rounds succeed, with one of three and with two of four servers. -/
theorem not_isMajority :
    (mixedPoll.Ok stableThree ∧ ¬mixedPoll.MajorityOk stableThree) ∧
      oneOfThree.Ok extendedFour ∧ oneOfThree.Tells ∧ ¬oneOfThree.MajorityOk extendedFour := by
  have hfail {cid : DareCid} {r : SendRound} (hwait : (r.wait cid).any (fun p => p.2) = true)
      (hcard : (members cid.size0.toNat r.answered).card ≤ cid.size0.toNat / 2) :
      ¬r.MajorityOk cid := by
    intro hok
    obtain ⟨⟨posted', result⟩, hsome, hresult⟩ := (Option.any_eq_true _ _).mp hwait
    obtain rfl : result = true := hresult
    have hmajority := (hok posted' hsome).1
    rw [IsMajority] at hmajority
    omega
  refine ⟨⟨⟨.inr rfl, by decide +kernel, by decide +kernel⟩, hfail ?_ ?_⟩,
    ⟨.inl rfl, by decide +kernel, by decide +kernel⟩, by decide +kernel, hfail ?_ ?_⟩ <;> decide +kernel

end Apus
