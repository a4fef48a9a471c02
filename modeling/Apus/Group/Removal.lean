import Apus.Group.Bounds
import Apus.Lib.Quorum

namespace Apus

open Lib

/-!
# Removals by the leader

A leader removes servers in two ways: `check_failure_count` removes those it cannot reach, and
`force_log_pruning` removes the one whose apply offset is farthest behind.  Both turn bits of the
bitmask off while the size of the group stays what it was.

* `checkFailureCount_keeps` — the first counts the servers that are left, and shuts the server down
  when they are no majority;
* `forced_keeps_iff` — the second does not look at the others;
* `removals_keep_majority` — the runs in which a majority is left.
-/

/-- More than half of the group are ON. -/
def KeepsMajority (cid : DareCid) : Prop :=
  IsMajority (getGroupSize cid).toNat (cidIsServerOn cid)

instance (cid : DareCid) : Decidable (KeepsMajority cid) :=
  inferInstanceAs (Decidable (_ / 2 + 1 ≤ (members _ _).card))

/-- A leader, and the configurations of the CONFIG entries it appended for removals. -/
structure OfficeState where
  cid : DareCid
  idx : Nat
  removals : List DareCid

namespace OfficeState

/-- Too many attempts to access the server failed. -/
def isFailed (failCount : Nat → UInt8) (i : Nat) : Bool := decide (PERMANENT_FAILURE ≤ failCount i)

/-- The servers that `check_failure_count` counts as connected. -/
def connections (cid : DareCid) (failCount : Nat → UInt8) : Nat :=
  ((List.range (getGroupSize cid).toNat).filter fun i =>
    cidIsServerOn cid i && !isFailed failCount i).length

/-- The leader appends a CONFIG entry for a removal. -/
def remove (s : OfficeState) (cid : DareCid) : OfficeState :=
  { s with cid := cid, removals := s.removals ++ [cid] }

/-- `check_failure_count`; `none` if the server shuts down. -/
def checkFailureCount (s : OfficeState) (failCount : Nat → UInt8) : Option OfficeState :=
  let cid := if s.cid.state = CID_STABLE then removeFailed s.cid (isFailed failCount) else s.cid
  if connections s.cid failCount ≤ (getGroupSize s.cid).toNat / 2 then none
  else if equalCid cid s.cid then some s
  else some (s.remove cid)

/-- `force_log_pruning`, without the pruning of the log. -/
def forceLogPruning (s : OfficeState) (log : DareLog) (applyOffsets : Nat → Nat) : OfficeState :=
  match forceRemoved log applyOffsets s.cid s.idx with
  | none => s
  | some target => s.remove (cidServerRm s.cid target)

end OfficeState

inductive OfficeLabel
  | checkFailureCount (failCount : Nat → UInt8)
  | forceLogPruning (log : DareLog) (applyOffsets : Nat → Nat)
  /-- The configuration changes in another way. -/
  | config (cid : DareCid)

/-- One step of a leader. -/
def officeStep (s : OfficeState) : OfficeLabel → Option OfficeState
  | .checkFailureCount failCount => s.checkFailureCount failCount
  | .forceLogPruning log applyOffsets => some (s.forceLogPruning log applyOffsets)
  | .config cid =>
    if cid.size0.toNat ≤ MAX_SERVER_COUNT ∧ cid.size1.toNat ≤ MAX_SERVER_COUNT then
      some { s with cid := cid }
    else none

abbrev OfficeStep (s : OfficeState) (l : OfficeLabel) (s' : OfficeState) : Prop :=
  officeStep s l = some s'

/-- A new leader, with any configuration. -/
def officeInit (s : OfficeState) : Prop := SizesFit s.cid ∧ s.removals = []

/-- A forced pruning finds more than a bare majority to be ON if the slowest server, which is ON and
    not the leader, is one of the group, and a majority if it is an extra server. -/
def officeOk (s : OfficeState) : OfficeLabel → Prop
  | .forceLogPruning log applyOffsets => belowThreshold log = false →
    ∀ t, t ≠ s.idx → cidIsServerOn s.cid t = true → Slowest log applyOffsets s.cid t →
      (getGroupSize s.cid).toNat / 2 + (if t < (getGroupSize s.cid).toNat then 2 else 1) ≤
        (members (getGroupSize s.cid).toNat (cidIsServerOn s.cid)).card
  | _ => True

variable {s s' : OfficeState} {l : OfficeLabel} {cid : DareCid} {failCount : Nat → UInt8}
  {log : DareLog} {applyOffsets : Nat → Nat} {t : Nat}

/-! ### The failure count -/

/-- The loop of `check_failure_count` turns the failed servers OFF. -/
theorem cidIsServerOn_removeFailed (failed : Nat → Bool) {j n : Nat} (hn : n ≤ 32) (hj : j < 32) :
    cidIsServerOn ((List.range n).foldl
      (fun c i => if cidIsServerOn c i && failed i then cidServerRm c i else c) cid) j =
        (cidIsServerOn cid j && !(decide (j < n) && failed j)) := by
  induction n with
  | zero => simp
  | succ n ih =>
    have ih := ih (by omega)
    rw [List.range_succ, List.foldl_append, List.foldl_cons, List.foldl_nil]
    generalize (List.range n).foldl
      (fun c i => if cidIsServerOn c i && failed i then cidServerRm c i else c) cid = c at ih ⊢
    -- one iteration only turns OFF the server of its index
    by_cases hjn : j = n
    · subst hjn
      simp only [Nat.lt_irrefl, decide_false, Bool.false_and, Bool.not_false, Bool.and_true] at ih
      split
      · rename_i hfail
        rw [Bool.and_eq_true] at hfail
        rw [cidIsServerOn_rm c hj hj]
        simp [hfail.2]
      · rename_i hfail
        rw [← ih]
        cases hon : cidIsServerOn c j <;> simp [hon] at hfail ⊢
        exact hfail
    · have hlt : (j < n + 1) ↔ j < n := by omega
      have hother : cidIsServerOn (if cidIsServerOn c n && failed n then cidServerRm c n else c) j =
          cidIsServerOn c j := by
        split
        · rw [cidIsServerOn_rm c (by omega) hj]
          have hne : ¬ n = j := fun h => hjn h.symm
          simp [hne]
        · rfl
      rw [hother, ih]
      simp [hlt]

/-- The size of a group does not change when servers are removed. -/
theorem getGroupSize_removeFailed (cid : DareCid) (failed : Nat → Bool) :
    getGroupSize (removeFailed cid failed) = getGroupSize cid ∧
      (removeFailed cid failed).size0 = cid.size0 ∧
      (removeFailed cid failed).size1 = cid.size1 := by
  unfold removeFailed
  refine List.foldlRecOn (motive := fun c => getGroupSize c = getGroupSize cid ∧
    c.size0 = cid.size0 ∧ c.size1 = cid.size1) _ _ ⟨rfl, rfl, rfl⟩ ?_
  intro c hc i _
  split
  · exact hc
  · exact hc

/-- The servers that are left are those that were counted. -/
theorem card_removeFailed (failCount : Nat → UInt8) (hsize : SizesFit cid) :
    (members (getGroupSize cid).toNat
      (cidIsServerOn (removeFailed cid (OfficeState.isFailed failCount)))).card =
        OfficeState.connections cid failCount := by
  have hfit := hsize.getGroupSize
  simp only [MAX_SERVER_COUNT] at hfit
  unfold OfficeState.connections
  rw [length_filter_range]
  congr 1
  ext i
  simp only [mem_members]
  refine and_congr_right fun hi => ?_
  rw [removeFailed, cidIsServerOn_removeFailed _ (by omega) (by omega)]
  simp [hi]

/-- A removal by the failure count leaves a majority. -/
theorem checkFailureCount_keeps (hsize : SizesFit s.cid)
    (h : s.checkFailureCount failCount = some s') :
    SizesFit s'.cid ∧ (s' = s ∨ ∃ cid, s' = s.remove cid ∧ KeepsMajority cid) := by
  unfold OfficeState.checkFailureCount at h
  simp only at h
  by_cases hconn : OfficeState.connections s.cid failCount ≤ (getGroupSize s.cid).toNat / 2
  · rw [if_pos hconn] at h
    cases h
  rw [if_neg hconn] at h
  by_cases hstable : s.cid.state = CID_STABLE
  · rw [if_pos hstable] at h
    obtain ⟨hgroup, h0, h1⟩ := getGroupSize_removeFailed s.cid (OfficeState.isFailed failCount)
    have hcard := card_removeFailed failCount hsize
    split at h
    · obtain rfl := Option.some.inj h
      exact ⟨hsize, .inl rfl⟩
    · obtain rfl := Option.some.inj h
      refine ⟨?_, .inr ⟨_, rfl, ?_⟩⟩
      · unfold SizesFit OfficeState.remove
        rw [h0, h1]
        exact hsize
      · -- what is left is what was counted
        unfold KeepsMajority IsMajority
        rw [hgroup, hcard]
        omega
  · -- only a stable configuration loses servers
    rw [if_neg hstable, if_pos ((equalCid_iff s.cid s.cid).mpr rfl)] at h
    obtain rfl := Option.some.inj h
    exact ⟨hsize, .inl rfl⟩

/-! ### Forced pruning -/

/-- Turning a server of the group OFF takes one from the count, and another server none. -/
theorem card_cidServerRm {n : Nat} (hn : n ≤ 32) (ht : t < 32)
    (hon : cidIsServerOn cid t = true) :
    (members n (cidIsServerOn (cidServerRm cid t))).card + (if t < n then 1 else 0) =
      (members n (cidIsServerOn cid)).card := by
  have herase : members n (cidIsServerOn (cidServerRm cid t)) =
      (members n (cidIsServerOn cid)).erase t := by
    ext i
    simp only [Finset.mem_erase, mem_members]
    constructor
    · rintro ⟨hi, h⟩
      rw [cidIsServerOn_rm cid ht (by omega)] at h
      simp only [Bool.and_eq_true, Bool.not_eq_true', decide_eq_false_iff_not] at h
      exact ⟨fun heq => h.1 heq.symm, hi, h.2⟩
    · rintro ⟨hne, hi, h⟩
      rw [cidIsServerOn_rm cid ht (by omega)]
      have hne' : ¬ t = i := fun heq => hne heq.symm
      exact ⟨hi, by simp [hne', h]⟩
  rw [herase]
  by_cases htn : t < n
  · have hmem : t ∈ members n (cidIsServerOn cid) := mem_members.mpr ⟨htn, hon⟩
    have hpos := Finset.card_pos.mpr ⟨t, hmem⟩
    rw [Finset.card_erase_of_mem hmem, if_pos htn]
    omega
  · have hnot : t ∉ members n (cidIsServerOn cid) := fun hcon => htn (mem_members.mp hcon).1
    rw [Finset.erase_eq_of_notMem hnot, if_neg htn, Nat.add_zero]

/-- A removal by forced pruning leaves a majority exactly if enough servers were ON. -/
theorem forced_keeps_iff (hsize : SizesFit cid)
    (ht : t < (getExtendedGroupSize cid).toNat) (hon : cidIsServerOn cid t = true) :
    KeepsMajority (cidServerRm cid t) ↔
      (getGroupSize cid).toNat / 2 + (if t < (getGroupSize cid).toNat then 2 else 1) ≤
        (members (getGroupSize cid).toNat (cidIsServerOn cid)).card := by
  have hfit := hsize.getGroupSize
  have hext := hsize.getExtendedGroupSize
  simp only [MAX_SERVER_COUNT] at hfit hext
  have hcard := card_cidServerRm (n := (getGroupSize cid).toNat) (by omega)
    (show t < 32 by omega) hon
  have hgroup : getGroupSize (cidServerRm cid t) = getGroupSize cid := rfl
  unfold KeepsMajority IsMajority
  rw [hgroup]
  by_cases htn : t < (getGroupSize cid).toNat
  · rw [if_pos htn] at hcard ⊢
    omega
  · rw [if_neg htn] at hcard ⊢
    omega

/-! ### Every run -/

/-- The invariant of the runs. -/
structure OfficeInv (s : OfficeState) : Prop where
  sizes : SizesFit s.cid
  majority : ∀ cid ∈ s.removals, KeepsMajority cid

theorem OfficeInv.remove (h : OfficeInv s) (hsize : SizesFit cid) (hkeeps : KeepsMajority cid) :
    OfficeInv (s.remove cid) := by
  refine ⟨hsize, fun c hc => ?_⟩
  rcases List.mem_append.mp hc with hc | hc
  · exact h.majority c hc
  · rw [List.mem_singleton.mp hc]
    exact hkeeps

/-- Every step under the condition keeps the invariant. -/
theorem OfficeInv.step (h : OfficeInv s) (hok : officeOk s l) (hs : OfficeStep s l s') :
    OfficeInv s' := by
  cases l with
  | checkFailureCount failCount =>
    obtain ⟨hsize, rfl | ⟨cid, rfl, hkeeps⟩⟩ := checkFailureCount_keeps h.sizes hs
    · exact h
    · exact h.remove hsize hkeeps
  | forceLogPruning log applyOffsets =>
    obtain rfl := Option.some.inj hs
    unfold OfficeState.forceLogPruning
    cases hremoved : forceRemoved log applyOffsets s.cid s.idx with
    | none => exact h
    | some t =>
      obtain ⟨hlarge, hne, hon, hslow⟩ := slowest_of_removed hremoved
      exact h.remove h.sizes
        ((forced_keeps_iff h.sizes hslow.1 hon).mpr (hok hlarge t hne hon hslow))
  | config cid =>
    unfold OfficeStep officeStep at hs
    simp only at hs
    split at hs
    · rename_i hfit
      obtain rfl := Option.some.inj hs
      exact ⟨hfit, h.majority⟩
    · cases hs

/-- **The leader keeps its majority** in every run in which a forced pruning only removes a server of
    the group when more than a bare majority is ON. -/
theorem removals_keep_majority (h : Reach officeInit OfficeStep officeOk s) :
    ∀ cid ∈ s.removals, KeepsMajority cid := by
  have hinv : OfficeInv s := by
    refine h.invariant (fun s hinit => ⟨hinit.1, ?_⟩) fun _ _ _ hinv hok hs =>
      OfficeInv.step hinv hok hs
    rw [hinit.2]
    exact fun _ hc => absurd hc List.not_mem_nil
  exact hinv.majority

section Slow

/-- A log that is three quarters full, and applied. -/
def fullLog : DareLog := logOf 0 50331648 50331648 zeroMem

/-- All servers are as far as the leader, but one. -/
def slowOffsets (t : Nat) : Nat → Nat := fun i => if i = t then 0 else 50331648

/-- The first server of a stable group of `n` as leader. -/
def officeOf (n : Nat) : OfficeState := { cid := initCid n, idx := 0, removals := [] }

/-- A server that is slower than the leader is removed. -/
def pruned (s : OfficeState) (t : Nat) : OfficeState :=
  s.forceLogPruning fullLog (slowOffsets t)

theorem officeStep_pruned (s : OfficeState) (t : Nat) :
    OfficeStep s (.forceLogPruning fullLog (slowOffsets t)) (pruned s t) := by
  unfold OfficeStep officeStep pruned
  rfl

/-- A group of five loses a slow server. -/
theorem removals_keep_majority_five :
    (pruned (officeOf 5) 1).removals ≠ [] ∧
      ∀ cid ∈ (pruned (officeOf 5) 1).removals, KeepsMajority cid := by
  have hinit : officeInit (officeOf 5) := ⟨⟨by decide +kernel, by decide +kernel⟩, rfl⟩
  refine ⟨by decide +kernel, removals_keep_majority (.step (.start hinit) ?_ (officeStep_pruned _ 1))⟩
  intro _ t _ _ _
  have hcard : 2 + 2 ≤ (members 5 (cidIsServerOn (initCid 5))).card := by decide +kernel
  refine Nat.le_trans (Nat.add_le_add_left ?_ 2) hcard
  split <;> decide

/-- Two forced prunings in a group of three leave the leader alone. -/
theorem not_removals_keep_majority : ¬ ∀ s, Reach officeInit OfficeStep Always s →
    ∀ cid ∈ s.removals, KeepsMajority cid := by
  intro hall
  have hinit : officeInit (officeOf 3) := ⟨⟨by decide +kernel, by decide +kernel⟩, rfl⟩
  have hone : Reach officeInit OfficeStep Always (pruned (officeOf 3) 1) :=
    .step (.start hinit) trivial (officeStep_pruned _ 1)
  have htwo := hone.step trivial (officeStep_pruned _ 2)
  have hlast : initCid 3 ≠ (pruned (pruned (officeOf 3) 1) 2).cid ∧
      (pruned (pruned (officeOf 3) 1) 2).cid ∈ (pruned (pruned (officeOf 3) 1) 2).removals := by
    decide +kernel
  exact absurd (hall _ htwo _ hlast.2) (by decide +kernel)

end Slow

end Apus
