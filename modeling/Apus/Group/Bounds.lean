import Apus.Group.Invariant

namespace Apus

open Lib

/-!
# Indices of servers

The arrays `config.servers` and those of `ctrl_data` have `MAX_SERVER_COUNT` slots.  The sizes of the
configuration are the only bound of the loops, and grow by one with every upsize; the index a message
carries is only tested with the bitmask; and a forced pruning that removes a server writes the slot
behind the last one instead of that server's.

Under `boundsOk` none of the three happens, and every index is in bounds (`indices_in_bounds`).  The
server that forced pruning removes is described by `Slowest`: the one whose apply offset is farthest
behind the leader's.
-/

/-- Every index used so far is in bounds, and a forced pruning only writes the slots of servers,
    including that of the server it removes. -/
def InBounds (s : GroupState) : Prop :=
  (∀ a ∈ s.accesses, a.index < MAX_SERVER_COUNT) ∧
    ∀ p ∈ s.prunings, (∀ i ∈ p.written, i < p.size) ∧ ∀ t ∈ p.removed, t ∈ p.written

/-- The first of the servers whose apply offset is farthest behind that of the leader. -/
structure Slowest (log : DareLog) (applyOffsets : Nat → Nat) (cid : DareCid) (t : Nat) : Prop where
  lt : t < (getExtendedGroupSize cid).toNat
  behind : logIsOffsetLarger log log.apply (applyOffsets t) = true
  last : ∀ j < (getExtendedGroupSize cid).toNat,
    logIsOffsetLarger log (applyOffsets t) (applyOffsets j) = false
  first : ∀ j < t, logIsOffsetLarger log (applyOffsets j) (applyOffsets t) = true

/-- The group is not upsized beyond the arrays, a message whose index passes the test of the bitmask
    has one of the arrays, and no forced pruning has to remove a server. -/
def boundsOk (s : GroupState) : GroupLabel → Prop
  | .join i lids lid _ _ =>
      joinSlot (s.members i).cid lids lid = some (s.members i).cid.size0.toNat →
        (s.members i).cid.size0.toNat < MAX_SERVER_COUNT
  | .rcSyn i msgIdx msgSize =>
      cidIsServerOn (s.members i).cid msgIdx.toNat = true → (s.members i).idx < msgSize.toNat →
        msgIdx.toNat < MAX_SERVER_COUNT
  | .rcAck i msgIdx _ =>
      cidIsServerOn (s.members i).cid msgIdx.toNat = true → msgIdx.toNat < MAX_SERVER_COUNT
  | .forceLogPruning i log applyOffsets =>
      belowThreshold log = true ∨ ∀ t, t ≠ (s.members i).idx →
        cidIsServerOn (s.members i).cid t = true → ¬ Slowest log applyOffsets (s.members i).cid t
  | _ => True

/-- Both sizes are in bounds. -/
def SizesFit (cid : DareCid) : Prop :=
  cid.size0.toNat ≤ MAX_SERVER_COUNT ∧ cid.size1.toNat ≤ MAX_SERVER_COUNT

variable {cid : DareCid} {s s' : GroupState} {l : GroupLabel} {log : DareLog}
  {applyOffsets : Nat → Nat} {idx t : Nat} {lids : Nat → UInt16} {lid : UInt16}

/-! ### Sizes -/

theorem SizesFit.getExtendedGroupSize (h : SizesFit cid) :
    (getExtendedGroupSize cid).toNat ≤ MAX_SERVER_COUNT := by
  unfold Apus.getExtendedGroupSize
  split
  · exact h.1
  · split
    · exact h.2
    · exact h.1

theorem SizesFit.getGroupSize (h : SizesFit cid) : (getGroupSize cid).toNat ≤ MAX_SERVER_COUNT := by
  unfold Apus.getGroupSize
  split
  · exact h.1
  · split
    · exact h.2
    · exact h.1

theorem SizesFit.join {empty : Nat} (h : SizesFit cid)
    (hfit : empty = cid.size0.toNat → cid.size0.toNat < MAX_SERVER_COUNT) :
    SizesFit (joinCid cid empty) := by
  unfold joinCid cidServerAdd
  simp only
  split
  · rename_i hslot
    have hlt := hfit hslot
    have hsize : (cid.size0 + 1).toNat = cid.size0.toNat + 1 := by
      simp only [MAX_SERVER_COUNT] at hlt
      rw [UInt8.toNat_add, UInt8.toNat_one]
      omega
    refine ⟨h.1, ?_⟩
    show (cid.size0 + 1).toNat ≤ MAX_SERVER_COUNT
    omega
  · exact h

theorem SizesFit.next (h : SizesFit cid) (state : UInt8) : SizesFit (nextCid cid state) := by
  rcases nextCid_cases cid state with ⟨-, heq⟩ | ⟨-, b, heq⟩ | ⟨-, -, heq⟩
  · rw [heq]
    exact h
  · rw [heq]
    exact ⟨h.2, Nat.zero_le _⟩
  · rw [heq]
    exact h

theorem SizesFit.takeOver (h : SizesFit cid) (state : UInt8) :
    SizesFit (Member.takeOverCid cid state) := by
  rcases takeOverCid_cases cid state with heq | ⟨b, heq⟩
  · rw [heq]
    exact h
  · rw [heq]
    exact ⟨h.2, Nat.zero_le _⟩

theorem keepsCid_sizesFit (hok : boundsOk s l) : KeepsCid SizesFit (fun _ => 0) s l where
  join := by
    rintro i lids lid slid reqId empty rfl hslot h
    refine ⟨h.join ?_, le_refl _⟩
    rintro rfl
    exact hok hslot
  remove := fun _ _ h => ⟨h, le_refl _⟩
  next := fun _ _ _ _ _ _ h => ⟨h.next _, le_refl _⟩
  takeOver := fun _ state _ h => ⟨h.takeOver state, le_refl _⟩

/-! ### JOIN requests and messages -/

theorem joinScan_le {n empty slot : Nat} (h : joinScan cid lids lid n empty = some slot) :
    slot = empty ∨ slot < n := by
  induction n generalizing empty with
  | zero => exact .inl (Option.some.inj h).symm
  | succ n ih =>
    rw [joinScan] at h
    split at h
    · split at h
      · cases h
      · rcases ih h with h | h
        · exact .inl h
        · exact .inr (by omega)
    · rcases ih h with h | h
      · exact .inr (by omega)
      · exact .inr (by omega)

/-- The slot found is one of a server that is OFF, or the one behind the last. -/
theorem joinScan_off {n empty slot : Nat} (h : joinScan cid lids lid n empty = some slot) :
    slot = empty ∨ cidIsServerOn cid slot = false := by
  induction n generalizing empty with
  | zero => exact .inl (Option.some.inj h).symm
  | succ n ih =>
    rw [joinScan] at h
    split at h
    · split at h
      · cases h
      · exact ih h
    · rename_i hoff
      rcases ih h with rfl | h
      · exact .inr (by simpa using hoff)
      · exact .inr h

theorem joinScanned_lt {n i : Nat} (h : i ∈ joinScanned cid lids lid n) : i < n := by
  induction n with
  | zero => cases h
  | succ n ih =>
    rw [joinScanned] at h
    split at h
    · split at h
      · rw [List.mem_singleton] at h
        omega
      · rcases List.mem_cons.mp h with h | h
        · omega
        · exact (ih h).trans (Nat.lt_succ_self n)
    · exact (ih h).trans (Nat.lt_succ_self n)

theorem joinAccesses_lt (h : SizesFit cid)
    (hfit : joinSlot cid lids lid = some cid.size0.toNat → cid.size0.toNat < MAX_SERVER_COUNT) :
    ∀ a ∈ joinAccesses cid lids lid, a.index < MAX_SERVER_COUNT := by
  intro a ha
  have hsize := h.1
  unfold joinAccesses at ha
  split at ha
  · cases ha
  · rename_i hstable
    rcases List.mem_append.mp ha with ha | ha
    · obtain ⟨i, hi, rfl⟩ := List.mem_map.mp ha
      have hlt := joinScanned_lt hi
      show i < MAX_SERVER_COUNT
      omega
    · split at ha
      · cases ha
      · rename_i slot hslot
        have hlt : slot < MAX_SERVER_COUNT := by
          have hscan := hslot
          rw [joinSlot, if_neg hstable] at hscan
          rcases joinScan_le hscan with hs | hs
          · subst hs
            exact hfit hslot
          · omega
        simp only [List.mem_cons, List.not_mem_nil, or_false] at ha
        rcases ha with rfl | rfl | rfl
        · exact hlt
        · exact hlt
        · exact hlt

theorem connectionAccesses_lt (h : SizesFit cid) :
    ∀ a ∈ connectionAccesses cid idx, a.index < MAX_SERVER_COUNT := by
  intro a ha
  obtain ⟨i, hi, rfl⟩ := List.mem_map.mp ha
  have hlt := List.mem_range.mp (List.mem_of_mem_filter hi)
  exact Nat.lt_of_lt_of_le hlt h.getGroupSize

/-! ### Forced pruning -/

theorem pruningWrites_lt {i : Nat} (h : i ∈ pruningWrites cid idx) :
    i < (getExtendedGroupSize cid).toNat := by
  rcases List.mem_append.mp h with h | h
  · exact List.mem_range.mp (List.mem_of_mem_filter h)
  · exact List.mem_range.mp (List.mem_of_mem_filter h)

/-- The loop of a forced pruning ends with the leader, if nobody is behind it, or with the first of
    the servers that are farthest behind. -/
theorem forceScan_spec (log : DareLog) (applyOffsets : Nat → Nat) (idx n : Nat) :
    let r := (List.range n).foldl (forceScanStep log applyOffsets) (log.apply, idx)
    (r = (log.apply, idx) ∧ ∀ j < n, logIsOffsetLarger log log.apply (applyOffsets j) = false) ∨
    (r.1 = applyOffsets r.2 ∧ r.2 < n ∧
      logIsOffsetLarger log log.apply (applyOffsets r.2) = true ∧
      (∀ j < n, logIsOffsetLarger log (applyOffsets r.2) (applyOffsets j) = false) ∧
      ∀ j < r.2, logIsOffsetLarger log (applyOffsets j) (applyOffsets r.2) = true) := by
  induction n with
  | zero => exact .inl ⟨rfl, fun j hj => absurd hj (Nat.not_lt_zero j)⟩
  | succ n ih =>
    simp only [List.range_succ, List.foldl_append, List.foldl_cons, List.foldl_nil] at ih ⊢
    generalize (List.range n).foldl (forceScanStep log applyOffsets) (log.apply, idx) = r at ih ⊢
    -- the comparison is that of the distances to the end
    simp only [forceScanStep, logIsOffsetLarger, decide_eq_true_eq, decide_eq_false_iff_not] at ih ⊢
    rcases ih with ⟨rfl, hnone⟩ | ⟨hmin, hlt, hbehind, hlast, hfirst⟩
    · split
      · rename_i hlarger
        right
        refine ⟨rfl, Nat.lt_succ_self n, hlarger, ?_, ?_⟩
        · intro j hj
          rcases Nat.lt_succ_iff_lt_or_eq.mp hj with hj | rfl
          · have hj' := hnone j hj
            simp only at hlarger ⊢
            omega
          · exact Nat.lt_irrefl _
        · intro j hj
          have hj' := hnone j hj
          simp only at hlarger ⊢
          omega
      · rename_i hnot
        left
        refine ⟨rfl, ?_⟩
        intro j hj
        rcases Nat.lt_succ_iff_lt_or_eq.mp hj with hj | rfl
        · exact hnone j hj
        · exact hnot
    · rw [hmin]
      split
      · rename_i hlarger
        right
        refine ⟨rfl, Nat.lt_succ_self n, ?_, ?_, ?_⟩
        · simp only
          omega
        · intro j hj
          rcases Nat.lt_succ_iff_lt_or_eq.mp hj with hj | rfl
          · have hj' := hlast j hj
            simp only
            omega
          · exact Nat.lt_irrefl _
        · intro j hj
          have hj' := hlast j hj
          simp only
          omega
      · rename_i hnot
        right
        refine ⟨hmin, hlt.trans (Nat.lt_succ_self n), hbehind, ?_, hfirst⟩
        intro j hj
        rcases Nat.lt_succ_iff_lt_or_eq.mp hj with hj | rfl
        · exact hlast j hj
        · exact hnot

/-- A forced pruning removes the slowest server, if it is ON. -/
theorem slowest_of_removed (h : forceRemoved log applyOffsets cid idx = some t) :
    belowThreshold log = false ∧ t ≠ idx ∧ cidIsServerOn cid t = true ∧
      Slowest log applyOffsets cid t := by
  simp only [forceRemoved] at h
  split at h
  · cases h
  · rename_i hlarge
    split at h
    · rename_i hcond
      obtain rfl := Option.some.inj h
      refine ⟨by simpa using hlarge, hcond.1, hcond.2, ?_⟩
      rcases forceScan_spec log applyOffsets idx (getExtendedGroupSize cid).toNat with
        ⟨hidx, -⟩ | ⟨-, hlt, hbehind, hlast, hfirst⟩
      · exact absurd (congrArg Prod.snd hidx) hcond.1
      · exact ⟨hlt, hbehind, hlast, hfirst⟩
    · cases h

theorem forceRemoved_eq_none (h : belowThreshold log = true ∨
    ∀ t, t ≠ idx → cidIsServerOn cid t = true → ¬ Slowest log applyOffsets cid t) :
    forceRemoved log applyOffsets cid idx = none := by
  by_contra hcon
  obtain ⟨t, ht⟩ := Option.ne_none_iff_exists'.mp hcon
  obtain ⟨hlarge, hne, hon, hslow⟩ := slowest_of_removed ht
  rcases h with h | h
  · exact absurd (h.symm.trans hlarge) (by decide)
  · exact h t hne hon hslow

/-- Without a removal, a forced pruning writes the slots of servers. -/
theorem forcedPruning_written (h : forceRemoved log applyOffsets cid idx = none) :
    ∀ i ∈ (forcedPruning log applyOffsets cid idx).written,
      i < (getExtendedGroupSize cid).toNat := by
  intro i hi
  simp only [forcedPruning, h] at hi
  split at hi
  · cases hi
  · exact pruningWrites_lt hi

theorem forceAccesses_lt (hsize : SizesFit cid)
    (h : forceRemoved log applyOffsets cid idx = none) :
    ∀ a ∈ forceAccesses log applyOffsets cid idx, a.index < MAX_SERVER_COUNT := by
  intro a ha
  have hext := hsize.getExtendedGroupSize
  have hlt : a.index < (getExtendedGroupSize cid).toNat := by
    unfold forceAccesses at ha
    split at ha
    · cases ha
    · simp only [List.mem_append, List.mem_map, List.mem_range] at ha
      rcases ha with (((⟨i, hi, rfl⟩ | ⟨i, hi, rfl⟩) | ⟨i, hi, rfl⟩) | ⟨i, hi, rfl⟩) | ⟨i, hi, rfl⟩
      · exact hi
      · exact hi
      · exact hi
      · simp [forcedPruning, h] at hi
      · exact forcedPruning_written h i hi
  omega

/-! ### Runs -/

/-- The indices used in a step. -/
def stepAccesses (s : GroupState) : GroupLabel → List Access
  | .join i lids lid _ _ => joinAccesses (s.members i).cid lids lid
  | .forceLogPruning i log applyOffsets =>
      forceAccesses log applyOffsets (s.members i).cid (s.members i).idx
  | .rcSyn i msgIdx msgSize => rcSynAccesses (s.members i).cid (s.members i).idx msgIdx msgSize
  | .rcAck i msgIdx rcConnected =>
      rcAckAccesses (s.members i).cid (s.members i).idx msgIdx rcConnected
  | _ => []

/-- The forced prunings of a step. -/
def stepPrunings (s : GroupState) : GroupLabel → List ForcedPruning
  | .forceLogPruning i log applyOffsets =>
      [forcedPruning log applyOffsets (s.members i).cid (s.members i).idx]
  | _ => []

theorem groupStep_trace (hs : groupStep s l = some s') :
    s'.accesses = s.accesses ++ stepAccesses s l ∧
      s'.prunings = s.prunings ++ stepPrunings s l := by
  cases l <;> simp only [groupStep] at hs <;> (repeat' split at hs) <;>
    first
      | (obtain rfl := Option.some.inj hs
         simp [stepAccesses, stepPrunings, GroupState.set, GroupState.accessed])
      | cases hs

theorem stepAccesses_lt (hinv : CidInv SizesFit (fun _ => 0) s) (hok : boundsOk s l) :
    ∀ a ∈ stepAccesses s l, a.index < MAX_SERVER_COUNT := by
  intro a ha
  cases l with
  | join i lids lid slid reqId => exact joinAccesses_lt (hinv.members i).cid hok a ha
  | forceLogPruning i log applyOffsets =>
    exact forceAccesses_lt (hinv.members i).cid (forceRemoved_eq_none hok) a ha
  | rcSyn i msgIdx msgSize =>
    simp only [stepAccesses, rcSynAccesses] at ha
    split at ha
    · cases ha
    · rename_i hon
      split at ha
      · cases ha
      · rename_i hsize
        obtain rfl := List.mem_singleton.mp ha
        exact hok (by simpa using hon) (by omega)
  | rcAck i msgIdx rcConnected =>
    simp only [stepAccesses, rcAckAccesses] at ha
    split at ha
    · cases ha
    · rename_i hon
      rcases List.mem_cons.mp ha with rfl | ha
      · exact hok (by simpa using hon)
      · split at ha
        · cases ha
        · exact connectionAccesses_lt (hinv.members i).cid a ha
  | _ => cases ha

theorem stepPrunings_written (hok : boundsOk s l) :
    ∀ p ∈ stepPrunings s l, (∀ i ∈ p.written, i < p.size) ∧ ∀ t ∈ p.removed, t ∈ p.written := by
  intro p hp
  cases l with
  | forceLogPruning i log applyOffsets =>
    obtain rfl := List.mem_singleton.mp hp
    have hnone := forceRemoved_eq_none hok
    refine ⟨forcedPruning_written hnone, ?_⟩
    intro t ht
    rw [show (forcedPruning log applyOffsets (s.members i).cid (s.members i).idx).removed = none
      from hnone] at ht
    cases ht
  | _ => cases hp

/-- Besides the indices used so far, the sizes of every configuration are in bounds. -/
structure BoundsInv (s : GroupState) : Prop where
  sizes : CidInv SizesFit (fun _ => 0) s
  inBounds : InBounds s

/-- **Server indices stay in bounds** in every run that does not upsize the group beyond the arrays,
    gets no message whose index passes the test of the bitmask although it is out of bounds, and has
    no forced pruning that removes a server. -/
theorem indices_in_bounds (h : Reach groupInit GroupStep boundsOk s) : InBounds s := by
  have hinv : BoundsInv s := by
    refine h.invariant ?_ ?_
    · rintro s ⟨n, hpos, hmax, rfl⟩
      obtain ⟨b, hb⟩ := initCid_eq n
      have hsize : (UInt8.ofNat n).toNat = n := by
        rw [UInt8.toNat_ofNat']
        simp only [MAX_SERVER_COUNT] at hmax
        omega
      refine ⟨cidInv_init ?_, ?_, ?_⟩
      · rw [hb]
        refine ⟨?_, Nat.zero_le _⟩
        show (UInt8.ofNat n).toNat ≤ _
        omega
      · intro a ha
        cases ha
      · intro p hp
        cases hp
    · rintro s l s' ⟨hcid, hin⟩ hok hs
      obtain ⟨haccess, hprune⟩ := groupStep_trace hs
      refine ⟨hcid.step (keepsCid_sizesFit hok) hs, ?_, ?_⟩
      · intro a ha
        rw [haccess] at ha
        rcases List.mem_append.mp ha with ha | ha
        · exact hin.1 a ha
        · exact stepAccesses_lt hcid hok a ha
      · intro p hp
        rw [hprune] at hp
        rcases List.mem_append.mp hp with hp | hp
        · exact hin.2 p hp
        · exact stepPrunings_written hok p hp
  exact hinv.inBounds

/-- A server joins a full group of 3. -/
theorem indices_in_bounds_join : ∃ s, s.accesses.length = 6 ∧ InBounds s := by
  have hstart : Reach groupInit GroupStep boundsOk (initGroup 3) :=
    .start ⟨3, by decide, by decide, rfl⟩
  have hwin := hstart.step (l := GroupLabel.win 0 1) trivial rfl
  have hlead := hwin.step (l := GroupLabel.becomeLeader 0 0) trivial rfl
  have hjoin := hlead.step (l := GroupLabel.join 0 (fun _ => 0) 7 7 1) (fun _ => by decide) rfl
  exact ⟨_, rfl, indices_in_bounds hjoin⟩

/-- A server joins a full group of `MAX_SERVER_COUNT`. -/
def joinFullGroup : List GroupLabel := [.win 0 1, .becomeLeader 0 0, .join 0 (fun _ => 0) 7 7 1]

theorem exec_joinFullGroup : ((exec groupStep (initGroup 13) joinFullGroup).map fun s =>
    decide (⟨.servers, 13⟩ ∈ s.accesses)) = some true := by
  decide

/-- Not every run keeps the indices in bounds. -/
theorem not_indices_in_bounds : ¬ ∀ s, Reach groupInit GroupStep Always s → InBounds s := by
  intro hall
  obtain ⟨s, hs, heq⟩ := Option.map_eq_some_iff.mp exec_joinFullGroup
  have hreach : Reach groupInit GroupStep Always s :=
    Reach.exec (.start ⟨13, by decide, by decide, rfl⟩) hs
  exact absurd ((hall s hreach).1 _ (of_decide_eq_true heq)) (by decide)

end Apus
