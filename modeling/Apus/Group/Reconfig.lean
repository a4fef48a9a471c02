import Apus.Group.Invariant

namespace Apus

open Lib

/-!
# Reconfigurations

An upsize goes through the configurations `[n, n+1, EXTENDED]` and `[n, n+1, TRANSIT]` to
`[n+1, 0, STABLE]` (`WellFormed`): when the leader applies the CONFIG entry of one, it moves its own
configuration on and appends the next one.

The step is made on the configuration the leader holds, whatever entry triggers it, so that it is
right as long as that configuration is not stable yet (`wellFormed_nextCid_iff`).  It is not when two
CONFIG entries of one epoch ask for the same step: a new leader that applies the EXTENDED entry of
the former one appends a second TRANSIT entry, and the application of that one sets both sizes
to `0` (`not_keepsWellFormed`).
-/

/-- The two sizes and the state fit together. -/
structure WellFormed (cid : DareCid) : Prop where
  size0_pos : 1 ≤ cid.size0.toNat
  stable_iff : cid.state = CID_STABLE ↔ cid.size1.toNat = 0
  size1 : cid.state ≠ CID_STABLE → cid.size1.toNat = cid.size0.toNat + 1

/-- Every configuration that a leader holds or appends is well formed, and its size does not
    decrease. -/
def KeepsWellFormed (s : GroupState) : Prop :=
  ∀ i, (s.members i).isLeader = true → WellFormed (s.members i).cid ∧
    (∀ c ∈ (s.members i).held, WellFormed c) ∧
    ((s.members i).held.map fun c => c.size0.toNat).Pairwise (· ≤ ·) ∧
    (∀ c ∈ (s.members i).held, c.size0.toNat ≤ (s.members i).cid.size0.toNat) ∧
    ∀ e ∈ (s.members i).log, e.type = CONFIG → WellFormed e.cid

/-- A leader that applies an unstable CONFIG entry has not finished the upsize yet; the size of an
    upsized group fits its byte. -/
def reconfigOk (s : GroupState) : GroupLabel → Prop
  | .apply i => (s.members i).isLeader = true →
      ∀ e, (s.members i).log[(s.members i).apply]? = some e →
        isUnstableConfig (s.members i).cid e = true → (s.members i).cid.state ≠ CID_STABLE
  | .join i lids lid _ _ =>
      joinSlot (s.members i).cid lids lid = some (s.members i).cid.size0.toNat →
        (s.members i).cid.size0.toNat < 255
  | _ => True

variable {cid : DareCid} {b : UInt32} {s s' : GroupState} {l : GroupLabel}

/-! ### The steps of an upsize -/

theorem WellFormed.bitmask (h : WellFormed cid) : WellFormed { cid with bitmask := b } :=
  ⟨h.size0_pos, h.stable_iff, h.size1⟩

/-- An upsize begins. -/
theorem WellFormed.join {empty : Nat} (h : WellFormed cid)
    (hfit : empty = cid.size0.toNat → cid.size0.toNat < 255) :
    WellFormed (joinCid cid empty) ∧ cid.size0.toNat ≤ (joinCid cid empty).size0.toNat := by
  unfold joinCid cidServerAdd
  simp only
  split
  · rename_i hslot
    have hlt := hfit hslot
    have hsize : (cid.size0 + 1).toNat = cid.size0.toNat + 1 := by
      rw [UInt8.toNat_add, UInt8.toNat_one]
      omega
    refine ⟨⟨h.size0_pos, ?_, fun _ => hsize⟩, le_refl _⟩
    simp only [hsize]
    have hne : ¬ CID_EXTENDED = CID_STABLE := by decide
    exact iff_of_false hne (by omega)
  · exact ⟨h.bitmask, le_refl _⟩

/-- From an unstable configuration, each step of an upsize leads to a well formed one. -/
theorem WellFormed.transit (h : WellFormed cid) (hs : cid.state ≠ CID_STABLE) :
    WellFormed { cid with state := CID_TRANSIT } := by
  have hsize := h.size1 hs
  have hne : ¬ CID_TRANSIT = CID_STABLE := by decide
  refine ⟨h.size0_pos, iff_of_false hne ?_, fun _ => hsize⟩
  show ¬ cid.size1.toNat = 0
  omega

theorem WellFormed.stable (h : WellFormed cid) (hs : cid.state ≠ CID_STABLE) :
    WellFormed { cid with state := CID_STABLE, size0 := cid.size1, size1 := 0, bitmask := b } ∧
      cid.size0.toNat ≤ cid.size1.toNat := by
  have hsize := h.size1 hs
  have hpos := h.size0_pos
  refine ⟨⟨?_, iff_of_true rfl rfl, fun hcon => absurd rfl hcon⟩, by omega⟩
  show 1 ≤ cid.size1.toNat
  omega

theorem WellFormed.next (h : WellFormed cid) (hs : cid.state ≠ CID_STABLE) (state : UInt8) :
    WellFormed (nextCid cid state) ∧ cid.size0.toNat ≤ (nextCid cid state).size0.toNat := by
  rcases nextCid_cases cid state with ⟨-, heq⟩ | ⟨-, b, heq⟩ | ⟨-, -, heq⟩
  · rw [heq]
    exact ⟨h.transit hs, le_refl _⟩
  · rw [heq]
    exact h.stable hs
  · rw [heq]
    exact ⟨h, le_refl _⟩

theorem WellFormed.takeOver (h : WellFormed cid) (hs : cid.state ≠ CID_STABLE) (state : UInt8) :
    WellFormed (Member.takeOverCid cid state) ∧
      cid.size0.toNat ≤ (Member.takeOverCid cid state).size0.toNat := by
  rcases takeOverCid_cases cid state with heq | ⟨b, heq⟩
  · rw [heq]
    exact ⟨h.transit hs, le_refl _⟩
  · rw [heq]
    exact h.stable hs

/-- A step of an upsize leads to a well formed configuration exactly from an unstable one. -/
theorem wellFormed_nextCid_iff (h : WellFormed cid) (state : UInt8)
    (hstate : state = CID_EXTENDED ∨ state = CID_TRANSIT) :
    WellFormed (nextCid cid state) ↔ cid.state ≠ CID_STABLE := by
  constructor
  · intro hnext hs
    have hzero := h.stable_iff.mp hs
    have hne : CID_TRANSIT ≠ CID_STABLE := by decide
    rcases nextCid_cases cid state with ⟨-, heq⟩ | ⟨-, b, heq⟩ | ⟨hnot, hnot', -⟩
    · rw [heq] at hnext
      exact hne (hnext.stable_iff.mpr hzero)
    · rw [heq] at hnext
      have hpos : 1 ≤ cid.size1.toNat := hnext.size0_pos
      omega
    · rcases hstate with hstate | hstate
      · exact hnot hstate
      · exact hnot' hstate
  · exact fun hs => (h.next hs state).1

/-! ### Runs -/

theorem keepsCid_wellFormed (hok : reconfigOk s l) :
    KeepsCid WellFormed (fun c => c.size0.toNat) s l where
  join := by
    rintro i lids lid slid reqId empty rfl hslot h
    refine h.join ?_
    rintro rfl
    exact hok hslot
  remove := fun _ _ h => ⟨h.bitmask, le_refl _⟩
  next := by
    rintro i e rfl hlead he hunstable h
    exact h.next (hok hlead e he hunstable) _
  takeOver := fun _ state hs h => h.takeOver hs state

/-- **Reconfiguration keeps the group well formed**, in every run in which no leader applies an
    unstable CONFIG entry when it has finished the upsize. -/
theorem keepsWellFormed (h : Reach groupInit GroupStep reconfigOk s) : KeepsWellFormed s := by
  have hinv : CidInv WellFormed (fun c => c.size0.toNat) s := by
    refine h.invariant ?_ ?_
    · rintro s ⟨n, hpos, hmax, rfl⟩
      refine cidInv_init ?_
      obtain ⟨b, hb⟩ := initCid_eq n
      have hsize : (UInt8.ofNat n).toNat = n := by
        rw [UInt8.toNat_ofNat']
        simp only [MAX_SERVER_COUNT] at hmax
        omega
      rw [hb]
      refine ⟨?_, iff_of_true rfl rfl, fun hcon => absurd rfl hcon⟩
      show 1 ≤ (UInt8.ofNat n).toNat
      omega
    · intro s l s' hinv hok hs
      exact hinv.step (keepsCid_wellFormed hok) hs
  intro i _
  have hm := hinv.members i
  exact ⟨hm.cid, hm.held, hm.grows, hm.le, hm.log⟩

/-- A group of 3 servers is upsized. -/
theorem keepsWellFormed_join : ∃ s, (s.members 0).cid.state = CID_EXTENDED ∧ KeepsWellFormed s := by
  have hstart : Reach groupInit GroupStep reconfigOk (initGroup 3) :=
    .start ⟨3, by decide, by decide, rfl⟩
  have hwin := hstart.step (l := GroupLabel.win 0 1) trivial rfl
  have hlead := hwin.step (l := GroupLabel.becomeLeader 0 0) trivial rfl
  have hjoin := hlead.step (l := GroupLabel.join 0 (fun _ => 0) 7 7 1) (fun _ => by decide) rfl
  exact ⟨_, rfl, keepsWellFormed hjoin⟩

/-! ### Two entries for one step -/

/-- Server 0 extends the group and applies the EXTENDED entry.  Server 1, which has its log, becomes
    leader and applies that entry once more. -/
def doubleTransit : List GroupLabel :=
  [.win 0 1, .becomeLeader 0 0, .join 0 (fun _ => 0) 7 7 1, .commit 0 2, .apply 0, .apply 0,
    .update 1 0, .win 1 2, .becomeLeader 1 CID_TRANSIT, .commit 1 4, .apply 1, .apply 1, .apply 1,
    .apply 1, .commit 1 6, .apply 1]

/-- Both sizes are `0`. -/
theorem exec_doubleTransit : ((exec groupStep (initGroup 3) doubleTransit).map fun s =>
    ((s.members 1).isLeader, (s.members 1).cid.size0, (s.members 1).cid.size1)) =
      some (true, 0, 0) := by
  decide

/-- Not every run keeps the group well formed. -/
theorem not_keepsWellFormed : ¬ ∀ s, Reach groupInit GroupStep Always s → KeepsWellFormed s := by
  intro hall
  obtain ⟨s, hs, heq⟩ := Option.map_eq_some_iff.mp exec_doubleTransit
  have hreach : Reach groupInit GroupStep Always s :=
    Reach.exec (.start ⟨3, by decide, by decide, rfl⟩) hs
  simp only [Prod.mk.injEq] at heq
  have hwf := (hall s hreach 1 heq.1).1.size0_pos
  rw [heq.2.1] at hwf
  exact absurd hwf (by decide)

end Apus
