import Apus.Group.Invariant
import Apus.Log.Cursor

namespace Apus

open Lib

/-!
# Taking over an unstable configuration

A new leader whose configuration is not stable, and whose log has no CONFIG entry left to apply, makes
the next step of the configuration itself.  It is the step that a leader makes when it applies a CONFIG
entry, written a second time: the state is read through the entry that the search for a CONFIG entry
has ended at, instead of from the configuration, and the loop that removes the additional servers goes
down and leaves out the first of them.

* `Cursor.configScan` — the search in a log without CONFIG entries;
* `nextCid_transit`, `takeOverCid_eq_iff` — the two loops;
* `takeOver_iff` — when both make the same step.
-/

/-- The offset of `data.cid.state` in a log entry. -/
def CID_STATE_OFF : Nat := DATA_OFF + 10

/-- The entry that a new leader appends in an unstable configuration. -/
inductive TakeOverEntry
  | noop
  | config (cid : DareCid)
deriving DecidableEq

/-- The search of `poll_vote_count` for a CONFIG entry: the values of its variables `offset` and
    `entry` when it stops.  The pointer `entry` is not set before the first entry. -/
def configScan (log : DareLog) (cidIdx : UInt64) : Nat → Nat → Option Nat → Option (Nat × Option Nat)
  | 0, _, _ => none
  | fuel + 1, offset, last =>
    if logOffsetEndDistance log offset = 0 then some (offset, last)
    else
      match logGetEntry log offset with
      | none => none
      | some entry =>
        if !logFitEntry log entry entry then configScan log cidIdx fuel 0 (some entry)
        else if getU8 log.entries (entry + 26) = CONFIG ∧ cidIdx < getU64 log.entries entry then
          some (entry, some entry)
        else configScan log cidIdx fuel (entry + logEntryLen log.entries entry) (some entry)

/-- What `poll_vote_count` appends in an unstable configuration.  Without an entry the state is read
    through a pointer that was never set, and nothing can be said. -/
def takeOver (log : DareLog) (cid : DareCid) (cidIdx : UInt64) (cidOffset fuel : Nat) :
    Option TakeOverEntry :=
  match configScan log cidIdx fuel cidOffset none with
  | none => none
  | some (offset, entry) =>
    if logOffsetEndDistance log offset ≠ 0 then some .noop
    else entry.map fun o =>
      .config (Member.takeOverCid cid (getU8 log.entries (o + CID_STATE_OFF)))

/-! ### The search -/

/-- In a log without CONFIG entries to apply the search ends, and `entry` is the last one. -/
theorem Cursor.configScan {log : DareLog} {V v off : Nat} {es : List DareLogEntry} {cidIdx : UInt64}
    (hV : EndsAt log V) (hne : log.end_ ≠ log.len) {fuel : Nat} {last : Option Nat}
    (hc : Cursor log V v off es) (hfuel : 2 * es.length + 1 ≤ fuel)
    (hnone : ∀ e ∈ es, e.type = CONFIG → ¬cidIdx < e.idx) :
    ∃ stop, Apus.configScan log cidIdx fuel off last =
        some (stop, ((offsets entryFormat log.len v es).getLast?).or last) ∧
      logOffsetEndDistance log stop = 0 := by
  induction es generalizing v off fuel last with
  | nil =>
    obtain ⟨fuel, rfl⟩ : ∃ f, fuel = f + 1 := ⟨fuel - 1, by omega⟩
    have hzero : logOffsetEndDistance log off = 0 := by
      rw [hc.distance hV hne, hc.eq_end, Nat.sub_self]
    exact ⟨off, by simp [Apus.configScan, hzero, offsets], hzero⟩
  | cons e es ih =>
    -- at most one round is spent on a header that was left at the buffer end
    obtain ⟨fuel, rfl⟩ : ∃ f, fuel = f + 2 :=
      ⟨fuel - 2, by simp only [List.length_cons] at hfuel; omega⟩
    simp only [List.length_cons] at hfuel
    have hread := hc.read
    have hpass : ¬(getU8 log.entries (place log.len v e.size % log.len + 26) = CONFIG ∧
        cidIdx < getU64 log.entries (place log.len v e.size % log.len)) := by
      rintro ⟨htype, hidx⟩
      refine hnone e List.mem_cons_self ?_ ?_
      · rw [← hread]; exact htype
      · rw [← hread]; exact hidx
    have hlenEq := readEntry_size log.entries (place log.len v e.size % log.len)
    rw [hread] at hlenEq
    have hrest : ∀ e ∈ es, e.type = CONFIG → ¬cidIdx < e.idx :=
      fun e he => hnone e (List.mem_cons_of_mem _ he)
    have hlast : ∀ o, ((offsets entryFormat log.len v (e :: es)).getLast?).or o =
        ((offsets entryFormat log.len (place log.len v e.size + e.size) es).getLast?).or
          (some (place log.len v e.size % log.len)) := by
      intro o
      rw [offsets, entryFormat_size, List.getLast?_cons]
      cases (offsets entryFormat log.len (place log.len v e.size + e.size) es).getLast? <;> rfl
    have hdist : logOffsetEndDistance log off ≠ 0 := by
      have hlt := hc.lt_end hV
      rw [hc.distance hV hne]
      omega
    by_cases hplace : place log.len v e.size % log.len = Lib.headerOffset entryFormat log.len v
    · obtain ⟨stop, hscan, hstop⟩ := ih (hc.next hV) (show 2 * es.length + 1 ≤ fuel + 1 by omega) hrest
      refine ⟨stop, ?_, hstop⟩
      rw [Apus.configScan, if_neg hdist, hc.getEntry_cons hV hne]
      simp only [(hc.fit_iff hV).mpr hplace, Bool.not_true, Bool.false_eq_true, if_false]
      rw [← hplace, if_neg hpass, ← hlenEq, hscan, hlast]
    · have hnot : logFitEntry log (Lib.headerOffset entryFormat log.len v)
          (Lib.headerOffset entryFormat log.len v) = false := by
        rw [Bool.eq_false_iff]
        exact fun h => hplace ((hc.fit_iff hV).mp h)
      have hzero := hc.place_mod_of_not_fit hV hnot
      have hrew := hc.rewind hV hzero
      have hsize : e.size ≤ log.len := hc.chain.1.size_le
      have hdist' : logOffsetEndDistance log 0 ≠ 0 := by
        have hlt := hrew.lt_end hV
        rw [hrew.distance hV hne]
        omega
      have hfit0 : Lib.headerOffset entryFormat log.len (place log.len v e.size) = 0 := by
        rw [Lib.headerOffset, hzero, entryFormat_hdr, if_pos (by simpa using hV.entrySize_le_len)]
      have hgo : logFitEntry log 0 0 = true := by
        rw [logFitEntry_iff _ _ _ (Nat.zero_le _), Nat.zero_add, ← hzero, ← hlenEq]
        exact hsize
      rw [hzero] at hlenEq hpass hlast
      obtain ⟨stop, hscan, hstop⟩ := ih (hc.next hV) (show 2 * es.length + 1 ≤ fuel by omega) hrest
      refine ⟨stop, ?_, hstop⟩
      rw [Apus.configScan, if_neg hdist, hc.getEntry_cons hV hne]
      simp only [hnot, Bool.not_false, if_true]
      rw [Apus.configScan, if_neg hdist', hrew.getEntry_cons hV hne, hfit0]
      simp only [hgo, Bool.not_true, Bool.false_eq_true, if_false]
      rw [if_neg hpass, ← hlenEq, hlast]
      rw [hzero] at hscan
      exact hscan

/-! ### The two loops -/

/-- The bits that the removal of servers leaves. -/
theorem cidIsServerOn_foldl_rm (is : List Nat) (cid : DareCid) (j : Nat) :
    cidIsServerOn (is.foldl cidServerRm cid) j = true ↔
      cidIsServerOn cid j = true ∧ ∀ i ∈ is, i % 32 ≠ j % 32 := by
  induction is generalizing cid with
  | nil => simp
  | cons i is ih =>
    have hi : i % 32 < 32 := Nat.mod_lt i (by decide)
    have hj : j % 32 < 32 := Nat.mod_lt j (by decide)
    have hrm : cidIsServerOn (cidServerRm cid i) j = true ↔
        cidIsServerOn cid j = true ∧ i % 32 ≠ j % 32 := by
      rw [cidIsServerOn_eq_mod, cidIsServerOn_eq_mod, cidServerRm, UInt32.toBitVec_and,
        UInt32.toBitVec_not, one_shiftLeft_ofNat_mod, BitVec.getLsbD_and, BitVec.getLsbD_not,
        BitVec.getLsbD_twoPow]
      simp [hi, hj]
    rw [List.foldl_cons, ih, hrm, List.forall_mem_cons, and_assoc]

/-- Configurations of one bitmask. -/
theorem bitmask_eq_iff {cid cid' : DareCid} : cid.bitmask = cid'.bitmask ↔
    ∀ j, cidIsServerOn cid j = true ↔ cidIsServerOn cid' j = true := by
  constructor
  · intro h j
    rw [cidIsServerOn, cidIsServerOn, h]
  · intro h
    rw [← UInt32.toBitVec_inj]
    ext j hj
    have hbit := h j
    rw [cidIsServerOn_eq _ hj, cidIsServerOn_eq _ hj, ← Bool.eq_iff_iff] at hbit
    rw [← BitVec.getLsbD_eq_getElem, ← BitVec.getLsbD_eq_getElem, hbit]

/-- Removing two lists of servers comes to the same if their members that are ON do. -/
theorem foldl_rm_bitmask_eq_iff (is js : List Nat) (cid : DareCid) :
    (is.foldl cidServerRm cid).bitmask = (js.foldl cidServerRm cid).bitmask ↔
      ∀ k, cidIsServerOn cid k = true → ((∃ i ∈ is, i % 32 = k % 32) ↔ ∃ j ∈ js, j % 32 = k % 32) := by
  rw [bitmask_eq_iff]
  refine forall_congr' fun k => ?_
  have hnone (ls : List Nat) :
      (∀ i ∈ ls, i % 32 ≠ k % 32) ↔ ¬∃ i ∈ ls, i % 32 = k % 32 := by
    simp only [ne_eq, not_exists, not_and]
  rw [cidIsServerOn_foldl_rm, cidIsServerOn_foldl_rm, hnone, hnone, and_congr_right_iff]
  simp only [not_iff_not]

/-- `TRANSIT` becomes `STABLE` with the new size, and exactly the additional servers are gone. -/
theorem nextCid_transit {cid : DareCid} (hstate : cid.state = CID_TRANSIT)
    (hsize : cid.size0.toNat ≤ 32) {j : Nat} (hj : j < 32) :
    (nextCid cid cid.state).state = CID_STABLE ∧ (nextCid cid cid.state).size0 = cid.size1 ∧
      (nextCid cid cid.state).size1 = 0 ∧
      (cidIsServerOn (nextCid cid cid.state) j = true ↔
        cidIsServerOn cid j = true ∧ ¬(cid.size1.toNat ≤ j ∧ j < cid.size0.toNat)) := by
  have hnext : nextCid cid cid.state =
      let cid := (List.range' cid.size1.toNat (cid.size0.toNat - cid.size1.toNat)).foldl cidServerRm
        { cid with state := CID_STABLE }
      { cid with size0 := cid.size1, size1 := 0 } := by
    rw [hstate, nextCid, if_neg (by decide), if_pos rfl]
  obtain ⟨b, hb⟩ := foldl_cidServerRm
    (List.range' cid.size1.toNat (cid.size0.toNat - cid.size1.toNat)) { cid with state := CID_STABLE }
  have hbits := cidIsServerOn_foldl_rm
    (List.range' cid.size1.toNat (cid.size0.toNat - cid.size1.toNat)) { cid with state := CID_STABLE } j
  -- the numbers are below 32, so each server has a bit of its own
  have hon : (∀ i ∈ List.range' cid.size1.toNat (cid.size0.toNat - cid.size1.toNat),
      i % 32 ≠ j % 32) ↔ ¬(cid.size1.toNat ≤ j ∧ j < cid.size0.toNat) := by
    simp only [List.mem_range'_1]
    constructor
    · rintro h ⟨hle, hlt⟩
      exact h j (by omega) rfl
    · intro h i hi
      omega
  rw [hnext]
  rw [hb] at hbits ⊢
  refine ⟨rfl, rfl, rfl, hbits.trans ?_⟩
  rw [hon]
  rfl

/-- The loop of `poll_vote_count` removes the servers that the one of `apply_committed_entries` does.
    It does not come to the slot `size[1]`, which is of no consequence if the slot is OFF, or shares
    its bit with a slot that is removed; and it starts at the slot 255 for a group of none. -/
def SameRemovals (cid : DareCid) : Prop :=
  if cid.size0 = 0 then ∀ i < 256, cid.size1.toNat < i → cidIsServerOn cid i = false
  else cid.size1 < cid.size0 →
    cidIsServerOn cid cid.size1.toNat = false ∨ cid.size1.toNat + 32 < cid.size0.toNat

instance (cid : DareCid) : Decidable (SameRemovals cid) := by
  unfold SameRemovals
  infer_instance

/-- Both loops leave one bitmask exactly if they remove the same servers. -/
theorem sameRemovals_iff (cid : DareCid) :
    (∀ k, cidIsServerOn cid k = true →
      ((∃ i ∈ (List.range' (cid.size1.toNat + 1) ((cid.size0 - 1).toNat - cid.size1.toNat)).reverse,
          i % 32 = k % 32) ↔
        ∃ i ∈ List.range' cid.size1.toNat (cid.size0.toNat - cid.size1.toNat), i % 32 = k % 32)) ↔
      SameRemovals cid := by
  have hon (i k : Nat) (h : i % 32 = k % 32) : cidIsServerOn cid i = cidIsServerOn cid k := by
    rw [cidIsServerOn_eq_mod, cidIsServerOn_eq_mod, h]
  have hlt := cid.size0.toNat_lt
  simp only [List.mem_reverse, List.mem_range'_1, SameRemovals]
  by_cases hzero : cid.size0 = 0
  · have hmax : (cid.size0 - 1).toNat = 255 := by rw [hzero]; rfl
    have hnone : cid.size0.toNat = 0 := by rw [hzero]; rfl
    rw [if_pos hzero, hmax, hnone]
    constructor
    · intro h i hhi hlo
      by_contra honi
      obtain ⟨j, hj, -⟩ := (h i (Bool.not_eq_false _ ▸ honi)).mp ⟨i, by omega, rfl⟩
      omega
    · intro h k hk
      refine iff_of_false ?_ ?_
      · rintro ⟨i, hi, hmod⟩
        rw [← hon i k hmod, h i (by omega) (by omega)] at hk
        cases hk
      · rintro ⟨i, hi, -⟩
        omega
  · have hpred : (cid.size0 - 1).toNat = cid.size0.toNat - 1 := by
      have hpos : cid.size0.toNat ≠ 0 := fun h => hzero (UInt8.toNat_inj.mp h)
      rw [UInt8.toNat_sub_of_le]
      · rfl
      · rw [UInt8.le_iff_toNat_le]
        exact Nat.one_le_iff_ne_zero.mpr hpos
    rw [if_neg hzero, hpred, UInt8.lt_iff_toNat_lt]
    constructor
    · intro h hsizes
      by_contra hcon
      obtain ⟨honi, hfar⟩ := not_or.mp hcon
      -- the slot left out has a bit of its own
      obtain ⟨i, hi, hmod⟩ := (h cid.size1.toNat (Bool.not_eq_false _ ▸ honi)).mpr
        ⟨cid.size1.toNat, by omega, rfl⟩
      omega
    · intro h k hk
      constructor
      · rintro ⟨i, hi, hmod⟩
        exact ⟨i, by omega, hmod⟩
      · rintro ⟨i, hi, hmod⟩
        by_cases hfirst : i = cid.size1.toNat
        · rcases h (by omega) with hoff | hfar
          · rw [← hon i k hmod, hfirst, hoff] at hk
            cases hk
          · exact ⟨cid.size1.toNat + 32, by omega, by omega⟩
        · exact ⟨i, by omega, hmod⟩

/-- When both make the same step of an unstable configuration. -/
theorem takeOverCid_eq_iff {cid : DareCid} (state : UInt8)
    (hunstable : cid.state = CID_EXTENDED ∨ cid.state = CID_TRANSIT) :
    Member.takeOverCid cid state = nextCid cid cid.state ↔
      (state = CID_EXTENDED ↔ cid.state = CID_EXTENDED) ∧
        (cid.state = CID_TRANSIT → SameRemovals cid) := by
  rcases hunstable with hext | htransit
  · have hnext : nextCid cid cid.state = { cid with state := CID_TRANSIT } := by
      rw [hext, nextCid, if_pos rfl]
    have hne : cid.state ≠ CID_TRANSIT := by rw [hext]; decide
    rw [hnext]
    by_cases hstate : state = CID_EXTENDED
    · rw [Member.takeOverCid, if_pos hstate]
      exact iff_of_true rfl ⟨iff_of_true hstate hext, fun h => absurd h hne⟩
    · refine iff_of_false (fun heq => ?_) fun h => hstate (h.1.mpr hext)
      have hstable := congrArg DareCid.state heq
      -- otherwise `poll_vote_count` makes the configuration stable
      rw [Member.takeOverCid, if_neg hstate] at hstable
      obtain ⟨b, hb⟩ := foldl_cidServerRm
        (List.range' (cid.size1.toNat + 1) ((cid.size0 - 1).toNat - cid.size1.toNat)).reverse
        { cid with state := CID_STABLE }
      simp only [hb] at hstable
      exact absurd hstable (by decide)
  · have hne : cid.state ≠ CID_EXTENDED := by rw [htransit]; decide
    have hnext : nextCid cid cid.state =
        let cid := (List.range' cid.size1.toNat (cid.size0.toNat - cid.size1.toNat)).foldl cidServerRm
          { cid with state := CID_STABLE }
        { cid with size0 := cid.size1, size1 := 0 } := by
      rw [htransit, nextCid, if_neg (by decide), if_pos rfl]
    by_cases hstate : state = CID_EXTENDED
    · refine iff_of_false (fun heq => ?_) fun h => hne (h.1.mp hstate)
      -- `poll_vote_count` makes it transitional, the other step stable
      have hstable := congrArg DareCid.state heq
      obtain ⟨b, hb⟩ := foldl_cidServerRm
        (List.range' cid.size1.toNat (cid.size0.toNat - cid.size1.toNat))
        { cid with state := CID_STABLE }
      rw [hnext, Member.takeOverCid, if_pos hstate] at hstable
      simp only [hb] at hstable
      exact absurd hstable (by decide)
    · obtain ⟨b, hb⟩ := foldl_cidServerRm
        (List.range' (cid.size1.toNat + 1) ((cid.size0 - 1).toNat - cid.size1.toNat)).reverse
        { cid with state := CID_STABLE }
      obtain ⟨b', hb'⟩ := foldl_cidServerRm
        (List.range' cid.size1.toNat (cid.size0.toNat - cid.size1.toNat))
        { cid with state := CID_STABLE }
      -- both make it stable: the masks decide
      have hmasks := (foldl_rm_bitmask_eq_iff
        (List.range' (cid.size1.toNat + 1) ((cid.size0 - 1).toNat - cid.size1.toNat)).reverse
        (List.range' cid.size1.toNat (cid.size0.toNat - cid.size1.toNat))
        { cid with state := CID_STABLE }).trans (sameRemovals_iff cid)
      rw [hnext, Member.takeOverCid, if_neg hstate]
      rw [hb, hb'] at hmasks
      simp only [hb, hb', DareCid.mk.injEq, true_and]
      rw [hmasks]
      exact ⟨fun h => ⟨iff_of_false hstate hne, fun _ => h⟩, fun h => h.2 htransit⟩

/-! ### The step of a new leader -/

/-- In a log of entries the state is read through the last entry behind `cid_offset`, or through nothing
    if there is none. -/
theorem takeOver_of_cursor {log : DareLog} {V v cidOffset : Nat} {es : List DareLogEntry}
    {cid : DareCid} {cidIdx : UInt64} (hV : EndsAt log V) (hne : log.end_ ≠ log.len)
    (hc : Cursor log V v cidOffset es) (hnone : ∀ e ∈ es, e.type = CONFIG → ¬cidIdx < e.idx) :
    takeOver log cid cidIdx cidOffset (walkFuel log) =
      (offsets entryFormat log.len v es).getLast?.map fun o =>
        .config (Member.takeOverCid cid (getU8 log.entries (o + CID_STATE_OFF))) := by
  obtain ⟨stop, hscan, hstop⟩ : ∃ stop, configScan log cidIdx (walkFuel log) cidOffset none =
      some (stop, ((offsets entryFormat log.len v es).getLast?).or none) ∧
        logOffsetEndDistance log stop = 0 := hc.configScan hV hne (hc.fuel hV) hnone
  simp only [takeOver, hscan, hstop, ne_eq, not_true_eq_false, if_false, Option.or_none]

/-- **When a new leader makes the step of an applying leader**: there was an entry to read the state
    through, the byte found there agrees with the configuration, and the loops remove the same
    servers. -/
theorem takeOver_iff {log : DareLog} {cid : DareCid} {cidIdx : UInt64}
    {cidOffset fuel offset : Nat} {entry : Option Nat}
    (hunstable : cid.state = CID_EXTENDED ∨ cid.state = CID_TRANSIT)
    (hscan : configScan log cidIdx fuel cidOffset none = some (offset, entry))
    (hnone : logOffsetEndDistance log offset = 0) :
    takeOver log cid cidIdx cidOffset fuel = some (.config (nextCid cid cid.state)) ↔
      ∃ o, entry = some o ∧
        (getU8 log.entries (o + CID_STATE_OFF) = CID_EXTENDED ↔ cid.state = CID_EXTENDED) ∧
        (cid.state = CID_TRANSIT → SameRemovals cid) := by
  simp only [takeOver, hscan, hnone, ne_eq, not_true_eq_false, if_false, Option.map_eq_some_iff,
    TakeOverEntry.config.injEq, takeOverCid_eq_iff _ hunstable]

/-- The log of a server with a single entry, a NOOP entry. -/
def singleNoop : DareLog :=
  { logNew with entries := writeEntry logNew.entries 0 1 1 0 0 NOOP {}, end_ := ENTRY_SIZE, tail := 0 }

/-- Two of five servers are to leave. -/
def leaving : DareCid := ⟨0, 5, 3, CID_TRANSIT, 31⟩

theorem takeOver_iff_noop :
    configScan singleNoop 0 2 0 none = some (64, some 0) ∧
      (takeOver singleNoop leaving 0 0 2 = some (.config (nextCid leaving leaving.state)) ↔
        ∃ o, some 0 = some o ∧
          (getU8 singleNoop.entries (o + CID_STATE_OFF) = CID_EXTENDED ↔ leaving.state = CID_EXTENDED) ∧
          (leaving.state = CID_TRANSIT → SameRemovals leaving)) :=
  have hscan : configScan singleNoop 0 2 0 none = some (64, some 0) := by decide +kernel
  ⟨hscan, takeOver_iff (.inr rfl) hscan (by decide +kernel)⟩

/-- The new leader keeps server 3 ON, which an applying leader removes. -/
theorem not_takeOver :
    takeOver singleNoop leaving 0 0 2 = some (.config ⟨0, 3, 0, CID_STABLE, 15⟩) ∧
      nextCid leaving leaving.state = ⟨0, 3, 0, CID_STABLE, 7⟩ ∧
      takeOver singleNoop leaving 0 0 2 ≠ some (.config (nextCid leaving leaving.state)) := by
  have htake : takeOver singleNoop leaving 0 0 2 = some (.config ⟨0, 3, 0, CID_STABLE, 15⟩) := by
    decide +kernel
  have hnext : nextCid leaving leaving.state = ⟨0, 3, 0, CID_STABLE, 7⟩ := by decide
  refine ⟨htake, hnext, ?_⟩
  rw [htake, hnext]
  decide

end Apus
