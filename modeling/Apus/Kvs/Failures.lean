import Apus.Kvs.Refinement

namespace Apus

open Lib

/-!
# Failed commands

A command returns 1 when it is unknown, or when one of the three allocations of `write_key` fails.
The one of a list element is the first thing that `write_key` does for a new key.  The one of a blob
comes after `kvs_size` was advanced, and the `realloc` also after the entry got its new length.

* `failsAtomically_iff` — when a failed command leaves the state machine as it was.
-/

/-- The length and the block of every stored key. -/
def KvsSm.blobs (sm : KvsSm) (k : List UInt8) : Option (UInt16 × Option (List UInt8)) :=
  (Buckets.find KvsEntry.str sm.hash sm.table k).map fun e => (e.len, e.data)

/-- The map and `kvs_size` are the same. -/
structure SameKvs (sm sm' : KvsSm) : Prop where
  blobs : ∀ k, sm'.blobs k = sm.blobs k
  kvsSize : sm'.kvsSize = sm.kvsSize

/-- If the command returns something else than 0, it changed nothing. -/
def FailsAtomically (sm : KvsSm) (cmd : KvsCmd) (alloc : KvsAlloc) (data : SmData) : Prop :=
  ∀ r, sm.applyKvsCmd cmd alloc data = some r → r.2.1 ≠ 0 → SameKvs sm r.1

/-- The allocation that fails is that of a blob. -/
def FailsLate (sm : KvsSm) (cmd : KvsCmd) (alloc : KvsAlloc) : Prop :=
  cmd.type = KVS_PUT ∧
    match sm.lookupKey cmd.key with
    | some e => e.len ≠ cmd.blob.len ∧ reallocates e.data cmd.blob.len alloc.blob = false
    | none => alloc.list = true ∧ alloc.blob = false

variable {sm : KvsSm} {cmd : KvsCmd} {alloc : KvsAlloc} {data : SmData} {e : KvsEntry}
  {key : KvsKey} {blob : KvsBlob} {r : KvsSm × Int}

theorem SameKvs.refl (sm : KvsSm) : SameKvs sm sm := ⟨fun _ => rfl, rfl⟩

/-- What an overwriting that fails leaves behind has another size. -/
theorem overwrite_failed {ok : Bool} (h : sm.overwrite e key blob ok = some r) (hrc : r.2 ≠ 0) :
    e.len ≠ blob.len ∧ reallocates e.data blob.len ok = false ∧ r.1.kvsSize ≠ sm.kvsSize := by
  unfold KvsSm.overwrite at h
  split at h
  · rename_i hlen
    dsimp only at h
    split at h
    · cases h
      exact absurd rfl hrc
    · rename_i hreal
      cases h
      refine ⟨hlen, by simpa using hreal, fun hsize => hlen ?_⟩
      -- both lengths are below 2^16
      have hsize : (sm.kvsSize + (blob.len.toUInt32 - e.len.toUInt32)).toNat = sm.kvsSize.toNat :=
        congrArg UInt32.toNat hsize
      have hkvs := sm.kvsSize.toNat_lt
      have hold := e.len.toNat_lt
      have hnew := blob.len.toNat_lt
      rw [UInt32.toNat_add, UInt32.toNat_sub, UInt16.toNat_toUInt32, UInt16.toNat_toUInt32] at hsize
      rw [← UInt16.toNat_inj]
      omega
  · split at h
    · cases h
      exact absurd rfl hrc
    · split at h
      · cases h
        exact absurd rfl hrc
      · cases h

/-- An insertion that fails stops at the list element, or has changed `kvs_size`. -/
theorem insert_failed (hrc : (sm.insert key blob alloc).2 ≠ 0) :
    (alloc.list = false ∧ (sm.insert key blob alloc).1 = sm) ∨
      (alloc.list = true ∧ alloc.blob = false ∧
        (sm.insert key blob alloc).1.kvsSize ≠ sm.kvsSize) := by
  unfold KvsSm.insert at hrc ⊢
  cases hlist : alloc.list with
  | false => exact .inl ⟨rfl, by simp⟩
  | true =>
    cases hblob : alloc.blob with
    | true => simp [hlist, hblob] at hrc
    | false =>
      refine .inr ⟨rfl, rfl, fun hsize => ?_⟩
      simp only [if_true, Bool.false_eq_true, if_false] at hsize
      have hsize := congrArg UInt32.toNat hsize
      have hkvs := sm.kvsSize.toNat_lt
      have hlen := blob.len.toNat_lt
      rw [UInt32.toNat_add, UInt32.toNat_add, UInt16.toNat_toUInt32] at hsize
      simp only [KVS_SNAPSHOT_ENTRY_SIZE, UInt32.toNat_ofNat'] at hsize
      omega

/-- A command that is no KVS_PUT fails only when it is unknown. -/
theorem failsAtomically_of_ne (h : cmd.type ≠ KVS_PUT) : FailsAtomically sm cmd alloc data := by
  intro r hr hrc
  unfold KvsSm.applyKvsCmd at hr
  rw [if_neg h] at hr
  split at hr
  · obtain ⟨_, -, rfl⟩ := Option.map_eq_some_iff.mp hr
    exact absurd rfl hrc
  · split at hr
    · cases hr
      exact absurd rfl hrc
    · cases hr
      exact .refl sm

/-- A KVS_PUT fails when `write_key` does, and leaves what it leaves. -/
theorem failsAtomically_put_iff (h : cmd.type = KVS_PUT) :
    FailsAtomically sm cmd alloc data ↔
      ∀ r, sm.writeKey cmd.key cmd.blob alloc = some r → r.2 ≠ 0 → SameKvs sm r.1 := by
  unfold FailsAtomically KvsSm.applyKvsCmd
  rw [if_pos h]
  constructor
  · intro hall r hr hrc
    refine hall (r.1, 1, data) ?_ Int.one_ne_zero
    rw [hr, Option.map_some, if_pos hrc]
  · intro hall r hr hrc
    obtain ⟨r', hr', rfl⟩ := Option.map_eq_some_iff.mp hr
    by_cases hzero : r'.2 ≠ 0
    · rw [if_pos hzero]
      exact hall r' hr' hzero
    · rw [if_neg hzero] at hrc
      exact absurd rfl hrc

/-- **A failed command changes nothing** exactly when the allocation that fails is not that of a
    blob. -/
theorem failsAtomically_iff (sm : KvsSm) (cmd : KvsCmd) (alloc : KvsAlloc) (data : SmData) :
    FailsAtomically sm cmd alloc data ↔ ¬ FailsLate sm cmd alloc := by
  by_cases hput : cmd.type = KVS_PUT
  · rw [failsAtomically_put_iff hput]
    unfold FailsLate KvsSm.writeKey
    simp only [hput, true_and]
    cases sm.lookupKey cmd.key with
    | some e =>
      dsimp only
      constructor
      · -- the size was changed before the allocation of the blob failed
        rintro hall ⟨hlen, hreal⟩
        have hover : sm.overwrite e cmd.key cmd.blob alloc.blob =
            some (KvsSm.setEntry { sm with
              kvsSize := sm.kvsSize + (cmd.blob.len.toUInt32 - e.len.toUInt32) } cmd.key
                (fun e => e.withoutBlob cmd.blob.len), 1) := by
          simp [KvsSm.overwrite, hlen, hreal]
        obtain ⟨-, -, hsize⟩ := overwrite_failed hover Int.one_ne_zero
        exact hsize (hall _ hover Int.one_ne_zero).kvsSize
      · intro hearly r hr hrc
        obtain ⟨hlen, hreal, -⟩ := overwrite_failed hr hrc
        exact absurd ⟨hlen, hreal⟩ hearly
    | none =>
      dsimp only
      constructor
      · -- the entry was filed before the allocation of the blob failed
        rintro hall ⟨hlist, hblob⟩
        have hrc : (sm.insert cmd.key cmd.blob alloc).2 ≠ 0 := by
          simp [KvsSm.insert, hlist, hblob]
        obtain ⟨hno, -⟩ | ⟨-, -, hsize⟩ := insert_failed hrc
        · rw [hlist] at hno
          cases hno
        · exact hsize (hall _ rfl hrc).kvsSize
      · intro hearly r hr hrc
        cases hr
        obtain ⟨-, hsame⟩ | ⟨hlist, hblob, -⟩ := insert_failed hrc
        · rw [hsame]
          exact .refl sm
        · exact absurd ⟨hlist, hblob⟩ hearly
  · simp only [failsAtomically_of_ne hput, FailsLate, hput, false_and, not_false_eq_true]

/-- The first value of a new table, when there is no memory for its blob. -/
theorem not_failsAtomically :
    ¬ FailsAtomically (createKvsSm 1) ⟨KVS_PUT, emptyKey, ⟨[7], by decide⟩⟩ ⟨true, false⟩
      ⟨0, []⟩ := by
  intro h
  have hsize : ((createKvsSm 1).applyKvsCmd ⟨KVS_PUT, emptyKey, ⟨[7], by decide⟩⟩ ⟨true, false⟩
      ⟨0, []⟩).map (fun r => (r.1.kvsSize, r.2.1)) = some (67, 1) := by decide +kernel
  obtain ⟨r, hr, hpair⟩ := Option.map_eq_some_iff.mp hsize
  rw [Prod.mk.injEq] at hpair
  have hsame := (h r hr (by rw [hpair.2]; decide)).kvsSize
  rw [hpair.1] at hsame
  exact absurd hsame (by decide)

end Apus
