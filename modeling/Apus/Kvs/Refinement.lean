import Apus.Kvs.Model

namespace Apus

open Lib

/-!
# The table is a finite map

What the key-value state machine is for: a map from strings to values that KVS_PUT and KVS_RM change
and KVS_GET reads.  The table denotes such a map (`Denotes`), whatever the collisions, and every
command keeps it (`Denotes.apply`).

What a command returns is another matter: `realloc` to zero bytes frees the block and returns NULL,
which `write_key` takes for a failed allocation.

* `kvsRun_refines_iff` — when every command returns 0, besides.
-/

/-! ### The map -/

/-- A finite map from strings to values. -/
abbrev KvsMap := List UInt8 → Option (List UInt8)

namespace KvsMap

/-- What a command does. -/
def apply (m : KvsMap) (cmd : KvsCmd) : KvsMap :=
  if cmd.type = KVS_PUT then Function.update m cmd.key.str (some cmd.blob.data)
  else if cmd.type = KVS_RM then Function.update m cmd.key.str none
  else m

/-- What KVS_GET answers: no bytes when there is no value. -/
def answer (m : KvsMap) (key : KvsKey) : List UInt8 := (m key.str).getD []

/-- The command puts an empty value in the place of one with bytes. -/
def Empties (m : KvsMap) (cmd : KvsCmd) : Prop :=
  cmd.type = KVS_PUT ∧ cmd.blob.data = [] ∧ ∃ v, m cmd.key.str = some v ∧ v ≠ []

end KvsMap

def KvsEntry.value (e : KvsEntry) : List UInt8 := e.data.getD []

/-- The sum of what the stored entries take in a snapshot. -/
def KvsSm.storedSize (sm : KvsSm) : Nat :=
  Buckets.total sm.table KvsEntry.snapshotSize sm.size.toNat

/-- The table holds the values of the map, every key once and in its bucket, and `kvs_size` is the size
    of its snapshot. -/
structure Denotes (sm : KvsSm) (m : KvsMap) : Prop where
  values : ∀ k, (Buckets.find KvsEntry.str sm.hash sm.table k).map KvsEntry.value = m k
  blocks : ∀ k, ∀ e ∈ Buckets.find KvsEntry.str sm.hash sm.table k, e.data = none → e.len = 0
  once : Buckets.KeysOnce KvsEntry.str sm.table
  filed : Buckets.Filed KvsEntry.str sm.hash sm.table
  counted : sm.kvsSize.toNat = sm.storedSize % 4294967296

/-! ### Runs -/

/-- A KVS_PUT, KVS_GET or KVS_RM, with the buffer for the answer. -/
structure KvsRequest where
  cmd : KvsCmd
  data : SmData
  known : cmd.type = KVS_PUT ∨ cmd.type = KVS_GET ∨ cmd.type = KVS_RM

/-- The commands one after the other, when there is memory: the state machine, and what the commands
    returned and answered. -/
def applyAll : KvsSm → List KvsRequest → Option (KvsSm × List (Int × SmData))
  | sm, [] => some (sm, [])
  | sm, q :: qs => (sm.applyKvsCmd q.cmd ⟨true, true⟩ q.data).bind fun r =>
      (applyAll r.1 qs).map fun r' => (r'.1, r.2 :: r'.2)

/-- Every command returned 0, and every KVS_GET answered with the value in the map. -/
def AnswersRight : KvsMap → List KvsRequest → List (Int × SmData) → Prop
  | _, [], [] => True
  | m, q :: qs, r :: rs => r.1 = 0 ∧ (q.cmd.type = KVS_GET → r.2.bytes = m.answer q.cmd.key) ∧
      AnswersRight (m.apply q.cmd) qs rs
  | _, _, _ => False

/-- No bucket holds a key twice, nor does the table, and `kvs_size` is the size of a snapshot of the
    stored keys. -/
structure KvsSound (sm : KvsSm) : Prop where
  once : Buckets.KeysOnce KvsEntry.str sm.table
  nodup : ((Buckets.entries sm.table sm.size.toNat).map KvsEntry.str).Nodup
  counted : sm.kvsSize.toNat = sm.storedSize % 4294967296

/-- A run from an empty table of the given size is that of a map. -/
def KvsRefines (size : UInt32) (qs : List KvsRequest) : Prop :=
  ∃ sm rs, applyAll (createKvsSm size) qs = some (sm, rs) ∧ AnswersRight (fun _ => none) qs rs ∧
    KvsSound sm

/-- No command puts an empty value in the place of one with bytes. -/
def KeepsBytes : KvsMap → List KvsRequest → Prop
  | _, [] => True
  | m, q :: qs => ¬ m.Empties q.cmd ∧ KeepsBytes (m.apply q.cmd) qs

variable {sm sm' : KvsSm} {m : KvsMap} {key : KvsKey} {blob : KvsBlob} {e : KvsEntry}
  {data : SmData} {k : List UInt8} {size : UInt32}

/-! ### Lengths -/

@[simp] theorem KvsBlob.toNat_len (blob : KvsBlob) : blob.len.toNat = blob.data.length := by
  rw [KvsBlob.len, UInt16.toNat_ofNat']
  exact Nat.mod_eq_of_lt blob.length_lt

theorem KvsBlob.len_eq_zero : blob.len = 0 ↔ blob.data = [] := by
  rw [← UInt16.toNat_inj, KvsBlob.toNat_len]
  exact List.length_eq_zero_iff

/-- A value is as long as the entry says, when it has a block. -/
theorem KvsEntry.length_value (h : e.data = none → e.len = 0) : e.value.length = e.len.toNat := by
  unfold KvsEntry.value
  cases hdata : e.data with
  | none => rw [h hdata]; rfl
  | some block => exact e.holds block hdata

namespace KvsSm

theorem hash_lt (sm : KvsSm) (str : List UInt8) : sm.hash str < sm.size.toNat := by
  unfold hash
  rw [UInt32.toNat_mod]
  exact Nat.mod_lt _ sm.size_pos

theorem str_of_lookupKey (h : sm.lookupKey key = some e) : e.str = key.str :=
  Buckets.key_of_find h

end KvsSm

namespace Denotes

/-- An empty table denotes the empty map. -/
theorem create (size : UInt32) : Denotes (createKvsSm size) (fun _ => none) where
  values := fun _ => rfl
  blocks := nofun
  once := fun _ => List.nodup_nil
  filed := nofun
  counted := by simp [createKvsSm, KvsSm.storedSize, Buckets.total]

theorem sound (h : Denotes sm m) : KvsSound sm :=
  ⟨h.once, Buckets.nodup_entries h.once h.filed _, h.counted⟩

theorem lookup (h : Denotes sm m) (key : KvsKey) :
    (sm.lookupKey key).map KvsEntry.value = m key.str := h.values key.str

/-- The entry of a key is changed in place, and `kvs_size` by the difference of the lengths. -/
theorem replace (h : Denotes sm m) (hfound : sm.lookupKey key = some e) {f : KvsEntry → KvsEntry}
    (hkey : ∀ e, (f e).str = e.str) (hnull : (f e).data = none → (f e).len = 0) :
    Denotes { sm.setEntry key f with
        kvsSize := sm.kvsSize + ((f e).len.toUInt32 - e.len.toUInt32) }
      (Function.update m key.str (some (f e).value)) := by
  -- the entry of the key is the new one, the others are as before
  have hfind : ∀ k, Buckets.find KvsEntry.str sm.hash (sm.setEntry key f).table k =
      if key.str = k then some (f e) else Buckets.find KvsEntry.str sm.hash sm.table k := by
    intro k
    rw [KvsSm.setEntry, Buckets.find_replace hkey]
    have hfound : Buckets.find KvsEntry.str sm.hash sm.table key.str = some e := hfound
    rw [hfound]
    rfl
  refine ⟨fun k => ?_, fun k a ha => ?_, h.once.replace hkey, h.filed.replace hkey, ?_⟩
  · show (Buckets.find KvsEntry.str sm.hash _ k).map _ = _
    rw [hfind]
    by_cases hk : key.str = k
    · subst hk
      rw [if_pos rfl, Function.update_self]
      rfl
    · rw [if_neg hk, Function.update_of_ne (Ne.symm hk), h.values]
  · have ha : a ∈ Buckets.find KvsEntry.str sm.hash (sm.setEntry key f).table k := ha
    rw [hfind] at ha
    split at ha
    · cases ha
      exact hnull
    · exact h.blocks k a ha
  · -- the difference of the lengths is that of the entry
    have htotal := Buckets.total_replace (w := KvsEntry.snapshotSize) (f := f)
      (sm.hash_lt key.str) hfound
    have hcounted := h.counted
    have hlen := (f e).len.toNat_lt
    have hlen' := e.len.toNat_lt
    show (sm.kvsSize + ((f e).len.toUInt32 - e.len.toUInt32)).toNat =
      Buckets.total (Buckets.replace KvsEntry.str sm.hash sm.table key.str f)
        KvsEntry.snapshotSize sm.size.toNat % 4294967296
    unfold KvsSm.storedSize at hcounted
    rw [UInt32.toNat_add, UInt32.toNat_sub, hcounted, UInt16.toNat_toUInt32, UInt16.toNat_toUInt32]
    simp only [KvsEntry.snapshotSize] at htotal
    omega

/-- A new entry for a key that has none. -/
theorem push (h : Denotes sm m) (hnew : sm.lookupKey e.key = none)
    (hnull : e.data = none → e.len = 0) :
    Denotes { sm with
        table := Buckets.push KvsEntry.str sm.hash sm.table e
        kvsSize := sm.kvsSize + (UInt32.ofNat KVS_SNAPSHOT_ENTRY_SIZE + e.len.toUInt32) }
      (Function.update m e.str (some e.value)) := by
  have honce : Buckets.KeysOnce KvsEntry.str (Buckets.push KvsEntry.str sm.hash sm.table e) :=
    h.once.push hnew
  refine ⟨fun k => ?_, fun k a ha => ?_, honce, h.filed.push, ?_⟩
  · show (Buckets.find KvsEntry.str sm.hash _ k).map _ = _
    rw [Buckets.find_push]
    by_cases hk : k = e.str
    · subst hk
      rw [if_pos rfl, Function.update_self]
      rfl
    · rw [if_neg hk, Function.update_of_ne hk, h.values]
  · have ha : a ∈ Buckets.find KvsEntry.str sm.hash
      (Buckets.push KvsEntry.str sm.hash sm.table e) k := ha
    rw [Buckets.find_push] at ha
    split at ha
    · cases ha
      exact hnull
    · exact h.blocks k a ha
  · -- the total goes up by the size of the new entry
    have htotal := Buckets.total_push (t := sm.table) (w := KvsEntry.snapshotSize)
      (sm.hash_lt e.str)
    have hcounted := h.counted
    have hlen := e.len.toNat_lt
    show (sm.kvsSize + (UInt32.ofNat KVS_SNAPSHOT_ENTRY_SIZE + e.len.toUInt32)).toNat =
      Buckets.total (Buckets.push KvsEntry.str sm.hash sm.table e)
        KvsEntry.snapshotSize sm.size.toNat % 4294967296
    unfold KvsSm.storedSize at hcounted
    rw [UInt32.toNat_add, UInt32.toNat_add, hcounted, UInt16.toNat_toUInt32, htotal]
    simp only [KvsEntry.snapshotSize, KVS_SNAPSHOT_ENTRY_SIZE, UInt32.toNat_ofNat']
    omega

/-- `remove_key`. -/
theorem removeKey (h : Denotes sm m) (key : KvsKey) :
    Denotes (sm.removeKey key) (Function.update m key.str none) := by
  unfold KvsSm.removeKey
  cases hfound : sm.lookupKey key with
  | none =>
    have hnone : m key.str = none := by rw [← h.lookup, hfound]; rfl
    rw [← hnone, Function.update_eq_self]
    exact h
  | some e =>
    refine ⟨fun k => ?_, fun k a ha => ?_, h.once.erase, h.filed.erase, ?_⟩
    · show (Buckets.find KvsEntry.str sm.hash _ k).map _ = _
      rw [Buckets.find_erase h.once]
      by_cases hk : key.str = k
      · subst hk
        rw [if_pos rfl, Function.update_self]
        rfl
      · rw [if_neg hk, Function.update_of_ne (Ne.symm hk), h.values]
    · have ha : a ∈ Buckets.find KvsEntry.str sm.hash
        (Buckets.erase KvsEntry.str sm.hash sm.table key.str) k := ha
      rw [Buckets.find_erase h.once] at ha
      split at ha
      · cases ha
      · exact h.blocks k a ha
    · -- the total goes down by the size of the entry
      have htotal := Buckets.total_erase (w := KvsEntry.snapshotSize) (sm.hash_lt key.str) hfound
      have hcounted := h.counted
      have hlen := e.len.toNat_lt
      show (sm.kvsSize - UInt32.ofNat KVS_SNAPSHOT_ENTRY_SIZE - e.len.toUInt32).toNat =
        Buckets.total (Buckets.erase KvsEntry.str sm.hash sm.table key.str)
          KvsEntry.snapshotSize sm.size.toNat % 4294967296
      unfold KvsSm.storedSize at hcounted
      rw [UInt32.toNat_sub, UInt32.toNat_sub, hcounted, UInt16.toNat_toUInt32]
      simp only [KvsEntry.snapshotSize, KVS_SNAPSHOT_ENTRY_SIZE, UInt32.toNat_ofNat'] at htotal ⊢
      omega

/-! ### Commands -/

/-- A value of a stored entry. -/
theorem value_of_lookup (h : Denotes sm m) (hfound : sm.lookupKey key = some e) :
    m key.str = some e.value ∧ e.value.length = e.len.toNat := by
  refine ⟨by rw [← h.lookup, hfound]; rfl, ?_⟩
  exact KvsEntry.length_value (h.blocks key.str e hfound)

/-- The part of `write_key` that overwrites, when there is memory. -/
theorem overwrite (h : Denotes sm m) (hfound : sm.lookupKey key = some e) :
    ∃ sm' rc, sm.overwrite e key blob true = some (sm', rc) ∧
      Denotes sm' (Function.update m key.str (some blob.data)) ∧
      (rc = 0 ↔ ¬ (blob.data = [] ∧ e.value ≠ [])) := by
  obtain ⟨hvalue, hlength⟩ := h.value_of_lookup hfound
  have hempty : e.value = [] ↔ e.len = 0 := by
    rw [← List.length_eq_zero_iff, hlength, ← UInt16.toNat_inj]
    rfl
  have hwith := h.replace hfound (f := fun e => e.withBlob blob) (fun _ => rfl) nofun
  unfold KvsSm.overwrite
  by_cases hlen : e.len = blob.len
  · rw [if_neg (not_not.mpr hlen)]
    cases hdata : e.data with
    | some block =>
      refine ⟨sm.setEntry key fun e => e.withBlob blob, 0, by simp, ?_, ?_⟩
      · have hsize : sm.kvsSize + ((e.withBlob blob).len.toUInt32 - e.len.toUInt32) = sm.kvsSize := by
          have hsame : (e.withBlob blob).len = e.len := hlen.symm
          rw [hsame, UInt32.sub_self, UInt32.add_zero]
        rw [hsize] at hwith
        exact hwith
      · rw [← KvsBlob.len_eq_zero, ← hlen, ← hempty]
        simp
    | none =>
      -- nothing is copied
      have hzero : blob.len = 0 := hlen ▸ h.blocks key.str e hfound hdata
      have hsame : e.value = blob.data := by
        rw [hempty.mpr (hlen.trans hzero), KvsBlob.len_eq_zero.mp hzero]
      refine ⟨sm, 0, by simp [hzero], ?_, ?_⟩
      · rw [← hsame, ← hvalue, Function.update_eq_self]
        exact h
      · simp [hsame]
  · rw [if_pos hlen]
    by_cases hfree : e.data.isSome ∧ blob.len = 0
    · -- the old block is freed
      have hreal : reallocates e.data blob.len true = false := by simp [reallocates, hfree]
      refine ⟨_, 1, by rw [hreal]; rfl, ?_, ?_⟩
      · have hwithout := h.replace hfound (f := fun e => e.withoutBlob blob.len) (fun _ => rfl)
          fun _ => hfree.2
        rw [KvsBlob.len_eq_zero.mp hfree.2]
        exact hwithout
      · rw [← KvsBlob.len_eq_zero, ne_eq, hempty]
        have hne : e.len ≠ 0 := fun h0 => hlen (h0.trans hfree.2.symm)
        simp [hfree.2, hne]
    · have hreal : reallocates e.data blob.len true = true :=
        if_neg (by simpa [Bool.and_eq_true] using hfree)
      refine ⟨_, 0, by rw [hreal]; rfl, hwith, ?_⟩
      rw [← KvsBlob.len_eq_zero, ne_eq, hempty]
      have hnot : ¬ (blob.len = 0 ∧ ¬ e.len = 0) := by
        rintro ⟨h0, hne⟩
        refine hfree ⟨?_, h0⟩
        rw [Option.isSome_iff_ne_none]
        exact fun hnone => hne (h.blocks key.str e hfound hnone)
      simp [hnot]

/-- `write_key`, when there is memory. -/
theorem writeKey (h : Denotes sm m) (key : KvsKey) (blob : KvsBlob) :
    ∃ sm' rc, sm.writeKey key blob ⟨true, true⟩ = some (sm', rc) ∧
      Denotes sm' (Function.update m key.str (some blob.data)) ∧
      (rc = 0 ↔ ¬ (blob.data = [] ∧ ∃ v, m key.str = some v ∧ v ≠ [])) := by
  unfold KvsSm.writeKey
  cases hfound : sm.lookupKey key with
  | none =>
    have hnone : m key.str = none := by rw [← h.lookup, hfound]; rfl
    refine ⟨_, 0, rfl, h.push hfound fun hcon => ?_, ?_⟩
    · cases hcon
    · simp [hnone]
  | some e =>
    obtain ⟨sm', rc, hwrite, hdenotes, hrc⟩ := @Denotes.overwrite _ _ _ blob _ h hfound
    refine ⟨sm', rc, hwrite, hdenotes, ?_⟩
    rw [hrc, (h.value_of_lookup hfound).1]
    simp

/-- KVS_GET. -/
theorem readKey (h : Denotes sm m) (key : KvsKey) (data : SmData) :
    ∃ data', sm.readKey key data = some data' ∧ data'.bytes = m.answer key := by
  unfold KvsSm.readKey KvsMap.answer
  cases hfound : sm.lookupKey key with
  | none =>
    have hnone : m key.str = none := by rw [← h.lookup, hfound]; rfl
    exact ⟨_, rfl, by rw [hnone]; rfl⟩
  | some e =>
    obtain ⟨hvalue, -⟩ := h.value_of_lookup hfound
    rw [hvalue]
    dsimp only
    split
    · rename_i block hdata
      refine ⟨_, rfl, ?_⟩
      have hblock := e.holds block hdata
      simp [SmData.bytes, KvsEntry.value, hdata, ← hblock]
    · rename_i hdata
      rw [if_pos (h.blocks key.str e hfound hdata)]
      exact ⟨_, rfl, by simp [SmData.bytes, KvsEntry.value, hdata]⟩

/-- **Every command is that of the map**, and only one that empties a value does not return 0. -/
theorem apply (h : Denotes sm m) (q : KvsRequest) :
    ∃ sm' rc data, sm.applyKvsCmd q.cmd ⟨true, true⟩ q.data = some (sm', rc, data) ∧
      Denotes sm' (m.apply q.cmd) ∧ (rc = 0 ↔ ¬ m.Empties q.cmd) ∧
      (q.cmd.type = KVS_GET → data.bytes = m.answer q.cmd.key) := by
  unfold KvsSm.applyKvsCmd KvsMap.apply KvsMap.Empties
  obtain htype | htype | htype := q.known
  · obtain ⟨sm', rc, hwrite, hdenotes, hrc⟩ := h.writeKey q.cmd.key q.cmd.blob
    by_cases hzero : rc = 0
    · refine ⟨sm', 0, q.data, by simp [htype, hwrite, hzero], by simpa [htype] using hdenotes, ?_, ?_⟩
      · simpa [htype, hzero] using hrc
      · intro hget
        rw [htype] at hget
        cases hget
    · refine ⟨sm', 1, q.data, by simp [htype, hwrite, hzero], by simpa [htype] using hdenotes, ?_, ?_⟩
      · simpa [htype, hzero] using hrc
      · intro hget
        rw [htype] at hget
        cases hget
  · obtain ⟨data, hread, hbytes⟩ := h.readKey q.cmd.key q.data
    exact ⟨sm, 0, data, by simp [htype, hread, KVS_GET, KVS_PUT],
      by simpa [htype, KVS_GET, KVS_PUT, KVS_RM] using h, by simp [htype, KVS_GET, KVS_PUT], fun _ => hbytes⟩
  · refine ⟨sm.removeKey q.cmd.key, 0, q.data, ?_, ?_, ?_, ?_⟩
    · simp [htype, KVS_RM, KVS_GET, KVS_PUT]
    · simpa [htype, KVS_RM, KVS_PUT] using h.removeKey q.cmd.key
    · simp [htype, KVS_RM, KVS_PUT]
    · intro hget
      rw [htype] at hget
      cases hget

end Denotes

/-! ### Runs -/

/-- A run ends, in a table that denotes the map; and it is right when no value is emptied. -/
theorem applyAll_refines (qs : List KvsRequest) : ∀ {sm : KvsSm} {m : KvsMap}, Denotes sm m →
    ∃ sm' rs, applyAll sm qs = some (sm', rs) ∧
      Denotes sm' (qs.foldl (fun m q => m.apply q.cmd) m) ∧
      (AnswersRight m qs rs ↔ KeepsBytes m qs) := by
  induction qs with
  | nil => intro sm m h; exact ⟨sm, [], rfl, h, Iff.rfl⟩
  | cons q qs ih =>
    intro sm m h
    obtain ⟨sm', rc, data, happly, hdenotes, hrc, hanswer⟩ := h.apply q
    obtain ⟨sm'', rs, hrun, hend, hright⟩ := ih hdenotes
    refine ⟨sm'', (rc, data) :: rs, ?_, hend, ?_⟩
    · rw [applyAll, happly, Option.bind_some, hrun]
      rfl
    · show (rc = 0 ∧ _ ∧ AnswersRight _ qs rs) ↔ (¬ m.Empties q.cmd ∧ KeepsBytes _ qs)
      rw [hrc, hright]
      exact ⟨fun ⟨hkept, _, hrest⟩ => ⟨hkept, hrest⟩, fun ⟨hkept, hrest⟩ => ⟨hkept, hanswer, hrest⟩⟩

/-- **The state machine refines a finite map** exactly in the runs that put no empty value in the place
    of one with bytes. -/
theorem kvsRun_refines_iff (size : UInt32) (qs : List KvsRequest) :
    KvsRefines size qs ↔ KeepsBytes (fun _ => none) qs := by
  obtain ⟨sm, rs, hrun, hdenotes, hright⟩ := applyAll_refines qs (Denotes.create size)
  constructor
  · rintro ⟨sm', rs', hrun', hright', -⟩
    cases hrun.symm.trans hrun'
    exact hright.mp hright'
  · intro hkept
    exact ⟨sm, rs, hrun, hright.mpr hkept, hdenotes.sound⟩

/-- The empty string as a key. -/
def emptyKey : KvsKey := ⟨List.replicate KEY_SIZE 0, by decide, by decide⟩

/-- A value of one byte, and then an empty one. -/
def emptied : List KvsRequest :=
  [⟨⟨KVS_PUT, emptyKey, ⟨[7], by decide⟩⟩, ⟨0, []⟩, .inl rfl⟩,
    ⟨⟨KVS_PUT, emptyKey, ⟨[], by decide⟩⟩, ⟨0, []⟩, .inl rfl⟩]

/-- The second command returns 1. -/
theorem not_kvsRun_refines : ¬ ∀ size qs, KvsRefines size qs := by
  intro h
  obtain ⟨sm, rs, hrun, hright, -⟩ := h 1 emptied
  have hrcs : (applyAll (createKvsSm 1) emptied).map (fun r => r.2.map Prod.fst) = some [0, 1] := by
    decide +kernel
  rw [hrun, Option.map_some, Option.some.injEq] at hrcs
  match rs, hrcs with
  | [r, r'], hrcs =>
    obtain ⟨-, -, hzero, -⟩ := hright
    simp only [List.map_cons, List.map_nil, List.cons.injEq, hzero] at hrcs
    exact absurd hrcs.2.1 (by decide)

end Apus
