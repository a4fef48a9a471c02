import Apus.Proxy.Records

namespace Apus

open Lib

/-!
# The record database

The records of a server lie in a Berkeley DB in append order, and a static counter beside it
(`db-interface.c`) says how many bytes they take.  `poll_sm_requests` picks the buffer of a snapshot
from that counter, and `dump_records` fills it without a bound.

`store_record` advances the counter before the record is put, and `initialize_db` does not set it.

* `dumpOffsets` — the offsets a dump writes, with `dumpRecords_outside`;
* `recordsLen_exact_iff` — when the counter is the number of bytes dumped all along.
-/

/-! ### The functions -/

/-- `PREREG_SNAPSHOT_SIZE`. -/
def PREREG_SNAPSHOT_SIZE : Nat := 128 * 4096

/-- The opened database, and the counter `records_len`. -/
structure RecordDb where
  recordsLen : UInt32
  records : List (List UInt8)

/-- `initialize_db`: the file is created when it is missing, and kept when it is not. -/
def initializeDb (held : List (List UInt8)) : RecordDb := ⟨0, held⟩

/-- `store_record`, where `put` is what the database answers.  The size of a `DBT` has 32 bits. -/
def storeRecord (db : RecordDb) (data : List UInt8) (put : Int32) : RecordDb × Int32 :=
  let counted := { db with recordsLen := db.recordsLen + UInt32.ofNat data.length }
  if put = 0 then
    ({ counted with
        records := counted.records ++ [data.take (UInt32.ofNat data.length).toNat] }, put)
  else (counted, put)

/-- A call of `store_record`. -/
structure StoreCall where
  data : List UInt8
  put : Int32

/-- The bytes of the call that its record has. -/
def StoreCall.size (c : StoreCall) : Nat := (UInt32.ofNat c.data.length).toNat

/-- The calls one after the other. -/
def storeAll (db : RecordDb) (calls : List StoreCall) : RecordDb :=
  calls.foldl (fun db c => (storeRecord db c.data c.put).1) db

/-- The offsets that `dump_records` writes, in order. -/
def dumpOffsets : UInt32 → List (List UInt8) → List Nat
  | _, [] => []
  | len, record :: records =>
    List.range' len.toNat record.length ++ dumpOffsets (len + UInt32.ofNat record.length) records

/-- The bytes for data in the snapshot that `poll_sm_requests` picks for an announced length: the
    registered one, or a new one of that length. -/
def snapshotRoom (len : UInt32) : Nat :=
  if len.toNat ≤ PREREG_SNAPSHOT_SIZE then PREREG_SNAPSHOT_SIZE else len.toNat

/-- The announced length is the dumped length, and the dump stays inside the snapshot. -/
structure LenExact (db : RecordDb) : Prop where
  announced : db.recordsLen.toNat = (dumpOffsets 0 db.records).length
  within : ∀ x ∈ dumpOffsets 0 db.records, x < snapshotRoom db.recordsLen

/-! ### The dump -/

/-- As many bytes are written as the records have. -/
@[simp] theorem length_dumpOffsets (len : UInt32) (records : List (List UInt8)) :
    (dumpOffsets len records).length = recordsLen records := by
  induction records generalizing len with
  | nil => rfl
  | cons record records ih => simp [dumpOffsets, ih, recordsLen]

/-- A dump changes nothing at other offsets. -/
theorem dumpRecords_outside (records : List (List UInt8)) :
    ∀ (buf : Mem) (len : UInt32), ∀ x ∉ dumpOffsets len records,
      dumpRecords buf len records x = buf x := by
  induction records with
  | nil => intro buf len x _; rfl
  | cons record records ih =>
    intro buf len x hx
    rw [dumpOffsets, List.mem_append, not_or, List.mem_range'_1] at hx
    rw [dumpRecords, ih _ _ x hx.2]
    exact store_of_outside (by omega)

/-- As long as the offset does not wrap, the offsets written end behind the last record. -/
theorem mem_dumpOffsets_lt (records : List (List UInt8)) :
    ∀ len : UInt32, len.toNat + recordsLen records < 4294967296 →
      ∀ x ∈ dumpOffsets len records, x < len.toNat + recordsLen records := by
  induction records with
  | nil => intro len _ x hx; cases hx
  | cons record records ih =>
    intro len hfit x hx
    simp only [recordsLen, List.map_cons, List.sum_cons] at hfit ⊢
    have hnext : (len + UInt32.ofNat record.length).toNat = len.toNat + record.length :=
      toNat_add_ofNat (by omega)
    rw [dumpOffsets, List.mem_append, List.mem_range'_1] at hx
    obtain hfirst | hrest := hx
    · omega
    · have hlt := ih _ (by rw [hnext]; simp only [recordsLen]; omega) x hrest
      rw [hnext] at hlt
      simp only [recordsLen] at hlt
      omega

theorem le_snapshotRoom (len : UInt32) : len.toNat ≤ snapshotRoom len := by
  unfold snapshotRoom
  split <;> omega

/-- The bound of the dump follows from the length. -/
theorem lenExact_iff (db : RecordDb) :
    LenExact db ↔ db.recordsLen.toNat = recordsLen db.records := by
  constructor
  · intro h
    rw [h.announced, length_dumpOffsets]
  · intro h
    refine ⟨by rw [length_dumpOffsets, h], fun x hx => ?_⟩
    have hfit := db.recordsLen.toNat_lt
    have hlt := mem_dumpOffsets_lt db.records 0 (by rw [UInt32.toNat_zero]; omega) x hx
    rw [UInt32.toNat_zero, Nat.zero_add, ← h] at hlt
    exact Nat.lt_of_lt_of_le hlt (le_snapshotRoom db.recordsLen)

/-! ### The counter -/

/-- The counter moves by the size of the call, whatever the database answers. -/
theorem storeRecord_recordsLen (db : RecordDb) (c : StoreCall) :
    ((storeRecord db c.data c.put).1.recordsLen).toNat =
      (db.recordsLen.toNat + c.size) % 4294967296 := by
  unfold storeRecord StoreCall.size
  split <;> simp [UInt32.toNat_add]

/-- The records grow by the size of the call when it succeeds. -/
theorem storeRecord_records (db : RecordDb) (c : StoreCall) :
    recordsLen (storeRecord db c.data c.put).1.records =
      recordsLen db.records + if c.put = 0 then c.size else 0 := by
  have hsize : (c.data.take c.size).length = c.size := by
    rw [List.length_take, StoreCall.size, UInt32.toNat_ofNat']
    exact Nat.min_eq_left (Nat.mod_le _ _)
  unfold storeRecord
  split
  · simp only [recordsLen, List.map_append, List.sum_append, List.map_cons, List.map_nil,
      List.sum_cons, List.sum_nil]
    rw [StoreCall.size] at hsize
    rw [hsize, StoreCall.size, Nat.add_zero]
  · rfl

/-- Bytes that the successful calls add. -/
def storedLen (calls : List StoreCall) : Nat :=
  (calls.map fun c => if c.put = 0 then c.size else 0).sum

/-- One call keeps the counter right when it succeeds and the counter does not wrap, or when it
    fails and has nothing to store. -/
theorem storeRecord_exact_iff {db : RecordDb} (c : StoreCall)
    (h : db.recordsLen.toNat = recordsLen db.records) :
    (storeRecord db c.data c.put).1.recordsLen.toNat =
        recordsLen (storeRecord db c.data c.put).1.records ↔
      (c.put ≠ 0 → c.size = 0) ∧
        (recordsLen db.records + if c.put = 0 then c.size else 0) < 4294967296 := by
  have hold := db.recordsLen.toNat_lt
  have hsize : c.size < 4294967296 := UInt32.toNat_lt _
  rw [storeRecord_recordsLen, storeRecord_records, h]
  rw [h] at hold
  by_cases hput : c.put = 0
  · simp only [hput, ne_eq, not_true_eq_false, false_implies, true_and, if_true]
    omega
  · simp only [hput, ne_eq, not_false_eq_true, true_implies, if_false, Nat.add_zero]
    omega

/-- The counter is right after every one of the calls. -/
theorem storeAll_exact_iff (calls : List StoreCall) : ∀ db : RecordDb,
    (∀ k, (storeAll db (calls.take k)).recordsLen.toNat =
        recordsLen (storeAll db (calls.take k)).records) ↔
      db.recordsLen.toNat = recordsLen db.records ∧ (∀ c ∈ calls, c.put ≠ 0 → c.size = 0) ∧
        recordsLen db.records + storedLen calls < 4294967296 := by
  induction calls with
  | nil =>
    intro db
    have hfit := db.recordsLen.toNat_lt
    simp only [List.take_nil, forall_const, storeAll, List.foldl_nil, storedLen, List.map_nil,
      List.sum_nil, Nat.add_zero]
    constructor
    · intro h
      exact ⟨h, by simp, by omega⟩
    · exact And.left
  | cons c calls ih =>
    intro db
    have hhead : storeAll db [] = db := rfl
    have htail : ∀ k, storeAll db ((c :: calls).take (k + 1)) =
        storeAll (storeRecord db c.data c.put).1 (calls.take k) := fun _ => rfl
    -- the counter is right before the first call, and then along the rest
    have hall : (∀ k, (storeAll db ((c :: calls).take k)).recordsLen.toNat =
          recordsLen (storeAll db ((c :: calls).take k)).records) ↔
        db.recordsLen.toNat = recordsLen db.records ∧
          ∀ k, (storeAll (storeRecord db c.data c.put).1 (calls.take k)).recordsLen.toNat =
            recordsLen (storeAll (storeRecord db c.data c.put).1 (calls.take k)).records := by
      constructor
      · intro h
        exact ⟨h 0, fun k => h (k + 1)⟩
      · rintro ⟨h, h'⟩ (_ | k)
        · exact h
        · exact h' k
    rw [hall, ih]
    refine and_congr_right fun hdb => ?_
    rw [storeRecord_exact_iff c hdb, storeRecord_records, List.forall_mem_cons]
    simp only [storedLen, List.map_cons, List.sum_cons]
    constructor
    · rintro ⟨⟨hc, -⟩, hcalls, hfit⟩
      exact ⟨⟨hc, hcalls⟩, by omega⟩
    · rintro ⟨⟨hc, hcalls⟩, hfit⟩
      exact ⟨⟨hc, by omega⟩, hcalls, by omega⟩

/-- The announced length is the dumped length all along exactly when the opened database holds no
    bytes, every call that fails has none, and the records stored fit the counter. -/
theorem recordsLen_exact_iff (held : List (List UInt8)) (calls : List StoreCall) :
    (∀ k, LenExact (storeAll (initializeDb held) (calls.take k))) ↔
      recordsLen held = 0 ∧ (∀ c ∈ calls, c.put ≠ 0 → c.size = 0) ∧
        storedLen calls < 4294967296 := by
  have hfirst : (initializeDb held).recordsLen.toNat = recordsLen (initializeDb held).records ↔
      recordsLen held = 0 := by
    simp [initializeDb, eq_comm]
  simp only [lenExact_iff]
  rw [storeAll_exact_iff, hfirst]
  refine and_congr_right fun hheld => ?_
  have hheld' : recordsLen (initializeDb held).records = 0 := hheld
  rw [hheld', Nat.zero_add]

/-- After a restart the counter is 0, and the dump still writes the record the database holds. -/
theorem not_recordsLen_exact :
    ¬ ∀ (held : List (List UInt8)) (calls : List StoreCall),
      LenExact (storeAll (initializeDb held) calls) := by
  intro h
  have hannounced := (h [[4, 0, 4, 0]] []).announced
  simp [storeAll, initializeDb, recordsLen] at hannounced

end Apus
