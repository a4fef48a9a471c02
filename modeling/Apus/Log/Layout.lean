import Apus.Log.Basic

namespace Apus

open Lib

/-!
# Entries as records of the ring

The byte-level facts about log entries, packaged as the `RecordFormat` of the ring library:

* `readEntry_writeEntry` — the entry `log_append_entry` writes reads back as `mkEntry`;
* `readEntry_size` — `log_entry_len` is the size of the entry read;
* `entryFormat` — an entry is stored where it reads back, and skipped where a header with its
  index, term and length was left.
-/

/-! ### Reading -/

theorem isCsm_config : isCsm CONFIG = false := by decide
theorem isCsm_head : isCsm HEAD = false := by decide
theorem isCsm_noop : isCsm NOOP = false := by decide

theorem isCsm_iff (type : UInt8) :
    isCsm type = true ↔ type ≠ NOOP ∧ type ≠ CONFIG ∧ type ≠ HEAD := by
  simp [isCsm, and_assoc]

/-- `log_entry_len` is the size of the entry read at the same place. -/
theorem readEntry_size (m : Mem) (o : Nat) : (readEntry m o).size = logEntryLen m o := by
  unfold DareLogEntry.size logEntryLen readEntry
  by_cases h : isCsm (getU8 m (o + 26))
  · have hne := (isCsm_iff _).mp h
    simp only [h, if_true, length_bytes]
    rw [if_neg (by tauto)]
  · have hor : getU8 m (o + 26) = NOOP ∨ getU8 m (o + 26) = CONFIG ∨ getU8 m (o + 26) = HEAD := by
      by_contra hcon
      exact h ((isCsm_iff _).mpr (by tauto))
    rw [if_pos hor]
    simp [h]

/-- The length of an entry depends on its header only. -/
theorem logEntryLen_congr {m m' : Mem} {o : Nat}
    (h : ∀ x, o ≤ x → x < o + ENTRY_SIZE → m x = m' x) : logEntryLen m o = logEntryLen m' o := by
  simp only [ENTRY_SIZE] at h
  have htype : getU8 m (o + 26) = getU8 m' (o + 26) := h _ (by omega) (by omega)
  have hword : getU16 m (o + DATA_OFF) = getU16 m' (o + DATA_OFF) :=
    getU16_congr fun x hlo hhi => h x (by simp only [DATA_OFF] at hlo; omega)
      (by simp only [DATA_OFF] at hhi; omega)
  rw [logEntryLen, logEntryLen, htype, hword]

/-- An entry does not depend on its bookkeeping bytes, nor on bytes behind it. -/
theorem readEntry_congr {m m' : Mem} {o : Nat}
    (hhdr : ∀ x, o ≤ x → x < o + SENDER_OFF → m x = m' x)
    (hdata : ∀ x, o + DATA_OFF ≤ x → x < o + (readEntry m o).size → m x = m' x) :
    readEntry m o = readEntry m' o := by
  -- only a command goes past the header of an entry
  have hsize := (readEntry m o).entrySize_le_size
  have hcmd : isCsm (getU8 m (o + 26)) →
      (readEntry m o).size = ENTRY_SIZE + (getU16 m (o + DATA_OFF)).toNat := by
    intro hcsm
    simp [DareLogEntry.size, readEntry, hcsm]
  simp only [SENDER_OFF, DATA_OFF, ENTRY_SIZE] at *
  have htype : getU8 m (o + 26) = getU8 m' (o + 26) := hhdr _ (by omega) (by omega)
  have hlen : getU16 m (o + 48) = getU16 m' (o + 48) :=
    getU16_congr fun x hlo hhi => hdata x (by omega) (by omega)
  have hcid : readCid m (o + 48) = readCid m' (o + 48) :=
    readCid_congr fun x hlo hhi => hdata x (by omega) (by simp only [CID_SIZE] at hhi; omega)
  have hhead : getU64 m (o + 48) = getU64 m' (o + 48) :=
    getU64_congr fun x hlo hhi => hdata x (by omega) (by omega)
  simp only [readEntry, CMD_OFF, DATA_OFF, ← htype, ← hlen, ← hcid, ← hhead,
    DareLogEntry.mk.injEq, and_self, and_true, true_and]
  refine ⟨?_, ?_, ?_, ?_, ?_⟩
  · exact getU64_congr fun x hlo hhi => hhdr x (by omega) (by omega)
  · exact getU64_congr fun x hlo hhi => hhdr x (by omega) (by omega)
  · exact getU64_congr fun x hlo hhi => hhdr x (by omega) (by omega)
  · exact getU16_congr fun x hlo hhi => hhdr x (by omega) (by omega)
  · split
    · rename_i hcsm
      have hsz := hcmd hcsm
      exact bytes_congr fun x hlo hhi => hdata x (by omega) (by omega)
    · rfl

/-! ### Writing -/

/-- The bytes `log_append_entry` writes for an entry at offset `o`. -/
def writeEntry (m : Mem) (o : Nat) (idx term reqId : UInt64) (cltId : UInt16) (type : UInt8)
    (data : EntryData) : Mem :=
  let m := writeHeader m o idx term reqId cltId type
  if type = CONFIG then writeCid m (o + DATA_OFF) data.cid
  else if type = HEAD then setU64 m (o + DATA_OFF) data.head
  else if type = NOOP then m
  else
    store (setU16 m (o + DATA_OFF) (UInt16.ofNat data.cmd.cmd.length)) (o + CMD_OFF) data.cmd.cmd

section Write

variable {m : Mem} {o x : Nat} {idx term reqId : UInt64} {cltId : UInt16} {type : UInt8}
  {data : EntryData}

/-- A header write only touches the bytes up to the union. -/
theorem writeHeader_of_outside (h : x < o ∨ o + DATA_OFF ≤ x) :
    writeHeader m o idx term reqId cltId type x = m x := by
  simp only [DATA_OFF] at h
  have hlen : (List.replicate MAX_SERVER_COUNT (0 : UInt8)).length = 13 := rfl
  simp only [writeHeader, REPLY_OFF]
  rw [store_of_outside (by rw [hlen]; omega), setU8_of_outside (by omega),
    setU16_of_outside (by omega), setU64_of_outside (by omega), setU64_of_outside (by omega),
    setU64_of_outside (by omega)]

theorem getU64_writeHeader_idx : getU64 (writeHeader m o idx term reqId cltId type) o = idx := by
  have hlen : (List.replicate MAX_SERVER_COUNT (0 : UInt8)).length = 13 := rfl
  rw [← getU64_setU64 (m := m) (o := o) idx]
  refine getU64_congr fun y hlo hhi => ?_
  simp only [writeHeader, REPLY_OFF, getU64_setU64]
  rw [store_of_outside (by omega), setU8_of_outside (by omega), setU16_of_outside (by omega),
    setU64_of_outside (by omega), setU64_of_outside (by omega)]

theorem getU64_writeHeader_term :
    getU64 (writeHeader m o idx term reqId cltId type) (o + 8) = term := by
  have hlen : (List.replicate MAX_SERVER_COUNT (0 : UInt8)).length = 13 := rfl
  rw [← getU64_setU64 (m := setU64 m o idx) (o := o + 8) term]
  refine getU64_congr fun y hlo hhi => ?_
  simp only [writeHeader, REPLY_OFF, getU64_setU64]
  rw [store_of_outside (by omega), setU8_of_outside (by omega), setU16_of_outside (by omega),
    setU64_of_outside (by omega)]

theorem getU64_writeHeader_reqId :
    getU64 (writeHeader m o idx term reqId cltId type) (o + 16) = reqId := by
  have hlen : (List.replicate MAX_SERVER_COUNT (0 : UInt8)).length = 13 := rfl
  rw [← getU64_setU64 (m := setU64 (setU64 m o idx) (o + 8) term) (o := o + 16) reqId]
  refine getU64_congr fun y hlo hhi => ?_
  simp only [writeHeader, REPLY_OFF, getU64_setU64]
  rw [store_of_outside (by omega), setU8_of_outside (by omega), setU16_of_outside (by omega)]

theorem getU16_writeHeader_cltId :
    getU16 (writeHeader m o idx term reqId cltId type) (o + 24) = cltId := by
  have hlen : (List.replicate MAX_SERVER_COUNT (0 : UInt8)).length = 13 := rfl
  rw [← getU16_setU16 (m := setU64 (setU64 (setU64 m o idx) (o + 8) term) (o + 16) reqId)
    (o := o + 24) cltId]
  refine getU16_congr fun y hlo hhi => ?_
  simp only [writeHeader, REPLY_OFF, getU16_setU16]
  rw [store_of_outside (by omega), setU8_of_outside (by omega)]

theorem getU8_writeHeader_type :
    getU8 (writeHeader m o idx term reqId cltId type) (o + 26) = type := by
  have hlen : (List.replicate MAX_SERVER_COUNT (0 : UInt8)).length = 13 := rfl
  rw [getU8, writeHeader, REPLY_OFF]
  rw [store_of_outside (by omega)]
  exact getU8_setU8 type

/-- An entry write only touches the bytes of the entry. -/
theorem writeEntry_of_outside
    (h : x < o ∨ o + (mkEntry idx term reqId cltId type data).size ≤ x) :
    writeEntry m o idx term reqId cltId type data x = m x := by
  have hsize := (mkEntry idx term reqId cltId type data).entrySize_le_size
  simp only [ENTRY_SIZE] at hsize
  have hhdr : writeHeader m o idx term reqId cltId type x = m x :=
    writeHeader_of_outside (by simp only [DATA_OFF]; omega)
  unfold writeEntry
  simp only [DATA_OFF, CMD_OFF]
  split
  · rw [writeCid_of_outside (by simp only [CID_SIZE]; omega), hhdr]
  · split
    · rw [setU64_of_outside (by omega), hhdr]
    · split
      · exact hhdr
      · rename_i h1 h2 h3
        have hcsm : isCsm type = true := (isCsm_iff _).mpr ⟨h3, h1, h2⟩
        simp only [mkEntry, hcsm, if_true, DareLogEntry.size, ENTRY_SIZE] at h
        rw [store_of_outside (by omega), setU16_of_outside (by omega), hhdr]

/-- An entry write keeps the header fields it starts with. -/
theorem writeEntry_of_header (h : o ≤ x) (hx : x < o + DATA_OFF) :
    writeEntry m o idx term reqId cltId type data x =
      writeHeader m o idx term reqId cltId type x := by
  simp only [DATA_OFF] at hx
  unfold writeEntry
  simp only [DATA_OFF, CMD_OFF]
  split
  · rw [writeCid_of_outside (by omega)]
  · split
    · rw [setU64_of_outside (by omega)]
    · split
      · rfl
      · rw [store_of_outside (by omega), setU16_of_outside (by omega)]

/-- A new entry has no replies. -/
theorem getU8_writeEntry_reply {i : Nat} (hi : i < MAX_SERVER_COUNT) :
    getU8 (writeEntry m o idx term reqId cltId type data) (o + REPLY_OFF + i) = 0 := by
  have hlen : (List.replicate MAX_SERVER_COUNT (0 : UInt8)).length = 13 := rfl
  simp only [MAX_SERVER_COUNT] at hi
  rw [getU8, writeEntry_of_header (by simp only [REPLY_OFF]; omega)
    (by simp only [REPLY_OFF, DATA_OFF]; omega), writeHeader, store, hlen, if_pos (by omega),
    Nat.add_sub_cancel_left]
  exact List.getD_replicate 0 hi

/-- The entry just written reads back. -/
theorem readEntry_writeEntry (m : Mem) (o : Nat) (idx term reqId : UInt64) (cltId : UInt16)
    (type : UInt8) (data : EntryData) :
    readEntry (writeEntry m o idx term reqId cltId type data) o =
      mkEntry idx term reqId cltId type data := by
  have hidx : getU64 (writeEntry m o idx term reqId cltId type data) o = idx := by
    rw [getU64_congr fun x hlo hhi => writeEntry_of_header hlo (by simp only [DATA_OFF]; omega)]
    exact getU64_writeHeader_idx
  have hterm : getU64 (writeEntry m o idx term reqId cltId type data) (o + 8) = term := by
    rw [getU64_congr fun x hlo hhi =>
      writeEntry_of_header (by omega) (by simp only [DATA_OFF]; omega)]
    exact getU64_writeHeader_term
  have hreq : getU64 (writeEntry m o idx term reqId cltId type data) (o + 16) = reqId := by
    rw [getU64_congr fun x hlo hhi =>
      writeEntry_of_header (by omega) (by simp only [DATA_OFF]; omega)]
    exact getU64_writeHeader_reqId
  have hclt : getU16 (writeEntry m o idx term reqId cltId type data) (o + 24) = cltId := by
    rw [getU16_congr fun x hlo hhi =>
      writeEntry_of_header (by omega) (by simp only [DATA_OFF]; omega)]
    exact getU16_writeHeader_cltId
  have htype : getU8 (writeEntry m o idx term reqId cltId type data) (o + 26) = type := by
    rw [getU8, writeEntry_of_header (by omega) (by simp only [DATA_OFF]; omega)]
    exact getU8_writeHeader_type
  have hcmd : isCsm type = true →
      bytes (writeEntry m o idx term reqId cltId type data) (o + CMD_OFF)
        (getU16 (writeEntry m o idx term reqId cltId type data) (o + DATA_OFF)).toNat
        = data.cmd.cmd := by
    intro hcsm
    obtain ⟨hnoop, hconfig, hhead⟩ := (isCsm_iff _).mp hcsm
    have hlen : (UInt16.ofNat data.cmd.cmd.length).toNat = data.cmd.cmd.length :=
      UInt16.toNat_ofNat_of_lt' data.cmd.len_lt
    simp only [writeEntry, if_neg hconfig, if_neg hhead, if_neg hnoop, DATA_OFF, CMD_OFF]
    -- the bytes of the command are behind its length
    have hget : ∀ m', getU16 (store m' (o + 50) data.cmd.cmd) (o + 48) = getU16 m' (o + 48) :=
      fun m' => getU16_congr fun x hlo hhi => store_of_outside (by omega)
    rw [hget, getU16_setU16, hlen, bytes_store]
  have hcid : type = CONFIG →
      readCid (writeEntry m o idx term reqId cltId type data) (o + DATA_OFF) = data.cid := by
    intro hconfig
    simp only [writeEntry, if_pos hconfig, readCid_writeCid]
  have hhead : type = HEAD →
      getU64 (writeEntry m o idx term reqId cltId type data) (o + DATA_OFF) = data.head := by
    intro hh
    have hne : type ≠ CONFIG := by rw [hh]; decide
    simp only [writeEntry, if_neg hne, if_pos hh, getU64_setU64]
  simp only [readEntry, mkEntry, DareLogEntry.mk.injEq, hidx, hterm, hreq, hclt, htype, true_and]
  refine ⟨?_, ?_, ?_⟩
  · split
    · exact hcmd ‹_›
    · rfl
  · split
    · exact hcid ‹_›
    · rfl
  · split
    · exact hhead ‹_›
    · rfl

end Write

/-! ### The record format -/

/-- A header with the index, term and length of `e` was left at `o`. -/
def headerLeft (m : Mem) (o : Nat) (e : DareLogEntry) : Prop :=
  getU64 m o = e.idx ∧ getU64 m (o + 8) = e.term ∧ logEntryLen m o = e.size

/-- Log entries as records of the ring. -/
def entryFormat : RecordFormat DareLogEntry where
  hdr := ENTRY_SIZE
  size := DareLogEntry.size
  hdr_pos := by decide
  hdr_le_size := DareLogEntry.entrySize_le_size
  stored m o e := readEntry m o = e
  skipped := headerLeft
  stored_congr := by
    intro m m' o e h hread
    have hsize := e.entrySize_le_size
    simp only [ENTRY_SIZE] at hsize
    rw [← hread]
    symm
    refine readEntry_congr (fun x hlo hhi => h x hlo ?_) fun x hlo hhi => h x ?_ ?_
    · simp only [SENDER_OFF] at hhi; omega
    · omega
    · rwa [hread] at hhi
  skipped_congr := by
    intro m m' o e h hskip
    obtain ⟨hidx, hterm, hlen⟩ := hskip
    have h' := h
    simp only [ENTRY_SIZE] at h'
    refine ⟨?_, ?_, ?_⟩
    · rw [← hidx]; exact (getU64_congr fun x hlo hhi => h' x hlo (by omega)).symm
    · rw [← hterm]; exact (getU64_congr fun x hlo hhi => h' x (by omega) (by omega)).symm
    · rw [← hlen, logEntryLen_congr h]

@[simp] theorem entryFormat_hdr : entryFormat.hdr = ENTRY_SIZE := rfl
@[simp] theorem entryFormat_size (e : DareLogEntry) : entryFormat.size e = e.size := rfl

/-- The header a too long command leaves at the old end tells a reader to go on at `0`. -/
theorem headerLeft_writeHeader {m : Mem} {o : Nat} {idx term reqId : UInt64} {cltId : UInt16}
    {type : UInt8} {data : EntryData} (hcsm : isCsm type = true) :
    headerLeft (setU16 (writeHeader m o idx term reqId cltId type) (o + DATA_OFF)
      (UInt16.ofNat data.cmd.cmd.length)) o (mkEntry idx term reqId cltId type data) := by
  have hlen : (UInt16.ofNat data.cmd.cmd.length).toNat = data.cmd.cmd.length :=
    UInt16.toNat_ofNat_of_lt' data.cmd.len_lt
  have hframe : ∀ x, x < o + DATA_OFF → setU16 (writeHeader m o idx term reqId cltId type)
      (o + DATA_OFF) (UInt16.ofNat data.cmd.cmd.length) x =
        writeHeader m o idx term reqId cltId type x :=
    fun x hx => setU16_of_outside (by omega)
  simp only [DATA_OFF] at hframe
  refine ⟨?_, ?_, ?_⟩
  · rw [DATA_OFF, getU64_congr fun x hlo hhi => hframe x (by omega)]
    exact getU64_writeHeader_idx
  · rw [DATA_OFF, getU64_congr fun x hlo hhi => hframe x (by omega)]
    exact getU64_writeHeader_term
  · have htype : getU8 (setU16 (writeHeader m o idx term reqId cltId type) (o + 48)
        (UInt16.ofNat data.cmd.cmd.length)) (o + 26) = type := by
      rw [getU8, hframe _ (by omega)]
      exact getU8_writeHeader_type
    have hne := (isCsm_iff _).mp hcsm
    rw [logEntryLen, DATA_OFF, htype, if_neg (by tauto), getU16_setU16, hlen]
    simp [DareLogEntry.size, mkEntry, hcsm]

end Apus
