import Apus.Log.Cursor

namespace Apus

open Lib

/-!
# Append

What `log_append_entry` does to a log that ends at position `V` and has room for the new
entry: the entry is in place behind `V`, the bytes of the entries in front of it are kept, and
the end and the tail are those of the new entry (`Appended`).

There are three ways an entry meets the buffer end:

* the header does not fit — the entry is created at offset `0`;
* the header fits but not the command — the header stays where it was created, and the whole
  entry is created again at offset `0`;
* everything fits — the entry is created at the end offset.

`logCreateEntry_spec` covers them with one statement, `place` being where the entry goes.
-/

/-- `log'` is `log`, which ended at position `V`, after the entry `e` was appended. -/
structure Appended (log : DareLog) (V : Nat) (e : DareLogEntry) (log' : DareLog) : Prop where
  head : log'.head = log.head
  apply : log'.apply = log.apply
  commit : log'.commit = log.commit
  oldEnd : log'.oldEnd = log.oldEnd
  len : log'.len = log.len
  tail : log'.tail = place log.len V e.size % log.len
  end_ : log'.end_ = place log.len V e.size % log.len + e.size
  inPlace : InPlace entryFormat log'.entries log.len V e
  /-- The reply array of the new entry is cleared. -/
  noReply : ∀ i, i < MAX_SERVER_COUNT →
    getU8 log'.entries (place log.len V e.size % log.len + REPLY_OFF + i) = 0
  /-- Positions behind `V` that the entry does not reach around the ring keep their bytes. -/
  frame : ∀ y, y < V → place log.len V e.size + e.size ≤ y + log.len →
    log'.entries (y % log.len) = log.entries (y % log.len)

variable {log log' : DareLog} {V U : Nat} {e : DareLogEntry}

section Create

variable {m : Mem} {o : Nat} {idx term reqId : UInt64} {cltId : UInt16} {type : UInt8}
  {data : EntryData}

/-- An entry just written has the length of the entry. -/
theorem logEntryLen_writeEntry :
    logEntryLen (writeEntry m o idx term reqId cltId type data) o =
      (mkEntry idx term reqId cltId type data).size := by
  rw [← readEntry_size, readEntry_writeEntry]

/-- The header with the command length is enough to know the length of the entry. -/
theorem logEntryLen_writeHeader (hcsm : isCsm type = true) :
    logEntryLen (setU16 (writeHeader m o idx term reqId cltId type) (o + DATA_OFF)
      (UInt16.ofNat data.cmd.cmd.length)) o = (mkEntry idx term reqId cltId type data).size :=
  (headerLeft_writeHeader hcsm).2.2

/-- Only a command makes an entry longer than its header. -/
theorem mkEntry_size_of_not_csm (h : isCsm type = false) :
    (mkEntry idx term reqId cltId type data).size = ENTRY_SIZE := by
  simp [DareLogEntry.size, mkEntry, h]

/-- The new entry keeps the bytes of the window behind it. -/
theorem frame_of_writeEntry {len : Nat}
    (he : e = mkEntry idx term reqId cltId type data)
    (ho : o = place len V e.size % len) (hsize : e.size ≤ len)
    (hlen : 0 < len) {y : Nat} (hy : y < V)
    (hroom : place len V e.size + e.size ≤ y + len) :
    writeEntry m o idx term reqId cltId type data (y % len) = m (y % len) := by
  refine writeEntry_of_outside ?_
  rw [← he]
  by_contra hcon
  have hplace : V ≤ place len V e.size := le_place hlen
  have hfits := place_mod_add_le (v := V) hsize
  have hmod := Nat.mod_lt y hlen
  -- a byte of the entry is a position between its place and its end
  have hpos : (place len V e.size + (y % len - o)) % len = y % len := by
    rw [add_mod_of_lt (by omega)]
    omega
  exact mod_ne_of_lt (by omega) (by omega) hpos.symm

/-- A header left in the rest of the lap keeps the bytes of the window behind it. -/
theorem frame_of_headerLeft {len : Nat} {v : UInt16} (hlen : 0 < len)
    (hfit : V % len + ENTRY_SIZE ≤ len) {y : Nat} (hy : y < V)
    (hroom : V + ENTRY_SIZE ≤ y + len) :
    setU16 (writeHeader m (V % len) idx term reqId cltId type) (V % len + DATA_OFF) v
      (y % len) = m (y % len) := by
  have hmod := Nat.mod_lt y hlen
  have hout : y % len < V % len ∨ V % len + ENTRY_SIZE ≤ y % len := by
    by_contra hcon
    have hpos : (V + (y % len - V % len)) % len = y % len := by
      rw [add_mod_of_lt (by omega)]
      omega
    exact mod_ne_of_lt (by omega) (by omega) hpos.symm
  simp only [ENTRY_SIZE] at hout
  rw [setU16_of_outside (by simp only [DATA_OFF]; omega),
    writeHeader_of_outside (by simp only [DATA_OFF]; omega)]

/-- Where `log_append_entry` first tries to create the entry. -/
def createOffset (log : DareLog) : Nat :=
  if logFitEntryHeader log log.end_ then log.end_ else 0

theorem createOffset_of_end_eq_zero (h : log.end_ = 0) : createOffset log = 0 := by
  rw [createOffset, h, ite_self]

theorem logAddNewEntry_of_not_full (hfull : log.end_ ≠ log.head) :
    logAddNewEntry log = some (createOffset log) := by
  unfold logAddNewEntry createOffset
  rw [if_neg (by simpa [isLogFull] using hfull)]
  by_cases hempty : log.end_ = log.len
  · have hfit : logFitEntryHeader log log.end_ = false := by
      simp [logFitEntryHeader, hempty, ENTRY_SIZE]
    simp [isLogEmpty, hempty, hempty ▸ hfit]
  · by_cases hfit : logFitEntryHeader log log.end_ <;> simp [isLogEmpty, hempty, hfit]

/-- The end is rewound when the entry does not start there. -/
theorem rewindEnd_eq (log : DareLog) (m : Mem) :
    (if !logFitEntryHeader { log with entries := m } log.end_
      then { log with entries := m, end_ := 0 } else { log with entries := m }) =
        { log with entries := m, end_ := createOffset log } := by
  have hsame : logFitEntryHeader { log with entries := m } log.end_ =
      logFitEntryHeader log log.end_ := rfl
  unfold createOffset
  rw [hsame]
  cases logFitEntryHeader log log.end_ <;> rfl

/-- An entry that fits is created in one go. -/
theorem logCreateEntry_of_fit (hfull : log.end_ ≠ log.head)
    (hfit : createOffset log + (mkEntry idx term reqId cltId type data).size ≤ log.len) :
    logCreateEntry log idx term reqId cltId type data =
      (logFinishAppend { log with
          end_ := createOffset log
          entries := writeEntry log.entries (createOffset log) idx term reqId cltId type data }
        (createOffset log), idx) := by
  unfold logCreateEntry
  rw [logAddNewEntry_of_not_full hfull]
  simp only [rewindEnd_eq]
  unfold writeEntry
  by_cases hconfig : type = CONFIG
  · simp only [if_pos hconfig]
  by_cases hhd : type = HEAD
  · simp only [if_neg hconfig, if_pos hhd]
  by_cases hnoop : type = NOOP
  · simp only [if_neg hconfig, if_neg hhd, if_pos hnoop]
  have hcsm : isCsm type = true := (isCsm_iff _).mpr ⟨hnoop, hconfig, hhd⟩
  simp only [if_neg hconfig, if_neg hhd, if_neg hnoop]
  rw [if_pos]
  rw [logFitEntry, decide_eq_true_iff]
  show log.len - createOffset log ≥ logEntryLen (setU16 _ _ _) _
  rw [logEntryLen_writeHeader hcsm]
  omega

/-- An entry whose command does not fit leaves its header and is created again at `0`. -/
theorem logCreateEntry_of_not_fit (hfull : log.end_ ≠ log.head)
    (hhead : log.head ≠ 0) (hoff : createOffset log + ENTRY_SIZE ≤ log.len)
    (hfit : log.len < createOffset log + (mkEntry idx term reqId cltId type data).size) :
    logCreateEntry log idx term reqId cltId type data =
      (logFinishAppend { log with
          end_ := 0
          entries := writeEntry (setU16 (writeHeader log.entries (createOffset log) idx term reqId
              cltId type) (createOffset log + DATA_OFF) (UInt16.ofNat data.cmd.cmd.length))
            0 idx term reqId cltId type data } 0, idx) := by
  -- only a command goes past its header
  have hcsm : isCsm type = true := by
    by_contra hcon
    rw [mkEntry_size_of_not_csm (Bool.eq_false_iff.mpr hcon)] at hfit
    omega
  obtain ⟨hnoop, hconfig, hhd⟩ := (isCsm_iff _).mp hcsm
  -- so the entry does not fit at the first offset
  have hnot : logFitEntry
      { log with
        end_ := createOffset log
        entries := setU16 (writeHeader log.entries (createOffset log) idx term reqId cltId type)
          (createOffset log + DATA_OFF) (UInt16.ofNat data.cmd.cmd.length) }
      (createOffset log) (createOffset log) = false := by
    rw [logFitEntry, decide_eq_false_iff_not]
    show ¬ log.len - createOffset log ≥ logEntryLen (setU16 _ _ _) _
    rw [logEntryLen_writeHeader hcsm]
    omega
  unfold logCreateEntry
  rw [logAddNewEntry_of_not_full hfull]
  simp only [rewindEnd_eq, if_neg hconfig, if_neg hhd, if_neg hnoop]
  rw [if_neg (by simp [hnot]), logAddNewEntry_of_not_full (by simpa using hhead.symm)]
  -- but at the start of the buffer
  have hzero : createOffset { log with
      end_ := 0
      entries := setU16 (writeHeader log.entries (createOffset log) idx term reqId cltId type)
        (createOffset log + DATA_OFF) (UInt16.ofNat data.cmd.cmd.length) } = 0 :=
    createOffset_of_end_eq_zero rfl
  simp only [hzero, writeEntry, if_neg hconfig, if_neg hhd, if_neg hnoop]

/-- The first offset tried is the place of the entry, unless only its header fits there. -/
theorem createOffset_eq (hV : EndsAt log V) :
    createOffset log = Lib.headerOffset entryFormat log.len V := by
  rw [← IsOffset.headerOffset hV.entrySize_le_len hV.offset]
  unfold createOffset
  by_cases hfit : log.end_ + ENTRY_SIZE ≤ log.len
  · rw [if_pos ((logFitEntryHeader_iff _ _ hV.offset.1).mpr hfit), if_pos hfit]
  · rw [if_neg (by rw [logFitEntryHeader_iff _ _ hV.offset.1]; exact hfit), if_neg hfit]

/-- The entry is created where it fits: at its place, which is offset `0` or the end. -/
theorem logCreateEntry_spec (hV : EndsAt log V) (hhead : IsOffset log.len U log.head)
    (hU : U ≤ V) (hfull : log.end_ ≠ log.head)
    (he : e = mkEntry idx term reqId cltId type data)
    (hroom : place log.len V e.size + e.size < U + log.len) :
    ∃ log', logCreateEntry log idx term reqId cltId type data = (log', idx) ∧
      Appended log V e log' := by
  have hlen := hV.len_pos
  have hplace : V ≤ place log.len V e.size := le_place hlen
  have hsize : e.size ≤ log.len := by omega
  have hhdr := e.entrySize_le_size
  have hstart := createOffset_eq hV
  by_cases hfit : createOffset log + e.size ≤ log.len
  · -- the place of the entry is the first offset tried
    have hat : createOffset log = place log.len V e.size % log.len := by
      rw [hstart, Lib.headerOffset, entryFormat_hdr]
      rw [hstart, Lib.headerOffset, entryFormat_hdr] at hfit
      split at hfit
      · rw [if_pos ‹_›, place_of_fit hfit]
      · rw [if_neg ‹_›, place_mod_of_not_fit (by omega)]
    refine ⟨_, logCreateEntry_of_fit hfull (he ▸ hfit), ?_⟩
    constructor <;> try rfl
    · exact hat
    · show createOffset log + logEntryLen (writeEntry _ _ _ _ _ _ _ _) _ = _
      rw [logEntryLen_writeEntry, ← he, hat]
    · refine ⟨hsize, ?_, fun hheader hnot => ?_⟩
      · show readEntry (writeEntry _ _ _ _ _ _ _ _) (place log.len V e.size % log.len) = e
        rw [← hat, readEntry_writeEntry, he]
      · rw [hstart, Lib.headerOffset, if_pos hheader] at hfit
        exact absurd hnot (by simpa using hfit)
    · intro i hi
      rw [← hat]
      exact getU8_writeEntry_reply hi
    · intro y hy hframe
      exact frame_of_writeEntry he hat hsize hlen hy hframe
  · -- the header fits, the command does not
    have hheader : V % log.len + ENTRY_SIZE ≤ log.len := by
      by_contra hcon
      rw [hstart, Lib.headerOffset, entryFormat_hdr, if_neg hcon] at hfit
      omega
    have hat : createOffset log = V % log.len := by
      rw [hstart, Lib.headerOffset, entryFormat_hdr, if_pos hheader]
    rw [hat] at hfit
    have hskip : place log.len V e.size + V % log.len = V + log.len :=
      place_of_not_fit_add (by omega)
    have hzero : place log.len V e.size % log.len = 0 := place_mod_of_not_fit (by omega)
    have hhead0 : log.head ≠ 0 := by
      intro hcon
      obtain ⟨-, hmod⟩ := hhead
      rw [hcon, Nat.zero_mod] at hmod
      have hUV : U ≠ V := fun h => by rw [← h, ← hmod] at hfit; omega
      have hne : U % log.len ≠ place log.len V e.size % log.len := mod_ne_of_lt (by omega) (by omega)
      exact hne (by rw [hzero, ← hmod])
    refine ⟨_, logCreateEntry_of_not_fit hfull hhead0 (by omega)
      (by rw [hat, ← he]; omega), ?_⟩
    have hfill : ∀ {m : Mem} {y : Nat}, y < V →
        place log.len V e.size + e.size ≤ y + log.len →
        writeEntry m 0 idx term reqId cltId type data (y % log.len) = m (y % log.len) :=
      fun hy hframe => frame_of_writeEntry he hzero.symm hsize hlen hy hframe
    constructor <;> try rfl
    · exact hzero.symm
    · show 0 + logEntryLen (writeEntry _ _ _ _ _ _ _ _) _ = _
      rw [logEntryLen_writeEntry, ← he, hzero]
    · refine ⟨hsize, ?_, fun _ _ => ?_⟩
      · show readEntry (writeEntry _ _ _ _ _ _ _ _) (place log.len V e.size % log.len) = e
        rw [hzero, readEntry_writeEntry, he]
      · have hcsm : isCsm type = true := by
          by_contra hcon
          rw [he, mkEntry_size_of_not_csm (Bool.eq_false_iff.mpr hcon)] at hfit
          omega
        refine entryFormat.skipped_congr (m := setU16 (writeHeader log.entries (V % log.len) idx
          term reqId cltId type) (V % log.len + DATA_OFF) (UInt16.ofNat data.cmd.cmd.length)) ?_
          (he ▸ headerLeft_writeHeader hcsm)
        intro x hlo hhi
        show _ = writeEntry _ 0 idx term reqId cltId type data x
        rw [writeEntry_of_outside (by rw [← he]; omega), hat]
    · intro i hi
      rw [hzero]
      exact getU8_writeEntry_reply hi
    · intro y hy hframe
      show writeEntry _ 0 idx term reqId cltId type data _ = _
      rw [hfill hy hframe, hat]
      exact frame_of_headerLeft hlen hheader hy (by omega)

end Create

/-! ### The index of a new entry -/

/-- The flag that avoids a double `HEAD` does not matter to the rest of an append. -/
theorem Appended.of_flag {b : Bool} (h : Appended { log with prevLogEntryHead := b } V e log') :
    Appended log V e log' :=
  ⟨h.head, h.apply, h.commit, h.oldEnd, h.len, h.tail, h.end_, h.inPlace, h.noReply,
    h.frame⟩

/-- A new entry gets the index after that of the entry at the tail. -/
theorem logNewIdx_eq {P : Nat} {last : DareLogEntry} {es : List DareLogEntry}
    (hV : EndsAt log V) (hne : log.end_ ≠ log.len)
    (htail : Cursor log V P log.tail (last :: es)) : logNewIdx log = last.idx + 1 := by
  rw [logNewIdx, htail.getEntry_cons hV hne]
  simp only [htail.header.1]

/-- In a log that looks empty a new entry gets the index `1`. -/
theorem logNewIdx_of_end_eq_len (h : log.end_ = log.len) : logNewIdx log = 1 := by
  rw [logNewIdx, logGetEntry_of_end_eq_len h]

/-! ### Cursors over an append -/

section Appended

variable {v off : Nat} {es : List DareLogEntry}

/-- The new end. -/
theorem Appended.endsAt (hV : EndsAt log V) (h : Appended log V e log') :
    EndsAt log' (place log.len V e.size + e.size) := by
  refine ⟨by rw [h.len]; exact hV.entrySize_le_len, ?_⟩
  rw [h.len, h.end_]
  exact (isOffset_mod hV.len_pos).add (place_mod_add_le h.inPlace.size_le)

/-- A cursor that the new entry does not reach gets the entry behind those it had. -/
theorem Appended.cursor (hV : EndsAt log V) (h : Appended log V e log')
    (hroom : place log.len V e.size + e.size < v + log.len) (hc : Cursor log V v off es) :
    Cursor log' (place log.len V e.size + e.size) v off (es ++ [e]) := by
  have hlen := hV.len_pos
  refine ⟨by rw [h.len]; exact hc.offset, by rw [h.len]; exact hroom, ?_, ?_⟩
  · rw [h.len, chain_append, hc.stop, chain_singleton]
    refine ⟨hc.chain.congr hlen fun x hlo hhi => ?_, h.inPlace⟩
    rw [hc.stop] at hhi
    exact (h.frame x hhi (by omega)).symm
  · rw [h.len, advance_append, hc.stop, advance_singleton, entryFormat_size]

/-- The tail is a cursor at the new entry. -/
theorem Appended.tailCursor (hV : EndsAt log V) (h : Appended log V e log')
    (hlt : e.size < log.len) :
    Cursor log' (place log.len V e.size + e.size) (place log.len V e.size) log'.tail [e] := by
  have hin := (chain_singleton (F := entryFormat) e).mpr h.inPlace
  refine ⟨?_, by rw [h.len]; omega, ?_, ?_⟩
  · rw [h.len, h.tail]; exact isOffset_mod hV.len_pos
  · rw [h.len]; exact hin.at_place
  · rw [h.len, advance_singleton, entryFormat_size, place_place hlt.le]

/-- The end is at the buffer end exactly if the entry ends there. -/
theorem Appended.end_ne_len_iff (h : Appended log V e log') :
    log'.end_ ≠ log'.len ↔ place log.len V e.size % log.len + e.size ≠ log.len := by
  rw [h.end_, h.len]

end Appended

/-! ### Room -/

section Room

variable {type : UInt8} {data : EntryData}

/-- Bytes an append with these arguments writes. -/
def appendSize (type : UInt8) (data : EntryData) : Nat :=
  if isCsm type then ENTRY_SIZE + data.cmd.cmd.length else ENTRY_SIZE

/-- Bytes such an append skips at the buffer end. -/
def appendSkip (log : DareLog) (type : UInt8) (data : EntryData) : Nat :=
  if log.len - log.end_ < appendSize type data then log.len - log.end_ else 0

/-- The append leaves enough room: the bytes from `head` to the end, those it skips and those
    it writes do not reach `head`. -/
def AppendRoom (log : DareLog) (type : UInt8) (data : EntryData) : Prop :=
  (log.end_ + log.len - log.head) % log.len + appendSkip log type data + appendSize type data
    < log.len

/-- The end offset such an append leads to. -/
def endAfterAppend (log : DareLog) (type : UInt8) (data : EntryData) : Nat :=
  (if log.len - log.end_ < appendSize type data then 0 else log.end_) + appendSize type data

theorem mkEntry_size (idx term reqId : UInt64) (cltId : UInt16) (type : UInt8)
    (data : EntryData) : (mkEntry idx term reqId cltId type data).size = appendSize type data := by
  unfold DareLogEntry.size mkEntry appendSize
  split <;> simp [*]

theorem appendSize_pos (type : UInt8) (data : EntryData) : 0 < appendSize type data := by
  unfold appendSize ENTRY_SIZE
  split <;> omega

/-- The skipped bytes are those between the end and the place of the entry. -/
theorem add_appendSkip (hV : EndsAt log V) (hsize : appendSize type data ≤ log.len) :
    V + appendSkip log type data = place log.len V (appendSize type data) := by
  have hmod := Nat.mod_lt V hV.len_pos
  have hpos := appendSize_pos type data
  unfold appendSkip
  rcases hV.offset.cases hV.len_pos with heq | ⟨heq, hzero⟩
  · rw [heq]
    split
    · have hplace : place log.len V (appendSize type data) + V % log.len = V + log.len :=
        place_of_not_fit_add (by omega)
      omega
    · rw [place_of_fit (by omega)]; rfl
  · rw [heq, if_pos (by omega), place_of_fit (by omega)]
    omega

/-- Where the end goes. -/
theorem endAfterAppend_eq (hV : EndsAt log V) (hsize : appendSize type data ≤ log.len) :
    endAfterAppend log type data =
      place log.len V (appendSize type data) % log.len + appendSize type data := by
  have hmod := Nat.mod_lt V hV.len_pos
  have hpos := appendSize_pos type data
  unfold endAfterAppend
  rcases hV.offset.cases hV.len_pos with heq | ⟨heq, hzero⟩
  · rw [heq]
    split
    · rw [place_mod_of_not_fit (by omega)]
    · rw [place_of_fit (by omega)]
  · rw [heq, if_pos (by omega), place_of_fit (by omega), hzero]

theorem AppendRoom.size_lt (h : AppendRoom log type data) : appendSize type data < log.len := by
  unfold AppendRoom at h
  omega

/-- Room for the append is room for the placed entry. -/
theorem AppendRoom.place_lt (hV : EndsAt log V) (hhead : IsOffset log.len U log.head)
    (hU : U ≤ V) (hwindow : V < U + log.len) (hroom : AppendRoom log type data) :
    place log.len V (appendSize type data) + appendSize type data < U + log.len := by
  have hskip := add_appendSkip hV hroom.size_lt.le
  have hused := add_sub_mod_eq hhead hV.offset hU hwindow
  rw [AppendRoom, hused] at hroom
  omega

end Room

/-! ### The specification of `log_append_entry` -/

section Spec

variable {term reqId : UInt64} {cltId : UInt16} {type : UInt8} {data : EntryData}

/-- The tail is known, or the log looks empty. -/
def TailKnown (log : DareLog) : Prop := log.tail ≠ log.len ∨ log.end_ = log.len

/-- With a known tail nothing is searched. -/
theorem logAppendEntry_eq (h : TailKnown log) :
    logAppendEntry log term reqId cltId type data =
      some (logCreateEntry { log with
          prevLogEntryHead := if type ≠ HEAD then false else log.prevLogEntryHead }
        (logNewIdx log) term reqId cltId type data) := by
  have hcache : ∀ b, logCacheTail { log with prevLogEntryHead := b } =
      some { log with prevLogEntryHead := b } := by
    intro b
    by_cases htail : log.tail = log.len
    · have hempty : log.end_ = log.len := h.resolve_left (not_not.mpr htail)
      have hget : logGetTail { log with prevLogEntryHead := b } = some log.tail := by
        simp [logGetTail, htail, isLogEmpty, hempty]
      rw [logCacheTail, if_pos htail, hget, Option.map_some]
    · rw [logCacheTail, if_neg htail]
  by_cases htype : type ≠ HEAD
  · simp only [logAppendEntry, if_pos htype, hcache, Option.bind_eq_bind, Option.bind_some]
    rfl
  · simp only [logAppendEntry, if_neg htype]
    have hsame := hcache log.prevLogEntryHead
    simp only [hsame, Option.bind_eq_bind, Option.bind_some]
    rfl

/-- An append with room behind the end puts the entry in place. -/
theorem logAppendEntry_spec (term reqId : UInt64) (cltId : UInt16) (htail : TailKnown log) (hV : EndsAt log V)
    (hhead : IsOffset log.len U log.head) (hU : U ≤ V) (hwindow : V < U + log.len)
    (hfull : log.end_ ≠ log.head) (hroom : AppendRoom log type data) :
    ∃ log', logAppendEntry log term reqId cltId type data = some (log', logNewIdx log) ∧
      Appended log V (mkEntry (logNewIdx log) term reqId cltId type data) log' := by
  have hplace := hroom.place_lt hV hhead hU hwindow
  have hV' : EndsAt { log with
      prevLogEntryHead := if type ≠ HEAD then false else log.prevLogEntryHead } V := ⟨hV.1, hV.2⟩
  have he : mkEntry (logNewIdx log) term reqId cltId type data =
      mkEntry (logNewIdx log) term reqId cltId type data := rfl
  obtain ⟨log', heq, happ⟩ :=
    logCreateEntry_spec hV' hhead hU hfull he (by rw [mkEntry_size]; exact hplace)
  exact ⟨log', by rw [logAppendEntry_eq htail, heq], happ.of_flag⟩

/-- A full log is left as it is. -/
theorem logAppendEntry_of_full (htail : TailKnown log) (hfull : log.end_ = log.head) :
    logAppendEntry log term reqId cltId type data =
      some ({ log with
        prevLogEntryHead := if type ≠ HEAD then false else log.prevLogEntryHead }, 0) := by
  rw [logAppendEntry_eq htail, logCreateEntry, logAddNewEntry]
  simp [isLogFull, hfull]

end Spec

/-! ### Small logs -/

section Small

/-- An entry of 64 bytes with index `idx` and term `1`. -/
def noop (idx : UInt64) : DareLogEntry := mkEntry idx 1 0 0 NOOP default

/-- The memory after such an entry was written at `o`. -/
def writeNoop (m : Mem) (o : Nat) (idx : UInt64) : Mem := writeEntry m o idx 1 0 0 NOOP default

/-- A log of the size of `log_new` with the given offsets and bytes. -/
def logOf (head commit end_ : Nat) (m : Mem) : DareLog :=
  { logNew with head := head, apply := commit, commit := commit, end_ := end_, entries := m }

/-- An empty buffer. -/
def zeroMem : Mem := fun _ => 0

theorem size_noop (idx : UInt64) : (noop idx).size = ENTRY_SIZE := rfl

/-- Writing it only touches its bytes. -/
theorem writeNoop_of_outside {m : Mem} {o x : Nat} {idx : UInt64}
    (h : x < o ∨ o + ENTRY_SIZE ≤ x) : writeNoop m o idx x = m x :=
  writeEntry_of_outside h

/-- An entry without a command continues a chain. -/
theorem chain_writeEntry {m : Mem} {len v w o : Nat} {idx term reqId : UInt64} {cltId : UInt16}
    {type : UInt8} {data : EntryData} (hcsm : isCsm type = false) (es : List DareLogEntry)
    (hlen : ENTRY_SIZE ≤ len) (hc : Chain entryFormat m len v es)
    (hstop : advance entryFormat len v es = w) (ho : place len w ENTRY_SIZE % len = o)
    (hroom : place len w ENTRY_SIZE + ENTRY_SIZE ≤ v + len) :
    Chain entryFormat (writeEntry m o idx term reqId cltId type data) len v
      (es ++ [mkEntry idx term reqId cltId type data]) := by
  have hpos : 0 < len := Nat.lt_of_lt_of_le (by decide) hlen
  have hsize : (mkEntry idx term reqId cltId type data).size = ENTRY_SIZE :=
    mkEntry_size_of_not_csm hcsm
  rw [chain_append, chain_singleton, hstop]
  refine ⟨hc.congr hpos fun x hlo hhi => ?_, ?_, ?_, fun hfit hnot => ?_⟩
  · rw [hstop] at hhi
    refine (frame_of_writeEntry rfl ?_ ?_ hpos hhi ?_).symm
    · rw [hsize]
      exact ho.symm
    · rw [hsize]
      exact hlen
    · rw [hsize]
      omega
  · rw [entryFormat_size, hsize]
    exact hlen
  · rw [entryFormat_size, hsize, ho]
    exact readEntry_writeEntry m o idx term reqId cltId type data
  · rw [entryFormat_size, hsize] at hnot
    exact absurd hfit (Nat.not_le.mpr hnot)

/-- Such an entry continues a chain. -/
theorem chain_writeNoop {m : Mem} {len v w o : Nat} {idx : UInt64} (es : List DareLogEntry)
    (hlen : ENTRY_SIZE ≤ len) (hc : Chain entryFormat m len v es)
    (hstop : advance entryFormat len v es = w) (ho : place len w ENTRY_SIZE % len = o)
    (hroom : place len w ENTRY_SIZE + ENTRY_SIZE ≤ v + len) :
    Chain entryFormat (writeNoop m o idx) len v (es ++ [noop idx]) :=
  chain_writeEntry rfl es hlen hc hstop ho hroom

theorem endsAt_logOf {m : Mem} {head commit end_ V : Nat} (hoff : IsOffset LOG_SIZE V end_) :
    EndsAt (logOf head commit end_ m) V := ⟨by show ENTRY_SIZE ≤ LOG_SIZE; decide, hoff⟩

/-- A cursor of such a log. -/
theorem cursor_logOf {m : Mem} {head commit end_ V v off : Nat} {es : List DareLogEntry}
    (hoff : IsOffset LOG_SIZE v off) (hwindow : V < v + LOG_SIZE)
    (hc : Chain entryFormat m LOG_SIZE v es) (hstop : advance entryFormat LOG_SIZE v es = V) :
    Cursor (logOf head commit end_ m) V v off es := ⟨hoff, hwindow, hc, hstop⟩

end Small

end Apus
