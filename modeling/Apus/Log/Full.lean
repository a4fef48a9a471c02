import Apus.Log.Fifo

namespace Apus

open Lib

/-!
# The full log

`log_append_entry` tests for a full log in two places, and both test only `end == head`: before
it knows how long the entry is, and again after it has left a header at the buffer end and set
the end to `0`.

* `appendWrites` — the byte ranges an append writes (`logAppendEntry_of_not_written`);
* `logCreateEntry_cases` — the four ways an append ends;
* `append_keeps_live_iff` — when those bytes are none of a live entry's, and the lack of room is
  noticed;
* `rejected_append_same_iff` — when a rejected append leaves the log as it was.
-/

/-! ### The bytes an append writes -/

/-- `size` bytes at `start`. -/
structure ByteRange where
  start : Nat
  size : Nat
  deriving DecidableEq

/-- The byte `x` is in one of the ranges. -/
def InRanges (rs : List ByteRange) (x : Nat) : Prop := ∃ r ∈ rs, r.start ≤ x ∧ x < r.start + r.size

/-- The header fields up to `type`, and the reply array. -/
def headerWrites (entry : Nat) : List ByteRange :=
  [⟨entry, SENDER_OFF⟩, ⟨entry + REPLY_OFF, MAX_SERVER_COUNT⟩]

/-- The length field of a command. -/
def lenWrites (entry : Nat) : List ByteRange := [⟨entry + DATA_OFF, 2⟩]

/-- The data of a new entry. -/
def dataWrites (entry : Nat) (type : UInt8) (data : EntryData) : List ByteRange :=
  if type = CONFIG then [⟨entry + DATA_OFF, CID_SIZE⟩]
  else if type = HEAD then [⟨entry + DATA_OFF, 8⟩]
  else if type = NOOP then []
  else lenWrites entry ++ [⟨entry + CMD_OFF, data.cmd.cmd.length⟩]

/-- The byte ranges that an append with these arguments writes. -/
def appendWrites (log : DareLog) (type : UInt8) (data : EntryData) : List ByteRange :=
  match logAddNewEntry log with
  | none => []
  | some entry =>
    if createOffset log + appendSize type data ≤ log.len then
      headerWrites entry ++ dataWrites entry type data
    else
      -- the header stays where the command did not fit
      headerWrites entry ++ lenWrites entry ++
        match logAddNewEntry { log with end_ := 0 } with
        | none => []
        | some entry => headerWrites entry ++ dataWrites entry type data

theorem inRanges_append {rs qs : List ByteRange} {x : Nat} :
    InRanges (rs ++ qs) x ↔ InRanges rs x ∨ InRanges qs x := by
  unfold InRanges
  simp only [List.mem_append, or_and_right, exists_or]

theorem inRanges_cons {r : ByteRange} {rs : List ByteRange} {x : Nat} :
    InRanges (r :: rs) x ↔ (r.start ≤ x ∧ x < r.start + r.size) ∨ InRanges rs x := by
  unfold InRanges
  simp only [List.mem_cons, or_and_right, exists_or, exists_eq_left]

theorem not_inRanges_nil (x : Nat) : ¬ InRanges [] x := by
  rintro ⟨r, hr, -⟩
  exact List.not_mem_nil hr

section Writes

variable {m : Mem} {o x : Nat} {idx term reqId : UInt64} {cltId : UInt16} {type : UInt8}
  {data : EntryData}

/-- The written bytes of a header. -/
theorem inRanges_headerWrites : InRanges (headerWrites o) x ↔
    (o ≤ x ∧ x < o + SENDER_OFF) ∨ (o + REPLY_OFF ≤ x ∧ x < o + REPLY_OFF + MAX_SERVER_COUNT) := by
  unfold headerWrites
  rw [inRanges_cons, inRanges_cons, or_iff_left (not_inRanges_nil x)]

/-- A header write only touches its ranges. -/
theorem writeHeader_of_not_written (h : ¬ InRanges (headerWrites o) x) :
    writeHeader m o idx term reqId cltId type x = m x := by
  have hlen : (List.replicate MAX_SERVER_COUNT (0 : UInt8)).length = 13 := rfl
  rw [inRanges_headerWrites] at h
  simp only [SENDER_OFF, REPLY_OFF, MAX_SERVER_COUNT] at h
  simp only [writeHeader, REPLY_OFF]
  rw [store_of_outside (by rw [hlen]; omega), setU8_of_outside (by omega),
    setU16_of_outside (by omega), setU64_of_outside (by omega), setU64_of_outside (by omega),
    setU64_of_outside (by omega)]

/-- An entry write only touches its ranges. -/
theorem writeEntry_of_not_written (hh : ¬ InRanges (headerWrites o) x)
    (hd : ¬ InRanges (dataWrites o type data) x) :
    writeEntry m o idx term reqId cltId type data x = m x := by
  have hheader : writeHeader m o idx term reqId cltId type x = m x :=
    writeHeader_of_not_written hh
  unfold dataWrites at hd
  unfold writeEntry
  by_cases hconfig : type = CONFIG
  · simp only [if_pos hconfig, inRanges_cons, not_or] at hd ⊢
    rw [writeCid_of_outside (by omega), hheader]
  by_cases hhead : type = HEAD
  · simp only [if_neg hconfig, if_pos hhead, inRanges_cons, not_or] at hd ⊢
    rw [setU64_of_outside (by omega), hheader]
  by_cases hnoop : type = NOOP
  · simp only [if_neg hconfig, if_neg hhead, if_pos hnoop]
    exact hheader
  · simp only [if_neg hconfig, if_neg hhead, if_neg hnoop, inRanges_append, lenWrites,
      inRanges_cons, not_or] at hd ⊢
    rw [store_of_outside (by omega), setU16_of_outside (by omega), hheader]

theorem entrySize_le_appendSize (type : UInt8) (data : EntryData) :
    ENTRY_SIZE ≤ appendSize type data := by
  unfold appendSize
  split <;> omega

/-- An entry is written within its size. -/
theorem le_of_written (h : InRanges (headerWrites o ++ dataWrites o type data) x) :
    o ≤ x ∧ x < o + appendSize type data := by
  have hhdr := entrySize_le_appendSize type data
  rw [inRanges_append, inRanges_headerWrites] at h
  simp only [SENDER_OFF, REPLY_OFF, MAX_SERVER_COUNT, ENTRY_SIZE] at h hhdr
  rcases h with h | h
  · omega
  · unfold dataWrites at h
    by_cases hconfig : type = CONFIG
    · rw [if_pos hconfig, inRanges_cons, or_iff_left (not_inRanges_nil x)] at h
      simp only [DATA_OFF, CID_SIZE] at h
      omega
    by_cases hhead : type = HEAD
    · rw [if_neg hconfig, if_pos hhead, inRanges_cons, or_iff_left (not_inRanges_nil x)] at h
      simp only [DATA_OFF] at h
      omega
    by_cases hnoop : type = NOOP
    · rw [if_neg hconfig, if_neg hhead, if_pos hnoop] at h
      exact absurd h (not_inRanges_nil x)
    · have hcsm : isCsm type = true := (isCsm_iff _).mpr ⟨hnoop, hconfig, hhead⟩
      rw [if_neg hconfig, if_neg hhead, if_neg hnoop, inRanges_append, lenWrites, inRanges_cons,
        inRanges_cons, or_iff_left (not_inRanges_nil x), or_iff_left (not_inRanges_nil x)] at h
      simp only [DATA_OFF, CMD_OFF] at h
      rw [appendSize, if_pos hcsm, ENTRY_SIZE]
      omega

/-- A header with a command length is written within the size of a header. -/
theorem le_of_written_header (h : InRanges (headerWrites o ++ lenWrites o) x) :
    o ≤ x ∧ x < o + ENTRY_SIZE := by
  rw [inRanges_append, inRanges_headerWrites, lenWrites, inRanges_cons,
    or_iff_left (not_inRanges_nil x)] at h
  simp only [SENDER_OFF, REPLY_OFF, MAX_SERVER_COUNT, DATA_OFF, ENTRY_SIZE] at h ⊢
  omega

end Writes

/-! ### The four ways an append ends -/

section Create

variable {log : DareLog} {idx term reqId : UInt64} {cltId : UInt16} {type : UInt8}
  {data : EntryData} {x : Nat}

/-- A header always fits where the entry is first created. -/
theorem createOffset_add_le (hlen : ENTRY_SIZE ≤ log.len) :
    createOffset log + ENTRY_SIZE ≤ log.len := by
  unfold createOffset logFitEntryHeader
  split
  · rename_i hfit
    have hle := of_decide_eq_true hfit
    simp only [ENTRY_SIZE] at hle ⊢
    omega
  · omega

/-- The memory after only a header with a command length was left at `o`. -/
def leaveHeader (m : Mem) (o : Nat) (idx term reqId : UInt64) (cltId : UInt16) (type : UInt8)
    (data : EntryData) : Mem :=
  setU16 (writeHeader m o idx term reqId cltId type) (o + DATA_OFF)
    (UInt16.ofNat data.cmd.cmd.length)

theorem leaveHeader_of_not_written {m : Mem} {o : Nat}
    (h : ¬ InRanges (headerWrites o ++ lenWrites o) x) :
    leaveHeader m o idx term reqId cltId type data x = m x := by
  rw [inRanges_append, lenWrites, inRanges_cons, not_or, not_or] at h
  obtain ⟨hh, hl, -⟩ := h
  simp only at hl
  unfold leaveHeader
  rw [setU16_of_outside (by omega), writeHeader_of_not_written hh]

/-- First exit: the end is at `head`. -/
theorem logCreateEntry_of_full (hfull : log.end_ = log.head) :
    logCreateEntry log idx term reqId cltId type data = (log, 0) := by
  unfold logCreateEntry logAddNewEntry
  rw [if_pos (by simpa [isLogFull] using hfull)]

/-- Second exit: the command does not fit, and `head` is at offset `0`. -/
theorem logCreateEntry_of_second_full (hfull : log.end_ ≠ log.head) (hhead : log.head = 0)
    (hlen : ENTRY_SIZE ≤ log.len)
    (hfit : log.len < createOffset log + appendSize type data) :
    logCreateEntry log idx term reqId cltId type data =
      ({ log with
          end_ := 0
          entries := leaveHeader log.entries (createOffset log) idx term reqId cltId type data },
        0) := by
  have hoff := createOffset_add_le hlen
  have hcsm : isCsm type = true := by
    by_contra hcon
    rw [appendSize, if_neg hcon] at hfit
    omega
  obtain ⟨hnoop, hconfig, hhd⟩ := (isCsm_iff _).mp hcsm
  have hnot : logFitEntry
      { log with
        end_ := createOffset log
        entries := leaveHeader log.entries (createOffset log) idx term reqId cltId type data }
      (createOffset log) (createOffset log) = false := by
    rw [logFitEntry, decide_eq_false_iff_not]
    show ¬ log.len - createOffset log ≥ logEntryLen (setU16 _ _ _) _
    rw [logEntryLen_writeHeader hcsm, mkEntry_size]
    omega
  unfold leaveHeader at hnot ⊢
  unfold logCreateEntry
  rw [logAddNewEntry_of_not_full hfull]
  simp only [rewindEnd_eq, if_neg hconfig, if_neg hhd, if_neg hnoop]
  rw [if_neg (by simp [hnot])]
  -- the end is at `head` again
  have hnone : logAddNewEntry
      { log with
        end_ := 0
        entries := setU16 (writeHeader log.entries (createOffset log) idx term reqId cltId type)
          (createOffset log + DATA_OFF) (UInt16.ofNat data.cmd.cmd.length) } = none := by
    unfold logAddNewEntry
    rw [if_pos (by simp [isLogFull, hhead])]
  rw [hnone]

/-- An append is rejected at one of the two exits, or creates the entry in one or two goes. -/
inductive Created (log : DareLog) (idx term reqId : UInt64) (cltId : UInt16) (type : UInt8)
    (data : EntryData) : DareLog × UInt64 → Prop
  | full : log.end_ = log.head → Created log idx term reqId cltId type data (log, 0)
  | fit : log.end_ ≠ log.head → createOffset log + appendSize type data ≤ log.len →
      Created log idx term reqId cltId type data
        ({ log with
            tail := createOffset log
            end_ := createOffset log + appendSize type data
            entries :=
              writeEntry log.entries (createOffset log) idx term reqId cltId type data }, idx)
  | wrap : log.end_ ≠ log.head → log.head ≠ 0 →
      log.len < createOffset log + appendSize type data →
      Created log idx term reqId cltId type data
        ({ log with
            tail := 0
            end_ := appendSize type data
            entries := writeEntry
              (leaveHeader log.entries (createOffset log) idx term reqId cltId type data)
              0 idx term reqId cltId type data }, idx)
  | secondFull : log.end_ ≠ log.head → log.head = 0 →
      log.len < createOffset log + appendSize type data →
      Created log idx term reqId cltId type data
        ({ log with
            end_ := 0
            entries := leaveHeader log.entries (createOffset log) idx term reqId cltId type data },
          0)

theorem logCreateEntry_cases (hlen : ENTRY_SIZE ≤ log.len) :
    Created log idx term reqId cltId type data
      (logCreateEntry log idx term reqId cltId type data) := by
  by_cases hfull : log.end_ = log.head
  · rw [logCreateEntry_of_full hfull]
    exact .full hfull
  have hwritten : ∀ (m : Mem) (o : Nat),
      logEntryLen (writeEntry m o idx term reqId cltId type data) o = appendSize type data := by
    intro m o
    rw [logEntryLen_writeEntry, mkEntry_size]
  rcases Nat.lt_or_ge log.len (createOffset log + appendSize type data) with hfit | hfit
  · by_cases hhead : log.head = 0
    · rw [logCreateEntry_of_second_full hfull hhead hlen hfit]
      exact .secondFull hfull hhead hfit
    · rw [logCreateEntry_of_not_fit hfull hhead (createOffset_add_le hlen)
        (by rw [mkEntry_size]; exact hfit), logFinishAppend]
      simp only [hwritten, Nat.zero_add]
      exact .wrap hfull hhead hfit
  · rw [logCreateEntry_of_fit hfull (by rw [mkEntry_size]; exact hfit), logFinishAppend]
    simp only [hwritten]
    exact .fit hfull hfit

/-- While `head` is not at offset `0`, the entry is created again there. -/
theorem logAddNewEntry_zero (hhead : log.head ≠ 0) :
    logAddNewEntry { log with end_ := 0 } = some 0 := by
  rw [logAddNewEntry_of_not_full (by exact hhead.symm), createOffset_of_end_eq_zero rfl]

/-- What is not in the ranges of an append is kept. -/
theorem Created.of_not_written {r : DareLog × UInt64}
    (h : Created log idx term reqId cltId type data r)
    (hx : ¬ InRanges (appendWrites log type data) x) : r.1.entries x = log.entries x := by
  unfold appendWrites at hx
  cases h with
  | full => rfl
  | fit hfull hfit =>
    rw [logAddNewEntry_of_not_full hfull] at hx
    simp only [if_pos hfit, inRanges_append, not_or] at hx
    exact writeEntry_of_not_written hx.1 hx.2
  | wrap hfull hhead hfit =>
    rw [logAddNewEntry_of_not_full hfull] at hx
    simp only [if_neg (Nat.not_le.mpr hfit), logAddNewEntry_zero hhead] at hx
    rw [inRanges_append, not_or] at hx
    obtain ⟨hleft, hentry⟩ := hx
    rw [inRanges_append, not_or] at hentry
    obtain ⟨hh, hd⟩ := hentry
    exact (writeEntry_of_not_written hh hd).trans (leaveHeader_of_not_written hleft)
  | secondFull hfull hhead hfit =>
    rw [logAddNewEntry_of_not_full hfull] at hx
    simp only [if_neg (Nat.not_le.mpr hfit)] at hx
    rw [inRanges_append, not_or] at hx
    exact leaveHeader_of_not_written hx.1

end Create

/-! ### The first part of an append -/

section CacheTail

variable {log log' : DareLog} {term reqId idx : UInt64} {cltId : UInt16} {type : UInt8}
  {data : EntryData}

/-- The walk over headers does not look at the flag of a double HEAD. -/
theorem headerWalk_flag (b : Bool) (fuel off : Nat) :
    headerWalk { log with prevLogEntryHead := b } fuel off = headerWalk log fuel off := by
  induction fuel generalizing off with
  | zero => rfl
  | succ fuel ih =>
    have hget : logGetEntry { log with prevLogEntryHead := b } off = logGetEntry log off := rfl
    unfold headerWalk
    rw [hget]
    cases logGetEntry log off with
    | none => rfl
    | some entry => simp only [ih]; rfl

/-- Nor does the search for the tail. -/
theorem logGetTail_flag (b : Bool) :
    logGetTail { log with prevLogEntryHead := b } = logGetTail log := by
  unfold logGetTail
  simp only [headerWalk_flag]
  rfl

/-- The tail an append works with: the cached one, or the one it searches for. -/
def TailUsed (log : DareLog) (t : Nat) : Prop :=
  if log.tail = log.len then logGetTail log = some t else t = log.tail

/-- An append that returns caches the tail, and creates the entry. -/
theorem logAppendEntry_some (h : logAppendEntry log term reqId cltId type data = some (log', idx)) :
    ∃ t, TailUsed log t ∧ logCreateEntry
      { log with
        prevLogEntryHead := if type ≠ HEAD then false else log.prevLogEntryHead, tail := t }
      (logNewIdx { log with tail := t }) term reqId cltId type data = (log', idx) := by
  have hflag : (if type ≠ HEAD then { log with prevLogEntryHead := false } else log) =
      { log with prevLogEntryHead := if type ≠ HEAD then false else log.prevLogEntryHead } := by
    split <;> rfl
  unfold logAppendEntry at h
  simp only [hflag, Option.bind_eq_bind] at h
  obtain ⟨log1, hcache, hcreate⟩ := Option.bind_eq_some_iff.mp h
  have hcreate := Option.some.inj hcreate
  unfold logCacheTail at hcache
  by_cases htail : log.tail = log.len
  · rw [if_pos htail, logGetTail_flag] at hcache
    obtain ⟨t, ht, rfl⟩ := Option.map_eq_some_iff.mp hcache
    exact ⟨t, by rw [TailUsed, if_pos htail]; exact ht, hcreate⟩
  · rw [if_neg htail] at hcache
    obtain rfl := Option.some.inj hcache
    exact ⟨log.tail, by rw [TailUsed, if_neg htail], hcreate⟩

/-- The four ways such an append ends. -/
theorem logAppendEntry_created (hlen : ENTRY_SIZE ≤ log.len)
    (h : logAppendEntry log term reqId cltId type data = some (log', idx)) :
    ∃ t, TailUsed log t ∧ Created
      { log with
        prevLogEntryHead := if type ≠ HEAD then false else log.prevLogEntryHead, tail := t }
      (logNewIdx { log with tail := t }) term reqId cltId type data (log', idx) := by
  obtain ⟨t, ht, hcreate⟩ := logAppendEntry_some h
  refine ⟨t, ht, ?_⟩
  rw [← hcreate]
  exact logCreateEntry_cases hlen

end CacheTail

/-! ### Live entries -/

/-- A log whose entries, between `head` at position `U` and the end at position `V`, are `es`; they
    may fill the whole buffer.  The index after the last one is not `0`, the value that means a
    full log. -/
structure LiveLog (log : DareLog) (U V : Nat) (es : List DareLogEntry) : Prop where
  len : log.len = LOG_SIZE
  endsAt : EndsAt log V
  head : IsOffset log.len U log.head
  window : V ≤ U + log.len
  chain : Chain entryFormat log.entries log.len U es
  stop : advance entryFormat log.len U es = V
  nextIdx : ∀ t, TailUsed log t → logNewIdx { log with tail := t } ≠ 0

/-- The byte ranges of the entries `es` behind position `U`. -/
def entryRanges (len : Nat) : Nat → List DareLogEntry → List ByteRange
  | _, [] => []
  | v, e :: es =>
    ⟨place len v e.size % len, e.size⟩ :: entryRanges len (place len v e.size + e.size) es

/-- The whole entry, with the bytes skipped in front of it, fits between the end and `head`. -/
def HasRoom (log : DareLog) (U V : Nat) (type : UInt8) (data : EntryData) : Prop :=
  place log.len V (appendSize type data) + appendSize type data ≤ U + log.len

/-- The append that returned `idx` wrote to no byte of an entry between `head` and the old end, and
    returned `0` if there was no room. -/
structure KeepsLive (log : DareLog) (U V : Nat) (es : List DareLogEntry) (type : UInt8)
    (data : EntryData) (idx : UInt64) : Prop where
  keeps : ∀ x, InRanges (appendWrites log type data) x → ¬ InRanges (entryRanges log.len U es) x
  rejects : ¬ HasRoom log U V type data → idx = 0

section Live

variable {log : DareLog} {U V v : Nat} {es : List DareLogEntry} {type : UInt8}
  {data : EntryData} {x : Nat}

/-- A byte of an entry is at a position between the first and the end. -/
theorem position_of_inRanges {m : Mem} {len : Nat} (hlen : 0 < len)
    (hc : Chain entryFormat m len v es) (h : InRanges (entryRanges len v es) x) :
    ∃ y, v ≤ y ∧ y < advance entryFormat len v es ∧ y % len = x := by
  induction es generalizing v with
  | nil => exact absurd h (not_inRanges_nil x)
  | cons e es ih =>
    have hplace : v ≤ place len v e.size := le_place hlen
    have hsize : e.size ≤ len := hc.1.size_le
    have hfits := place_mod_add_le (v := v) hsize
    have hrest : place len v e.size + e.size ≤ advance entryFormat len v (e :: es) :=
      le_advance hlen es
    rcases inRanges_cons.mp h with ⟨hlo, hhi⟩ | htl
    · simp only at hlo hhi
      refine ⟨place len v e.size + (x - place len v e.size % len), by omega, by omega, ?_⟩
      rw [add_mod_of_lt (by omega)]
      omega
    · obtain ⟨y, hlo, hhi, hy⟩ := ih hc.2 htl
      exact ⟨y, by simp only [entryFormat_size] at hlo; omega, hhi, hy⟩

/-- Bytes written at positions of the free part of the ring are none of a live entry. -/
theorem LiveLog.not_inRanges (h : LiveLog log U V es) {y : Nat} (hlo : V ≤ y)
    (hhi : y < U + log.len) : ¬ InRanges (entryRanges log.len U es) (y % log.len) := by
  intro hlive
  obtain ⟨z, hUz, hzV, hz⟩ := position_of_inRanges h.endsAt.len_pos h.chain hlive
  rw [h.stop] at hzV
  exact mod_ne_of_lt (by omega) (by omega) hz

/-- Where the whole entry fits, it is created at its place. -/
theorem createOffset_of_fit (hV : EndsAt log V)
    (hfit : createOffset log + appendSize type data ≤ log.len) :
    createOffset log = place log.len V (appendSize type data) % log.len := by
  have hsize := entrySize_le_appendSize type data
  rw [createOffset_eq hV, Lib.headerOffset, entryFormat_hdr] at hfit ⊢
  split at hfit
  · rw [if_pos ‹_›, place_of_fit hfit]
  · rw [if_neg ‹_›, place_mod_of_not_fit (by omega)]

/-- Where only the header fits, it is left at the end. -/
theorem createOffset_of_not_fit (hV : EndsAt log V) (hsize : appendSize type data ≤ log.len)
    (hfit : log.len < createOffset log + appendSize type data) :
    createOffset log = V % log.len ∧ V % log.len + ENTRY_SIZE ≤ log.len := by
  rw [createOffset_eq hV, Lib.headerOffset, entryFormat_hdr] at hfit ⊢
  split at hfit
  · exact ⟨if_pos ‹_›, ‹_›⟩
  · omega

/-- The bytes of a header left at the end are at the positions up to the next lap. -/
theorem position_of_header (hfit : V % log.len + ENTRY_SIZE ≤ log.len)
    (hx : InRanges (headerWrites (V % log.len) ++ lenWrites (V % log.len)) x) :
    ∃ y, V ≤ y ∧ y + V % log.len < V + log.len ∧ y % log.len = x := by
  obtain ⟨hlo, hhi⟩ := le_of_written_header hx
  refine ⟨V + (x - V % log.len), by omega, by omega, ?_⟩
  rw [add_mod_of_lt (by omega)]
  omega

/-- The bytes of an entry are at the positions behind its place. -/
theorem position_of_entry {p : Nat} (hfit : p % log.len + appendSize type data ≤ log.len)
    (hx : InRanges (headerWrites (p % log.len) ++ dataWrites (p % log.len) type data) x) :
    ∃ y, p ≤ y ∧ y < p + appendSize type data ∧ y % log.len = x := by
  obtain ⟨hlo, hhi⟩ := le_of_written hx
  refine ⟨p + (x - p % log.len), by omega, by omega, ?_⟩
  rw [add_mod_of_lt (by omega)]
  omega

theorem createOffset_of_header (h : logFitEntryHeader log log.end_ = true) :
    createOffset log = log.end_ := if_pos h

theorem appendWrites_of_full (h : log.end_ = log.head) : appendWrites log type data = [] := by
  have hnone : logAddNewEntry log = none := if_pos (by simpa [isLogFull] using h)
  unfold appendWrites
  rw [hnone]

/-- With room for the entry, an append writes to the free part of the ring only. -/
theorem LiveLog.position_of_room (h : LiveLog log U V es) (hroom : HasRoom log U V type data)
    (hx : InRanges (appendWrites log type data) x) :
    ∃ y, V ≤ y ∧ y < U + log.len ∧ y % log.len = x := by
  have hlen := h.endsAt.len_pos
  have hsize : appendSize type data ≤ log.len := by rw [h.len]; exact (appendSize_lt type data).le
  have hplace : V ≤ place log.len V (appendSize type data) := le_place hlen
  have hfits := place_mod_add_le (v := V) hsize
  unfold HasRoom at hroom
  by_cases hfull : log.end_ = log.head
  · rw [appendWrites_of_full hfull] at hx
    exact absurd hx (not_inRanges_nil x)
  unfold appendWrites at hx
  rw [logAddNewEntry_of_not_full hfull] at hx
  rcases Nat.lt_or_ge log.len (createOffset log + appendSize type data) with hfit | hfit
  · -- only the header fits, and the entry is created again at 0
    obtain ⟨hat, hheader⟩ := createOffset_of_not_fit h.endsAt hsize hfit
    rw [hat] at hfit
    have hskip := place_of_not_fit_add hfit
    simp only [hat, if_neg (Nat.not_le.mpr hfit)] at hx
    rw [inRanges_append] at hx
    rcases hx with hx | hx
    · obtain ⟨y, hlo, hhi, hy⟩ := position_of_header hheader hx
      exact ⟨y, hlo, by omega, hy⟩
    · -- the second full test
      by_cases hhead : log.head = 0
      · have hnone : logAddNewEntry { log with end_ := 0 } = none :=
          if_pos (by simp [isLogFull, hhead])
        rw [hnone] at hx
        exact absurd hx (not_inRanges_nil x)
      · rw [logAddNewEntry_zero hhead] at hx
        have hzero := place_mod_of_not_fit hfit
        rw [← hzero] at hx
        obtain ⟨y, hlo, hhi, hy⟩ := position_of_entry hfits hx
        exact ⟨y, by omega, by omega, hy⟩
  · -- the entry fits
    simp only [if_pos hfit] at hx
    rw [createOffset_of_fit h.endsAt hfit] at hx
    obtain ⟨y, hlo, hhi, hy⟩ := position_of_entry hfits hx
    exact ⟨y, by omega, by omega, hy⟩

/-- The second exit is only reached with bytes left behind the last entry. -/
theorem LiveLog.position_of_second_full (h : LiveLog log U V es) (hfull : log.end_ ≠ log.head)
    (hhead : log.head = 0) (hfit : log.len < createOffset log + appendSize type data)
    (hx : InRanges (appendWrites log type data) x) :
    ∃ y, V ≤ y ∧ y < U + log.len ∧ y % log.len = x := by
  have hlen := h.endsAt.len_pos
  have hsize : appendSize type data ≤ log.len := by rw [h.len]; exact (appendSize_lt type data).le
  obtain ⟨hat, hheader⟩ := createOffset_of_not_fit h.endsAt hsize hfit
  have hnone : logAddNewEntry { log with end_ := 0 } = none :=
    if_pos (by simp [isLogFull, hhead])
  unfold appendWrites at hx
  rw [logAddNewEntry_of_not_full hfull] at hx
  simp only [if_neg (Nat.not_le.mpr hfit)] at hx
  rw [hat, hnone, List.append_nil] at hx
  obtain ⟨y, hlo, hhi, hy⟩ := position_of_header hheader hx
  refine ⟨y, hlo, ?_, hy⟩
  -- `head` is at the start of the lap in which the log ends
  have hU : U % log.len = 0 := by
    rw [← h.head.2, hhead, Nat.zero_mod]
  have hle : U ≤ V := by
    rw [← h.stop]
    exact le_advance hlen es
  have hwindow := h.window
  obtain ⟨d, rfl⟩ := Nat.exists_eq_add_of_le hle
  have hd : d < log.len := by
    by_contra hcon
    have heq : d = log.len := by omega
    rw [hat, heq, Nat.add_mod_right, hU] at hfit
    omega
  have hmod := add_mod_eq_ite U hd
  rw [hU, Nat.zero_add, if_pos hd] at hmod
  omega

end Live

/-! ### A rejected append -/

/-- The entries a reader walk from `off` visits, with their offsets. -/
def walkEntries (log : DareLog) (off : Nat) : Option (List (Nat × DareLogEntry)) :=
  (readerWalk log (walkFuel log) off).map fun r => r.1.map fun o => (o, readEntry log.entries o)

/-- Nothing changed for the owner of the log and for its readers. -/
structure SameLog (log log' : DareLog) : Prop where
  head : log'.head = log.head
  apply : log'.apply = log.apply
  commit : log'.commit = log.commit
  end_ : log'.end_ = log.end_
  tail : log'.tail = log.tail
  flag : log'.prevLogEntryHead = log.prevLogEntryHead
  fromHead : walkEntries log' log.head = walkEntries log log.head
  fromApply : walkEntries log' log.apply = walkEntries log log.apply
  fromCommit : walkEntries log' log.commit = walkEntries log log.commit

section Rejected

variable {log log' : DareLog} {off : Nat}

/-- The walk of a reader does not look at the tail and at the flag of a double HEAD. -/
theorem readerWalk_tail_flag (b : Bool) (t fuel off : Nat) :
    readerWalk { log with prevLogEntryHead := b, tail := t } fuel off =
      readerWalk log fuel off := by
  induction fuel generalizing off with
  | zero => rfl
  | succ fuel ih =>
    have hget : logGetEntry { log with prevLogEntryHead := b, tail := t } off =
      logGetEntry log off := rfl
    unfold readerWalk
    rw [hget]
    cases logGetEntry log off with
    | none => rfl
    | some entry => simp only [ih]; rfl

theorem walkEntries_tail_flag (b : Bool) (t off : Nat) :
    walkEntries { log with prevLogEntryHead := b, tail := t } off = walkEntries log off := by
  unfold walkEntries
  rw [show walkFuel { log with prevLogEntryHead := b, tail := t } = walkFuel log from rfl,
    readerWalk_tail_flag]

/-- A walk over headers finds nothing exactly if there is no entry at its start. -/
theorem headerWalk_getLast?_eq_none {fuel : Nat} {r : List Nat × Nat}
    (h : headerWalk log (fuel + 1) off = some r) :
    r.1.getLast? = none ↔ logGetEntry log off = none := by
  unfold headerWalk at h
  cases hget : logGetEntry log off with
  | none =>
    rw [hget] at h
    obtain rfl := Option.some.inj h
    exact ⟨fun _ => rfl, fun _ => rfl⟩
  | some entry =>
    rw [hget] at h
    obtain ⟨q, -, rfl⟩ := Option.map_eq_some_iff.mp h
    simp

/-- No entry is at the buffer end. -/
theorem logGetEntry_ne_len {entry : Nat} (hlen : ENTRY_SIZE ≤ log.len)
    (h : logGetEntry log off = some entry) : entry ≠ log.len := by
  unfold logGetEntry at h
  simp only [ENTRY_SIZE] at hlen
  split at h
  · cases h
  split at h
  · cases h
  split at h
  · obtain rfl := Option.some.inj h
    omega
  · rename_i hfit
    obtain rfl := Option.some.inj h
    have hle : log.len - off ≥ ENTRY_SIZE := by simpa [logFitEntryHeader] using hfit
    simp only [ENTRY_SIZE] at hle
    omega

/-- A header that a walk visits is not at the buffer end. -/
theorem headerWalk_mem_ne_len (hlen : ENTRY_SIZE ≤ log.len) {fuel : Nat} {r : List Nat × Nat}
    (h : headerWalk log fuel off = some r) : ∀ o ∈ r.1, o ≠ log.len := by
  induction fuel generalizing off r with
  | zero => cases h
  | succ fuel ih =>
    unfold headerWalk at h
    cases hget : logGetEntry log off with
    | none =>
      rw [hget] at h
      obtain rfl := Option.some.inj h
      intro o ho
      cases ho
    | some entry =>
      rw [hget] at h
      obtain ⟨q, hq, rfl⟩ := Option.map_eq_some_iff.mp h
      intro o ho
      rcases List.mem_cons.mp ho with rfl | hmem
      · exact logGetEntry_ne_len hlen hget
      · exact ih hq o hmem

/-- Where the offset is at the end, there is no entry. -/
theorem logGetEntry_eq_none_iff :
    logGetEntry log off = none ↔ log.end_ = log.len ∨ logOffsetEndDistance log off = 0 := by
  unfold logGetEntry
  by_cases hempty : log.end_ = log.len
  · simp [isLogEmpty, hempty]
  · by_cases hdist : logOffsetEndDistance log off = 0
    · simp [isLogEmpty, hempty, hdist]
    · simp only [isLogEmpty, beq_eq_false_iff_ne.mpr hempty, Bool.false_eq_true, if_false,
        hempty, hdist, or_self, iff_false]
      split <;> exact Option.some_ne_none _

/-- The search for the tail of a full log finds none exactly if everything is committed and
    applied. -/
theorem logGetTail_of_full {t : Nat} (hlen : ENTRY_SIZE ≤ log.len) (htail : log.tail = log.len)
    (hfull : log.end_ = log.head) (ht : logGetTail log = some t) :
    t = log.len ↔ log.end_ = log.len ∨
      (logOffsetEndDistance log log.commit = 0 ∧ logOffsetEndDistance log log.apply = 0) := by
  unfold logGetTail at ht
  rw [if_neg (not_not.mpr htail)] at ht
  by_cases hempty : log.end_ = log.len
  · rw [if_pos (by simp [isLogEmpty, hempty])] at ht
    exact ⟨fun _ => .inl hempty, fun _ => (Option.some.inj ht).symm⟩
  rw [if_neg (by simp [isLogEmpty, hempty])] at ht
  simp only [Option.bind_eq_bind] at ht
  obtain ⟨rc, hc, ht⟩ := Option.bind_eq_some_iff.mp ht
  have hcnone := headerWalk_getLast?_eq_none hc
  rw [logGetEntry_eq_none_iff, or_iff_right hempty] at hcnone
  cases hclast : rc.1.getLast? with
  | some tail =>
    have hcpos : logOffsetEndDistance log log.commit ≠ 0 := by
      rw [Ne, ← hcnone, hclast]
      exact Option.some_ne_none tail
    rw [hclast] at ht
    obtain rfl : tail = t := by simpa using ht
    have hne := headerWalk_mem_ne_len hlen hc tail (List.mem_of_getLast? hclast)
    tauto
  | none =>
    rw [hclast] at ht
    obtain ⟨ra, ha, ht⟩ := Option.bind_eq_some_iff.mp ht
    have hanone := headerWalk_getLast?_eq_none ha
    rw [logGetEntry_eq_none_iff, or_iff_right hempty] at hanone
    cases halast : ra.1.getLast? with
    | some tail =>
      have hapos : logOffsetEndDistance log log.apply ≠ 0 := by
        rw [Ne, ← hanone, halast]
        exact Option.some_ne_none tail
      rw [halast] at ht
      obtain rfl : tail = t := by simpa using ht
      have hne := headerWalk_mem_ne_len hlen ha tail (List.mem_of_getLast? halast)
      tauto
    | none =>
      rw [halast] at ht
      obtain ⟨rh, hh, ht⟩ := Option.bind_eq_some_iff.mp ht
      -- the walk from `head` starts at the end
      have hhlast : rh.1.getLast? = none := by
        rw [headerWalk_getLast?_eq_none hh, logGetEntry_eq_none_iff]
        right
        rw [← hfull, logOffsetEndDistance_of_le hempty (le_refl _), Nat.sub_self]
      rw [hhlast] at ht
      obtain rfl : log.len = t := by simpa using ht
      exact ⟨fun _ => .inr ⟨hcnone.mp hclast, hanone.mp halast⟩, fun _ => rfl⟩

/-- An entry takes little more than `2 ^ 16` bytes. -/
theorem appendSize_le (type : UInt8) (data : EntryData) : appendSize type data ≤ 65599 := by
  have hcmd := data.cmd.len_lt
  simp only [appendSize, ENTRY_SIZE]
  split <;> omega

/-- An append that is not stopped by the first test moves the end. -/
theorem Created.end_ne {idx term reqId : UInt64} {cltId : UInt16} {type : UInt8}
    {data : EntryData} {r : DareLog × UInt64}
    (h : Created log idx term reqId cltId type data r) (hlog : log.len = LOG_SIZE) (hne : log.end_ ≠ log.head) :
    r.1.end_ ≠ log.end_ := by
  have hsize := appendSize_le type data
  have hpos := appendSize_pos type data
  have hbig : LOG_SIZE = 67108864 := by decide
  have hoff : createOffset log = log.end_ ∨ (createOffset log = 0 ∧ log.len < log.end_ + 64) := by
    unfold createOffset
    split
    · exact .inl rfl
    · rename_i hnot
      have hle : ¬ log.len - log.end_ ≥ ENTRY_SIZE := by simpa [logFitEntryHeader] using hnot
      simp only [ENTRY_SIZE] at hle
      omega
  cases h with
  | full hfull => exact absurd hfull hne
  | fit _ hfit =>
    show createOffset log + appendSize type data ≠ log.end_
    omega
  | wrap _ _ hfit =>
    show appendSize type data ≠ log.end_
    omega
  | secondFull _ _ hfit =>
    show 0 ≠ log.end_
    omega

/-- The first test rejects every append to a full log. -/
theorem Created.of_full {idx term reqId : UInt64} {cltId : UInt16} {type : UInt8}
    {data : EntryData} {r : DareLog × UInt64} (h : Created log idx term reqId cltId type data r)
    (hfull : log.end_ = log.head) : r = (log, 0) := by
  cases h with
  | full => rfl
  | fit hne => exact absurd hfull hne
  | wrap hne => exact absurd hfull hne
  | secondFull hne => exact absurd hfull hne

/-- One of the two exits is taken. -/
def appendRejected (log : DareLog) (type : UInt8) (data : EntryData) : Bool :=
  log.end_ == log.head || (log.head == 0 && logFitEntryHeader log log.end_ &&
    decide (log.len < log.end_ + appendSize type data))

/-- An append that is not rejected leaves its entry at the tail. -/
theorem Created.readEntry_tail {idx term reqId : UInt64} {cltId : UInt16} {type : UInt8}
    {data : EntryData} {r : DareLog × UInt64} (h : Created log idx term reqId cltId type data r)
    (hlog : log.len = LOG_SIZE) (hrej : appendRejected log type data = false) :
    readEntry r.1.entries r.1.tail = mkEntry idx term reqId cltId type data ∧ r.2 = idx := by
  have hsize := appendSize_lt type data
  simp only [appendRejected, Bool.or_eq_false_iff, beq_eq_false_iff_ne] at hrej
  obtain ⟨hne, hsecond⟩ := hrej
  cases h with
  | full hfull => exact absurd hfull hne
  | fit => exact ⟨readEntry_writeEntry _ _ _ _ _ _ _ _, rfl⟩
  | wrap => exact ⟨readEntry_writeEntry _ _ _ _ _ _ _ _, rfl⟩
  | secondFull _ hhead hfit =>
    exfalso
    by_cases hheader : logFitEntryHeader log log.end_ = true
    · rw [createOffset_of_header hheader] at hfit
      simp [hhead, hheader, hfit] at hsecond
    · have hzero : createOffset log = 0 := if_neg hheader
      omega

/-- An append does not change the size of the log. -/
theorem Created.len {idx term reqId : UInt64} {cltId : UInt16} {type : UInt8} {data : EntryData}
    {r : DareLog × UInt64} (h : Created log idx term reqId cltId type data r) :
    r.1.len = log.len := by
  cases h <;> rfl

/-- Nor its commit offset. -/
theorem Created.commit {idx term reqId : UInt64} {cltId : UInt16} {type : UInt8} {data : EntryData}
    {r : DareLog × UInt64} (h : Created log idx term reqId cltId type data r) :
    r.1.commit = log.commit := by
  cases h <;> rfl

/-- The entry of an append that is not rejected can be read at the tail. -/
theorem logAppendEntry_readEntry {term reqId idx : UInt64} {cltId : UInt16} {type : UInt8}
    {data : EntryData} (hlog : log.len = LOG_SIZE)
    (h : logAppendEntry log term reqId cltId type data = some (log', idx)) :
    log'.len = LOG_SIZE ∧ (appendRejected log type data = false →
      readEntry log'.entries log'.tail = mkEntry idx term reqId cltId type data) := by
  obtain ⟨t, -, hcreated⟩ := logAppendEntry_created (by rw [hlog]; decide) h
  refine ⟨hcreated.len.trans hlog, fun hrej => ?_⟩
  obtain ⟨hread, hidx⟩ := hcreated.readEntry_tail hlog hrej
  rw [hread, ← hidx]

end Rejected

/-! ### Reachable full logs -/

section Reachable

variable {s : FifoState}

/-- A log that was appended to is a log with live entries. -/
theorem Filled.liveLog {V v : Nat} (h : Filled s V v) (hidx : s.fifo.nextIdx ≠ 0) :
    LiveLog s.log v V s.fifo.entries := by
  refine ⟨h.len, h.endsAt, h.head.offset, h.head.window.le, h.head.chain, h.head.stop, ?_⟩
  intro t ht
  obtain ⟨P, last, htail, hknown, hnext⟩ := h.tail
  rw [TailUsed, if_neg hknown] at ht
  subst ht
  have heq : logNewIdx s.log = last.idx + 1 := logNewIdx_eq h.endsAt h.end_ne_len htail
  show logNewIdx s.log ≠ 0
  rw [heq, ← hnext]
  exact hidx

/-- An append to a log whose tail is cached returns. -/
theorem Filled.append_some {V v : Nat} (h : Filled s V v) (term reqId : UInt64) (cltId : UInt16)
    (type : UInt8) (data : EntryData) :
    ∃ log' idx, logAppendEntry s.log term reqId cltId type data = some (log', idx) := by
  obtain ⟨P, last, -, hknown, -⟩ := h.tail
  exact ⟨_, _, logAppendEntry_eq (.inl hknown)⟩

theorem Appended64K.filled {n : Nat} (h : Appended64K s n) : ∃ V v, Filled s V v := by
  refine (reach_fifoInv h.reach).resolve_left fun hfresh => ?_
  have hlength := h.length
  rw [hfresh.fifo] at hlength
  cases hlength

/-- A command whose entry takes one byte less than those of `cmd64K`. -/
def cmdShort : EntryData where
  cmd := ⟨List.replicate 65471 0, by rw [List.length_replicate]; decide⟩

/-- A command whose entry takes one byte more. -/
def cmdLong : EntryData where
  cmd := ⟨List.replicate 65473 0, by rw [List.length_replicate]; decide⟩

theorem appendSize_cmdShort : appendSize CSM cmdShort = 65535 := by
  have hlen : cmdShort.cmd.cmd.length = 65471 := List.length_replicate
  have hcsm : isCsm CSM = true := by decide
  rw [appendSize, hcsm, if_pos rfl, hlen, ENTRY_SIZE]

theorem appendSize_cmdLong : appendSize CSM cmdLong = 65537 := by
  have hlen : cmdLong.cmd.cmd.length = 65473 := List.length_replicate
  have hcsm : isCsm CSM = true := by decide
  rw [appendSize, hcsm, if_pos rfl, hlen, ENTRY_SIZE]

/-- With only the last `2 ^ 16` bytes left, a longer entry is rejected at the second exit. -/
theorem Appended64K.rejected (h : Appended64K s 1022) :
    ∃ log', logAppendEntry s.log 1 0 0 CSM cmdLong = some (log', 0) ∧ log'.end_ = 0 ∧
      log'.head = 0 ∧ log'.len = LOG_SIZE := by
  obtain ⟨V, v, hfilled⟩ := h.filled
  obtain ⟨P, last, -, hknown, -⟩ := hfilled.tail
  have hlen := hfilled.len
  have hend := h.end_
  have hhead := h.head
  have hlog := logSize_eq
  have hfits : logFitEntryHeader s.log s.log.end_ = true := by
    rw [logFitEntryHeader_iff _ _ (by omega), ENTRY_SIZE]
    omega
  have hcreate := createOffset_of_header hfits
  have hne : s.log.end_ ≠ s.log.head := by omega
  -- the header fits, the command does not
  have hfit : s.log.len < createOffset s.log + appendSize CSM cmdLong := by
    rw [appendSize_cmdLong]
    omega
  have hsecond : logCreateEntry { s.log with prevLogEntryHead := false } (logNewIdx s.log) 1 0 0 CSM
      cmdLong = (_, 0) :=
    logCreateEntry_of_second_full hne hhead hfilled.endsAt.entrySize_le_len hfit
  exact ⟨_, (logAppendEntry_eq (.inl hknown)).trans (congrArg some hsecond), rfl, hhead, hlen⟩

/-- The log can be filled up to its last byte. -/
theorem exists_end_before_last : ∃ s V v e es, Filled s V v ∧ s.fifo.nextIdx ≠ 0 ∧
    s.fifo.entries = e :: es ∧ s.log.head = 0 ∧ s.log.end_ + 1 = LOG_SIZE := by
  obtain ⟨s, hs, hidx⟩ := exists_counted64K 1022 (by decide)
  have hlog := logSize_eq
  have hcmd := appendSize_cmdShort
  -- 1022 entries of 64K bytes, then one that ends one byte before the buffer end
  obtain ⟨V, v, happ⟩ := (reach_fifoInv hs.reach).appendable
  have hlen := happ.len
  have hend : endAfterAppend s.log CSM cmdShort = 1023 * 65536 + 65535 := by
    rw [endAfterAppend, hcmd, hlen, hs.end_, if_neg (by omega)]
  have hroom : AppendRoom s.log CSM cmdShort := by
    rw [AppendRoom, appendSkip, hcmd, hlen, hs.end_, hs.head, if_neg (by omega), Nat.sub_zero,
      Nat.add_mod_right, Nat.mod_eq_of_lt (by omega)]
    omega
  have hok : fifoOk s (.append 1 0 0 CSM cmdShort) :=
    ⟨by rw [hend]; omega, by rw [hs.end_, hs.head]; omega⟩
  obtain ⟨log', -, hinv, hend', hhead⟩ := (reach_fifoInv hs.reach).append hroom hok
  obtain ⟨e, es, hes⟩ := List.exists_cons_of_length_eq_add_one hs.length
  have hentries : (s.fifo.push 1 0 0 CSM cmdShort).entries =
      e :: (es ++ [mkEntry s.fifo.nextIdx 1 0 0 CSM cmdShort]) := by
    rw [Fifo.push, hes, List.cons_append]
  obtain ⟨V', v', hfilled⟩ : ∃ V v, Filled ⟨log', s.fifo.push 1 0 0 CSM cmdShort⟩ V v := by
    refine hinv.resolve_left fun hfresh => ?_
    have hnil := hentries.symm.trans (congrArg Fifo.entries hfresh.fifo)
    cases hnil
  refine ⟨_, V', v', e, _, hfilled, ?_, hentries, hhead.trans hs.head, ?_⟩
  · show s.fifo.nextIdx + 1 ≠ 0
    rw [hidx]
    decide
  · show log'.end_ + 1 = LOG_SIZE
    rw [hend', hend]
    omega

end Reachable

/-! ### Live entries are kept -/

/-- **An append keeps the live entries**, and is rejected when there is no room, exactly if the
    full test sees the full log, or there is room, or the second exit is taken with `head` at
    offset `0`. -/
theorem append_keeps_live_iff {log log' : DareLog} {U V : Nat} {es : List DareLogEntry}
    {term reqId idx : UInt64} {cltId : UInt16} {type : UInt8} {data : EntryData}
    (hlive : LiveLog log U V es)
    (h : logAppendEntry log term reqId cltId type data = some (log', idx)) :
    (∀ x, ¬ InRanges (appendWrites log type data) x → log'.entries x = log.entries x) ∧
      (KeepsLive log U V es type data idx ↔
        log.end_ = log.head ∨ HasRoom log U V type data ∨
          (log.head = 0 ∧ logFitEntryHeader log log.end_ = true ∧
            log.len < log.end_ + appendSize type data)) := by
  have hlen := hlive.endsAt.entrySize_le_len
  obtain ⟨t, ht, hcreated⟩ := logAppendEntry_created hlen h
  have hidx := hlive.nextIdx t ht
  have hsize : appendSize type data ≤ log.len := by
    rw [hlive.len]
    exact (appendSize_lt type data).le
  refine ⟨fun x hx => hcreated.of_not_written hx, fun hkeeps => ?_, fun hcond => ?_⟩
  · -- without room only the two exits return `0`
    by_contra hcon
    rw [not_or, not_or] at hcon
    obtain ⟨hfull, hroom, hsecond⟩ := hcon
    have hzero := hkeeps.rejects hroom
    cases hcreated with
    | full hend => exact hfull hend
    | fit => exact hidx hzero
    | wrap => exact hidx hzero
    | secondFull _ hhead hfit =>
      have hnot : ¬ logFitEntryHeader log log.end_ = true := by
        intro hheader
        rw [createOffset_of_header (by exact hheader)] at hfit
        exact hsecond ⟨hhead, hheader, hfit⟩
      have hzero : createOffset log = 0 := if_neg hnot
      have hfit' : log.len < createOffset log + appendSize type data := hfit
      omega
  · have hpos : ∀ x, InRanges (appendWrites log type data) x →
        ∃ y, V ≤ y ∧ y < U + log.len ∧ y % log.len = x := by
      intro x hx
      by_cases hfull : log.end_ = log.head
      · rw [appendWrites_of_full hfull] at hx
        exact absurd hx (not_inRanges_nil x)
      rcases hcond with hend | hroom | ⟨hhead, hheader, hfit⟩
      · exact absurd hend hfull
      · exact hlive.position_of_room hroom hx
      · rw [← createOffset_of_header hheader] at hfit
        exact hlive.position_of_second_full hfull hhead hfit hx
    refine ⟨fun x hx => ?_, fun hroom => ?_⟩
    · obtain ⟨y, hlo, hhi, rfl⟩ := hpos x hx
      exact hlive.not_inRanges hlo hhi
    · cases hcreated with
      | full => rfl
      | fit hfull hfit =>
        rcases hcond with hend | hr | ⟨-, hheader, hnot⟩
        · exact absurd hend hfull
        · exact absurd hr hroom
        · rw [createOffset_of_header (by exact hheader)] at hfit
          exact absurd hfit (Nat.not_le.mpr hnot)
      | wrap hfull hhead =>
        rcases hcond with hend | hr | ⟨hzero, -, -⟩
        · exact absurd hend hfull
        · exact absurd hr hroom
        · exact absurd hzero hhead
      | secondFull => rfl

/-- An append to a log with two entries keeps both. -/
theorem append_keeps_live_iff_two : ∃ (s : FifoState) (V v : Nat) (log' : DareLog) (idx : UInt64),
    s.fifo.entries.length = 2 ∧
    logAppendEntry s.log 1 0 0 NOOP default = some (log', idx) ∧
    KeepsLive s.log v V s.fifo.entries NOOP default idx := by
  obtain ⟨s, hs, hidx⟩ := exists_counted64K 1 (by decide)
  obtain ⟨V, v, hfilled⟩ := hs.filled
  have hlive := hfilled.liveLog (by rw [hidx]; decide)
  obtain ⟨log', idx, heq⟩ := hfilled.append_some 1 0 0 NOOP default
  have hlen := hfilled.len
  have hlog := logSize_eq
  have hsize : appendSize NOOP default = 64 := rfl
  have hroom : AppendRoom s.log NOOP default := by
    rw [AppendRoom, appendSkip, hsize, hlen, hs.end_, hs.head, if_neg (by omega), Nat.sub_zero,
      Nat.add_mod_right, Nat.mod_eq_of_lt (by omega)]
    omega
  have hplace := hroom.place_lt hfilled.endsAt hfilled.head.offset
    (hfilled.head.le_end hfilled.endsAt) hfilled.head.window
  exact ⟨s, V, v, log', idx, hs.length, heq,
    (append_keeps_live_iff hlive heq).2.mpr (.inr (.inl hplace.le))⟩

/-- Fill the log up to its last byte and append once more: the header does not fit, and the new
    entry is written over the first one. -/
theorem not_append_keeps_live : ¬ ∀ log log' U V es term reqId idx cltId type data,
    LiveLog log U V es → logAppendEntry log term reqId cltId type data = some (log', idx) →
    KeepsLive log U V es type data idx := by
  intro hall
  obtain ⟨s, V, v, e, es, hfilled, hidx, hentries, hhead, hend⟩ := exists_end_before_last
  obtain ⟨log', idx, heq⟩ := hfilled.append_some 1 0 0 NOOP default
  have hkeeps := (hall _ _ _ _ _ _ _ _ _ _ _ (hfilled.liveLog hidx) heq).keeps 0
  have hlen := hfilled.len
  have hbig : LOG_SIZE = 67108864 := by decide
  refine hkeeps ?_ ?_
  · -- the header is created at offset `0`
    have hnot : ¬ logFitEntryHeader s.log s.log.end_ = true := by
      rw [logFitEntryHeader_iff _ _ (by omega), ENTRY_SIZE]
      omega
    have hzero : createOffset s.log = 0 := if_neg hnot
    have hsize : appendSize NOOP default = 64 := rfl
    unfold appendWrites
    rw [logAddNewEntry_of_not_full (by omega), hzero]
    simp only [hsize, Nat.zero_add, if_pos (show 64 ≤ s.log.len by omega)]
    rw [inRanges_append, inRanges_headerWrites]
    exact .inl (.inl (by decide))
  · -- where the first entry is
    have hcur := hfilled.head
    rw [hentries] at hcur ⊢
    have hsize : e.size ≤ s.log.len := hcur.chain.1.size_le
    have hpos := e.entrySize_le_size
    simp only [ENTRY_SIZE] at hpos
    have hmod : v % s.log.len = 0 := by
      rw [← hcur.offset.2, hhead, Nat.zero_mod]
    have hplace : place s.log.len v e.size % s.log.len = 0 := by
      rw [place_of_fit (by omega), hmod]
    refine inRanges_cons.mpr (.inl ⟨?_, ?_⟩)
    · exact hplace.le
    · show 0 < place s.log.len v e.size % s.log.len + e.size
      omega

/-! ### Rejected appends -/

/-- **A rejected append leaves the log as it was** exactly if the first full test rejects it, it is
    a `HEAD` or the last entry was not, and no tail is found that was not cached. -/
theorem rejected_append_same_iff {log log' : DareLog} {term reqId : UInt64} {cltId : UInt16}
    {type : UInt8} {data : EntryData} (hlog : log.len = LOG_SIZE)
    (h : logAppendEntry log term reqId cltId type data = some (log', 0)) :
    SameLog log log' ↔
      log.end_ = log.head ∧ (type = HEAD ∨ log.prevLogEntryHead = false) ∧
        (log.tail ≠ log.len ∨ log.end_ = log.len ∨
          (logOffsetEndDistance log log.commit = 0 ∧ logOffsetEndDistance log log.apply = 0)) := by
  have hlen : ENTRY_SIZE ≤ log.len := by rw [hlog]; decide
  obtain ⟨t, ht, hcreated⟩ := logAppendEntry_created hlen h
  constructor
  · intro hsame
    -- an append that is not rejected at once moves `end`
    have hfull : log.end_ = log.head := by
      by_contra hne
      exact hcreated.end_ne hlog hne hsame.end_
    obtain rfl : log' = _ := congrArg Prod.fst (hcreated.of_full hfull)
    refine ⟨hfull, ?_, ?_⟩
    · by_cases htype : type = HEAD
      · exact .inl htype
      · have hflag := hsame.flag
        simp only [ne_eq, htype, not_false_eq_true, if_true] at hflag
        exact .inr hflag.symm
    · by_cases hknown : log.tail = log.len
      · -- the tail that was found is that of the log before
        have htail : t = log.tail := hsame.tail
        rw [TailUsed, if_pos hknown] at ht
        exact .inr ((logGetTail_of_full hlen hknown hfull ht).mp (htail.trans hknown))
      · exact .inl hknown
  · rintro ⟨hfull, hflag, hfound⟩
    obtain rfl : log' = _ := congrArg Prod.fst (hcreated.of_full hfull)
    have htail : t = log.tail := by
      by_cases hknown : log.tail = log.len
      · rw [TailUsed, if_pos hknown] at ht
        rw [hknown, logGetTail_of_full hlen hknown hfull ht]
        exact hfound.resolve_left (not_not.mpr hknown)
      · rwa [TailUsed, if_neg hknown] at ht
    refine ⟨rfl, rfl, rfl, rfl, htail, ?_, walkEntries_tail_flag _ _ _,
      walkEntries_tail_flag _ _ _, walkEntries_tail_flag _ _ _⟩
    show (if type ≠ HEAD then false else log.prevLogEntryHead) = log.prevLogEntryHead
    rcases hflag with rfl | hfalse
    · exact if_neg (not_not.mpr rfl)
    · rw [hfalse, ite_self]

/-- A full log whose tail is known is left as it was. -/
theorem rejected_append_same_iff_full :
    ∃ log', logAppendEntry { logOf 64 64 64 zeroMem with tail := 0 } 1 0 0 CSM default =
      some (log', 0) ∧ SameLog { logOf 64 64 64 zeroMem with tail := 0 } log' := by
  have heq : logAppendEntry { logOf 64 64 64 zeroMem with tail := 0 } 1 0 0 CSM default =
    some (_, 0) := logAppendEntry_of_full (.inl (by decide)) rfl
  exact ⟨_, heq, (rejected_append_same_iff rfl heq).mpr ⟨rfl, .inr rfl, .inl (by decide)⟩⟩

/-- Fill the log but for its last `2 ^ 16` bytes and append a longer entry: the end is set to `0`,
    where `head` is, and the log is lost. -/
theorem not_rejected_append_same : ¬ ∀ log log' U V es term reqId cltId type data,
    LiveLog log U V es → logAppendEntry log term reqId cltId type data = some (log', 0) →
    SameLog log log' := by
  intro hall
  obtain ⟨s, hs, hidx⟩ := exists_counted64K 1022 (by decide)
  obtain ⟨V, v, hfilled⟩ := hs.filled
  have hlive := hfilled.liveLog (by rw [hidx]; decide)
  obtain ⟨log', heq, hzero, -, -⟩ := hs.rejected
  have hend := hs.end_
  have hsame := (hall _ _ _ _ _ _ _ _ _ _ hlive heq).end_
  omega

end Apus
