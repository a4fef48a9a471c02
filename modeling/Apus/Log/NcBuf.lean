import Apus.Log.Adjust

namespace Apus

open Lib

/-!
# The buffer of determinants

`log_entries_to_nc_buf` writes the determinants of the not committed entries into an array of
`MAX_NC_ENTRIES` elements.  The loop stops at the end of the log, and not at that of the array.

* `fillNcBuf` — the loop with the elements it writes, whose values are `logEntriesToNcBuf`;
* `NcBufOk` — the array has room, and the buffer has the entries of the apply walk;
* `ncBufOk_iff` — this is so if and only if there are not more of them than the array has elements.
-/

/-- `MAX_NC_ENTRIES`. -/
def MAX_NC_ENTRIES : Nat := 1024

/-- `dare_nc_buf_t`.  An index from `MAX_NC_ENTRIES` on is one of the memory behind the array. -/
structure DareNcBuf where
  len : Nat
  entries : Nat → DareLogEntryDet

/-- The determinants that the buffer has. -/
def DareNcBuf.dets (buf : DareNcBuf) : List DareLogEntryDet := (List.range buf.len).map buf.entries

/-- The loop of `log_entries_to_nc_buf`: the buffer it leaves, and the indices it writes to. -/
def ncBufWalk (log : DareLog) : Nat → Nat → DareNcBuf → Option (DareNcBuf × List Nat)
  | 0, _, _ => none
  | fuel + 1, offset, buf =>
    match logGetEntry log offset with
    | none => some (buf, [])
    | some entry =>
      let next : DareNcBuf :=
        ⟨buf.len + 1, Function.update buf.entries buf.len (entryDet log.entries entry)⟩
      let offset := if logFitEntry log entry entry then entry else 0
      (ncBufWalk log fuel (offset + logEntryLen log.entries entry) next).map
        fun r => (r.1, buf.len :: r.2)

/-- `log_entries_to_nc_buf`, with what the array had before. -/
def fillNcBuf (log : DareLog) (old : Nat → DareLogEntryDet) : Option (DareNcBuf × List Nat) :=
  ncBufWalk log (walkFuel log) log.commit ⟨0, old⟩

/-- Index and term of the entry at `entry`. -/
def idxTerm (m : Mem) (entry : Nat) : UInt64 × UInt64 := (getU64 m entry, getU64 m (entry + 8))

/-- The loop ends, stays in the array, and leaves the entries of the apply walk, in order. -/
structure NcBufOk (log : DareLog) (old : Nat → DareLogEntryDet) : Prop where
  filled : ∃ buf written visited stop, fillNcBuf log old = some (buf, written) ∧
    (∀ k ∈ written, k < MAX_NC_ENTRIES) ∧
    readerWalk log (walkFuel log) log.commit = some (visited, stop) ∧
    buf.dets.map (fun det => (det.idx, det.term)) = visited.map (idxTerm log.entries)

variable {log : DareLog} {V v : Nat} {es : List DareLogEntry} {old : Nat → DareLogEntryDet}

/-! ### What the loop writes -/

/-- The elements from `k` on are written. -/
def writeDets (entries : Nat → DareLogEntryDet) : Nat → List DareLogEntryDet → Nat → DareLogEntryDet
  | _, [] => entries
  | k, det :: dets => writeDets (Function.update entries k det) (k + 1) dets

theorem writeDets_of_lt {entries : Nat → DareLogEntryDet} {i k : Nat} (dets : List DareLogEntryDet)
    (h : i < k) : writeDets entries k dets i = entries i := by
  induction dets generalizing entries k with
  | nil => rfl
  | cons det dets ih =>
    rw [writeDets, ih (Nat.lt_succ_of_lt h)]
    exact Function.update_of_ne (Nat.ne_of_lt h) det entries

/-- They have the values written. -/
theorem map_writeDets (entries : Nat → DareLogEntryDet) (k : Nat) (dets : List DareLogEntryDet) :
    (List.range' k dets.length).map (writeDets entries k dets) = dets := by
  induction dets generalizing entries k with
  | nil => rfl
  | cons det dets ih =>
    rw [List.length_cons, List.range'_succ, List.map_cons]
    have hhead : writeDets entries k (det :: dets) k = det := by
      rw [writeDets, writeDets_of_lt dets (Nat.lt_succ_self k)]
      exact Function.update_self k det entries
    rw [hhead]
    exact congrArg (det :: ·) (ih (Function.update entries k det) (k + 1))

/-- The loop is the walk over the headers; its `k`-th entry goes to the `k`-th element. -/
theorem ncBufWalk_eq (log : DareLog) (fuel off : Nat) (buf : DareNcBuf) :
    ncBufWalk log fuel off buf = (headerWalk log fuel off).map fun r =>
      (⟨buf.len + r.1.length, writeDets buf.entries buf.len (r.1.map (entryDet log.entries))⟩,
        List.range' buf.len r.1.length) := by
  induction fuel generalizing off buf with
  | zero => rfl
  | succ fuel ih =>
    rw [ncBufWalk, headerWalk]
    cases logGetEntry log off with
    | none => rfl
    | some entry =>
      dsimp only
      rw [ih, Option.map_map, Option.map_map]
      congr 1
      ext1 r
      simp only [Function.comp, List.length_cons, List.map_cons, writeDets, List.range'_succ,
        Nat.add_right_comm, Nat.add_assoc]

theorem fillNcBuf_eq (log : DareLog) (old : Nat → DareLogEntryDet) :
    fillNcBuf log old = (logEntriesToNcBuf log).map fun dets =>
      (⟨dets.length, writeDets old 0 dets⟩, List.range dets.length) := by
  rw [fillNcBuf, ncBufWalk_eq, logEntriesToNcBuf, Option.map_map]
  congr 1
  ext1 r
  simp [List.range_eq_range']

/-- The buffer is left with the values written. -/
theorem dets_writeDets (old : Nat → DareLogEntryDet) (dets : List DareLogEntryDet) :
    DareNcBuf.dets ⟨dets.length, writeDets old 0 dets⟩ = dets := by
  rw [DareNcBuf.dets, List.range_eq_range']
  exact map_writeDets old 0 dets

/-! ### The entries of the apply walk -/

theorem map_dets (len v : Nat) (es : List DareLogEntry) :
    (dets len v es).map (fun det => (det.idx, det.term)) = es.map fun e => (e.idx, e.term) := by
  induction es generalizing v with
  | nil => rfl
  | cons e es ih => rw [dets, List.map_cons, List.map_cons, ih]

theorem length_dets (len v : Nat) (es : List DareLogEntry) : (dets len v es).length = es.length := by
  rw [← List.length_map (f := fun det => (det.idx, det.term)), map_dets, List.length_map]

/-- The apply walk visits the not committed entries. -/
theorem Cursor.map_idxTerm (hc : Cursor log V v log.commit es) :
    (offsets entryFormat log.len v es).map (idxTerm log.entries) =
      es.map fun e => (e.idx, e.term) := by
  have hread := congrArg (List.map fun e : DareLogEntry => (e.idx, e.term)) hc.map_readEntry
  rw [List.map_map] at hread
  exact hread

/-- With more entries, the loop writes behind the array. -/
theorem not_ncBufOk_of_more (hV : EndsAt log V) (hne : log.end_ ≠ log.len)
    (hc : Cursor log V v log.commit es) (hmore : MAX_NC_ENTRIES < es.length) : ¬NcBufOk log old := by
  rintro ⟨buf, written, visited, stop, hfill, hin, -⟩
  rw [fillNcBuf_eq, logEntriesToNcBuf_eq hV hne hc, Option.map_some, length_dets, Option.some.injEq,
    Prod.mk.injEq] at hfill
  have hmem : MAX_NC_ENTRIES ∈ written := by
    rw [← hfill.2]
    exact List.mem_range.mpr hmore
  exact Nat.lt_irrefl _ (hin MAX_NC_ENTRIES hmem)

/-- **The determinants fit in the array** if and only if there are at most `MAX_NC_ENTRIES` entries
    for the walk to visit; a log that looks empty has none. -/
theorem ncBufOk_iff (hV : EndsAt log V) (hc : Cursor log V v log.commit es)
    (old : Nat → DareLogEntryDet) :
    NcBufOk log old ↔ log.end_ = log.len ∨ es.length ≤ MAX_NC_ENTRIES := by
  by_cases hempty : log.end_ = log.len
  · refine iff_of_true ⟨⟨⟨0, old⟩, [], [], log.commit, ?_, by simp, ?_, rfl⟩⟩ (.inl hempty)
    · rw [fillNcBuf_eq, logEntriesToNcBuf_of_end_eq_len hempty]
      rfl
    · rw [walkFuel, readerWalk, logGetEntry_of_end_eq_len hempty]
  · obtain ⟨stop, hwalk, -⟩ := hc.readerWalk hV hempty (hc.fuel hV)
    have hfill := fillNcBuf_eq log old
    rw [logEntriesToNcBuf_eq hV hempty hc, Option.map_some, length_dets] at hfill
    rw [or_iff_right hempty]
    constructor
    · intro hok
      by_contra hmore
      exact not_ncBufOk_of_more hV hempty hc (Nat.lt_of_not_le hmore) hok
    · intro hle
      refine ⟨⟨_, _, _, stop, hfill, fun k hk => ?_, hwalk, ?_⟩⟩
      · have hlt := List.mem_range.mp hk
        omega
      · have hdets := dets_writeDets old (dets log.len v es)
        rw [length_dets] at hdets
        rw [hdets, map_dets, hc.map_idxTerm]

/-- One entry is not committed. -/
theorem ncBufOk_iff_longVoter : NcBufOk longVoter (fun _ => default) :=
  (ncBufOk_iff (endsAt_logOf ⟨by decide, rfl⟩) cursor_longVoter _).mpr (.inr (by decide))

/-! ### A log with many entries that are not committed -/

/-- The first `n` entries of a log, which are all NOOP. -/
def noops : Nat → List DareLogEntry
  | 0 => []
  | n + 1 => noops n ++ [noop (UInt64.ofNat n)]

/-- The buffer with them. -/
def noopMem : Nat → Mem
  | 0 => zeroMem
  | n + 1 => writeNoop (noopMem n) (n * ENTRY_SIZE) (UInt64.ofNat n)

theorem length_noops (n : Nat) : (noops n).length = n := by
  induction n with
  | zero => rfl
  | succ n ih => rw [noops, List.length_append, ih, List.length_singleton]

theorem chain_noops {n : Nat} (h : (n + 1) * ENTRY_SIZE ≤ LOG_SIZE) :
    Chain entryFormat (noopMem n) LOG_SIZE 0 (noops n) ∧
      advance entryFormat LOG_SIZE 0 (noops n) = n * ENTRY_SIZE := by
  induction n with
  | zero => exact ⟨trivial, rfl⟩
  | succ n ih =>
    have hsize : 0 < ENTRY_SIZE := by decide
    rw [Nat.succ_mul, Nat.succ_mul] at h
    obtain ⟨hchain, hstop⟩ := ih (by rw [Nat.succ_mul]; omega)
    have hmod : n * ENTRY_SIZE % LOG_SIZE = n * ENTRY_SIZE := Nat.mod_eq_of_lt (by omega)
    have hplace : place LOG_SIZE (n * ENTRY_SIZE) ENTRY_SIZE = n * ENTRY_SIZE :=
      place_of_fit (by rw [hmod]; omega)
    refine ⟨chain_writeNoop _ (by decide) hchain hstop (hplace.symm ▸ hmod) ?_, ?_⟩
    · rw [hplace]
      omega
    · rw [noops, advance_append, hstop, advance_singleton, entryFormat_size, size_noop, hplace,
        Nat.succ_mul]

/-- None of the entries is committed. -/
def noopLog (n : Nat) : DareLog := logOf 0 0 (n * ENTRY_SIZE) (noopMem n)

theorem cursor_noopLog {n : Nat} (h : (n + 1) * ENTRY_SIZE ≤ LOG_SIZE) :
    Cursor (noopLog n) (n * ENTRY_SIZE) 0 0 (noops n) := by
  obtain ⟨hchain, hstop⟩ := chain_noops h
  refine cursor_logOf ⟨Nat.zero_le _, rfl⟩ ?_ hchain hstop
  have hsize : 0 < ENTRY_SIZE := by decide
  rw [Nat.succ_mul] at h
  omega

theorem not_ncBufOk_noopLog {n : Nat} (h : (n + 1) * ENTRY_SIZE ≤ LOG_SIZE)
    (hmore : MAX_NC_ENTRIES < n) : ¬NcBufOk (noopLog n) old := by
  have hsize : 0 < ENTRY_SIZE := by decide
  rw [Nat.succ_mul] at h
  have hmod : n * ENTRY_SIZE % LOG_SIZE = n * ENTRY_SIZE := Nat.mod_eq_of_lt (by omega)
  have hend : EndsAt (noopLog n) (n * ENTRY_SIZE) := endsAt_logOf ⟨by omega, rfl⟩
  have hne : (noopLog n).end_ ≠ (noopLog n).len := by
    show n * ENTRY_SIZE ≠ LOG_SIZE
    omega
  refine not_ncBufOk_of_more hend hne (cursor_noopLog (Nat.succ_mul _ _ ▸ h)) ?_
  rw [length_noops]
  exact hmore

/-- With one more entry than the array has elements, the last one is written behind it. -/
theorem not_ncBufOk : ¬∀ (log : DareLog) (V v : Nat) (es : List DareLogEntry),
    EndsAt log V → Cursor log V v log.commit es → NcBufOk log fun _ => default := by
  intro hall
  have hroom : (1025 + 1) * ENTRY_SIZE ≤ LOG_SIZE := by decide
  exact not_ncBufOk_noopLog hroom (by decide)
    (hall _ _ _ _ (endsAt_logOf ⟨by decide, rfl⟩) (cursor_noopLog hroom))

end Apus
