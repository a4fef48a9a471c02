import Apus.Log.Layout
import Mathlib.Data.List.Forall2

namespace Apus

open Lib

/-!
# Cursors and walks

A cursor of the log (`head`, `apply`, `commit`, `old_end`, a loop variable) denotes a
position, and has in front of it the entries between that position and the end of the log:
`Cursor log V v off es`.  Here `V` is the position of the end, `v` that of the cursor and
`off` its offset.  The same place can have two offsets: the end of the previous entry, and
the offset `0` at which the next entry starts when it does not fit.

* `Cursor.distance` — `log_offset_end_distance` is the distance of positions, hence
  `logIsOffsetLarger_iff`: the circular comparison is the order of positions;
* `Cursor.getEntry_cons`, `Cursor.getEntry_nil` — what `log_get_entry` does at a cursor;
* `Cursor.readerWalk`, `Cursor.headerWalk` — both walks end and visit exactly the entries in
  front of the cursor.
-/

/-- The log has room for a header and ends at position `V`. -/
structure EndsAt (log : DareLog) (V : Nat) : Prop where
  entrySize_le_len : ENTRY_SIZE ≤ log.len
  offset : IsOffset log.len V log.end_

/-- The cursor with offset `off` denotes position `v`, and the entries `es` are between it and
    the end of the log at position `V`, which is less than a lap ahead. -/
structure Cursor (log : DareLog) (V v off : Nat) (es : List DareLogEntry) : Prop where
  offset : IsOffset log.len v off
  window : V < v + log.len
  chain : Chain entryFormat log.entries log.len v es
  stop : advance entryFormat log.len v es = V

variable {log : DareLog} {V v off : Nat} {e : DareLogEntry} {es : List DareLogEntry}

theorem EndsAt.len_pos (h : EndsAt log V) : 0 < log.len :=
  Nat.lt_of_lt_of_le (by decide) h.entrySize_le_len

/-! ### Order -/

theorem Cursor.le_end (hV : EndsAt log V) (hc : Cursor log V v off es) : v ≤ V := by
  rw [← hc.stop]
  exact le_advance hV.len_pos es

theorem Cursor.lt_end (hV : EndsAt log V) (hc : Cursor log V v off (e :: es)) : v < V := by
  rw [← hc.stop]
  exact lt_advance_cons hV.len_pos e es

/-- A cursor with nothing in front of it is at the end. -/
theorem Cursor.eq_end (hc : Cursor log V v off []) : v = V := hc.stop

/-- The circular distance to the end is the distance of positions. -/
theorem Cursor.distance (hV : EndsAt log V) (hne : log.end_ ≠ log.len)
    (hc : Cursor log V v off es) : logOffsetEndDistance log off = V - v := by
  rw [logOffsetEndDistance, if_neg hne]
  exact ringDist_eq hV.len_pos hc.offset hV.offset hne (hc.le_end hV) hc.window

/-- While the end is at the buffer end, the log looks empty from everywhere. -/
theorem logOffsetEndDistance_of_end_eq_len (h : log.end_ = log.len) (off : Nat) :
    logOffsetEndDistance log off = 0 := if_pos h

theorem logFitEntryHeader_iff (log : DareLog) (off : Nat) (hle : off ≤ log.len) :
    logFitEntryHeader log off = true ↔ off + ENTRY_SIZE ≤ log.len := by
  rw [logFitEntryHeader, decide_eq_true_iff]
  omega

theorem logFitEntry_iff (log : DareLog) (off entry : Nat) (hle : off ≤ log.len) :
    logFitEntry log off entry = true ↔ off + logEntryLen log.entries entry ≤ log.len := by
  rw [logFitEntry, decide_eq_true_iff]
  omega

/-- An offset at which a header fits is the remainder of its position. -/
theorem IsOffset.eq_mod_of_fit {len : Nat} (hlen : 0 < len) (h : IsOffset len v off)
    (hfit : off + ENTRY_SIZE ≤ len) : off = v % len := by
  rcases h.cases hlen with heq | ⟨heq, _⟩
  · exact heq
  · simp only [ENTRY_SIZE] at hfit
    omega

/-- A header fits at an offset of a position exactly if it fits at its remainder, unless the
    offset is the buffer end. -/
theorem IsOffset.headerOffset {len : Nat} (hlen : ENTRY_SIZE ≤ len) (h : IsOffset len v off) :
    (if off + ENTRY_SIZE ≤ len then off else 0) = Lib.headerOffset entryFormat len v := by
  have hpos : 0 < len := Nat.lt_of_lt_of_le (by decide) hlen
  rcases h.cases hpos with heq | ⟨heq, hzero⟩
  · rw [heq]; rfl
  · have hnot : ¬ off + ENTRY_SIZE ≤ len := by simp only [ENTRY_SIZE]; omega
    rw [if_neg hnot, Lib.headerOffset, hzero, entryFormat_hdr, if_pos (by omega)]

theorem Cursor.getEntry_nil (hV : EndsAt log V) (hc : Cursor log V v off []) :
    logGetEntry log off = none := by
  unfold logGetEntry
  split
  · rfl
  · rename_i hne
    have hend : log.end_ ≠ log.len := by simpa [isLogEmpty] using hne
    have hzero : logOffsetEndDistance log off = 0 := by
      rw [hc.distance hV hend, hc.eq_end, Nat.sub_self]
    rw [if_pos hzero]

/-- At an offset before the end, `log_get_entry` finds the header where one fits. -/
theorem logGetEntry_of_lt (hV : EndsAt log V) (hne : log.end_ ≠ log.len)
    (hoff : IsOffset log.len v off) (hlt : v < V) (hwindow : V < v + log.len) :
    logGetEntry log off = some (Lib.headerOffset entryFormat log.len v) := by
  have hdist : logOffsetEndDistance log off = V - v := by
    rw [logOffsetEndDistance, if_neg hne]
    exact ringDist_eq hV.len_pos hoff hV.offset hne hlt.le hwindow
  rw [← IsOffset.headerOffset hV.entrySize_le_len hoff]
  unfold logGetEntry
  rw [if_neg (by simpa [isLogEmpty] using hne), if_neg (by omega)]
  by_cases hfit : off + ENTRY_SIZE ≤ log.len
  · have hf := (logFitEntryHeader_iff log off hoff.1).mpr hfit
    simp [hf, hfit]
  · have hf : logFitEntryHeader log off = false := by
      rw [Bool.eq_false_iff]
      intro hcon
      exact hfit ((logFitEntryHeader_iff log off hoff.1).mp hcon)
    simp [hf, hfit]

theorem Cursor.getEntry_cons (hV : EndsAt log V) (hne : log.end_ ≠ log.len)
    (hc : Cursor log V v off (e :: es)) :
    logGetEntry log off = some (Lib.headerOffset entryFormat log.len v) :=
  logGetEntry_of_lt hV hne hc.offset (hc.lt_end hV) hc.window

/-- The pointer `log_get_entry` returns is where a header fits. -/
theorem headerOffset_add_le {len : Nat} (hlen : ENTRY_SIZE ≤ len) (v : Nat) :
    Lib.headerOffset entryFormat len v + ENTRY_SIZE ≤ len := by
  unfold Lib.headerOffset
  split
  · assumption
  · omega

/-- Where a header fits, `log_get_entry` does not move the pointer. -/
theorem logGetEntry_eq_of_fit {o : Nat} (hfit : off + ENTRY_SIZE ≤ log.len)
    (h : logGetEntry log off = some o) : o = off := by
  have hf := (logFitEntryHeader_iff log off (by omega)).mpr hfit
  unfold logGetEntry at h
  rw [hf] at h
  split at h
  · cases h
  · split at h
    · cases h
    · exact (Option.some.inj h).symm

/-- A walk that visits one entry. -/
theorem readerWalk_single {entry next : Nat} (hget : logGetEntry log off = some entry)
    (hfit : logFitEntry log entry entry = true) (hnext : entry + logEntryLen log.entries entry = next)
    (hstop : logGetEntry log next = none) :
    readerWalk log (walkFuel log) off = some ([entry], next) := by
  rw [walkFuel, readerWalk, hget]
  simp only [hfit, if_true, hnext]
  rw [readerWalk, hstop]
  rfl

/-- A log whose end is at the buffer end has no entry anywhere. -/
theorem logGetEntry_of_end_eq_len (h : log.end_ = log.len) (off : Nat) :
    logGetEntry log off = none := by
  simp [logGetEntry, isLogEmpty, h]

/-- In such a log a walk does not move. -/
theorem WalkTo.of_end_eq_len {off' : Nat} {visited : List Nat} (h : log.end_ = log.len)
    (hw : WalkTo log off visited off') : visited = [] ∧ off' = off := by
  have hnone := logGetEntry_of_end_eq_len h off
  cases hw with
  | refl => exact ⟨rfl, rfl⟩
  | found hget => rw [hnone] at hget; cases hget
  | rewind hget => rw [hnone] at hget; cases hget
  | visit hget => rw [hnone] at hget; cases hget

theorem logOffsetEndDistance_of_le (hne : log.end_ ≠ log.len) (h : off ≤ log.end_) :
    logOffsetEndDistance log off = log.end_ - off := by
  rw [logOffsetEndDistance, if_neg hne, if_pos h]

/-- The entry at an offset before the end, in a log that did not wrap. -/
theorem logGetEntry_of_lt_end (hne : log.end_ ≠ log.len) (hlt : off < log.end_)
    (hfit : off + ENTRY_SIZE ≤ log.len) : logGetEntry log off = some off := by
  have hheader := (logFitEntryHeader_iff log off (by omega)).mpr hfit
  have hdist : logOffsetEndDistance log off ≠ 0 := by
    rw [logOffsetEndDistance_of_le hne hlt.le]
    omega
  unfold logGetEntry
  rw [if_neg (by simpa [isLogEmpty] using hne), if_neg hdist, hheader]
  rfl

/-- There is no entry at the end. -/
theorem logGetEntry_end (log : DareLog) : logGetEntry log log.end_ = none := by
  unfold logGetEntry logOffsetEndDistance
  simp

/-! ### One step of a walk -/

/-- The header a cursor finds has the index and the term of the entry in front of it, and its
    length is that of the entry. -/
theorem Cursor.header (hc : Cursor log V v off (e :: es)) :
    headerLeft log.entries (Lib.headerOffset entryFormat log.len v) e := by
  have hin := hc.chain.1
  have hsize : e.size ≤ log.len := hin.size_le
  have hstored : ∀ o, readEntry log.entries o = e → headerLeft log.entries o e := by
    rintro o rfl
    exact ⟨rfl, rfl, (readEntry_size _ _).symm⟩
  unfold Lib.headerOffset
  split
  · rename_i hfit
    by_cases hplace : v % log.len + e.size ≤ log.len
    · have h := hin.stored
      rw [entryFormat_size, place_of_fit hplace] at h
      exact hstored _ h
    · exact hin.skipped hfit (by simp only [entryFormat_size]; omega)
  · rename_i hnot
    have hsz := e.entrySize_le_size
    simp only [entryFormat_hdr] at hnot
    have h := hin.stored
    rw [entryFormat_size, place_mod_of_not_fit (by omega)] at h
    exact hstored _ h

/-- The entry a cursor finds fits where it was found, or only its header was left there. -/
theorem Cursor.fit_iff (hV : EndsAt log V) (hc : Cursor log V v off (e :: es)) :
    logFitEntry log (Lib.headerOffset entryFormat log.len v)
        (Lib.headerOffset entryFormat log.len v) = true ↔
      place log.len v e.size % log.len = Lib.headerOffset entryFormat log.len v := by
  have hlen := hV.len_pos
  have hmod := Nat.mod_lt v hlen
  have hsize : e.size ≤ log.len := hc.chain.1.size_le
  have hsz := e.entrySize_le_size
  have hle : Lib.headerOffset entryFormat log.len v ≤ log.len := by
    unfold Lib.headerOffset; split <;> omega
  rw [logFitEntry_iff _ _ _ hle, hc.header.2.2]
  unfold Lib.headerOffset
  rw [entryFormat_hdr]
  by_cases hfit : v % log.len + ENTRY_SIZE ≤ log.len
  · rw [if_pos hfit]
    by_cases hplace : v % log.len + e.size ≤ log.len
    · rw [place_of_fit hplace]
      exact ⟨fun _ => rfl, fun _ => hplace⟩
    · rw [Lib.place_mod_of_not_fit (by omega)]
      constructor
      · intro h; exact absurd h hplace
      · intro h; omega
  · rw [if_neg hfit, Lib.place_mod_of_not_fit (by omega)]
    exact ⟨fun _ => rfl, fun _ => by omega⟩

/-- The cursor after the entry in front. -/
theorem Cursor.next (hV : EndsAt log V) (hc : Cursor log V v off (e :: es)) :
    Cursor log V (place log.len v e.size + e.size)
      (place log.len v e.size % log.len + e.size) es := by
  have hle : v ≤ place log.len v e.size := le_place hV.len_pos
  have hwindow := hc.window
  have hsize : e.size ≤ log.len := hc.chain.1.size_le
  refine ⟨(isOffset_mod hV.len_pos).add (place_mod_add_le hsize), by omega, hc.chain.2, hc.stop⟩

/-- The cursor moved to offset `0` when the entry in front is there. -/
theorem Cursor.rewind (hV : EndsAt log V) (hc : Cursor log V v off (e :: es))
    (hzero : place log.len v e.size % log.len = 0) :
    Cursor log V (place log.len v e.size) 0 (e :: es) := by
  have hle : v ≤ place log.len v e.size := le_place hV.len_pos
  have hwindow := hc.window
  have hsize : e.size ≤ log.len := hc.chain.1.size_le
  refine ⟨⟨Nat.zero_le _, ?_⟩, by omega, hc.chain.at_place, ?_⟩
  · rw [hzero, Nat.zero_mod]
  · exact (advance_at_place (F := entryFormat) hsize).trans hc.stop

/-- An entry that is not where its header was found is at offset `0`. -/
theorem Cursor.place_mod_of_not_fit (hV : EndsAt log V) (hc : Cursor log V v off (e :: es))
    (hnot : logFitEntry log (Lib.headerOffset entryFormat log.len v)
      (Lib.headerOffset entryFormat log.len v) = false) : place log.len v e.size % log.len = 0 := by
  by_cases hfit : v % log.len + e.size ≤ log.len
  · exfalso
    have hsz := e.entrySize_le_size
    rw [Bool.eq_false_iff] at hnot
    apply hnot
    rw [hc.fit_iff hV, place_of_fit hfit, Lib.headerOffset, entryFormat_hdr, if_pos (by omega)]
  · exact Lib.place_mod_of_not_fit (by omega)

/-- The cursor moved to the header that `log_get_entry` finds. -/
theorem Cursor.found (hV : EndsAt log V) (hc : Cursor log V v off (e :: es)) :
    ∃ w, v ≤ w ∧ w ≤ place log.len v e.size ∧
      Cursor log V w (Lib.headerOffset entryFormat log.len v) (e :: es) := by
  have hle : v ≤ place log.len v e.size := le_place hV.len_pos
  unfold Lib.headerOffset
  split
  · exact ⟨v, le_refl v, hle, isOffset_mod hV.len_pos, hc.window, hc.chain, hc.stop⟩
  · rename_i hnot
    have hsz := e.entrySize_le_size
    rw [entryFormat_hdr] at hnot
    exact ⟨_, hle, le_refl _, hc.rewind hV (Lib.place_mod_of_not_fit (by omega))⟩

/-- The walk over headers goes on from the place of the entry in front. -/
theorem Cursor.headerStep (hV : EndsAt log V) (hc : Cursor log V v off (e :: es)) :
    (if logFitEntry log (Lib.headerOffset entryFormat log.len v)
        (Lib.headerOffset entryFormat log.len v) then Lib.headerOffset entryFormat log.len v
        else 0) = place log.len v e.size % log.len := by
  by_cases hplace : place log.len v e.size % log.len = Lib.headerOffset entryFormat log.len v
  · rw [if_pos ((hc.fit_iff hV).mpr hplace), hplace]
  · have hnot : logFitEntry log (Lib.headerOffset entryFormat log.len v)
        (Lib.headerOffset entryFormat log.len v) = false := by
      rw [Bool.eq_false_iff]
      exact fun h => hplace ((hc.fit_iff hV).mp h)
    rw [hnot, hc.place_mod_of_not_fit hV hnot]
    rfl

/-- The cursor in the log cut off after the entries `gs`. -/
theorem Cursor.cut {gs tl : List DareLogEntry} {end_ : Nat} (hV : EndsAt log V)
    (hc : Cursor log V v off (gs ++ tl))
    (hend : IsOffset log.len (advance entryFormat log.len v gs) end_) :
    EndsAt { log with end_ := end_ } (advance entryFormat log.len v gs) ∧
      Cursor { log with end_ := end_ } (advance entryFormat log.len v gs) v off gs := by
  have hstop := hc.stop
  have hwindow := hc.window
  rw [advance_append] at hstop
  have hle : advance entryFormat log.len v gs ≤ V := by
    rw [← hstop]
    exact le_advance hV.len_pos tl
  exact ⟨⟨hV.1, hend⟩, hc.offset, by show _ < v + log.len; omega,
    ((chain_append gs tl).mp hc.chain).1, rfl⟩

/-- The reader finds the entry in front at its place. -/
theorem Cursor.read (hc : Cursor log V v off (e :: es)) :
    readEntry log.entries (place log.len v e.size % log.len) = e := hc.chain.1.stored

/-- Every value the variable of a walk takes is a cursor at what is left to visit. -/
theorem Cursor.walkTo (hV : EndsAt log V) (hne : log.end_ ≠ log.len) {visited : List Nat}
    {off' : Nat} (hc : Cursor log V v off es) (hw : WalkTo log off visited off') :
    ∃ w, v ≤ w ∧ Cursor log V w off' (es.drop visited.length) := by
  -- the walk goes through what is left to visit
  induction hw generalizing v es with
  | refl off => exact ⟨v, le_refl v, hc⟩
  | found hget _ ih =>
    cases es with
    | nil => rw [hc.getEntry_nil hV] at hget; cases hget
    | cons e es =>
      rw [hc.getEntry_cons hV hne] at hget
      obtain ⟨w, hvw, -, hw⟩ := hc.found hV
      obtain ⟨w', hww', hw'⟩ := ih (Option.some.inj hget ▸ hw)
      exact ⟨w', by omega, hw'⟩
  | rewind hget hfit _ ih =>
    cases es with
    | nil => rw [hc.getEntry_nil hV] at hget; cases hget
    | cons e es =>
      rw [hc.getEntry_cons hV hne] at hget
      obtain rfl := Option.some.inj hget
      have hle : v ≤ place log.len v e.size := le_place hV.len_pos
      obtain ⟨w', hww', hw'⟩ := ih (hc.rewind hV (hc.place_mod_of_not_fit hV hfit))
      exact ⟨w', by omega, hw'⟩
  | visit hget hfit _ ih =>
    cases es with
    | nil => rw [hc.getEntry_nil hV] at hget; cases hget
    | cons e es =>
      rw [hc.getEntry_cons hV hne] at hget
      obtain rfl := Option.some.inj hget
      have hle : v ≤ place log.len v e.size := le_place hV.len_pos
      have hnext := hc.next hV
      rw [(hc.fit_iff hV).mp hfit] at hnext
      rw [hc.header.2.2] at ih
      obtain ⟨w', hww', hw'⟩ := ih hnext
      exact ⟨w', by omega, hw'⟩

/-- The walk that stops takes the value it stops at. -/
theorem WalkTo.of_readerWalk {visited : List Nat} {stop fuel : Nat}
    (h : Apus.readerWalk log fuel off = some (visited, stop)) : WalkTo log off visited stop := by
  induction fuel generalizing off visited with
  | zero => cases h
  | succ fuel ih =>
    rw [Apus.readerWalk] at h
    cases hget : logGetEntry log off with
    | none =>
      rw [hget] at h
      obtain ⟨rfl, rfl⟩ := Prod.mk.inj (Option.some.inj h)
      exact .refl off
    | some entry =>
      rw [hget] at h
      by_cases hfit : logFitEntry log entry entry = true
      · simp only [hfit, if_true] at h
        obtain ⟨r, hr, heq⟩ := Option.map_eq_some_iff.mp h
        obtain ⟨rfl, rfl⟩ := Prod.mk.inj heq
        exact .visit hget hfit (ih hr)
      · simp only [hfit, if_false, Bool.false_eq_true] at h
        exact .rewind hget (Bool.eq_false_iff.mpr hfit) (ih h)

/-- Reading at the offsets of the entries gives the entries. -/
theorem Cursor.map_readEntry (hc : Cursor log V v off es) :
    (offsets entryFormat log.len v es).map (readEntry log.entries) = es := by
  rw [← List.forall₂_eq_eq_eq]
  exact List.forall₂_map_left_iff.mpr hc.chain.stored_offsets

/-! ### Whole walks -/

/-- The entries in front of a cursor fit in the fuel of a walk. -/
theorem Cursor.fuel (hV : EndsAt log V) (hc : Cursor log V v off es) :
    2 * es.length + 1 ≤ walkFuel log := by
  have h := length_mul_hdr_le_advance (F := entryFormat) (v := v) hV.len_pos es
  have hwindow := hc.window
  rw [hc.stop, entryFormat_hdr, ENTRY_SIZE] at h
  simp only [walkFuel]
  omega

/-- The walk of `apply_committed_entries` ends, visits the entries in front of its cursor, each
    once and in order, and stops at the end of the log. -/
theorem Cursor.readerWalk (hV : EndsAt log V) (hne : log.end_ ≠ log.len) {fuel : Nat}
    (hc : Cursor log V v off es) (hfuel : 2 * es.length + 1 ≤ fuel) :
    ∃ stop, Apus.readerWalk log fuel off = some (offsets entryFormat log.len v es, stop) ∧
      IsOffset log.len V stop := by
  induction es generalizing v off fuel with
  | nil =>
    obtain ⟨fuel, rfl⟩ : ∃ f, fuel = f + 1 := ⟨fuel - 1, by omega⟩
    have hoff := hc.offset
    rw [hc.eq_end] at hoff
    exact ⟨off, by simp [Apus.readerWalk, hc.getEntry_nil hV, offsets], hoff⟩
  | cons e es ih =>
    -- at most one round is spent on a header that was left at the buffer end
    obtain ⟨fuel, rfl⟩ : ∃ f, fuel = f + 2 :=
      ⟨fuel - 2, by simp only [List.length_cons] at hfuel; omega⟩
    simp only [List.length_cons] at hfuel
    have hlenEq := readEntry_size log.entries (place log.len v e.size % log.len)
    rw [hc.read] at hlenEq
    by_cases hplace : place log.len v e.size % log.len = Lib.headerOffset entryFormat log.len v
    · obtain ⟨stop, hwalk, hstop⟩ := ih (hc.next hV)
        (show 2 * es.length + 1 ≤ fuel + 1 by omega)
      refine ⟨stop, ?_, hstop⟩
      rw [Apus.readerWalk, hc.getEntry_cons hV hne]
      simp only [(hc.fit_iff hV).mpr hplace, if_true]
      rw [← hplace, ← hlenEq, hwalk]
      rfl
    · have hnot : logFitEntry log (Lib.headerOffset entryFormat log.len v)
          (Lib.headerOffset entryFormat log.len v) = false := by
        rw [Bool.eq_false_iff]
        exact fun h => hplace ((hc.fit_iff hV).mp h)
      have hzero := hc.place_mod_of_not_fit hV hnot
      have hrew := hc.rewind hV hzero
      have hsize : e.size ≤ log.len := hc.chain.1.size_le
      have hfit0 : Lib.headerOffset entryFormat log.len (place log.len v e.size) = 0 := by
        rw [Lib.headerOffset, hzero, entryFormat_hdr, if_pos (by simpa using hV.entrySize_le_len)]
      have hgo : logFitEntry log 0 0 = true := by
        rw [logFitEntry_iff _ _ _ (Nat.zero_le _), Nat.zero_add, ← hzero, ← hlenEq]
        exact hsize
      obtain ⟨stop, hwalk, hstop⟩ := ih (hc.next hV)
        (show 2 * es.length + 1 ≤ fuel by omega)
      refine ⟨stop, ?_, hstop⟩
      rw [Apus.readerWalk, hc.getEntry_cons hV hne]
      simp only [hnot, Bool.false_eq_true, if_false]
      rw [Apus.readerWalk, hrew.getEntry_cons hV hne, hfit0]
      simp only [hgo, if_true]
      rw [hzero] at hwalk hlenEq
      rw [← hlenEq, hwalk, offsets, entryFormat_size, hzero]
      rfl

/-- The walk over headers ends, visits the headers of the entries in front of its cursor, each
    once and in order, and stops at the end of the log. -/
theorem Cursor.headerWalk (hV : EndsAt log V) (hne : log.end_ ≠ log.len) {fuel : Nat}
    (hc : Cursor log V v off es) (hfuel : es.length + 1 ≤ fuel) :
    ∃ stop, Apus.headerWalk log fuel off =
      some (headerOffsets entryFormat log.len v es, stop) ∧ IsOffset log.len V stop := by
  induction es generalizing v off fuel with
  | nil =>
    obtain ⟨fuel, rfl⟩ : ∃ f, fuel = f + 1 := ⟨fuel - 1, by omega⟩
    have hoff := hc.offset
    rw [hc.eq_end] at hoff
    exact ⟨off, by simp [Apus.headerWalk, hc.getEntry_nil hV, headerOffsets], hoff⟩
  | cons e es ih =>
    obtain ⟨fuel, rfl⟩ : ∃ f, fuel = f + 1 := ⟨fuel - 1, by omega⟩
    obtain ⟨stop, hwalk, hstop⟩ := ih (hc.next hV)
      (show es.length + 1 ≤ fuel by simp only [List.length_cons] at hfuel; omega)
    refine ⟨stop, ?_, hstop⟩
    rw [Apus.headerWalk, hc.getEntry_cons hV hne]
    simp only [hc.headerStep hV, hc.header.2.2]
    rw [hwalk]
    rfl

/-! ### A new log -/

theorem endsAt_logNew : EndsAt logNew 0 :=
  ⟨by decide, le_refl _, by rw [Nat.zero_mod]; exact Nat.mod_self _⟩

theorem cursor_logNew : Cursor logNew 0 0 0 [] :=
  ⟨⟨Nat.zero_le _, rfl⟩, by decide, trivial, rfl⟩

end Apus
