import Apus.Log.Full
import Apus.Log.Window

namespace Apus

open Lib

/-!
# Circular comparison

Every update of a cursor asks `log_is_offset_larger` which of two offsets is closer to the end.  The
answer is meant to be the order in which a reader comes to them, and to stay the same while the end
moves on.

The order is counted in bytes: the variable of the walk of `apply_committed_entries` goes over the
bytes of the entries and over the bytes skipped at the buffer end (`WalkBytes`).  The offsets `len`
and `0` are the same place.

* `OnWalk.distance` — the distance to the end is the number of bytes left on the walk, also after
  the end has moved on;
* `endMoves_forward` — the appends and the remote updates that do not reach `head`;
* `circularOrder_iff` — the comparison is the order of the walk unless the end moves to the buffer
  end.
-/

/-! ### The walk in bytes -/

/-- The bytes between two values of the variable that are not an entry: those up to the buffer end
    if the second value is the `0` behind it. -/
def skippedBytes (log : DareLog) (off entry : Nat) : Nat := if entry = off then 0 else log.len - off

/-- The variable of the walk of `apply_committed_entries` goes from `off` to `off'` over `n` bytes;
    it takes the same values as in `WalkTo`. -/
inductive WalkBytes (log : DareLog) : Nat → Nat → Nat → Prop
  | refl (off : Nat) : WalkBytes log off 0 off
  | found {off entry off' n : Nat} : logGetEntry log off = some entry →
      WalkBytes log entry n off' → WalkBytes log off (skippedBytes log off entry + n) off'
  | rewind {off entry off' n : Nat} : logGetEntry log off = some entry →
      logFitEntry log entry entry = false → WalkBytes log 0 n off' →
      WalkBytes log off (skippedBytes log off 0 + n) off'
  | visit {off entry off' n : Nat} : logGetEntry log off = some entry →
      logFitEntry log entry entry = true →
      WalkBytes log (entry + logEntryLen log.entries entry) n off' →
      WalkBytes log off (skippedBytes log off entry + logEntryLen log.entries entry + n) off'

/-- The walk from `head` comes to the end of the log after `N` bytes, which is less than a lap. -/
structure WalksToEnd (log : DareLog) (N : Nat) : Prop where
  entrySize_le_len : ENTRY_SIZE ≤ log.len
  end_lt : log.end_ < log.len
  head_le : log.head ≤ log.len
  stops : ∃ stop, WalkBytes log log.head N stop ∧ logOffsetEndDistance log stop = 0
  lap : N < log.len

/-- `a` is an entry boundary on the walk of `N` bytes, `n` bytes behind `head`, or the end. -/
def OnWalk (log : DareLog) (N n a : Nat) : Prop :=
  (WalkBytes log log.head n a ∧ n ≤ N) ∨ (a = log.end_ ∧ n = N)

/-! ### Moves of the end -/

/-- Bytes between `head` and the end. -/
def usedBytes (log : DareLog) : Nat := (log.end_ + log.len - log.head) % log.len

/-- The steps: a local append, or a remote server writes entries and the end. -/
inductive EndLabel
  | append (term reqId : UInt64) (cltId : UInt16) (type : UInt8) (data : EntryData)
  | remote (entries : Mem) (end_ : Nat)

/-- One step, which moves the end forward and does not reach `head`. -/
def endStep (log : DareLog) : EndLabel → DareLog → Prop
  | .append term reqId cltId type data, log' =>
    AppendRoom log type data ∧
      ∃ idx, logAppendEntry log term reqId cltId type data = some (log', idx)
  | .remote entries end_, log' =>
    end_ ≤ log.len ∧ usedBytes log + (end_ + log.len - log.end_) % log.len < log.len ∧
      log' = { log with entries := entries, end_ := end_ }

/-- The end moves on by any number of steps. -/
abbrev EndMoves (log log' : DareLog) : Prop := Steps endStep Always log log'

/-- The comparison is the order of the walk, and stays the same in `log'`. -/
structure CircularOrder (log log' : DareLog) (N : Nat) : Prop where
  /-- No subtraction underflows: the value is the one over the integers. -/
  exact : ∀ n a, OnWalk log N n a → (logOffsetEndDistance log a : Int) =
    if a ≤ log.end_ then (log.end_ : Int) - a else log.len - (a - log.end_)
  le : ∀ n a, OnWalk log N n a → logOffsetEndDistance log a ≤ log.len
  larger : ∀ n a m b, OnWalk log N n a → OnWalk log N m b →
    (logIsOffsetLarger log a b = true ↔ m < n)
  stable : ∀ n a m b, OnWalk log N n a → OnWalk log N m b →
    logIsOffsetLarger log' a b = logIsOffsetLarger log a b

variable {log log' : DareLog} {N n m a b off off' entry d : Nat}

/-! ### Bytes and offsets -/

theorem logGetEntry_eq (h : logGetEntry log off = some entry) : entry = off ∨ entry = 0 := by
  unfold logGetEntry at h
  split at h
  · cases h
  · split at h
    · cases h
    · split at h
      · exact .inr (Option.some.inj h).symm
      · exact .inl (Option.some.inj h).symm

/-- The skipped bytes lead from one offset to the other. -/
theorem isOffset_skipped (hoff : off ≤ log.len) (h : entry = off ∨ entry = 0) :
    IsOffset log.len (off + skippedBytes log off entry) entry := by
  unfold skippedBytes
  rcases h with rfl | rfl
  · simpa [IsOffset] using hoff
  · by_cases hzero : 0 = off
    · simp [IsOffset, ← hzero]
    · -- up to the buffer end
      rw [if_neg hzero, Nat.add_sub_cancel' hoff]
      exact ⟨Nat.zero_le _, by rw [Nat.zero_mod, Nat.mod_self]⟩

/-- The bytes of a walk lead from its first offset to its last. -/
theorem WalkBytes.isOffset (h : WalkBytes log off n off') (hoff : off ≤ log.len) :
    IsOffset log.len (off + n) off' := by
  induction h with
  | refl off => exact ⟨hoff, rfl⟩
  | found hget _ ih =>
    have hskip := isOffset_skipped hoff (logGetEntry_eq hget)
    rw [← Nat.add_assoc]
    exact hskip.trans (ih hskip.1)
  | rewind hget _ _ ih =>
    have hskip : IsOffset log.len (_ + skippedBytes log _ 0) 0 := isOffset_skipped hoff (.inr rfl)
    rw [← Nat.add_assoc]
    exact hskip.trans (ih hskip.1)
  | @visit off entry off' n hget hfit _ ih =>
    have hskip := isOffset_skipped hoff (logGetEntry_eq hget)
    have hend : entry + logEntryLen log.entries entry ≤ log.len :=
      (logFitEntry_iff log entry entry hskip.1).mp hfit
    rw [← Nat.add_assoc, ← Nat.add_assoc]
    exact (hskip.add hend).trans (ih hend)

/-- The distance of an offset that is `m` bytes before the end. -/
theorem logOffsetEndDistance_eq (hend : log.end_ < log.len) (ha : a ≤ log.len) (hm : m < log.len)
    (h : (a + m) % log.len = log.end_ % log.len) : logOffsetEndDistance log a = m := by
  rw [logOffsetEndDistance, if_neg hend.ne]
  have hdist : ringDist log.len log.end_ a = a + m - a :=
    ringDist_eq (by omega) ⟨ha, rfl⟩ ⟨hend.le, h.symm⟩ hend.ne (Nat.le_add_right _ _) (by omega)
  rw [Nat.add_sub_cancel_left] at hdist
  exact hdist

/-- Only a place of the end has distance `0`. -/
theorem isOffset_of_distance_zero (hend : log.end_ < log.len) (ha : a ≤ log.len)
    (h : logOffsetEndDistance log a = 0) : a % log.len = log.end_ % log.len := by
  rw [logOffsetEndDistance, if_neg hend.ne] at h
  split at h
  · congr 1
    omega
  · -- `len` behind an end at `0`
    have hlen : a = log.len := by omega
    have hzero : log.end_ = 0 := by omega
    rw [hlen, hzero, Nat.mod_self, Nat.zero_mod]

/-! ### The log in front of the end -/

namespace WalksToEnd

theorem len_pos (h : WalksToEnd log N) : 0 < log.len := Nat.lt_of_le_of_lt (Nat.zero_le _) h.lap

/-- The end is `N` bytes behind `head`. -/
theorem end_offset (h : WalksToEnd log N) : IsOffset log.len (log.head + N) log.end_ := by
  obtain ⟨stop, hwalk, hstop⟩ := h.stops
  have hoff := hwalk.isOffset h.head_le
  exact ⟨h.end_lt.le, (isOffset_of_distance_zero h.end_lt hoff.1 hstop).symm.trans hoff.2⟩

/-- A boundary is `n` bytes behind `head`. -/
theorem boundary (h : WalksToEnd log N) (ha : OnWalk log N n a) :
    IsOffset log.len (log.head + n) a ∧ n ≤ N := by
  rcases ha with ⟨hwalk, hn⟩ | ⟨rfl, rfl⟩
  · exact ⟨hwalk.isOffset h.head_le, hn⟩
  · exact ⟨h.end_offset, le_refl _⟩

end WalksToEnd

/-- The end of `log'` is `d` bytes further, and still behind `head`. -/
structure Forward (log log' : DareLog) (N d : Nat) : Prop where
  len : log'.len = log.len
  head : log'.head = log.head
  end_ : IsOffset log.len (log.head + N + d) log'.end_
  lap : N + d < log.len

/-- **The distance to the end** is the number of bytes left on the walk. -/
theorem OnWalk.distance (h : WalksToEnd log N) (hforward : Forward log log' N d)
    (hend : log'.end_ ≠ log'.len) (ha : OnWalk log N n a) :
    logOffsetEndDistance log' a = N - n + d := by
  obtain ⟨hoff, hn⟩ := h.boundary ha
  have hlap := hforward.lap
  have hlen := hforward.len
  have hle : log'.end_ ≤ log'.len := by rw [hlen]; exact hforward.end_.1
  have hlt : log'.end_ < log'.len := Nat.lt_of_le_of_ne hle hend
  refine logOffsetEndDistance_eq hlt (by rw [hlen]; exact hoff.1) (by omega) ?_
  have hbytes : log.head + N + d = log.head + n + (N - n + d) := by omega
  rw [hlen, hforward.end_.2, hbytes, Nat.add_mod, hoff.2, ← Nat.add_mod]

theorem WalksToEnd.forward_refl (h : WalksToEnd log N) : Forward log log N 0 :=
  ⟨rfl, rfl, h.end_offset, h.lap⟩

/-- The order of the walk, after the end has moved on. -/
theorem OnWalk.larger_iff (h : WalksToEnd log N) (hforward : Forward log log' N d)
    (hend : log'.end_ ≠ log'.len) (ha : OnWalk log N n a) (hb : OnWalk log N m b) :
    logIsOffsetLarger log' a b = true ↔ m < n := by
  have hn := (h.boundary ha).2
  have hm := (h.boundary hb).2
  rw [logIsOffsetLarger, decide_eq_true_iff, ha.distance h hforward hend,
    hb.distance h hforward hend]
  omega

/-! ### Every move -/

theorem usedBytes_eq (hoff : log.head ≤ log.len) (hend : IsOffset log.len (log.head + N) log.end_)
    (hN : N < log.len) : usedBytes log = N := by
  have h : usedBytes log = log.head + N - log.head :=
    add_sub_mod_eq ⟨hoff, rfl⟩ hend (Nat.le_add_right _ _) (by omega)
  rw [h, Nat.add_sub_cancel_left]

/-- An append with room goes over the bytes it skips and the bytes it writes, unless it is rejected
    at once. -/
theorem append_offset {term reqId idx : UInt64} {cltId : UInt16} {type : UInt8} {data : EntryData}
    (hlen : ENTRY_SIZE ≤ log.len) (hend : log.end_ ≤ log.len) (hroom : AppendRoom log type data)
    (hs : logAppendEntry log term reqId cltId type data = some (log', idx)) :
    log'.len = log.len ∧ log'.head = log.head ∧ (log'.end_ = log.end_ ∨
      IsOffset log.len (log.end_ + (appendSkip log type data + appendSize type data)) log'.end_) := by
  obtain ⟨t, -, hcreated⟩ := logAppendEntry_created hlen hs
  have hsize := entrySize_le_appendSize type data
  have hlt := hroom.size_lt
  have hcreate : createOffset log = log.end_ ∨
      createOffset log = 0 ∧ log.len - log.end_ < ENTRY_SIZE := by
    unfold createOffset
    split
    · exact .inl rfl
    · rename_i hfit
      exact .inr ⟨rfl, Nat.lt_of_not_le (by simpa [logFitEntryHeader] using hfit)⟩
  -- an entry at offset `0`
  have hwrapped : log.len - log.end_ < appendSize type data →
      IsOffset log.len (log.end_ + (appendSkip log type data + appendSize type data))
        (appendSize type data) := by
    intro hskip
    have hbytes : log.end_ + (log.len - log.end_ + appendSize type data) =
        appendSize type data + log.len := by omega
    rw [appendSkip, if_pos hskip, hbytes]
    exact ⟨hlt.le, by rw [Nat.add_mod_right]⟩
  cases hcreated with
  | full => exact ⟨rfl, rfl, .inl rfl⟩
  | fit _ hfit =>
    refine ⟨rfl, rfl, .inr ?_⟩
    have hfit : createOffset log + appendSize type data ≤ log.len := hfit
    show IsOffset _ _ (createOffset log + appendSize type data)
    rcases hcreate with hat | ⟨hat, hskip⟩
    · rw [hat] at hfit ⊢
      rw [appendSkip, if_neg (by omega), Nat.zero_add]
      exact ⟨hfit, rfl⟩
    · rw [hat, Nat.zero_add]
      exact hwrapped (by omega)
  | wrap _ _ hfit =>
    have hfit : log.len < createOffset log + appendSize type data := hfit
    exact ⟨rfl, rfl, .inr (hwrapped (by omega))⟩
  | secondFull _ hhead hfit =>
    -- the skipped bytes and the entry do not fit in front of `head`
    have hfit : log.len < createOffset log + appendSize type data := hfit
    have hhead : log.head = 0 := hhead
    have hat : createOffset log = log.end_ := by omega
    have hne : log.end_ ≠ log.len := by
      intro hcon
      rw [hcon, Nat.sub_self] at hcreate
      simp only [ENTRY_SIZE] at hcreate hlen
      unfold createOffset at hat
      rw [if_neg (by simp [logFitEntryHeader, hcon, ENTRY_SIZE])] at hat
      omega
    rw [AppendRoom, appendSkip, if_pos (by omega), hhead, Nat.sub_zero, Nat.add_mod_right,
      Nat.mod_eq_of_lt (by omega)] at hroom
    omega

/-- The bytes in use after a move. -/
theorem Forward.used (h : WalksToEnd log N) (hforward : Forward log log' N d) :
    usedBytes log' = N + d := by
  obtain ⟨hlen, hhead, hend, hlap⟩ := hforward
  refine usedBytes_eq (by rw [hlen, hhead]; exact h.head_le) ?_ (by rw [hlen]; exact hlap)
  rw [hlen, hhead, ← Nat.add_assoc]
  exact hend

theorem Forward.append {term reqId idx : UInt64} {cltId : UInt16} {type : UInt8}
    {data : EntryData} {log'' : DareLog} (h : WalksToEnd log N) (hforward : Forward log log' N d)
    (hroom : AppendRoom log' type data)
    (hs : logAppendEntry log' term reqId cltId type data = some (log'', idx)) :
    ∃ d', Forward log log'' N d' := by
  have hused := hforward.used h
  obtain ⟨hlen, hhead, hend, hlap⟩ := hforward
  have hroom' : usedBytes log' + appendSkip log' type data + appendSize type data < log'.len := hroom
  rw [hused, hlen] at hroom'
  obtain ⟨hlen', hhead', hend'⟩ := append_offset (by rw [hlen]; exact h.entrySize_le_len)
    (by rw [hlen]; exact hend.1) hroom hs
  rw [hlen] at hlen' hend'
  rw [hhead] at hhead'
  rcases hend' with hsame | hmoved
  · exact ⟨d, hlen', hhead', by rw [hsame]; exact hend, hlap⟩
  · refine ⟨d + (appendSkip log' type data + appendSize type data), hlen', hhead', ?_, by omega⟩
    rw [← Nat.add_assoc]
    exact hend.trans hmoved

theorem Forward.remote {end_ : Nat} (h : WalksToEnd log N) (hforward : Forward log log' N d)
    (entries : Mem) (hle : end_ ≤ log'.len)
    (hroom : usedBytes log' + (end_ + log'.len - log'.end_) % log'.len < log'.len) :
    ∃ d', Forward log { log' with entries := entries, end_ := end_ } N d' := by
  have hused := hforward.used h
  obtain ⟨hlen, hhead, hend, hlap⟩ := hforward
  rw [hused, hlen] at hroom
  rw [hlen] at hle
  have hend_le := hend.1
  refine ⟨d + (end_ + log.len - log'.end_) % log.len, hlen, hhead, ?_, by omega⟩
  have hbytes : log'.end_ + (end_ + log.len - log'.end_) = end_ + log.len := by omega
  rw [← Nat.add_assoc]
  refine hend.trans ⟨hle, ?_⟩
  rw [Nat.add_mod_mod, hbytes, Nat.add_mod_right]

/-- **Moves of the end** that do not reach `head`, one after the other. -/
theorem endMoves_forward (h : WalksToEnd log N) (hmoves : EndMoves log log') :
    ∃ d, Forward log log' N d := by
  induction hmoves with
  | refl => exact ⟨0, h.forward_refl⟩
  | @step log₁ log₂ l _ _ hs ih =>
    obtain ⟨d, hforward⟩ := ih
    cases l with
    | append term reqId cltId type data =>
      obtain ⟨hroom, idx, hidx⟩ := hs
      exact hforward.append h hroom hidx
    | remote entries end_ =>
      obtain ⟨hle, hroom, rfl⟩ := hs
      exact hforward.remote h entries hle hroom

/-! ### The log as a window -/

section Window

variable {hist : List DareLogEntry} {lo u : Nat}

/-- In the window the skipped bytes are the positions in between. -/
theorem skippedBytes_eq {w : Nat} (hoff : IsOffset log.len u off) (hentry : IsOffset log.len w entry)
    (h : entry = off ∨ entry = 0) (huw : u ≤ w) (hlap : w < u + log.len) :
    skippedBytes log off entry = w - u := by
  have hskip := hoff.trans (isOffset_skipped hoff.1 h)
  have hlt : skippedBytes log off entry < log.len := by
    unfold skippedBytes
    split
    · omega
    · have hne : off ≠ 0 := by
        rintro rfl
        simp_all
      omega
  have hsame := hskip.eq_of_lt hentry (by omega) (by omega)
  omega

/-- The bytes of a walk are the positions it goes over. -/
theorem LogWindow.walkBytes {visited : List Nat} (h : LogWindow log hist lo u)
    (hE : EndsAt log (logPos log hist hist.length)) (hne : log.end_ ≠ log.len)
    (hoff : IsOffset log.len u off) (hw : WalkTo log off visited off') :
    ∃ w, u ≤ w ∧ w ≤ logPos log hist hist.length ∧ IsOffset log.len w off' ∧
      WalkBytes log off (w - u) off' := by
  induction hw generalizing u lo with
  | refl off =>
    refine ⟨u, le_refl u, h.le_end, hoff, ?_⟩
    rw [Nat.sub_self]
    exact .refl off
  | @found off entry off' visited hget _ ih =>
    obtain ⟨e, he, hfound⟩ := h.of_getEntry hE hne hoff hget
    have hwindow : logPos log hist hist.length < u + log.len := h.window
    have hplace : u ≤ Lib.place log.len u e.size := le_place h.len_pos
    obtain ⟨v, hv, hvoff⟩ := hfound.isOffset
    -- the window at the entry
    have hat : LogWindow log hist lo v := by
      rcases hv with rfl | rfl
      · exact h
      · exact h.at_place he
    have huv : u ≤ v := by rcases hv with rfl | rfl <;> omega
    have hvend : v ≤ logPos log hist hist.length := hat.le_end
    have hskip := skippedBytes_eq hoff hvoff (logGetEntry_eq hget) huv (by omega)
    obtain ⟨w, hle, hend, hwoff, hbytes⟩ := ih hat hvoff
    refine ⟨w, by omega, hend, hwoff, ?_⟩
    have hsum : w - u = skippedBytes log off entry + (w - v) := by rw [hskip]; omega
    rw [hsum]
    exact .found hget hbytes
  | @rewind off entry off' visited hget hfit _ ih =>
    obtain ⟨e, he, hfound⟩ := h.of_getEntry hE hne hoff hget
    have hwindow : logPos log hist hist.length < u + log.len := h.window
    have hplace : u ≤ Lib.place log.len u e.size := le_place h.len_pos
    have hzero : IsOffset log.len (Lib.place log.len u e.size) 0 :=
      ⟨Nat.zero_le _, by rw [hfound.rewind hfit, Nat.zero_mod]⟩
    have hvend : Lib.place log.len u e.size ≤ logPos log hist hist.length := (h.at_place he).le_end
    have hskip := skippedBytes_eq hoff hzero (.inr rfl) hplace (by omega)
    obtain ⟨w, hle, hend, hwoff, hbytes⟩ := ih (h.at_place he) hzero
    refine ⟨w, by omega, hend, hwoff, ?_⟩
    have hsum : w - u = skippedBytes log off 0 + (w - Lib.place log.len u e.size) := by
      rw [hskip]
      omega
    rw [hsum]
    exact .rewind hget hfit hbytes
  | @visit off entry off' visited hget hfit _ ih =>
    obtain ⟨e, he, hfound⟩ := h.of_getEntry hE hne hoff hget
    have hwindow : logPos log hist hist.length < u + log.len := h.window
    have hplace : u ≤ Lib.place log.len u e.size := le_place h.len_pos
    obtain ⟨hle, heq⟩ := h.place_add_le he
    have hvoff : IsOffset log.len (Lib.place log.len u e.size) _ := isOffset_mod h.len_pos
    rw [hfound.fit_iff.mp hfit] at hvoff
    have hskip := skippedBytes_eq hoff hvoff (logGetEntry_eq hget) hplace (by omega)
    obtain ⟨w, hle', hend, hwoff, hbytes⟩ := ih (h.next he) (h.isOffset_next he hfound hfit)
    refine ⟨w, by omega, hend, hwoff, ?_⟩
    have hsum : w - u = skippedBytes log off entry + logEntryLen log.entries entry +
        (w - logPos log hist (lo + 1)) := by
      rw [hskip, hfound.length]
      omega
    rw [hsum]
    exact .visit hget hfit hbytes

/-- A log that holds the entries between `head` and the end walks to its end. -/
theorem LogWindow.walksToEnd (h : LogWindow log hist lo u)
    (hE : EndsAt log (logPos log hist hist.length)) (hend : log.end_ < log.len)
    (hhead : IsOffset log.len u log.head) :
    WalksToEnd log (logPos log hist hist.length - u) := by
  have hwindow : logPos log hist hist.length < u + log.len := h.window
  have hc := h.cursor hhead
  obtain ⟨stop, hwalk, hstop⟩ := hc.readerWalk hE hend.ne (hc.fuel hE)
  obtain ⟨w, huw, hwend, hwoff, hbytes⟩ := h.walkBytes hE hend.ne hhead (.of_readerWalk hwalk)
  obtain rfl := hwoff.eq_of_lt hstop (by omega) (by omega)
  refine ⟨hE.entrySize_le_len, hend, hhead.1, ⟨stop, hbytes, ?_⟩, by omega⟩
  exact logOffsetEndDistance_eq hend hstop.1 (by omega) (hstop.2.trans hE.offset.2.symm)

/-- The values of the variable of its walk are boundaries, at the bytes from `head` to their
    positions. -/
theorem LogWindow.onWalk {visited : List Nat} (h : LogWindow log hist lo u)
    (hE : EndsAt log (logPos log hist hist.length)) (hne : log.end_ ≠ log.len)
    (hhead : IsOffset log.len u log.head) (hw : WalkTo log log.head visited off) :
    ∃ w, IsOffset log.len w off ∧ OnWalk log (logPos log hist hist.length - u) (w - u) off := by
  obtain ⟨w, -, hwend, hwoff, hbytes⟩ := h.walkBytes hE hne hhead hw
  exact ⟨w, hwoff, .inl ⟨hbytes, by omega⟩⟩

end Window

/-! ### The order -/

/-- The distance of a boundary does not underflow. -/
theorem OnWalk.exact (h : WalksToEnd log N) (ha : OnWalk log N n a) :
    (logOffsetEndDistance log a : Int) =
      if a ≤ log.end_ then (log.end_ : Int) - a else log.len - (a - log.end_) := by
  have hle := (h.boundary ha).1.1
  have hend := h.end_lt
  rw [logOffsetEndDistance, if_neg hend.ne]
  by_cases hbefore : a ≤ log.end_
  · rw [if_pos hbefore, if_pos hbefore]
    omega
  · rw [if_neg hbefore, if_neg hbefore]
    omega

/-- **Circular comparison is the order of the walk**, now and after the end has moved on, exactly if
    the end does not move to the buffer end, or the walk has no entry. -/
theorem circularOrder_iff (h : WalksToEnd log N) (hmoves : EndMoves log log') :
    CircularOrder log log' N ↔ log'.end_ ≠ log'.len ∨ N = 0 := by
  obtain ⟨d, hforward⟩ := endMoves_forward h hmoves
  have hnow : ∀ n a m b, OnWalk log N n a → OnWalk log N m b →
      (logIsOffsetLarger log a b = true ↔ m < n) := fun n a m b ha hb =>
    ha.larger_iff h h.forward_refl h.end_lt.ne hb
  constructor
  · intro horder
    by_contra hcon
    rw [not_or, not_not] at hcon
    obtain ⟨hend, hpos⟩ := hcon
    -- the end and `head`
    have hlast : OnWalk log N N log.end_ := .inr ⟨rfl, rfl⟩
    have hfirst : OnWalk log N 0 log.head := .inl ⟨.refl _, Nat.zero_le _⟩
    have hlarger := (horder.larger N _ 0 _ hlast hfirst).mpr (Nat.pos_of_ne_zero hpos)
    rw [← horder.stable N _ 0 _ hlast hfirst, logIsOffsetLarger_of_end_eq_len hend] at hlarger
    cases hlarger
  · intro hcase
    refine ⟨fun n a ha => ha.exact h, fun n a ha => ?_, hnow, fun n a m b ha hb => ?_⟩
    · rw [ha.distance h h.forward_refl h.end_lt.ne]
      have hlap := h.lap
      omega
    · rw [Bool.eq_iff_iff, hnow n a m b ha hb]
      by_cases hend : log'.end_ = log'.len
      · -- every boundary is at `head`
        have hn := (h.boundary ha).2
        have hzero := hcase.resolve_left (not_not.mpr hend)
        rw [logIsOffsetLarger_of_end_eq_len hend]
        simp
        omega
      · exact ha.larger_iff h hforward hend hb

/-- A log with entries of 64 zero bytes, which are of the type `NOOP`, from `LOG_SIZE - 192` on. -/
def zeroLog (end_ : Nat) : DareLog :=
  { logOf (LOG_SIZE - 192) (LOG_SIZE - 192) end_ zeroMem with tail := end_ - ENTRY_SIZE }

/-- Two entries in front of the last 64 bytes of the buffer. -/
theorem walksToEnd_zeroLog : WalksToEnd (zeroLog (LOG_SIZE - 64)) 128 := by
  have hget₁ : logGetEntry (zeroLog (LOG_SIZE - 64)) (LOG_SIZE - 192) = some (LOG_SIZE - 192) := by
    decide
  have hget₂ : logGetEntry (zeroLog (LOG_SIZE - 64)) (LOG_SIZE - 128) = some (LOG_SIZE - 128) := by
    decide
  have hwalk₂ : WalkBytes (zeroLog (LOG_SIZE - 64)) (LOG_SIZE - 128) 64 (LOG_SIZE - 64) :=
    .visit hget₂ (by decide) (.refl _)
  have hwalk : WalkBytes (zeroLog (LOG_SIZE - 64)) (LOG_SIZE - 192) 128 (LOG_SIZE - 64) :=
    .visit hget₁ (by decide) hwalk₂
  exact ⟨by decide, by decide, by decide, ⟨_, hwalk, by decide⟩, by decide⟩

/-- The end moves over the buffer end. -/
theorem circularOrder_iff_wrap :
    CircularOrder (zeroLog (LOG_SIZE - 64)) { zeroLog (LOG_SIZE - 64) with end_ := 64 } 128 := by
  have hmove : EndMoves (zeroLog (LOG_SIZE - 64)) { zeroLog (LOG_SIZE - 64) with end_ := 64 } :=
    .step (l := .remote zeroMem 64) .refl trivial ⟨by decide, by decide, rfl⟩
  exact (circularOrder_iff walksToEnd_zeroLog hmove).mpr (.inl (by decide))

/-- One more entry ends at the buffer end. -/
theorem not_circularOrder :
    ¬ ∀ log log' N, WalksToEnd log N → EndMoves log log' → CircularOrder log log' N := by
  intro hall
  have happend : ((logAppendEntry (zeroLog (LOG_SIZE - 64)) 1 0 0 NOOP default).map fun r =>
      decide (r.1.end_ = r.1.len)) = some true := by
    decide +kernel
  obtain ⟨⟨log', idx⟩, hlog, hend⟩ := Option.map_eq_some_iff.mp happend
  have hend : log'.end_ = log'.len := of_decide_eq_true hend
  have hroom : AppendRoom (zeroLog (LOG_SIZE - 64)) NOOP default := by
    unfold AppendRoom
    decide
  have hmove : EndMoves (zeroLog (LOG_SIZE - 64)) log' :=
    .step (l := .append 1 0 0 NOOP default) .refl trivial ⟨hroom, idx, hlog⟩
  have horder := hall _ _ _ walksToEnd_zeroLog hmove
  -- the end was larger than `head`
  have hlast : OnWalk (zeroLog (LOG_SIZE - 64)) 128 128 (LOG_SIZE - 64) := .inr ⟨rfl, rfl⟩
  have hfirst : OnWalk (zeroLog (LOG_SIZE - 64)) 128 0 (LOG_SIZE - 192) :=
    .inl ⟨.refl _, Nat.zero_le _⟩
  have hlarger := (horder.larger _ _ _ _ hlast hfirst).mpr (by decide)
  rw [← horder.stable _ _ _ _ hlast hfirst, logIsOffsetLarger_of_end_eq_len hend] at hlarger
  cases hlarger

end Apus
