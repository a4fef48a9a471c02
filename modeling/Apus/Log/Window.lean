import Apus.Log.Append
import Apus.Lib.Timeline

namespace Apus

open Lib

/-!
# The log as a window of its history

The history of a log is the list of the entries appended to it since it was new; the buffer
holds a window of it (`LogWindow`).  The offsets of the log are marks of the history:

* `LogWindow.cursor` — a mark inside the window is a cursor at the entries behind it;
* `LogWindow.appended` — an append extends the history;
* `LogWindow.setU8` — the sender and the reply bytes are not part of an entry;
* `LogWindow.copied` — copying the entries behind the end extends the window of a replica.
-/

/-- The log holds the entries of the history `hist` behind the mark `u`, which has `lo` entries
    before it. -/
abbrev LogWindow (log : DareLog) (hist : List DareLogEntry) (lo u : Nat) : Prop :=
  Window entryFormat log.entries log.len hist lo u

/-- The position after the first `n` entries. -/
abbrev logPos (log : DareLog) (hist : List DareLogEntry) (n : Nat) : Nat :=
  pos entryFormat log.len hist n

variable {log log' : DareLog} {hist es : List DareLogEntry} {lo u n k v w off : Nat}
  {e : DareLogEntry}

/-- The mark where the window starts is a cursor. -/
theorem LogWindow.cursor (h : LogWindow log hist lo u) (hoff : IsOffset log.len u off) :
    Cursor log (logPos log hist hist.length) u off (hist.drop lo) :=
  ⟨hoff, h.window, h.chain, h.stop⟩

/-- An append extends the history. -/
theorem LogWindow.appended (h : LogWindow log hist lo u)
    (happ : Appended log (logPos log hist hist.length) e log')
    (hroom : place log.len (logPos log hist hist.length) e.size + e.size < u + log.len) :
    LogWindow log' (hist ++ [e]) lo u := by
  have hsame : LogWindow { log with entries := log'.entries } (hist ++ [e]) lo u :=
    Window.append h happ.inPlace hroom fun y hlo hy => happ.frame y hy (by omega)
  show Window entryFormat log'.entries log'.len (hist ++ [e]) lo u
  rw [happ.len]
  exact hsame

/-- The position of the new end. -/
theorem logPos_append (log : DareLog) (hist : List DareLogEntry) (e : DareLogEntry) :
    logPos log (hist ++ [e]) (hist ++ [e]).length =
      place log.len (logPos log hist hist.length) e.size + e.size := by
  rw [List.length_append, List.length_singleton, logPos, pos_length_append, entryFormat_size]

/-- The log ends after the new entry. -/
theorem LogWindow.endsAt_appended (hE : EndsAt log (logPos log hist hist.length))
    (happ : Appended log (logPos log hist hist.length) e log') :
    EndsAt log' (logPos log' (hist ++ [e]) (hist ++ [e]).length) := by
  have hends := happ.endsAt hE
  rw [← logPos_append log hist e] at hends
  rw [logPos, happ.len]
  exact hends

/-! ### Walks over the history -/

section Walks

/-- The order of offsets is that of the positions they denote. -/
theorem logIsOffsetLarger_iff_lt {V off' : Nat} (hE : EndsAt log V) (hne : log.end_ ≠ log.len)
    (hv : IsOffset log.len v off) (hw : IsOffset log.len w off') (hvV : v ≤ V) (hwV : w ≤ V)
    (hVv : V < v + log.len) (hVw : V < w + log.len) :
    logIsOffsetLarger log off off' = true ↔ w < v := by
  rw [logIsOffsetLarger, decide_eq_true_iff, logOffsetEndDistance, logOffsetEndDistance, if_neg hne,
    if_neg hne]
  have hdv : (if log.end_ ≥ off then log.end_ - off else log.len - (off - log.end_)) = V - v :=
    ringDist_eq hE.len_pos hv hE.offset hne hvV hVv
  have hdw : (if log.end_ ≥ off' then log.end_ - off' else log.len - (off' - log.end_)) = V - w :=
    ringDist_eq hE.len_pos hw hE.offset hne hwV hVw
  rw [hdv, hdw]
  omega

/-- In a log that looks empty no offset is larger than another. -/
theorem logIsOffsetLarger_of_end_eq_len (h : log.end_ = log.len) (off off' : Nat) :
    logIsOffsetLarger log off off' = false := by
  simp [logIsOffsetLarger, logOffsetEndDistance, h]

/-- What the log finds at a mark with an entry behind it. -/
structure Found (log : DareLog) (u entry : Nat) (e : DareLogEntry) : Prop where
  entry_eq : entry = Lib.headerOffset entryFormat log.len u
  length : logEntryLen log.entries entry = e.size
  fit_iff : logFitEntry log entry entry = true ↔ place log.len u e.size % log.len = entry
  read : readEntry log.entries (place log.len u e.size % log.len) = e
  size_le : e.size ≤ log.len
  /-- An entry that is not where its header was found is at offset `0`. -/
  rewind : logFitEntry log entry entry = false → place log.len u e.size % log.len = 0
  /-- The pointer denotes the mark or the place of the entry. -/
  isOffset : ∃ w, (w = u ∨ w = place log.len u e.size) ∧ IsOffset log.len w entry

theorem LogWindow.found (h : LogWindow log hist lo u)
    (hE : EndsAt log (logPos log hist hist.length)) (hne : log.end_ ≠ log.len)
    (hoff : IsOffset log.len u off) (he : hist[lo]? = some e) :
    ∃ entry, logGetEntry log off = some entry ∧ Found log u entry e := by
  have hc := h.cursor hoff
  rw [drop_eq_cons he] at hc
  refine ⟨_, hc.getEntry_cons hE hne, rfl, hc.header.2.2, hc.fit_iff hE, hc.read,
    hc.chain.1.size_le, hc.place_mod_of_not_fit hE, ?_⟩
  unfold Lib.headerOffset
  split
  · exact ⟨u, .inl rfl, isOffset_mod h.len_pos⟩
  · rename_i hnot
    have hsize := e.entrySize_le_size
    rw [entryFormat_hdr] at hnot
    have hzero : place log.len u e.size % log.len = 0 := Lib.place_mod_of_not_fit (by omega)
    exact ⟨_, .inr rfl, Nat.zero_le _, by rw [hzero, Nat.zero_mod]⟩

/-- Before the end there is an entry. -/
theorem LogWindow.exists_entry (h : LogWindow log hist lo u)
    (hlt : u < logPos log hist hist.length) : ∃ e, hist[lo]? = some e := by
  have hlo : lo < hist.length := by
    by_contra hcon
    have hlo := h.lo_le
    have heq : lo = hist.length := by omega
    have hle := h.mark.pos_le h.len_pos
    rw [heq] at hle
    exact absurd hlt (Nat.not_lt.mpr hle)
  exact ⟨hist[lo], List.getElem?_eq_getElem hlo⟩

/-- An entry in the window ends at or before the end. -/
theorem LogWindow.place_add_le (h : LogWindow log hist lo u) (he : hist[lo]? = some e) :
    place log.len u e.size + e.size ≤ logPos log hist hist.length ∧
      place log.len u e.size + e.size = logPos log hist (lo + 1) := by
  have hstop := h.stop
  rw [drop_eq_cons he] at hstop
  have hlt := (List.getElem?_eq_some_iff.mp he).1
  have hstep := h.mark.advance_take (Nat.lt_add_one lo) h.size_le
  rw [Nat.add_sub_cancel_left, drop_eq_cons he] at hstep
  have heq : place log.len u e.size + e.size = logPos log hist (lo + 1) := hstep
  refine ⟨?_, heq⟩
  rw [heq]
  exact pos_mono h.len_pos hlt

/-- The window after its first entry. -/
theorem LogWindow.next (h : LogWindow log hist lo u) (he : hist[lo]? = some e) :
    LogWindow log hist (lo + 1) (logPos log hist (lo + 1)) := by
  obtain ⟨hle, heq⟩ := h.place_add_le he
  have hplace : u ≤ place log.len u e.size := le_place h.len_pos
  exact Window.advance h (Mark.pos _) (List.getElem?_eq_some_iff.mp he).1 (by omega)
    (by rw [← heq]; exact hle)

/-- The window from the place of its first entry. -/
theorem LogWindow.at_place (h : LogWindow log hist lo u) (he : hist[lo]? = some e) :
    LogWindow log hist lo (place log.len u e.size) := by
  obtain ⟨hle, heq⟩ := h.place_add_le he
  refine Window.advance h ?_ h.lo_le (le_place h.len_pos) (le_trans (Nat.le_add_right _ _) hle)
  rcases h.mark with hu | ⟨e', he', hu⟩
  · exact .inr ⟨e, he, by rw [hu, entryFormat_size]⟩
  · obtain rfl := Option.some.inj (he.symm.trans he')
    refine .inr ⟨e, he, ?_⟩
    rw [hu]
    exact place_place (h.size_le e (List.mem_of_getElem? he))

/-- Behind an entry that fits is the offset of the place after it. -/
theorem LogWindow.isOffset_next {entry : Nat} (h : LogWindow log hist lo u)
    (he : hist[lo]? = some e) (hf : Found log u entry e)
    (hfit : logFitEntry log entry entry = true) :
    IsOffset log.len (logPos log hist (lo + 1)) (entry + logEntryLen log.entries entry) := by
  rw [← (h.place_add_le he).2, hf.length, ← hf.fit_iff.mp hfit]
  exact (isOffset_mod h.len_pos).add (place_mod_add_le hf.size_le)

/-- What is found at the offset of a mark is the entry behind it. -/
theorem LogWindow.of_getEntry {entry : Nat} (h : LogWindow log hist lo u)
    (hE : EndsAt log (logPos log hist hist.length)) (hne : log.end_ ≠ log.len)
    (hoff : IsOffset log.len u off) (hget : logGetEntry log off = some entry) :
    ∃ e, hist[lo]? = some e ∧ Found log u entry e := by
  rcases Nat.lt_or_ge u (logPos log hist hist.length) with hlt | hge
  · obtain ⟨e, he⟩ := h.exists_entry hlt
    obtain ⟨entry', hget', hfound⟩ := h.found hE hne hoff he
    rw [hget] at hget'
    exact ⟨e, he, Option.some.inj hget' ▸ hfound⟩
  · have hlo : hist.drop lo = [] := by
      by_contra hcon
      obtain ⟨e, es, hes⟩ := List.exists_cons_of_ne_nil hcon
      have hc := h.cursor hoff
      rw [hes] at hc
      exact absurd (hc.lt_end hE) (Nat.not_lt.mpr hge)
    have hc := h.cursor hoff
    rw [hlo] at hc
    rw [hc.getEntry_nil hE] at hget
    cases hget

/-- Every value the variable of a walk takes is the offset of a mark. -/
theorem LogWindow.walkTo {off' : Nat} {visited : List Nat} (h : LogWindow log hist lo u)
    (hE : EndsAt log (logPos log hist hist.length)) (hne : log.end_ ≠ log.len)
    (hoff : IsOffset log.len u off) (hw : WalkTo log off visited off') :
    ∃ w, u ≤ w ∧ LogWindow log hist (lo + visited.length) w ∧ IsOffset log.len w off' := by
  induction hw generalizing u lo with
  | refl off => exact ⟨u, le_refl u, h, hoff⟩
  | found hget _ ih =>
    obtain ⟨e, he, hfound⟩ := h.of_getEntry hE hne hoff hget
    obtain ⟨w, hw | hw, hwoff⟩ := hfound.isOffset
    · exact ih h (hw ▸ hwoff)
    · obtain ⟨w', hle, hw'⟩ := ih (h.at_place he) (hw ▸ hwoff)
      exact ⟨w', le_trans (le_place h.len_pos) hle, hw'⟩
  | rewind hget hfit _ ih =>
    obtain ⟨e, he, hfound⟩ := h.of_getEntry hE hne hoff hget
    obtain ⟨w', hle, hw'⟩ := ih (h.at_place he) ⟨Nat.zero_le _, by
      rw [hfound.rewind hfit, Nat.zero_mod]⟩
    exact ⟨w', le_trans (le_place h.len_pos) hle, hw'⟩
  | visit hget hfit _ ih =>
    obtain ⟨e, he, hfound⟩ := h.of_getEntry hE hne hoff hget
    obtain ⟨hle, heq⟩ := h.place_add_le he
    obtain ⟨w', hle', hw', hwoff'⟩ := ih (h.next he) (h.isOffset_next he hfound hfit)
    have hu : u ≤ place log.len u e.size := le_place h.len_pos
    refine ⟨w', by omega, ?_, hwoff'⟩
    rwa [List.length_cons, Nat.add_comm _ 1, ← Nat.add_assoc]

end Walks

/-! ### Bookkeeping bytes -/

/-- The byte at `d` in an entry is its sender or one of its replies. -/
def IsBookkeeping (d : Nat) : Prop := SENDER_OFF ≤ d ∧ d < DATA_OFF

/-- The byte at which server `i` acknowledges the entry at `o`. -/
def setReply (m : Mem) (o i : Nat) (b : UInt8) : Mem := setU8 m (o + REPLY_OFF + i) b

theorem isBookkeeping_sender : IsBookkeeping SENDER_OFF := ⟨by decide, by decide⟩

theorem isBookkeeping_reply {i : Nat} (hi : i < MAX_SERVER_COUNT) :
    IsBookkeeping (REPLY_OFF + i) := by
  simp only [MAX_SERVER_COUNT] at hi
  simp only [IsBookkeeping, SENDER_OFF, REPLY_OFF, DATA_OFF]
  omega

theorem setReply_eq (m : Mem) (o i : Nat) (b : UInt8) :
    setReply m o i b = setU8 m (o + (REPLY_OFF + i)) b := by
  rw [setReply, Nat.add_assoc]

/-- A bookkeeping byte is not part of the entry. -/
theorem readEntry_setU8 {m : Mem} {o d : Nat} {b : UInt8} (hd : IsBookkeeping d) :
    readEntry (setU8 m (o + d) b) o = readEntry m o := by
  obtain ⟨hlo, hhi⟩ := hd
  simp only [SENDER_OFF] at hlo
  simp only [DATA_OFF] at hhi
  refine (readEntry_congr (fun x _ hx => ?_) fun x hx _ => ?_).symm
  · simp only [SENDER_OFF] at hx
    rw [setU8_of_outside (by omega)]
  · simp only [DATA_OFF] at hx
    rw [setU8_of_outside (by omega)]

/-- A reply byte is not part of the entry. -/
theorem readEntry_setReply {m : Mem} {o i : Nat} {b : UInt8} (hi : i < MAX_SERVER_COUNT) :
    readEntry (setReply m o i b) o = readEntry m o := by
  rw [setReply_eq]
  exact readEntry_setU8 (isBookkeeping_reply hi)

/-- A bookkeeping byte of a record is at none of the positions outside its header. -/
theorem setU8_of_outside_header {m : Mem} {len p x d : Nat} {b : UInt8} (hd : IsBookkeeping d)
    (hlo : p + ENTRY_SIZE ≤ x + len) (hx : x < p + len) (hout : x < p ∨ p + ENTRY_SIZE ≤ x) :
    setU8 m (p % len + d) b (x % len) = m (x % len) := by
  have hdata := hd.2
  simp only [DATA_OFF] at hdata
  simp only [ENTRY_SIZE] at hlo hout
  rw [setU8_of_outside]
  by_contra hcon
  have hlen : 0 < len := by omega
  have hmod := Nat.mod_lt x hlen
  have haddr : (p + d) % len = x % len := by
    rw [add_mod_of_lt (by omega)]
    omega
  rcases hout with h | h
  · exact mod_ne_of_lt (by omega) (by omega) haddr.symm
  · exact mod_ne_of_lt (by omega) (by omega) haddr

/-- Setting a bookkeeping byte of one of its entries keeps a chain. -/
theorem Chain.setU8 {m : Mem} {len v o d : Nat} {b : UInt8} {es : List DareLogEntry}
    (hlen : 0 < len) (hc : Chain entryFormat m len v es)
    (hwindow : advance entryFormat len v es < v + len) (ho : o ∈ offsets entryFormat len v es)
    (hd : IsBookkeeping d) : Chain entryFormat (Lib.setU8 m (o + d) b) len v es := by
  induction es generalizing v with
  | nil => trivial
  | cons e es ih =>
    have hplace : v ≤ place len v e.size := le_place hlen
    have hsize : e.size ≤ len := hc.1.size_le
    have hhdr := e.entrySize_le_size
    have hfits := place_mod_add_le (v := v) hsize
    have hrest : place len v e.size + e.size ≤ advance entryFormat len v (e :: es) :=
      le_advance hlen es
    have hsame : advance entryFormat len v (e :: es) =
      advance entryFormat len (place len v e.size + e.size) es := rfl
    by_cases hfirst : o = place len v e.size % len
    · subst hfirst
      refine ⟨⟨hsize, ?_, fun hheader hnot => entryFormat.skipped_congr (fun x hlo hhi => ?_)
        (hc.1.skipped hheader hnot)⟩, Chain.congr hlen (fun x hlo hhi => ?_) hc.2⟩
      · exact (readEntry_setU8 hd).trans hc.1.stored
      · -- the header that was left is before the entry
        rw [entryFormat_hdr] at hheader hhi
        rw [entryFormat_size] at hnot
        have hskip : place len v e.size + v % len = v + len := place_of_not_fit_add hnot
        have hx : (v + (x - v % len)) % len = x := by
          rw [add_mod_of_lt (by omega)]
          omega
        rw [← hx]
        exact (setU8_of_outside_header hd (by omega) (by omega) (.inl (by omega))).symm
      · rw [entryFormat_size] at hlo hhi
        rw [hsame] at hwindow
        exact (setU8_of_outside_header hd (by omega) (by omega) (.inr (by omega))).symm
    · have hmem : o ∈ offsets entryFormat len (place len v e.size + e.size) es :=
        (List.mem_cons.mp ho).resolve_left hfirst
      obtain ⟨p, hlo, hhi, rfl⟩ := exists_position_of_mem_offsets hlen hmem
      rw [entryFormat_hdr] at hhi
      rw [hsame] at hwindow
      have hinner : advance entryFormat len (place len v e.size + e.size) es <
        place len v e.size + e.size + len := by omega
      refine ⟨hc.1.congr hlen fun x hxlo hxhi => ?_, ih hc.2 hinner hmem⟩
      rw [entryFormat_size] at hxhi
      exact (setU8_of_outside_header hd (by omega) (by omega) (.inl (by omega))).symm

/-- Setting a bookkeeping byte of one of its entries keeps a window. -/
theorem LogWindow.setU8 {o d : Nat} {b : UInt8} (h : LogWindow log hist lo u)
    (ho : o ∈ offsets entryFormat log.len u (hist.drop lo)) (hd : IsBookkeeping d) :
    LogWindow { log with entries := Lib.setU8 log.entries (o + d) b } hist lo u where
  hdr_le_len := h.hdr_le_len
  size_le := h.size_le
  lo_le := h.lo_le
  mark := h.mark
  le_end := h.le_end
  window := h.window
  chain := Chain.setU8 h.len_pos h.chain (by rw [h.stop]; exact h.window) ho hd

/-- Setting a reply byte of one of its entries keeps a window. -/
theorem LogWindow.setReply {o i : Nat} {b : UInt8} (h : LogWindow log hist lo u)
    (ho : o ∈ offsets entryFormat log.len u (hist.drop lo)) (hi : i < MAX_SERVER_COUNT) :
    LogWindow { log with entries := setReply log.entries o i b } hist lo u := by
  rw [setReply_eq]
  exact h.setU8 ho (isBookkeeping_reply hi)

/-! ### Replicas -/

/-- A replica that holds the entries up to the `n`-th, and to which the bytes up to the `k`-th are
    copied, holds the entries up to the `k`-th. -/
theorem LogWindow.copied {m : Mem} {len start stop j : Nat} {ldr : Mem}
    (hldr : Window entryFormat ldr len hist lo u)
    (hfol : Window entryFormat m len (hist.take n) j v) (huv : u ≤ v) (hnk : n < k)
    (hk : k ≤ hist.length)
    (hstart : start = pos entryFormat len hist n % len)
    (hstop : stop = pos entryFormat len hist k % len) :
    Window entryFormat (ringCopy len m ldr start stop) len (hist.take k) j v := by
  have hlen := hldr.len_pos
  have hlengthN : (hist.take n).length = n := List.length_take_of_le (by omega)
  have hposN : pos entryFormat len (hist.take n) (hist.take n).length =
      pos entryFormat len hist n := by
    rw [hlengthN]
    exact pos_take (le_refl n)
  have hadvance : advance entryFormat len (pos entryFormat len hist n)
      ((hist.drop n).take (k - n)) = pos entryFormat len hist k := advance_drop_eq_pos hnk.le
  have hmono : pos entryFormat len hist k ≤ pos entryFormat len hist hist.length :=
    pos_mono hlen hk
  have hmonoN : pos entryFormat len hist n ≤ pos entryFormat len hist k := pos_mono hlen hnk.le
  have hwindow := hldr.window
  have hend := hfol.le_end
  rw [hposN] at hend
  -- the leader's chain behind the `n`-th entry, up to the `k`-th
  have hsrc : Chain entryFormat ldr len (pos entryFormat len hist n)
      ((hist.drop n).take (k - n)) := by
    have hfrom := (hldr.advance (Mark.pos n) (by omega) (by omega) (by omega)).chain
    rw [← List.take_append_drop (k - n) (hist.drop n), chain_append] at hfrom
    exact hfrom.1
  have hadd : hist.take k = hist.take n ++ (hist.drop n).take (k - n) := by
    rw [← List.take_add, Nat.add_sub_cancel' hnk.le]
  have hne : (hist.drop n).take (k - n) ≠ [] := by
    intro hcon
    have hlength := congrArg List.length hcon
    rw [List.length_take, List.length_drop, List.length_nil] at hlength
    omega
  rw [hadd]
  refine hfol.copy (by rw [hposN]; exact hsrc) hne ?_ (by rw [hposN]; exact hstart) ?_
  · rw [hposN, hadvance]
    omega
  · rw [hposN, hadvance]
    exact hstop

end Apus
