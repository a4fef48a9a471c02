import Apus.Log.Window

namespace Apus

open Lib

/-!
# Places of the window, and the search for the tail

`PlaceAt log hist u k w off` says that `off` is the offset of the place after the first `k` entries
of the history, at the position `w` of the window that starts at `u`.

`log_append_entry` looks the last entry up when its offset is not cached.  The search walks over
the headers behind the commit offset, then behind the apply offset, then behind `head`, and takes
the last header of the first walk that finds one.

* `PlaceAt.searchTail` — a walk from a place ends, and its last header is the place of the last
  entry;
* `logCacheTail_spec` — so does the search, if the three offsets are places;
* `logAppendEntry_searched` — what an append does to a log whose tail is a place or is not known.
-/

variable {log log' : DareLog} {hist : List DareLogEntry} {lo u k w off t : Nat} {e : DareLogEntry}

/-! ### Places -/

/-- `off` is the offset of the place after the first `k` entries, at the position `w` between `u`
    and the end. -/
structure PlaceAt (log : DareLog) (hist : List DareLogEntry) (u k w off : Nat) : Prop where
  mark : Mark entryFormat log.len hist k w
  le : u ≤ w
  le_end : w ≤ logPos log hist hist.length
  count_le : k ≤ hist.length
  offset : IsOffset log.len w off

/-- A place does not depend on the bytes of the log, nor on its offsets. -/
theorem PlaceAt.of_len (h : PlaceAt log hist u k w off) (hlen : log'.len = log.len) :
    PlaceAt log' hist u k w off := by
  obtain ⟨h1, h2, h3, h4, h5⟩ := h
  simp only [logPos] at h3
  rw [← hlen] at h1 h3 h5
  exact ⟨h1, h2, h3, h4, h5⟩

/-- The window from a place. -/
theorem LogWindow.place (h : LogWindow log hist lo u) (hp : PlaceAt log hist u k w off) :
    LogWindow log hist k w :=
  Window.advance h hp.mark hp.count_le hp.le hp.le_end

/-- The value that a walk from the start of the window takes is the offset of a place. -/
theorem LogWindow.placeAt {visited : List Nat} (h : LogWindow log hist lo u)
    (hE : EndsAt log (logPos log hist hist.length)) (hne : log.end_ ≠ log.len) {start : Nat}
    (hstart : IsOffset log.len u start) (hw : WalkTo log start visited off) :
    ∃ w, PlaceAt log hist u (lo + visited.length) w off := by
  obtain ⟨w, hle, hwin, hoff⟩ := h.walkTo hE hne hstart hw
  exact ⟨w, hwin.mark, hle, hwin.le_end, hwin.lo_le, hoff⟩

/-- In the window, a place is known by its offset. -/
theorem PlaceAt.eq_of_offset {j v : Nat} (h : LogWindow log hist lo u)
    (hp : PlaceAt log hist u k w off) (hq : PlaceAt log hist u j v off) : w = v := by
  have hwindow : logPos log hist hist.length < u + log.len := h.window
  have hw := hp.le
  have hv := hq.le
  have hwend := hp.le_end
  have hvend := hq.le_end
  exact hp.offset.eq_of_lt hq.offset (by omega) (by omega)

/-- The entries that a walk visits are the next ones of the history. -/
theorem LogWindow.walkTo_read {n v off' : Nat} {visited : List Nat} (h : LogWindow log hist n v)
    (hE : EndsAt log (logPos log hist hist.length)) (hne : log.end_ ≠ log.len)
    (hoff : IsOffset log.len v off) (hw : WalkTo log off visited off') :
    visited.map (readEntry log.entries) = (hist.drop n).take visited.length := by
  induction hw generalizing n v with
  | refl off => rfl
  | found hget _ ih =>
    obtain ⟨w', hw'⟩ := h.placeAt hE hne hoff (.found hget (.refl _))
    exact ih (h.place hw') hw'.offset
  | rewind hget hfit _ ih =>
    obtain ⟨w', hw'⟩ := h.placeAt hE hne hoff (.rewind hget hfit (.refl _))
    exact ih (h.place hw') hw'.offset
  | @visit off found off' visited hget hfit hrest ih =>
    obtain ⟨e, he, hfound⟩ := h.of_getEntry hE hne hoff hget
    have hread : readEntry log.entries found = e := by
      rw [← hfound.fit_iff.mp hfit]
      exact hfound.read
    rw [List.map_cons, hread, ih (h.next he) (h.isOffset_next he hfound hfit), drop_eq_cons he,
      List.length_cons, List.take_succ_cons]

/-- Places with the same offset have the same number of entries before them. -/
theorem PlaceAt.count_eq {j v : Nat} (h : LogWindow log hist lo u)
    (hp : PlaceAt log hist u k w off) (hq : PlaceAt log hist u j v off) : k = j := by
  have hpos := hp.eq_of_offset h hq
  exact Nat.le_antisymm (hp.mark.le_of_le h.len_pos hq.mark hpos.le hp.count_le)
    (hq.mark.le_of_le h.len_pos hp.mark hpos.ge hq.count_le)

/-- Places are kept when the history gets longer. -/
theorem PlaceAt.append (hp : PlaceAt log hist u k w off) (es : List DareLogEntry)
    (hlen : 0 < log.len) : PlaceAt log (hist ++ es) u k w off := by
  refine ⟨hp.mark.append hp.count_le, hp.le, ?_, ?_, hp.offset⟩
  · have hold : logPos log (hist ++ es) hist.length = logPos log hist hist.length :=
      pos_append (le_refl _)
    have hmono : logPos log (hist ++ es) hist.length ≤
        logPos log (hist ++ es) (hist ++ es).length := pos_mono hlen (by simp)
    have hend := hp.le_end
    omega
  · have hcount := hp.count_le
    rw [List.length_append]
    omega

/-- A place that is not past the end of a shorter history is one of it. -/
theorem PlaceAt.of_append {es : List DareLogEntry} (hp : PlaceAt log (hist ++ es) u k w off)
    (hlen : 0 < log.len) (hend : w ≤ logPos log hist hist.length) : PlaceAt log hist u k w off := by
  have hold : logPos log (hist ++ es) hist.length = logPos log hist hist.length :=
    pos_append (le_refl _)
  have hk : k ≤ hist.length := by
    by_contra hcon
    have hlast : Mark entryFormat log.len (hist ++ es) hist.length
        (logPos log (hist ++ es) hist.length) := Mark.pos _
    have hcount := hp.count_le
    have hlt := hlast.lt hlen hp.mark (by omega) (by omega)
    omega
  have hmark := hp.mark.take hlen hk (show w ≤ logPos log (hist ++ es) hist.length by omega)
  rw [List.take_left] at hmark
  exact ⟨hmark, hp.le, hend, hk, hp.offset⟩

/-! ### One walk -/

/-- The header found at a place with an entry behind it is a place in front of that entry. -/
theorem LogWindow.placeAt_header (h : LogWindow log hist k w)
    (hE : EndsAt log (logPos log hist hist.length)) (hne : log.end_ ≠ log.len)
    (he : hist[k]? = some e) :
    ∃ P, w ≤ P ∧ PlaceAt log hist w k P (Lib.headerOffset entryFormat log.len w) := by
  have hmod : IsOffset log.len w (w % log.len) := isOffset_mod h.len_pos
  obtain ⟨entry, -, hfound⟩ := h.found hE hne hmod he
  obtain ⟨P, hP | hP, hoff⟩ := hfound.isOffset
  · rw [hfound.entry_eq, hP] at hoff
    exact ⟨w, le_refl w, h.mark, le_refl w, h.le_end, h.lo_le, hoff⟩
  · have hplace := h.at_place he
    have hle : w ≤ Lib.place log.len w e.size := le_place h.len_pos
    rw [hfound.entry_eq, hP] at hoff
    exact ⟨_, hle, hplace.mark, hle, hplace.le_end, hplace.lo_le, hoff⟩

/-- The last header found from a mark is the place in front of the last entry. -/
theorem LogWindow.lastHeader (h : LogWindow log hist k w)
    (hE : EndsAt log (logPos log hist hist.length)) (hne : log.end_ ≠ log.len)
    (hk : k < hist.length) : ∃ t P, (headerOffsets entryFormat log.len w (hist.drop k)).getLast? =
      some t ∧ t ≠ log.len ∧ PlaceAt log hist w (hist.length - 1) P t := by
  -- the mark the walk is at when it finds the last header
  obtain ⟨v, hwv, hwin, hadvance⟩ : ∃ v, w ≤ v ∧ LogWindow log hist (hist.length - 1) v ∧
      advance entryFormat log.len w ((hist.drop k).take (hist.length - 1 - k)) = v := by
    rcases Nat.lt_or_eq_of_le (show k ≤ hist.length - 1 by omega) with hlt | heq
    · have hv := h.mark.advance_take hlt h.size_le
      have hle : w ≤ logPos log hist (hist.length - 1) := by
        show w ≤ pos entryFormat log.len hist (hist.length - 1)
        rw [← hv]
        exact le_advance h.len_pos _
      exact ⟨_, hle, Window.advance h (Mark.pos _) (by omega) hle
        (pos_mono h.len_pos (by omega)), hv⟩
    · refine ⟨w, le_refl w, by rw [← heq]; exact h, ?_⟩
      rw [heq, Nat.sub_self, List.take_zero]
      rfl
  have hlt : hist.length - 1 < hist.length := by omega
  have hlast : hist[hist.length - 1]? = some hist[hist.length - 1] := List.getElem?_eq_getElem hlt
  obtain ⟨P, hvP, hP⟩ := hwin.placeAt_header hE hne hlast
  refine ⟨_, P, ?_, ?_, hP.mark, by omega, hP.le_end, hP.count_le, hP.offset⟩
  · have hrest : (hist.drop k).drop (hist.length - 1 - k) = [hist[hist.length - 1]] := by
      rw [List.drop_drop, Nat.add_sub_cancel' (by omega), drop_eq_cons hlast,
        List.drop_of_length_le (by omega)]
    rw [← List.take_append_drop (hist.length - 1 - k) (hist.drop k), headerOffsets_append,
      hadvance, hrest, List.getLast?_append, headerOffsets, headerOffsets,
      List.getLast?_singleton, Option.some_or]
  · have hfit := headerOffset_add_le hE.entrySize_le_len v
    simp only [ENTRY_SIZE] at hfit
    omega

/-- A walk over the headers behind a place ends, and its last header, if it finds one, is the
    place in front of the last entry. -/
theorem PlaceAt.searchTail (h : LogWindow log hist lo u) (hp : PlaceAt log hist u k w off)
    (hE : EndsAt log (logPos log hist hist.length)) (hne : log.end_ ≠ log.len) :
    ∃ visited stop, headerWalk log (walkFuel log) off = some (visited, stop) ∧
      ((visited = [] ∧ k = hist.length) ∨ ∃ t P, visited.getLast? = some t ∧ t ≠ log.len ∧
        0 < hist.length ∧ PlaceAt log hist u (hist.length - 1) P t) := by
  have hwin := h.place hp
  have hc := hwin.cursor hp.offset
  have hfuel := hc.fuel hE
  obtain ⟨stop, hwalk, -⟩ :=
    hc.headerWalk hE hne (show (hist.drop k).length + 1 ≤ walkFuel log by omega)
  refine ⟨_, stop, hwalk, ?_⟩
  rcases Nat.lt_or_eq_of_le hp.count_le with hk | hk
  · obtain ⟨t, P, ht, htne, hP⟩ := hwin.lastHeader hE hne hk
    exact .inr ⟨t, P, ht, htne, by omega, hP.mark, le_trans hp.le hP.le, hP.le_end, hP.count_le,
      hP.offset⟩
  · left
    rw [hk, List.drop_length]
    exact ⟨rfl, rfl⟩

/-! ### The three walks -/

/-- The tail is not known, or is the place in front of the last entry. -/
def TailAt (log : DareLog) (hist : List DareLogEntry) (u : Nat) : Prop :=
  log.tail = log.len ∨
    ∃ k P, hist.length = k + 1 ∧ log.tail ≠ log.len ∧ PlaceAt log hist u k P log.tail

/-- The tail does not depend on the rest of the log. -/
theorem TailAt.of_eq (h : TailAt log hist u) (hlen : log'.len = log.len)
    (htail : log'.tail = log.tail) : TailAt log' hist u := by
  rcases h with hnone | ⟨k, P, hk, htne, hP⟩
  · exact .inl (by rw [htail, hlen]; exact hnone)
  · refine .inr ⟨k, P, hk, by rw [htail, hlen]; exact htne, ?_⟩
    rw [htail]
    exact hP.of_len hlen

/-- The tail is not known, or is where the last entry is. -/
def TailExact (log : DareLog) (hist : List DareLogEntry) : Prop :=
  log.tail = log.len ∨ ∃ w e, hist.getLast? = some e ∧
    Mark entryFormat log.len hist (hist.length - 1) w ∧ place log.len w e.size = w ∧
      log.tail = w % log.len

/-- The place where the last entry is. -/
theorem LogWindow.lastPlace (h : LogWindow log hist lo u) (hlo : lo < hist.length)
    (hlast : hist.getLast? = some e) (hmark : Mark entryFormat log.len hist (hist.length - 1) w)
    (hplace : Lib.place log.len w e.size = w) :
    PlaceAt log hist u (hist.length - 1) w (w % log.len) ∧
      ∀ v, Mark entryFormat log.len hist (hist.length - 1) v → v ≤ w := by
  have hget : hist[hist.length - 1]? = some e := by
    rw [← List.getLast?_eq_getElem?]
    exact hlast
  have hsize : e.size ≤ log.len := h.size_le e (List.mem_of_getElem? hget)
  have hlen := h.len_pos
  -- every mark in front of the entry has the same place
  have hw : ∀ v, Mark entryFormat log.len hist (hist.length - 1) v →
      Lib.place log.len v e.size = w := fun v hv =>
    ((hv.place_eq hget hsize).trans (hmark.place_eq hget hsize).symm).trans hplace
  have hle : ∀ v, Mark entryFormat log.len hist (hist.length - 1) v → v ≤ w := by
    intro v hv
    rw [← hw v hv]
    exact le_place hlen
  refine ⟨⟨hmark, ?_, ?_, by omega, isOffset_mod hlen⟩, hle⟩
  · rcases Nat.lt_or_ge lo (hist.length - 1) with hlt | hge
    · exact (h.mark.lt hlen hmark hlt hlo).le
    · have heq : lo = hist.length - 1 := by omega
      exact hle u (heq ▸ h.mark)
  · have hstep : logPos log hist (hist.length - 1 + 1) = _ := pos_succ hget
    have hpos := hw _ (Mark.pos _)
    rw [Nat.sub_add_cancel (by omega), entryFormat_size, hpos] at hstep
    omega

/-- After an append the tail is where the new entry was put. -/
theorem Appended.tailExact (happ : Appended log (logPos log hist hist.length) e log') :
    TailExact log' (hist ++ [e]) := by
  refine .inr ⟨place log.len (logPos log hist hist.length) e.size, e, by simp, ?_, ?_, ?_⟩
  · rw [happ.len, List.length_append, List.length_singleton, Nat.add_sub_cancel]
    refine .inr ⟨e, by simp, ?_⟩
    rw [pos_append (le_refl _), entryFormat_size]
  · rw [happ.len]
    exact place_place happ.inPlace.size_le
  · rw [happ.tail, happ.len]

/-- Such a tail is a place of the window. -/
theorem TailExact.tailAt (ht : TailExact log hist) (h : LogWindow log hist lo u)
    (hlo : lo < hist.length) : TailAt log hist u := by
  rcases ht with hnone | ⟨w, e, hlast, hmark, hplace, htail⟩
  · exact .inl hnone
  · have hmod := Nat.mod_lt w h.len_pos
    refine .inr ⟨hist.length - 1, w, by omega, by omega, ?_⟩
    rw [htail]
    exact (h.lastPlace hlo hlast hmark hplace).1

/-- The tail the search finds: only in a log whose entries are all pruned it finds none. -/
def TailFound (log : DareLog) (hist : List DareLogEntry) (lo u t : Nat) : Prop :=
  (t = log.len ∧ hist.length ≤ lo) ∨
    ∃ k P, hist.length = k + 1 ∧ t ≠ log.len ∧ PlaceAt log hist u k P t

/-- The search ends, and finds the last entry unless every entry is pruned. -/
theorem logGetTail_spec {kc wc ka wa : Nat} (h : LogWindow log hist lo u)
    (hE : EndsAt log (logPos log hist hist.length)) (hne : log.end_ ≠ log.len)
    (hhead : IsOffset log.len u log.head) (htail : log.tail = log.len)
    (hcommit : PlaceAt log hist u kc wc log.commit) (happly : PlaceAt log hist u ka wa log.apply) :
    ∃ t, logGetTail log = some t ∧ TailFound log hist lo u t := by
  have hempty : isLogEmpty log = false := by simp [isLogEmpty, hne]
  have hstart : PlaceAt log hist u lo u log.head := ⟨h.mark, le_refl u, h.le_end, h.lo_le, hhead⟩
  obtain ⟨vc, stopC, hwalkC, hC⟩ := hcommit.searchTail h hE hne
  obtain ⟨va, stopA, hwalkA, hA⟩ := happly.searchTail h hE hne
  obtain ⟨vh, stopH, hwalkH, hH⟩ := hstart.searchTail h hE hne
  have hfound : ∀ {t P : Nat}, t ≠ log.len → 0 < hist.length →
      PlaceAt log hist u (hist.length - 1) P t → TailFound log hist lo u t :=
    fun ht hpos hP => .inr ⟨_, _, by omega, ht, hP⟩
  unfold logGetTail
  simp only [htail, ne_eq, not_true_eq_false, if_false, hempty, Bool.false_eq_true, hwalkC, hwalkA,
    hwalkH, Option.bind_eq_bind, Option.bind_some]
  rcases hC with ⟨rfl, -⟩ | ⟨t, P, ht, htne, hpos, hP⟩
  · rcases hA with ⟨rfl, -⟩ | ⟨t, P, ht, htne, hpos, hP⟩
    · rcases hH with ⟨rfl, hlo⟩ | ⟨t, P, ht, htne, hpos, hP⟩
      · exact ⟨log.len, rfl, .inl ⟨rfl, hlo.ge⟩⟩
      · exact ⟨t, by simp [ht], hfound htne hpos hP⟩
    · exact ⟨t, by simp [ht], hfound htne hpos hP⟩
  · exact ⟨t, by simp [ht], hfound htne hpos hP⟩

/-- The tail is cached, or found. -/
theorem logCacheTail_spec {kc wc ka wa : Nat} (h : LogWindow log hist lo u)
    (hE : EndsAt log (logPos log hist hist.length)) (hne : log.end_ ≠ log.len)
    (hhead : IsOffset log.len u log.head) (htail : TailAt log hist u)
    (hcommit : PlaceAt log hist u kc wc log.commit) (happly : PlaceAt log hist u ka wa log.apply) :
    ∃ t, logCacheTail log = some { log with tail := t } ∧ TailFound log hist lo u t := by
  rcases htail with htail | ⟨k, P, hk, htne, hP⟩
  · obtain ⟨t, ht, hfound⟩ := logGetTail_spec h hE hne hhead htail hcommit happly
    exact ⟨t, by rw [logCacheTail, if_pos htail, ht, Option.map_some], hfound⟩
  · exact ⟨log.tail, by rw [logCacheTail, if_neg htne], .inr ⟨k, P, hk, htne, hP⟩⟩

/-! ### Append -/

variable {term reqId idx : UInt64} {cltId : UInt16} {type : UInt8} {data : EntryData}

/-- A log with an entry does not count as full. -/
theorem LogWindow.end_ne_head (h : LogWindow log hist lo u)
    (hE : EndsAt log (logPos log hist hist.length)) (hhead : IsOffset log.len u log.head)
    (hlo : lo < hist.length) : log.end_ ≠ log.head := by
  intro heq
  have hwindow : logPos log hist hist.length < u + log.len := h.window
  have hle : u ≤ logPos log hist hist.length := h.le_end
  have hend := hE.offset
  rw [heq] at hend
  have hu : u = logPos log hist hist.length := hhead.eq_of_lt hend (by omega) (by omega)
  have hpos : Mark entryFormat log.len hist hist.length (logPos log hist hist.length) :=
    Mark.pos _
  have hlt := h.mark.lt h.len_pos hpos hlo hlo
  omega

/-- A log whose entries are all pruned counts as full, one with an entry does not. -/
theorem isLogFull_iff (h : LogWindow log hist lo u)
    (hE : EndsAt log (logPos log hist hist.length)) (hne : log.end_ ≠ log.len)
    (hhead : IsOffset log.len u log.head) (hhead_ne : log.head ≠ log.len) :
    log.end_ = log.head ↔ hist.length ≤ lo := by
  have hle : u ≤ logPos log hist hist.length := h.le_end
  constructor
  · intro heq
    by_contra hcon
    exact h.end_ne_head hE hhead (Nat.lt_of_not_le hcon) heq
  · intro hlen
    have hlo : lo = hist.length := le_antisymm h.lo_le hlen
    have hu : u = logPos log hist hist.length := by
      have hmark := h.mark.pos_le h.len_pos
      rw [hlo] at hmark
      exact le_antisymm hle hmark
    rw [← hu] at hE
    rcases hhead.cases h.len_pos with h1 | ⟨h1, -⟩
    · rcases hE.offset.cases h.len_pos with h2 | ⟨h2, -⟩
      · rw [h1, h2]
      · exact absurd h2 hne
    · exact absurd h1 hhead_ne

/-- An append first caches the tail. -/
theorem logAppendEntry_of_cacheTail
    (h : logCacheTail { log with
      prevLogEntryHead := if type ≠ HEAD then false else log.prevLogEntryHead } =
        some { log with
          prevLogEntryHead := if type ≠ HEAD then false else log.prevLogEntryHead, tail := t }) :
    logAppendEntry log term reqId cltId type data =
      some (logCreateEntry { log with
          prevLogEntryHead := if type ≠ HEAD then false else log.prevLogEntryHead, tail := t }
        (logNewIdx { log with tail := t }) term reqId cltId type data) := by
  by_cases htype : type ≠ HEAD
  · simp only [if_pos htype] at h
    simp only [logAppendEntry, if_pos htype, h, Option.bind_eq_bind, Option.bind_some]
    rfl
  · simp only [if_neg htype] at h
    simp only [logAppendEntry, if_neg htype]
    have hsame : { log with prevLogEntryHead := log.prevLogEntryHead } = log := rfl
    rw [hsame] at h
    simp only [h, Option.bind_eq_bind, Option.bind_some]
    rfl

/-- The search for the tail does not look at the flag of a double HEAD. -/
theorem logCacheTail_flag {kc wc ka wa : Nat} (b : Bool) (h : LogWindow log hist lo u)
    (hE : EndsAt log (logPos log hist hist.length)) (hne : log.end_ ≠ log.len)
    (hhead : IsOffset log.len u log.head) (htail : TailAt log hist u)
    (hcommit : PlaceAt log hist u kc wc log.commit) (happly : PlaceAt log hist u ka wa log.apply) :
    ∃ t, logCacheTail { log with prevLogEntryHead := b } =
      some { log with prevLogEntryHead := b, tail := t } ∧ TailFound log hist lo u t := by
  have hb : LogWindow { log with prevLogEntryHead := b } hist lo u := h
  have htailb : TailAt { log with prevLogEntryHead := b } hist u := htail.of_eq rfl rfl
  obtain ⟨t, ht, hfound⟩ := logCacheTail_spec hb ⟨hE.1, hE.2⟩ hne hhead htailb
    (hcommit.of_len rfl) (happly.of_len rfl)
  refine ⟨t, ht, ?_⟩
  rcases hfound with hnone | ⟨k, P, hk, htne, hP⟩
  · exact .inl hnone
  · exact .inr ⟨k, P, hk, htne, hP.of_len rfl⟩

/-- What an append does to a log with an entry: the new one gets the index after the last one. -/
theorem logAppendEntry_appended {kc wc ka wa : Nat} (term reqId : UInt64) (cltId : UInt16)
    (h : LogWindow log hist lo u) (hE : EndsAt log (logPos log hist hist.length))
    (hne : log.end_ ≠ log.len) (hhead : IsOffset log.len u log.head) (hlo : lo < hist.length)
    (htail : TailAt log hist u) (hcommit : PlaceAt log hist u kc wc log.commit)
    (happly : PlaceAt log hist u ka wa log.apply) (hroom : AppendRoom log type data) :
    ∃ log' last, hist.getLast? = some last ∧
      logAppendEntry log term reqId cltId type data = some (log', last.idx + 1) ∧
      Appended log (logPos log hist hist.length)
        (mkEntry (last.idx + 1) term reqId cltId type data) log' := by
  obtain ⟨t, ht, hfound⟩ := logCacheTail_flag
    (if type ≠ HEAD then false else log.prevLogEntryHead) h hE hne hhead htail hcommit happly
  have happend : logAppendEntry log term reqId cltId type data = _ :=
    logAppendEntry_of_cacheTail ht
  -- a tail is found, as there are entries
  rcases hfound with ⟨-, hcon⟩ | ⟨k, P, hk, htne, hP⟩
  · exact absurd hlo (Nat.not_lt.mpr hcon)
  · have hk' : k < hist.length := by omega
    have hlast : hist[k]? = some hist[k] := List.getElem?_eq_getElem hk'
    have hknown : TailKnown { log with tail := t } := .inl htne
    obtain ⟨log', hspec, happ⟩ := logAppendEntry_spec term reqId cltId hknown ⟨hE.1, hE.2⟩ hhead
      h.le_end h.window (h.end_ne_head hE hhead hlo) hroom
    rw [logAppendEntry_eq hknown, Option.some.injEq] at hspec
    have hc := (h.place hP).cursor hP.offset
    rw [drop_eq_cons hlast] at hc
    have hidx : logNewIdx { log with tail := t } = hist[k].idx + 1 :=
      logNewIdx_eq ⟨hE.1, hE.2⟩ hne ⟨hc.1, hc.2, hc.3, hc.4⟩
    rw [hidx] at hspec happ happend
    refine ⟨log', hist[k], ?_, ?_, ?_⟩
    · simp only [List.getLast?_eq_getElem?, hk, Nat.add_sub_cancel]
      exact hlast
    · rw [happend]
      exact congrArg some hspec
    · exact ⟨happ.head, happ.apply, happ.commit, happ.oldEnd, happ.len, happ.tail, happ.end_,
        happ.inPlace, happ.noReply, happ.frame⟩

/-- What an append does to a log that was appended to before: nothing if every entry is pruned,
    else the new entry gets the index after the last one. -/
theorem logAppendEntry_searched {kc wc ka wa : Nat} {r : DareLog × UInt64}
    (h : LogWindow log hist lo u) (hE : EndsAt log (logPos log hist hist.length))
    (hne : log.end_ ≠ log.len) (hhead : IsOffset log.len u log.head)
    (hhead_ne : log.head ≠ log.len) (htail : TailAt log hist u)
    (hcommit : PlaceAt log hist u kc wc log.commit) (happly : PlaceAt log hist u ka wa log.apply)
    (hroom : AppendRoom log type data)
    (happend : logAppendEntry log term reqId cltId type data = some r) :
    (log.end_ = log.head ∧ ∃ b, r.1 = { log with prevLogEntryHead := b, tail := log.len }) ∨
      (log.end_ ≠ log.head ∧ ∃ last, hist.getLast? = some last ∧ r.2 = last.idx + 1 ∧
        Appended log (logPos log hist hist.length)
          (mkEntry (last.idx + 1) term reqId cltId type data) r.1) := by
  rcases Nat.lt_or_ge lo hist.length with hlo | hlo
  · right
    obtain ⟨log', last, hlast, hspec, happ⟩ := logAppendEntry_appended term reqId cltId h hE hne
      hhead hlo htail hcommit happly hroom
    obtain rfl := Option.some.inj (happend.symm.trans hspec)
    exact ⟨h.end_ne_head hE hhead hlo, last, hlast, rfl, happ⟩
  · left
    have hend := (isLogFull_iff h hE hne hhead hhead_ne).mpr hlo
    obtain ⟨t, ht, hfound⟩ := logCacheTail_flag
      (if type ≠ HEAD then false else log.prevLogEntryHead) h hE hne hhead htail hcommit happly
    rw [logAppendEntry_of_cacheTail ht] at happend
    obtain rfl := Option.some.inj happend
    rcases hfound with ⟨rfl, -⟩ | ⟨k, P, hk, htne, hP⟩
    · refine ⟨hend, if type ≠ HEAD then false else log.prevLogEntryHead, ?_⟩
      simp only [logCreateEntry, logAddNewEntry, isLogFull, hend, beq_self_eq_true, if_true]
    · exact absurd (hP.mark.lt h.len_pos h.mark (by omega) (by omega)) (Nat.not_lt.mpr hP.le)

end Apus
