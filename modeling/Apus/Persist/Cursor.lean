import Apus.Persist.Model

namespace Apus

open Lib

/-!
# One call of `persist_new_entries`

From a place of the window, the loop visits the entries behind that place, each once and in order,
and stops at the end (`persistNewEntries_spec`).  The bytes it sets are bookkeeping bytes of the
visited entries, so the window is still there afterwards.
-/

variable {log log' : DareLog} {hist : List DareLogEntry} {lo u n w idx fuel entry : Nat}
  {isLeader : Bool} {e : DareLogEntry} {visits : List Visit}

/-- The log after the entries behind the first `n` were visited. -/
structure Persisted (log : DareLog) (hist : List DareLogEntry) (lo u n : Nat) (log' : DareLog)
    (visits : List Visit) : Prop where
  window : LogWindow log' hist lo u
  frame : log' = { log with oldEnd := log'.oldEnd, entries := log'.entries }
  offset : IsOffset log.len (logPos log hist hist.length) log'.oldEnd
  keys : visits.map (fun v => detKey v.det) = (hist.drop n).map entryKey
  offsets : visits.map (fun v => v.det.offset) =
    Lib.offsets entryFormat log.len (logPos log hist n) (hist.drop n)
  replies : ∀ v ∈ visits, v.InReplyArray

/-- The body of the loop sets a bookkeeping byte of the entry. -/
theorem persistEntry_spec (idx : Nat) (isLeader : Bool) (h : LogWindow log hist lo u)
    (ho : entry ∈ Lib.offsets entryFormat log.len u (hist.drop lo)) (hidx : idx < MAX_SERVER_COUNT) :
    let r := persistEntry idx isLeader { log with oldEnd := entry } entry
    LogWindow r.1 hist lo u ∧ r.1 = { log with oldEnd := entry, entries := r.1.entries } ∧
      r.2.det = entryDet log.entries entry ∧ r.2.InReplyArray := by
  intro r
  cases isLeader with
  | true =>
    refine ⟨h.setU8 ho isBookkeeping_sender, rfl, rfl, ?_⟩
    intro w hw
    cases hw
  | false =>
    have haddr : REPLY_OFF + idx + entry = entry + (REPLY_OFF + idx) := Nat.add_comm _ _
    refine ⟨?_, rfl, rfl, ?_⟩
    · show Window entryFormat (setU8 log.entries (REPLY_OFF + idx + entry) 1) log.len hist lo u
      rw [haddr]
      exact h.setU8 ho (isBookkeeping_reply hidx)
    · intro w hw
      obtain rfl : (⟨getU8 log.entries (entry + SENDER_OFF), REPLY_OFF + idx + entry⟩ : ReplyWrite) =
        w := Option.some.inj hw
      show entry + REPLY_OFF ≤ REPLY_OFF + idx + entry ∧ _ < entry + REPLY_OFF + MAX_SERVER_COUNT
      simp only
      omega

/-- The determinant of the entry at a place is that of the history. -/
theorem detKey_entryDet (h : LogWindow log hist n w) (he : hist[n]? = some e)
    (hentry : place log.len w e.size % log.len = entry) :
    detKey (entryDet log.entries entry) = entryKey e := by
  have hc := h.cursor (isOffset_mod h.len_pos)
  rw [drop_eq_cons he] at hc
  have hread := hc.read
  rw [hentry] at hread
  rw [← hread]
  rfl

/-- The guard of the loop compares positions. -/
theorem persistGuard_iff (h : LogWindow log hist lo u)
    (hE : EndsAt log (logPos log hist hist.length)) (hne : log.end_ ≠ log.len)
    (hp : PlaceAt log hist u n w log.oldEnd) :
    logIsOffsetLarger log log.end_ log.oldEnd = true ↔ w < logPos log hist hist.length := by
  have hwindow : logPos log hist hist.length < u + log.len := h.window
  have hle := hp.le
  have hpos := h.len_pos
  exact logIsOffsetLarger_iff_lt hE hne hE.offset hp.offset (le_refl _) hp.le_end (by omega)
    (by omega)

/-- With nothing behind the cursor the loop does nothing. -/
theorem persistNewEntries_end (h : LogWindow log hist lo u)
    (hE : EndsAt log (logPos log hist hist.length)) (hne : log.end_ ≠ log.len)
    (hp : PlaceAt log hist u hist.length w log.oldEnd) :
    persistNewEntries idx isLeader (fuel + 1) log = some (log, []) := by
  have hw : w = logPos log hist hist.length :=
    le_antisymm hp.le_end (hp.mark.pos_le h.len_pos)
  have hguard : logIsOffsetLarger log log.end_ log.oldEnd = false := by
    rw [Bool.eq_false_iff]
    intro hcon
    have hlt := (persistGuard_iff h hE hne hp).mp hcon
    omega
  rw [persistNewEntries, hguard]
  rfl

/-- An entry where the cursor finds it is visited, and the loop goes on behind it. -/
theorem persistNewEntries_visit (h : LogWindow log hist lo u)
    (hE : EndsAt log (logPos log hist hist.length)) (hne : log.end_ ≠ log.len) (hlo : lo ≤ n)
    (hidx : idx < MAX_SERVER_COUNT) (hp : PlaceAt log hist u n w log.oldEnd)
    (he : hist[n]? = some e) (hget : logGetEntry log log.oldEnd = some entry)
    (hfound : Found log w entry e) (hfit : logFitEntry log entry entry = true)
    (hrest : ∀ log1 : DareLog, LogWindow log1 hist lo u →
      log1 = { log with oldEnd := log1.oldEnd, entries := log1.entries } →
      IsOffset log.len (logPos log hist (n + 1)) log1.oldEnd →
      ∃ log' visits, persistNewEntries idx isLeader fuel log1 = some (log', visits) ∧
        Persisted log1 hist lo u (n + 1) log' visits) :
    ∃ log' visits, persistNewEntries idx isLeader (fuel + 1) log = some (log', visits) ∧
      Persisted log hist lo u n log' visits := by
  have hwin := h.place hp
  have hplace := hfound.fit_iff.mp hfit
  have hlt : w < logPos log hist hist.length := by
    have hc := hwin.cursor hp.offset
    rw [drop_eq_cons he] at hc
    exact hc.lt_end hE
  have hguard := (persistGuard_iff h hE hne hp).mpr hlt
  -- the entry is one of the window
  have hmem : entry ∈ Lib.offsets entryFormat log.len u (hist.drop lo) := by
    obtain ⟨os, hos⟩ := Window.offsets_drop h hlo hp.mark
    rw [hos, drop_eq_cons he, Lib.offsets, entryFormat_size, hplace]
    exact List.mem_append_right _ List.mem_cons_self
  obtain ⟨hwin1, hframe1, hdet, hreply⟩ := persistEntry_spec idx isLeader h hmem hidx
  generalize hr : persistEntry idx isLeader { log with oldEnd := entry } entry = r at *
  have hlen1 : r.1.len = log.len := by rw [hframe1]
  have hcur1 : r.1.oldEnd = entry := by rw [hframe1]
  -- the byte that was set does not change the length of the entry
  have hsize1 : logEntryLen r.1.entries entry = e.size := by
    have hc := (hwin1.place (hp.of_len hlen1)).cursor (isOffset_mod hwin1.len_pos)
    rw [drop_eq_cons he] at hc
    have hread := hc.read
    rw [hlen1, hplace] at hread
    rw [← readEntry_size, hread]
  have hoff := hwin.isOffset_next he hfound hfit
  rw [hfound.length] at hoff
  obtain ⟨log', visits, hloop, hdone⟩ :=
    hrest { r.1 with oldEnd := r.1.oldEnd + logEntryLen r.1.entries entry } hwin1
      (by rw [hframe1]) (by rw [hcur1, hsize1]; exact hoff)
  refine ⟨log', r.2 :: visits, ?_, ?_⟩
  · rw [persistNewEntries, if_pos hguard, hget]
    have hfit' : logFitEntry { log with oldEnd := entry } entry entry = true := hfit
    simp only [hfit', Bool.not_true, Bool.false_eq_true, if_false, hr, hloop, Option.map_some]
  · refine ⟨hdone.window, ?_, ?_, ?_, ?_, ?_⟩
    · rw [hdone.frame, hframe1]
    · have hoffset := hdone.offset
      simp only [logPos, hlen1] at hoffset
      exact hoffset
    · rw [List.map_cons, hdone.keys, drop_eq_cons he, List.map_cons, hdet,
        detKey_entryDet hwin he hplace]
    · have hsame := hdone.offsets
      simp only [logPos, hlen1] at hsame
      have hhead : r.2.det.offset = entry := by rw [hdet]; rfl
      have hpos := hp.mark.place_eq he hfound.size_le
      rw [entryFormat_size] at hpos
      rw [List.map_cons, hsame, drop_eq_cons he, Lib.offsets, entryFormat_size, logPos, ← hpos,
        hplace, hhead, pos_succ he, entryFormat_size, ← hpos]
    · intro v hv
      rcases List.mem_cons.mp hv with rfl | hv
      · exact hreply
      · exact hdone.replies v hv

/-- **One call**: from a place of the window the loop visits the entries behind it, and ends. -/
theorem persistNewEntries_spec (isLeader : Bool) (h : LogWindow log hist lo u)
    (hE : EndsAt log (logPos log hist hist.length)) (hne : log.end_ ≠ log.len) (hlo : lo ≤ n)
    (hidx : idx < MAX_SERVER_COUNT) (hp : PlaceAt log hist u n w log.oldEnd)
    (hfuel : 2 * (hist.length - n) + 1 ≤ fuel) :
    ∃ log' visits, persistNewEntries idx isLeader fuel log = some (log', visits) ∧
      Persisted log hist lo u n log' visits := by
  -- induction on the number of entries behind the cursor
  obtain ⟨d, hd⟩ : ∃ d, hist.length = n + d := ⟨hist.length - n, by have := hp.count_le; omega⟩
  induction d generalizing log n w fuel with
  | zero =>
    obtain rfl : n = hist.length := by omega
    obtain ⟨fuel, rfl⟩ : ∃ f, fuel = f + 1 := ⟨fuel - 1, by omega⟩
    have hoff := hp.offset
    rw [le_antisymm hp.le_end (hp.mark.pos_le h.len_pos)] at hoff
    refine ⟨log, [], persistNewEntries_end h hE hne hp, h, rfl, hoff, ?_, ?_, by simp⟩
    · rw [List.drop_length]; rfl
    · rw [List.drop_length]; rfl
  | succ d ih =>
    have he : hist[n]? = some hist[n] := List.getElem?_eq_getElem (by omega)
    have hwin := h.place hp
    obtain ⟨entry, hget, hfound⟩ := hwin.found hE hne hp.offset he
    obtain ⟨fuel, rfl⟩ : ∃ f, fuel = f + 2 := ⟨fuel - 2, by omega⟩
    have hrest : ∀ f, 2 * d + 1 ≤ f → ∀ log1 : DareLog, LogWindow log1 hist lo u →
        log1.len = log.len → log1.end_ = log.end_ →
        IsOffset log.len (logPos log hist (n + 1)) log1.oldEnd →
        ∃ log' visits, persistNewEntries idx isLeader f log1 = some (log', visits) ∧
          Persisted log1 hist lo u (n + 1) log' visits := by
      intro f hf log1 hwin1 hlen1 hend1 hoff1
      have hE1 : EndsAt log1 (logPos log1 hist hist.length) := by
        refine ⟨by rw [hlen1]; exact hE.1, ?_⟩
        simp only [logPos, hlen1, hend1]
        exact hE.2
      obtain ⟨hle, hstep⟩ := hwin.place_add_le he
      have hplace : w ≤ place log.len w hist[n].size := le_place h.len_pos
      have hp1 : PlaceAt log hist u (n + 1) (logPos log hist (n + 1)) log1.oldEnd :=
        ⟨Mark.pos _, by have := hp.le; omega, by omega, by omega, hoff1⟩
      exact ih hwin1 hE1 (by rw [hend1, hlen1]; exact hne) (by omega) (hp1.of_len hlen1) (by omega)
        (by omega)
    by_cases hfit : logFitEntry log entry entry = true
    · refine persistNewEntries_visit h hE hne hlo hidx hp he hget hfound hfit ?_
      intro log1 hwin1 hframe1 hoff1
      exact hrest (fuel + 1) (by omega) log1 hwin1 (by rw [hframe1]) (by rw [hframe1]) hoff1
    · -- the entry is at offset `0`, where the next round finds it
      have hzero := hfound.rewind (Bool.eq_false_iff.mpr hfit)
      have hplace := hwin.at_place he
      have hle : w ≤ place log.len w hist[n].size := le_place h.len_pos
      have hp0 : PlaceAt log hist u n (place log.len w hist[n].size) 0 :=
        ⟨hplace.mark, le_trans hp.le hle, hplace.le_end, hplace.lo_le, Nat.zero_le _,
          by rw [hzero, Nat.zero_mod]⟩
      have hE0 : EndsAt { log with oldEnd := 0 } (logPos log hist hist.length) := ⟨hE.1, hE.2⟩
      have hwin0 : LogWindow { log with oldEnd := 0 } hist n (place log.len w hist[n].size) := hplace
      obtain ⟨entry0, hget0, hfound0⟩ := hwin0.found hE0 hne hp0.offset he
      have hfit0 : logFitEntry { log with oldEnd := 0 } entry0 entry0 = true := by
        rw [hfound0.fit_iff, hfound0.entry_eq]
        show place log.len (place log.len w hist[n].size) hist[n].size % log.len =
          Lib.headerOffset entryFormat log.len (place log.len w hist[n].size)
        rw [place_place hfound.size_le, Lib.headerOffset, hzero, entryFormat_hdr,
          if_pos (by rw [Nat.zero_add]; exact hE.1)]
      obtain ⟨log', visits, hloop, hdone⟩ := persistNewEntries_visit
        (show LogWindow { log with oldEnd := 0 } hist lo u from h) hE0 hne hlo hidx
        (hp0.of_len rfl) he hget0 hfound0 hfit0 fun log1 hwin1 hframe1 hoff1 =>
          hrest fuel (by omega) log1 hwin1 (by rw [hframe1]) (by rw [hframe1]) hoff1
      refine ⟨log', visits, ?_, hdone.window, hdone.frame, hdone.offset, hdone.keys, hdone.offsets,
        hdone.replies⟩
      have hguard : logIsOffsetLarger log log.end_ log.oldEnd = true := by
        have hc := hwin.cursor hp.offset
        rw [drop_eq_cons he] at hc
        exact (persistGuard_iff h hE hne hp).mpr (hc.lt_end hE)
      have hfit' : logFitEntry { log with oldEnd := entry } entry entry = false :=
        Bool.eq_false_iff.mpr hfit
      rw [persistNewEntries, if_pos hguard, hget]
      simp only [hfit', Bool.not_false, if_true]
      exact hloop

end Apus
