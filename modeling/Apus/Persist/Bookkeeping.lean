import Apus.Persist.Safety

namespace Apus

open Lib

/-!
# Bookkeeping bytes of the entries

The sender and the replies of an entry are written apart from the entry.  They are found at the offset of
the entry (`entryOff`), which an entry has for as long as it is in the history: these are the lemmas on
what the steps of a server do to them.

* `entryOff_apart` — the headers of two entries in the window do not overlap;
* `Appended.tag`, `tag_ringCopy_old`, `tag_ringCopy_new` — an append and a log update;
* `persistNewEntries_entries` — the bytes set by `persist_new_entries`.
-/

variable {log log' : DareLog} {hist es : List DareLogEntry} {lo u j k n d : Nat} {e : DareLogEntry}

/-- The offset of the `k`-th entry. -/
def entryOff (log : DareLog) (hist : List DareLogEntry) (k : Nat) : Nat :=
  (hist[k]?.map fun e => place log.len (logPos log hist k) e.size % log.len).getD 0

/-- The byte at `d` in the `k`-th entry. -/
def tag (log : DareLog) (hist : List DareLogEntry) (k d : Nat) : UInt8 :=
  getU8 log.entries (entryOff log hist k + d)

theorem entryOff_eq (he : hist[k]? = some e) :
    entryOff log hist k = place log.len (logPos log hist k) e.size % log.len := by
  rw [entryOff, he]
  rfl

theorem entryOff_of_len (hlen : log'.len = log.len) : entryOff log' hist k = entryOff log hist k := by
  simp only [entryOff, logPos, hlen]

/-- An entry stays where it is when others are added. -/
theorem entryOff_append (hk : k < hist.length) :
    entryOff log (hist ++ es) k = entryOff log hist k := by
  simp only [entryOff, logPos, List.getElem?_append_left hk, pos_append hk.le]

theorem entryOff_take (hk : k < n) : entryOff log (hist.take n) k = entryOff log hist k := by
  simp only [entryOff, logPos, List.getElem?_take_of_lt hk, pos_take hk.le]

theorem tag_of_eq (hlen : log'.len = log.len) (hentries : log'.entries = log.entries) :
    tag log' hist k d = tag log hist k d := by
  rw [tag, tag, entryOff_of_len hlen, hentries]

theorem tag_append (hk : k < hist.length) : tag log (hist ++ es) k d = tag log hist k d := by
  rw [tag, tag, entryOff_append hk]

theorem tag_take (hk : k < n) : tag log (hist.take n) k d = tag log hist k d := by
  rw [tag, tag, entryOff_take hk]

/-! ### Positions -/

/-- The entry is at a position of the window, in one piece. -/
theorem LogWindow.position (h : LogWindow log hist lo u) (hlo : lo ≤ k) (he : hist[k]? = some e) :
    u ≤ Lib.place log.len (logPos log hist k) e.size ∧
      Lib.place log.len (logPos log hist k) e.size + e.size = logPos log hist (k + 1) ∧
      logPos log hist (k + 1) ≤ logPos log hist hist.length ∧
      Lib.place log.len (logPos log hist k) e.size % log.len + e.size ≤ log.len := by
  obtain ⟨hk, -⟩ := List.getElem?_eq_some_iff.mp he
  have hlen := h.len_pos
  have hsize : e.size ≤ log.len := h.size_le e (List.mem_of_getElem? he)
  have hnext : logPos log hist (k + 1) = Lib.place log.len (logPos log hist k) e.size + e.size :=
    pos_succ he
  refine ⟨?_, hnext.symm, pos_mono hlen hk, place_mod_add_le hsize⟩
  rcases Nat.lt_or_eq_of_le hlo with hlt | rfl
  · -- the window starts before the place behind the first of its entries
    have hu : u ≤ logPos log hist k :=
      (h.mark.lt hlen (Mark.pos k) hlt (by omega)).le
    exact hu.trans (le_place hlen)
  · rcases h.mark with hu | ⟨e', he', hu⟩
    · rw [hu]
      exact le_place hlen
    · obtain rfl := Option.some.inj (he.symm.trans he')
      rw [hu]
      exact le_refl _

/-- A byte of the header of an entry is at its position. -/
theorem LogWindow.entryOff_add (h : LogWindow log hist lo u) (hlo : lo ≤ k) (he : hist[k]? = some e)
    (hd : d < ENTRY_SIZE) :
    entryOff log hist k + d = (Lib.place log.len (logPos log hist k) e.size + d) % log.len := by
  obtain ⟨-, -, -, hfit⟩ := h.position hlo he
  have hsize := e.entrySize_le_size
  rw [entryOff_eq he, add_mod_of_lt (by omega)]

/-- The headers of two entries do not overlap. -/
theorem LogWindow.entryOff_apart (h : LogWindow log hist lo u) (hj : lo ≤ j) (hjk : j < k)
    (hk : k < hist.length) : entryOff log hist j + ENTRY_SIZE ≤ entryOff log hist k ∨
      entryOff log hist k + ENTRY_SIZE ≤ entryOff log hist j := by
  have hej : hist[j]? = some hist[j] := List.getElem?_eq_getElem (by omega)
  have hek : hist[k]? = some hist[k] := List.getElem?_eq_getElem hk
  obtain ⟨hu, hnext, -, hfit⟩ := h.position hj hej
  obtain ⟨-, hnext', hend, hfit'⟩ := h.position (by omega) hek
  have hsize := hist[j].entrySize_le_size
  have hsize' := hist[k].entrySize_le_size
  have hlen := h.len_pos
  have hwindow : logPos log hist hist.length < u + log.len := h.window
  have hmono : logPos log hist (j + 1) ≤ logPos log hist k := pos_mono hlen hjk
  have hplace : logPos log hist k ≤ Lib.place log.len (logPos log hist k) hist[k].size := le_place hlen
  rw [entryOff_eq hej, entryOff_eq hek]
  generalize Lib.place log.len (logPos log hist j) hist[j].size = p at *
  generalize Lib.place log.len (logPos log hist k) hist[k].size = q at *
  obtain ⟨d, rfl⟩ := Nat.exists_eq_add_of_le (show p ≤ q by omega)
  have hmod := add_mod_eq_ite p (show d < log.len by omega)
  split at hmod <;> omega

/-- The offsets of the entries behind the first `n`. -/
theorem offsets_eq_map (hn : n ≤ hist.length) :
    Lib.offsets entryFormat log.len (logPos log hist n) (hist.drop n) =
      (List.range' n (hist.length - n)).map (entryOff log hist) := by
  obtain ⟨m, hm⟩ : ∃ m, hist.length = n + m := Nat.exists_eq_add_of_le hn
  rw [hm, Nat.add_sub_cancel_left]
  induction m generalizing n with
  | zero =>
    rw [List.drop_of_length_le (by omega)]
    rfl
  | succ m ih =>
    have he : hist[n]? = some hist[n] := List.getElem?_eq_getElem (by omega)
    have hnext : logPos log hist (n + 1) =
        Lib.place log.len (logPos log hist n) hist[n].size + hist[n].size := pos_succ he
    rw [drop_eq_cons he, Lib.offsets, entryFormat_size, ← hnext, ih (by omega) (by omega),
      List.range'_succ, List.map_cons, entryOff_eq he]

/-- The offsets from a place. -/
theorem offsets_mark_eq_map {w : Nat} (hmark : Mark entryFormat log.len hist n w)
    (hsize : ∀ e ∈ hist, e.size ≤ log.len) (hn : n ≤ hist.length) :
    Lib.offsets entryFormat log.len w (hist.drop n) =
      (List.range' n (hist.length - n)).map (entryOff log hist) :=
  (hmark.offsets_drop hsize).trans (offsets_eq_map hn)

/-- Entries that are at the same offsets in two logs. -/
theorem entryOff_shift {hist' : List DareLogEntry} {m w w' : Nat}
    (hn : Mark entryFormat log.len hist n w) (hm : Mark entryFormat log.len hist' m w')
    (hsize : ∀ e ∈ hist, e.size ≤ log.len) (hsize' : ∀ e ∈ hist', e.size ≤ log.len)
    (hmod : w % log.len = w' % log.len) (hdrop : hist.drop n = hist'.drop m)
    (hk : n + k < hist.length) : entryOff log hist (n + k) = entryOff log hist' (m + k) := by
  have hlength := congrArg List.length hdrop
  rw [List.length_drop, List.length_drop] at hlength
  have hlists := offsets_mark_eq_map hn hsize (by omega)
  rw [offsets_congr hmod, hdrop, offsets_mark_eq_map hm hsize' (by omega), hlength] at hlists
  have hget := congrArg (fun os => os[k]?) hlists
  simp only [List.getElem?_map] at hget
  rw [List.getElem?_range' (by omega), List.getElem?_range' (by omega)] at hget
  simpa using hget.symm

/-! ### What a walk reads -/

/-- What the reader finds at the offset of an entry in the window. -/
theorem LogWindow.read_entryOff (h : LogWindow log hist lo u) (hlo : lo ≤ k) (he : hist[k]? = some e) :
    readEntry log.entries (entryOff log hist k) = e := by
  obtain ⟨m, rfl⟩ := Nat.exists_eq_add_of_le hlo
  obtain ⟨hk, -⟩ := List.getElem?_eq_some_iff.mp he
  have hread := (h.cursor (isOffset_mod h.len_pos)).map_readEntry
  rw [offsets_mark_eq_map h.mark h.size_le h.lo_le] at hread
  have hget := congrArg (fun es => es[m]?) hread
  simp only [List.getElem?_map, List.getElem?_drop, he] at hget
  rw [List.getElem?_range' (by omega)] at hget
  simpa using hget

namespace HoldsWritten

/-- The walk from a place visits the entries behind it. -/
theorem walk_from {w off : Nat} (h : HoldsWritten log hist lo u) (hp : PlaceAt log hist u n w off) :
    ∃ live stop, readerWalk log (walkFuel log) off = some (live, stop) ∧
      live = (List.range' n (hist.length - n)).map (entryOff log hist) := by
  by_cases hempty : log.end_ = log.len
  · refine ⟨[], off, ?_, ?_⟩
    · rw [walkFuel, readerWalk, logGetEntry_of_end_eq_len hempty]
    · rw [h.empty hempty, List.length_nil, Nat.zero_sub]
      rfl
  · have hc := (h.window.place hp).cursor hp.offset
    obtain ⟨stop, hwalk, -⟩ := hc.readerWalk h.endsAt hempty (hc.fuel h.endsAt)
    exact ⟨_, stop, hwalk, offsets_mark_eq_map hp.mark h.window.size_le hp.count_le⟩

/-- `head` is the first place of the window. -/
theorem headPlace (h : HoldsWritten log hist lo u) : PlaceAt log hist u lo u log.head :=
  ⟨h.window.mark, le_refl u, h.window.le_end, h.window.lo_le, h.headOff⟩

/-- The walk from a place reads the entries behind it. -/
theorem read_from {w off : Nat} (h : HoldsWritten log hist lo u) (hp : PlaceAt log hist u n w off) :
    ∃ live stop, readerWalk log (walkFuel log) off = some (live, stop) ∧
      live.map (readEntry log.entries) = hist.drop n := by
  obtain ⟨live, stop, hwalk, hlive⟩ := h.walk_from hp
  have hwin := h.window.place hp
  have hread := (hwin.cursor (isOffset_mod hwin.len_pos)).map_readEntry
  rw [offsets_mark_eq_map hp.mark h.window.size_le hp.count_le, ← hlive] at hread
  exact ⟨live, stop, hwalk, hread⟩

/-- The last entries of the log are the last ones written to it. -/
theorem lastEntries_eq {off : Nat} (h : HoldsWritten log hist lo u) (hlast : LastEntries log off es) :
    es.length ≤ hist.length ∧ es = hist.drop (hist.length - es.length) := by
  obtain ⟨⟨vs, hstart⟩, visited, stop, hwalk, hes⟩ := hlast
  by_cases hempty : log.end_ = log.len
  · rw [walkFuel, readerWalk, logGetEntry_of_end_eq_len hempty] at hwalk
    obtain ⟨rfl, -⟩ := Prod.mk.inj (Option.some.inj hwalk)
    obtain rfl := hes
    exact ⟨Nat.zero_le _, (List.drop_of_length_le (le_refl _)).symm⟩
  · obtain ⟨w, hw⟩ := h.window.placeAt h.endsAt hempty h.headOff hstart
    obtain ⟨live, stop', hwalk', hread⟩ := h.read_from hw
    obtain ⟨rfl, -⟩ := Prod.mk.inj (Option.some.inj (hwalk.symm.trans hwalk'))
    rw [hes] at hread
    have hcount := hw.count_le
    have hlength := congrArg List.length hread
    rw [List.length_drop] at hlength
    refine ⟨by omega, ?_⟩
    rw [hlength, Nat.sub_sub_self hcount]
    exact hread

end HoldsWritten

/-! ### Other writes -/

/-- A byte of the header of an entry in the window, and its position. -/
theorem LogWindow.tag_eq (h : LogWindow log hist lo u) (hlo : lo ≤ k) (hk : k < hist.length)
    (hd : d < ENTRY_SIZE) : ∃ y, u ≤ y ∧ y < logPos log hist hist.length ∧
      logPos log hist k ≤ y ∧ entryOff log hist k + d = y % log.len := by
  have he : hist[k]? = some hist[k] := List.getElem?_eq_getElem hk
  obtain ⟨hu, hnext, hend, -⟩ := h.position hlo he
  have hsize := hist[k].entrySize_le_size
  have hplace : logPos log hist k ≤ Lib.place log.len (logPos log hist k) hist[k].size :=
    le_place h.len_pos
  exact ⟨_, by omega, by omega, by omega, h.entryOff_add hlo he hd⟩

/-- An append keeps the bookkeeping bytes of the entries in the window. -/
theorem Appended.tag (h : LogWindow log hist lo u)
    (happ : Appended log (logPos log hist hist.length) e log')
    (hroom : Lib.place log.len (logPos log hist hist.length) e.size + e.size < u + log.len)
    (hlo : lo ≤ k) (hk : k < hist.length) (hd : d < ENTRY_SIZE) :
    Apus.tag log' (hist ++ [e]) k d = Apus.tag log hist k d := by
  obtain ⟨y, hu, hend, -, hy⟩ := h.tag_eq hlo hk hd
  rw [tag_append hk, Apus.tag, Apus.tag, entryOff_of_len happ.len, hy]
  exact happ.frame y hend (by omega)

/-- The new entry has no replies. -/
theorem Appended.tag_new (happ : Appended log (logPos log hist hist.length) e log') {i : Nat}
    (hi : i < MAX_SERVER_COUNT) : Apus.tag log' (hist ++ [e]) hist.length (REPLY_OFF + i) = 0 := by
  have he : (hist ++ [e])[hist.length]? = some e := by simp
  have hpos : logPos log (hist ++ [e]) hist.length = logPos log hist hist.length :=
    pos_append (le_refl _)
  rw [Apus.tag, entryOff_of_len happ.len, entryOff_eq he, hpos, ← Nat.add_assoc]
  exact happ.noReply i hi

section Update

variable {ldr : Mem} {start stop : Nat}

/-- The log after the bytes between two offsets were written by a leader. -/
abbrev copied (log : DareLog) (ldr : Mem) (start stop : Nat) : DareLog :=
  { log with entries := ringCopy log.len log.entries ldr start stop, end_ := stop }

/-- A log update keeps the bookkeeping bytes of the entries before it. -/
theorem tag_copied_old (h : LogWindow log hist lo u) (hstart : start = logPos log hist hist.length % log.len)
    (hstop : stop = advance entryFormat log.len (logPos log hist hist.length) es % log.len)
    (hne : es ≠ []) (hroom : advance entryFormat log.len (logPos log hist hist.length) es < u + log.len)
    (hlo : lo ≤ k) (hk : k < hist.length) (hd : d < ENTRY_SIZE) :
    tag (copied log ldr start stop) (hist ++ es) k d = tag log hist k d := by
  obtain ⟨y, hu, hend, -, hy⟩ := h.tag_eq hlo hk hd
  have hlt : logPos log hist hist.length <
      advance entryFormat log.len (logPos log hist hist.length) es := by
    obtain ⟨e, rest, rfl⟩ := List.exists_cons_of_ne_nil hne
    exact lt_advance_cons h.len_pos e rest
  have hsame : entryOff (copied log ldr start stop) hist k = entryOff log hist k := entryOff_of_len rfl
  have hlap : advance entryFormat log.len (logPos log hist hist.length) es ≤ y + log.len := by omega
  have hlap' : y + log.len < logPos log hist hist.length + log.len := by omega
  rw [tag_append hk, tag, tag, hsame, hy, ← Nat.add_mod_right y log.len]
  exact ringCopy_of_outside hstart hstop hlt hlap hlap'

/-- The new entries have the bookkeeping bytes of the leader. -/
theorem tag_copied_new (h : LogWindow (copied log ldr start stop) (hist ++ es) lo u)
    (hstart : start = logPos log hist hist.length % log.len)
    (hstop : stop = advance entryFormat log.len (logPos log hist hist.length) es % log.len)
    (hroom : advance entryFormat log.len (logPos log hist hist.length) es <
      logPos log hist hist.length + log.len)
    (hlo : lo ≤ k) (hold : hist.length ≤ k) (hk : k < (hist ++ es).length) (hd : d < ENTRY_SIZE) :
    tag (copied log ldr start stop) (hist ++ es) k d = getU8 ldr (entryOff log (hist ++ es) k + d) := by
  obtain ⟨y, -, hend, hle, hy⟩ := h.tag_eq hlo hk hd
  have hfirst : logPos log hist hist.length ≤ logPos log (hist ++ es) k := by
    have hsame : logPos log (hist ++ es) hist.length = logPos log hist hist.length :=
      pos_append (le_refl _)
    rw [← hsame]
    exact pos_mono h.len_pos hold
  have hlast : logPos log (hist ++ es) (hist ++ es).length =
      advance entryFormat log.len (logPos log hist hist.length) es := pos_append_length
  have hsame : entryOff (copied log ldr start stop) (hist ++ es) k = entryOff log (hist ++ es) k :=
    entryOff_of_len rfl
  have hinside : y < advance entryFormat log.len (logPos log hist hist.length) es :=
    hlast ▸ hend
  rw [tag, ← hsame, hy]
  exact ringCopy_of_inside hstart hstop hroom (hfirst.trans hle) hinside

end Update

/-- The bytes of the headers have different offsets. -/
theorem LogWindow.entryOff_add_ne {c : Nat} (h : LogWindow log hist lo u) (hj : lo ≤ j)
    (hj' : j < hist.length) (hk : lo ≤ k) (hk' : k < hist.length) (hc : c < ENTRY_SIZE)
    (hd : d < ENTRY_SIZE) (hne : j ≠ k ∨ c ≠ d) :
    entryOff log hist j + c ≠ entryOff log hist k + d := by
  rcases Nat.lt_trichotomy j k with hjk | rfl | hkj
  · have hapart := h.entryOff_apart hj hjk hk'
    omega
  · have hcd := hne.resolve_left (not_not.mpr rfl)
    omega
  · have hapart := h.entryOff_apart hk hkj hj'
    omega

/-- Setting another bookkeeping byte keeps this one. -/
theorem tag_setU8_of_ne {c : Nat} {b : UInt8} (h : LogWindow log hist lo u) (hj : lo ≤ j)
    (hj' : j < hist.length) (hk : lo ≤ k) (hk' : k < hist.length) (hc : c < ENTRY_SIZE)
    (hd : d < ENTRY_SIZE) (hne : j ≠ k ∨ c ≠ d) :
    getU8 (setU8 log.entries (entryOff log hist j + c) b) (entryOff log hist k + d) =
      tag log hist k d := by
  have haddr := h.entryOff_add_ne hj hj' hk hk' hc hd hne
  exact setU8_of_outside (by omega)

/-! ### The bytes that `persist_new_entries` sets -/

section Persist

variable {idx fuel entry : Nat} {isLeader : Bool} {visits : List Visit} {r : DareLog × List Visit}

/-- The byte of an entry that is set: its sender on a leader, an own reply on a follower. -/
def stampOff (idx : Nat) (isLeader : Bool) : Nat := if isLeader then SENDER_OFF else REPLY_OFF + idx

/-- Its value. -/
def stamp (idx : Nat) (isLeader : Bool) : UInt8 := if isLeader then UInt8.ofNat idx else 1

theorem stampOff_lt (hidx : idx < MAX_SERVER_COUNT) : stampOff idx isLeader < ENTRY_SIZE := by
  simp only [MAX_SERVER_COUNT] at hidx
  cases isLeader <;> simp only [stampOff, SENDER_OFF, REPLY_OFF, ENTRY_SIZE, if_true, if_false,
    Bool.false_eq_true] <;> omega

theorem persistEntry_entries (idx : Nat) (isLeader : Bool) (log : DareLog) :
    (persistEntry idx isLeader log log.oldEnd).1.entries =
      setU8 log.entries (log.oldEnd + stampOff idx isLeader) (stamp idx isLeader) := by
  cases isLeader with
  | true => rfl
  | false =>
    show setU8 log.entries (REPLY_OFF + idx + log.oldEnd) 1 = _
    rw [Nat.add_comm _ log.oldEnd]
    rfl

/-- What one iteration that visits an entry leaves to the others. -/
theorem persistNewEntries_succ (h : persistNewEntries idx isLeader (fuel + 1) log = some r) :
    r = (log, []) ∨
      persistNewEntries idx isLeader fuel { log with oldEnd := 0 } = some r ∨
      ∃ entry log₁ visits, persistNewEntries idx isLeader fuel log₁ = some (r.1, visits) ∧
        log₁ = { log with oldEnd := log₁.oldEnd, entries := log₁.entries } ∧
        log₁.entries = setU8 log.entries (entry + stampOff idx isLeader) (stamp idx isLeader) ∧
        r.2 = (persistEntry idx isLeader { log with oldEnd := entry } entry).2 :: visits := by
  rw [persistNewEntries] at h
  split at h
  · cases hget : logGetEntry log log.oldEnd with
    | none =>
      rw [hget] at h
      cases h
    | some entry =>
      simp only [hget] at h
      split at h
      · exact .inr (.inl h)
      · obtain ⟨r', hr', rfl⟩ := Option.map_eq_some_iff.mp h
        refine .inr (.inr ⟨entry, _, r'.2, hr', ?_,
          persistEntry_entries idx isLeader { log with oldEnd := entry }, rfl⟩)
        cases isLeader <;> rfl
  · cases h
    exact .inl rfl

/-- Only the cursor and the bytes change. -/
theorem persistNewEntries_frame (h : persistNewEntries idx isLeader fuel log = some r) :
    r.1 = { log with oldEnd := r.1.oldEnd, entries := r.1.entries } := by
  induction fuel generalizing log r with
  | zero => cases h
  | succ fuel ih =>
    rcases persistNewEntries_succ h with rfl | hrest | ⟨entry, log₁, visits, hrest, hframe, -, -⟩
    · rfl
    · have hmoved := ih hrest
      exact hmoved
    · have hmoved := ih hrest
      rw [hframe] at hmoved
      exact hmoved

theorem persistNewEntries_len (h : persistNewEntries idx isLeader fuel log = some r) :
    r.1.len = log.len := by
  rw [persistNewEntries_frame h]

/-- A call that visits entries of the window keeps it. -/
theorem persistNewEntries_window (hwin : LogWindow log hist lo u) (hidx : idx < MAX_SERVER_COUNT)
    (h : persistNewEntries idx isLeader fuel log = some r)
    (hlive : ∀ v ∈ r.2, v.det.offset ∈ Lib.offsets entryFormat log.len u (hist.drop lo)) :
    LogWindow r.1 hist lo u := by
  -- the byte that is set is one of the bookkeeping bytes
  have hbyte : IsBookkeeping (stampOff idx isLeader) := by
    cases isLeader with
    | true => exact isBookkeeping_sender
    | false => exact isBookkeeping_reply hidx
  induction fuel generalizing log r with
  | zero => cases h
  | succ fuel ih =>
    rcases persistNewEntries_succ h with rfl | hrest | ⟨entry, log₁, visits, hrest, hframe, hset, hr⟩
    · exact hwin
    · have hwin₀ : LogWindow { log with oldEnd := 0 } hist lo u := hwin
      exact ih hwin₀ hrest hlive
    · rw [hr] at hlive
      have hentry : (persistEntry idx isLeader { log with oldEnd := entry } entry).2.det.offset =
          entry := by
        cases isLeader <;> rfl
      have hmem := hlive _ List.mem_cons_self
      rw [hentry] at hmem
      have hlen : log₁.len = log.len := by rw [hframe]
      -- setting it keeps the entries
      have hwin₁ : LogWindow log₁ hist lo u := by
        show Window entryFormat log₁.entries log₁.len hist lo u
        rw [hlen, hset]
        exact hwin.setU8 hmem hbyte
      refine ih (r := (r.1, visits)) hwin₁ hrest fun v hv => ?_
      rw [hlen]
      exact hlive v (List.mem_cons_of_mem _ hv)

/-- The visited entries have the byte, and no other byte is changed. -/
theorem persistNewEntries_entries (h : persistNewEntries idx isLeader fuel log = some r) :
    (∀ a, r.1.entries a = log.entries a ∨ r.1.entries a = stamp idx isLeader ∧
      ∃ v ∈ r.2, a = v.det.offset + stampOff idx isLeader) ∧
    ∀ v ∈ r.2, r.1.entries (v.det.offset + stampOff idx isLeader) = stamp idx isLeader := by
  induction fuel generalizing log r with
  | zero => cases h
  | succ fuel ih =>
    rcases persistNewEntries_succ h with rfl | hrest | ⟨entry, log₁, visits, hrest, -, hset, hr⟩
    · exact ⟨fun a => .inl rfl, by simp⟩
    · have hmoved := ih hrest
      exact hmoved
    · obtain ⟨hother, hset'⟩ := ih hrest
      have hdet : (persistEntry idx isLeader { log with oldEnd := entry } entry).2.det.offset = entry := by
        cases isLeader <;> rfl
      have hfirst : r.1.entries (entry + stampOff idx isLeader) = stamp idx isLeader := by
        rcases hother (entry + stampOff idx isLeader) with hsame | ⟨hstamp, -⟩
        · rw [hsame, hset]
          exact getU8_setU8 _
        · exact hstamp
      refine ⟨fun a => ?_, fun v hv => ?_⟩
      · by_cases ha : a = entry + stampOff idx isLeader
        · refine .inr ⟨ha ▸ hfirst, _, hr ▸ List.mem_cons_self, ?_⟩
          rw [hdet]
          exact ha
        · rcases hother a with hsame | ⟨hstamp, v, hv, hav⟩
          · left
            rw [hsame, hset]
            exact setU8_of_outside (by omega)
          · exact .inr ⟨hstamp, v, hr ▸ List.mem_cons_of_mem _ hv, hav⟩
      · rw [hr] at hv
        rcases List.mem_cons.mp hv with rfl | hv
        · rw [hdet]
          exact hfirst
        · exact hset' v hv

/-- Only a follower replies, with its own byte of the reply array.  If the bytes set are no sender bytes,
    the replies go to the senders that the log had before the call. -/
theorem persistNewEntries_replies (h : persistNewEntries idx isLeader fuel log = some r) :
    ∀ v ∈ r.2, ∀ w ∈ v.reply, isLeader = false ∧ w.offset = v.det.offset + REPLY_OFF + idx ∧
      ((∀ v ∈ r.2, ∀ v' ∈ r.2, v'.det.offset + SENDER_OFF ≠ v.det.offset + stampOff idx isLeader) →
        w.target = getU8 log.entries (v.det.offset + SENDER_OFF)) := by
  induction fuel generalizing log r with
  | zero => cases h
  | succ fuel ih =>
    rcases persistNewEntries_succ h with rfl | hrest | ⟨entry, log₁, visits, hrest, -, hset, hr⟩
    · simp
    · have hmoved := ih hrest
      exact hmoved
    · intro v hv w hw
      rw [hr] at hv ⊢
      rcases List.mem_cons.mp hv with rfl | hv
      · cases isLeader with
        | true => cases hw
        | false =>
          obtain rfl : (⟨getU8 log.entries (entry + SENDER_OFF), REPLY_OFF + idx + entry⟩ :
            ReplyWrite) = w := Option.some.inj hw
          refine ⟨rfl, ?_, fun _ => rfl⟩
          show REPLY_OFF + idx + entry = entry + REPLY_OFF + idx
          omega
      · obtain ⟨hfollower, hoffset, htarget⟩ := ih hrest v hv w hw
        refine ⟨hfollower, hoffset, fun hapart => ?_⟩
        have hne := hapart _ List.mem_cons_self v (List.mem_cons_of_mem _ hv)
        have hentry : (persistEntry idx isLeader { log with oldEnd := entry } entry).2.det.offset =
            entry := by
          cases isLeader <;> rfl
        rw [htarget fun v hv v' hv' => hapart v (List.mem_cons_of_mem _ hv) v'
          (List.mem_cons_of_mem _ hv'), hset]
        exact setU8_of_outside (by omega)

end Persist

/-- A call that visits live entries only. -/
theorem HoldsWritten.persist {idx fuel stop : Nat} {isLeader : Bool} {live : List Nat}
    {r : DareLog × List Visit} (h : HoldsWritten log hist lo u) (hidx : idx < MAX_SERVER_COUNT)
    (hcall : persistNewEntries idx isLeader fuel log = some r)
    (hwalk : readerWalk log (walkFuel log) log.head = some (live, stop))
    (hlive : ∀ v ∈ r.2, v.det.offset ∈ live) : HoldsWritten r.1 hist lo u := by
  have hframe := persistNewEntries_frame hcall
  have hwin := persistNewEntries_window h.window hidx hcall fun v hv =>
    h.mem_offsets_of_live hwalk (hlive v hv)
  exact h.of_window hwin (by rw [hframe]) (by rw [hframe]) (by rw [hframe]) (by rw [hframe])

/-! ### What the steps of a server do -/

namespace PersistInv

variable {s q : PersistState} {lo' u' entry i fuel : Nat} {r : DareLog × List Visit}

theorem lo_le_written (h : PersistInv s lo u) : lo ≤ s.written.length :=
  h.lo_le.trans h.cursor.count_le

theorem size_le (h : PersistInv s lo u) : ∀ e ∈ s.written, e.size ≤ s.log.len := h.window.size_le

/-- The walk from a place visits the entries behind it. -/
theorem walk_from {n w off : Nat} (h : PersistInv s lo u) (hp : PlaceAt s.log s.written u n w off) :
    ∃ live stop, readerWalk s.log (walkFuel s.log) off = some (live, stop) ∧
      live = (List.range' n (s.written.length - n)).map (entryOff s.log s.written) :=
  h.holds.walk_from hp

/-- `head` is the first place of the window. -/
theorem headPlace (h : PersistInv s lo u) : PlaceAt s.log s.written u lo u s.log.head :=
  h.holds.headPlace

/-- The walk from `head` visits the entries of the window. -/
theorem live_eq_map {live : List Nat} {stop : Nat} (h : PersistInv s lo u)
    (hwalk : readerWalk s.log (walkFuel s.log) s.log.head = some (live, stop)) :
    live = (List.range' lo (s.written.length - lo)).map (entryOff s.log s.written) := by
  obtain ⟨live', stop', hwalk', hlive⟩ := h.walk_from h.headPlace
  obtain ⟨rfl, -⟩ := Prod.mk.inj (Option.some.inj (hwalk.symm.trans hwalk'))
  exact hlive

theorem exists_of_live {live : List Nat} {stop : Nat} (h : PersistInv s lo u)
    (hwalk : readerWalk s.log (walkFuel s.log) s.log.head = some (live, stop)) :
    entry ∈ live ↔ ∃ k, lo ≤ k ∧ k < s.written.length ∧ entryOff s.log s.written k = entry := by
  have hlo := h.lo_le_written
  rw [h.live_eq_map hwalk, List.mem_map]
  constructor
  · rintro ⟨k, hk, hoff⟩
    obtain ⟨hle, hlt⟩ := List.mem_range'_1.mp hk
    exact ⟨k, hle, by omega, hoff⟩
  · rintro ⟨k, hle, hlt, hoff⟩
    exact ⟨k, List.mem_range'_1.mpr ⟨hle, by omega⟩, hoff⟩

/-! The entries that a call of `persist_new_entries` visits. -/

theorem visit (h : PersistInv s lo u)
    (hcall : persistNewEntries s.idx s.isLeader fuel s.log = some r) {v : Visit} (hv : v ∈ r.2) :
    ∃ k, s.stored.length ≤ k ∧ ∃ e, s.written[k]? = some e ∧
      v.det.offset = entryOff s.log s.written k ∧ detKey v.det = entryKey e := by
  have hdone := h.of_call hcall
  have hoffsets := hdone.offsets
  rw [offsets_mark_eq_map (Mark.pos _) h.size_le h.cursor.count_le] at hoffsets
  obtain ⟨m, hm, hget⟩ := List.mem_iff_getElem.mp hv
  have hlength := congrArg List.length hoffsets
  rw [List.length_map, List.length_map, List.length_range'] at hlength
  have hk : s.stored.length + m < s.written.length := by omega
  refine ⟨s.stored.length + m, Nat.le_add_right _ _, s.written[s.stored.length + m],
    List.getElem?_eq_getElem hk, ?_, ?_⟩
  · have hsame := congrArg (fun os => os[m]?) hoffsets
    simp only [List.getElem?_map, List.getElem?_eq_getElem hm] at hsame
    rw [List.getElem?_range' (by omega), hget] at hsame
    simpa using hsame
  · have hsame := congrArg (fun ks => ks[m]?) hdone.keys
    simp only [List.getElem?_map, List.getElem?_eq_getElem hm, List.getElem?_drop,
      List.getElem?_eq_getElem hk] at hsame
    rw [hget] at hsame
    exact Option.some.inj hsame

/-- After the call everything is handed over. -/
theorem persist_length (h : PersistInv s lo u)
    (hcall : persistNewEntries s.idx s.isLeader fuel s.log = some r) :
    (s.stored ++ r.2.map fun v => detKey v.det).length = s.written.length := by
  rw [(h.of_call hcall).keys, h.keys_append, List.length_map]

/-- Every entry that was not handed over is visited. -/
theorem exists_visit (h : PersistInv s lo u)
    (hcall : persistNewEntries s.idx s.isLeader fuel s.log = some r) {k : Nat}
    (hk : s.stored.length ≤ k) (hk' : k < s.written.length) :
    ∃ v ∈ r.2, v.det.offset = entryOff s.log s.written k := by
  have hoffsets := (h.of_call hcall).offsets
  rw [offsets_mark_eq_map (Mark.pos _) h.size_le h.cursor.count_le] at hoffsets
  have hmem : entryOff s.log s.written k ∈ r.2.map fun v => v.det.offset := by
    rw [hoffsets]
    exact List.mem_map_of_mem (List.mem_range'_1.mpr ⟨hk, by omega⟩)
  obtain ⟨v, hv, hoff⟩ := List.mem_map.mp hmem
  exact ⟨v, hv, hoff⟩

/-- The bookkeeping bytes after the call. -/
theorem persist_tag (h : PersistInv s lo u)
    (hcall : persistNewEntries s.idx s.isLeader fuel s.log = some r) {k : Nat} (hlo : lo ≤ k)
    (hk : k < s.written.length) (hd : d < ENTRY_SIZE) :
    tag r.1 s.written k d = tag s.log s.written k d ∨ d = stampOff s.idx s.isLeader ∧
      s.stored.length ≤ k ∧ tag r.1 s.written k d = stamp s.idx s.isLeader := by
  have hoff : entryOff r.1 s.written k = entryOff s.log s.written k :=
    entryOff_of_len (persistNewEntries_len hcall)
  rw [tag, hoff]
  rcases (persistNewEntries_entries hcall).1 (entryOff s.log s.written k + d) with
    hsame | ⟨hstamp, v, hv, haddr⟩
  · exact .inl hsame
  · -- the byte is that of the entry visited
    obtain ⟨j, hj, e, he, hvisit, -⟩ := h.visit hcall hv
    obtain ⟨hj', -⟩ := List.getElem?_eq_some_iff.mp he
    rw [hvisit] at haddr
    by_cases hne : k ≠ j ∨ d ≠ stampOff s.idx s.isLeader
    · exact absurd haddr (h.window.entryOff_add_ne hlo hk (h.lo_le.trans hj) hj' hd
        (stampOff_lt h.idx_lt) hne)
    · obtain ⟨rfl, rfl⟩ : k = j ∧ d = stampOff s.idx s.isLeader := by
        simpa [not_or] using hne
      exact .inr ⟨rfl, hj, hstamp⟩

/-- The byte that is set. -/
theorem persist_stamp (h : PersistInv s lo u)
    (hcall : persistNewEntries s.idx s.isLeader fuel s.log = some r) {k : Nat}
    (hk : s.stored.length ≤ k) (hk' : k < s.written.length) :
    tag r.1 s.written k (stampOff s.idx s.isLeader) = stamp s.idx s.isLeader := by
  obtain ⟨v, hv, hoff⟩ := h.exists_visit hcall hk hk'
  have hset := (persistNewEntries_entries hcall).2 v hv
  rw [tag, entryOff_of_len (persistNewEntries_len hcall), ← hoff]
  exact hset

/-- The replies of a follower go to the senders of the entries visited. -/
theorem persist_reply (h : PersistInv s lo u)
    (hcall : persistNewEntries s.idx s.isLeader fuel s.log = some r) {v : Visit} {w : ReplyWrite}
    (hv : v ∈ r.2) (hw : w ∈ v.reply) : s.isLeader = false ∧ ∃ k, s.stored.length ≤ k ∧
      k < s.written.length ∧ w.target = tag s.log s.written k SENDER_OFF := by
  obtain ⟨hfollower, -, htarget⟩ := persistNewEntries_replies hcall v hv w hw
  obtain ⟨k, hk, e, he, hoff, -⟩ := h.visit hcall hv
  obtain ⟨hk', -⟩ := List.getElem?_eq_some_iff.mp he
  refine ⟨hfollower, k, hk, hk', ?_⟩
  rw [tag, ← hoff]
  refine htarget fun v₁ hv₁ v₂ hv₂ => ?_
  obtain ⟨j₁, hj₁, e₁, he₁, hoff₁, -⟩ := h.visit hcall hv₁
  obtain ⟨j₂, hj₂, e₂, he₂, hoff₂, -⟩ := h.visit hcall hv₂
  have hstamp : SENDER_OFF ≠ stampOff s.idx s.isLeader := by
    rw [hfollower]
    simp only [stampOff, Bool.false_eq_true, if_false, SENDER_OFF, REPLY_OFF]
    omega
  rw [hoff₁, hoff₂]
  exact h.window.entryOff_add_ne (h.lo_le.trans hj₂) (List.getElem?_eq_some_iff.mp he₂).1
    (h.lo_le.trans hj₁) (List.getElem?_eq_some_iff.mp he₁).1 (by decide) (stampOff_lt h.idx_lt)
    (.inr hstamp)

/-- An append keeps the bytes of the entries in the window, and a new entry has no replies. -/
theorem append_tag {term reqId idx : UInt64} {cltId : UInt16} {type : UInt8} {data : EntryData}
    {log' : DareLog} (h : PersistInv s lo u) (hok : PersistAppendOk s type data)
    (happend : logAppendEntry s.log term reqId cltId type data = some (log', idx)) :
    ∃ es, (if isLogFull s.log then s.written
        else s.written ++ [mkEntry idx term reqId cltId type data]) = s.written ++ es ∧
      (∀ k, lo ≤ k → k < s.written.length → ∀ d, d < ENTRY_SIZE →
        tag log' (s.written ++ es) k d = tag s.log s.written k d) ∧
      ∀ k, s.written.length ≤ k → k < (s.written ++ es).length → ∀ i, i < MAX_SERVER_COUNT →
        tag log' (s.written ++ es) k (REPLY_OFF + i) = 0 := by
  rcases h.holds.append_cases hok happend with ⟨hfull, b, rfl⟩ | ⟨e, rfl, hfull, happ, hroom, -, -⟩
  · refine ⟨[], by rw [hfull, List.append_nil]; rfl, fun k hlo hk d hd => ?_, fun k hold hk => ?_⟩
    · rw [List.append_nil]
      rfl
    · rw [List.append_nil] at hk
      omega
  · refine ⟨_, by rw [hfull]; rfl, fun k hlo hk d hd => happ.tag h.window hroom hlo hk hd,
      fun k hold hk i hi => ?_⟩
    rw [List.length_append, List.length_singleton] at hk
    obtain rfl : k = s.written.length := by omega
    exact happ.tag_new hi

/-- A log update keeps the bytes of the entries in the window. -/
theorem update_tag {ldr : DareLog} {rmtEnd : Nat} {es : List DareLogEntry} (h : PersistInv s lo u)
    (hok : UpdateOk s ldr rmtEnd es) {k : Nat} (hlo : lo ≤ k) (hk : k < s.written.length)
    (hd : d < ENTRY_SIZE) : tag (copied s.log ldr.entries rmtEnd ldr.end_) (s.written ++ es) k d =
      tag s.log s.written k d := by
  obtain ⟨hstart, -, hlap⟩ := h.holds.update_place hok
  exact tag_copied_old h.window hstart hok.end_ hok.nonempty hlap hlo hk hd

/-- Another server's acknowledgement sets one byte of a live entry. -/
theorem reply_tag {live : List Nat} {stop : Nat} (h : PersistInv s lo u) (hi : i < MAX_SERVER_COUNT)
    (hwalk : readerWalk s.log (walkFuel s.log) s.log.head = some (live, stop))
    (hentry : entry ∈ live) {b : UInt8} {k : Nat} (hlo : lo ≤ k) (hk : k < s.written.length)
    (hd : d < ENTRY_SIZE) :
    let log' := { s.log with entries := setReply s.log.entries entry i b }
    tag log' s.written k d = tag s.log s.written k d ∨
      entryOff s.log s.written k = entry ∧ d = REPLY_OFF + i ∧ tag log' s.written k d = b := by
  obtain ⟨j, hj, hj', rfl⟩ := (h.exists_of_live hwalk).mp hentry
  intro log'
  have hc : stampOff i false < ENTRY_SIZE := stampOff_lt hi
  have hlog : tag log' s.written k d =
      getU8 (setU8 s.log.entries (entryOff s.log s.written j + (REPLY_OFF + i)) b)
        (entryOff s.log s.written k + d) := by
    rw [← Nat.add_assoc]
    rfl
  by_cases hne : j ≠ k ∨ REPLY_OFF + i ≠ d
  · left
    rw [hlog]
    exact tag_setU8_of_ne h.window hj hj' hlo hk hc hd hne
  · obtain ⟨rfl, rfl⟩ : j = k ∧ REPLY_OFF + i = d := by simpa [not_or] using hne
    refine .inr ⟨rfl, rfl, ?_⟩
    rw [hlog]
    exact getU8_setU8 _

/-- The entries that a leader writes are at the offsets they have in its log, with the bytes they have
    there. -/
theorem update_from {rmtEnd stop : Nat} {es : List DareLogEntry} {vs visited : List Nat}
    (h : PersistInv s lo u) (hq : PersistInv q lo' u') (hlen : q.log.len = s.log.len)
    (hok : UpdateOk s q.log rmtEnd es) (hstart : WalkTo q.log q.log.head vs rmtEnd)
    (hwalk : WalkTo q.log rmtEnd visited stop) (hes : visited.map (readEntry q.log.entries) = es) :
    ∃ a w, PlaceAt q.log q.written u' (a + es.length) w stop ∧ lo' ≤ a ∧ ∀ k, k < es.length →
      q.written[a + k]? = es[k]? ∧
      entryOff q.log q.written (a + k) = entryOff s.log (s.written ++ es) (s.written.length + k) ∧
      ∀ d, d < ENTRY_SIZE →
        tag (copied s.log q.log.entries rmtEnd q.log.end_) (s.written ++ es) (s.written.length + k) d =
          tag q.log q.written (a + k) d := by
  have hpos := hq.window.len_pos
  have hcount : visited.length = es.length := by rw [← hes, List.length_map]
  have hes_pos : 0 < es.length := List.length_pos_iff.mpr hok.nonempty
  have hne : q.log.end_ ≠ q.log.len := by
    intro hempty
    obtain ⟨rfl, -⟩ := hwalk.of_end_eq_len hempty
    rw [List.length_nil] at hcount
    omega
  obtain ⟨w, hw⟩ := hq.window.placeAt hq.endsAt hne hq.headOff hstart
  have hwin := hq.window.place hw
  obtain ⟨w', hw'⟩ := hwin.placeAt hq.endsAt hne hw.offset hwalk
  have hread := hwin.walkTo_read hq.endsAt hne hw.offset hwalk
  rw [hes] at hread
  rw [hcount] at hread hw'
  have hlo' : lo' ≤ lo' + vs.length := Nat.le_add_right _ _
  generalize lo' + vs.length = a at *
  have hend := hw'.count_le
  -- the entries are the next ones of the leader's history
  have hdrop : (q.written.take (a + es.length)).drop a = (s.written ++ es).drop s.written.length := by
    rw [List.drop_take, Nat.add_sub_cancel_left, ← hread, List.drop_left]
  have hmark : Mark entryFormat q.log.len (q.written.take (a + es.length)) a w :=
    hw.mark.take hpos (Nat.le_add_right _ _)
      (hw.mark.lt hpos (Mark.pos _) (by omega) (by omega)).le
  have hinv := h.update hok
  obtain ⟨hplace, hule, hlap⟩ := h.holds.update_place hok
  have hmod : w % q.log.len = logPos q.log (s.written ++ es) s.written.length % q.log.len := by
    have hsame : logPos q.log (s.written ++ es) s.written.length =
        logPos s.log s.written s.written.length := by
      rw [logPos, hlen]
      exact pos_append (le_refl _)
    rw [← hw.offset.2, hplace, hsame, hlen, Nat.mod_mod]
  refine ⟨a, w', ⟨hw'.mark, hw.le.trans hw'.le, hw'.le_end, hw'.count_le, hw'.offset⟩, hlo', ?_⟩
  intro k hk
  have hsizes : ∀ e ∈ s.written ++ es, e.size ≤ q.log.len := by
    rw [hlen]
    exact hinv.size_le
  have hoff : entryOff q.log q.written (a + k) =
      entryOff s.log (s.written ++ es) (s.written.length + k) := by
    have hshift := entryOff_shift (k := k) hmark (Mark.pos s.written.length)
      (fun e he => hq.size_le e (List.mem_of_mem_take he)) hsizes hmod hdrop
      (by rw [List.length_take_of_le hend]; omega)
    rw [entryOff_take (show a + k < a + es.length by omega)] at hshift
    rw [hshift, entryOff_of_len hlen]
  refine ⟨?_, hoff, fun d hd => ?_⟩
  · have hget := congrArg (fun es => es[k]?) hread
    simp only [List.getElem?_take_of_lt hk, List.getElem?_drop] at hget
    exact hget.symm
  · have hlo := h.lo_le_written
    have hnew := tag_copied_new hinv.window hplace hok.end_ (by omega) (by omega)
      (Nat.le_add_right _ k) (by rw [List.length_append]; omega) hd
    rw [hnew, tag, hoff]

end PersistInv

end Apus
