import Apus.Log.Append
import Mathlib.Data.List.TakeWhile

namespace Apus

open Lib

/-!
# Log adjustment

A voter publishes the determinants of its not committed entries (`log_entries_to_nc_buf`), and
the new leader looks them up in its own log to find where the voter's log should end
(`log_find_remote_end_offset`).

* `LogMatching` — what the two logs have in common;
* `FindsCommonPrefix` — with the end the leader finds, the walk over the voter's not committed
  entries visits exactly those that also occur in the leader's log;
* `findsCommonPrefix_iff` — exactly when it does (`CutOk`): the run of common entries must end
  where a header still fits, the leader's log must not look empty while it has common entries,
  and a run of all the entries must not end exactly at the buffer end.
-/

/-- An entry with the index and the term of `e` is among `es`. -/
def occurs (es : List DareLogEntry) (e : DareLogEntry) : Bool :=
  es.any fun l => l.idx == e.idx && l.term == e.term

/-- The longest run of the entries `fs` that also occur in `es`. -/
def commonRun (es fs : List DareLogEntry) : List DareLogEntry := fs.takeWhile (occurs es)

/-- The leader's log `ldr`, ending at position `W` with the entries `ls`, matches the entries `fs`
    from position `c` on of another log. -/
structure LogMatching (ldr : DareLog) (W c : Nat) (ls fs : List DareLogEntry) : Prop where
  head : ∃ u, Cursor ldr W u ldr.head ls
  /-- An entry that occurs in both logs is at the same position in both, and the logs agree on
      the entries between `c` and it. -/
  agree : ∀ gs e, gs ++ [e] <+: fs → occurs ls e = true →
    ∃ off rest, Cursor ldr W c off (gs ++ e :: rest)
  /-- What the leader finds in place of an entry, with its index and term, is an entry of the
      leader's log (and not a rest of entries that are not in the log any more). -/
  live : ∀ gs e, gs ++ [e] <+: fs → ∀ o,
    logGetEntry ldr (headerOffset entryFormat ldr.len (advance entryFormat ldr.len c gs)) = some o →
    getU64 ldr.entries o = e.idx → getU64 ldr.entries (o + 8) = e.term → occurs ls e = true

/-- With the end `end_`, the walk from the commit offset of `fol` visits exactly the entries `gs`
    from position `c` on, and `end_` is the end of these entries, not before the commit offset. -/
def FindsCommonPrefix (fol : DareLog) (end_ c : Nat) (gs : List DareLogEntry) : Prop :=
  IsOffset fol.len (advance entryFormat fol.len c gs) end_ ∧
    ∃ visited stop, readerWalk { fol with end_ := end_ } (walkFuel fol) fol.commit =
      some (visited, stop) ∧ visited.map (readEntry fol.entries) = gs

/-- When the run `gs` of the entries `fs` can be cut off: the leader does not look empty while
    it has common entries; a header still fits where the run ends, if something is cut off; and
    the run does not end exactly at the buffer end, if nothing is. -/
structure CutOk (ldr fol : DareLog) (c : Nat) (gs fs : List DareLogEntry) : Prop where
  not_empty : gs ≠ [] → ldr.end_ ≠ ldr.len
  header_fits : gs ≠ fs →
    advance entryFormat fol.len c gs % fol.len + ENTRY_SIZE ≤ fol.len
  not_exact : gs = fs → advance entryFormat fol.len c gs % fol.len ≠ 0

/-! ### The determinants -/

/-- The determinants of the entries `es` from position `v` on. -/
def dets (len : Nat) : Nat → List DareLogEntry → List DareLogEntryDet
  | _, [] => []
  | v, e :: es =>
    ⟨e.idx, e.term, headerOffset entryFormat len v⟩ :: dets len (place len v e.size + e.size) es

variable {log ldr fol : DareLog} {V W v c off o : Nat} {e : DareLogEntry}
  {es gs ls fs rest : List DareLogEntry}

theorem Cursor.map_entryDet (hV : EndsAt log V) (hc : Cursor log V v off es) :
    (headerOffsets entryFormat log.len v es).map (entryDet log.entries) = dets log.len v es := by
  induction es generalizing v off with
  | nil => rfl
  | cons e es ih =>
    have hhdr := hc.header
    rw [headerOffsets, List.map_cons, entryFormat_size, ih (hc.next hV), dets, entryDet, hhdr.1,
      hhdr.2.1]

/-- `log_entries_to_nc_buf` collects the determinants of the not committed entries. -/
theorem logEntriesToNcBuf_eq (hV : EndsAt log V) (hne : log.end_ ≠ log.len)
    (hc : Cursor log V v log.commit es) : logEntriesToNcBuf log = some (dets log.len v es) := by
  have hfuel := hc.fuel hV
  obtain ⟨stop, hwalk, -⟩ := hc.headerWalk hV hne (show es.length + 1 ≤ walkFuel log by omega)
  rw [logEntriesToNcBuf, hwalk, Option.map_some, hc.map_entryDet hV]

/-- A log that looks empty publishes nothing. -/
theorem logEntriesToNcBuf_of_end_eq_len (h : log.end_ = log.len) :
    logEntriesToNcBuf log = some [] := by
  rw [logEntriesToNcBuf, walkFuel, headerWalk, logGetEntry_of_end_eq_len h]
  rfl

/-! ### The search -/

/-- The leader finds the header of the entry in front of a cursor at the recorded offset. -/
theorem Cursor.getEntry_headerOffset (hV : EndsAt log V) (hne : log.end_ ≠ log.len)
    (hc : Cursor log V v off (e :: es)) :
    logGetEntry log (headerOffset entryFormat log.len v) =
      some (headerOffset entryFormat log.len v) := by
  obtain ⟨w, -, -, hw⟩ := hc.found hV
  have hget := hw.getEntry_cons hV hne
  have hsame := logGetEntry_eq_of_fit (headerOffset_add_le hV.entrySize_le_len v) hget
  rw [hget, hsame]

/-- What the leader finds does not pass for the first entry of `tl`. -/
def Stops (ldr : DareLog) (v : Nat) (tl : List DareLogEntry) : Prop :=
  ∀ e ∈ tl.head?, ∀ o, logGetEntry ldr (headerOffset entryFormat ldr.len v) = some o →
    getU64 ldr.entries o ≠ e.idx ∨ getU64 ldr.entries (o + 8) ≠ e.term

/-- At a determinant that the leader does not find, the search stops with its offset. -/
theorem logFindRemoteEndOffset_of_stops (hlen : ENTRY_SIZE ≤ ldr.len)
    (h : Stops ldr v (e :: es)) :
    logFindRemoteEndOffset ldr o (dets ldr.len v (e :: es)) =
      headerOffset entryFormat ldr.len v := by
  rw [dets, logFindRemoteEndOffset]
  split
  · rfl
  · rename_i entry hget
    have hsame := logGetEntry_eq_of_fit (headerOffset_add_le hlen v) hget
    rw [if_pos (h e rfl entry hget), hsame]

/-- The search passes the entries that the leader has, and ends behind them if there are no
    others. -/
theorem Cursor.findRemoteEnd (hV : EndsAt log V) (hne : log.end_ ≠ log.len)
    (hc : Cursor log V v off (gs ++ rest)) (hstop : Stops log (advance entryFormat log.len v gs) fs) :
    (fs ≠ [] → logFindRemoteEndOffset log o (dets log.len v (gs ++ fs)) =
      headerOffset entryFormat log.len (advance entryFormat log.len v gs)) ∧
    (fs = [] → gs ≠ [] → ∃ r, logFindRemoteEndOffset log o (dets log.len v (gs ++ fs)) = r ∧
      0 < r ∧ IsOffset log.len (advance entryFormat log.len v gs) r) := by
  induction gs generalizing v off o with
  | nil =>
    refine ⟨fun hfs => ?_, fun _ hgs => absurd rfl hgs⟩
    obtain ⟨e, es, rfl⟩ := List.exists_cons_of_ne_nil hfs
    exact logFindRemoteEndOffset_of_stops hV.entrySize_le_len hstop
  | cons e gs ih =>
    -- the first entry is that of the leader, and the search goes on behind it
    have hstep : logFindRemoteEndOffset log o (dets log.len v (e :: gs ++ fs)) =
        logFindRemoteEndOffset log (place log.len v e.size % log.len + e.size)
          (dets log.len (place log.len v e.size + e.size) (gs ++ fs)) := by
      rw [List.cons_append, dets, logFindRemoteEndOffset, hc.getEntry_headerOffset hV hne]
      have hhdr := hc.header
      simp only [hhdr.1, hhdr.2.1, ne_eq, not_true_eq_false, or_self, if_false]
      rw [hc.headerStep hV, hhdr.2.2]
    have hnext := hc.next hV
    obtain ⟨hcut, hall⟩ := ih (o := place log.len v e.size % log.len + e.size) hnext hstop
    refine ⟨fun hfs => ?_, fun hfs _ => ?_⟩
    · rw [hstep, hcut hfs]; rfl
    · rw [hstep]
      by_cases hgs : gs = []
      · have hsize := e.entrySize_le_size
        subst hgs hfs
        refine ⟨_, rfl, ?_, hnext.offset⟩
        simp only [List.append_nil, dets, logFindRemoteEndOffset]
        simp only [ENTRY_SIZE] at hsize
        omega
      · exact hall hfs hgs

/-! ### When the end found is right -/

/-- The common run has a rest, which starts with an entry that does not occur. -/
theorem exists_rest (es fs : List DareLogEntry) :
    ∃ tl, fs = commonRun es fs ++ tl ∧ ∀ e ∈ tl.head?, occurs es e = false := by
  refine ⟨fs.dropWhile (occurs es), List.takeWhile_append_dropWhile.symm, fun e he => ?_⟩
  have hnot := List.head?_dropWhile_not (occurs es) fs
  rw [Option.mem_def.mp he] at hnot
  exact hnot

/-- The leader stops at the first entry that does not occur in its log. -/
theorem LogMatching.stops {tl : List DareLogEntry} (h : LogMatching ldr W c ls (gs ++ tl))
    (hnot : ∀ e ∈ tl.head?, occurs ls e = false) :
    Stops ldr (advance entryFormat ldr.len c gs) tl := by
  intro e he o hget
  by_contra hcon
  have hcon := not_or.mp hcon
  obtain ⟨rest, rfl⟩ : ∃ rest, tl = e :: rest := List.head?_eq_some_iff.mp he
  have hocc := h.live gs e ⟨rest, by rw [List.append_assoc]; rfl⟩ o hget (not_not.mp hcon.1)
    (not_not.mp hcon.2)
  rw [hnot e he] at hocc
  cases hocc

/-- With a common entry, the commit offset of the other log is a cursor of the leader's. -/
theorem LogMatching.aligned {tl : List DareLogEntry} (h : LogMatching ldr W c ls (gs ++ tl))
    (hgs : gs ≠ []) (hocc : ∀ e ∈ gs, occurs ls e = true) :
    ∃ off rest, Cursor ldr W c off (gs ++ rest) := by
  have hsplit := List.dropLast_concat_getLast hgs
  obtain ⟨off, rest, hc⟩ := h.agree gs.dropLast (gs.getLast hgs)
    ⟨tl, by rw [hsplit]⟩ (hocc _ (List.getLast_mem hgs))
  refine ⟨off, rest, ?_⟩
  rw [← List.singleton_append, ← List.append_assoc, hsplit] at hc
  exact hc

/-- What the leader finds: the place of the first entry it cuts off, unless it looks empty. -/
theorem LogMatching.search (gs : List DareLogEntry) {tl : List DareLogEntry} (hldr : EndsAt ldr W)
    (h : LogMatching ldr W c ls (gs ++ tl)) (hocc : ∀ e ∈ gs, occurs ls e = true)
    (hnot : ∀ e ∈ tl.head?, occurs ls e = false) (hne : gs ≠ [] → ldr.end_ ≠ ldr.len) :
    (tl ≠ [] → logFindRemoteEndOffset ldr o (dets ldr.len c (gs ++ tl)) =
      headerOffset entryFormat ldr.len (advance entryFormat ldr.len c gs)) ∧
    (tl = [] → gs ≠ [] → ∃ r, logFindRemoteEndOffset ldr o (dets ldr.len c (gs ++ tl)) = r ∧
      0 < r ∧ IsOffset ldr.len (advance entryFormat ldr.len c gs) r) := by
  have hstop := h.stops hnot
  by_cases hgs : gs = []
  · subst hgs
    refine ⟨fun htl => ?_, fun _ hcon => absurd rfl hcon⟩
    obtain ⟨e, rest, rfl⟩ := List.exists_cons_of_ne_nil htl
    exact logFindRemoteEndOffset_of_stops hldr.entrySize_le_len hstop
  · obtain ⟨off, rest, hc⟩ := h.aligned hgs hocc
    exact hc.findRemoteEnd hldr (hne hgs) hstop

/-- A leader that looks empty finds the place of the first determinant. -/
theorem search_of_end_eq_len (hlen : ENTRY_SIZE ≤ ldr.len) (h : ldr.end_ = ldr.len) :
    logFindRemoteEndOffset ldr o (dets ldr.len c (e :: es)) =
      headerOffset entryFormat ldr.len c := by
  refine logFindRemoteEndOffset_of_stops hlen fun e _ o hget => ?_
  rw [logGetEntry_of_end_eq_len h] at hget
  cases hget

/-- The place of the first entry is not the end of a run that contains it. -/
theorem Cursor.headerOffset_ne_end {tl : List DareLogEntry} (hV : EndsAt log V)
    (hc : Cursor log V v off (e :: gs ++ tl)) :
    ¬ IsOffset log.len (advance entryFormat log.len v (e :: gs))
      (headerOffset entryFormat log.len v) := by
  intro hcon
  have hlen := hV.len_pos
  have hhdr := e.entrySize_le_size
  have hwindow := hc.window
  have hstop := hc.stop
  obtain ⟨w, hvw, hwp, hw⟩ := hc.found hV
  have hp : place log.len v e.size + e.size ≤ advance entryFormat log.len v (e :: gs) :=
    le_advance hlen gs
  have hV' : advance entryFormat log.len v (e :: gs) ≤ V := by
    rw [← hstop, advance_append]
    exact le_advance hlen tl
  simp only [ENTRY_SIZE] at hhdr
  have hne : w % log.len ≠ advance entryFormat log.len v (e :: gs) % log.len :=
    mod_ne_of_lt (by omega) (by omega)
  rw [← hw.offset.2, hcon.2] at hne
  exact hne rfl

/-- The search finds the end of the common run exactly when that run can be cut off. -/
theorem findsCommonPrefix_iff (hldr : EndsAt ldr W) (hfol : EndsAt fol V)
    (hlen : ldr.len = fol.len) (hc : Cursor fol V c fol.commit fs)
    (hmatch : LogMatching ldr W c ls fs) {nc : List DareLogEntryDet}
    (hnc : logEntriesToNcBuf fol = some nc) (hne : nc ≠ []) :
    FindsCommonPrefix fol (logFindRemoteEndOffset ldr o nc) c (commonRun ls fs) ↔
      CutOk ldr fol c (commonRun ls fs) fs := by
  have hend : fol.end_ ≠ fol.len := fun h => by
    rw [logEntriesToNcBuf_of_end_eq_len h] at hnc
    exact hne (Option.some.inj hnc).symm
  rw [logEntriesToNcBuf_eq hfol hend hc] at hnc
  obtain rfl := Option.some.inj hnc
  obtain ⟨tl, hfs, hnot⟩ := exists_rest ls fs
  have hocc : ∀ e ∈ commonRun ls fs, occurs ls e = true := fun e he =>
    List.mem_takeWhile_imp he
  generalize commonRun ls fs = gs at *
  subst hfs
  have hsearch := fun hnonempty => hlen ▸ hmatch.search _ (o := o) hldr hocc hnot hnonempty
  have hcases : (gs ++ tl = gs) ↔ tl = [] := by simp
  constructor
  · rintro ⟨hoff, visited, stop, hwalk, hvisited⟩
    have hnonempty : gs ≠ [] → ldr.end_ ≠ ldr.len := by
      intro hgs hcon
      obtain ⟨e, gs, rfl⟩ := List.exists_cons_of_ne_nil hgs
      rw [List.cons_append, ← hlen, search_of_end_eq_len hldr.entrySize_le_len hcon, hlen] at hoff
      exact hc.headerOffset_ne_end hfol hoff
    obtain ⟨hcut, hall⟩ := hsearch hnonempty
    refine ⟨hnonempty, fun hgs => ?_, fun hgs hzero => ?_⟩
    · -- a header that wraps is found at offset `0`, which is behind the end of the run
      have htl : tl ≠ [] := fun h => hgs (hcases.mpr h).symm
      rw [hcut htl] at hoff
      by_contra hwrap
      have hzero : advance entryFormat fol.len c gs % fol.len = 0 := by
        rw [← hoff.2, headerOffset, entryFormat_hdr, if_neg hwrap, Nat.zero_mod]
      rw [hzero, Nat.zero_add] at hwrap
      exact hwrap hfol.entrySize_le_len
    · -- the end found is the mark of an empty log, and the walk visits nothing
      have htl := hcases.mp hgs.symm
      have hgs' : gs ≠ [] := by
        rintro rfl
        rw [htl] at hne
        exact hne rfl
      obtain ⟨r, hr, hpos, hroff⟩ := hall htl hgs'
      rw [hr] at hwalk
      have hrlen : r = fol.len := by
        rcases hroff.cases hfol.len_pos with h | ⟨h, -⟩ <;> omega
      have hempty : ({ fol with end_ := r } : DareLog).end_ =
          ({ fol with end_ := r } : DareLog).len := hrlen
      rw [walkFuel, readerWalk, logGetEntry_of_end_eq_len hempty] at hwalk
      obtain ⟨rfl, -⟩ := Prod.mk.inj (Option.some.inj hwalk)
      exact hgs' hvisited.symm
  · rintro ⟨hnonempty, hfits, hexact⟩
    obtain ⟨hcut, hall⟩ := hsearch hnonempty
    -- the end found is the remainder of the position where the run ends
    have hr : logFindRemoteEndOffset ldr o (dets fol.len c (gs ++ tl)) =
        advance entryFormat fol.len c gs % fol.len := by
      by_cases htl : tl = []
      · have hgs : gs ≠ [] := by
          rintro rfl
          rw [htl] at hne
          exact hne rfl
        obtain ⟨r, hr, -, hroff⟩ := hall htl hgs
        rcases hroff.cases hfol.len_pos with h | ⟨-, h⟩
        · rw [hr, h]
        · exact absurd h (hexact (hcases.mpr htl).symm)
      · rw [hcut htl, headerOffset, entryFormat_hdr,
          if_pos (hfits fun h => htl (hcases.mp h.symm))]
    rw [hr]
    have hoff := isOffset_mod (v := advance entryFormat fol.len c gs) hfol.len_pos
    obtain ⟨hend', hcut'⟩ := hc.cut hfol hoff
    have hlt := Nat.mod_lt (advance entryFormat fol.len c gs) hfol.len_pos
    obtain ⟨stop, hwalk, -⟩ := hcut'.readerWalk hend' (by show _ % fol.len ≠ fol.len; omega)
      (hcut'.fuel hend')
    exact ⟨hoff, _, stop, hwalk, hcut'.map_readEntry⟩

/-! ### A voter with one entry more -/

section Example

/-- The leader has one entry, at offset `0`. -/
def shortLeader : DareLog := logOf 0 0 64 (writeNoop zeroMem 0 1)

/-- The voter has a second one behind it. -/
def longVoter : DareLog := logOf 0 0 128 (writeNoop (writeNoop zeroMem 0 1) 64 2)

theorem chain_first : Chain entryFormat (writeNoop zeroMem 0 1) LOG_SIZE 0 [noop 1] :=
  chain_writeNoop [] (w := 0) (by decide) trivial rfl (by decide) (by decide)

theorem cursor_shortLeader : Cursor shortLeader 64 0 0 [noop 1] :=
  cursor_logOf ⟨Nat.zero_le _, rfl⟩ (by decide) chain_first (by decide)

theorem cursor_longVoter : Cursor longVoter 128 0 0 [noop 1, noop 2] :=
  cursor_logOf ⟨Nat.zero_le _, rfl⟩ (by decide)
    (chain_writeNoop _ (w := 64) (by decide) chain_first (by decide) (by decide) (by decide)) (by decide)

/-- Where an entry of two entries can be. -/
theorem prefix_pair {a b : DareLogEntry} (h : gs ++ [e] <+: [a, b]) :
    (gs = [] ∧ e = a) ∨ (gs = [a] ∧ e = b) := by
  rcases gs with _ | ⟨g, _ | ⟨g', gs⟩⟩
  · exact .inl ⟨rfl, (List.cons_prefix_cons.mp h).1⟩
  · obtain ⟨hg, h⟩ := List.cons_prefix_cons.mp h
    obtain ⟨he, -⟩ := List.cons_prefix_cons.mp h
    exact .inr ⟨by rw [hg], he⟩
  · have hle := h.length_le
    simp at hle

/-- The logs have the first entry in common. -/
theorem logMatching_shortLeader : LogMatching shortLeader 64 0 [noop 1] [noop 1, noop 2] := by
  refine ⟨⟨0, cursor_shortLeader⟩, fun gs e hprefix hocc => ?_, fun gs e hprefix o hget _ _ => ?_⟩
  · rcases prefix_pair hprefix with ⟨rfl, rfl⟩ | ⟨rfl, rfl⟩
    · exact ⟨0, [], cursor_shortLeader⟩
    · exact absurd hocc (by decide)
  · rcases prefix_pair hprefix with ⟨rfl, rfl⟩ | ⟨rfl, rfl⟩
    · decide
    · -- the leader's log ends where the second entry is
      have hoff : headerOffset entryFormat shortLeader.len
          (advance entryFormat shortLeader.len 0 [noop 1]) = 64 := by decide
      rw [hoff] at hget
      cases hget

theorem commonRun_shortLeader : commonRun [noop 1] [noop 1, noop 2] = [noop 1] := by decide

/-- The end the leader finds is that of the common entry. -/
theorem findsCommonPrefix_iff_longVoter :
    FindsCommonPrefix longVoter
      (logFindRemoteEndOffset shortLeader 0 (dets LOG_SIZE 0 [noop 1, noop 2])) 0 [noop 1] := by
  have hldr : EndsAt shortLeader 64 := endsAt_logOf ⟨by decide, rfl⟩
  have hfol : EndsAt longVoter 128 := endsAt_logOf ⟨by decide, rfl⟩
  have hnc := logEntriesToNcBuf_eq hfol (by decide) cursor_longVoter
  have h := findsCommonPrefix_iff (o := 0) hldr hfol rfl cursor_longVoter logMatching_shortLeader
    hnc (List.cons_ne_nil _ _)
  rw [commonRun_shortLeader] at h
  refine h.mpr ⟨fun _ => by decide, fun _ => by decide, fun hcon => ?_⟩
  exact absurd (congrArg List.length hcon) (by decide)

end Example

/-! ### A header that wraps -/

section Wrapped

/-- The leader has one entry, behind which no header fits in the buffer. -/
def endLeader : DareLog :=
  logOf (LOG_SIZE - 96) (LOG_SIZE - 96) (LOG_SIZE - 32) (writeNoop zeroMem (LOG_SIZE - 96) 1)

/-- The voter, which has committed that entry, has a second one, at offset `0`. -/
def wrapVoter : DareLog :=
  logOf (LOG_SIZE - 96) (LOG_SIZE - 32) 64 (writeNoop (writeNoop zeroMem (LOG_SIZE - 96) 1) 0 2)

theorem cursor_endLeader : Cursor endLeader (LOG_SIZE - 32) (LOG_SIZE - 96) (LOG_SIZE - 96) [noop 1] :=
  cursor_logOf ⟨by decide, rfl⟩ (by decide)
    (chain_writeNoop [] (w := LOG_SIZE - 96) (by decide) trivial rfl (by decide) (by decide))
    (by decide)

theorem cursor_wrapVoter :
    Cursor wrapVoter (LOG_SIZE + 64) (LOG_SIZE - 32) (LOG_SIZE - 32) [noop 2] :=
  cursor_logOf ⟨by decide, rfl⟩ (by decide)
    (chain_writeNoop [] (w := LOG_SIZE - 32) (by decide) trivial rfl (by decide) (by decide))
    (by decide)

theorem headerOffset_wrapVoter : headerOffset entryFormat LOG_SIZE (LOG_SIZE - 32) = 0 := by decide

/-- The logs agree on the committed entry; the voter's other one is not in the leader's log. -/
theorem logMatching_endLeader :
    LogMatching endLeader (LOG_SIZE - 32) (LOG_SIZE - 32) [noop 1] [noop 2] := by
  have hsingle : ∀ {gs : List DareLogEntry} {e : DareLogEntry}, gs ++ [e] <+: [noop 2] →
      gs = [] ∧ e = noop 2 := by
    intro gs e h
    rcases prefix_pair (h.trans (List.prefix_append [noop 2] [noop 2])) with heq | ⟨rfl, -⟩
    · exact heq
    · have hle := h.length_le
      simp at hle
  refine ⟨⟨_, cursor_endLeader⟩, fun gs e hprefix hocc => ?_,
    fun gs e hprefix o hget hidx _ => ?_⟩
  · obtain ⟨rfl, rfl⟩ := hsingle hprefix
    exact absurd hocc (by decide)
  · obtain ⟨rfl, rfl⟩ := hsingle hprefix
    have ho := logGetEntry_eq_of_fit (headerOffset_add_le (by decide) _) hget
    -- the leader's buffer is empty at offset `0`
    have hzero : getU64 endLeader.entries 0 = getU64 zeroMem 0 :=
      getU64_congr fun x _ hx => writeNoop_of_outside (by
        left
        exact Nat.lt_of_lt_of_le hx (by decide))
    have hstart : headerOffset entryFormat endLeader.len
        (advance entryFormat endLeader.len (LOG_SIZE - 32) []) = 0 := headerOffset_wrapVoter
    rw [ho, hstart, hzero] at hidx
    exact absurd hidx (by decide)

/-- Without a common entry the end found is the place of the voter's entry, and the walk visits
    that entry. -/
theorem not_findsCommonPrefix :
    ¬ ∀ (ldr fol : DareLog) (W V c : Nat) (ls fs : List DareLogEntry)
        (nc : List DareLogEntryDet), EndsAt ldr W → EndsAt fol V → ldr.len = fol.len →
      Cursor fol V c fol.commit fs → LogMatching ldr W c ls fs →
      logEntriesToNcBuf fol = some nc → nc ≠ [] →
      ∃ visited stop, readerWalk { fol with end_ := logFindRemoteEndOffset ldr 0 nc }
          (walkFuel fol) fol.commit = some (visited, stop) ∧
        visited.map (readEntry fol.entries) = commonRun ls fs := by
  intro hall
  have hldr : EndsAt endLeader (LOG_SIZE - 32) := endsAt_logOf ⟨by decide, rfl⟩
  have hfol : EndsAt wrapVoter (LOG_SIZE + 64) := endsAt_logOf ⟨by decide, by decide⟩
  have hnc := logEntriesToNcBuf_eq hfol (by decide) cursor_wrapVoter
  obtain ⟨visited, stop, hwalk, hvisited⟩ := hall _ _ _ _ _ _ _ _ hldr hfol rfl cursor_wrapVoter
    logMatching_endLeader hnc (List.cons_ne_nil _ _)
  have hrun : commonRun [noop 1] [noop 2] = [] := by decide
  obtain ⟨hcut, -⟩ := logMatching_endLeader.search [] (o := 0) hldr (by simp)
    (by decide) (fun h => absurd rfl h)
  have hend : logFindRemoteEndOffset endLeader 0 (dets wrapVoter.len (LOG_SIZE - 32) [noop 2]) = 0 :=
    (hcut (List.cons_ne_nil _ _)).trans headerOffset_wrapVoter
  -- the voter's log with the end found
  let cut := logOf (LOG_SIZE - 96) (LOG_SIZE - 32) 0 wrapVoter.entries
  have hget : logGetEntry cut (LOG_SIZE - 32) = some 0 := by
    rw [← headerOffset_wrapVoter]
    have hend' : EndsAt cut LOG_SIZE := endsAt_logOf ⟨by decide, by decide⟩
    exact logGetEntry_of_lt hend' (by decide) cursor_wrapVoter.offset (by decide) (by decide)
  have hfit : logFitEntry cut 0 0 = true := (cursor_wrapVoter.fit_iff hfol).mpr (by decide)
  have hstep : readerWalk cut (walkFuel wrapVoter) (LOG_SIZE - 32) = some ([], stop) := by
    rw [hrun, List.map_eq_nil_iff] at hvisited
    rw [hend, hvisited] at hwalk
    exact hwalk
  rw [walkFuel, readerWalk, hget] at hstep
  simp only [hfit, if_true] at hstep
  obtain ⟨r, -, hr⟩ := Option.map_eq_some_iff.mp hstep
  exact List.cons_ne_nil _ _ (Prod.mk.inj hr).1

end Wrapped

end Apus
