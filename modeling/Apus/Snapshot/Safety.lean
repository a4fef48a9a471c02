import Apus.Commit.Invariant
import Apus.Persist.Safety
import Apus.Snapshot.Model

namespace Apus

open Lib

/-!
# Snapshots are the applied prefix

The follower's log is a window of the entries written to it, in which the apply and the commit
offset are spots (`Applying`).  So is the offset of `last_applied_entry`, from which a server that
recovers the snapshot starts: it is an apply offset of the same log.

* `Applying.iter`, `Applying.loop` — an iteration of the loop, and the whole loop;
* `SnapshotInv` — what is stored and what is applied are the first entries written;
* `snapshot_exact` — with no client entry between the two cursors, a snapshot is the applied prefix.
-/

variable {log log' : DareLog} {hist : List DareLogEntry} {lo u w off : Nat} {a b k : Spot}
  {e : DareLogEntry} {s s' : SnapshotState}

/-! ### Spots -/

/-- `off` is the offset of a spot between `u` and the end. -/
structure SpotAt (log : DareLog) (hist : List DareLogEntry) (u : Nat) (a : Spot) (off : Nat) :
    Prop extends PlaceAt log hist u a.count a.pos off where
  soft : SoftMark entryFormat log.len hist a.count a.pos

/-- Behind the last entry that a walk from a spot has visited is a spot. -/
theorem SpotAt.walkTo {start : Nat} {visited : List Nat} (h : LogWindow log hist lo u)
    (hE : EndsAt log (logPos log hist hist.length)) (ha : SpotAt log hist u a start)
    (hw : WalkTo log start visited off) (hoff : off = afterLast log start visited) :
    ∃ k, SpotAt log hist u k off ∧ a.pos ≤ k.pos ∧ a.count ≤ k.count := by
  cases hlast : visited.getLast? with
  | none =>
    obtain rfl := List.getLast?_eq_none_iff.mp hlast
    obtain rfl : off = start := hoff
    exact ⟨a, ha, le_refl _, le_refl _⟩
  | some entry =>
    have hne : log.end_ ≠ log.len := by
      intro hcon
      obtain ⟨rfl, -⟩ := hw.of_end_eq_len hcon
      cases hlast
    have hwin := h.place ha.toPlaceAt
    have hafter := hwin.walkTo_afterLast hE hne ha.offset hw hlast
    obtain ⟨w, hp⟩ := hwin.placeAt hE hne ha.offset hw
    have hcount := hp.count_le
    have hsome : off = entry + logEntryLen log.entries entry := by
      rw [hoff, afterLast, hlast]
      rfl
    -- the walk visited an entry, so that it ended behind its start
    have hpos : 0 < visited.length := by
      rw [List.length_pos_iff]
      rintro rfl
      cases hlast
    have hle : a.pos ≤ logPos log hist (a.count + visited.length) := by
      have hmark : Mark entryFormat log.len hist (a.count + visited.length)
          (logPos log hist (a.count + visited.length)) := Mark.pos _
      exact (ha.mark.lt h.len_pos hmark (by omega) (by omega)).le
    refine ⟨⟨a.count + visited.length, logPos log hist (a.count + visited.length)⟩,
      ⟨⟨Mark.pos _, ha.le.trans hle, pos_mono h.len_pos hcount, hcount, ?_⟩, SoftMark.pos _⟩, hle,
      Nat.le_add_right _ _⟩
    rw [hsome]
    exact hafter

/-- A new head offset from which a place is reached is not past it. -/
theorem PlaceAt.le_of_walk {start n lo' u' : Nat} {visited : List Nat} (h : LogWindow log hist lo u)
    (hE : EndsAt log (logPos log hist hist.length)) (hempty : log.end_ = log.len → hist = [])
    (hp : PlaceAt log hist u n w start) (hwin : LogWindow log hist lo' u')
    (hoff : IsOffset log.len u' off) (hw : WalkTo log off visited start) : u' ≤ w := by
  by_cases hne : log.end_ = log.len
  · have hle : u' ≤ logPos log hist hist.length := hwin.le_end
    rw [hempty hne] at hle
    have hzero : logPos log [] ([] : List DareLogEntry).length = 0 := pos_zero
    omega
  · -- there is only one such place less than a lap behind the end
    obtain ⟨w', hp'⟩ := hwin.placeAt hE hne hoff hw
    have hle := hp'.le
    have hend := hp'.le_end
    have hwindow : logPos log hist hist.length < u + log.len := h.window
    have hwindow' : logPos log hist hist.length < u' + log.len := hwin.window
    have hu := hp.le
    have hwend := hp.le_end
    have hsame : w' = w := hp'.offset.eq_of_lt hp.offset (by omega) (by omega)
    omega

/-! ### The apply loop -/

/-- A log that holds the history behind `u`, with its apply and commit offsets. -/
structure Applying (log : DareLog) (hist : List DareLogEntry) (lo u : Nat) (a k : Spot) : Prop where
  window : LogWindow log hist lo u
  endOff : IsOffset log.len (logPos log hist hist.length) log.end_
  empty : log.end_ = log.len → hist = []
  offsets : Offsets log hist a k
  le_apply : u ≤ a.pos
  commit_le : k.pos ≤ logPos log hist hist.length
  commitCount : k.count ≤ hist.length

namespace Applying

theorem endsAt (h : Applying log hist lo u a k) :
    EndsAt log (logPos log hist hist.length) := ⟨h.window.hdr_le_len, h.endOff⟩

theorem count_le (h : Applying log hist lo u a k) : a.count ≤ hist.length :=
  h.offsets.count_le.trans h.commitCount

theorem applyAt (h : Applying log hist lo u a k) :
    PlaceAt log hist u a.count a.pos log.apply :=
  ⟨h.offsets.apply.mark, h.le_apply, h.offsets.pos_le.trans h.commit_le, h.count_le,
    h.offsets.applyOff⟩

theorem commitAt (h : Applying log hist lo u a k) :
    PlaceAt log hist u k.count k.pos log.commit :=
  ⟨h.offsets.commit.mark, h.le_apply.trans h.offsets.pos_le, h.commit_le, h.commitCount,
    h.offsets.commitOff⟩

/-- The loop goes on while the apply offset is before the commit offset. -/
theorem guard_iff (h : Applying log hist lo u a k) : applyGuard log = true ↔ a.pos < k.pos := by
  have hwindow : logPos log hist hist.length < u + log.len := h.window.window
  have hle := h.le_apply
  have hpos := h.offsets.pos_le
  have hend := h.commit_le
  refine logIsOffsetLarger_iff_pos h.endsAt (fun hne => ?_) h.offsets.commitOff h.offsets.applyOff
    hend (by omega) (by omega) (by omega)
  rw [h.empty hne]
  exact pos_zero

/-- At the commit offset there is nothing left to apply. -/
theorem count_eq (h : Applying log hist lo u a k) (hpos : a.pos = k.pos) : a.count = k.count := by
  have hle := h.offsets.count_le
  have hcount := h.commitCount
  by_contra hne
  have hlt := h.offsets.apply.mark.lt h.window.len_pos h.offsets.commit.mark (by omega) (by omega)
  omega

/-- One iteration: the apply offset moves to where the next entry is, or past it. -/
theorem iter (h : Applying log hist lo u a k) (hguard : applyGuard log = true) :
    ∃ off es a', applyIterFollower log = some ({ log with apply := off }, es) ∧
      Applying { log with apply := off } hist lo u a' k ∧ a.pos < a'.pos ∧
      hist.take a'.count = hist.take a.count ++ es ∧
      ((es = [] ∧ a'.count = a.count) ∨ ∃ e, es = [e] ∧ a'.count = a.count + 1) := by
  have ho := h.offsets
  have hlt := h.guard_iff.mp hguard
  have hne : log.end_ ≠ log.len := by
    intro hcon
    rw [applyGuard, logIsOffsetLarger_of_end_eq_len hcon] at hguard
    cases hguard
  have hwin := h.window.place h.applyAt
  have hlen := hwin.len_pos
  obtain ⟨e, entry, he, hget, hcases⟩ :=
    hwin.applies h.endsAt hne ho.applyOff ho.apply ho.commit hlt h.commit_le
  rcases hcases with hr | happ
  · -- the entry is at offset `0`
    obtain ⟨entry', hget', hfound⟩ := hwin.found h.endsAt hne ho.applyOff he
    obtain rfl := Option.some.inj (hget.symm.trans hget')
    have hheader := hfound.header_fits hr.fit
    have hplace : a.pos < place log.len a.pos e.size := by
      refine Nat.lt_of_le_of_ne (le_place hlen) fun heq => ?_
      have hin := place_mod_add_le (v := a.pos) hfound.size_le
      rw [← heq] at hin
      omega
    refine ⟨0, [], ⟨a.count, place log.len a.pos e.size⟩, ?_, ?_, hplace, by simp, .inl ⟨rfl, rfl⟩⟩
    · rw [applyIterFollower, hget]
      simp [hr.fit]
    · exact ⟨h.window, h.endOff, h.empty, ⟨hr.soft, hr.offset, ho.commit, ho.commitOff, hr.le,
        ho.count_le⟩, h.le_apply.trans hplace.le, h.commit_le, h.commitCount⟩
  · have hstep := (hwin.place_add_le he).2
    have hplace : a.pos ≤ place log.len a.pos e.size := le_place hlen
    have hsize := e.entrySize_le_size
    have hentry : 0 < ENTRY_SIZE := by decide
    have hmove : a.pos < logPos log hist (a.count + 1) := by omega
    refine ⟨entry + logEntryLen log.entries entry, [e], ⟨a.count + 1, logPos log hist (a.count + 1)⟩,
      ?_, ?_, hmove, ?_, .inr ⟨e, rfl, rfl⟩⟩
    · rw [applyIterFollower, hget]
      simp [happ.fit, happ.read, advanceApply]
    · exact ⟨h.window, h.endOff, h.empty, ⟨SoftMark.pos _, happ.offset, ho.commit, ho.commitOff,
        happ.le, happ.lt⟩, h.le_apply.trans hmove.le, h.commit_le, h.commitCount⟩
    · rw [List.take_add_one, he]
      rfl

/-- The whole loop applies the entries before the commit offset. -/
theorem loop (h : Applying log hist lo u a k) {fuel : Nat} (hfuel : k.pos - a.pos < fuel) :
    ∃ log', applyLoopFollower fuel log =
      some (log', (hist.drop a.count).take (k.count - a.count)) := by
  induction fuel generalizing log a with
  | zero => omega
  | succ fuel ih =>
    rw [applyLoopFollower]
    split
    · rename_i hguard
      obtain ⟨off, es, a', hiter, hinv, hmove, htake, -⟩ := h.iter hguard
      have hlt := h.guard_iff.mp hguard
      obtain ⟨log', hloop⟩ := ih hinv (by omega)
      rw [hiter]
      refine ⟨log', ?_⟩
      simp only [hloop, Option.map_some, Option.some.injEq, Prod.mk.injEq, true_and]
      -- both are what is applied between `a` and the commit offset
      have hcount := hinv.offsets.count_le
      have hcount' := h.offsets.count_le
      have hall : ∀ {n : Nat}, n ≤ k.count →
          hist.take n ++ (hist.drop n).take (k.count - n) = hist.take k.count := by
        intro n hn
        rw [← List.take_add, Nat.add_sub_cancel' hn]
      have hsplit := hall hcount
      rw [htake, List.append_assoc, ← hall hcount'] at hsplit
      exact List.append_cancel_left hsplit
    · rename_i hguard
      have hge := h.guard_iff.not.mp hguard
      have hpos := h.offsets.pos_le
      have heq := h.count_eq (by omega)
      refine ⟨log, ?_⟩
      rw [heq, Nat.sub_self, List.take_zero]

/-! ### What is written -/

/-- A change of the bytes that keeps the window. -/
theorem ofWindow (h : Applying log hist lo u a k) (hwin : LogWindow log' hist lo u)
    (hlen : log'.len = log.len) (hend : log'.end_ = log.end_) (happly : log'.apply = log.apply)
    (hcommit : log'.commit = log.commit) : Applying log' hist lo u a k := by
  have ho := h.offsets
  have hpos : ∀ n, logPos log' hist n = logPos log hist n := by
    intro n
    rw [logPos, hlen]
  refine ⟨hwin, ?_, ?_, ⟨?_, ?_, ?_, ?_, ho.pos_le, ho.count_le⟩, h.le_apply, ?_, h.commitCount⟩
  · rw [hpos, hlen, hend]
    exact h.endOff
  · rw [hlen, hend]
    exact h.empty
  · rw [hlen]
    exact ho.apply
  · rw [hlen, happly]
    exact ho.applyOff
  · rw [hlen]
    exact ho.commit
  · rw [hlen, hcommit]
    exact ho.commitOff
  · rw [hpos]
    exact h.commit_le

/-- The log is extended by the entries `es`. -/
theorem extend {es : List DareLogEntry} (h : Applying log hist lo u a k)
    (hwin : LogWindow log' (hist ++ es) lo u)
    (hend : IsOffset log'.len (logPos log' (hist ++ es) (hist ++ es).length) log'.end_)
    (hempty : log'.end_ = log'.len → hist ++ es = []) (hlen : log'.len = log.len)
    (happly : log'.apply = log.apply) (hcommit : log'.commit = log.commit) :
    Applying log' (hist ++ es) lo u a k := by
  have ho := h.offsets
  have hle := h.commit_le
  have hcount := h.count_le
  refine ⟨hwin, hend, hempty, ⟨?_, ?_, ?_, ?_, ho.pos_le, ho.count_le⟩, h.le_apply, ?_, ?_⟩
  · rw [hlen]
    exact ho.apply.append hcount
  · rw [hlen, happly]
    exact ho.applyOff
  · rw [hlen]
    exact ho.commit.append h.commitCount
  · rw [hlen, hcommit]
    exact ho.commitOff
  · have hold : logPos log' (hist ++ es) hist.length = logPos log hist hist.length := by
      rw [logPos, hlen]
      exact pos_append (le_refl _)
    have hmono : logPos log' (hist ++ es) hist.length ≤
        logPos log' (hist ++ es) (hist ++ es).length := pos_mono hwin.len_pos (by simp)
    omega
  · rw [List.length_append]
    exact Nat.le_add_right_of_le h.commitCount

/-- The log is cut behind the commit offset. -/
theorem cut {n : Nat} (h : Applying log hist lo u a k) (hn : n ≤ hist.length)
    (hwin : LogWindow { log with end_ := off } (hist.take n) lo u)
    (hend : IsOffset log.len (logPos log (hist.take n) (hist.take n).length) off)
    (hlt : off < log.len) (hk : k.count ≤ n) (hpos : k.pos ≤ logPos log hist n) :
    Applying { log with end_ := off } (hist.take n) lo u a k := by
  have ho := h.offsets
  have hlen := h.window.len_pos
  have hak := ho.count_le
  refine ⟨hwin, hend, fun hcon => absurd hcon hlt.ne, ⟨?_, ho.applyOff, ?_, ho.commitOff, ho.pos_le,
    ho.count_le⟩, h.le_apply, ?_, ?_⟩
  · exact ho.apply.take hlen (hak.trans hk) (ho.pos_le.trans hpos)
  · exact ho.commit.take hlen hk hpos
  · rw [List.length_take_of_le hn]
    exact hpos.trans (pos_take (le_refl n)).ge
  · rw [List.length_take_of_le hn]
    exact hk

theorem moveHead {lo' u' : Nat} (h : Applying log hist lo u a k)
    (hwin : LogWindow log hist lo' u') (hle : u' ≤ a.pos) :
    Applying { log with head := off } hist lo' u' a k :=
  ⟨hwin, h.endOff, h.empty, ⟨h.offsets.1, h.offsets.2, h.offsets.3, h.offsets.4, h.offsets.5,
    h.offsets.6⟩, hle, h.commit_le, h.commitCount⟩

theorem applySpot (h : Applying log hist lo u a k) : SpotAt log hist u a log.apply :=
  ⟨h.applyAt, h.offsets.apply⟩

/-- The commit offset moves to a spot that is not before the apply offset. -/
theorem setCommit {k' : Spot} (h : Applying log hist lo u a k) (hk : SpotAt log hist u k' off)
    (hpos : a.pos ≤ k'.pos) (hcount : a.count ≤ k'.count) :
    Applying { log with commit := off } hist lo u a k' :=
  ⟨h.window, h.endOff, h.empty, ⟨h.offsets.apply, h.offsets.applyOff, hk.soft, hk.offset, hpos,
    hcount⟩, h.le_apply, hk.le_end, hk.count_le⟩

end Applying

/-! ### The invariant -/

/-- The log of a follower, seen from the offset of `last_applied_entry`. -/
abbrev fromLast (log : DareLog) (last : DareLogEntryDet) : DareLog := { log with apply := last.offset }

/-- What is stored and what is applied are the first entries written; `a`, `b` and `k` are the spots
    of the apply offset, of the offset of `last_applied_entry`, and of the commit offset. -/
structure SnapshotInv (s : SnapshotState) (lo u : Nat) (a b k : Spot) : Prop where
  persist : PersistInv s.server lo u
  recovered : s.server.recovered = true
  follower : s.server.isLeader = false
  applying : Applying s.server.log s.server.written lo u a k
  last : Applying (fromLast s.server.log s.lastApplied) s.server.written lo u b k
  pos_le : b.pos ≤ a.pos
  count_le : b.count ≤ a.count
  /-- No entry with a command was applied behind `last_applied_entry`. -/
  between : ∀ e ∈ (s.server.written.take a.count).drop b.count, isCsm e.type = false
  applied : s.applied = s.server.written.take a.count
  db : s.db = (s.server.written.take s.server.stored.length).filter isClient
  label : ∀ e, (s.applied.filter fun e => isCsm e.type).getLast? = some e →
    s.lastApplied.idx = e.idx ∧ s.lastApplied.term = e.term

/-- A server whose log is new. -/
structure SnapshotJoining (s : SnapshotState) : Prop where
  persist : Joining s.server
  follower : s.server.isLeader = false
  lastApplied : s.lastApplied = ⟨0, 0, 0⟩
  applied : s.applied = s.db

/-- The invariant of the runs. -/
def SnapshotSafe (s : SnapshotState) : Prop :=
  SnapshotJoining s ∨ ∃ lo u a b k, SnapshotInv s lo u a b k

/-- An entry of a client has a command. -/
theorem isCsm_of_isClient (h : isClient e = true) : isCsm e.type = true := by
  simp only [isClient, Bool.or_eq_true, beq_iff_eq] at h
  rcases h with (h | h) | h <;> rw [h] <;> decide

/-- Entries without a command are not those of a client. -/
theorem filter_isClient_eq_nil {es : List DareLogEntry} (h : ∀ e ∈ es, isCsm e.type = false) :
    es.filter isClient = [] := by
  rw [List.filter_eq_nil_iff]
  intro e he hclient
  have hcsm := isCsm_of_isClient hclient
  rw [h e he] at hcsm
  cases hcsm

/-- A list and a longer prefix have the same client entries if none is between. -/
theorem filter_take_eq {es : List DareLogEntry} {m n : Nat} (hmn : m ≤ n)
    (h : ((es.take n).drop m).filter isClient = []) :
    (es.take m).filter isClient = (es.take n).filter isClient := by
  have hsplit := List.take_append_drop m (es.take n)
  rw [List.take_take, Nat.min_eq_left hmn] at hsplit
  rw [← hsplit, List.filter_append, h, List.append_nil]

namespace SnapshotInv

variable {server : PersistState} {lo' u' : Nat} {k' : Spot}

/-- A step that changes the log of the server, but neither the entries applied nor those stored. -/
theorem ofServer (h : SnapshotInv s lo u a b k) (hpersist : PersistInv server lo' u')
    (hrec : server.recovered = s.server.recovered) (hfollower : server.isLeader = s.server.isLeader)
    (hstored : server.stored = s.server.stored)
    (happlying : Applying server.log server.written lo' u' a k')
    (hlast : Applying (fromLast server.log s.lastApplied) server.written lo' u' b k')
    (htake : ∀ n, n ≤ a.count ∨ n ≤ s.server.stored.length →
      server.written.take n = s.server.written.take n) :
    SnapshotInv { s with server := server } lo' u' a b k' where
  persist := hpersist
  recovered := hrec.trans h.recovered
  follower := hfollower.trans h.follower
  applying := happlying
  last := hlast
  pos_le := h.pos_le
  count_le := h.count_le
  between := by
    intro e he
    simp only [htake a.count (.inl (le_refl _))] at he
    exact h.between e he
  applied := h.applied.trans (htake a.count (.inl (le_refl _))).symm
  db := by
    simp only [hstored, htake _ (.inr (le_refl _))]
    exact h.db
  label := h.label

theorem resetTail (h : SnapshotInv s lo u a b k) :
    SnapshotInv { s with server := { s.server with
      log := { s.server.log with tail := s.server.log.len } } } lo u a b k := by
  have hp := h.persist
  refine h.ofServer ⟨hp.window, hp.headOff, hp.endOff, hp.empty, .inl rfl, hp.lo_le,
    hp.cursor.of_len rfl, hp.keys, hp.increasing, hp.idx_lt⟩ rfl rfl rfl ?_ ?_ fun _ _ => rfl
  · exact h.applying.ofWindow hp.window rfl rfl rfl rfl
  · exact h.last.ofWindow hp.window rfl rfl rfl rfl

theorem update {ldr : DareLog} {rmtEnd : Nat} {es : List DareLogEntry}
    (h : SnapshotInv s lo u a b k) (hok : UpdateOk s.server ldr rmtEnd es) :
    SnapshotInv { s with server := { s.server with
      log := { s.server.log with
        entries := ringCopy s.server.log.len s.server.log.entries ldr.entries rmtEnd ldr.end_
        end_ := ldr.end_ }
      written := s.server.written ++ es } } lo u a b k := by
  have hp := h.persist.update hok
  refine h.ofServer hp rfl rfl rfl ?_ ?_ ?_
  · exact h.applying.extend hp.window hp.endOff hp.empty rfl rfl rfl
  · exact h.last.extend hp.window hp.endOff hp.empty rfl rfl rfl
  · intro n hn
    have hcount := h.applying.count_le
    have hcursor := h.persist.cursor.count_le
    exact List.take_append_of_le_length (by omega)

theorem adjust {off n : Nat} {visited : List Nat} (h : SnapshotInv s lo u a b k)
    (hok : AdjustOk s.server off n) (hw : WalkTo s.server.log s.server.log.commit visited off) :
    SnapshotInv { s with server := { s.server with
      log := { s.server.log with end_ := off }
      written := s.server.written.take n } } lo u a b k := by
  have hp := h.persist.adjust hok
  obtain ⟨hn, hmod⟩ := h.persist.adjust_place hok
  have hpos := h.persist.window.len_pos
  have hstored : s.server.stored.length ≤ n := by
    obtain ⟨visited, -, -, hn⟩ := hok.reached
    omega
  -- the new end is not before the commit offset
  have hcommit : k.count ≤ n ∧ k.pos ≤ logPos s.server.log s.server.written n := by
    have hmark : Mark entryFormat s.server.log.len s.server.written n
        (logPos s.server.log s.server.written n) := Mark.pos _
    by_cases hempty : s.server.log.end_ = s.server.log.len
    · have hcount := h.applying.commitCount
      have hend := h.applying.commit_le
      rw [h.applying.empty hempty] at hcount hend
      have hzero : logPos s.server.log [] ([] : List DareLogEntry).length = 0 := pos_zero
      rw [List.length_nil] at hcount
      omega
    · have hle : k.pos ≤ logPos s.server.log s.server.written n := by
        have hwin := h.applying.window.place h.applying.commitAt
        obtain ⟨w, hplace⟩ :=
          hwin.placeAt h.applying.endsAt hempty h.applying.commitAt.offset hw
        have hcursor := h.persist.cursor.le
        have hmono : logPos s.server.log s.server.written s.server.stored.length ≤
            logPos s.server.log s.server.written n := pos_mono hpos hstored
        have hmono' : logPos s.server.log s.server.written n ≤
            logPos s.server.log s.server.written s.server.written.length := pos_mono hpos hn
        have hu := h.applying.commitAt.le
        have hle := hplace.le
        have hend := hplace.le_end
        have hwindow : logPos s.server.log s.server.written s.server.written.length <
          u + s.server.log.len := h.persist.window.window
        have hoff : IsOffset s.server.log.len (logPos s.server.log s.server.written n) off :=
          ⟨hok.lt_len.le, hmod⟩
        have hsame := hplace.offset.eq_of_lt hoff (by omega) (by omega)
        omega
      exact ⟨h.applying.commitAt.mark.le_of_le hpos hmark hle h.applying.commitCount, hle⟩
  refine h.ofServer hp rfl rfl rfl ?_ ?_ ?_
  · exact h.applying.cut hn hp.window hp.endOff hok.lt_len hcommit.1 hcommit.2
  · exact h.last.cut hn hp.window hp.endOff hok.lt_len hcommit.1 hcommit.2
  · intro m hm
    have hcount := h.applying.offsets.count_le
    simp only [List.take_take]
    rw [Nat.min_eq_left (by omega)]

theorem reply {entry i : Nat} {c : UInt8} {live : List Nat} {stop : Nat}
    (h : SnapshotInv s lo u a b k) (hi : i < MAX_SERVER_COUNT)
    (hwalk : readerWalk s.server.log (walkFuel s.server.log) s.server.log.head = some (live, stop))
    (hentry : entry ∈ live) :
    SnapshotInv { s with server := { s.server with
      log := { s.server.log with
        entries := setReply s.server.log.entries entry i c } } } lo u a b k := by
  have hp := h.persist.reply (b := c) hi hwalk hentry
  refine h.ofServer hp rfl rfl rfl ?_ ?_ fun _ _ => rfl
  · exact h.applying.ofWindow hp.window rfl rfl rfl rfl
  · exact h.last.ofWindow hp.window rfl rfl rfl rfl

theorem setCommit {off : Nat} {visited : List Nat} (h : SnapshotInv s lo u a b k)
    (hw : WalkTo s.server.log s.server.log.apply visited off)
    (hoff : off = afterLast s.server.log s.server.log.apply visited) :
    ∃ k', SnapshotInv { s with server := { s.server with
      log := { s.server.log with commit := off } } } lo u a b k' := by
  have hp := h.persist
  obtain ⟨k', hk', hpos, hcount⟩ :=
    h.applying.applySpot.walkTo hp.window h.applying.endsAt hw hoff
  have hlastSpot : SpotAt (fromLast s.server.log s.lastApplied) s.server.written u k' off :=
    ⟨hk'.toPlaceAt.of_len rfl, hk'.soft⟩
  refine ⟨k', h.ofServer (hp.of_log hp.window rfl rfl rfl rfl hp.lo_le hp.cursor hp.keys) rfl rfl rfl
    (h.applying.setCommit hk' hpos hcount)
    (h.last.setCommit hlastSpot (h.pos_le.trans hpos) (h.count_le.trans hcount)) fun _ _ => rfl⟩

theorem prune {off : Nat} {visited : List Nat} (h : SnapshotInv s lo u a b k)
    (hok : persistOk s.server (.prune off))
    (hw : WalkTo s.server.log off visited s.lastApplied.offset) :
    ∃ lo' u', SnapshotInv { s with server := { s.server with
      log := { s.server.log with head := off } } } lo' u' a b k := by
  obtain ⟨⟨visited', hwalk⟩, ⟨vs, hcur⟩, htail⟩ := hok
  obtain ⟨u', hp⟩ := h.persist.prune hwalk hcur htail
  have hwin : LogWindow s.server.log s.server.written (lo + visited'.length) u' := hp.window
  have hlast : PlaceAt s.server.log s.server.written u b.count b.pos s.lastApplied.offset :=
    h.last.applyAt.of_len rfl
  have hle := hlast.le_of_walk h.persist.window h.applying.endsAt h.applying.empty hwin hp.headOff hw
  exact ⟨_, u', h.ofServer hp rfl rfl rfl (h.applying.moveHead hwin (hle.trans h.pos_le))
    (h.last.moveHead hwin hle) fun _ _ => rfl⟩

/-! ### The two loops -/

/-- `persist_new_entries` stores the records of the client entries it visits. -/
theorem stores {fuel : Nat} {r : DareLog × List Visit} (h : SnapshotInv s lo u a b k)
    (hcall : persistNewEntries s.server.idx s.server.isLeader fuel s.server.log = some r) :
    SnapshotInv { s with
      server := { s.server with
        log := r.1, stored := s.server.stored ++ r.2.map fun v => detKey v.det }
      db := s.db ++ clientsAt s.server.log.entries (r.2.map fun v => v.det.offset) }
      lo u a b k := by
  have hdone := h.persist.of_call hcall
  have hp := h.persist.persist hcall
  have hlen : r.1.len = s.server.log.len := by rw [hdone.frame]
  have hend : r.1.end_ = s.server.log.end_ := by rw [hdone.frame]
  have happly : r.1.apply = s.server.log.apply := by rw [hdone.frame]
  have hcommit : r.1.commit = s.server.log.commit := by rw [hdone.frame]
  refine ⟨hp, h.recovered, h.follower, h.applying.ofWindow hp.window hlen hend happly hcommit,
    h.last.ofWindow hp.window hlen hend rfl hcommit, h.pos_le, h.count_le, h.between, h.applied, ?_,
    h.label⟩
  -- everything written is stored now
  have hlength : (s.server.stored ++ r.2.map fun v => detKey v.det).length =
      s.server.written.length := by
    rw [hdone.keys, h.persist.keys_append, List.length_map]
  have hcur := (h.persist.window.place h.persist.cursor).cursor h.persist.cursor.offset
  simp only [hlength, List.take_length]
  rw [h.db, clientsAt, hdone.offsets, hcur.map_readEntry, ← List.filter_append,
    List.take_append_drop]

/-- An iteration of the apply loop. -/
theorem applies {log' : DareLog} {es : List DareLogEntry} (h : SnapshotInv s lo u a b k)
    (hguard : applyGuard s.server.log = true)
    (hiter : applyIterFollower s.server.log = some (log', es)) :
    ∃ a' b', SnapshotInv { s with
      server := { s.server with log := log' }
      lastApplied := es.foldl (noteApplied log') s.lastApplied
      applied := s.applied ++ es } lo u a' b' k := by
  obtain ⟨off, es', a', hiter', happlying, hmove, htake, hcases⟩ := h.applying.iter hguard
  obtain ⟨rfl, rfl⟩ := Prod.mk.inj (Option.some.inj (hiter.symm.trans hiter'))
  have hp := h.persist
  have hpersist : PersistInv { s.server with log := { s.server.log with apply := off } } lo u :=
    hp.of_log hp.window rfl rfl rfl rfl hp.lo_le hp.cursor hp.keys
  have happlied : s.applied ++ es = s.server.written.take a'.count := by rw [htake, h.applied]
  have hlength : (s.server.written.take a.count).length = a.count :=
    List.length_take_of_le h.applying.count_le
  rcases hcases with ⟨rfl, hcount⟩ | ⟨e, rfl, hcount⟩
  · -- the apply offset moved to where the entry is
    refine ⟨a', b, hpersist, h.recovered, h.follower, happlying, h.last.ofWindow hp.window rfl rfl rfl
      rfl, h.pos_le.trans hmove.le, by rw [hcount]; exact h.count_le, ?_, happlied, h.db, ?_⟩
    · intro e he
      simp only [hcount] at he
      exact h.between e he
    · rw [List.append_nil]
      exact h.label
  · by_cases hcsm : isCsm e.type = true
    · -- the entry is the last one applied
      refine ⟨a', a', hpersist, h.recovered, h.follower, happlying, ?_, le_refl _, le_refl _, ?_,
        happlied, h.db, ?_⟩
      · simp only [List.foldl_cons, List.foldl_nil, noteApplied, hcsm, if_true, fromLast]
        exact happlying
      · intro e' he'
        rw [List.drop_of_length_le (List.length_take_le _ _)] at he'
        cases he'
      · intro e' he'
        simp only [List.filter_append, List.filter_cons, hcsm, if_true, List.filter_nil,
          List.getLast?_concat, Option.some.injEq] at he'
        subst he'
        simp [noteApplied, hcsm]
    · rw [Bool.not_eq_true] at hcsm
      have hlast : [e].foldl (noteApplied { s.server.log with apply := off }) s.lastApplied =
          s.lastApplied := by simp [noteApplied, hcsm]
      rw [hlast]
      refine ⟨a', b, hpersist, h.recovered, h.follower, happlying, h.last.ofWindow hp.window rfl rfl
        rfl rfl, h.pos_le.trans hmove.le, by rw [hcount]; exact h.count_le.trans (Nat.le_succ _), ?_,
        happlied, h.db, ?_⟩
      · intro e' he'
        have hb := h.count_le
        simp only [htake] at he'
        rw [List.drop_append_of_le_length (by omega)] at he'
        rcases List.mem_append.mp he' with he' | he'
        · exact h.between e' he'
        · rw [List.mem_singleton.mp he']
          exact hcsm
      · intro e' he'
        refine h.label e' ?_
        simpa [List.filter_append, hcsm] using he'

/-! ### The start -/

/-- A log without a committed entry, seen from its start. -/
theorem init {server : PersistState} {k : Spot} (hp : PersistInv server 0 0)
    (hrec : server.recovered = true) (hfollower : server.isLeader = false)
    (hstored : server.stored = []) (happly : server.log.apply = 0)
    (hk : SpotAt server.log server.written 0 k server.log.commit) :
    SnapshotInv ⟨server, [], ⟨0, 0, 0⟩, []⟩ 0 0 ⟨0, 0⟩ ⟨0, 0⟩ k := by
  have hzero : SoftMark entryFormat server.log.len server.written 0 0 := .inl pos_zero.symm
  have hoff : IsOffset server.log.len 0 0 := ⟨Nat.zero_le _, rfl⟩
  have happlying : Applying (fromLast server.log ⟨0, 0, 0⟩) server.written 0 0 ⟨0, 0⟩ k :=
    ⟨hp.window, hp.endOff, hp.empty, ⟨hzero, hoff, hk.soft, hk.offset, Nat.zero_le _, Nat.zero_le _⟩,
      le_refl _, hk.le_end, hk.count_le⟩
  have hsame : fromLast server.log ⟨0, 0, 0⟩ = server.log := by
    rw [fromLast, ← happly]
  refine ⟨hp, hrec, hfollower, ?_, happlying, le_refl _, le_refl _, by simp, by simp, by simp [hstored],
    by simp⟩
  rw [← hsame]
  exact happlying

end SnapshotInv

/-- The start of the log is a spot. -/
theorem spotAt_zero : SpotAt log hist 0 ⟨0, 0⟩ 0 where
  mark := .inl pos_zero.symm
  le := le_refl _
  le_end := Nat.zero_le _
  count_le := Nat.zero_le _
  offset := ⟨Nat.zero_le _, rfl⟩
  soft := .inl pos_zero.symm

namespace SnapshotJoining

variable {server : PersistState}

/-- A server without records, when its log is there. -/
theorem init (h : SnapshotJoining s) (hdb : s.db = []) (hp : PersistInv server 0 0)
    (hrec : server.recovered = true) (hfollower : server.isLeader = s.server.isLeader)
    (hstored : server.stored = []) (happly : server.log.apply = 0)
    (hk : SpotAt server.log server.written 0 k server.log.commit) :
    SnapshotInv { s with server := server } 0 0 ⟨0, 0⟩ ⟨0, 0⟩ k := by
  have hinv := SnapshotInv.init hp hrec (hfollower.trans h.follower) hstored happly hk
  have hsame : { s with server := server } = SnapshotState.mk server [] ⟨0, 0, 0⟩ [] := by
    rw [h.applied, h.lastApplied, hdb]
  rw [hsame]
  exact hinv

theorem start (h : SnapshotJoining s) (hhead : s.server.log.head = 0)
    (hend : s.server.log.end_ = s.server.log.len) (hok : snapshotOk s (.log .start)) :
    SnapshotInv { s with server := { s.server with recovered := true, written := [] } }
      0 0 ⟨0, 0⟩ ⟨0, 0⟩ ⟨0, 0⟩ := by
  obtain ⟨hdb, happly, hcommit⟩ := hok
  have hp := h.persist.start hhead hend
  refine h.init hdb hp rfl rfl h.persist.stored happly ?_
  rw [hcommit]
  exact spotAt_zero

/-- A recovery keeps the apply offset. -/
theorem apply_rcRecoverLog (log target : DareLog) (readOk : Bool) :
    (rcRecoverLog log target readOk).1.apply = log.apply := by
  rw [rcRecoverLog]
  split
  · rfl
  · cases readOk <;> rfl

theorem recover {target : DareLog} {readOk : Bool} {es : List DareLogEntry} (h : SnapshotJoining s)
    (hok : snapshotOk s (.log (.recover target readOk es)))
    (hdone : (rcRecoverLog s.server.log target readOk).2 = true) :
    ∃ k, SnapshotInv { s with server := { s.server with
      log := (rcRecoverLog s.server.log target readOk).1
      recovered := true
      written := es } } 0 0 ⟨0, 0⟩ ⟨0, 0⟩ k := by
  obtain ⟨hrecover, hdb, happly, visited, hw, hafter⟩ := hok
  have hp := h.persist.recover hrecover hdone
  -- the commit offset is reached from the start of the log
  obtain ⟨k, hk, -, -⟩ := spotAt_zero.walkTo hp.window hp.endsAt hw hafter
  exact ⟨k, h.init hdb hp rfl rfl h.persist.stored
    ((apply_rcRecoverLog s.server.log target readOk).trans happly) hk⟩

end SnapshotJoining

/-! ### Every run -/

/-- Every step under the condition keeps the invariant. -/
theorem SnapshotSafe.step {l : SnapshotLabel} (h : SnapshotSafe s) (hok : snapshotOk s l)
    (hs : snapshotStep s l s') : SnapshotSafe s' := by
  rcases h with hjoin | ⟨lo, u, a, b, k, hinv⟩
  · -- only the start and a recovery are possible
    have hnot : ∀ {P : Prop}, s.server.recovered = true ∧ P → False := by
      rintro P ⟨hrec, -⟩
      rw [hjoin.persist.recovered] at hrec
      cases hrec
    cases l with
    | persist => exact (hnot hs).elim
    | apply => exact (hnot hs).elim
    | log l =>
      obtain ⟨hext, server, hstep, rfl⟩ := hs
      cases l with
      | start =>
        obtain ⟨-, hhead, hend, rfl⟩ := hstep
        exact .inr ⟨_, _, _, _, _, hjoin.start hhead hend hok⟩
      | recover target readOk es =>
        obtain ⟨-, rfl⟩ := hstep
        cases hdone : (rcRecoverLog s.server.log target readOk).2 with
        | true =>
          obtain ⟨k, hk⟩ := hjoin.recover hok hdone
          exact .inr ⟨_, _, _, _, k, hk⟩
        | false =>
          exact .inl ⟨hjoin.persist.retry hdone, hjoin.follower, hjoin.lastApplied, hjoin.applied⟩
      | _ => exact (hnot hstep).elim
  · have hnot : ∀ {P : Prop}, s.server.recovered = false ∧ P → False := by
      rintro P ⟨hrec, -⟩
      rw [hinv.recovered] at hrec
      cases hrec
    right
    cases l with
    | persist =>
      obtain ⟨-, fuel, r, hcall, rfl⟩ := hs
      exact ⟨lo, u, a, b, k, hinv.stores hcall⟩
    | apply =>
      obtain ⟨-, hguard, log, es, hiter, rfl⟩ := hs
      obtain ⟨a', b', hinv'⟩ := hinv.applies hguard hiter
      exact ⟨lo, u, a', b', k, hinv'⟩
    | log l =>
      obtain ⟨hext, server, hstep, rfl⟩ := hs
      cases l with
      | start => exact (hnot hstep).elim
      | recover => exact (hnot hstep).elim
      | resetTail =>
        obtain ⟨-, -, rfl⟩ := hstep
        exact ⟨lo, u, a, b, k, hinv.resetTail⟩
      | update ldr rmtEnd es =>
        obtain ⟨-, rfl⟩ := hstep
        exact ⟨lo, u, a, b, k, hinv.update hok⟩
      | adjust off n =>
        obtain ⟨-, rfl⟩ := hstep
        obtain ⟨hadjust, visited, hw⟩ := hok
        exact ⟨lo, u, a, b, k, hinv.adjust hadjust hw⟩
      | reply entry i c =>
        obtain ⟨-, rfl⟩ := hstep
        obtain ⟨hi, live, stop, hwalk, hentry⟩ := hok
        exact ⟨lo, u, a, b, k, hinv.reply hi hwalk hentry⟩
      | setCommit off =>
        obtain ⟨-, rfl⟩ := hstep
        obtain ⟨visited, hw, hoff⟩ := hok
        obtain ⟨k', hinv'⟩ := hinv.setCommit hw hoff
        exact ⟨lo, u, a, b, k', hinv'⟩
      | prune off =>
        obtain ⟨-, rfl⟩ := hstep
        obtain ⟨hprune, visited, hw⟩ := hok
        obtain ⟨lo', u', hinv'⟩ := hinv.prune hprune hw
        exact ⟨lo', u', a, b, k, hinv'⟩
      | _ => cases hext

theorem reach_snapshotSafe (h : Reach snapshotInit snapshotStep snapshotOk s) : SnapshotSafe s := by
  refine h.invariant (fun s hinit => .inl ?_) fun s l s' hinv hok hs => hinv.step hok hs
  obtain ⟨⟨⟨head, apply, hlog⟩, hidx, hfollower, hrec, hstored, -⟩, hlast, happlied, -⟩ := hinit
  refine ⟨⟨hrec, ?_, hstored, hidx⟩, hfollower, hlast, happlied⟩
  rw [hlog]

/-! ### The snapshot -/

/-- A walk between two places visits the entries between them. -/
theorem clientsAt_between {m n w' off' : Nat} {visited : List Nat} (h : LogWindow log hist lo u)
    (hE : EndsAt log (logPos log hist hist.length)) (hne : log.end_ ≠ log.len)
    (hp : PlaceAt log hist u m w off) (hq : PlaceAt log hist u n w' off')
    (hw : WalkTo log off visited off') :
    m ≤ n ∧ clientsAt log.entries visited = ((hist.take n).drop m).filter isClient := by
  have hwin := h.place hp
  obtain ⟨v, hreach⟩ := hwin.placeAt hE hne hp.offset hw
  have hplace : PlaceAt log hist u (m + visited.length) v off' :=
    ⟨hreach.mark, hp.le.trans hreach.le, hreach.le_end, hreach.count_le, hreach.offset⟩
  obtain rfl := hplace.count_eq h hq
  refine ⟨Nat.le_add_right _ _, ?_⟩
  rw [clientsAt, hwin.walkTo_read hE hne hp.offset hw, List.drop_take, Nat.add_sub_cancel_left]

namespace SnapshotInv

/-- With no client entry between the cursors, what is stored is what is applied. -/
theorem records (h : SnapshotInv s lo u a b k) (hmeet : CursorsMeet s.server.log) :
    s.db = s.applied.filter isClient := by
  have hE := h.applying.endsAt
  have happly := h.applying.applyAt
  have hcursor := h.persist.cursor
  rw [h.db, h.applied]
  by_cases hne : s.server.log.end_ = s.server.log.len
  · rw [h.applying.empty hne]
    simp
  · rcases hmeet with hempty | ⟨visited, hw | hw, hnone⟩
    · exact absurd (beq_iff_eq.mp hempty) hne
    · obtain ⟨hle, hclients⟩ := clientsAt_between h.persist.window hE hne happly hcursor hw
      rw [hclients] at hnone
      exact (filter_take_eq hle hnone).symm
    · obtain ⟨hle, hclients⟩ := clientsAt_between h.persist.window hE hne hcursor happly hw
      rw [hclients] at hnone
      exact filter_take_eq hle hnone

/-- The entries applied, and those the loop applies from a spot on. -/
theorem filter_append_loop (h : SnapshotInv s lo u a b k) {n : Nat} (hn : n ≤ k.count)
    (hbetween : ((s.server.written.take a.count).drop n).filter isClient = [])
    (hle : n ≤ a.count) :
    s.applied.filter isClient ++
        ((s.server.written.drop n).take (k.count - n)).filter isClient =
      (s.server.written.take k.count).filter isClient := by
  have hsplit : s.server.written.take n ++ (s.server.written.drop n).take (k.count - n) =
      s.server.written.take k.count := by
    rw [← List.take_add, Nat.add_sub_cancel' hn]
  rw [h.applied, ← filter_take_eq hle hbetween, ← List.filter_append, hsplit]

/-- The replay of the log from `last_applied_entry` on applies no client entry twice. -/
theorem replay (h : SnapshotInv s lo u a b k) (hdb : s.db = s.applied.filter isClient) :
    ∃ fuel r r',
      applyLoopFollower fuel { s.server.log with apply := s.lastApplied.offset } = some r ∧
      applyLoopFollower fuel s.server.log = some r' ∧
      s.db ++ r.2.filter isClient = (s.applied ++ r'.2).filter isClient := by
  have hfuelLast : k.pos - b.pos < k.pos + 1 := by omega
  have hfuelApply : k.pos - a.pos < k.pos + 1 := by omega
  obtain ⟨log₁, hlast⟩ := h.last.loop hfuelLast
  obtain ⟨log₂, happly⟩ := h.applying.loop hfuelApply
  refine ⟨k.pos + 1, _, _, hlast, happly, ?_⟩
  rw [hdb, List.filter_append, h.filter_append_loop h.last.offsets.count_le
    (filter_isClient_eq_nil h.between) h.count_le]
  refine (h.filter_append_loop h.applying.offsets.count_le ?_ (le_refl _)).symm
  rw [List.drop_of_length_le (List.length_take_le _ _)]
  rfl

end SnapshotInv

/-- **A snapshot is the applied prefix**, in every run whose steps meet the condition, when there is
    no client entry between the persist cursor and the apply offset. -/
theorem snapshot_exact (h : Reach snapshotInit snapshotStep snapshotOk s)
    (hrec : s.server.recovered = true) (hmeet : CursorsMeet s.server.log) : SnapshotExact s := by
  rcases reach_snapshotSafe h with hjoin | ⟨lo, u, a, b, k, hinv⟩
  · rw [hjoin.persist.recovered] at hrec
    cases hrec
  · have hdb := hinv.records hmeet
    exact ⟨hdb, hinv.label, hinv.replay hdb⟩

/-! ### A connection of a client -/

section Examples

def connect : DareLogEntry := mkEntry 1 1 1 0 CONNECT default

/-- A leader's log with the entry. -/
def connectLog : DareLog := logOf 0 64 64 (writeEntry zeroMem 0 1 1 1 0 CONNECT default)

theorem chain_connect : Chain entryFormat connectLog.entries LOG_SIZE 0 [connect] := by
  rw [chain_singleton]
  refine ⟨by decide, readEntry_writeEntry zeroMem 0 1 1 1 0 CONNECT default, fun _ hnot => ?_⟩
  exact absurd hnot (by decide)

/-- The log of a follower that got the entry. -/
def received : DareLog :=
  { logNew with entries := ringCopy LOG_SIZE zeroMem connectLog.entries 0 64, end_ := 64 }

/-- The log after `persist_new_entries`. -/
def persisted : DareLog :=
  { received with entries := setU8 received.entries (REPLY_OFF + 1 + 0) 1, oldEnd := 64 }

theorem persist_received : ∃ visits, persistNewEntries 1 false 2 received = some (persisted, visits) ∧
    visits.map (fun v => v.det.offset) = [0] ∧ visits.map (fun v => detKey v.det) = [(1, 1)] := by
  have hguard : logIsOffsetLarger received received.end_ received.oldEnd = true := by decide
  have hget : logGetEntry received received.oldEnd = some 0 := by decide
  have hfit : logFitEntry { received with oldEnd := 0 } 0 0 = true := by decide
  have hlen : logEntryLen persisted.entries 0 = 64 := by decide
  have hdone : logIsOffsetLarger persisted persisted.end_ persisted.oldEnd = false := by decide
  refine ⟨[(persistEntry 1 false { received with oldEnd := 0 } 0).2], ?_, rfl, by decide⟩
  rw [persistNewEntries, if_pos hguard, hget]
  simp only [hfit, Bool.not_true, Bool.false_eq_true, if_false]
  have hlog : { (persistEntry 1 false { received with oldEnd := 0 } 0).1 with
      oldEnd := (persistEntry 1 false { received with oldEnd := 0 } 0).1.oldEnd +
        logEntryLen (persistEntry 1 false { received with oldEnd := 0 } 0).1.entries 0 } =
      persisted := by
    show { persisted with oldEnd := 0 + logEntryLen persisted.entries 0 } = persisted
    rw [hlen]
    rfl
  rw [hlog, persistNewEntries, hdone]
  rfl

/-- A follower whose entry is stored. -/
def storedState : SnapshotState :=
  ⟨⟨persisted, 1, false, true, [(1, 1)], [connect]⟩, [connect], ⟨0, 0, 0⟩, []⟩

theorem reach_storedState : Reach snapshotInit snapshotStep snapshotOk storedState := by
  have hinit : Reach snapshotInit snapshotStep snapshotOk
      ⟨⟨logNew, 1, false, false, [], []⟩, [], ⟨0, 0, 0⟩, []⟩ :=
    .start ⟨⟨⟨0, 0, rfl⟩, by decide, rfl, rfl, rfl, rfl⟩, rfl, rfl, rfl⟩
  have hstart : Reach snapshotInit snapshotStep snapshotOk
      ⟨⟨logNew, 1, false, true, [], []⟩, [], ⟨0, 0, 0⟩, []⟩ :=
    hinit.step (l := SnapshotLabel.log .start) ⟨rfl, rfl, rfl⟩ ⟨rfl, _, ⟨rfl, rfl, rfl, rfl⟩, rfl⟩
  have hok : UpdateOk ⟨logNew, 1, false, true, [], []⟩ connectLog 0 [connect] :=
    ⟨rfl, by decide, by simp, chain_connect, by decide, by decide, List.pairwise_singleton _ _⟩
  have hupdate : Reach snapshotInit snapshotStep snapshotOk
      ⟨⟨received, 1, false, true, [], [connect]⟩, [], ⟨0, 0, 0⟩, []⟩ :=
    hstart.step (l := SnapshotLabel.log (.update connectLog 0 [connect])) hok ⟨rfl, _, ⟨rfl, rfl⟩, rfl⟩
  obtain ⟨visits, hcall, hoffsets, hkeys⟩ := persist_received
  have hpersist := hupdate.step (l := SnapshotLabel.persist) trivial ⟨rfl, 2, _, hcall, rfl⟩
  have hclients : clientsAt received.entries [0] = [connect] := by decide
  simp only [hoffsets, hkeys, hclients, List.nil_append] at hpersist
  exact hpersist

/-- When the entry is applied, too, a snapshot is exact. -/
theorem snapshot_exact_connect : ∃ s, Reach snapshotInit snapshotStep snapshotOk s ∧
    s.applied = [connect] ∧ SnapshotExact s := by
  have hget : logGetEntry persisted 0 = some 0 := by decide
  have hfit : logFitEntry persisted 0 0 = true := by decide
  have hlen : logEntryLen persisted.entries 0 = 64 := by decide
  have hwalk : WalkTo persisted 0 [0] 64 :=
    .visit hget hfit (hlen ▸ .refl _)
  have hcommit := reach_storedState.step (l := SnapshotLabel.log (.setCommit 64))
    ⟨[0], hwalk, by decide⟩ ⟨rfl, _, ⟨rfl, rfl⟩, rfl⟩
  have hread : readEntry persisted.entries 0 = connect := by decide
  have hiter : applyIterFollower { persisted with commit := 64 } =
      some ({ persisted with commit := 64, apply := 64 }, [connect]) := by
    have hget' : logGetEntry { persisted with commit := 64 } 0 = some 0 := by decide
    have hfit' : logFitEntry { persisted with commit := 64 } 0 0 = true := by decide
    have hzero : { persisted with commit := 64 }.apply = 0 := rfl
    rw [applyIterFollower, hzero, hget']
    simp only [hfit', Bool.not_true, Bool.false_eq_true, if_false, advanceApply, hlen, hread,
      Nat.zero_add]
  have happly := hcommit.step (l := SnapshotLabel.apply) trivial
    ⟨rfl, by decide, _, _, hiter, rfl⟩
  exact ⟨_, happly, rfl, snapshot_exact happly rfl (.inr ⟨[], .inl (.refl _), rfl⟩)⟩

/-- The entry is stored before it is applied. -/
theorem not_snapshot_exact : ¬ ∀ s, Reach snapshotInit snapshotStep Always s →
    s.server.recovered = true → SnapshotExact s := by
  intro hall
  have hexact := hall storedState (reach_storedState.mono fun _ _ _ => trivial) rfl
  have hrecords := hexact.records
  cases hrecords

end Examples

end Apus
