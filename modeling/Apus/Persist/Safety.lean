import Apus.Persist.History

namespace Apus

open Lib

/-!
# Every run of the persist cursor

The server's log is a window of the entries written to it, in which `old_end` is the place after
the entries handed to `proxy_store_cmd` so far (`PersistInv`).  Every step that meets the condition
keeps it (`PersistSafe.step`), so that in every such run a call of `persist_new_entries` walks over
live entries only (`persist_walks_live`).

Nothing moves the cursor when the log changes under it: a recovery leaves it at the buffer end,
which is before the recovered entries when `head` is not at offset `0`, and a log adjustment may
set the end behind it.
-/

/-- A server whose log was recovered: its log holds the entries written to it behind `u`, and
    `old_end` is the place after those handed over. -/
structure PersistInv (s : PersistState) (lo u : Nat) : Prop where
  window : LogWindow s.log s.written lo u
  headOff : IsOffset s.log.len u s.log.head
  endOff : IsOffset s.log.len (logPos s.log s.written s.written.length) s.log.end_
  empty : s.log.end_ = s.log.len → s.written = []
  tail : TailAt s.log s.written u
  lo_le : lo ≤ s.stored.length
  cursor : PlaceAt s.log s.written u s.stored.length (logPos s.log s.written s.stored.length)
    s.log.oldEnd
  keys : s.stored = (s.written.take s.stored.length).map entryKey
  increasing : s.written.Pairwise fun a b => a.idx < b.idx
  idx_lt : s.idx < MAX_SERVER_COUNT

/-- A server whose log is new, except for the offsets installed by the JOIN reply, the snapshot and
    recoveries that failed. -/
structure Joining (s : PersistState) : Prop where
  recovered : s.recovered = false
  log : s.log = { logNew with
    head := s.log.head, apply := s.log.apply, commit := s.log.commit, end_ := s.log.end_ }
  stored : s.stored = []
  idx_lt : s.idx < MAX_SERVER_COUNT

/-- The invariant of the runs. -/
def PersistSafe (s : PersistState) : Prop :=
  Joining s ∨ s.recovered = true ∧ ∃ lo u, PersistInv s lo u

variable {s s' : PersistState} {lo u : Nat}

namespace PersistInv

theorem holds (h : PersistInv s lo u) : HoldsWritten s.log s.written lo u :=
  ⟨h.window, h.headOff, h.endOff, h.empty, h.tail, h.increasing⟩

theorem of_holds (h : HoldsWritten s.log s.written lo u) (hlo : lo ≤ s.stored.length)
    (hcursor : PlaceAt s.log s.written u s.stored.length (logPos s.log s.written s.stored.length)
      s.log.oldEnd)
    (hkeys : s.stored = (s.written.take s.stored.length).map entryKey)
    (hidx : s.idx < MAX_SERVER_COUNT) : PersistInv s lo u :=
  ⟨h.window, h.headOff, h.endOff, h.empty, h.tail, hlo, hcursor, hkeys, h.increasing, hidx⟩

theorem endsAt (h : PersistInv s lo u) :
    EndsAt s.log (logPos s.log s.written s.written.length) := h.holds.endsAt

/-- In a log that looks empty nothing was written, and nothing is left to hand over. -/
theorem stored_of_empty (h : PersistInv s lo u) (hempty : s.log.end_ = s.log.len) :
    s.stored = [] := by
  have hcount := h.cursor.count_le
  rw [h.empty hempty, List.length_nil] at hcount
  exact List.length_eq_zero_iff.mp (by omega)

/-- What is still to be handed over continues what was. -/
theorem keys_append (h : PersistInv s lo u) :
    s.stored ++ (s.written.drop s.stored.length).map entryKey = s.written.map entryKey := by
  have hsplit := List.take_append_drop s.stored.length s.written
  calc s.stored ++ (s.written.drop s.stored.length).map entryKey
      = (s.written.take s.stored.length).map entryKey ++
          (s.written.drop s.stored.length).map entryKey := by rw [← h.keys]
    _ = s.written.map entryKey := by rw [← List.map_append, hsplit]

/-- The entries handed over are the first ones of a longer history. -/
theorem keys_take (h : PersistInv s lo u) (es : List DareLogEntry) :
    s.stored = ((s.written ++ es).take s.stored.length).map entryKey := by
  rw [List.take_append_of_le_length h.cursor.count_le]
  exact h.keys

/-- Entries with increasing indices are different. -/
theorem nodup (h : PersistInv s lo u) : (s.written.map entryKey).Nodup := by
  rw [List.nodup_iff_pairwise_ne, List.pairwise_map]
  refine h.increasing.imp fun {a b} hlt heq => ?_
  have hidx : a.idx = b.idx := congrArg Prod.fst heq
  rw [hidx] at hlt
  exact UInt64.lt_irrefl b.idx hlt

end PersistInv

/-! ### One call -/

/-- More fuel does not change a result. -/
theorem persistNewEntries_mono {idx fuel k : Nat} {isLeader : Bool} {log : DareLog}
    {r : DareLog × List Visit} (h : persistNewEntries idx isLeader fuel log = some r) :
    persistNewEntries idx isLeader (fuel + k) log = some r := by
  induction fuel generalizing log r with
  | zero => cases h
  | succ fuel ih =>
    rw [Nat.add_right_comm, persistNewEntries]
    rw [persistNewEntries] at h
    split at h
    · rename_i hguard
      rw [if_pos hguard]
      cases hget : logGetEntry log log.oldEnd with
      | none => rw [hget] at h; cases h
      | some entry =>
        simp only [hget] at h ⊢
        split at h
        · rename_i hfit
          rw [if_pos hfit]
          exact ih h
        · rename_i hfit
          rw [if_neg hfit]
          obtain ⟨r', hr', heq⟩ := Option.map_eq_some_iff.mp h
          rw [ih hr', Option.map_some, heq]
    · rename_i hguard
      rw [if_neg hguard]
      exact h

/-- The call in a log that looks empty. -/
theorem persistNewEntries_of_empty {idx fuel : Nat} {isLeader : Bool} {log : DareLog}
    (hempty : log.end_ = log.len) :
    persistNewEntries idx isLeader (fuel + 1) log = some (log, []) := by
  rw [persistNewEntries, logIsOffsetLarger_of_end_eq_len hempty]
  rfl

/-- The call ends, and hands over the entries written and not handed over before. -/
theorem PersistInv.call (h : PersistInv s lo u) : ∃ fuel log' visits,
    persistNewEntries s.idx s.isLeader fuel s.log = some (log', visits) ∧
      Persisted s.log s.written lo u s.stored.length log' visits := by
  by_cases hempty : s.log.end_ = s.log.len
  · refine ⟨1, s.log, [], persistNewEntries_of_empty hempty, h.window, rfl, ?_, ?_, ?_, by simp⟩
    · have hoff := h.cursor.offset
      have hstored := h.stored_of_empty hempty
      have hwritten := h.empty hempty
      simp only [hstored, hwritten, List.length_nil] at hoff ⊢
      exact hoff
    · rw [h.empty hempty, List.drop_nil]
      rfl
    · rw [h.empty hempty, List.drop_nil]
      rfl
  · obtain ⟨log', visits, hcall, hdone⟩ := persistNewEntries_spec s.isLeader h.window
      h.endsAt hempty h.lo_le h.idx_lt h.cursor (le_refl _)
    exact ⟨_, log', visits, hcall, hdone⟩

/-- The walk from `head` visits the entries of the window. -/
theorem PersistInv.live (h : PersistInv s lo u) : ∃ live stop,
    readerWalk s.log (walkFuel s.log) s.log.head = some (live, stop) ∧
      live = Lib.offsets entryFormat s.log.len u (s.written.drop lo) :=
  h.holds.live

/-- A call of `persist_new_entries` walks over live entries only. -/
theorem PersistInv.persistsLive (h : PersistInv s lo u) : PersistsLive s := by
  obtain ⟨fuel, log', visits, hcall, hdone⟩ := h.call
  obtain ⟨live, stop, hwalk, hlive⟩ := h.live
  refine ⟨fuel, log', visits, hcall, ⟨live, stop, hwalk, ?_⟩, ?_, hdone.replies⟩
  · intro v hv
    obtain ⟨os, hos⟩ := Window.offsets_drop h.window h.lo_le (Mark.pos s.stored.length)
    rw [hlive, hos]
    have hmem : v.det.offset ∈ visits.map fun v => v.det.offset :=
      List.mem_map_of_mem (f := fun v : Visit => v.det.offset) hv
    rw [hdone.offsets] at hmem
    exact List.mem_append_right _ hmem
  · rw [hdone.keys, h.keys_append]
    exact h.nodup

/-- A change of the bytes and of the cursor that keeps the window. -/
theorem PersistInv.of_log {log' : DareLog} {stored' : List (UInt64 × UInt64)}
    (h : PersistInv s lo u) (hwin : LogWindow log' s.written lo u) (hlen : log'.len = s.log.len)
    (hhead : log'.head = s.log.head) (hend : log'.end_ = s.log.end_) (htail : log'.tail = s.log.tail)
    (hlo : lo ≤ stored'.length)
    (hcursor : PlaceAt s.log s.written u stored'.length (logPos s.log s.written stored'.length)
      log'.oldEnd)
    (hkeys : stored' = (s.written.take stored'.length).map entryKey) :
    PersistInv { s with log := log', stored := stored' } lo u := by
  refine .of_holds (h.holds.of_window hwin hlen hhead hend htail) hlo ?_ hkeys h.idx_lt
  simp only [logPos, hlen]
  exact hcursor.of_len hlen

/-- What a call that ended did. -/
theorem PersistInv.of_call {fuel : Nat} {r : DareLog × List Visit} (h : PersistInv s lo u)
    (hcall : persistNewEntries s.idx s.isLeader fuel s.log = some r) :
    Persisted s.log s.written lo u s.stored.length r.1 r.2 := by
  obtain ⟨fuel', log', visits, hcall', hdone⟩ := h.call
  have hsame : some r = some (log', visits) := by
    rw [← persistNewEntries_mono (k := fuel') hcall, Nat.add_comm, persistNewEntries_mono hcall']
  obtain rfl := Option.some.inj hsame
  exact hdone

/-- After the call the cursor is at the end. -/
theorem PersistInv.persist {fuel : Nat} {r : DareLog × List Visit} (h : PersistInv s lo u)
    (hcall : persistNewEntries s.idx s.isLeader fuel s.log = some r) :
    PersistInv { s with log := r.1, stored := s.stored ++ r.2.map fun v => detKey v.det } lo u := by
  have hdone := h.of_call hcall
  obtain ⟨log', visits⟩ := r
  show PersistInv { s with
    log := log', stored := s.stored ++ visits.map fun v => detKey v.det } lo u
  simp only at hdone
  have hlen : log'.len = s.log.len := by rw [hdone.frame]
  have hcount := h.cursor.count_le
  have hlo := h.lo_le
  have hall : s.stored ++ visits.map (fun v => detKey v.det) = s.written.map entryKey := by
    rw [hdone.keys, h.keys_append]
  have hlength : (s.stored ++ visits.map fun v => detKey v.det).length = s.written.length := by
    rw [hall, List.length_map]
  refine h.of_log hdone.window hlen (by rw [hdone.frame]) (by rw [hdone.frame])
    (by rw [hdone.frame]) (by omega) ?_ ?_
  · rw [hlength]
    exact ⟨Mark.pos _, le_trans h.cursor.le h.cursor.le_end, le_refl _, le_refl _, hdone.offset⟩
  · rw [hlength, List.take_length, hall]

/-! ### The server's own steps -/

/-- The place after the entries handed over, in a longer history. -/
theorem PersistInv.cursor_append (h : PersistInv s lo u) (es : List DareLogEntry) :
    PlaceAt s.log (s.written ++ es) u s.stored.length
      (logPos s.log (s.written ++ es) s.stored.length) s.log.oldEnd := by
  have hcursor := h.cursor.append es h.window.len_pos
  have hsame : logPos s.log (s.written ++ es) s.stored.length =
      logPos s.log s.written s.stored.length := pos_append h.cursor.count_le
  rwa [hsame]

/-- An append under the condition. -/
theorem PersistInv.append {term reqId idx : UInt64} {cltId : UInt16} {type : UInt8}
    {data : EntryData} {log' : DareLog} (h : PersistInv s lo u) (hok : PersistAppendOk s type data)
    (happend : logAppendEntry s.log term reqId cltId type data = some (log', idx)) :
    PersistInv { s with
      log := log'
      written := if isLogFull s.log then s.written
        else s.written ++ [mkEntry idx term reqId cltId type data] } lo u := by
  have hholds := h.holds.append hok happend
  rcases h.holds.append_cases hok happend with ⟨hfull, b, rfl⟩ | ⟨e, rfl, hfull, happ, -⟩
  · rw [hfull] at hholds ⊢
    exact .of_holds hholds h.lo_le (h.cursor.of_len rfl) h.keys h.idx_lt
  · rw [hfull] at hholds ⊢
    refine .of_holds hholds h.lo_le ?_ ?_ h.idx_lt
    · simp only [logPos, happ.len, happ.oldEnd]
      exact (h.cursor_append [mkEntry idx term reqId cltId type data]).of_len happ.len
    · exact h.keys_take _

/-! ### What others write -/

/-- A leader's log update under the condition. -/
theorem PersistInv.update {ldr : DareLog} {rmtEnd : Nat} {es : List DareLogEntry}
    (h : PersistInv s lo u) (hok : UpdateOk s ldr rmtEnd es) :
    PersistInv { s with
      log := { s.log with
        entries := ringCopy s.log.len s.log.entries ldr.entries rmtEnd ldr.end_
        end_ := ldr.end_ }
      written := s.written ++ es } lo u :=
  .of_holds (h.holds.update hok) h.lo_le ((h.cursor_append es).of_len rfl) (h.keys_take es)
    h.idx_lt

/-- The offset of a log adjustment is that of the place after the entries left. -/
theorem PersistInv.adjust_place {off n : Nat} (h : PersistInv s lo u) (hok : AdjustOk s off n) :
    n ≤ s.written.length ∧ off % s.log.len = logPos s.log s.written n % s.log.len := by
  obtain ⟨visited, hwalk, hoff, hn⟩ := hok.reached
  have hcount := h.cursor.count_le
  by_cases hempty : s.log.end_ = s.log.len
  · obtain ⟨rfl, rfl⟩ := hwalk.of_end_eq_len hempty
    rw [List.length_nil, Nat.add_zero] at hn
    rw [hn]
    exact ⟨hcount, h.cursor.offset.2⟩
  · have hwin := h.window.place h.cursor
    obtain ⟨w, hw⟩ := hwin.placeAt h.endsAt hempty h.cursor.offset hwalk
    rw [← hn] at hw
    refine ⟨hw.count_le, ?_⟩
    rw [hoff, Nat.mod_mod]
    cases hlast : visited.getLast? with
    | none =>
      obtain rfl := List.getLast?_eq_none_iff.mp hlast
      rw [List.length_nil, Nat.add_zero] at hn
      rw [afterLast, hn]
      exact h.cursor.offset.2
    | some entry =>
      have hafter := hwin.walkTo_afterLast h.endsAt hempty h.cursor.offset hwalk hlast
      rw [afterLast, hlast, Option.map_some, Option.getD_some, hafter.2, hn]

/-- A log adjustment under the condition cuts the history behind the cursor. -/
theorem PersistInv.adjust {off n : Nat} (h : PersistInv s lo u) (hok : AdjustOk s off n) :
    PersistInv { s with log := { s.log with end_ := off }, written := s.written.take n } lo u := by
  have hn : s.stored.length ≤ n := by
    obtain ⟨visited, -, -, hn⟩ := hok.reached
    omega
  have hpos := h.window.len_pos
  have hcount := h.cursor.count_le
  have hlo := h.lo_le
  obtain ⟨hnle, hmod⟩ := h.adjust_place hok
  have hle : logPos s.log s.written s.stored.length ≤ logPos s.log s.written n :=
    pos_mono hpos (by omega)
  have hule : u ≤ logPos s.log s.written n := le_trans h.cursor.le hle
  -- the cursor is in the part that stays
  have hposc : logPos s.log (s.written.take n) s.stored.length =
      logPos s.log s.written s.stored.length := pos_take (by omega)
  refine .of_holds (h.holds.cut hok.tail hok.lt_len (by omega) hnle hule hmod) hlo
    ⟨Mark.pos _, ?_, ?_, ?_, ?_⟩ ?_ h.idx_lt
  · show u ≤ logPos s.log (s.written.take n) s.stored.length
    rw [hposc]
    exact h.cursor.le
  · show logPos s.log (s.written.take n) s.stored.length ≤
      logPos s.log (s.written.take n) (s.written.take n).length
    rw [List.length_take_of_le hnle, hposc]
    exact hle.trans (pos_take (le_refl n)).ge
  · show s.stored.length ≤ (s.written.take n).length
    rw [List.length_take_of_le hnle]
    omega
  · show IsOffset s.log.len (logPos s.log (s.written.take n) s.stored.length) s.log.oldEnd
    rw [hposc]
    exact h.cursor.offset
  · show s.stored = ((s.written.take n).take s.stored.length).map entryKey
    rw [List.take_take, Nat.min_eq_left (by omega)]
    exact h.keys

/-- Another server's acknowledgement of a live entry. -/
theorem PersistInv.reply {entry i : Nat} {b : UInt8} {live : List Nat} {stop : Nat}
    (h : PersistInv s lo u) (hi : i < MAX_SERVER_COUNT)
    (hwalk : readerWalk s.log (walkFuel s.log) s.log.head = some (live, stop))
    (hentry : entry ∈ live) :
    PersistInv { s with
      log := { s.log with entries := setReply s.log.entries entry i b } } lo u :=
  .of_holds (h.holds.reply hi hwalk hentry) h.lo_le (h.cursor.of_len rfl) h.keys h.idx_lt

/-- Advancing `head` to an offset from which the cursor and the tail are reached. -/
theorem PersistInv.prune {off : Nat} {visited vs : List Nat} (h : PersistInv s lo u)
    (hwalk : WalkTo s.log s.log.head visited off) (hcur : WalkTo s.log off vs s.log.oldEnd)
    (htail : s.log.tail ≠ s.log.len → ∃ vs, WalkTo s.log off vs s.log.tail) :
    ∃ u', PersistInv { s with log := { s.log with head := off } } (lo + visited.length) u' := by
  obtain ⟨w, hholds, hback⟩ := h.holds.prune hwalk htail
  have hcursor := h.cursor
  have hle := hback hcur hcursor
  refine ⟨w, .of_holds hholds ?_ ⟨hcursor.mark, hle, hcursor.le_end, hcursor.count_le,
    hcursor.offset⟩ h.keys h.idx_lt⟩
  exact hholds.window.mark.le_of_le h.window.len_pos hcursor.mark hle hholds.window.lo_le

/-! ### Recovery -/

/-- A log that holds `es` from offset `0` on, with nothing handed over. -/
theorem persistInv_of_fresh (hhead : s.log.head = 0)
    (hwin : LogWindow s.log s.written 0 0)
    (hend : IsOffset s.log.len (logPos s.log s.written s.written.length) s.log.end_)
    (hempty : s.log.end_ = s.log.len → s.written = []) (htail : s.log.tail = s.log.len)
    (hold : s.log.oldEnd = s.log.len) (hstored : s.stored = []) (hidx : s.idx < MAX_SERVER_COUNT)
    (hinc : s.written.Pairwise fun a b => a.idx < b.idx) : PersistInv s 0 0 where
  window := hwin
  headOff := by
    rw [hhead]
    exact ⟨Nat.zero_le _, rfl⟩
  endOff := hend
  empty := hempty
  tail := .inl htail
  lo_le := Nat.zero_le _
  cursor := by
    rw [hstored, hold]
    refine ⟨Mark.pos _, Nat.zero_le _, ?_, Nat.zero_le _, le_refl _, ?_⟩
    · exact pos_mono hwin.len_pos (Nat.zero_le _)
    · rw [List.length_nil, logPos, pos_zero, Nat.mod_self, Nat.zero_mod]
  keys := by rw [hstored]; rfl
  increasing := hinc
  idx_lt := hidx

/-- A server of the initial group, or one that found an empty target, starts with a new log. -/
theorem Joining.start (h : Joining s) (hhead : s.log.head = 0) (hend : s.log.end_ = s.log.len) :
    PersistInv { s with recovered := true, written := [] } 0 0 := by
  have hlen : s.log.len = LOG_SIZE := by rw [h.log]; rfl
  refine persistInv_of_fresh hhead (window_nil _ ?_) ?_ (fun _ => rfl) ?_ ?_ h.stored h.idx_lt
    List.Pairwise.nil
  · show ENTRY_SIZE ≤ s.log.len
    rw [hlen]
    decide
  · show IsOffset s.log.len (pos entryFormat s.log.len [] 0) s.log.end_
    rw [pos_zero, hend]
    exact ⟨le_refl _, by rw [Nat.mod_self, Nat.zero_mod]⟩
  · show s.log.tail = s.log.len
    rw [h.log]
    rfl
  · show s.log.oldEnd = s.log.len
    rw [h.log]
    rfl

/-- The log after a recovery that is done, when the target's log does not wrap. -/
theorem Joining.recovered_log {target : DareLog} {readOk : Bool} {es : List DareLogEntry}
    (hok : RecoverOk s target es) (hdone : (rcRecoverLog s.log target readOk).2 = true)
    (hempty : target.end_ ≠ s.log.len) : ∃ commit, (rcRecoverLog s.log target readOk).1 =
      { s.log with
        end_ := target.end_
        commit := commit
        entries := copyRange s.log.entries target.entries 0 target.end_ } := by
  have hread : readOk = true := by
    rw [rcRecoverLog, if_neg hempty] at hdone
    cases readOk with
    | true => rfl
    | false => cases hdone
  -- with `head` at offset `0` the target's log does not wrap
  have hwrap : ¬ (0 < target.end_ ∧ target.end_ < s.log.head) := by
    rw [hok.head]
    omega
  refine ⟨if logIsOffsetLarger { s.log with end_ := target.end_ } target.commit target.end_
    then target.end_ else target.commit, ?_⟩
  rw [rcRecoverLog, if_neg hempty, hread]
  simp only [if_neg hwrap, if_true]
  simp only [logOffsetEndDistance, if_neg hempty, hok.head, Nat.sub_zero, ge_iff_le,
    Nat.zero_le, if_true]

/-- Where the entries that were recovered end. -/
theorem RecoverOk.end_eq {target : DareLog} {es : List DareLogEntry} (hok : RecoverOk s target es)
    (hempty : target.end_ ≠ s.log.len) : target.end_ = logPos s.log es es.length := by
  rw [hok.end_ hempty]
  exact Nat.mod_eq_of_lt hok.window

/-- A recovery under the condition, when it is done. -/
theorem Joining.recover {target : DareLog} {readOk : Bool} {es : List DareLogEntry}
    (h : Joining s) (hok : RecoverOk s target es)
    (hdone : (rcRecoverLog s.log target readOk).2 = true) :
    PersistInv { s with
      log := (rcRecoverLog s.log target readOk).1
      recovered := true
      written := es } 0 0 := by
  have hlen : s.log.len = LOG_SIZE := by rw [h.log]; rfl
  have hhdr : ENTRY_SIZE ≤ s.log.len := by rw [hlen]; decide
  by_cases hempty : target.end_ = s.log.len
  · -- an empty log: nothing is copied
    obtain ⟨hend, rfl⟩ := hok.empty hempty
    have hsame : rcRecoverLog s.log target readOk = (s.log, true) := by
      rw [rcRecoverLog, if_pos hempty]
    rw [hsame]
    exact h.start hok.head hend
  · -- the entries are copied to the start of the buffer
    have hend := hok.end_eq hempty
    obtain ⟨commit, hlog⟩ := Joining.recovered_log hok hdone hempty
    rw [hlog]
    have hzero : pos entryFormat s.log.len [] ([] : List DareLogEntry).length = 0 := pos_zero
    have hadvance : advance entryFormat s.log.len 0 es = logPos s.log es es.length := by
      rw [logPos, pos_length]
    refine persistInv_of_fresh hok.head ?_ ?_ (fun hcon => absurd hcon hempty) ?_ ?_ h.stored
      h.idx_lt hok.increasing
    · show Window entryFormat (copyRange s.log.entries target.entries 0 target.end_) s.log.len es 0 0
      have hnil : ∀ m, Window entryFormat m s.log.len [] 0 0 := fun m => window_nil m hhdr
      by_cases hes : es = []
      · rw [hes]
        exact hnil _
      · have hpos : 0 < target.end_ := by
          obtain ⟨e, rest, hcons⟩ := List.exists_cons_of_ne_nil hes
          rw [hend, ← hadvance, hcons]
          exact lt_advance_cons (hnil s.log.entries).len_pos e rest
        have hcopy : Window entryFormat (ringCopy s.log.len s.log.entries target.entries 0
            target.end_) s.log.len ([] ++ es) 0 0 := (hnil s.log.entries).copy
          (by rw [hzero]; exact hok.chain) hes (by rw [hzero, hadvance, Nat.zero_add]; exact hok.window)
          (by rw [hzero, Nat.zero_mod]) (by rw [hzero, hadvance, ← hok.end_ hempty])
        rw [ringCopy, if_pos hpos, Nat.sub_zero, List.nil_append] at hcopy
        exact hcopy
    · show IsOffset s.log.len (logPos s.log es es.length) target.end_
      rw [hend]
      exact ⟨hok.window.le, rfl⟩
    · show s.log.tail = s.log.len
      rw [h.log]
      rfl
    · show s.log.oldEnd = s.log.len
      rw [h.log]
      rfl

/-- A recovery that failed leaves a server that is still joining. -/
theorem Joining.retry {target : DareLog} {readOk : Bool} {es : List DareLogEntry}
    (h : Joining s) (hdone : (rcRecoverLog s.log target readOk).2 = false) :
    Joining { s with
      log := (rcRecoverLog s.log target readOk).1
      recovered := false
      written := es } := by
  refine ⟨rfl, ?_, h.stored, h.idx_lt⟩
  have hlog := h.log
  rw [rcRecoverLog] at hdone ⊢
  split at hdone
  · cases hdone
  · rename_i hempty
    cases readOk with
    | true => cases hdone
    | false =>
      simp only [if_neg hempty, Bool.false_eq_true, if_false]
      rw [hlog]

/-! ### Every run -/

/-- The first steps of a server that is not recovered. -/
theorem Joining.step {l : PersistLabel} (h : Joining s) (hok : persistOk s l)
    (hs : persistStep s l s') : Joining s' ∨ s'.recovered = true ∧ PersistInv s' 0 0 := by
  have hnot : ∀ {P : Prop}, s.recovered = true ∧ P → False := by
    rintro P ⟨hrec, -⟩
    rw [h.recovered] at hrec
    cases hrec
  cases l with
  | start =>
    obtain ⟨-, hhead, hend, rfl⟩ := hs
    exact .inr ⟨rfl, h.start hhead hend⟩
  | recover target readOk es =>
    obtain ⟨-, rfl⟩ := hs
    cases hdone : (rcRecoverLog s.log target readOk).2 with
    | true => exact .inr ⟨rfl, h.recover hok hdone⟩
    | false => exact .inl (h.retry hdone)
  | _ => exact absurd hs hnot

/-- Only pruning moves the start of the window. -/
theorem PersistInv.step {l : PersistLabel} (h : PersistInv s lo u) (hrec : s.recovered = true)
    (hprune : ∀ off, l ≠ .prune off) (hok : persistOk s l) (hs : persistStep s l s') :
    s'.recovered = true ∧ PersistInv s' lo u := by
  have hnot : ∀ {P : Prop}, s.recovered = false ∧ P → False := by
    rintro P ⟨hrec', -⟩
    rw [hrec] at hrec'
    cases hrec'
  cases l with
  | start => exact absurd hs hnot
  | recover => exact absurd hs hnot
  | lead =>
    obtain ⟨-, rfl⟩ := hs
    exact ⟨hrec, h.1, h.2, h.3, h.4, h.5, h.6, h.7, h.8, h.9, h.10⟩
  | follow =>
    obtain ⟨-, rfl⟩ := hs
    exact ⟨hrec, h.1, h.2, h.3, h.4, h.5, h.6, h.7, h.8, h.9, h.10⟩
  | resetTail =>
    obtain ⟨-, -, rfl⟩ := hs
    exact ⟨hrec, .of_holds h.holds.resetTail h.lo_le (h.cursor.of_len rfl) h.keys h.idx_lt⟩
  | append term reqId cltId type data =>
    obtain ⟨-, -, log, idx, happend, rfl⟩ := hs
    exact ⟨hrec, h.append hok happend⟩
  | update ldr rmtEnd es =>
    obtain ⟨-, rfl⟩ := hs
    exact ⟨hrec, h.update hok⟩
  | adjust off n =>
    obtain ⟨-, rfl⟩ := hs
    exact ⟨hrec, h.adjust hok⟩
  | reply entry i b =>
    obtain ⟨-, rfl⟩ := hs
    obtain ⟨hi, live, stop, hwalk, hentry⟩ := hok
    exact ⟨hrec, h.reply hi hwalk hentry⟩
  | setCommit off =>
    obtain ⟨-, rfl⟩ := hs
    exact ⟨hrec, h.of_log h.window rfl rfl rfl rfl h.lo_le h.cursor h.keys⟩
  | setApply off =>
    obtain ⟨-, rfl⟩ := hs
    exact ⟨hrec, h.of_log h.window rfl rfl rfl rfl h.lo_le h.cursor h.keys⟩
  | prune off => exact absurd rfl (hprune off)
  | persist =>
    obtain ⟨-, fuel, r, hcall, rfl⟩ := hs
    exact ⟨hrec, h.persist hcall⟩

/-- Every step under the condition keeps the invariant. -/
theorem PersistSafe.step {l : PersistLabel} (h : PersistSafe s) (hok : persistOk s l)
    (hs : persistStep s l s') : PersistSafe s' := by
  rcases h with hjoin | ⟨hrec, lo, u, hinv⟩
  · rcases hjoin.step hok hs with hjoin' | ⟨hrec', hinv'⟩
    · exact .inl hjoin'
    · exact .inr ⟨hrec', 0, 0, hinv'⟩
  · right
    by_cases hprune : ∃ off, l = .prune off
    · obtain ⟨off, rfl⟩ := hprune
      obtain ⟨-, rfl⟩ := hs
      obtain ⟨⟨visited, hwalk⟩, ⟨vs, hcur⟩, htail⟩ := hok
      obtain ⟨u', hinv'⟩ := hinv.prune hwalk hcur htail
      exact ⟨hrec, _, u', hinv'⟩
    · obtain ⟨hrec', hinv'⟩ := hinv.step hrec (fun off hl => hprune ⟨off, hl⟩) hok hs
      exact ⟨hrec', lo, u, hinv'⟩

theorem reach_persistSafe (h : Reach persistInit persistStep persistOk s) : PersistSafe s := by
  refine h.invariant (fun s hinit => .inl ?_) fun s l s' hinv hok hs => hinv.step hok hs
  obtain ⟨⟨head, apply, hlog⟩, hidx, -, hrec, hstored, -⟩ := hinit
  refine ⟨hrec, ?_, hstored, hidx⟩
  rw [hlog]

/-- **The persist cursor walks over live entries only**, in every run whose steps meet the
    condition. -/
theorem persist_walks_live (h : Reach persistInit persistStep persistOk s)
    (hrec : s.recovered = true) : PersistsLive s := by
  rcases reach_persistSafe h with hjoin | ⟨-, lo, u, hinv⟩
  · rw [hjoin.recovered] at hrec
    cases hrec
  · exact hinv.persistsLive

/-! ### A follower and a joining server -/

section Examples

/-- A leader's log with two entries. -/
def twoNoops : DareLog := logOf 0 128 128 (writeNoop (writeNoop zeroMem 0 1) 64 2)

theorem chain_twoNoops : Chain entryFormat twoNoops.entries LOG_SIZE 0 [noop 1, noop 2] := by
  have hlen : ENTRY_SIZE ≤ LOG_SIZE := by decide
  have hfirst : Chain entryFormat (writeNoop zeroMem 0 1) LOG_SIZE 0 ([] ++ [noop 1]) :=
    chain_writeNoop [] hlen trivial rfl (by decide) (by decide)
  exact chain_writeNoop [noop 1] hlen hfirst rfl (by decide) (by decide)

/-- A follower that started with the group and got both entries. -/
theorem persist_walks_live_two : ∃ s, Reach persistInit persistStep persistOk s ∧
    s.written = [noop 1, noop 2] ∧ s.stored = [] ∧ PersistsLive s := by
  have hinit : Reach persistInit persistStep persistOk
      ⟨logNew, 1, false, false, [], []⟩ :=
    .start ⟨⟨0, 0, rfl⟩, by decide, rfl, rfl, rfl, rfl⟩
  have hstart : Reach persistInit persistStep persistOk ⟨logNew, 1, false, true, [], []⟩ :=
    hinit.step (l := PersistLabel.start) trivial ⟨rfl, rfl, rfl, rfl⟩
  have hok : UpdateOk ⟨logNew, 1, false, true, [], []⟩ twoNoops 0 [noop 1, noop 2] := by
    refine ⟨rfl, by decide, by simp, ?_, by decide, by decide, ?_⟩
    · exact chain_twoNoops
    · simp only [List.nil_append, List.pairwise_cons, List.mem_singleton, List.not_mem_nil,
        false_implies, implies_true, List.Pairwise.nil, and_true]
      rintro a rfl
      decide
  have hupdate := hstart.step (l := PersistLabel.update twoNoops 0 [noop 1, noop 2]) hok ⟨rfl, rfl⟩
  exact ⟨_, hupdate, rfl, rfl, persist_walks_live hupdate rfl⟩

/-- A server that joined after the first of the two entries was pruned: it recovers the second one,
    and its cursor is at the buffer end. -/
def joined : PersistState where
  log := (rcRecoverLog { logNew with head := 64, apply := 128 } twoNoops true).1
  idx := 2
  isLeader := false
  recovered := true
  stored := []
  written := [noop 2]

/-- The entry at offset `0` is handed over, which was never written to this log. -/
theorem not_persist_walks_live : ¬ ∀ s, Reach persistInit persistStep Always s →
    s.recovered = true → PersistsLive s := by
  intro hall
  have hinit : Reach persistInit persistStep Always
      ⟨{ logNew with head := 64, apply := 128 }, 2, false, false, [], []⟩ :=
    .start ⟨⟨64, 128, rfl⟩, by decide, rfl, rfl, rfl, rfl⟩
  have hjoined : Reach persistInit persistStep Always joined :=
    hinit.step (l := PersistLabel.recover twoNoops true [noop 2]) trivial ⟨rfl, rfl⟩
  obtain ⟨fuel, log, visits, hcall, ⟨live, stop, hwalk, hlive⟩, -, -⟩ := hall joined hjoined rfl
  -- the walk from `head` finds the entry at offset 64 only
  have hfirst : logGetEntry joined.log joined.log.head = some 64 := by decide
  have hfit : logFitEntry joined.log 64 64 = true := by decide
  have hnext : 64 + logEntryLen joined.log.entries 64 = 128 := by decide
  have hstop : logGetEntry joined.log 128 = none := by decide
  have hread := readerWalk_single hfirst hfit hnext hstop
  rw [hread] at hwalk
  obtain ⟨rfl, -⟩ := Prod.mk.inj (Option.some.inj hwalk)
  -- the loop starts at offset `0`
  obtain ⟨fuel, rfl⟩ : ∃ f, fuel = f + 1 := by
    cases fuel with
    | zero => cases hcall
    | succ fuel => exact ⟨fuel, rfl⟩
  have hguard : logIsOffsetLarger joined.log joined.log.end_ joined.log.oldEnd = true := by decide
  have hget : logGetEntry joined.log joined.log.oldEnd = some 0 := by decide
  have hfit0 : logFitEntry { joined.log with oldEnd := 0 } 0 0 = true := by decide
  rw [persistNewEntries, if_pos hguard, hget] at hcall
  simp only [hfit0, Bool.not_true, Bool.false_eq_true, if_false] at hcall
  obtain ⟨r, -, hr⟩ := Option.map_eq_some_iff.mp hcall
  obtain ⟨-, rfl⟩ := Prod.mk.inj hr
  have hmem := hlive _ List.mem_cons_self
  have hzero : (persistEntry joined.idx joined.isLeader
    { joined.log with oldEnd := 0 } 0).2.det.offset = 0 := rfl
  rw [hzero] at hmem
  simp at hmem

end Examples

end Apus
