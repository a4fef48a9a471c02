import Apus.Persist.Cursor

namespace Apus

open Lib

/-!
# The entries written to a log

Between a recovery and a crash a log is a window of the entries written to it and not cut off since
(`HoldsWritten`), whoever writes them: the server itself, or a leader that updates the log or sets its
end.  This does not depend on where the persist cursor is.

* `HoldsWritten.append_cases`, `HoldsWritten.append` — an append of the server;
* `HoldsWritten.update`, `HoldsWritten.cut` — what a leader writes;
* `HoldsWritten.reply`, `HoldsWritten.prune` — bookkeeping bytes, and `head`.
-/

/-- The log is a window of the entries written to it, with increasing indices. -/
structure HoldsWritten (log : DareLog) (hist : List DareLogEntry) (lo u : Nat) : Prop where
  window : LogWindow log hist lo u
  headOff : IsOffset log.len u log.head
  endOff : IsOffset log.len (logPos log hist hist.length) log.end_
  empty : log.end_ = log.len → hist = []
  tail : TailAt log hist u
  increasing : hist.Pairwise fun a b => a.idx < b.idx

/-- The entries `es` behind `off` are the last ones of the log. -/
def LastEntries (log : DareLog) (off : Nat) (es : List DareLogEntry) : Prop :=
  (∃ vs, WalkTo log log.head vs off) ∧ ∃ visited stop,
    readerWalk log (walkFuel log) off = some (visited, stop) ∧
      visited.map (readEntry log.entries) = es

variable {s : PersistState} {log log' : DareLog} {hist : List DareLogEntry} {lo u off n : Nat}

/-- An index above the last one is above all of them. -/
theorem lt_of_getLast {es : List DareLogEntry} {e : DareLogEntry}
    (h : es.Pairwise fun a b => a.idx < b.idx) (hlast : ∀ last ∈ es.getLast?, last.idx < e.idx) :
    ∀ a ∈ es, a.idx < e.idx := by
  intro a ha
  cases hes : es.getLast? with
  | none =>
    rw [List.getLast?_eq_none_iff.mp hes] at ha
    cases ha
  | some last =>
    have hlt := hlast last hes
    obtain ⟨pre, rfl⟩ := List.getLast?_eq_some_iff.mp hes
    rcases List.mem_append.mp ha with ha | ha
    · have hbefore := (List.pairwise_append.mp h).2.2 a ha last List.mem_cons_self
      exact UInt64.lt_trans hbefore hlt
    · rw [List.mem_singleton.mp ha]
      exact hlt

/-- The successor of an index is above it, unless it wraps around. -/
theorem lt_add_one_of_ne_zero {i : UInt64} (h : i + 1 ≠ 0) : i < i + 1 := by
  rw [UInt64.lt_iff_toNat_lt, UInt64.toNat_add]
  have hi := i.toNat_lt
  have hne : (i + 1).toNat ≠ 0 := fun hcon => h (UInt64.toNat_inj.mp hcon)
  rw [UInt64.toNat_add] at hne
  have hone : (1 : UInt64).toNat = 1 := rfl
  omega

/-- Behind the last entry a walk has visited is the place after it. -/
theorem LogWindow.walkTo_afterLast {k w off' : Nat} {visited : List Nat} (h : LogWindow log hist k w)
    (hE : EndsAt log (logPos log hist hist.length)) (hne : log.end_ ≠ log.len)
    (hoff : IsOffset log.len w off) (hw : WalkTo log off visited off') {entry : Nat}
    (hlast : visited.getLast? = some entry) :
    IsOffset log.len (logPos log hist (k + visited.length))
      (entry + logEntryLen log.entries entry) := by
  induction hw generalizing k w with
  | refl off => cases hlast
  | found hget _ ih =>
    obtain ⟨w', hw'⟩ := h.placeAt hE hne hoff (.found hget (.refl _))
    exact ih (h.place hw') hw'.offset hlast
  | rewind hget hfit _ ih =>
    obtain ⟨w', hw'⟩ := h.placeAt hE hne hoff (.rewind hget hfit (.refl _))
    exact ih (h.place hw') hw'.offset hlast
  | @visit off found off' visited hget hfit hrest ih =>
    obtain ⟨e, he, hfound⟩ := h.of_getEntry hE hne hoff hget
    have hnext := h.isOffset_next he hfound hfit
    rw [List.length_cons, Nat.add_comm _ 1, ← Nat.add_assoc]
    rcases List.eq_nil_or_concat visited with rfl | ⟨pre, b, rfl⟩
    · rw [List.getLast?_singleton] at hlast
      obtain rfl := Option.some.inj hlast
      exact hnext
    · refine ih (h.next he) hnext ?_
      rw [List.concat_eq_append, List.getLast?_cons, List.getLast?_concat] at hlast
      rw [List.concat_eq_append, List.getLast?_concat]
      exact hlast

namespace HoldsWritten

theorem endsAt (h : HoldsWritten log hist lo u) : EndsAt log (logPos log hist hist.length) :=
  ⟨h.window.hdr_le_len, h.endOff⟩

/-! ### Appends -/

/-- The new entry goes behind the others. -/
theorem appended {e : DareLogEntry} (h : HoldsWritten log hist lo u)
    (happ : Appended log (logPos log hist hist.length) e log')
    (hroom : place log.len (logPos log hist hist.length) e.size + e.size < u + log.len)
    (hfit : place log.len (logPos log hist hist.length) e.size % log.len + e.size ≠ log.len)
    (hidx : ∀ last ∈ hist.getLast?, last.idx < e.idx) :
    HoldsWritten log' (hist ++ [e]) lo u := by
  have hlen := happ.len
  have hpos := h.window.len_pos
  have hend := logPos_append log hist e
  have hle : logPos log hist hist.length ≤
      place log.len (logPos log hist hist.length) e.size := le_place hpos
  have hule : u ≤ logPos log hist hist.length := h.window.le_end
  refine ⟨h.window.appended happ hroom, ?_, ?_, ?_, ?_, ?_⟩
  · rw [hlen, happ.head]
    exact h.headOff
  · exact (LogWindow.endsAt_appended h.endsAt happ).offset
  · exact fun hcon => absurd hcon (happ.end_ne_len_iff.mpr hfit)
  · -- the tail is the place of the new entry
    have hat : PlaceAt log (hist ++ [e]) u hist.length
        (place log.len (logPos log hist hist.length) e.size) log'.tail := by
      refine ⟨.inr ⟨e, by simp, ?_⟩, by omega, by omega, by simp, ?_⟩
      · rw [entryFormat_size, pos_append (le_refl _)]
      · rw [happ.tail]
        exact isOffset_mod hpos
    refine .inr ⟨hist.length, _, by simp, ?_, hat.of_len hlen⟩
    rw [happ.tail, hlen]
    exact (Nat.mod_lt _ hpos).ne
  · refine List.pairwise_append.mpr ⟨h.increasing, List.pairwise_singleton _ _, ?_⟩
    intro a ha b hb
    rw [List.mem_singleton.mp hb]
    exact lt_of_getLast h.increasing hidx a ha

/-- What an append under the condition does: nothing, in a log whose entries are all pruned, or the new
    entry goes behind the others. -/
theorem append_cases {term reqId idx : UInt64} {cltId : UInt16} {type : UInt8} {data : EntryData}
    (h : HoldsWritten s.log s.written lo u) (hok : PersistAppendOk s type data)
    (happend : logAppendEntry s.log term reqId cltId type data = some (log', idx)) :
    (isLogFull s.log = true ∧
      ∃ b, log' = { s.log with prevLogEntryHead := b, tail := s.log.len }) ∨
    ∃ e, e = mkEntry idx term reqId cltId type data ∧ isLogFull s.log = false ∧
      Appended s.log (logPos s.log s.written s.written.length) e log' ∧
      place s.log.len (logPos s.log s.written s.written.length) e.size + e.size < u + s.log.len ∧
      place s.log.len (logPos s.log s.written s.written.length) e.size % s.log.len + e.size ≠
        s.log.len ∧
      e.idx ≠ 0 ∧ ∀ last ∈ s.written.getLast?, last.idx < e.idx := by
  have hroom := hok.room.place_lt h.endsAt h.headOff h.window.le_end h.window.window
  have hfit := hok.noExactFit
  rw [endAfterAppend_eq h.endsAt hok.room.size_lt.le] at hfit
  by_cases hempty : s.log.end_ = s.log.len
  · -- the first entry of the log
    have hfull : s.log.end_ ≠ s.log.head := by rw [hempty]; exact hok.head_ne_len.symm
    obtain ⟨log'', hspec, happ⟩ := logAppendEntry_spec term reqId cltId (.inr hempty) h.endsAt
      h.headOff h.window.le_end h.window.window hfull hok.room
    rw [happend, logNewIdx_of_end_eq_len hempty] at hspec
    rw [logNewIdx_of_end_eq_len hempty] at happ
    obtain ⟨rfl, rfl⟩ := Prod.mk.inj (Option.some.inj hspec)
    have hnot : isLogFull s.log = false := by simpa [isLogFull] using hfull
    rw [← mkEntry_size 1 term reqId cltId type data] at hroom hfit
    refine .inr ⟨_, rfl, hnot, happ, hroom, hfit, (by decide : (1 : UInt64) ≠ 0), fun last hlast => ?_⟩
    rw [h.empty hempty] at hlast
    cases hlast
  · obtain ⟨vc, hwc⟩ := hok.commit
    obtain ⟨va, hwa⟩ := hok.apply
    obtain ⟨wc, hcommit⟩ := h.window.placeAt h.endsAt hempty h.headOff hwc
    obtain ⟨wa, happly⟩ := h.window.placeAt h.endsAt hempty h.headOff hwa
    rcases logAppendEntry_searched h.window h.endsAt hempty h.headOff hok.head_ne_len h.tail
      hcommit happly hok.room happend with ⟨hfull, b, hlog⟩ | ⟨hfull, last, hlast, hidx, happ⟩
    · -- every entry is pruned
      exact .inl ⟨by simp [isLogFull, hfull], b, hlog⟩
    · have hnot : isLogFull s.log = false := by simpa [isLogFull] using hfull
      obtain rfl : idx = last.idx + 1 := hidx
      rw [← mkEntry_size (last.idx + 1) term reqId cltId type data] at hroom hfit
      refine .inr ⟨_, rfl, hnot, happ, hroom, hfit, hok.newIdx last hlast, fun last' hlast' => ?_⟩
      obtain rfl := Option.some.inj (hlast.symm.trans hlast')
      exact lt_add_one_of_ne_zero (hok.newIdx last hlast)

/-- An append under the condition. -/
theorem append {term reqId idx : UInt64} {cltId : UInt16} {type : UInt8} {data : EntryData}
    (h : HoldsWritten s.log s.written lo u) (hok : PersistAppendOk s type data)
    (happend : logAppendEntry s.log term reqId cltId type data = some (log', idx)) :
    HoldsWritten log' (if isLogFull s.log then s.written
      else s.written ++ [mkEntry idx term reqId cltId type data]) lo u := by
  rcases h.append_cases hok happend with ⟨hfull, b, rfl⟩ | ⟨e, rfl, hfull, happ, hroom, hfit, -, hidx⟩
  · rw [hfull]
    exact ⟨h.window, h.headOff, h.endOff, h.empty, .inl rfl, h.increasing⟩
  · rw [hfull]
    exact h.appended happ hroom hfit hidx

/-! ### What a leader writes -/

/-- Where a log update under the condition starts and ends. -/
theorem update_place {ldr : DareLog} {rmtEnd : Nat} {es : List DareLogEntry}
    (h : HoldsWritten s.log s.written lo u) (hok : UpdateOk s ldr rmtEnd es) :
    rmtEnd = logPos s.log s.written s.written.length % s.log.len ∧
      u ≤ logPos s.log s.written s.written.length ∧
      advance entryFormat s.log.len (logPos s.log s.written s.written.length) es <
        u + s.log.len := by
  have hused := add_sub_mod_eq h.headOff h.endOff h.window.le_end h.window.window
  have hle : u ≤ logPos s.log s.written s.written.length := h.window.le_end
  have hgrow : logPos s.log s.written s.written.length ≤
      advance entryFormat s.log.len (logPos s.log s.written s.written.length) es :=
    le_advance h.window.len_pos es
  have hroom := hok.room
  refine ⟨?_, hle, by omega⟩
  rw [hok.start]
  exact h.endOff.2

/-- A leader's log update under the condition. -/
theorem update {ldr : DareLog} {rmtEnd : Nat} {es : List DareLogEntry}
    (h : HoldsWritten s.log s.written lo u) (hok : UpdateOk s ldr rmtEnd es) :
    HoldsWritten { s.log with
      entries := ringCopy s.log.len s.log.entries ldr.entries rmtEnd ldr.end_
      end_ := ldr.end_ } (s.written ++ es) lo u := by
  have hpos := h.window.len_pos
  obtain ⟨hstart, -, hlap⟩ := h.update_place hok
  have hend : logPos s.log (s.written ++ es) (s.written ++ es).length =
      advance entryFormat s.log.len (logPos s.log s.written s.written.length) es :=
    pos_append_length
  refine ⟨Window.copy h.window hok.chain hok.nonempty hlap hstart hok.end_, h.headOff, ?_, ?_,
    .inl hok.tail, hok.increasing⟩
  · show IsOffset s.log.len (logPos s.log (s.written ++ es) (s.written ++ es).length) ldr.end_
    rw [hend, hok.end_]
    exact isOffset_mod hpos
  · intro hcon
    have hlt := Nat.mod_lt
      (advance entryFormat s.log.len (logPos s.log s.written s.written.length) es) hpos
    rw [← hok.end_] at hlt
    exact absurd hcon hlt.ne

/-- The end is set behind the first `n` entries. -/
theorem cut (h : HoldsWritten log hist lo u) (htail : log.tail = log.len) (hoff : off < log.len)
    (hlo : lo ≤ n) (hn : n ≤ hist.length) (hu : u ≤ logPos log hist n)
    (hmod : off % log.len = logPos log hist n % log.len) :
    HoldsWritten { log with end_ := off } (hist.take n) lo u := by
  have hlength : (hist.take n).length = n := List.length_take_of_le hn
  have hposn : logPos log (hist.take n) n = logPos log hist n := pos_take (le_refl n)
  refine ⟨h.window.take hlo hn hu, h.headOff, ?_, fun hcon => absurd hcon hoff.ne, .inl htail,
    h.increasing.sublist (List.take_sublist _ _)⟩
  show IsOffset log.len (logPos log (hist.take n) (hist.take n).length) off
  rw [hlength, hposn]
  exact ⟨hoff.le, hmod⟩

/-! ### Bookkeeping bytes and `head` -/

/-- A change of the bytes that keeps the window. -/
theorem of_window (h : HoldsWritten log hist lo u) (hwin : LogWindow log' hist lo u)
    (hlen : log'.len = log.len) (hhead : log'.head = log.head) (hend : log'.end_ = log.end_)
    (htail : log'.tail = log.tail) : HoldsWritten log' hist lo u := by
  refine ⟨hwin, ?_, ?_, ?_, h.tail.of_eq hlen htail, h.increasing⟩
  · rw [hlen, hhead]
    exact h.headOff
  · simp only [logPos, hlen, hend]
    exact h.endOff
  · rw [hlen, hend]
    exact h.empty

/-- The walk from `head` visits the entries of the window. -/
theorem live (h : HoldsWritten log hist lo u) : ∃ live stop,
    readerWalk log (walkFuel log) log.head = some (live, stop) ∧
      live = Lib.offsets entryFormat log.len u (hist.drop lo) := by
  by_cases hempty : log.end_ = log.len
  · refine ⟨[], log.head, ?_, ?_⟩
    · rw [walkFuel, readerWalk, logGetEntry_of_end_eq_len hempty]
    · rw [h.empty hempty, List.drop_nil]
      rfl
  · have hc := h.window.cursor h.headOff
    obtain ⟨stop, hwalk, -⟩ := hc.readerWalk h.endsAt hempty (hc.fuel h.endsAt)
    exact ⟨_, stop, hwalk, rfl⟩

theorem mem_offsets_of_live {entry stop : Nat} {live : List Nat} (h : HoldsWritten log hist lo u)
    (hwalk : readerWalk log (walkFuel log) log.head = some (live, stop)) (hentry : entry ∈ live) :
    entry ∈ Lib.offsets entryFormat log.len u (hist.drop lo) := by
  obtain ⟨live', stop', hwalk', hlive⟩ := h.live
  rw [hwalk] at hwalk'
  obtain ⟨rfl, -⟩ := Prod.mk.inj (Option.some.inj hwalk')
  rwa [← hlive]

/-- Another server's acknowledgement of a live entry. -/
theorem reply {entry i stop : Nat} {b : UInt8} {live : List Nat} (h : HoldsWritten log hist lo u)
    (hi : i < MAX_SERVER_COUNT) (hwalk : readerWalk log (walkFuel log) log.head = some (live, stop))
    (hentry : entry ∈ live) :
    HoldsWritten { log with entries := setReply log.entries entry i b } hist lo u :=
  h.of_window (h.window.setReply (h.mem_offsets_of_live hwalk hentry) hi) rfl rfl rfl rfl

/-- The tail is forgotten. -/
theorem resetTail (h : HoldsWritten log hist lo u) :
    HoldsWritten { log with tail := log.len } hist lo u :=
  ⟨h.window, h.headOff, h.endOff, h.empty, .inl rfl, h.increasing⟩

/-- `head` moves along the log, not past the tail: what is reached from it is not before it. -/
theorem prune {visited : List Nat} (h : HoldsWritten log hist lo u)
    (hwalk : WalkTo log log.head visited off)
    (htail : log.tail ≠ log.len → ∃ vs, WalkTo log off vs log.tail) :
    ∃ w, HoldsWritten { log with head := off } hist (lo + visited.length) w ∧
      ∀ {k P x : Nat} {vs : List Nat}, WalkTo log off vs x → PlaceAt log hist u k P x → w ≤ P := by
  by_cases hempty : log.end_ = log.len
  · obtain ⟨rfl, rfl⟩ := hwalk.of_end_eq_len hempty
    exact ⟨u, h, fun _ hP => hP.le⟩
  · obtain ⟨w, hw⟩ := h.window.placeAt h.endsAt hempty h.headOff hwalk
    have hwin := h.window.place hw
    have hback : ∀ {k P x : Nat} {vs : List Nat}, WalkTo log off vs x →
        PlaceAt log hist u k P x → w ≤ P := by
      intro k P x vs hvs hP
      obtain ⟨w', hw'⟩ := hwin.placeAt h.endsAt hempty hw.offset hvs
      have hsame : P = w' := hP.eq_of_offset h.window
        ⟨hw'.mark, le_trans hw.le hw'.le, hw'.le_end, hw'.count_le, hw'.offset⟩
      rw [hsame]
      exact hw'.le
    refine ⟨w, ⟨hwin, hw.offset, h.endOff, h.empty, ?_, h.increasing⟩, hback⟩
    rcases h.tail with hnone | ⟨k, P, hk, htne, hP⟩
    · exact .inl hnone
    · obtain ⟨vs, hvs⟩ := htail htne
      exact .inr ⟨k, P, hk, htne, hP.mark, hback hvs hP, hP.le_end, hP.count_le, hP.offset⟩

end HoldsWritten

end Apus
