import Apus.Commit.Walk
import Apus.Log.Adjust
import Apus.Prune.Safety
import Apus.Replication.Update

namespace Apus

open Lib

/-!
# The commit offset of a follower

After a log adjustment the leader writes to the follower the smaller of its own commit offset and the
follower's end, in the order of the log (`LogLe`).  That this is neither past the end offset the
follower has confirmed nor before what was written last (`NotOverstated`) is an invariant of the run
(`CommitInv`): the positions `u ≤ c ≤ e` of `head`, of the recorded commit offset and of the
confirmed end, and `c ≤ w` for that of the leader's commit offset.

It is one as long as no append ends exactly at the buffer end (`CommitOk`).  Such a log looks empty,
no offset is larger than another, and the leader's own commit offset is written to a follower that
ends before it (`not_commit_not_overstated`).
-/

variable {s s' : LrState} {log log' : DareLog} {hist : List DareLogEntry} {lo u k w c e : Nat}
  {off off' : Nat}

/-! ### The order of a log -/

/-- One offset of a log is not behind another. -/
def LogLe (log : DareLog) (off off' : Nat) : Prop :=
  (off + log.len - log.head) % log.len ≤ (off' + log.len - log.head) % log.len

theorem logLe_iff (log : DareLog) {x y : Nat} (hhead : IsOffset log.len u log.head)
    (hx : IsOffset log.len x off)
    (hy : IsOffset log.len y off') (hux : u ≤ x) (huy : u ≤ y) (hxu : x < u + log.len)
    (hyu : y < u + log.len) : LogLe log off off' ↔ x ≤ y := by
  rw [LogLe, add_sub_mod_eq hhead hx hux hxu, add_sub_mod_eq hhead hy huy hyu]
  omega

/-- The position of an offset, less than a lap behind `head`. -/
theorem exists_position (hlen : 0 < log.len) (hhead : IsOffset log.len u log.head)
    (hoff : off ≤ log.len) : ∃ x, IsOffset log.len x off ∧ u ≤ x ∧ x < u + log.len := by
  refine ⟨u + (off + log.len - log.head) % log.len, ⟨hoff, ?_⟩, Nat.le_add_right _ _,
    Nat.add_lt_add_left (Nat.mod_lt _ hlen) u⟩
  have hle := hhead.1
  rw [Nat.add_mod, Nat.mod_mod, ← hhead.2, ← Nat.add_mod,
    show log.head + (off + log.len - log.head) = off + log.len by omega, Nat.add_mod_right]

/-! ### The invariant -/

/-- The positions of the recorded commit offset (`c`), of the confirmed end (`e`) and of the leader's
    commit offset (`w`). -/
structure CommitInv (s : LrState) (hist : List DareLogEntry) (lo u w c e : Nat) : Prop where
  log : PrunableLog s.log hist lo u
  commit : ∃ k, PlaceAt s.log hist u k w s.log.commit
  endOff : IsOffset s.log.len e s.confirmedEnd
  end_le : e ≤ logPos s.log hist hist.length
  remoteOff : IsOffset s.log.len c s.remoteCommit
  head_le : u ≤ c
  le_end : c ≤ e
  le_commit : c ≤ w
  step : s.nextLrStep = .updateLog ∨ s.nextLrStep = .updateEnd
  /-- The end offset that is about to be written. -/
  cached : s.nextLrStep = .updateEnd ∨ s.sendFlag = false →
    ∃ v, IsOffset s.log.len v s.cachedEndOffset ∧ e ≤ v ∧ v ≤ logPos s.log hist hist.length

/-- The invariant, for some history of the log. -/
def Ordered (s : LrState) : Prop := ∃ hist lo u w c e, CommitInv s hist lo u w c e

/-- A commit offset `v` that is written to the follower. -/
structure NotOverstated (s s' : LrState) (v : Nat) : Prop where
  le_end : LogLe s'.log v s'.confirmedEnd
  le_commit : LogLe s'.log v s'.log.commit
  le_recorded : LogLe s'.log s.remoteCommit v

/-- What log adjustment leaves: the log is not empty, and the follower's commit offset is not behind
    its end and the leader's commit offset. -/
structure Adjusted (s : LrState) (hist : List DareLogEntry) (lo u : Nat) : Prop where
  log : PrunableLog s.log hist lo u
  remoteCommit : s.remoteCommit ≤ s.log.len
  remoteEnd : s.remoteEnd ≤ s.log.len
  le_commit : LogLe s.log s.remoteCommit s.log.commit
  le_end : LogLe s.log s.remoteCommit s.remoteEnd
  end_le : LogLe s.log s.remoteEnd s.log.end_

/-- The log of a follower is to be updated. -/
def lazyInit (s : LrState) : Prop :=
  lrInit s ∧ s.nextLrStep = .updateLog ∧ ∃ hist lo u, Adjusted s hist lo u

/-- The changes of the log keep its entries and the order of its offsets. -/
def ChangeOk (s : LrState) : LogChange → Prop
  | .append _ _ _ type data => AppendFits s.log type data
  | .head offset => (∃ visited, WalkTo s.log s.log.head visited offset) ∧
      (∃ entry, logGetEntry s.log offset = some entry) ∧ LogLe s.log offset s.log.apply ∧
      LogLe s.log offset s.remoteCommit
  | .apply offset => (∃ visited, WalkTo s.log s.log.apply visited offset) ∧
      LogLe s.log offset s.log.commit
  | .voteAck offset => logIsOffsetLarger s.log offset s.log.commit = true →
      ∃ visited, WalkTo s.log s.log.commit visited offset

def CommitOk (s : LrState) : LrLabel → Prop
  | .log c => ChangeOk s c
  | .reply entry i _ => i < MAX_SERVER_COUNT ∧ ∃ visited stop,
      readerWalk s.log (walkFuel s.log) s.log.head = some (visited, stop) ∧ entry ∈ visited
  | .join => False
  | _ => True

/-- The end of a log is less than a lap behind its head. -/
theorem PrunableLog.end_lt (h : PrunableLog log hist lo u) :
    logPos log hist hist.length < u + log.len := h.window.window

theorem Adjusted.ordered (h : Adjusted s hist lo u) (hstep : s.nextLrStep = .updateLog)
    (hflag : s.sendFlag = true) (hend : s.remoteEnd = s.confirmedEnd) : Ordered s := by
  have hlog := h.log
  have hlen := hlog.window.len_pos
  have hlt := hlog.end_lt
  have hle : u ≤ logPos s.log hist hist.length := hlog.window.le_end
  obtain ⟨-, -, kc, w, -, hcommit, -⟩ := hlog.cursors
  have hw := hcommit.le
  have hwend := hcommit.le_end
  obtain ⟨c, hc, huc, hcu⟩ := exists_position hlen hlog.head h.remoteCommit
  obtain ⟨e, he, hue, heu⟩ := exists_position hlen hlog.head h.remoteEnd
  have hcw := (logLe_iff _ hlog.head hc hcommit.offset huc hw hcu (by omega)).mp h.le_commit
  have hce := (logLe_iff _ hlog.head hc he huc hue hcu heu).mp h.le_end
  have hee := (logLe_iff _ hlog.head he hlog.ends.offset hue hle heu hlt).mp h.end_le
  refine ⟨hist, lo, u, w, c, e, hlog, ⟨kc, hcommit⟩, hend ▸ he, hee, hc, huc, hce, hcw, .inl hstep,
    fun hcon => ?_⟩
  rw [hstep, hflag] at hcon
  rcases hcon with hcon | hcon <;> cases hcon

/-- The end that log adjustment finds is in order, unless the run of common entries ends where no
    header fits and something is cut off. -/
theorem search_in_order {gs tl ls : List DareLogEntry} {o : Nat} (hlog : PrunableLog log hist lo u)
    (hc : PlaceAt log hist u k c off)
    (hmatch : LogMatching log (logPos log hist hist.length) c ls (gs ++ tl)) (hne : gs ++ tl ≠ [])
    (hocc : ∀ f ∈ gs, occurs ls f = true) (hnot : ∀ f ∈ tl.head?, occurs ls f = false)
    (hfits : tl ≠ [] → advance entryFormat log.len c gs % log.len + ENTRY_SIZE ≤ log.len) :
    logFindRemoteEndOffset log o (dets log.len c (gs ++ tl)) ≤ log.len ∧
      LogLe log off (logFindRemoteEndOffset log o (dets log.len c (gs ++ tl))) ∧
      LogLe log (logFindRemoteEndOffset log o (dets log.len c (gs ++ tl))) log.end_ := by
  have hlen := hlog.window.len_pos
  have hlt := hlog.end_lt
  have huc := hc.le
  have hcend := hc.le_end
  have hca : c ≤ advance entryFormat log.len c gs := le_advance hlen gs
  -- the common entries end before the leader's log does
  have hend : advance entryFormat log.len c gs ≤ logPos log hist hist.length := by
    by_cases hgs : gs = []
    · rw [hgs]
      exact hcend
    · obtain ⟨start, rest, hcursor⟩ := hmatch.aligned hgs hocc
      rw [← hcursor.stop, advance_append]
      exact le_advance hlen rest
  obtain ⟨hcut, hwhole⟩ := hmatch.search (o := o) gs hlog.ends hocc hnot fun _ => hlog.end_ne
  have hoff : IsOffset log.len (advance entryFormat log.len c gs)
      (logFindRemoteEndOffset log o (dets log.len c (gs ++ tl))) := by
    by_cases htl : tl = []
    · obtain ⟨r, hr, -, hoff⟩ := hwhole htl fun hgs => hne (by rw [hgs, htl]; rfl)
      rw [hr]
      exact hoff
    · rw [hcut htl, headerOffset, entryFormat_hdr, if_pos (hfits htl)]
      exact isOffset_mod hlen
  exact ⟨hoff.1,
    (logLe_iff _ hlog.head hc.offset hoff huc (by omega) (by omega) (by omega)).mpr hca,
    (logLe_iff _ hlog.head hoff hlog.ends.offset (by omega) (by omega) (by omega) hlt).mpr hend⟩

/-! ### Steps -/

/-- The completion of a block does not confirm an end offset. -/
theorem record_confirmedEnd {r : WorkRequest} {rc : WcResult} {start n : Nat}
    (hr : r.request = .entries start n) : (s.record r rc).confirmedEnd = s.confirmedEnd := by
  unfold LrState.record
  rw [hr]
  cases r.source with
  | none => rfl
  | some m =>
    simp only
    split <;> rfl

/-- The end offset is written behind the log. -/
theorem progress_updateLog (flag : Bool) (count : Nat) (b : Bool) :
    (progress .updateLog flag count b).nextLrStep = .updateLog ∨
      (progress .updateLog flag count b).nextLrStep = .updateEnd := by
  match count, b with
  | 0, _ => exact .inl rfl
  | 1, true => exact .inr rfl
  | 1, false => exact .inl rfl
  | 2, _ => exact .inl rfl
  | _ + 3, _ => exact .inl rfl

namespace CommitInv

/-- A step that does not touch the offsets. -/
theorem frame {t : LrState} (h : CommitInv s hist lo u w c e) (hlog : t.log = s.log)
    (hend : t.confirmedEnd = s.confirmedEnd) (hremote : t.remoteCommit = s.remoteCommit)
    (hcached : t.cachedEndOffset = s.cachedEndOffset)
    (hstep : t.nextLrStep = .updateLog ∨ t.nextLrStep = .updateEnd)
    (hpending : t.nextLrStep = .updateEnd ∨ t.sendFlag = false →
      s.nextLrStep = .updateEnd ∨ s.sendFlag = false) : CommitInv t hist lo u w c e := by
  obtain ⟨h1, h2, h3, h4, h5, h6, h7, h8, -, h10⟩ := h
  rw [← hlog] at h1 h2 h3 h4 h5 h10
  rw [← hend] at h3
  rw [← hremote] at h5
  rw [← hcached] at h10
  exact ⟨h1, h2, h3, h4, h5, h6, h7, h8, hstep, fun hcon => h10 (hpending hcon)⟩

/-- The same, where the step and the flag stay, too. -/
theorem same {t : LrState} (h : CommitInv s hist lo u w c e) (hlog : t.log = s.log)
    (hend : t.confirmedEnd = s.confirmedEnd) (hremote : t.remoteCommit = s.remoteCommit)
    (hcached : t.cachedEndOffset = s.cachedEndOffset) (hstep : t.nextLrStep = s.nextLrStep)
    (hflag : t.sendFlag = s.sendFlag) : CommitInv t hist lo u w c e := by
  refine h.frame hlog hend hremote hcached ?_ ?_
  · rw [hstep]
    exact h.step
  · rw [hstep, hflag]
    exact id

theorem append {term reqId idx : UInt64} {cltId : UInt16} {type : UInt8} {data : EntryData}
    (h : CommitInv s hist lo u w c e) (hfits : AppendFits s.log type data)
    (happend : logAppendEntry s.log term reqId cltId type data = some (log', idx)) :
    ∃ f, CommitInv { s with log := log' } (hist ++ [f]) lo u w c e := by
  have hlen := h.log.window.len_pos
  obtain ⟨log₁, idx₁, f, happend₁, hlog, hhead, -, hlen'⟩ :=
    h.log.append term reqId cltId hfits
  obtain ⟨rfl, -⟩ := Prod.mk.inj (Option.some.inj (happend.symm.trans happend₁))
  have hcommit : log'.commit = s.log.commit := by
    obtain ⟨t, -, hcreated⟩ := logAppendEntry_created h.log.ends.entrySize_le_len happend
    exact hcreated.commit
  obtain ⟨k, hk⟩ := h.commit
  -- the end is not before the one that was
  have hend : logPos s.log hist hist.length ≤ logPos log' (hist ++ [f]) (hist ++ [f]).length := by
    have hold : PlaceAt s.log hist u hist.length (logPos s.log hist hist.length) s.log.end_ :=
      ⟨Mark.pos _, h.log.window.le_end, le_refl _, le_refl _, h.log.ends.offset⟩
    exact ((hold.append [f] hlen).of_len hlen').le_end
  refine ⟨f, hlog, ⟨k, ?_⟩, ?_, le_trans h.end_le hend, ?_, h.head_le, h.le_end, h.le_commit, h.step,
    fun hpending => ?_⟩
  · show PlaceAt log' _ u k w log'.commit
    rw [hcommit]
    exact (hk.append [f] hlen).of_len hlen'
  · show IsOffset log'.len e s.confirmedEnd
    rw [hlen']
    exact h.endOff
  · show IsOffset log'.len c s.remoteCommit
    rw [hlen']
    exact h.remoteOff
  · -- the offset of the update is still before the end
    obtain ⟨v, hv, hev, hvend⟩ := h.cached hpending
    refine ⟨v, ?_, hev, le_trans hvend hend⟩
    show IsOffset log'.len v s.cachedEndOffset
    rw [hlen']
    exact hv

/-- `head` moves on, not past the recorded commit offset. -/
theorem head (h : CommitInv s hist lo u w c e) (hok : ChangeOk s (.head off)) :
    Ordered { s with log := { s.log with head := off } } := by
  obtain ⟨⟨visited, hwalk⟩, ⟨entry, hget⟩, happly, hremote⟩ := hok
  have hlt := h.log.end_lt
  have hce := h.le_end
  have hee := h.end_le
  obtain ⟨v, hplace⟩ := h.log.window.placeAt h.log.ends h.log.end_ne h.log.head hwalk
  have huv := hplace.le
  have hvend := hplace.le_end
  -- an entry behind the offset
  obtain ⟨f, hf, -⟩ := (h.log.window.place hplace).of_getEntry h.log.ends h.log.end_ne hplace.offset
    hget
  have hk := (List.getElem?_eq_some_iff.mp hf).1
  have hlog : PrunableLog { s.log with head := off } hist (lo + visited.length) v := by
    refine h.log.moveHead hplace hk fun n x hx => ?_
    have hux := hx.le
    have hxend := hx.le_end
    exact (logLe_iff _ h.log.head hplace.offset hx.offset huv hux (by omega) (by omega)).mp happly
  have hvc := (logLe_iff _ h.log.head hplace.offset h.remoteOff huv h.head_le (by omega)
    (by omega)).mp hremote
  obtain ⟨k, hcommit⟩ := h.commit
  have hcw := h.le_commit
  exact ⟨hist, _, v, w, c, e, hlog,
    ⟨k, hcommit.mark, by omega, hcommit.le_end, hcommit.count_le, hcommit.offset⟩, h.endOff, h.end_le,
    h.remoteOff, hvc, h.le_end, h.le_commit, h.step, h.cached⟩

/-- Entries are applied, not past the commit offset. -/
theorem apply (h : CommitInv s hist lo u w c e) (hok : ChangeOk s (.apply off)) :
    CommitInv { s with log := { s.log with apply := off } } hist lo u w c e := by
  obtain ⟨⟨visited, hwalk⟩, hcommit⟩ := hok
  have hlt := h.log.end_lt
  obtain ⟨ka, wa, kc, wc, ha, hc, -⟩ := h.log.cursors
  obtain ⟨j, v, hv, -⟩ := h.log.walkPlace ha hwalk
  have huv := hv.le
  have hvend := hv.le_end
  have hucw := hc.le
  have hcend := hc.le_end
  have hvc := (logLe_iff _ h.log.head hv.offset hc.offset huv hucw (by omega) (by omega)).mp hcommit
  obtain ⟨h1, h2, h3, h4, h5, h6, -⟩ := h.log
  exact ⟨⟨h1, h2, ⟨h3.1, h3.2⟩, h4, h5, h6, j, v, kc, wc, hv.of_len rfl, hc.of_len rfl, hvc⟩,
    h.commit.imp fun _ hk => hk.of_len rfl, h.endOff, h.end_le, h.remoteOff, h.head_le, h.le_end,
    h.le_commit, h.step, h.cached⟩

/-- The commit offset of the leader moves on. -/
theorem setCommit {visited : List Nat} (h : CommitInv s hist lo u w c e)
    (hwalk : WalkTo s.log s.log.commit visited off) :
    ∃ w', w ≤ w' ∧ CommitInv { s with log := { s.log with commit := off } } hist lo u w' c e := by
  obtain ⟨k, hcommit⟩ := h.commit
  obtain ⟨j, v, hv, hwv⟩ := h.log.walkPlace hcommit hwalk
  obtain ⟨h1, h2, h3, h4, h5, h6, ka, wa, kc, wc, ha, hc, hac⟩ := h.log
  have hsame : wc = w := PlaceAt.eq_of_offset h1 hc hcommit
  have hcw := h.le_commit
  exact ⟨v, hwv, ⟨h1, h2, ⟨h3.1, h3.2⟩, h4, h5, h6, ka, wa, j, v, ha.of_len rfl, hv.of_len rfl, by omega⟩,
    ⟨j, hv.of_len rfl⟩, h.endOff, h.end_le, h.remoteOff, h.head_le, h.le_end, by omega, h.step,
    h.cached⟩

/-- A reply byte is not part of an entry. -/
theorem reply {entry i : Nat} {b : UInt8} (h : CommitInv s hist lo u w c e)
    (hok : CommitOk s (.reply entry i b)) :
    CommitInv { s with log := { s.log with entries := setReply s.log.entries entry i b } }
      hist lo u w c e := by
  obtain ⟨hi, visited, stop, hwalk, hmem⟩ := hok
  have hc := h.log.window.cursor h.log.head
  obtain ⟨stop', hwalk', -⟩ := hc.readerWalk h.log.ends h.log.end_ne (hc.fuel h.log.ends)
  rw [hwalk] at hwalk'
  obtain ⟨rfl, -⟩ := Prod.mk.inj (Option.some.inj hwalk')
  obtain ⟨h1, h2, h3, h4, h5, h6, ka, wa, kc, wc, ha, hc, hac⟩ := h.log
  exact ⟨⟨h1.setReply hmem hi, h2, ⟨h3.1, h3.2⟩, h4, h5, h6, ka, wa, kc, wc, ha.of_len rfl,
    hc.of_len rfl, hac⟩, h.commit.imp fun _ hk => hk.of_len rfl, h.endOff, h.end_le, h.remoteOff,
    h.head_le, h.le_end, h.le_commit, h.step, h.cached⟩

/-- The leader's commit offset moves over acknowledged entries. -/
theorem updateCommit {idx size : Nat} {passes : List Pass} (h : CommitInv s hist lo u w c e)
    (hupdate : Apus.updateCommit s.log idx size = some (log', passes)) :
    ∃ w', CommitInv { s with log := log' } hist lo u w' c e := by
  obtain ⟨⟨stop, passed⟩, hwalk, hr⟩ := Option.map_eq_some_iff.mp hupdate
  split at hr
  · obtain ⟨rfl, -⟩ := Prod.mk.inj hr
    obtain ⟨visited, hwalk⟩ := walkTo_of_commitWalk hwalk
    obtain ⟨w', -, hinv⟩ := h.setCommit hwalk
    exact ⟨w', hinv⟩
  · obtain ⟨rfl, -⟩ := Prod.mk.inj hr
    exact ⟨w, h⟩

/-- The smaller of the leader's commit offset and the follower's end is written. -/
theorem lazyCommit (size : Nat) (h : CommitInv s hist lo u w c e) (hcall : s.call = [])
    (hremote : s.nextLrStep = .updateLog → s.remoteEnd = s.confirmedEnd) :
    (∃ c', CommitInv (s.lazyCommit size) hist lo u w c' e) ∧
      ∀ v wa, (.commit v, wa) ∈ (s.lazyCommit size).call → NotOverstated s (s.lazyCommit size) v := by
  have hnone : ∀ {r : Request × Bool}, r ∉ s.call := by
    intro r hr
    rw [hcall] at hr
    cases hr
  unfold LrState.lazyCommit
  by_cases hskip : (s.isSkipped || decide (size ≤ s.conn) || decide (s.nextLrStep ≠ .updateLog)) = true
  · rw [if_pos hskip]
    exact ⟨⟨c, h⟩, fun v wa hv => absurd hv hnone⟩
  rw [if_neg hskip]
  have hstep : s.nextLrStep = .updateLog := by
    simp only [Bool.or_eq_true, decide_eq_true_eq, not_or, not_not] at hskip
    exact hskip.2
  by_cases hsame : s.remoteCommit = s.remoteEnd ∨ s.remoteCommit = s.log.commit
  · rw [if_pos hsame]
    exact ⟨⟨c, h⟩, fun v wa hv => absurd hv hnone⟩
  rw [if_neg hsame, hremote hstep]
  have hlt := h.log.end_lt
  have hce := h.le_end
  have hcw := h.le_commit
  have huc := h.head_le
  have hee := h.end_le
  obtain ⟨k, hcommit⟩ := h.commit
  have hwend := hcommit.le_end
  have hlarger := logIsOffsetLarger_iff_lt h.log.ends h.log.end_ne hcommit.offset h.endOff hwend hee
    (by omega) (by omega)
  -- what is written is between the recorded offset and the two bounds
  obtain ⟨c', hc', hcc', hc'e, hc'w⟩ : ∃ c', IsOffset s.log.len c'
      (if logIsOffsetLarger s.log s.log.commit s.confirmedEnd then s.confirmedEnd
        else s.log.commit) ∧ c ≤ c' ∧ c' ≤ e ∧ c' ≤ w := by
    by_cases hlt : e < w
    · rw [if_pos (hlarger.mpr hlt)]
      exact ⟨e, h.endOff, hce, le_refl e, hlt.le⟩
    · rw [if_neg fun hcon => hlt (hlarger.mp hcon)]
      exact ⟨w, hcommit.offset, hcw, Nat.le_of_not_lt hlt, le_refl w⟩
  refine ⟨⟨c', h.log, ⟨k, hcommit⟩, h.endOff, hee, hc', by omega, hc'e, hc'w, h.step, h.cached⟩,
    fun v wa hv => ?_⟩
  obtain ⟨hv, -⟩ := Prod.mk.inj (List.mem_singleton.mp hv)
  obtain rfl := Request.commit.inj hv
  have hhead := h.log.head
  exact ⟨(logLe_iff _ hhead hc' h.endOff (by omega) (by omega) (by omega) (by omega)).mpr hc'e,
    (logLe_iff _ hhead hc' hcommit.offset (by omega) (by omega) (by omega) (by omega)).mpr hc'w,
    (logLe_iff _ hhead h.remoteOff hc' huc (by omega) (by omega) (by omega)).mpr hcc'⟩

theorem commitOffsets {size : Nat} (h : CommitInv s hist lo u w c e) (hcall : s.call = [])
    (hremote : s.nextLrStep = .updateLog → s.remoteEnd = s.confirmedEnd)
    (hs : s.commitOffsets size = some s') :
    Ordered s' ∧ ∀ v wa, (.commit v, wa) ∈ s'.call → NotOverstated s s' v := by
  obtain ⟨⟨log, passes⟩, hupdate, rfl⟩ := Option.map_eq_some_iff.mp hs
  obtain ⟨w', hinv⟩ := h.updateCommit hupdate
  obtain ⟨⟨c', hinv'⟩, hwritten⟩ := hinv.lazyCommit size hcall hremote
  refine ⟨⟨hist, lo, u, w', c', e, hinv'⟩, fun v wa hv => ?_⟩
  obtain ⟨h1, h2, h3⟩ := hwritten v wa hv
  exact ⟨h1, h2, h3⟩

/-- The update of a follower's log and end. -/
theorem updateRemoteLog (h : CommitInv s hist lo u w c e) :
    CommitInv s.updateRemoteLog hist lo u w c e := by
  unfold LrState.updateRemoteLog
  by_cases hskip : (s.isSkipped || !s.sendFlag) = true
  · rw [if_pos hskip]
    exact h
  rw [if_neg hskip]
  cases hstep : s.nextLrStep with
  | updateLog =>
    by_cases hdist : logOffsetEndDistance s.log s.remoteEnd = 0
    · simp only [if_pos hdist]
      exact h
    · simp only [if_neg hdist]
      exact ⟨h.log, h.commit, h.endOff, h.end_le, h.remoteOff, h.head_le, h.le_end, h.le_commit,
        .inl rfl, fun _ => ⟨_, h.log.ends.offset, h.end_le, le_refl _⟩⟩
  | updateEnd => exact h.frame rfl rfl rfl rfl (.inr rfl) fun _ => .inl hstep
  | getWrite => exact h
  | getNceLen => exact h
  | getNce => exact h
  | setEnd => exact h

/-- The log of the follower is adjusted already. -/
theorem logAdjustment (h : CommitInv s hist lo u w c e) (voteAck : Nat)
    (nc : List DareLogEntryDet) : s.logAdjustment voteAck nc = s := by
  unfold LrState.logAdjustment
  split
  · rfl
  · simp only
    rcases h.step with hstep | hstep
    · rw [hstep]
    · rw [hstep]

/-- A completion confirms at most the end offset that was written. -/
theorem polled {t : LrState} {r : WorkRequest} {rc : WcResult} {P Q : List Request} {len : Nat}
    (h : CommitInv s hist lo u w c e) (hp : PolledLr len s t r rc P Q) : Ordered t := by
  obtain ⟨v, hv, hev, hvend⟩ := h.cached (.inr hp.sendFlag)
  have hexp := hp.expects
  unfold LrState.Expects at hexp
  have hframe := hp.frame
  have hnext := hp.nextLrStep
  have hconfirmed := hp.confirmedEnd
  rcases h.step with hstep | hstep
  · rw [hstep] at hexp hnext
    obtain ⟨start, n, hr⟩ := hexp.1 r.request (List.mem_append_right _ List.mem_cons_self)
    have hsame : t.confirmedEnd = s.confirmedEnd := by
      rw [hconfirmed]
      exact record_confirmedEnd hr
    refine ⟨hist, lo, u, w, c, e, h.frame hframe.log hsame hframe.remoteCommit
      hframe.cachedEndOffset ?_ fun _ => .inr hp.sendFlag⟩
    rw [hnext]
    exact progress_updateLog _ _ _
  · rw [hstep] at hexp hnext
    obtain ⟨hr, -⟩ := hp.one hexp.1
    by_cases hrc : rc = .success
    · -- the cached end offset is confirmed
      have hnew : t.confirmedEnd = s.cachedEndOffset := by
        rw [hconfirmed, record_setEnd (.inr hr), if_pos hrc]
      have hlog : t.nextLrStep = .updateLog := by
        rw [hnext, decide_eq_true hrc]
        rfl
      have hon : t.sendFlag = true := by
        rw [hp.flag, hstep]
        rfl
      have hce := h.le_end
      obtain ⟨h1, h2, -, -, h5, h6, -, h8, -, -⟩ := h
      rw [← hframe.log] at h1 h2 h5 hv hvend
      rw [← hframe.remoteCommit] at h5
      rw [← hnew] at hv
      refine ⟨hist, lo, u, w, c, v, h1, h2, hv, hvend, h5, h6, by omega, h8, .inl hlog, fun hcon => ?_⟩
      rw [hlog, hon] at hcon
      rcases hcon with hcon | hcon <;> cases hcon
    · have hsame : t.confirmedEnd = s.confirmedEnd := by
        rw [hconfirmed, record_setEnd (.inr hr), if_neg hrc]
      have hend : t.nextLrStep = .updateEnd := by
        rw [hnext, decide_eq_false hrc]
        rfl
      exact ⟨hist, lo, u, w, c, e, h.frame hframe.log hsame hframe.remoteCommit
        hframe.cachedEndOffset (.inr hend) fun _ => .inl hstep⟩

theorem poll {j : Nat} {rc : WcResult} {len : Nat} (h : CommitInv s hist lo u w c e)
    (hinv : LrInv len s) (hs : s.poll j rc = some s') : Ordered s' := by
  obtain ⟨r, a, b, hsplit, -, -, hcases⟩ := poll_cases hs
  have hr : r ∈ s.qp.outstanding := by
    rw [hsplit]
    exact List.mem_append_right _ List.mem_cons_self
  rcases hcases with ⟨-, -, rfl⟩ | ⟨-, rfl⟩
  · exact ⟨hist, lo, u, w, c, e, h.same rfl rfl rfl rfl rfl rfl⟩
  · cases hlr : r.request.isLr with
    | true =>
      obtain ⟨-, P, Q, hp⟩ := LrInv.polled rc hinv hsplit hlr
      exact h.polled hp
    | false =>
      have hbase : wridBase r.wrId ≠ s.nextWrId := fun hbase => by
        rw [(hinv.ids.ids r hr).mpr hbase] at hlr
        cases hlr
      rw [polled_other hbase hlr]
      exact ⟨hist, lo, u, w, c, e, h.same rfl rfl rfl rfl rfl rfl⟩

theorem changeLog {ch : LogChange} (h : CommitInv s hist lo u w c e) (hok : ChangeOk s ch)
    (hs : Apus.changeLog s.log ch = some log') : Ordered { s with log := log' } := by
  cases ch with
  | append term reqId cltId type data =>
    obtain ⟨⟨log'', idx⟩, happend, rfl⟩ := Option.map_eq_some_iff.mp hs
    obtain ⟨f, hinv⟩ := h.append hok happend
    exact ⟨_, lo, u, w, c, e, hinv⟩
  | head offset =>
    obtain rfl := Option.some.inj hs
    exact h.head hok
  | apply offset =>
    obtain rfl := Option.some.inj hs
    exact ⟨hist, lo, u, w, c, e, h.apply hok⟩
  | voteAck offset =>
    obtain rfl := Option.some.inj hs
    -- only an offset past the commit offset is taken
    by_cases hlarger : logIsOffsetLarger s.log offset s.log.commit = true
    · obtain ⟨visited, hwalk⟩ := hok hlarger
      obtain ⟨w', -, hinv⟩ := h.setCommit hwalk
      rw [if_pos hlarger]
      exact ⟨hist, lo, u, w', c, e, hinv⟩
    · rw [if_neg hlarger]
      exact ⟨hist, lo, u, w, c, e, h⟩

/-- Every step under the condition keeps the order of the offsets. -/
theorem moves {l : LrLabel} {len : Nat} (h : CommitInv s hist lo u w c e) (hinv : LrInv len s)
    (hok : CommitOk s l) (hs : LrMoves s l s') : Ordered s' := by
  have hsame : ∀ {t : LrState}, CommitInv t hist lo u w c e → Ordered t := fun ht =>
    ⟨hist, lo, u, w, c, e, ht⟩
  cases l with
  | log ch =>
    obtain ⟨-, hs⟩ := Option.ite_none_right_eq_some.mp hs
    obtain ⟨log', hlog, rfl⟩ := Option.map_eq_some_iff.mp hs
    exact h.changeLog hok hlog
  | reply entry i b =>
    obtain rfl := Option.some.inj hs
    exact hsame (h.reply hok)
  | ssn =>
    obtain ⟨-, hs⟩ := Option.ite_none_right_eq_some.mp hs
    obtain rfl := Option.some.inj hs
    exact hsame (h.same rfl rfl rfl rfl rfl rfl)
  | failCount n =>
    obtain rfl := Option.some.inj hs
    exact hsame (h.same rfl rfl rfl rfl rfl rfl)
  | logAdjustment voteAck nc =>
    obtain ⟨-, hs⟩ := Option.ite_none_right_eq_some.mp hs
    obtain rfl := Option.some.inj hs
    rw [h.logAdjustment]
    exact hsame h
  | updateRemoteLog =>
    obtain ⟨-, hs⟩ := Option.ite_none_right_eq_some.mp hs
    obtain rfl := Option.some.inj hs
    exact hsame h.updateRemoteLog
  | commitOffsets size =>
    obtain ⟨hcall, hs⟩ := Option.ite_none_right_eq_some.mp hs
    exact (h.commitOffsets hcall hinv.started hs).1
  | getRemoteApplyOffset voteAck =>
    obtain ⟨-, hs⟩ := Option.ite_none_right_eq_some.mp hs
    obtain rfl := Option.some.inj hs
    unfold LrState.getRemoteApplyOffset
    split
    · exact hsame h
    · exact hsame (h.same rfl rfl rfl rfl rfl rfl)
  | post =>
    cases hcall : s.call with
    | nil =>
      rw [LrMoves, lrStep, hcall] at hs
      cases hs
    | cons q rest =>
      obtain ⟨r, wa⟩ := q
      rw [LrMoves, lrStep, hcall] at hs
      obtain ⟨-, hs⟩ := Option.ite_none_left_eq_some.mp hs
      obtain rfl := Option.some.inj hs
      obtain ⟨ws, qp, lost, heq, -⟩ := LrState.postSend_eq hinv.ids.conn_lt r wa
      have hmem : (r, wa) ∈ s.call := by
        rw [hcall]
        exact List.mem_cons_self
      have hflag := hinv.second_flag hmem
      rw [heq, hflag]
      exact hsame (h.same rfl rfl rfl rfl rfl rfl)
  | land j =>
    have hs' : s.land j = some s' := hs
    unfold LrState.land at hs'
    split at hs'
    · cases hs'
    · simp only at hs'
      split at hs'
      · obtain rfl := Option.some.inj hs'
        exact hsame (h.same rfl rfl rfl rfl rfl rfl)
      · obtain rfl := Option.some.inj hs'
        exact hsame (h.same rfl rfl rfl rfl rfl rfl)
  | poll j rc => exact h.poll hinv hs
  | remove =>
    obtain ⟨-, hs⟩ := Option.ite_none_right_eq_some.mp hs
    obtain rfl := Option.some.inj hs
    unfold LrState.remove
    split <;> exact hsame (h.same rfl rfl rfl rfl rfl rfl)
  | join => exact hok.elim
  | connect =>
    obtain ⟨-, hs⟩ := Option.ite_none_right_eq_some.mp hs
    obtain rfl := Option.some.inj hs
    exact hsame (h.same rfl rfl rfl rfl rfl rfl)
  | established =>
    obtain ⟨-, hs⟩ := Option.ite_none_right_eq_some.mp hs
    obtain rfl := Option.some.inj hs
    exact hsame (h.same rfl rfl rfl rfl rfl rfl)

end CommitInv

/-! ### Runs -/

theorem reach_ordered (h : Reach lazyInit LrMoves CommitOk s) : LrInv LOG_SIZE s ∧ Ordered s := by
  refine @Reach.invariant _ _ _ _ _ (fun s => LrInv LOG_SIZE s ∧ Ordered s) _ ?_ ?_ h
  · rintro s ⟨hinit, hstep, hist, lo, u, hadjusted⟩
    have hinv := LrInv.init hinit
    exact ⟨hinv, hadjusted.ordered hstep hinit.2.1 (hinv.started hstep)⟩
  · rintro s l s' ⟨hinv, hist, lo, u, w, c, e, hordered⟩ hok hs
    exact ⟨hinv.step (by decide) hs, hordered.moves hinv hok hs⟩

/-- **No commit offset that is written to a follower is overstated** in these runs. -/
theorem commit_not_overstated {size v : Nat} {wa : Bool} (h : Reach lazyInit LrMoves CommitOk s)
    (hs : LrMoves s (.commitOffsets size) s') (hv : (.commit v, wa) ∈ s'.call) :
    NotOverstated s s' v := by
  obtain ⟨hinv, hist, lo, u, w, c, e, hordered⟩ := reach_ordered h
  obtain ⟨hcall, hs⟩ := Option.ite_none_right_eq_some.mp hs
  exact (hordered.commitOffsets hcall hinv.started hs).2 v wa hv

section ExactFit

/-- A follower that lacks the second of two entries, and does not know that the first one is
    committed. -/
def lacksSecond (n : Nat) : LrState :=
  followerOf (twoEntries (n * 64)).log .updateLog (n * 64 + 64) (n * 64)

theorem lazyInit_lacksSecond {n : Nat} (hn : (n + 2) * 64 < LOG_SIZE) : lazyInit (lacksSecond n) := by
  have hlog := (pruneStart_twoEntries hn).pruneInv.log
  have hhead : IsOffset LOG_SIZE (n * 64) (n * 64) := ⟨by omega, rfl⟩
  have hfirst : IsOffset LOG_SIZE (n * 64 + 64) (n * 64 + 64) := ⟨by omega, rfl⟩
  have hend : IsOffset LOG_SIZE (n * 64 + 128) (n * 64 + 128) := ⟨by omega, rfl⟩
  refine ⟨lrInit_followerOf rfl nofun, rfl, _, n, n * 64, hlog, hhead.1, hfirst.1, ?_, ?_, ?_⟩
  · exact (logLe_iff (twoEntries (n * 64)).log hhead hhead hfirst (by omega) (by omega)
      (show n * 64 < n * 64 + LOG_SIZE by omega) (show n * 64 + 64 < n * 64 + LOG_SIZE by omega)).mpr
      (by omega)
  · exact (logLe_iff (twoEntries (n * 64)).log hhead hhead hfirst (by omega) (by omega)
      (show n * 64 < n * 64 + LOG_SIZE by omega) (show n * 64 + 64 < n * 64 + LOG_SIZE by omega)).mpr
      (by omega)
  · exact (logLe_iff (twoEntries (n * 64)).log hhead hfirst hend (by omega) (by omega)
      (show n * 64 + 64 < n * 64 + LOG_SIZE by omega)
      (show n * 64 + 128 < n * 64 + LOG_SIZE by omega)).mpr (by omega)

/-- The first entry is committed. -/
theorem commit_not_overstated_first : ∃ s' v, (.commit v, false) ∈ s'.call ∧
    NotOverstated (lacksSecond 0) s' v := by
  have hinit : lazyInit (lacksSecond 0) := lazyInit_lacksSecond (by decide)
  have hrun : ((lrStep (lacksSecond 0) (.commitOffsets 3)).any fun s =>
      s.call == [(.commit 64, false)]) = true := by decide +kernel
  obtain ⟨s', hs, hcall⟩ := (Option.any_eq_true _ _).mp hrun
  have hmem : (.commit 64, false) ∈ s'.call := by
    rw [eq_of_beq hcall]
    exact List.mem_cons_self
  exact ⟨s', 64, hmem, commit_not_overstated (.start hinit) hs hmem⟩

/-- The leader's commit offset passes the end offset that is about to be written to the follower, and
    an entry ends exactly at the buffer end. -/
def exactFitRun (start : Nat) : List LrLabel :=
  [.updateRemoteLog, .post, .land 0, .poll 0 .success, .updateRemoteLog, .post, .land 0,
    .log (.append 1 0 0 NOOP default), .reply (start + 64) 2 1, .reply (start + 128) 2 1,
    .commitOffsets 3, .poll 0 .success, .log (.append 1 0 0 NOOP default)]

/-- The last 256 bytes of the buffer. -/
def lastEntries : LrState := lacksSecond 1048572

/-- The leader's commit offset is written to a follower that ends 64 bytes before it. -/
theorem not_commit_not_overstated : ¬ ∀ s s' size v, Reach lazyInit LrMoves Always s →
    LrMoves s (.commitOffsets size) s' → (.commit v, false) ∈ s'.call → NotOverstated s s' v := by
  intro hall
  have hrun : ((exec lrStep lastEntries (exactFitRun (LOG_SIZE - 256))).any fun s =>
      (lrStep s (.commitOffsets 3)).any fun s' => s'.call == [(.commit (LOG_SIZE - 64), false)] &&
        s'.confirmedEnd == LOG_SIZE - 128 && s'.log.head == LOG_SIZE - 256 &&
        s'.log.len == LOG_SIZE) = true := by
    decide +kernel
  obtain ⟨s, hexec, hnext⟩ := (Option.any_eq_true _ _).mp hrun
  obtain ⟨s', hs, hfacts⟩ := (Option.any_eq_true _ _).mp hnext
  simp only [Bool.and_eq_true, beq_iff_eq] at hfacts
  obtain ⟨⟨⟨hcall, hend⟩, hhead⟩, hlen⟩ := hfacts
  have hinit : lazyInit lastEntries := lazyInit_lacksSecond (by decide)
  have hmem : (.commit (LOG_SIZE - 64), false) ∈ s'.call := by
    rw [hcall]
    exact List.mem_cons_self
  have hle := (hall s s' 3 _ (Reach.exec (.start hinit) hexec) hs hmem).le_end
  rw [LogLe, hend, hhead, hlen] at hle
  exact absurd hle (by decide)

end ExactFit

end Apus
