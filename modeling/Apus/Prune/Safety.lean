import Apus.Group.Bounds
import Apus.Prune.Model

namespace Apus

open Lib

/-!
# Pruning is safe

The recorded apply offsets are places of the window, each not past the apply offset it was read from;
that of a server that has not acknowledged yet is the head offset.  The scan of `log_pruning` finds
the first of these places, or one before it, so that moving `head` there keeps the rest of the
window.

* `PruneInv.scan`, `PruneInv.minOffset` — what the scan finds;
* `PruneInv.logPruning` — what `log_pruning` does, and that it ends;
* `PruneInv.step`, `pruning_is_safe` — the invariant, over a run in which every append has room and
  none ends exactly at the buffer end.
-/

variable {log log' : DareLog} {hist : List DareLogEntry} {lo u k w off : Nat} {s s' : PruneState}

/-! ### The log -/

/-- The log of the leader: it has an entry, and its offsets are places in log order. -/
structure PrunableLog (log : DareLog) (hist : List DareLogEntry) (lo u : Nat) : Prop where
  window : LogWindow log hist lo u
  nonempty : lo < hist.length
  ends : EndsAt log (logPos log hist hist.length)
  end_ne : log.end_ ≠ log.len
  head : IsOffset log.len u log.head
  tail : TailExact log hist
  cursors : ∃ ka wa kc wc, PlaceAt log hist u ka wa log.apply ∧
    PlaceAt log hist u kc wc log.commit ∧ wa ≤ wc

namespace PrunableLog

/-- The head offset is a place. -/
theorem headPlace (h : PrunableLog log hist lo u) : PlaceAt log hist u lo u log.head :=
  ⟨h.window.mark, le_refl u, h.window.le_end, h.nonempty.le, h.head⟩

/-- The tail is a place of the window. -/
theorem tailAt (h : PrunableLog log hist lo u) : TailAt log hist u :=
  h.tail.tailAt h.window h.nonempty

/-- The order of places. -/
theorem larger_iff {j v off' : Nat} (h : PrunableLog log hist lo u)
    (hp : PlaceAt log hist u k w off) (hq : PlaceAt log hist u j v off') :
    logIsOffsetLarger log off off' = true ↔ v < w := by
  have hwindow : logPos log hist hist.length < u + log.len := h.window.window
  have hle := hp.le
  have hle' := hq.le
  exact logIsOffsetLarger_iff_lt h.ends h.end_ne hp.offset hq.offset hp.le_end hq.le_end (by omega)
    (by omega)

theorem distance (h : PrunableLog log hist lo u) (hp : PlaceAt log hist u k w off) :
    logOffsetEndDistance log off = logPos log hist hist.length - w := by
  have hwindow : logPos log hist hist.length < u + log.len := h.window.window
  have hle := hp.le
  rw [logOffsetEndDistance, if_neg h.end_ne]
  exact ringDist_eq h.ends.len_pos hp.offset h.ends.offset h.end_ne hp.le_end (by omega)

/-- A walk from a place leads to a place that is not before it. -/
theorem walkPlace {visited : List Nat} {off' : Nat} (h : PrunableLog log hist lo u)
    (hp : PlaceAt log hist u k w off) (hw : WalkTo log off visited off') :
    ∃ j v, PlaceAt log hist u j v off' ∧ w ≤ v := by
  obtain ⟨v, hle, hwin, hoff⟩ := (h.window.place hp).walkTo h.ends h.end_ne hp.offset hw
  have hu := hp.le
  exact ⟨_, v, ⟨hwin.mark, by omega, hwin.le_end, hwin.lo_le, hoff⟩, hle⟩

/-- The log from a later place on, which is not behind the apply offset. -/
theorem moveHead (h : PrunableLog log hist lo u) (hp : PlaceAt log hist u k w off)
    (hk : k < hist.length) (hle : ∀ n v, PlaceAt log hist u n v log.apply → w ≤ v) :
    PrunableLog { log with head := off } hist k w := by
  obtain ⟨ka, wa, kc, wc, ha, hc, hac⟩ := h.cursors
  have hwa := hle ka wa ha
  refine ⟨h.window.place hp, hk, ⟨h.ends.1, h.ends.2⟩, h.end_ne, hp.offset, h.tail, ?_⟩
  refine ⟨ka, wa, kc, wc, ?_, ?_, hac⟩
  · exact ⟨ha.mark, hwa, ha.le_end, ha.count_le, ha.offset⟩
  · exact ⟨hc.mark, by omega, hc.le_end, hc.count_le, hc.offset⟩

/-- There is an entry behind `head`. -/
theorem exists_entry (h : PrunableLog log hist lo u) :
    ∃ entry, logGetEntry log log.head = some entry := by
  have hget : hist[lo]? = some (hist.get ⟨lo, h.nonempty⟩) := List.getElem?_eq_getElem h.nonempty
  obtain ⟨entry, hentry, -⟩ := h.window.found h.ends h.end_ne h.head hget
  exact ⟨entry, hentry⟩

/-- An append that fits. -/
theorem append {type : UInt8} {data : EntryData} (term reqId : UInt64) (cltId : UInt16)
    (h : PrunableLog log hist lo u) (hfits : AppendFits log type data) :
    ∃ log' idx e, logAppendEntry log term reqId cltId type data = some (log', idx) ∧
      PrunableLog log' (hist ++ [e]) lo u ∧ log'.head = log.head ∧ log'.apply = log.apply ∧
        log'.len = log.len := by
  obtain ⟨ka, wa, kc, wc, ha, hc, hac⟩ := h.cursors
  obtain ⟨log', last, -, happend, happ⟩ := logAppendEntry_appended term reqId cltId h.window h.ends
    h.end_ne h.head h.nonempty h.tailAt hc ha hfits.room
  generalize he : mkEntry (last.idx + 1) term reqId cltId type data = e at happ
  have hsize : e.size = appendSize type data := by rw [← he, mkEntry_size]
  have hlen := h.window.len_pos
  have hroom := hfits.room.place_lt h.ends h.head h.window.le_end h.window.window
  have hfit := hfits.noExactFit
  rw [endAfterAppend_eq h.ends hfits.room.size_lt.le, ← hsize] at hfit
  rw [← hsize] at hroom
  -- the places of the log before are places of the log after
  have hplaces : ∀ {j v o}, PlaceAt log hist u j v o → PlaceAt log' (hist ++ [e]) u j v o :=
    fun hp => (hp.append [e] hlen).of_len happ.len
  refine ⟨log', _, e, happend, ?_, happ.head, happ.apply, happ.len⟩
  refine ⟨h.window.appended happ hroom, ?_, ?_, happ.end_ne_len_iff.mpr hfit, ?_, ?_, ?_⟩
  · rw [List.length_append]
    exact Nat.lt_add_right _ h.nonempty
  · exact LogWindow.endsAt_appended h.ends happ
  · rw [happ.head, happ.len]
    exact h.head
  · exact happ.tailExact
  · refine ⟨ka, wa, kc, wc, ?_, ?_, hac⟩
    · rw [happ.apply]
      exact hplaces ha
    · rw [happ.commit]
      exact hplaces hc

end PrunableLog

/-! ### The invariant -/

/-- A recorded apply offset is not past the one it was read from. -/
def RecordedAt (log : DareLog) (hist : List DareLogEntry) (u recorded apply : Nat) : Prop :=
  ∃ k w n v, PlaceAt log hist u k w recorded ∧ PlaceAt log hist u n v apply ∧ w ≤ v

/-- The invariant of the runs. -/
structure PruneInv (s : PruneState) (hist : List DareLogEntry) (lo u : Nat) : Prop where
  log : PrunableLog s.log hist lo u
  recorded : ∀ i < s.groupSize, cidIsServerOn s.cid i = true → s.joining i = false →
    RecordedAt s.log hist u (s.applyOffsets i) (s.applyOf i)
  /-- Nobody reads the apply offset of a server that joined before it acknowledges. -/
  joining : ∀ i < s.groupSize, cidIsServerOn s.cid i = true → s.joining i = true →
    s.applyOffsets i = s.log.head ∧ s.voteAck i = s.log.len
  leader : s.idx < s.groupSize ∧ cidIsServerOn s.cid s.idx = true ∧ s.joining s.idx = false
  sizes : SizesFit s.cid

theorem PruneStart.pruneInv (h : PruneStart s hist lo u) : PruneInv s hist lo u where
  log := ⟨h.window, h.nonempty, h.ends, h.end_ne, h.head, h.tail, h.cursors⟩
  recorded := fun i hi hon _ => h.recorded i hi hon
  joining := by
    intro i _ _ hj
    rw [h.joining i] at hj
    cases hj
  leader := ⟨h.leader.1, h.leader.2, h.joining _⟩
  sizes := h.size

theorem RecordedAt.mono {recorded apply apply' : Nat} (h : RecordedAt log hist u recorded apply)
    (hmove : ∀ n v, PlaceAt log hist u n v apply →
      ∃ n' v', PlaceAt log hist u n' v' apply' ∧ v ≤ v') :
    RecordedAt log hist u recorded apply' := by
  obtain ⟨k, w, n, v, hw, hv, hle⟩ := h
  obtain ⟨n', v', hv', hle'⟩ := hmove n v hv
  exact ⟨k, w, n', v', hw, hv', hle.trans hle'⟩

namespace PruneInv

theorem lt_32 (h : PruneInv s hist lo u) {i : Nat} (hi : i < s.groupSize) : i < 32 := by
  have hsize := h.sizes.getExtendedGroupSize
  have hmax : MAX_SERVER_COUNT = 13 := rfl
  have hi' : i < (getExtendedGroupSize s.cid).toNat := hi
  omega

/-- The apply offset of the leader is a place. -/
theorem applyPlace (h : PruneInv s hist lo u) : ∃ k w, PlaceAt s.log hist u k w s.log.apply := by
  obtain ⟨ka, wa, -, -, ha, -⟩ := h.log.cursors
  exact ⟨ka, wa, ha⟩

/-- The recorded apply offset of every server that is ON is a place. -/
theorem recordedPlace (h : PruneInv s hist lo u) {i : Nat} (hi : i < s.groupSize)
    (hon : cidIsServerOn s.cid i = true) :
    ∃ k w, PlaceAt s.log hist u k w (s.applyOffsets i) := by
  cases hj : s.joining i with
  | false =>
    obtain ⟨k, w, -, -, hw, -⟩ := h.recorded i hi hon hj
    exact ⟨k, w, hw⟩
  | true =>
    rw [(h.joining i hi hon hj).1]
    exact ⟨lo, u, h.log.headPlace⟩

/-- A step that only changes the log and keeps its places. -/
theorem ofLog {hist' : List DareLogEntry} (h : PruneInv s hist lo u)
    (hlog : PrunableLog log' hist' lo u)
    (hplaces : ∀ {k w off}, PlaceAt s.log hist u k w off → PlaceAt log' hist' u k w off)
    (hhead : log'.head = s.log.head) (hlen : log'.len = s.log.len)
    (hmove : ∀ n v, PlaceAt log' hist' u n v s.log.apply →
      ∃ n' v', PlaceAt log' hist' u n' v' log'.apply ∧ v ≤ v') :
    PruneInv { s with log := log' } hist' lo u where
  log := hlog
  recorded := by
    intro i hi hon hj
    obtain ⟨k, w, n, v, hw, hv, hle⟩ := h.recorded i hi hon hj
    have hold : RecordedAt log' hist' u (s.applyOffsets i) (s.applyOf i) :=
      ⟨k, w, n, v, hplaces hw, hplaces hv, hle⟩
    simp only [PruneState.applyOf] at hold ⊢
    split
    · rename_i hidx
      rw [if_pos hidx] at hold
      exact hold.mono hmove
    · rename_i hidx
      rwa [if_neg hidx] at hold
  joining := by
    intro i hi hon hj
    obtain ⟨hoff, hack⟩ := h.joining i hi hon hj
    exact ⟨hoff.trans hhead.symm, hack.trans hlen.symm⟩
  leader := h.leader
  sizes := h.sizes

/-! ### The scan -/

/-- What the loop does over the first `n` servers: the slots of those that are OFF are set, and the
    smallest offset is not past that of any other. -/
theorem scan (h : PruneInv s hist lo u) {n : Nat} (hn : n ≤ s.groupSize) :
    let r := (List.range n).foldl (pruneScanStep s) (s.applyOffsets, s.log.apply)
    (∀ i, r.1 i =
      if i < n ∧ cidIsServerOn s.cid i = false then s.log.apply else s.applyOffsets i) ∧
    ∃ k w, PlaceAt s.log hist u k w r.2 ∧
      (∀ j v, PlaceAt s.log hist u j v s.log.apply → w ≤ v) ∧
      (∀ i < n, cidIsServerOn s.cid i = true →
        ∀ j v, PlaceAt s.log hist u j v (s.applyOffsets i) → w ≤ v) ∧
      (r.2 = s.log.apply ∨ ∃ i < n, cidIsServerOn s.cid i = true ∧ r.2 = s.applyOffsets i) := by
  obtain ⟨ka, wa, ha⟩ := h.applyPlace
  induction n with
  | zero =>
    refine ⟨fun i => by simp, ka, wa, ha, ?_, fun i hi => absurd hi (Nat.not_lt_zero i), .inl rfl⟩
    intro j v hv
    exact (ha.eq_of_offset h.log.window hv).le
  | succ n ih =>
    have ih := ih (Nat.le_of_succ_le hn)
    simp only [List.range_succ, List.foldl_append, List.foldl_cons, List.foldl_nil] at ih ⊢
    generalize (List.range n).foldl (pruneScanStep s) (s.applyOffsets, s.log.apply) = r at ih ⊢
    obtain ⟨hslots, k, w, hw, happly, hmin, hmem⟩ := ih
    -- the offset compared in this iteration is a place
    have hslots' : ∀ i, (pruneScanStep s r n).1 i =
        if i < n + 1 ∧ cidIsServerOn s.cid i = false then s.log.apply else s.applyOffsets i := by
      intro i
      simp only [pruneScanStep]
      cases hon : cidIsServerOn s.cid n with
      | true =>
        rw [if_pos rfl, hslots i]
        rcases Nat.lt_trichotomy i n with hi | rfl | hi
        · simp [hi, Nat.lt_succ_of_lt hi]
        · simp [hon]
        · simp [Nat.not_lt.mpr hi.le, Nat.not_lt.mpr (Nat.succ_le_of_lt hi)]
      | false =>
        rw [if_neg (by decide)]
        rcases Nat.lt_trichotomy i n with hi | rfl | hi
        · rw [Function.update_of_ne hi.ne, hslots i]
          simp [hi, Nat.lt_succ_of_lt hi]
        · simp [hon]
        · rw [Function.update_of_ne hi.ne', hslots i]
          simp [Nat.not_lt.mpr hi.le, Nat.not_lt.mpr (Nat.succ_le_of_lt hi)]
    have hnew : ∃ k' w', PlaceAt s.log hist u k' w' ((pruneScanStep s r n).1 n) := by
      rw [hslots' n]
      cases hon : cidIsServerOn s.cid n with
      | true =>
        simp only [Bool.true_eq_false, and_false, if_false]
        exact h.recordedPlace hn hon
      | false =>
        simp only [Nat.lt_succ_self, and_self, if_true]
        exact ⟨ka, wa, ha⟩
    obtain ⟨k', w', hw'⟩ := hnew
    have hsnd : (pruneScanStep s r n).2 =
        if logIsOffsetLarger s.log r.2 ((pruneScanStep s r n).1 n) then (pruneScanStep s r n).1 n
        else r.2 := rfl
    have hlarger := h.log.larger_iff hw hw'
    refine ⟨hslots', ?_⟩
    rw [hsnd]
    split
    · rename_i hlt
      have hww := hlarger.mp hlt
      refine ⟨k', w', hw', ?_, ?_, ?_⟩
      · intro j v hv
        exact hww.le.trans (happly j v hv)
      · intro i hi hon j v hv
        rcases Nat.lt_succ_iff_lt_or_eq.mp hi with hi | rfl
        · exact hww.le.trans (hmin i hi hon j v hv)
        · rw [hslots' i, if_neg (by simp [hon])] at hw'
          exact (hw'.eq_of_offset h.log.window hv).le
      · rw [hslots' n]
        cases hon : cidIsServerOn s.cid n with
        | true => exact .inr ⟨n, Nat.lt_succ_self n, hon, by simp⟩
        | false => exact .inl (by simp)
    · rename_i hnot
      have hww : w ≤ w' := Nat.not_lt.mp fun hcon => hnot (hlarger.mpr hcon)
      refine ⟨k, w, hw, happly, ?_, ?_⟩
      · intro i hi hon j v hv
        rcases Nat.lt_succ_iff_lt_or_eq.mp hi with hi | rfl
        · exact hmin i hi hon j v hv
        · rw [hslots' i, if_neg (by simp [hon])] at hw'
          rw [← hw'.eq_of_offset h.log.window hv]
          exact hww
      · rcases hmem with hmem | ⟨i, hi, hon, hmem⟩
        · exact .inl hmem
        · exact .inr ⟨i, Nat.lt_succ_of_lt hi, hon, hmem⟩

end PruneInv

/-- What `log_pruning` finds: a place in front of an entry, not past any recorded offset. -/
structure MinOffset (s : PruneState) (hist : List DareLogEntry) (u k w off : Nat) : Prop where
  mem : off = s.log.apply ∨ logGetTail s.log = some off ∨
    ∃ i < s.groupSize, cidIsServerOn s.cid i = true ∧ off = s.applyOffsets i
  place : PlaceAt s.log hist u k w off
  lt : k < hist.length
  apply : ∀ j v, PlaceAt s.log hist u j v s.log.apply → w ≤ v
  recorded : ∀ i < s.groupSize, cidIsServerOn s.cid i = true →
    ∀ j v, PlaceAt s.log hist u j v (s.applyOffsets i) → w ≤ v

namespace PruneInv

theorem pruneScan_slots (h : PruneInv s hist lo u) (i : Nat) : (pruneScan s).1 i =
    if i < s.groupSize ∧ cidIsServerOn s.cid i = false then s.log.apply else s.applyOffsets i :=
  (h.scan (le_refl _)).1 i

theorem minOffset (h : PruneInv s hist lo u) :
    ∃ k w off, pruneMinOffset s = some off ∧ MinOffset s hist u k w off := by
  obtain ⟨-, k, w, hw, happly, hmin, hmem⟩ := h.scan (le_refl s.groupSize)
  have hdist := h.log.distance hw
  have hlen := h.log.window.len_pos
  have hend := hw.le_end
  unfold pruneMinOffset
  change logOffsetEndDistance s.log (pruneScan s).2 = _ at hdist
  change PlaceAt s.log hist u k w (pruneScan s).2 at hw
  split
  · rename_i hzero
    -- nothing is left behind the smallest offset
    rw [hdist] at hzero
    have hwend : w = logPos s.log hist hist.length := by omega
    obtain ⟨ka, wa, kc, wc, ha, hc, -⟩ := h.log.cursors
    have htail : ∃ t j P, logGetTail s.log = some t ∧ j < hist.length ∧
        PlaceAt s.log hist u j P t := by
      rcases h.log.tailAt with hnone | ⟨j, P, hj, hne, hP⟩
      · obtain ⟨t, ht, hfound⟩ :=
          logGetTail_spec h.log.window h.log.ends h.log.end_ne h.log.head hnone hc ha
        rcases hfound with ⟨-, hcon⟩ | ⟨j, P, hj, -, hP⟩
        · exact absurd h.log.nonempty (Nat.not_lt.mpr hcon)
        · exact ⟨t, j, P, ht, by omega, hP⟩
      · exact ⟨s.log.tail, j, P, by simp [logGetTail, hne], by omega, hP⟩
    obtain ⟨t, j, P, ht, hj, hP⟩ := htail
    have hle : P ≤ w := by rw [hwend]; exact hP.le_end
    refine ⟨j, P, t, ht, .inr (.inl ht), hP, hj, ?_, ?_⟩
    · intro n v hv
      exact hle.trans (happly n v hv)
    · intro i hi hon n v hv
      exact hle.trans (hmin i hi hon n v hv)
  · rename_i hpos
    rw [hdist] at hpos
    refine ⟨k, w, (pruneScan s).2, rfl, hmem.imp_right .inr, hw, ?_, happly, hmin⟩
    by_contra hcon
    have hk : k = hist.length := by have := hw.count_le; omega
    have hle := hw.mark.pos_le hlen
    rw [hk] at hle
    have hle' : logPos s.log hist hist.length ≤ w := hle
    omega

/-- It is the first of the recorded offsets, or the tail. -/
theorem firstApply (h : PruneInv s hist lo u) (hmin : MinOffset s hist u k w off) :
    FirstApply s.log s.cid s.applyOffsets off := by
  have hnot : ∀ {off'}, (∃ j v, PlaceAt s.log hist u j v off') →
      (∀ j v, PlaceAt s.log hist u j v off' → w ≤ v) → logIsOffsetLarger s.log off off' = false := by
    rintro off' ⟨j, v, hv⟩ hle
    have hlarger := h.log.larger_iff hmin.place hv
    have hwv := hle j v hv
    by_contra hcon
    have hlt := hlarger.mp (by simpa using hcon)
    omega
  refine ⟨hmin.mem, hnot h.applyPlace hmin.apply, ?_⟩
  intro i hi hon
  exact hnot (h.recordedPlace hi hon) (hmin.recorded i hi hon)

end PruneInv

/-- The condition only reads the slots of servers. -/
theorem HeadFits.congr {cid : DareCid} {applyOffsets applyOffsets' : Nat → Nat}
    (h : HeadFits log cid applyOffsets)
    (heq : ∀ i < (getExtendedGroupSize cid).toNat, applyOffsets' i = applyOffsets i) :
    HeadFits log cid applyOffsets' := by
  intro off hfirst
  refine h off ⟨?_, hfirst.apply, ?_⟩
  · rcases hfirst.mem with hmem | hmem | ⟨i, hi, hon, hmem⟩
    · exact .inl hmem
    · exact .inr (.inl hmem)
    · exact .inr (.inr ⟨i, hi, hon, hmem.trans (heq i hi)⟩)
  · intro i hi hon
    rw [← heq i hi]
    exact hfirst.recorded i hi hon

/-! ### Pruning -/

/-- What a pruning does: `head` stays, or moves to a place behind it that is not past the apply
    offset; then no server that is ON has yet to acknowledge. -/
def Pruned (s s' : PruneState) (hist : List DareLogEntry) (u : Nat) : Prop :=
  s'.log.head = s.log.head ∨
    (∃ k w, PlaceAt s.log hist u k w s'.log.head ∧ u < w ∧
      ∀ j v, PlaceAt s.log hist u j v s.log.apply → w ≤ v) ∧
    ∀ i < s'.groupSize, cidIsServerOn s'.cid i = true → s'.joining i = false

namespace PruneInv

/-- Setting slots of servers that are OFF, or that of the leader, to the leader's apply offset. -/
theorem ofSlots {applyOffsets : Nat → Nat} (h : PruneInv s hist lo u)
    (hslots : ∀ i < s.groupSize, cidIsServerOn s.cid i = true →
      applyOffsets i = s.applyOffsets i ∨ (i = s.idx ∧ applyOffsets i = s.log.apply)) :
    PruneInv { s with applyOffsets := applyOffsets } hist lo u where
  log := h.log
  recorded := by
    intro i hi hon hj
    rcases hslots i hi hon with heq | ⟨rfl, heq⟩
    · show RecordedAt s.log hist u (applyOffsets i) (s.applyOf i)
      rw [heq]
      exact h.recorded i hi hon hj
    · obtain ⟨k, w, hw⟩ := h.applyPlace
      show RecordedAt s.log hist u (applyOffsets s.idx) (s.applyOf s.idx)
      rw [heq, PruneState.applyOf, if_pos rfl]
      exact ⟨k, w, k, w, hw, hw, le_refl w⟩
  joining := by
    intro i hi hon hj
    rcases hslots i hi hon with heq | ⟨rfl, -⟩
    · show applyOffsets i = _ ∧ _
      rw [heq]
      exact h.joining i hi hon hj
    · rw [show s.joining s.idx = false from h.leader.2.2] at hj
      cases hj
  leader := h.leader
  sizes := h.sizes

/-- `rc_get_remote_apply_offsets` only sets such slots. -/
theorem getRemoteApplyOffsets (h : PruneInv s hist lo u) :
    PruneInv (Apus.getRemoteApplyOffsets s) hist lo u := by
  refine h.ofSlots ?_
  intro i hi hon
  by_cases hidx : i = s.idx
  · exact .inr ⟨hidx, if_pos ⟨hi, .inl hidx⟩⟩
  · refine .inl (if_neg ?_)
    rintro ⟨-, hcon | hcon⟩
    · exact hidx hcon
    · rw [hon] at hcon
      cases hcon

/-- An append that fits. -/
theorem append {type : UInt8} {data : EntryData} (term reqId : UInt64) (cltId : UInt16)
    (h : PruneInv s hist lo u) (hfits : AppendFits s.log type data) :
    ∃ log' idx e, logAppendEntry s.log term reqId cltId type data = some (log', idx) ∧
      PruneInv { s with log := log' } (hist ++ [e]) lo u ∧ log'.head = s.log.head ∧
        log'.apply = s.log.apply ∧ log'.len = s.log.len := by
  obtain ⟨log', idx, e, happend, hlog, hhead, happly, hlen⟩ :=
    h.log.append term reqId cltId hfits
  refine ⟨log', idx, e, happend, ?_, hhead, happly, hlen⟩
  refine h.ofLog hlog (fun hp => (hp.append [e] h.log.window.len_pos).of_len hlen) hhead hlen ?_
  intro n v hv
  rw [happly]
  exact ⟨n, v, hv, le_refl v⟩

/-- `head` moves to a place that no recorded offset is before. -/
theorem moveHead (h : PruneInv s hist lo u) (hmin : MinOffset s hist u k w off) (hu : u < w) :
    PruneInv { s with log := { s.log with head := off } } hist k w ∧
      ∀ i < s.groupSize, cidIsServerOn s.cid i = true → s.joining i = false := by
  have hquiet : ∀ i < s.groupSize, cidIsServerOn s.cid i = true → s.joining i = false := by
    intro i hi hon
    by_contra hj
    have hoff := (h.joining i hi hon (by simpa using hj)).1
    -- the recorded offset of a server that has yet to acknowledge is `head`
    have hle := hmin.recorded i hi hon lo u (by rw [hoff]; exact h.log.headPlace)
    omega
  refine ⟨⟨h.log.moveHead hmin.place hmin.lt hmin.apply, ?_, ?_, h.leader, h.sizes⟩, hquiet⟩
  · intro i hi hon hj
    obtain ⟨k', w', n, v, hw', hv, hle⟩ := h.recorded i hi hon hj
    have hww := hmin.recorded i hi hon k' w' hw'
    exact ⟨k', w', n, v, ⟨hw'.mark, hww, hw'.le_end, hw'.count_le, hw'.offset⟩,
      ⟨hv.mark, hww.trans hle, hv.le_end, hv.count_le, hv.offset⟩, hle⟩
  · intro i hi hon hj
    have hno := hquiet i hi hon
    rw [show s.joining i = true from hj] at hno
    cases hno

/-- `log_pruning` ends, and keeps the invariant. -/
theorem logPruning (h : PruneInv s hist lo u) (hfits : HeadFits s.log s.cid s.applyOffsets) :
    ∃ s' hist' lo' u', Apus.logPruning s = some s' ∧ PruneInv s' hist' lo' u' ∧
      Pruned s s' hist u := by
  obtain ⟨k, w, off, hoff, hmin⟩ := h.minOffset
  -- the loop set the slots of the servers that are OFF
  have hscan : PruneInv { s with applyOffsets := (pruneScan s).1 } hist lo u := by
    refine h.ofSlots ?_
    intro i hi hon
    rw [h.pruneScan_slots i, if_neg (by simp [hon])]
    exact .inl rfl
  have hmin' : MinOffset { s with applyOffsets := (pruneScan s).1 } hist u k w off := by
    refine ⟨?_, hmin.place, hmin.lt, hmin.apply, ?_⟩
    · rcases hmin.mem with hmem | hmem | ⟨i, hi, hon, hmem⟩
      · exact .inl hmem
      · exact .inr (.inl hmem)
      · refine .inr (.inr ⟨i, hi, hon, ?_⟩)
        show off = (pruneScan s).1 i
        rw [h.pruneScan_slots i, if_neg (by simp [hon])]
        exact hmem
    intro i hi hon j v hv
    have hslot : (pruneScan s).1 i = s.applyOffsets i := by
      rw [h.pruneScan_slots i]
      exact if_neg (by simp [show cidIsServerOn s.cid i = true from hon])
    have hold : PlaceAt s.log hist u j v (s.applyOffsets i) := by
      rw [← hslot]
      exact hv
    exact hmin.recorded i hi hon j v hold
  have hlarger := h.log.larger_iff hmin.place h.log.headPlace
  by_cases hcond : (logIsOffsetLarger s.log off s.log.head && !s.log.prevLogEntryHead) = true
  · obtain ⟨hlt, hflag⟩ := Bool.and_eq_true_iff.mp hcond
    have hu : u < w := hlarger.mp hlt
    obtain ⟨hmoved, hquiet⟩ := hscan.moveHead hmin' hu
    obtain ⟨log', idx, e, happend, hinv, hhead, happly, hlen⟩ :=
      hmoved.append s.term 0 0 (hfits off (h.firstApply hmin) hlt (by simpa using hflag))
    have hset : PruneInv { s with
        applyOffsets := (pruneScan s).1, log := { log' with prevLogEntryHead := true } }
        (hist ++ [e]) k w :=
      hinv.ofLog ⟨hinv.log.window, hinv.log.nonempty, ⟨hinv.log.ends.1, hinv.log.ends.2⟩,
          hinv.log.end_ne, hinv.log.head, hinv.log.tail, by
            obtain ⟨ka, wa, kc, wc, ha, hc, hac⟩ := hinv.log.cursors
            exact ⟨ka, wa, kc, wc, ha.of_len rfl, hc.of_len rfl, hac⟩⟩
        (fun hp => hp.of_len rfl) rfl rfl fun n v hv => ⟨n, v, hv, le_refl v⟩
    refine ⟨_, _, k, w, ?_, hset.getRemoteApplyOffsets,
      .inr ⟨⟨k, w, ?_, hu, ?_⟩, hquiet⟩⟩
    · simp only [Apus.logPruning, hoff, Option.bind_eq_bind, Option.bind_some, hcond, if_true]
      simp only at happend
      rw [happend]
      rfl
    · show PlaceAt s.log hist u k w log'.head
      rw [hhead]
      exact hmin.place
    · exact hmin.apply
  · refine ⟨_, hist, lo, u, ?_, hscan.getRemoteApplyOffsets, .inl rfl⟩
    simp only [Apus.logPruning, hoff, Option.bind_eq_bind, Option.bind_some, if_neg hcond]
    rfl

/-- What a pruning did is safe. -/
theorem prunesSafely {hist' : List DareLogEntry} {lo' u' : Nat} (h : PruneInv s hist lo u)
    (h' : PruneInv s' hist' lo' u')
    (hhead : s'.log.head = s.log.head ∨
      (∃ k w, PlaceAt s.log hist u k w s'.log.head ∧ u < w) ∧
        ∀ i < s'.groupSize, cidIsServerOn s'.cid i = true → s'.joining i = false) :
    PrunesSafely s s' where
  not_past := by
    intro i hi hon hj
    obtain ⟨-, -, n, v, -, hv, -⟩ := h'.recorded i hi hon hj
    have hlarger := h'.log.larger_iff h'.log.headPlace hv
    have hle := hv.le
    by_contra hcon
    have hlt := hlarger.mp (by simpa using hcon)
    omega
  forward := by
    rcases hhead with heq | ⟨⟨k, w, hw, hu⟩, -⟩
    · exact .inl heq
    · exact .inr ((h.log.larger_iff hw h.log.headPlace).mpr hu)
  constant := by
    intro i hi hon hj
    rcases hhead with heq | ⟨-, hquiet⟩
    · exact heq
    · rw [hquiet i hi hon] at hj
      cases hj
  nonempty := h'.log.exists_entry

/-- Removing a server from the configuration. -/
theorem removeServer {target : Nat} (h : PruneInv s hist lo u)
    (hlt : target < s.groupSize) (hne : target ≠ s.idx) :
    PruneInv { s with cid := cidServerRm s.cid target } hist lo u := by
  have hsub : ∀ i < s.groupSize, cidIsServerOn (cidServerRm s.cid target) i = true →
      cidIsServerOn s.cid i = true := by
    intro i hi hon
    rw [cidIsServerOn_rm _ (h.lt_32 hlt) (h.lt_32 hi), Bool.and_eq_true_iff] at hon
    exact hon.2
  refine ⟨h.log, ?_, ?_, ⟨h.leader.1, ?_, h.leader.2.2⟩, h.sizes⟩
  · exact fun i hi hon hj => h.recorded i hi (hsub i hi hon) hj
  · exact fun i hi hon hj => h.joining i hi (hsub i hi hon) hj
  · show cidIsServerOn (cidServerRm s.cid target) s.idx = true
    rw [cidIsServerOn_rm _ (h.lt_32 hlt) (h.lt_32 h.leader.1), h.leader.2.1]
    simp [hne]

/-- The removal of the slowest server keeps the invariant. -/
theorem removeSlowest (h : PruneInv s hist lo u) (hlarge : belowThreshold s.log = false)
    (hok : pruneOk s .forcePrune) :
    ∃ s' es, Apus.removeSlowest s = some s' ∧ PruneInv s' (hist ++ es) lo u ∧
      HeadFits s'.log s'.cid s'.applyOffsets ∧ s'.log.head = s.log.head ∧ s'.log.apply = s.log.apply ∧ s'.log.len = s.log.len := by
  have hfits := hok hlarge
  unfold Apus.removeSlowest
  split at hfits
  · refine ⟨s, [], rfl, ?_, hfits, rfl, rfl, rfl⟩
    rw [List.append_nil]
    exact h
  · rename_i target htarget
    obtain ⟨-, hne, hon, hslow⟩ := slowest_of_removed htarget
    have hinv := h.removeServer hslow.lt hne
    obtain ⟨log', idx, e, happend, hinv', hhead, happly, hlen⟩ :=
      hinv.append s.term 0 0 hfits.config
    refine ⟨{ s with
        log := log'
        cid := cidServerRm s.cid target
        applyOffsets := Function.update s.applyOffsets s.groupSize log'.apply },
      [e], ?_, ?_, ?_, hhead, happly, hlen⟩
    · exact congrArg (Option.map _) happend
    · -- the slot set is that of no server
      refine hinv'.ofSlots ?_
      intro i hi hon
      exact .inl (Function.update_of_ne (show i ≠ s.groupSize from hi.ne) _ _)
    · exact (hfits.head _ happend).congr fun i hi => Function.update_of_ne hi.ne _ _

/-- `force_log_pruning` ends, keeps the invariant and is safe. -/
theorem forceLogPruning (h : PruneInv s hist lo u) (hok : pruneOk s .forcePrune) :
    ∃ s' hist' lo' u', Apus.forceLogPruning s = some s' ∧ PruneInv s' hist' lo' u' ∧
      PrunesSafely s s' := by
  unfold Apus.forceLogPruning
  split
  · exact ⟨s, hist, lo, u, rfl, h, h.prunesSafely h (.inl rfl)⟩
  · rename_i hlarge
    obtain ⟨s₁, es, hs₁, h₁, hfits, hhead, happly, hlen⟩ :=
      h.removeSlowest (by simpa using hlarge) hok
    obtain ⟨s₂, hist₂, lo₂, u₂, hs₂, h₂, hpruned⟩ := h₁.logPruning hfits
    refine ⟨s₂, hist₂, lo₂, u₂, by rw [hs₁]; exact hs₂, h₂, h.prunesSafely h₂ ?_⟩
    rcases hpruned with heq | ⟨⟨k, w, hw, hu, hle⟩, hquiet⟩
    · exact .inl (heq.trans hhead)
    · refine .inr ⟨⟨k, w, ?_, hu⟩, hquiet⟩
      -- the place is not past the apply offset, which did not move
      obtain ⟨ka, wa, ha⟩ := h.applyPlace
      have hpos := h.log.window.len_pos
      have ha' : PlaceAt s₁.log (hist ++ es) u ka wa s₁.log.apply := by
        rw [happly]
        exact (ha.append es hpos).of_len hlen
      have hwa := hle ka wa ha'
      exact (hw.of_len hlen.symm).of_append hpos (hwa.trans ha.le_end)

/-- `log_pruning` is safe. -/
theorem logPruning_safe (h : PruneInv s hist lo u) (hfits : HeadFits s.log s.cid s.applyOffsets) :
    ∃ s', Apus.logPruning s = some s' ∧ PrunesSafely s s' := by
  obtain ⟨s', hist', lo', u', hs', h', hpruned⟩ := h.logPruning hfits
  refine ⟨s', hs', h.prunesSafely h' ?_⟩
  rcases hpruned with heq | ⟨⟨k, w, hw, hu, -⟩, hquiet⟩
  · exact .inl heq
  · exact .inr ⟨⟨k, w, hw, hu⟩, hquiet⟩

/-! ### The other steps -/

theorem commit {visited : List Nat} (h : PruneInv s hist lo u)
    (hw : WalkTo s.log s.log.commit visited off) :
    PruneInv { s with log := { s.log with commit := off } } hist lo u := by
  obtain ⟨ka, wa, kc, wc, ha, hc, hac⟩ := h.log.cursors
  obtain ⟨n, v, hv, hle⟩ := h.log.walkPlace hc hw
  refine h.ofLog ⟨h.log.window, h.log.nonempty, ⟨h.log.ends.1, h.log.ends.2⟩, h.log.end_ne,
    h.log.head, h.log.tail, ?_⟩ (fun hp => hp.of_len rfl) rfl rfl
    fun n v hv => ⟨n, v, hv, le_refl v⟩
  exact ⟨ka, wa, n, v, ha.of_len rfl, hv.of_len rfl, hac.trans hle⟩

/-- The apply offset of the leader moves on, not past the commit offset. -/
theorem applied {visited visited' : List Nat} (h : PruneInv s hist lo u)
    (hw : WalkTo s.log s.log.apply visited off) (hto : WalkTo s.log off visited' s.log.commit) :
    PruneInv { s with log := { s.log with apply := off } } hist lo u := by
  obtain ⟨ka, wa, kc, wc, ha, hc, hac⟩ := h.log.cursors
  obtain ⟨n, v, hv, hle⟩ := h.log.walkPlace ha hw
  obtain ⟨n', v', hv', hle'⟩ := h.log.walkPlace hv hto
  refine h.ofLog ⟨h.log.window, h.log.nonempty, ⟨h.log.ends.1, h.log.ends.2⟩, h.log.end_ne,
    h.log.head, h.log.tail, ?_⟩ (fun hp => hp.of_len rfl) rfl rfl ?_
  · exact ⟨n, v, n', v', hv.of_len rfl, hv'.of_len rfl, hle'⟩
  · intro j x hx
    refine ⟨n, v, hv.of_len rfl, ?_⟩
    have hold : PlaceAt s.log hist u j x s.log.apply := hx.of_len rfl
    have hsame : x = wa := hold.eq_of_offset h.log.window ha
    omega

/-- The leader moves to a configuration without a new server. -/
theorem config {cid : DareCid} (h : PruneInv s hist lo u) (hok : pruneOk s (.config cid))
    (hsub : ∀ i < (getExtendedGroupSize cid).toNat, cidIsServerOn cid i = true →
      i < s.groupSize ∧ cidIsServerOn s.cid i = true) :
    PruneInv { s with cid := cid } hist lo u := by
  obtain ⟨hidx, hon, hsize0, hsize1⟩ := hok
  refine ⟨h.log, ?_, ?_, ⟨hidx, hon, h.leader.2.2⟩, ⟨hsize0, hsize1⟩⟩
  · intro i hi hon hj
    obtain ⟨hi', hon'⟩ := hsub i hi hon
    exact h.recorded i hi' hon' hj
  · intro i hi hon hj
    obtain ⟨hi', hon'⟩ := hsub i hi hon
    exact h.joining i hi' hon' hj

/-- The servers of the configuration after a JOIN request are the old ones and the new one. -/
theorem joinGroup {lids : Nat → UInt16} {lid : UInt16} {empty : Nat} (h : PruneInv s hist lo u)
    (hslot : joinSlot s.cid lids lid = some empty) (hlt : empty < MAX_SERVER_COUNT) :
    (∀ i < (getExtendedGroupSize (joinCid s.cid empty)).toNat, i ≠ empty →
      cidIsServerOn (joinCid s.cid empty) i = true → i < s.groupSize ∧ cidIsServerOn s.cid i = true) ∧
    s.idx < (getExtendedGroupSize (joinCid s.cid empty)).toNat ∧
      cidIsServerOn (joinCid s.cid empty) s.idx = true ∧ empty ≠ s.idx := by
  have hidx := h.leader.1
  have hsize0 := h.sizes.1
  have hmax : MAX_SERVER_COUNT = 13 := rfl
  rw [joinSlot] at hslot
  split at hslot
  · cases hslot
  · rename_i hstable
    have hstate : s.cid.state = CID_STABLE := by simpa using hstable
    have hgroup : s.groupSize = s.cid.size0.toNat := by
      rw [PruneState.groupSize, getExtendedGroupSize, if_pos hstate]
    have hbitmask : (joinCid s.cid empty).bitmask = (cidServerAdd s.cid empty).bitmask := by
      unfold joinCid
      simp only
      split <;> rfl
    have hon : ∀ i < 32, cidIsServerOn (joinCid s.cid empty) i =
        (decide (empty = i) || cidIsServerOn s.cid i) := by
      intro i hi
      rw [← cidIsServerOn_add _ (by omega) hi, cidIsServerOn, cidIsServerOn, hbitmask]
    -- the group has one server more if the slot is the one behind the last
    have hext : (getExtendedGroupSize (joinCid s.cid empty)).toNat =
        if empty = s.cid.size0.toNat then s.cid.size0.toNat + 1 else s.cid.size0.toNat := by
      unfold joinCid
      simp only
      split
      · have hsize : (s.cid.size0 + 1).toNat = s.cid.size0.toNat + 1 := by
          rw [UInt8.toNat_add, UInt8.toNat_one]
          omega
        have hne : ¬ CID_EXTENDED = CID_STABLE := by decide
        have hgrows : s.cid.size0 < s.cid.size0 + 1 := by
          rw [UInt8.lt_iff_toNat_lt, hsize]
          omega
        rw [getExtendedGroupSize, if_neg hne]
        simp only [cidServerAdd, hgrows, if_true, hsize]
      · rw [getExtendedGroupSize, if_pos (show (cidServerAdd s.cid empty).state = _ from hstate)]
        rfl
    have hempty : empty ≠ s.idx := by
      rintro rfl
      rcases joinScan_off hslot with hcon | hoff
      · omega
      · rw [h.leader.2.1] at hoff
        cases hoff
    refine ⟨?_, ?_, ?_, hempty⟩
    · intro i hi hne hion
      have hi' : i < s.cid.size0.toNat := by
        rw [hext] at hi
        split at hi <;> omega
      rw [hon i (by omega)] at hion
      refine ⟨by omega, ?_⟩
      simpa [Ne.symm hne] using hion
    · rw [hext]
      split <;> omega
    · rw [hon _ (by omega), h.leader.2.1, Bool.or_true]

/-- A server joins: `head` is recorded for it. -/
theorem join {lids : Nat → UInt16} {lid slid : UInt16} {reqId : UInt64}
    (h : PruneInv s hist lo u) (hok : pruneOk s (.join lids lid slid reqId))
    (hs : handleServerJoinRequest s lids lid slid reqId = some s') :
    ∃ hist', PruneInv s' hist' lo u := by
  rw [handleServerJoinRequest] at hs
  split at hs
  · obtain rfl := Option.some.inj hs
    exact ⟨hist, h⟩
  · rename_i empty hslot
    obtain ⟨hlt, hfits⟩ := hok empty hslot
    obtain ⟨hold, hidx, hidxOn, hne⟩ := h.joinGroup hslot hlt
    obtain ⟨log', idx, e, happend, hinv, hhead, happly, hlen⟩ :=
      h.append s.term reqId slid hfits
    obtain ⟨r, hr, rfl⟩ := Option.map_eq_some_iff.mp hs
    obtain rfl := Option.some.inj (happend.symm.trans hr)
    refine ⟨hist ++ [e], hinv.log, ?_, ?_, ⟨hidx, hidxOn, ?_⟩, h.sizes.join ?_⟩
    · intro i hi hon hj
      -- the slot of the new server, and those of the others
      by_cases hi' : i = empty
      · subst hi'
        simp at hj
      · obtain ⟨hi₀, hon₀⟩ := hold i hi hi' hon
        simp only [Function.update_of_ne hi'] at hj ⊢
        exact hinv.recorded i hi₀ hon₀ hj
    · intro i hi hon hj
      by_cases hi' : i = empty
      · subst hi'
        simp [hhead, hlen]
      · obtain ⟨hi₀, hon₀⟩ := hold i hi hi' hon
        simp only [Function.update_of_ne hi'] at hj ⊢
        exact hinv.joining i hi₀ hon₀ hj
    · simp only [Function.update_of_ne (Ne.symm hne)]
      exact h.leader.2.2
    · intro heq
      omega

/-- A server acknowledges. -/
theorem ack {i voteAck : Nat} (h : PruneInv s hist lo u) (hok : pruneOk s (.ack i voteAck off)) :
    PruneInv { s with
      voteAck := Function.update s.voteAck i voteAck
      remoteApply := if s.joining i then Function.update s.remoteApply i off else s.remoteApply
      joining := Function.update s.joining i false } hist lo u where
  log := h.log
  recorded := by
    intro j hj hon hjoin
    simp only [PruneState.applyOf]
    by_cases hji : j = i
    · subst hji
      cases hold : s.joining j with
      | false =>
        simp only [Bool.false_eq_true, if_false]
        exact h.recorded j hj hon hold
      | true =>
        -- it installed a log from `head` on
        obtain ⟨visited, hwalk⟩ := hok hold
        obtain ⟨n, v, hv, hle⟩ := h.log.walkPlace h.log.headPlace hwalk
        have hne : j ≠ s.idx := by
          rintro rfl
          rw [h.leader.2.2] at hold
          cases hold
        simp only [if_true, if_neg hne, Function.update_self]
        rw [(h.joining j hj hon hold).1]
        exact ⟨lo, u, n, v, h.log.headPlace, hv, hle⟩
    · have hjoin' : s.joining j = false := by
        simpa only [Function.update_of_ne hji] using hjoin
      have hrec := h.recorded j hj hon hjoin'
      simp only [PruneState.applyOf] at hrec
      split at hrec
      · rename_i hidx
        rwa [if_pos hidx]
      · rename_i hidx
        rw [if_neg hidx]
        split
        · rwa [Function.update_of_ne hji]
        · exact hrec
  joining := by
    intro j hj hon hjoin
    by_cases hji : j = i
    · subst hji
      simp at hjoin
    · simp only [Function.update_of_ne hji] at hjoin ⊢
      exact h.joining j hj hon hjoin
  leader := by
    refine ⟨h.leader.1, h.leader.2.1, ?_⟩
    by_cases hidx : s.idx = i
    · simp [hidx]
    · simp only [Function.update_of_ne hidx]
      exact h.leader.2.2
  sizes := h.sizes

/-- The apply offset of another server moves on. -/
theorem remoteApplies {i : Nat} {visited : List Nat} (h : PruneInv s hist lo u)
    (hw : WalkTo s.log (s.remoteApply i) visited off) :
    PruneInv { s with remoteApply := Function.update s.remoteApply i off } hist lo u where
  log := h.log
  recorded := by
    intro j hj hon hjoin
    have hrec := h.recorded j hj hon hjoin
    simp only [PruneState.applyOf] at hrec ⊢
    split at hrec
    · rename_i hidx
      rwa [if_pos hidx]
    · rename_i hidx
      rw [if_neg hidx]
      by_cases hji : j = i
      · subst hji
        rw [Function.update_self]
        refine hrec.mono ?_
        intro n v hv
        exact h.log.walkPlace hv hw
      · rwa [Function.update_of_ne hji]
  joining := h.joining
  leader := h.leader
  sizes := h.sizes

/-- A read of a remote apply offset takes effect. -/
theorem land {i : Nat} {visited visited' : List Nat} (h : PruneInv s hist lo u) (hidx : i ≠ s.idx)
    (hon : cidIsServerOn s.cid i = true) (hack : s.voteAck i ≠ s.log.len)
    (hw : WalkTo s.log (s.applyOffsets i) visited off ∨ WalkTo s.log s.log.head visited off)
    (hto : WalkTo s.log off visited' (s.remoteApply i)) :
    PruneInv { s with applyOffsets := Function.update s.applyOffsets i off } hist lo u where
  log := h.log
  recorded := by
    intro j hj hon' hjoin
    by_cases hji : j = i
    · subst hji
      obtain ⟨k, w, -, -, hp, -⟩ := h.recorded j hj hon hjoin
      -- what was read is reached from what was recorded, or from `head`
      have hplace : ∃ n v, PlaceAt s.log hist u n v off := by
        rcases hw with hw | hw
        · obtain ⟨n, v, hv, -⟩ := h.log.walkPlace hp hw
          exact ⟨n, v, hv⟩
        · obtain ⟨n, v, hv, -⟩ := h.log.walkPlace h.log.headPlace hw
          exact ⟨n, v, hv⟩
      obtain ⟨n, v, hv⟩ := hplace
      obtain ⟨n', v', hv', hle⟩ := h.log.walkPlace hv hto
      simp only [PruneState.applyOf, if_neg hidx, Function.update_self]
      exact ⟨n, v, n', v', hv, hv', hle⟩
    · simp only [Function.update_of_ne hji]
      exact h.recorded j hj hon' hjoin
  joining := by
    intro j hj hon' hjoin
    by_cases hji : j = i
    · subst hji
      -- a server that has acknowledged does not join any more
      exact absurd (h.joining j hj hon hjoin).2 hack
    · simp only [Function.update_of_ne hji]
      exact h.joining j hj hon' hjoin
  leader := h.leader
  sizes := h.sizes

/-- One step keeps the invariant. -/
theorem step {l : PruneLabel} (h : PruneInv s hist lo u) (hok : pruneOk s l)
    (hs : pruneStep s l s') : ∃ hist' lo' u', PruneInv s' hist' lo' u' := by
  cases l with
  | append reqId cltId type data =>
    obtain ⟨r, hr, rfl⟩ := hs
    obtain ⟨log', idx, e, happend, hinv, -⟩ := h.append s.term reqId cltId hok
    obtain rfl := Option.some.inj (happend.symm.trans hr)
    exact ⟨hist ++ [e], lo, u, hinv⟩
  | commit off =>
    obtain ⟨⟨visited, hw⟩, rfl⟩ := hs
    exact ⟨hist, lo, u, h.commit hw⟩
  | apply off =>
    obtain ⟨⟨visited, hw⟩, ⟨visited', hto⟩, rfl⟩ := hs
    exact ⟨hist, lo, u, h.applied hw hto⟩
  | config cid =>
    obtain ⟨hsub, rfl⟩ := hs
    exact ⟨hist, lo, u, h.config hok hsub⟩
  | join lids lid slid reqId =>
    obtain ⟨hist', hinv⟩ := h.join hok hs
    exact ⟨hist', lo, u, hinv⟩
  | ack i voteAck off =>
    obtain ⟨-, rfl⟩ := hs
    exact ⟨hist, lo, u, h.ack hok⟩
  | remoteApplies i off =>
    obtain ⟨-, ⟨visited, hw⟩, rfl⟩ := hs
    exact ⟨hist, lo, u, h.remoteApplies hw⟩
  | land i off =>
    obtain ⟨hidx, hon, hack, ⟨visited, hw⟩, ⟨visited', hto⟩, rfl⟩ := hs
    exact ⟨hist, lo, u, h.land hidx hon hack hw hto⟩
  | prune =>
    obtain ⟨s₁, hist', lo', u', hs₁, hinv, -⟩ := h.logPruning hok
    obtain rfl := Option.some.inj (hs₁.symm.trans hs)
    exact ⟨hist', lo', u', hinv⟩
  | forcePrune =>
    obtain ⟨s₁, hist', lo', u', hs₁, hinv, -⟩ := h.forceLogPruning hok
    obtain rfl := Option.some.inj (hs₁.symm.trans hs)
    exact ⟨hist', lo', u', hinv⟩

end PruneInv

/-- The invariant, for some history of the log. -/
def Prunable (s : PruneState) : Prop := ∃ hist lo u, PruneInv s hist lo u

theorem reach_prunable (h : Reach pruneInit pruneStep pruneOk s) : Prunable s := by
  refine h.invariant ?_ ?_
  · rintro s ⟨hist, lo, u, hstart⟩
    exact ⟨hist, lo, u, hstart.pruneInv⟩
  · rintro s l s' ⟨hist, lo, u, hinv⟩ hok hs
    exact hinv.step hok hs

/-- **Pruning is safe** in every run whose appends fit: both functions end, and never move `head`
    past an apply offset, backward, or while a server joins, nor leave the log without an entry. -/
theorem pruning_is_safe (h : Reach pruneInit pruneStep pruneOk s) :
    (pruneOk s .prune → ∃ s', logPruning s = some s' ∧ PrunesSafely s s') ∧
      (pruneOk s .forcePrune → ∃ s', forceLogPruning s = some s' ∧ PrunesSafely s s') := by
  obtain ⟨hist, lo, u, hinv⟩ := reach_prunable h
  refine ⟨hinv.logPruning_safe, ?_⟩
  intro hok
  obtain ⟨s', -, -, -, hs', -, hsafe⟩ := hinv.forceLogPruning hok
  exact ⟨s', hs', hsafe⟩

/-! ### A log of two entries -/

section TwoEntries

/-- A stable group of one server, the leader. -/
def aloneCid : DareCid := { epoch := 0, size0 := 1, size1 := 0, state := CID_STABLE, bitmask := 1 }

/-- The leader of that group, with two entries that begin at `start`, of which it has applied the
    first. -/
def twoEntries (start : Nat) : PruneState where
  log := { logOf start (start + 64) (start + 128)
      (writeNoop (writeNoop zeroMem start 1) (start + 64) 2) with tail := start + 64 }
  cid := aloneCid
  idx := 0
  term := 1
  applyOffsets := fun _ => start + 64
  voteAck := fun _ => 0
  remoteApply := fun _ => 0
  joining := fun _ => false

/-- Where the entries of such a history are. -/
theorem pos_of_size {n : Nat} (hsize : ∀ e ∈ hist, e.size = 64) (hn : n ≤ hist.length)
    (hlog : n * 64 ≤ LOG_SIZE) : pos entryFormat LOG_SIZE hist n = n * 64 := by
  induction n with
  | zero => rfl
  | succ n ih =>
    have hget : hist[n]? = some hist[n] := List.getElem?_eq_getElem hn
    have hthis := hsize _ (List.getElem_mem hn)
    rw [pos_succ hget, ih (by omega) (by omega), entryFormat_size, hthis,
      place_of_fit (by rw [Nat.mod_eq_of_lt (by omega)]; omega)]
    omega

theorem pruneStart_twoEntries {n : Nat} (hn : (n + 2) * 64 < LOG_SIZE) :
    PruneStart (twoEntries (n * 64)) (List.replicate n (noop 1) ++ [noop 1, noop 2]) n (n * 64) := by
  generalize hhist : List.replicate n (noop 1) ++ [noop 1, noop 2] = hist
  have hlength : hist.length = n + 2 := by simp [← hhist]
  have hsize : ∀ e ∈ hist, e.size = 64 := by
    intro e he
    rw [← hhist, List.mem_append, List.mem_replicate] at he
    rcases he with ⟨-, rfl⟩ | he
    · rfl
    · simp only [List.mem_cons, List.not_mem_nil, or_false] at he
      rcases he with rfl | rfl <;> rfl
  -- so the entries are at multiples of 64
  have hpos : ∀ k ≤ n + 2, pos entryFormat LOG_SIZE hist k = k * 64 :=
    fun k hk => pos_of_size hsize (by omega) (by omega)
  have hmark : ∀ k ≤ n + 2, Mark entryFormat LOG_SIZE hist k (k * 64) :=
    fun k hk => .inl (hpos k hk).symm
  have hend : logPos (twoEntries (n * 64)).log hist hist.length = (n + 2) * 64 := by
    rw [hlength]
    exact hpos _ (le_refl _)
  have hoff : ∀ k ≤ n + 2, IsOffset LOG_SIZE (k * 64) (k * 64) := fun k hk => ⟨by omega, rfl⟩
  have hmem : Chain entryFormat (twoEntries (n * 64)).log.entries LOG_SIZE (n * 64)
      [noop 1, noop 2] := by
    have hlen : ENTRY_SIZE ≤ LOG_SIZE := by decide
    have hentry : ENTRY_SIZE = 64 := rfl
    have hplace : ∀ k ≤ n + 1, place LOG_SIZE (k * 64) ENTRY_SIZE = k * 64 := by
      intro k hk
      exact place_of_fit (by rw [Nat.mod_eq_of_lt (by omega)]; omega)
    have hfirst : Chain entryFormat (writeNoop zeroMem (n * 64) 1) LOG_SIZE (n * 64)
        ([] ++ [noop 1]) := by
      have hstop : advance entryFormat LOG_SIZE (n * 64) [] = n * 64 := rfl
      refine chain_writeNoop [] hlen trivial hstop ?_ ?_
      · rw [hplace n (by omega), Nat.mod_eq_of_lt (by omega)]
      · rw [hplace n (by omega)]
        omega
    have hstop : advance entryFormat LOG_SIZE (n * 64) [noop 1] = (n + 1) * 64 := by
      rw [advance_singleton, entryFormat_size, size_noop, hplace n (by omega)]
      omega
    refine chain_writeNoop [noop 1] hlen hfirst hstop ?_ ?_
    · rw [hplace _ (le_refl _), Nat.mod_eq_of_lt (by omega)]
      omega
    · rw [hplace _ (le_refl _)]
      omega
  -- `apply` is at the second entry
  have happly : PlaceAt (twoEntries (n * 64)).log hist (n * 64) (n + 1) ((n + 1) * 64)
      (n * 64 + 64) :=
    ⟨hmark _ (by omega), by omega, by rw [hend]; omega, by omega, by
      have hthis := hoff (n + 1) (by omega)
      rwa [Nat.add_mul, Nat.one_mul] at hthis ⊢⟩
  have hhdr : ENTRY_SIZE ≤ LOG_SIZE := by decide
  have hleader : 0 < (getExtendedGroupSize aloneCid).toNat ∧ cidIsServerOn aloneCid 0 = true := by
    decide
  have hsizes : SizesFit aloneCid := ⟨by decide, by decide⟩
  refine ⟨⟨hhdr, ?_, by omega, hmark n (by omega), ?_, ?_, ?_⟩, by omega, ⟨hhdr, ?_⟩, ?_,
    hoff n (by omega), .inr ⟨(n + 1) * 64, noop 2, ?_, ?_, ?_, ?_⟩,
    ⟨n + 1, _, n + 1, _, happly, happly, le_refl _⟩, ?_, hleader, hsizes, fun _ => rfl⟩
  · intro e he
    rw [entryFormat_size, hsize e he]
    exact hhdr
  · exact (show n * 64 ≤ (n + 2) * 64 by omega).trans hend.ge
  · exact hend.trans_lt (show (n + 2) * 64 < n * 64 + LOG_SIZE by omega)
  · rw [← hhist, List.drop_left' (by simp)]
    exact hmem
  · rw [hend]
    have hthis := hoff (n + 2) (le_refl _)
    rwa [Nat.add_mul] at hthis ⊢
  · show n * 64 + 128 ≠ LOG_SIZE
    omega
  · simp [← hhist]
  · rw [hlength]
    exact hmark _ (by omega)
  · exact place_of_fit (by
      show (n + 1) * 64 % LOG_SIZE + 64 ≤ LOG_SIZE
      rw [Nat.mod_eq_of_lt (by omega)]
      omega)
  · show n * 64 + 64 = (n + 1) * 64 % LOG_SIZE
    rw [Nat.mod_eq_of_lt (by omega)]
    omega
  · intro i hi _
    have hzero : i = 0 := by
      have hone : i < 1 := hi
      omega
    subst hzero
    exact ⟨n + 1, _, n + 1, _, happly, happly, le_refl _⟩

/-- The first of two entries is pruned. -/
theorem pruning_is_safe_two : ∃ s', logPruning (twoEntries 0) = some s' ∧ s'.log.head = 64 ∧
    PrunesSafely (twoEntries 0) s' := by
  have hstart : Reach pruneInit pruneStep pruneOk (twoEntries 0) :=
    .start ⟨_, 0, 0, pruneStart_twoEntries (n := 0) (by decide)⟩
  have hfits : HeadFits (twoEntries 0).log aloneCid (fun _ => 64) := by
    intro off hfirst _ _
    have htail : logGetTail (twoEntries 0).log = some 64 := by decide
    obtain rfl : off = 64 := by
      rcases hfirst.mem with hoff | hoff | ⟨i, -, -, hoff⟩
      · exact hoff
      · exact Option.some.inj (hoff.symm.trans htail)
      · exact hoff
    refine ⟨?_, by decide⟩
    unfold AppendRoom
    decide
  obtain ⟨s', hs', hsafe⟩ := (pruning_is_safe hstart).1 hfits
  refine ⟨s', hs', ?_, hsafe⟩
  have hhead : (logPruning (twoEntries 0)).map (fun s => s.log.head) = some 64 := by decide
  rw [hs'] at hhead
  exact Option.some.inj hhead

/-- The HEAD entry ends exactly at the buffer end. -/
theorem not_pruning_is_safe : ¬ ∀ s, Reach pruneInit pruneStep Always s →
    (∃ s', logPruning s = some s' ∧ PrunesSafely s s') ∧
      ∃ s', forceLogPruning s = some s' ∧ PrunesSafely s s' := by
  intro hall
  have hlast : (LOG_SIZE / 64 - 3 + 2) * 64 < LOG_SIZE := by decide
  have hstart : Reach pruneInit pruneStep Always (twoEntries ((LOG_SIZE / 64 - 3) * 64)) :=
    .start ⟨_, _, _, pruneStart_twoEntries hlast⟩
  obtain ⟨⟨s', hs', hsafe⟩, -⟩ := hall _ hstart
  have hend : (logPruning (twoEntries ((LOG_SIZE / 64 - 3) * 64))).map
      (fun s => decide (s.log.end_ = s.log.len)) = some true := by
    decide
  rw [hs'] at hend
  obtain ⟨entry, hentry⟩ := hsafe.nonempty
  rw [logGetEntry_of_end_eq_len (of_decide_eq_true (Option.some.inj hend))] at hentry
  cases hentry

end TwoEntries

end Apus
