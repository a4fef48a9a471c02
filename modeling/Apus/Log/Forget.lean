import Apus.Log.Full
import Apus.Log.Tail

namespace Apus

open Lib

/-!
# Forgetting the tail

A leader caches the offset of the last entry, and resets it to `len` when it loses leadership
(`hb_receive_cb`).  `log_get_tail` then looks the last entry up: from the commit offset, else from
the apply offset, else from `head`.

* `TailInvisible` — the entry found is the last one that the walk of `apply_committed_entries`
  visits, and the next append does the same with and without the cached offset;
* `TailLog.step` — every append with room, and every move of an offset along the log, keeps the
  offsets in place;
* `forgetting_invisible_iff` — in every run of such steps the tail may be forgotten unless the log
  ends at the buffer end.
-/

/-! ### The statement -/

/-- The tail is reset. -/
def DareLog.forgetTail (log : DareLog) : DareLog := { log with tail := log.len }

/-- The index and the term of the entry found are those of the last entry visited, and an append
    does not see that the tail was forgotten. -/
structure TailInvisible (log : DareLog) : Prop where
  found : ∃ visited stop last t entry,
    readerWalk log (walkFuel log) log.head = some (visited, stop) ∧ visited.getLast? = some last ∧
      logGetTail log.forgetTail = some t ∧ logGetEntry log t = some entry ∧
        getU64 log.entries entry = getU64 log.entries last ∧
          getU64 log.entries (entry + 8) = getU64 log.entries (last + 8)
  append : ∀ term reqId cltId type data,
    logAppendEntry log.forgetTail term reqId cltId type data =
      logAppendEntry log term reqId cltId type data

/-! ### Runs -/

/-- The end of the log, or a value of the variable of the walk from `head`. -/
def IsBoundary (log : DareLog) (off : Nat) : Prop :=
  off = log.end_ ∨ ∃ visited, WalkTo log log.head visited off

/-- The steps: an append, and the moves of the three offsets. -/
inductive TailLabel
  | append (term reqId : UInt64) (cltId : UInt16) (type : UInt8) (data : EntryData)
  | head (off : Nat)
  | commit (off : Nat)
  | apply (off : Nat)

def tailInit (log : DareLog) : Prop := log = logNew

/-- One step.  `head` moves to a boundary with an entry behind it. -/
def tailStep (log : DareLog) : TailLabel → DareLog → Prop
  | .append term reqId cltId type data, log' =>
    ∃ idx, logAppendEntry log term reqId cltId type data = some (log', idx)
  | .head off, log' =>
    IsBoundary log off ∧ (logGetEntry log off).isSome ∧ log' = { log with head := off }
  | .commit off, log' => IsBoundary log off ∧ log' = { log with commit := off }
  | .apply off, log' => IsBoundary log off ∧ log' = { log with apply := off }

/-- An append has room, and `head` does not pass the commit and the apply offset. -/
def tailOk (log : DareLog) : TailLabel → Prop
  | .append _ _ _ type data => AppendRoom log type data
  | .head off =>
    logIsOffsetLarger log off log.commit = false ∧ logIsOffsetLarger log off log.apply = false
  | .commit _ | .apply _ => True

/-! ### The invariant -/

variable {log log' : DareLog} {hist : List DareLogEntry} {lo u k w off t : Nat}
  {idx term reqId : UInt64} {cltId : UInt16} {type : UInt8} {data : EntryData}

/-- The offsets of the log are places of the window; it was never appended to, or its tail is the
    place of the last entry, which is not pruned. -/
structure TailLog (log : DareLog) (hist : List DareLogEntry) (lo u : Nat) : Prop where
  window : LogWindow log hist lo u
  ends : EndsAt log (logPos log hist hist.length)
  head : IsOffset log.len u log.head
  commit : ∃ k w, PlaceAt log hist u k w log.commit
  apply : ∃ k w, PlaceAt log hist u k w log.apply
  filled : hist = [] ∧ log.end_ = log.len ∧ log.head = 0 ∨
    lo < hist.length ∧ log.tail ≠ log.len ∧ TailExact log hist

/-- The invariant of the runs. -/
def TailInv (log : DareLog) : Prop := ∃ hist lo u, TailLog log hist lo u

namespace TailLog

theorem new : TailLog logNew [] 0 0 := by
  have hwindow : LogWindow logNew [] 0 0 := window_nil _ (by decide)
  have hplace : PlaceAt logNew [] 0 0 0 0 :=
    ⟨Mark.pos 0, le_refl 0, Nat.zero_le _, le_refl 0, Nat.zero_le _, rfl⟩
  exact ⟨hwindow, endsAt_logNew, ⟨Nat.zero_le _, rfl⟩, ⟨0, 0, hplace⟩, ⟨0, 0, hplace⟩,
    .inl ⟨rfl, rfl, rfl⟩⟩

/-- A log with entries behind its end is one that was appended to. -/
theorem entries_left (h : TailLog log hist lo u) (hne : log.end_ ≠ log.len) :
    lo < hist.length ∧ log.tail ≠ log.len ∧ TailExact log hist :=
  h.filled.resolve_left fun hfresh => hne hfresh.2.1

theorem tailKnown (h : TailLog log hist lo u) : TailKnown log := by
  rcases h.filled with ⟨-, hend, -⟩ | ⟨-, htail, -⟩
  · exact .inr hend
  · exact .inl htail

theorem end_ne_head (h : TailLog log hist lo u) : log.end_ ≠ log.head := by
  rcases h.filled with ⟨-, hend, hhead⟩ | ⟨hlo, -⟩
  · have hlen := h.window.len_pos
    omega
  · exact h.window.end_ne_head h.ends h.head hlo

theorem headPlace (h : TailLog log hist lo u) : PlaceAt log hist u lo u log.head :=
  ⟨h.window.mark, le_refl u, h.window.le_end, h.window.lo_le, h.head⟩

/-- A boundary is a place. -/
theorem boundary (h : TailLog log hist lo u) (hoff : IsBoundary log off) :
    ∃ k w, PlaceAt log hist u k w off := by
  rcases hoff with rfl | ⟨visited, hw⟩
  · exact ⟨hist.length, _, Mark.pos _, h.window.le_end, le_refl _, le_refl _, h.ends.offset⟩
  · by_cases hend : log.end_ = log.len
    · obtain ⟨-, rfl⟩ := hw.of_end_eq_len hend
      exact ⟨lo, u, h.headPlace⟩
    · obtain ⟨w, hw⟩ := h.window.placeAt h.ends hend h.head hw
      exact ⟨_, w, hw⟩

/-- A place that the code does not find larger than another is not behind it. -/
theorem not_larger {j v off' : Nat} (h : TailLog log hist lo u) (hne : log.end_ ≠ log.len)
    (hp : PlaceAt log hist u k w off) (hq : PlaceAt log hist u j v off')
    (hlarger : logIsOffsetLarger log off off' = false) : w ≤ v := by
  have hwindow : logPos log hist hist.length < u + log.len := h.window.window
  have hle := hp.le
  have hle' := hq.le
  by_contra hcon
  have hlt := (logIsOffsetLarger_iff_lt h.ends hne hp.offset hq.offset hp.le_end hq.le_end
    (by omega) (by omega)).mpr (Nat.lt_of_not_le hcon)
  rw [hlarger] at hlt
  cases hlt

/-! ### Every step -/

/-- An append with room. -/
theorem append (h : TailLog log hist lo u) (hroom : AppendRoom log type data)
    (hs : logAppendEntry log term reqId cltId type data = some (log', idx)) :
    ∃ e, TailLog log' (hist ++ [e]) lo u := by
  obtain ⟨log1, hspec, happ⟩ := logAppendEntry_spec term reqId cltId h.tailKnown h.ends h.head
    h.window.le_end h.window.window h.end_ne_head hroom
  obtain ⟨rfl, -⟩ := Prod.mk.inj (Option.some.inj (hs.symm.trans hspec))
  generalize he : mkEntry (logNewIdx log) term reqId cltId type data = e at happ
  have hsize : e.size = appendSize type data := by rw [← he, mkEntry_size]
  have hlen := h.window.len_pos
  have hplace := hroom.place_lt h.ends h.head h.window.le_end h.window.window
  rw [← hsize] at hplace
  obtain ⟨kc, wc, hc⟩ := h.commit
  obtain ⟨ka, wa, ha⟩ := h.apply
  refine ⟨e, h.window.appended happ hplace, ?_, ?_, ⟨kc, wc, ?_⟩, ⟨ka, wa, ?_⟩, .inr ⟨?_, ?_, ?_⟩⟩
  · exact LogWindow.endsAt_appended h.ends happ
  · rw [happ.head, happ.len]
    exact h.head
  · rw [happ.commit]
    exact (hc.append [e] hlen).of_len happ.len
  · rw [happ.apply]
    exact (ha.append [e] hlen).of_len happ.len
  · have hlo := h.window.lo_le
    simp only [List.length_append, List.length_singleton]
    omega
  · rw [happ.tail, happ.len]
    exact (Nat.mod_lt _ hlen).ne
  · exact happ.tailExact

/-- A move of `head`. -/
theorem moveHead (h : TailLog log hist lo u) (hoff : IsBoundary log off)
    (hget : (logGetEntry log off).isSome) (hok : tailOk log (.head off)) :
    TailInv { log with head := off } := by
  obtain ⟨entry, hentry⟩ := Option.isSome_iff_exists.mp hget
  have hne : log.end_ ≠ log.len := by
    intro hend
    rw [logGetEntry_of_end_eq_len hend] at hentry
    cases hentry
  obtain ⟨k, w, hp⟩ := h.boundary hoff
  obtain ⟨kc, wc, hc⟩ := h.commit
  obtain ⟨ka, wa, ha⟩ := h.apply
  have hwc := h.not_larger hne hp hc hok.1
  have hwa := h.not_larger hne hp ha hok.2
  have hwin := h.window.place hp
  -- there is an entry at the new head
  obtain ⟨e, he, -⟩ := hwin.of_getEntry h.ends hne hp.offset hentry
  obtain ⟨-, htail, hexact⟩ := h.entries_left hne
  refine ⟨hist, k, w, hwin, ⟨h.ends.1, h.ends.2⟩, hp.offset, ⟨kc, wc, ?_⟩, ⟨ka, wa, ?_⟩,
    .inr ⟨(List.getElem?_eq_some_iff.mp he).1, htail, hexact⟩⟩
  · exact ⟨hc.mark, hwc, hc.le_end, hc.count_le, hc.offset⟩
  · exact ⟨ha.mark, hwa, ha.le_end, ha.count_le, ha.offset⟩

/-- Every step under the condition. -/
theorem step {l : TailLabel} (h : TailLog log hist lo u) (hok : tailOk log l)
    (hs : tailStep log l log') : TailInv log' := by
  cases l with
  | append term reqId cltId type data =>
    obtain ⟨idx, hidx⟩ := hs
    obtain ⟨e, he⟩ := h.append hok hidx
    exact ⟨_, lo, u, he⟩
  | head off =>
    obtain ⟨hoff, hget, rfl⟩ := hs
    exact h.moveHead hoff hget hok
  | commit off =>
    obtain ⟨hoff, rfl⟩ := hs
    obtain ⟨k, w, hp⟩ := h.boundary hoff
    obtain ⟨ka, wa, ha⟩ := h.apply
    exact ⟨hist, lo, u, h.window, ⟨h.ends.1, h.ends.2⟩, h.head, ⟨k, w, hp.of_len rfl⟩,
      ⟨ka, wa, ha.of_len rfl⟩, h.filled⟩
  | apply off =>
    obtain ⟨hoff, rfl⟩ := hs
    obtain ⟨k, w, hp⟩ := h.boundary hoff
    obtain ⟨kc, wc, hc⟩ := h.commit
    exact ⟨hist, lo, u, h.window, ⟨h.ends.1, h.ends.2⟩, h.head, ⟨kc, wc, hc.of_len rfl⟩,
      ⟨k, w, hp.of_len rfl⟩, h.filled⟩

end TailLog

/-! ### The append after it -/

/-- With `head` at offset `0` a place is known by the number of entries in front of it. -/
theorem LogWindow.place_unique {v off' : Nat} (h : LogWindow log hist lo u)
    (hhead : IsOffset log.len u 0) (hp : PlaceAt log hist u k w off)
    (hq : PlaceAt log hist u k v off') : w = v := by
  have hwindow : logPos log hist hist.length < u + log.len := h.window
  -- the skipped bytes behind a mark would go around the ring
  have hskip : ∀ e, u ≤ logPos log hist k →
      Lib.place log.len (logPos log hist k) (entryFormat.size e) ≤ logPos log hist hist.length →
      Lib.place log.len (logPos log hist k) (entryFormat.size e) = logPos log hist k := by
    intro e hle hend
    by_cases hfit : logPos log hist k % log.len + entryFormat.size e ≤ log.len
    · exact place_of_fit hfit
    · have hzero := place_mod_of_not_fit (Nat.lt_of_not_le hfit)
      have hmove := place_of_not_fit_add (Nat.lt_of_not_le hfit)
      have hmod := Nat.mod_lt (logPos log hist k) h.len_pos
      have hne : u % log.len ≠
          Lib.place log.len (logPos log hist k) (entryFormat.size e) % log.len :=
        mod_ne_of_lt (by omega) (by omega)
      rw [hzero, ← hhead.2, Nat.zero_mod] at hne
      exact absurd rfl hne
  obtain ⟨hwmark, hw, hwend, -, -⟩ := hp
  obtain ⟨hvmark, hv, hvend, -, -⟩ := hq
  rcases hwmark with rfl | ⟨e, he, rfl⟩ <;> rcases hvmark with rfl | ⟨e', he', rfl⟩
  · rfl
  · exact (hskip e' hw hvend).symm
  · exact hskip e hv hwend
  · obtain rfl := Option.some.inj (he.symm.trans he')
    rfl

/-- The creation of an entry does not look at the tail, and sets it, except for a command that is
    rejected with `head` at offset `0`. -/
theorem logCreateEntry_tail (hlen : ENTRY_SIZE ≤ log.len) (hfull : log.end_ ≠ log.head)
    (hhead : log.head = 0 → t = log.tail) :
    logCreateEntry { log with tail := t } idx term reqId cltId type data =
      logCreateEntry log idx term reqId cltId type data := by
  by_cases hzero : log.head = 0
  · rw [hhead hzero]
  · have hfull' : DareLog.end_ { log with tail := t } ≠ DareLog.head { log with tail := t } := hfull
    by_cases hfit : createOffset log + (mkEntry idx term reqId cltId type data).size ≤ log.len
    · rw [logCreateEntry_of_fit hfull' hfit, logCreateEntry_of_fit hfull hfit]
      rfl
    · have hoff := createOffset_add_le hlen
      have hnot := Nat.lt_of_not_le hfit
      rw [logCreateEntry_of_not_fit hfull' hzero hoff hnot,
        logCreateEntry_of_not_fit hfull hzero hoff hnot]
      rfl

/-! ### Every run -/

namespace TailLog

/-- The cached tail is the place of the last entry. -/
theorem cached (h : TailLog log hist lo u) (hne : log.end_ ≠ log.len) (hk : hist.length = k + 1) :
    ∃ P, PlaceAt log hist u k P log.tail := by
  obtain ⟨hlo, htail, hexact⟩ := h.entries_left hne
  rcases hexact.tailAt h.window hlo with hnone | ⟨j, P, hj, -, hP⟩
  · exact absurd hnone htail
  · obtain rfl : j = k := by omega
    exact ⟨P, hP⟩

/-- The next index, from a place in front of the last entry. -/
theorem newIdx {e : DareLogEntry} {P : Nat} (h : TailLog log hist lo u)
    (hne : log.end_ ≠ log.len) (he : hist[k]? = some e) (hP : PlaceAt log hist u k P t) :
    logNewIdx { log with tail := t } = e.idx + 1 := by
  have hc := (h.window.place hP).cursor hP.offset
  rw [drop_eq_cons he] at hc
  exact logNewIdx_eq ⟨h.ends.1, h.ends.2⟩ hne ⟨hc.1, hc.2, hc.3, hc.4⟩

/-- What the search finds. -/
theorem search (b : Bool) (h : TailLog log hist lo u) (hne : log.end_ ≠ log.len)
    (hk : hist.length = k + 1) :
    ∃ t P, logGetTail log.forgetTail = some t ∧
      logCacheTail { log.forgetTail with prevLogEntryHead := b } =
        some { log.forgetTail with prevLogEntryHead := b, tail := t } ∧
      t ≠ log.len ∧ PlaceAt log hist u k P t := by
  obtain ⟨hlo, -⟩ := h.entries_left hne
  obtain ⟨kc, wc, hc⟩ := h.commit
  obtain ⟨ka, wa, ha⟩ := h.apply
  have hforget : LogWindow log.forgetTail hist lo u := h.window
  have hends : EndsAt log.forgetTail (logPos log.forgetTail hist hist.length) :=
    ⟨h.ends.1, h.ends.2⟩
  obtain ⟨t, ht, hfound⟩ := logGetTail_spec hforget hends hne h.head rfl (hc.of_len rfl)
    (ha.of_len rfl)
  have hcache : logCacheTail { log.forgetTail with prevLogEntryHead := b } =
      some { log.forgetTail with prevLogEntryHead := b, tail := t } := by
    show (if log.len = log.len then (logGetTail { log.forgetTail with prevLogEntryHead := b }).map _
      else _) = _
    rw [if_pos rfl, logGetTail_flag, ht, Option.map_some]
  rcases hfound with ⟨-, hcon⟩ | ⟨j, P, hj, htne, hP⟩
  · exact absurd hlo (Nat.not_lt.mpr hcon)
  · obtain rfl : j = k := by omega
    exact ⟨t, P, ht, hcache, htne, hP.of_len rfl⟩

/-- The entry found is the last one visited. -/
theorem found_last {e : DareLogEntry} {P : Nat} (h : TailLog log hist lo u)
    (hne : log.end_ ≠ log.len) (hlast : hist.getLast? = some e) (he : hist[k]? = some e)
    (hP : PlaceAt log hist u k P t) :
    ∃ visited stop last entry,
      readerWalk log (walkFuel log) log.head = some (visited, stop) ∧
        visited.getLast? = some last ∧ logGetEntry log t = some entry ∧
          getU64 log.entries entry = getU64 log.entries last ∧
            getU64 log.entries (entry + 8) = getU64 log.entries (last + 8) := by
  obtain ⟨hlo, -⟩ := h.entries_left hne
  have hhead := h.window.cursor h.head
  obtain ⟨stop, hwalk, -⟩ := hhead.readerWalk h.ends hne (hhead.fuel h.ends)
  -- the last offset visited is where the last entry is read
  have hread := congrArg List.getLast? hhead.map_readEntry
  rw [List.getLast?_map, List.getLast?_drop, if_neg (Nat.not_le.mpr hlo), hlast] at hread
  obtain ⟨last, hvisited, hentry⟩ := Option.map_eq_some_iff.mp hread
  have hc := (h.window.place hP).cursor hP.offset
  rw [drop_eq_cons he] at hc
  obtain ⟨hidx, hterm, -⟩ := hc.header
  refine ⟨_, stop, last, _, hwalk, hvisited, hc.getEntry_cons h.ends hne, ?_, ?_⟩
  · rw [hidx, ← hentry]
    rfl
  · rw [hterm, ← hentry]
    rfl

/-- With `head` at offset `0` the search finds the cached offset. -/
theorem found_cached {P : Nat} (h : TailLog log hist lo u) (hne : log.end_ ≠ log.len)
    (hk : hist.length = k + 1) (ht : t ≠ log.len) (hP : PlaceAt log hist u k P t)
    (hhead : log.head = 0) : t = log.tail := by
  obtain ⟨-, htail, -⟩ := h.entries_left hne
  obtain ⟨Q, hQ⟩ := h.cached hne hk
  have hzero : IsOffset log.len u 0 := hhead ▸ h.head
  obtain rfl : P = Q := h.window.place_unique hzero hP hQ
  rcases hP.offset.cases h.window.len_pos with h1 | ⟨h1, -⟩
  · rcases hQ.offset.cases h.window.len_pos with h2 | ⟨h2, -⟩
    · rw [h1, h2]
    · exact absurd h2 htail
  · exact absurd h1 ht

/-- A log with an entry behind its end may forget the tail. -/
theorem invisible (h : TailLog log hist lo u) (hne : log.end_ ≠ log.len) : TailInvisible log := by
  obtain ⟨hlo, htail, hexact⟩ := h.entries_left hne
  obtain ⟨k, hk⟩ : ∃ k, hist.length = k + 1 := ⟨hist.length - 1, by omega⟩
  obtain ⟨e, hget⟩ : ∃ e, hist[k]? = some e := ⟨_, List.getElem?_eq_getElem (by omega)⟩
  have hlast : hist.getLast? = some e := by
    rw [List.getLast?_eq_getElem?, hk, Nat.add_sub_cancel, hget]
  constructor
  · obtain ⟨t, P, ht, -, -, hP⟩ := h.search log.prevLogEntryHead hne hk
    obtain ⟨visited, stop, last, entry, hwalk, hvisited, hentry, hidx, hterm⟩ :=
      h.found_last hne hlast hget hP
    exact ⟨visited, stop, last, t, entry, hwalk, hvisited, ht, hentry, hidx, hterm⟩
  · intro term reqId cltId type data
    obtain ⟨t, P, -, hcache, htne, hP⟩ :=
      h.search (if type ≠ HEAD then false else log.prevLogEntryHead) hne hk
    obtain ⟨Q, hQ⟩ := h.cached hne hk
    -- both offsets give the same index
    have hfound : logNewIdx { log.forgetTail with tail := t } = e.idx + 1 :=
      h.newIdx hne hget hP
    have hcached : logNewIdx log = e.idx + 1 := h.newIdx hne hget hQ
    have hforgot : logAppendEntry log.forgetTail term reqId cltId type data = _ :=
      logAppendEntry_of_cacheTail hcache
    have hkept : logAppendEntry log term reqId cltId type data = _ := logAppendEntry_eq h.tailKnown
    rw [hforgot, hkept, hfound, hcached]
    exact congrArg some (@logCreateEntry_tail
      { log with prevLogEntryHead := if type ≠ HEAD then false else log.prevLogEntryHead } t
      _ _ _ _ _ _ h.ends.entrySize_le_len h.end_ne_head (h.found_cached hne hk htne hP))

end TailLog

/-- **Forgetting the tail is invisible** in every run in which the appends have room and `head` does
    not pass the other offsets, exactly if the log does not end at the buffer end. -/
theorem forgetting_invisible_iff (h : Reach tailInit tailStep tailOk log) :
    TailInvisible log ↔ log.end_ ≠ log.len := by
  have hinv : TailInv log := by
    refine h.invariant (fun log hinit => ?_) fun log l log' hinv hok hs => ?_
    · rw [hinit]
      exact ⟨[], 0, 0, .new⟩
    · obtain ⟨hist, lo, u, hlog⟩ := hinv
      exact hlog.step hok hs
  constructor
  · rintro ⟨⟨visited, stop, last, -, -, hwalk, hlast, -⟩, -⟩ hend
    -- nothing is visited
    rw [walkFuel, readerWalk, logGetEntry_of_end_eq_len hend] at hwalk
    obtain ⟨rfl, -⟩ := Prod.mk.inj (Option.some.inj hwalk)
    cases hlast
  · intro hne
    obtain ⟨hist, lo, u, hlog⟩ := hinv
    exact hlog.invisible hne

/-! ### Full logs -/

/-- The appends of the filled log, as a run. -/
theorem exists_tailRun64K (n : Nat) (hn : n < 1023) :
    ∃ s, Appended64K s n ∧ Reach tailInit tailStep tailOk s.log := by
  induction n with
  | zero =>
    obtain ⟨s, hs, hstep⟩ := exists_first64K
    have hstart : Reach tailInit tailStep tailOk logNew := .start rfl
    exact ⟨s, hs, hstart.step (l := .append 1 0 0 CSM cmd64K) hstep.1 hstep.2.1⟩
  | succ n ih =>
    obtain ⟨s, hs, hreach⟩ := ih (by omega)
    obtain ⟨s', hs', hstep⟩ := hs.push hn
    exact ⟨s', hs', hreach.step (l := .append 1 0 0 CSM cmd64K) hstep.1 hstep.2.1⟩

/-- A log with two entries may forget its tail. -/
theorem forgetting_invisible_iff_two : ∃ s, Appended64K s 1 ∧ TailInvisible s.log := by
  obtain ⟨s, hs, hreach⟩ := exists_tailRun64K 1 (by decide)
  obtain ⟨V, v, hfilled⟩ := hs.filled
  exact ⟨s, hs, (forgetting_invisible_iff hreach).mpr hfilled.end_ne_len⟩

/-- Fill the log but for its last `2 ^ 16` bytes and append a longer entry: it is rejected with the
    end at `0`, where `head` is, and the walk finds no entry. -/
theorem not_forgetting_invisible : ¬ ∀ log, Reach tailInit tailStep Always log →
    isLogEmpty log = false → TailInvisible log := by
  intro hall
  obtain ⟨s, hs, hreach⟩ := exists_tailRun64K 1022 (by decide)
  obtain ⟨log', heq, hend, hhead, hlen⟩ := hs.rejected
  have hstep : tailStep s.log (.append 1 0 0 CSM cmdLong) log' := ⟨0, heq⟩
  have hrun : Reach tailInit tailStep Always s.log := hreach.mono fun _ _ _ => trivial
  have hempty : isLogEmpty log' = false := by
    have hlog := logSize_eq
    simp only [isLogEmpty, hend, hlen, beq_eq_false_iff_ne]
    omega
  obtain ⟨visited, stop, last, -, -, hwalk, hlast, -⟩ := (hall log' (hrun.step trivial hstep) hempty).found
  have hnone : logGetEntry log' log'.head = none := by
    rw [hhead, ← hend]
    exact logGetEntry_end log'
  rw [walkFuel, readerWalk, hnone] at hwalk
  obtain ⟨rfl, -⟩ := Prod.mk.inj (Option.some.inj hwalk)
  cases hlast

end Apus
