import Apus.Commit.Walk

namespace Apus

open Lib

/-!
# The invariant of commit and apply

Both logs are windows of the history of the leader's log.  A `Spot` of the history is a mark with
the number of entries before it; the apply and the commit offsets are spots (`Offsets`).

* `LeaderInv` — the leader's log holds the history behind `head`;
* `FollowerInv` — the follower's log holds the first `stored` entries behind its apply offset, of
  which the first `ended` are before its end (`Stage`);
* `Lands` — what the writes on their way will do to the follower, one after the other;
* `Phase` — what the leader knows about the follower in each step of a log update.
-/

/-- A place of the history: a position, and the number of entries before it. -/
structure Spot where
  count : Nat
  pos : Nat

/-- The apply and the commit offset of a log are at the spots `a` and `k`. -/
structure Offsets (log : DareLog) (hist : List DareLogEntry) (a k : Spot) : Prop where
  apply : SoftMark entryFormat log.len hist a.count a.pos
  applyOff : IsOffset log.len a.pos log.apply
  commit : SoftMark entryFormat log.len hist k.count k.pos
  commitOff : IsOffset log.len k.pos log.commit
  pos_le : a.pos ≤ k.pos
  count_le : a.count ≤ k.count

/-- The leader's log holds the history behind the spot `h` of `head`. -/
structure LeaderInv (log : DareLog) (hist : List DareLogEntry) (h a k : Spot) : Prop where
  window : LogWindow log hist h.count h.pos
  headOff : IsOffset log.len h.pos log.head
  endOff : IsOffset log.len (logPos log hist hist.length) log.end_
  tail : TailKnown log
  empty : log.end_ = log.len → hist = []
  offsets : Offsets log hist a k
  head_le : h.pos ≤ a.pos
  commit_le : k.pos ≤ logPos log hist hist.length
  commitCount : k.count ≤ hist.length

/-- How far a follower is: the entries whose bytes it has, those before its end, and the spot of
    its commit offset. -/
structure Stage where
  stored : Nat
  ended : Nat
  commit : Spot

/-- The follower's log holds the stored entries behind its apply offset. -/
structure FollowerInv (log : DareLog) (hist : List DareLogEntry) (a : Spot) (g : Stage) : Prop where
  window : LogWindow log (hist.take g.stored) a.count a.pos
  endOff : IsOffset log.len (logPos log hist g.ended) log.end_
  empty : log.end_ = log.len → g.ended = 0
  offsets : Offsets log hist a g.commit
  commit_le : g.commit.pos ≤ logPos log hist g.ended
  commitCount : g.commit.count ≤ g.ended
  ended_le : g.ended ≤ g.stored
  stored_le : g.stored ≤ hist.length

/-- A follower at the stage `g` is at the stage `g'` when the writes have taken effect. -/
inductive Lands (len : Nat) (hist : List DareLogEntry) : Stage → List RdmaWrite → Stage → Prop
  | nil (g : Stage) : Lands len hist g [] g
  | entries {g g' : Stage} {ws : List RdmaWrite} {n : Nat} : g.ended < n → n ≤ hist.length →
      g.stored ≤ n → Lands len hist { g with stored := n } ws g' →
      Lands len hist g (.entries (pos entryFormat len hist g.ended % len)
        (pos entryFormat len hist n % len) :: ws) g'
  | end_ {g g' : Stage} {ws : List RdmaWrite} : Lands len hist { g with ended := g.stored } ws g' →
      Lands len hist g (.end_ (pos entryFormat len hist g.stored % len) :: ws) g'
  | commit {g g' : Stage} {ws : List RdmaWrite} {k : Spot} {off : Nat} :
      SoftMark entryFormat len hist k.count k.pos → IsOffset len k.pos off →
      g.commit.pos ≤ k.pos → g.commit.count ≤ k.count →
      k.pos ≤ pos entryFormat len hist g.ended → k.count ≤ g.ended →
      Lands len hist { g with commit := k } ws g' → Lands len hist g (.commit off :: ws) g'

variable {log log' : DareLog} {hist fs : List DareLogEntry} {h a k : Spot} {g g' v : Stage}
  {e : DareLogEntry} {len : Nat} {ws : List RdmaWrite} {off : Nat}

/-! ### Order of offsets -/

/-- The order of offsets is that of positions, also in a log that was never appended to. -/
theorem logIsOffsetLarger_iff_pos {V u w off' : Nat} (hE : EndsAt log V)
    (hempty : log.end_ = log.len → V = 0) (hu : IsOffset log.len u off)
    (hw : IsOffset log.len w off') (huV : u ≤ V) (hwV : w ≤ V) (hVu : V < u + log.len)
    (hVw : V < w + log.len) : logIsOffsetLarger log off off' = true ↔ w < u := by
  by_cases hne : log.end_ = log.len
  · have hzero := hempty hne
    rw [logIsOffsetLarger_of_end_eq_len hne]
    constructor
    · intro hcon; cases hcon
    · omega
  · exact logIsOffsetLarger_iff_lt hE hne hu hw huV hwV hVu hVw

theorem LeaderInv.endsAt (hl : LeaderInv log hist h a k) :
    EndsAt log (logPos log hist hist.length) := ⟨hl.window.hdr_le_len, hl.endOff⟩

theorem LeaderInv.larger_iff {u w off' : Nat} (hl : LeaderInv log hist h a k)
    (hu : IsOffset log.len u off) (hw : IsOffset log.len w off') (hhu : h.pos ≤ u)
    (hhw : h.pos ≤ w) (huV : u ≤ logPos log hist hist.length)
    (hwV : w ≤ logPos log hist hist.length) :
    logIsOffsetLarger log off off' = true ↔ w < u := by
  have hwindow : logPos log hist hist.length < h.pos + log.len := hl.window.window
  refine logIsOffsetLarger_iff_pos hl.endsAt (fun hne => ?_) hu hw huV hwV (by omega) (by omega)
  rw [hl.empty hne]
  exact pos_zero

theorem FollowerInv.endsAt (hf : FollowerInv log hist a g) :
    EndsAt log (logPos log hist g.ended) := ⟨hf.window.hdr_le_len, hf.endOff⟩

/-- The end of the follower's log is less than a lap ahead of its apply offset. -/
theorem FollowerInv.end_lt (hf : FollowerInv log hist a g) :
    logPos log hist g.ended < a.pos + log.len := by
  have hwindow := hf.window.window
  have hlength : (hist.take g.stored).length = g.stored := List.length_take_of_le hf.stored_le
  rw [hlength, pos_take (le_refl _)] at hwindow
  exact lt_of_le_of_lt (pos_mono hf.window.len_pos hf.ended_le) hwindow

theorem FollowerInv.larger_iff {u w off' : Nat} (hf : FollowerInv log hist a g)
    (hu : IsOffset log.len u off) (hw : IsOffset log.len w off') (hau : a.pos ≤ u)
    (haw : a.pos ≤ w) (huV : u ≤ logPos log hist g.ended) (hwV : w ≤ logPos log hist g.ended) :
    logIsOffsetLarger log off off' = true ↔ w < u := by
  have hlt := hf.end_lt
  refine logIsOffsetLarger_iff_pos hf.endsAt (fun hne => ?_) hu hw huV hwV (by omega) (by omega)
  rw [hf.empty hne]
  exact pos_zero

/-! ### A longer history -/

theorem Offsets.extend (ho : Offsets log hist a k) (hk : k.count ≤ hist.length) :
    Offsets log (hist ++ fs) a k where
  apply := ho.apply.append (le_trans ho.count_le hk)
  applyOff := ho.applyOff
  commit := ho.commit.append hk
  commitOff := ho.commitOff
  pos_le := ho.pos_le
  count_le := ho.count_le

theorem FollowerInv.extend (hf : FollowerInv log hist a g) : FollowerInv log (hist ++ fs) a g where
  window := by
    rw [List.take_append_of_le_length hf.stored_le]
    exact hf.window
  endOff := by
    rw [logPos, pos_append (le_trans hf.ended_le hf.stored_le)]
    exact hf.endOff
  empty := hf.empty
  offsets := hf.offsets.extend (le_trans hf.commitCount (le_trans hf.ended_le hf.stored_le))
  commit_le := by
    rw [logPos, pos_append (le_trans hf.ended_le hf.stored_le)]
    exact hf.commit_le
  commitCount := hf.commitCount
  ended_le := hf.ended_le
  stored_le := le_trans hf.stored_le (by simp)

/-- What the writes on their way do does not depend on entries appended later. -/
theorem Lands.extend (hl : Lands len hist g ws g') (he : g.ended ≤ g.stored)
    (hs : g.stored ≤ hist.length) : Lands len (hist ++ fs) g ws g' := by
  induction hl with
  | nil g => exact .nil g
  | entries hlt hn hle _ ih =>
    have hend : pos entryFormat len (hist ++ fs) _ = _ := pos_append (le_trans he hs)
    have hstop : pos entryFormat len (hist ++ fs) _ = _ := pos_append hn
    rw [← hend, ← hstop]
    exact .entries hlt (le_trans hn (by simp)) hle (ih hlt.le hn)
  | end_ _ ih =>
    have hend : pos entryFormat len (hist ++ fs) _ = _ := pos_append hs
    rw [← hend]
    exact .end_ (ih (le_refl _) hs)
  | commit hk hoff hpos hcount hend hended _ ih =>
    refine .commit (hk.append (by omega)) hoff hpos hcount ?_ hended (ih he hs)
    rw [pos_append (le_trans he hs)]
    exact hend

/-! ### Writes on their way -/

/-- The writes only move a follower forward. -/
theorem Lands.mono (hl : Lands len hist g ws g') (he : g.ended ≤ g.stored) :
    g.stored ≤ g'.stored ∧ g.ended ≤ g'.ended ∧ g'.ended ≤ g'.stored ∧
      g.commit.pos ≤ g'.commit.pos ∧ g.commit.count ≤ g'.commit.count := by
  induction hl with
  | nil g => exact ⟨le_refl _, le_refl _, he, le_refl _, le_refl _⟩
  | entries hlt hn hle _ ih =>
    obtain ⟨h1, h2, h3, h4, h5⟩ := ih hlt.le
    exact ⟨le_trans hle h1, h2, h3, h4, h5⟩
  | end_ _ ih =>
    obtain ⟨h1, h2, h3, h4, h5⟩ := ih (le_refl _)
    exact ⟨h1, le_trans he h2, h3, h4, h5⟩
  | commit hk hoff hpos hcount hend hended _ ih =>
    obtain ⟨h1, h2, h3, h4, h5⟩ := ih he
    exact ⟨h1, h2, h3, le_trans hpos h4, le_trans hcount h5⟩

theorem Lands.stored_le (hl : Lands len hist g ws g') (he : g.ended ≤ g.stored)
    (hs : g.stored ≤ hist.length) : g'.stored ≤ hist.length := by
  induction hl with
  | nil g => exact hs
  | entries hlt hn _ _ ih => exact ih hlt.le hn
  | end_ _ ih => exact ih (le_refl _) hs
  | commit _ _ _ _ _ _ _ ih => exact ih he hs

/-- The writes keep a follower's commit offset before its end. -/
theorem Lands.commit_le (hl : Lands len hist g ws g') (hlen : 0 < len)
    (hpos : g.commit.pos ≤ pos entryFormat len hist g.ended) (hcount : g.commit.count ≤ g.ended)
    (he : g.ended ≤ g.stored) :
    g'.commit.pos ≤ pos entryFormat len hist g'.ended ∧ g'.commit.count ≤ g'.ended := by
  induction hl with
  | nil g => exact ⟨hpos, hcount⟩
  | entries hlt _ _ _ ih => exact ih hpos hcount hlt.le
  | end_ _ ih => exact ih (le_trans hpos (pos_mono hlen he)) (le_trans hcount he) (le_refl _)
  | commit _ _ _ _ hend hended _ ih => exact ih hend hended he

/-- Writes that are not signaled do not change the entries of a follower. -/
theorem Lands.unsignaled (hl : Lands len hist g ws g') (hw : ∀ w ∈ ws, w.isSignaled = false) :
    g'.stored = g.stored ∧ g'.ended = g.ended := by
  induction hl with
  | nil g => exact ⟨rfl, rfl⟩
  | entries => exact absurd (hw _ List.mem_cons_self) (by simp [RdmaWrite.isSignaled])
  | end_ => exact absurd (hw _ List.mem_cons_self) (by simp [RdmaWrite.isSignaled])
  | commit _ _ _ _ _ _ _ ih => exact ih fun w hmem => hw w (List.mem_cons_of_mem _ hmem)

/-- One more write. -/
theorem Lands.append {w : RdmaWrite} {g'' : Stage} (hl : Lands len hist g ws g')
    (hw : Lands len hist g' [w] g'') : Lands len hist g (ws ++ [w]) g'' := by
  induction hl with
  | nil g => exact hw
  | entries hlt hn hle _ ih => exact .entries hlt hn hle (ih hw)
  | end_ _ ih => exact .end_ (ih hw)
  | commit hk hoff hpos hcount hend hended _ ih => exact .commit hk hoff hpos hcount hend hended (ih hw)

/-! ### The leader's log -/

theorem Offsets.of_eq (ho : Offsets log hist a k) (hlen : log'.len = log.len)
    (happly : log'.apply = log.apply) (hcommit : log'.commit = log.commit) :
    Offsets log' hist a k := by
  obtain ⟨h1, h2, h3, h4, h5, h6⟩ := ho
  rw [← hlen] at h1 h2 h3 h4
  exact ⟨h1, by rw [happly]; exact h2, h3, by rw [hcommit]; exact h4, h5, h6⟩

/-- The entry that an append adds to the history; a full log rejects it. -/
def appendedEntry (log : DareLog) (term reqId : UInt64) (cltId : UInt16) (type : UInt8)
    (data : EntryData) : List DareLogEntry :=
  if log.end_ = log.head then [] else [mkEntry (logNewIdx log) term reqId cltId type data]

/-- An append extends the history, unless the log is full. -/
theorem LeaderInv.append {term reqId : UInt64} {cltId : UInt16} {type : UInt8} {data : EntryData}
    {idx : UInt64} (hl : LeaderInv log hist h a k) (hroom : AppendRoom log type data)
    (hok : endAfterAppend log type data ≠ log.len)
    (happend : logAppendEntry log term reqId cltId type data = some (log', idx)) :
    LeaderInv log' (hist ++ appendedEntry log term reqId cltId type data) h a k ∧ log'.len = log.len := by
  by_cases hfull : log.end_ = log.head
  · -- a full log rejects the entry
    rw [logAppendEntry_of_full hl.tail hfull] at happend
    obtain ⟨rfl, -⟩ := Prod.mk.inj (Option.some.inj happend)
    rw [appendedEntry, if_pos hfull, List.append_nil]
    refine ⟨?_, rfl⟩
    exact ⟨hl.window, hl.headOff, hl.endOff, hl.tail, hl.empty, hl.offsets.of_eq rfl rfl rfl,
      hl.head_le, hl.commit_le, hl.commitCount⟩
  · obtain ⟨log'', heq, happ⟩ := logAppendEntry_spec term reqId cltId hl.tail hl.endsAt hl.headOff hl.window.le_end hl.window.window hfull hroom
    rw [heq] at happend
    obtain ⟨rfl, -⟩ := Prod.mk.inj (Option.some.inj happend)
    -- the new entry ends before `head`
    have hplace := hroom.place_lt hl.endsAt hl.headOff hl.window.le_end hl.window.window
    have hsize := mkEntry_size (logNewIdx log) term reqId cltId type data
    rw [endAfterAppend_eq hl.endsAt hroom.size_lt.le, ← hsize] at hok
    rw [← hsize] at hplace
    rw [appendedEntry, if_neg hfull]
    generalize mkEntry (logNewIdx log) term reqId cltId type data = e at happ hplace hok
    have hlen := happ.len
    have hmono : logPos log hist hist.length ≤ logPos log (hist ++ [e]) (hist ++ [e]).length := by
      have hold : logPos log (hist ++ [e]) hist.length = logPos log hist hist.length :=
        pos_append (le_refl _)
      rw [← hold]
      exact pos_mono hl.window.len_pos (by simp)
    refine ⟨⟨hl.window.appended happ hplace, ?_, ?_, ?_, ?_, ?_, hl.head_le, ?_, ?_⟩, hlen⟩
    · rw [hlen, happ.head]
      exact hl.headOff
    · exact (LogWindow.endsAt_appended hl.endsAt happ).offset
    · left
      rw [happ.tail, hlen]
      exact (Nat.mod_lt _ hl.window.len_pos).ne
    · exact fun hcon => absurd hcon (happ.end_ne_len_iff.mpr hok)
    · exact (hl.offsets.extend hl.commitCount).of_eq hlen happ.apply happ.commit
    · rw [logPos, hlen]
      exact le_trans hl.commit_le hmono
    · exact le_trans hl.commitCount (by simp)

/-- A reply byte is not part of the history. -/
theorem LeaderInv.ack {visited : List Nat} {stop o i : Nat} {b : UInt8}
    (hl : LeaderInv log hist h a k) (hi : i < MAX_SERVER_COUNT)
    (hwalk : readerWalk log (walkFuel log) log.head = some (visited, stop)) (ho : o ∈ visited) :
    LeaderInv { log with entries := setReply log.entries o i b } hist h a k := by
  have hmem : o ∈ Lib.offsets entryFormat log.len h.pos (hist.drop h.count) := by
    by_cases hne : log.end_ = log.len
    · rw [walkFuel, readerWalk, logGetEntry_of_end_eq_len hne] at hwalk
      obtain ⟨rfl, -⟩ := Prod.mk.inj (Option.some.inj hwalk)
      cases ho
    · have hc := hl.window.cursor hl.headOff
      obtain ⟨stop', hwalk', -⟩ := hc.readerWalk hl.endsAt hne (hc.fuel hl.endsAt)
      rw [hwalk] at hwalk'
      obtain ⟨rfl, -⟩ := Prod.mk.inj (Option.some.inj hwalk')
      exact ho
  exact ⟨hl.window.setReply hmem hi, hl.headOff, hl.endOff, hl.tail, hl.empty,
    hl.offsets.of_eq rfl rfl rfl, hl.head_le, hl.commit_le, hl.commitCount⟩

/-- Advancing `head` to an offset from which the apply offset is reached. -/
theorem LeaderInv.prune {visited vs : List Nat} (hl : LeaderInv log hist h a k)
    (hw : WalkTo log log.head visited off) (ha : WalkTo log off vs log.apply) :
    ∃ h' : Spot, LeaderInv { log with head := off } hist h' a k ∧
      ∀ {w off' : Nat} {vs : List Nat}, WalkTo log off vs off' → IsOffset log.len w off' →
        h.pos ≤ w → w ≤ logPos log hist hist.length → h'.pos ≤ w := by
  have happly := hl.offsets.applyOff
  have hle := hl.offsets.pos_le
  have hend := hl.commit_le
  by_cases hne : log.end_ = log.len
  · obtain ⟨-, rfl⟩ := hw.of_end_eq_len hne
    exact ⟨h, ⟨hl.window, hl.headOff, hl.endOff, hl.tail, hl.empty, hl.offsets.of_eq rfl rfl rfl,
      hl.head_le, hl.commit_le, hl.commitCount⟩, fun _ _ hw _ => hw⟩
  · obtain ⟨u, hu, hwin, huoff⟩ := hl.window.walkTo hl.endsAt hne hl.headOff hw
    have hback : ∀ {w off' : Nat} {vs : List Nat}, WalkTo log off vs off' → IsOffset log.len w off' →
        h.pos ≤ w → w ≤ logPos log hist hist.length → u ≤ w := by
      intro w off' vs hwalk hoff hlo hhi
      obtain ⟨w', huw', hwin', hoff'⟩ := hwin.walkTo hl.endsAt hne huoff hwalk
      have hwindow : logPos log hist hist.length < h.pos + log.len := hl.window.window
      have hend' : w' ≤ logPos log hist hist.length := hwin'.le_end
      have heq := hoff.eq_of_lt hoff' (by omega) (by omega)
      omega
    exact ⟨⟨_, u⟩, ⟨hwin, huoff, hl.endOff, hl.tail, hl.empty, hl.offsets.of_eq rfl rfl rfl,
      hback ha happly hl.head_le (by omega), hl.commit_le, hl.commitCount⟩, hback⟩

/-- The commit offset moves over acknowledged entries. -/
theorem LeaderInv.updateCommit {idx size : Nat} {passes : List Pass}
    (hl : LeaderInv log hist h a k) (hok : CommitOkFrom log idx size log.commit)
    (hupdate : Apus.updateCommit log idx size = some (log', passes)) :
    ∃ k' : Spot, LeaderInv log' hist h a k' ∧ log'.len = log.len ∧ k.pos ≤ k'.pos ∧
      k.count ≤ k'.count ∧ hist.take k'.count = hist.take k.count ++ passes.map Pass.entry ∧
      ∀ p ∈ passes, p.Acked := by
  obtain ⟨⟨stop, passed⟩, hwalk, hr⟩ := Option.map_eq_some_iff.mp hupdate
  by_cases hlarger : logIsOffsetLarger log stop log.commit = true
  · rw [if_pos hlarger] at hr
    obtain ⟨rfl, rfl⟩ := Prod.mk.inj hr
    have hne : log.end_ ≠ log.len := by
      intro hcon
      rw [logIsOffsetLarger_of_end_eq_len hcon] at hlarger
      cases hlarger
    have hcommit := hl.offsets.commitOff
    have hwin : LogWindow log hist k.count k.pos := hl.window.advance hl.offsets.commit.mark
      hl.commitCount (le_trans hl.head_le hl.offsets.pos_le) hl.commit_le
    have hfuel := (hwin.cursor hcommit).fuel hl.endsAt
    rw [List.length_drop] at hfuel
    obtain ⟨stop', passes, j, w, hr, hwin', hsoft, hoff, hkj, hkw, htake, hacked⟩ :=
      commitWalk_spec hl.endsAt hne hwin hcommit hl.offsets.commit hok hfuel
    rw [hwalk] at hr
    obtain ⟨rfl, rfl⟩ := Prod.mk.inj (Option.some.inj hr)
    exact ⟨⟨j, w⟩, ⟨hl.window, hl.headOff, hl.endOff, hl.tail, hl.empty,
      ⟨hl.offsets.apply, hl.offsets.applyOff, hsoft, hoff, le_trans hl.offsets.pos_le hkw,
        le_trans hl.offsets.count_le hkj⟩, hl.head_le, hwin'.le_end, hwin'.lo_le⟩,
      rfl, hkw, hkj, htake, hacked⟩
  · rw [if_neg hlarger] at hr
    obtain ⟨rfl, rfl⟩ := Prod.mk.inj hr
    exact ⟨k, hl, rfl, le_refl _, le_refl _, by simp, by simp⟩

/-! ### The apply offset -/

/-- The loop of the leader goes on if the apply offset is before the commit offset. -/
theorem LeaderInv.applies (hl : LeaderInv log hist h a k) (hguard : applyGuard log = true) :
    ∃ e entry, hist[a.count]? = some e ∧ logGetEntry log log.apply = some entry ∧
      (Rewinds log hist a.count a.pos k.pos entry e ∨
        Applies log hist a.count k.count a.pos k.pos entry e) := by
  have ho := hl.offsets
  have hpos := ho.pos_le
  have hhead := hl.head_le
  have hend := hl.commit_le
  have hlt := (hl.larger_iff ho.commitOff ho.applyOff (by omega) hhead hend (by omega)).mp hguard
  have hne : log.end_ ≠ log.len := by
    intro hcon
    rw [applyGuard, logIsOffsetLarger_of_end_eq_len hcon] at hguard
    cases hguard
  have hwin : LogWindow log hist a.count a.pos := hl.window.advance ho.apply.mark
    (le_trans ho.count_le hl.commitCount) hhead (le_trans hpos hend)
  exact hwin.applies hl.endsAt hne ho.applyOff ho.apply ho.commit hlt hend

theorem LeaderInv.rewind {entry : Nat} (hl : LeaderInv log hist h a k)
    (hr : Rewinds log hist a.count a.pos k.pos entry e) :
    LeaderInv { log with apply := 0 } hist h ⟨a.count, place log.len a.pos e.size⟩ k :=
  ⟨hl.window, hl.headOff, hl.endOff, hl.tail, hl.empty,
    ⟨hr.soft, hr.offset, hl.offsets.commit, hl.offsets.commitOff, hr.le, hl.offsets.count_le⟩,
    le_trans hl.head_le (le_place hl.window.len_pos), hl.commit_le, hl.commitCount⟩

/-- The apply offset moves past an entry, which is still where it was found. -/
theorem LeaderInv.advanceApply {entry : Nat} (hl : LeaderInv log hist h a k)
    (he : hist[a.count]? = some e) (hentry : place log.len a.pos e.size % log.len = entry)
    (hlt : a.count < k.count) (hle : logPos log hist (a.count + 1) ≤ k.pos) :
    LeaderInv (advanceApply log entry) hist h ⟨a.count + 1, logPos log hist (a.count + 1)⟩ k := by
  have ho := hl.offsets
  have hwin : LogWindow log hist a.count a.pos := hl.window.advance ho.apply.mark
    (le_trans ho.count_le hl.commitCount) hl.head_le (le_trans ho.pos_le hl.commit_le)
  have hc := hwin.cursor ho.applyOff
  rw [drop_eq_cons he] at hc
  have hentryLen := readEntry_size log.entries entry
  rw [← hentry, hc.read] at hentryLen
  obtain ⟨-, heq⟩ := hwin.place_add_le he
  have hplace : a.pos ≤ place log.len a.pos e.size := le_place hwin.len_pos
  refine ⟨hl.window, hl.headOff, hl.endOff, hl.tail, hl.empty, ⟨SoftMark.pos _, ?_, ho.commit,
    ho.commitOff, hle, hlt⟩, ?_, hl.commit_le, hl.commitCount⟩
  · show IsOffset log.len (logPos log hist (a.count + 1)) (entry + logEntryLen log.entries entry)
    rw [← heq, ← hentry, ← hentryLen]
    exact (isOffset_mod hwin.len_pos).add (place_mod_add_le hc.chain.1.size_le)
  · have hhead := hl.head_le
    show h.pos ≤ logPos log hist (a.count + 1)
    omega

/-! ### The follower's log -/

/-- The first of the writes on their way takes effect. -/
theorem FollowerInv.land {ldr : DareLog} {la lk : Spot} {w : RdmaWrite}
    (hl : LeaderInv ldr hist h la lk) (hf : FollowerInv log hist a g) (hlen : log.len = ldr.len)
    (hhead : h.pos ≤ a.pos) (hland : Lands log.len hist g (w :: ws) v) :
    ∃ g', FollowerInv (landWrite log ldr.entries w) hist a g' ∧ Lands log.len hist g' ws v ∧
      g.ended ≤ g'.ended ∧ g.stored ≤ g'.stored := by
  have ho := hf.offsets
  have hpos : 0 < log.len := hf.window.len_pos
  have hcounts : a.count ≤ g.ended := le_trans ho.count_le hf.commitCount
  have hended : g.ended ≤ hist.length := le_trans hf.ended_le hf.stored_le
  cases hland with
  | @entries _ _ _ n hlt hn hle hrest =>
    refine ⟨{ g with stored := n }, ⟨?_, hf.endOff, hf.empty, ho.of_eq rfl rfl rfl, hf.commit_le, hf.commitCount,
      hlt.le, hn⟩, hrest, le_refl _, hle⟩
    -- only the entries before the end are known to be the leader's
    have hbefore : LogWindow log ((hist.take g.stored).take g.ended) a.count a.pos := by
      refine hf.window.take hcounts ?_ ?_
      · rw [List.length_take_of_le hf.stored_le]
        exact hf.ended_le
      · rw [pos_take hf.ended_le]
        exact le_trans ho.pos_le hf.commit_le
    rw [List.take_take, Nat.min_eq_left hf.ended_le] at hbefore
    have hldr : Window entryFormat ldr.entries log.len hist h.count h.pos := by
      rw [hlen]
      exact hl.window
    exact LogWindow.copied hldr hbefore hhead hlt hn rfl rfl
  | end_ hrest =>
    have hmono : logPos log hist g.ended ≤ logPos log hist g.stored := pos_mono hpos hf.ended_le
    refine ⟨{ g with ended := g.stored }, ⟨hf.window, isOffset_mod hpos, fun hcon => ?_, ho.of_eq rfl rfl rfl,
      le_trans hf.commit_le hmono, le_trans hf.commitCount hf.ended_le, le_refl _, hf.stored_le⟩,
      hrest, hf.ended_le, le_refl _⟩
    exact absurd hcon (Nat.mod_lt _ hpos).ne
  | @commit _ _ _ k _ hk hoff hkpos hcount hend hkended hrest =>
    exact ⟨{ g with commit := k }, ⟨hf.window, hf.endOff, hf.empty, ⟨ho.apply, ho.applyOff, hk, hoff,
      le_trans ho.pos_le hkpos, le_trans ho.count_le hcount⟩, hend, hkended, hf.ended_le,
      hf.stored_le⟩, hrest, le_refl _, le_refl _⟩

/-- An iteration of the follower's loop goes past the next entry of the history, or moves to where
    that entry is. -/
theorem FollowerInv.applyIter {es : List DareLogEntry} (hf : FollowerInv log hist a g)
    (hguard : applyGuard log = true) (hiter : applyIterFollower log = some (log', es)) :
    ∃ a' : Spot, FollowerInv log' hist a' g ∧ log'.len = log.len ∧ a.pos ≤ a'.pos ∧
      hist.take a'.count = hist.take a.count ++ es := by
  have ho := hf.offsets
  have hpos := ho.pos_le
  have hend := hf.commit_le
  have hstored : (hist.take g.stored).length = g.stored := List.length_take_of_le hf.stored_le
  have hended : g.ended ≤ hist.length := le_trans hf.ended_le hf.stored_le
  have hlength : (hist.take g.ended).length = g.ended := List.length_take_of_le hended
  have hne : log.end_ ≠ log.len := by
    intro hcon
    rw [applyGuard, logIsOffsetLarger_of_end_eq_len hcon] at hguard
    cases hguard
  have hlt := (hf.larger_iff ho.commitOff ho.applyOff hpos (le_refl _) hend (by omega)).mp hguard
  -- the loop reads the entries before the end
  have hcounts : a.count ≤ g.ended := le_trans ho.count_le hf.commitCount
  have hwin : LogWindow log (hist.take g.ended) a.count a.pos := by
    have hbefore := hf.window.take hcounts (by rw [hstored]; exact hf.ended_le)
      (by rw [pos_take hf.ended_le]; exact le_trans hpos hend)
    rwa [List.take_take, Nat.min_eq_left hf.ended_le] at hbefore
  have hstop : logPos log (hist.take g.ended) (hist.take g.ended).length =
      logPos log hist g.ended := by
    rw [hlength]
    exact pos_take (le_refl _)
  obtain ⟨e, entry, he, hget, hcases⟩ := hwin.applies (by rw [hstop]; exact hf.endsAt) hne
    ho.applyOff (ho.apply.take hwin.len_pos hcounts (le_trans hpos hend))
    (ho.commit.take hwin.len_pos hf.commitCount hend) hlt (by rw [hstop]; exact hend)
  rw [applyIterFollower, hget] at hiter
  have hget' : hist[a.count]? = some e := by
    rw [List.getElem?_take] at he
    split at he
    · exact he
    · cases he
  have he' : (hist.take g.stored)[a.count]? = some e := by
    rw [List.getElem?_take_of_lt (lt_of_lt_of_le ?_ hf.ended_le)]
    · exact hget'
    · rw [← hlength]
      exact (List.getElem?_eq_some_iff.mp he).1
  rcases hcases with hr | happ
  · simp only [hr.fit, Bool.not_false, if_true, Option.some.injEq, Prod.mk.injEq] at hiter
    obtain ⟨rfl, rfl⟩ := hiter
    refine ⟨⟨a.count, place log.len a.pos e.size⟩, ⟨hf.window.at_place he', hf.endOff, hf.empty,
      ⟨hr.soft.of_take hcounts hended, hr.offset, ho.commit, ho.commitOff, hr.le, ho.count_le⟩,
      hend, hf.commitCount, hf.ended_le, hf.stored_le⟩, rfl, le_place hwin.len_pos, by simp⟩
  · simp only [happ.fit, Bool.not_true, Bool.false_eq_true, if_false, Option.some.injEq,
      Prod.mk.injEq] at hiter
    obtain ⟨rfl, rfl⟩ := hiter
    have hlt' := happ.lt
    have hnext : logPos log (hist.take g.ended) (a.count + 1) = logPos log hist (a.count + 1) :=
      pos_take (le_trans hlt' hf.commitCount)
    have hnext' : logPos log (hist.take g.stored) (a.count + 1) = logPos log hist (a.count + 1) :=
      pos_take (le_trans hlt' (le_trans hf.commitCount hf.ended_le))
    have hoff := happ.offset
    have hle := happ.le
    have hplace : a.pos ≤ place log.len a.pos e.size := le_place hwin.len_pos
    have hstep := (hwin.place_add_le he).2
    rw [hnext] at hoff hle hstep
    have hnextWin := hf.window.next he'
    rw [hnext'] at hnextWin
    refine ⟨⟨a.count + 1, logPos log hist (a.count + 1)⟩, ⟨hnextWin, hf.endOff, hf.empty,
      ⟨SoftMark.pos _, hoff, ho.commit, ho.commitOff, hle, hlt'⟩, hend, hf.commitCount,
      hf.ended_le, hf.stored_le⟩, rfl, ?_, ?_⟩
    · show a.pos ≤ logPos log hist (a.count + 1)
      omega
    · rw [List.take_add_one, hget', happ.read]
      rfl

end Apus
