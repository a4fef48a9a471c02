import Apus.Group.Departures
import Apus.Log.Window

namespace Apus

open Lib

/-!
# Polling CONFIG and HEAD entries

`poll_config_entries` goes over the log from `cid_offset` to the end.  It takes the configurations of
all CONFIG entries, and the head offset of the HEAD entries that are committed; then `cid_offset` is
moved to the commit offset.  The test for a committed entry lets one pass that starts at the commit
offset, which is the first one that is not committed.

* `lastConfig`, `lastHead` — the entries that count;
* `Cursor.foldlM_pollConfigEntry` — the loop is one over the entries of the log;
* `followsLog_iff` — when the configuration, the head and `cid_offset` follow the log.
-/

/-! ### The function -/

/-- What `poll_config_entries` reads and writes. -/
structure ConfigState where
  log : DareLog
  idx : Nat
  cid : DareCid
  cidOffset : Nat
  cidIdx : UInt64
  reqId : UInt64
  cltId : UInt16
  /-- `dare_state & SNAPSHOT`. -/
  snapshot : Bool

/-- What its loop writes. -/
structure Polled where
  cid : DareCid
  reqId : UInt64
  cltId : UInt16
  headOffset : Nat
  snapshot : Bool

inductive ConfigPoll
  /-- A configuration was taken that the server is not part of. -/
  | shutdown
  | done (s : ConfigState)

/-- The body of the loop, for the entry `e` that passes the test for a committed one or not; `none` if
    the server shuts down. -/
def pollStep (idx : Nat) (cidIdx : UInt64) (committed : Bool) (p : Polled) (e : DareLogEntry) :
    Option Polled :=
  if e.type = CONFIG then
    if cidIdx < e.idx then
      match updateCid p.cid idx e.cid with
      | .unchanged => some p
      | .shutdown _ => none
      | .updated _ => some { p with cid := e.cid, reqId := e.reqId, cltId := e.cltId }
    else some p
  else if e.type = HEAD ∧ committed = true then
    some { p with headOffset := e.head.toNat, snapshot := false }
  else some p

namespace ConfigState

variable (s : ConfigState)

/-- The body of the loop for the entry at `offset`. -/
def pollConfigEntry (p : Polled) (offset : Nat) : Option Polled :=
  pollStep s.idx s.cidIdx (!logIsOffsetLarger s.log offset s.log.commit) p
    (readEntry s.log.entries offset)

/-- `poll_config_entries`; its loop goes over the log as that of `apply_committed_entries` does.
    `none` if it does not end. -/
def pollConfigEntries : Option ConfigPoll :=
  (readerWalk s.log (walkFuel s.log) s.cidOffset).map fun r =>
    match r.1.foldlM s.pollConfigEntry ⟨s.cid, s.reqId, s.cltId, s.log.head, s.snapshot⟩ with
    | none => .shutdown
    | some p => .done { s with
        cid := p.cid
        reqId := p.reqId
        cltId := p.cltId
        snapshot := p.snapshot
        cidOffset := if logIsOffsetLarger s.log r.2 s.log.commit then s.log.commit else r.2
        log :=
          if logIsOffsetLarger s.log p.headOffset s.log.head then { s.log with head := p.headOffset }
          else s.log }

end ConfigState

/-! ### The entries that count -/

/-- The last member of a list that passes a test. -/
def lastOf {α : Type} (q : α → Bool) (es : List α) : Option α := (es.filter q).getLast?

theorem lastOf_cons {α : Type} (q : α → Bool) (e : α) (es : List α) :
    lastOf q (e :: es) = (lastOf q es).or (if q e then some e else none) := by
  unfold lastOf
  by_cases h : q e = true
  · rw [List.filter_cons_of_pos h, List.getLast?_cons, if_pos h]
    cases (es.filter q).getLast? <;> rfl
  · rw [List.filter_cons_of_neg h, if_neg h, Option.or_none]

theorem lastOf_append {α : Type} (q : α → Bool) (es fs : List α) :
    lastOf q (es ++ fs) = (lastOf q fs).or (lastOf q es) := by
  unfold lastOf
  rw [List.filter_append, List.getLast?_append]

/-- The configuration of the last CONFIG entry with an index larger than `cid_idx`. -/
def lastConfig (cidIdx : UInt64) (es : List DareLogEntry) : Option DareCid :=
  (lastOf (fun e => e.type == CONFIG && decide (cidIdx < e.idx)) es).map DareLogEntry.cid

/-- The head offset of the last HEAD entry. -/
def lastHead (es : List DareLogEntry) : Option Nat :=
  (lastOf (fun e => e.type == HEAD) es).map fun e => e.head.toNat

theorem lastConfig_cons (cidIdx : UInt64) (e : DareLogEntry) (es : List DareLogEntry) :
    lastConfig cidIdx (e :: es) = (lastConfig cidIdx es).or
      (if e.type == CONFIG && decide (cidIdx < e.idx) then some e.cid else none) := by
  rw [lastConfig, lastOf_cons, Option.map_or, apply_ite (Option.map DareLogEntry.cid)]
  rfl

theorem lastConfig_append (cidIdx : UInt64) (es fs : List DareLogEntry) :
    lastConfig cidIdx (es ++ fs) = (lastConfig cidIdx fs).or (lastConfig cidIdx es) := by
  rw [lastConfig, lastOf_append, Option.map_or]
  rfl

theorem lastHead_append (es fs : List DareLogEntry) :
    lastHead (es ++ fs) = (lastHead fs).or (lastHead es) := by
  rw [lastHead, lastOf_append, Option.map_or]
  rfl

variable {idx V v c off : Nat} {cidIdx : UInt64} {committed : Bool} {p p' : Polled} {e : DareLogEntry}
  {ds es fs : List DareLogEntry} {s s' : ConfigState}

/-- The configuration after an iteration. -/
theorem cid_pollStep (h : pollStep idx cidIdx committed p e = some p') :
    p'.cid = if e.type == CONFIG && decide (cidIdx < e.idx) then e.cid else p.cid := by
  unfold pollStep at h
  split at h
  · rename_i htype
    split at h
    · rename_i hidx
      rw [htype, decide_eq_true hidx, beq_self_eq_true, Bool.and_self, if_pos rfl]
      split at h
      · rename_i hupdate
        obtain rfl := Option.some.inj h
        -- `update_cid` leaves an equal configuration alone
        rw [updateCid] at hupdate
        split at hupdate
        · rename_i hequal
          exact (equalCid_iff _ _).mp hequal
        · exact absurd hupdate (departureLoop_ne_unchanged _ _)
      · cases h
      · obtain rfl := Option.some.inj h
        rfl
    · rename_i hidx
      obtain rfl := Option.some.inj h
      rw [decide_eq_false hidx, Bool.and_false, if_neg Bool.false_ne_true]
  · rename_i htype
    have hne : (e.type == CONFIG) = false := beq_eq_false_iff_ne.mpr htype
    rw [hne, Bool.false_and, if_neg Bool.false_ne_true]
    split at h
    · obtain rfl := Option.some.inj h
      rfl
    · obtain rfl := Option.some.inj h
      rfl

/-- The head offset after an iteration. -/
theorem headOffset_pollStep (h : pollStep idx cidIdx committed p e = some p') :
    p'.headOffset = if e.type = HEAD ∧ committed = true then e.head.toNat else p.headOffset := by
  have hne : HEAD ≠ CONFIG := by decide
  unfold pollStep at h
  split at h
  · rename_i htype
    rw [if_neg fun hcon => hne (hcon.1.symm.trans htype)]
    split at h
    · split at h
      · obtain rfl := Option.some.inj h
        rfl
      · cases h
      · obtain rfl := Option.some.inj h
        rfl
    · obtain rfl := Option.some.inj h
      rfl
  · split at h
    · rename_i hhead
      obtain rfl := Option.some.inj h
      rw [if_pos hhead]
    · rename_i hhead
      obtain rfl := Option.some.inj h
      rw [if_neg hhead]

/-- The configuration after the loop. -/
theorem cid_foldlM (h : es.foldlM (pollStep idx cidIdx committed) p = some p') :
    p'.cid = (lastConfig cidIdx es).getD p.cid := by
  induction es generalizing p with
  | nil =>
    obtain rfl := Option.some.inj h
    rfl
  | cons e es ih =>
    rw [List.foldlM_cons] at h
    obtain ⟨q, hstep, hrest⟩ := Option.bind_eq_some_iff.mp h
    rw [ih hrest, cid_pollStep hstep, lastConfig_cons]
    cases lastConfig cidIdx es with
    | some last => rfl
    | none => split <;> rfl

/-- The head offset after the loop over committed entries. -/
theorem headOffset_foldlM (h : es.foldlM (pollStep idx cidIdx true) p = some p') :
    p'.headOffset = (lastHead es).getD p.headOffset := by
  induction es generalizing p with
  | nil =>
    obtain rfl := Option.some.inj h
    rfl
  | cons e es ih =>
    rw [List.foldlM_cons] at h
    obtain ⟨q, hstep, hrest⟩ := Option.bind_eq_some_iff.mp h
    rw [ih hrest, headOffset_pollStep hstep, lastHead, lastHead, lastOf_cons]
    cases lastOf (fun e => e.type == HEAD) es with
    | some last => rfl
    | none =>
      by_cases hhead : e.type = HEAD
      · simp [hhead]
      · simp [hhead]

/-- Other entries do not move it. -/
theorem headOffset_foldlM_false (h : es.foldlM (pollStep idx cidIdx false) p = some p') :
    p'.headOffset = p.headOffset := by
  induction es generalizing p with
  | nil =>
    obtain rfl := Option.some.inj h
    rfl
  | cons e es ih =>
    rw [List.foldlM_cons] at h
    obtain ⟨q, hstep, hrest⟩ := Option.bind_eq_some_iff.mp h
    rw [ih hrest, headOffset_pollStep hstep, if_neg fun hcon => Bool.false_ne_true hcon.2]

/-- Only a server that departs shuts down. -/
theorem departs_of_departureLoop {old new : DareCid} {disconnected is ds : List Nat}
    (h : departureLoop old new idx disconnected is = .shutdown ds) : departs old new idx = true := by
  induction is generalizing disconnected with
  | nil => cases h
  | cons i is ih =>
    rw [departureLoop] at h
    split at h
    · rename_i hdeparts
      split at h
      · rename_i heq
        rw [← heq]
        exact hdeparts
      · exact ih h
    · exact ih h

/-- An iteration in which the server goes on. -/
theorem pollStep_isSome (hon : e.type = CONFIG → cidIsServerOn e.cid idx = true) :
    ∃ p', pollStep idx cidIdx committed p e = some p' := by
  unfold pollStep
  split
  · rename_i htype
    split
    · split
      · exact ⟨p, rfl⟩
      · rename_i hshutdown
        rw [updateCid] at hshutdown
        split at hshutdown
        · cases hshutdown
        · have hdeparts := departs_of_departureLoop hshutdown
          rw [departs, hon htype] at hdeparts
          cases hdeparts
      · exact ⟨_, rfl⟩
    · exact ⟨p, rfl⟩
  · split
    · exact ⟨_, rfl⟩
    · exact ⟨p, rfl⟩

/-! ### The loop over the log -/

/-- The entry in front of a cursor is tested by its place. -/
theorem Cursor.pollConfigEntry (hV : EndsAt s.log V) (hne : s.log.end_ ≠ s.log.len)
    (hc : Cursor s.log V v off (e :: es)) (hcommit : Cursor s.log V c s.log.commit fs) (p : Polled) :
    s.pollConfigEntry p (place s.log.len v e.size % s.log.len) =
      pollStep s.idx s.cidIdx (decide (place s.log.len v e.size ≤ c)) p e := by
  have hle : v ≤ place s.log.len v e.size := le_place hV.len_pos
  have hnext := (hc.next hV).le_end hV
  have hwindow := hc.window
  have hlarger : logIsOffsetLarger s.log (place s.log.len v e.size % s.log.len) s.log.commit = true ↔
      c < place s.log.len v e.size :=
    logIsOffsetLarger_iff_lt hV hne (isOffset_mod hV.len_pos) hcommit.offset (by omega)
      (hcommit.le_end hV) (by omega) hcommit.window
  have hflag : (!logIsOffsetLarger s.log (place s.log.len v e.size % s.log.len) s.log.commit) =
      decide (place s.log.len v e.size ≤ c) := by
    by_cases hlt : c < place s.log.len v e.size
    · rw [hlarger.mpr hlt, decide_eq_false (by omega)]
      rfl
    · rw [Bool.eq_false_iff.mpr fun h => hlt (hlarger.mp h), decide_eq_true (by omega)]
      rfl
  rw [ConfigState.pollConfigEntry, hflag, hc.read]

/-- The loop over the entries before the commit offset. -/
theorem Cursor.foldlM_committed (hV : EndsAt s.log V) (hne : s.log.end_ ≠ s.log.len)
    (hc : Cursor s.log V v off (es ++ fs)) (hcommit : Cursor s.log V c s.log.commit fs)
    (hadvance : advance entryFormat s.log.len v es = c) (p : Polled) :
    (offsets entryFormat s.log.len v es).foldlM s.pollConfigEntry p =
      es.foldlM (pollStep s.idx s.cidIdx true) p := by
  induction es generalizing v off p with
  | nil => rfl
  | cons e es ih =>
    have hle : place s.log.len v e.size + e.size ≤ c := by
      rw [← hadvance]
      exact le_advance hV.len_pos es
    rw [offsets, List.foldlM_cons, List.foldlM_cons, entryFormat_size, hc.pollConfigEntry hV hne hcommit,
      decide_eq_true (by omega)]
    exact bind_congr fun q => ih (hc.next hV) hadvance q

/-- The loop over the entries behind the first that is not committed. -/
theorem Cursor.foldlM_behind (hV : EndsAt s.log V) (hne : s.log.end_ ≠ s.log.len)
    (hc : Cursor s.log V v off es) (hcommit : Cursor s.log V c s.log.commit fs) (hlt : c < v)
    (p : Polled) : (offsets entryFormat s.log.len v es).foldlM s.pollConfigEntry p =
      es.foldlM (pollStep s.idx s.cidIdx false) p := by
  induction es generalizing v off p with
  | nil => rfl
  | cons e es ih =>
    have hle : v ≤ place s.log.len v e.size := le_place hV.len_pos
    rw [offsets, List.foldlM_cons, List.foldlM_cons, entryFormat_size, hc.pollConfigEntry hV hne hcommit,
      decide_eq_false (by omega)]
    exact bind_congr fun q => ih (hc.next hV) (by omega) q

/-- The loop of a server that is part of all configurations. -/
theorem Cursor.foldlM_isSome (hV : EndsAt s.log V) (hne : s.log.end_ ≠ s.log.len)
    (hc : Cursor s.log V v off es) (hcommit : Cursor s.log V c s.log.commit fs)
    (hon : ∀ e ∈ es, e.type = CONFIG → cidIsServerOn e.cid s.idx = true) (p : Polled) :
    ∃ p', (offsets entryFormat s.log.len v es).foldlM s.pollConfigEntry p = some p' := by
  induction es generalizing v off p with
  | nil => exact ⟨p, rfl⟩
  | cons e es ih =>
    obtain ⟨hfirst, hrest⟩ := List.forall_mem_cons.mp hon
    obtain ⟨q, hstep⟩ := pollStep_isSome (p := p) hfirst
    obtain ⟨p', hloop⟩ := ih (hc.next hV) hrest q
    refine ⟨p', ?_⟩
    rw [offsets, List.foldlM_cons, entryFormat_size, hc.pollConfigEntry hV hne hcommit, hstep]
    exact hloop

/-- The head offset of a HEAD entry that starts at the commit offset. -/
def headAtCommit (len c : Nat) (fs : List DareLogEntry) : Option Nat :=
  fs.head?.bind fun e => if e.type = HEAD ∧ place len c e.size = c then some e.head.toNat else none

/-- **What the loop has taken from the log**: the configuration of the last CONFIG entry, and the head
    offset of the last HEAD entry before the commit offset, or of one that starts there. -/
theorem Cursor.foldlM_pollConfigEntry (hV : EndsAt s.log V) (hne : s.log.end_ ≠ s.log.len)
    (hc : Cursor s.log V v off (es ++ fs)) (hcommit : Cursor s.log V c s.log.commit fs)
    (hadvance : advance entryFormat s.log.len v es = c)
    (h : (offsets entryFormat s.log.len v (es ++ fs)).foldlM s.pollConfigEntry p = some p') :
    p'.cid = (lastConfig s.cidIdx (es ++ fs)).getD p.cid ∧
      p'.headOffset = (headAtCommit s.log.len c fs).getD ((lastHead es).getD p.headOffset) := by
  rw [offsets_append, hadvance, List.foldlM_append, hc.foldlM_committed hV hne hcommit hadvance] at h
  obtain ⟨q, hcommitted, hrest⟩ := Option.bind_eq_some_iff.mp h
  have hcid := cid_foldlM hcommitted
  have hhead := headOffset_foldlM hcommitted
  rw [lastConfig_append]
  -- the first entry behind the commit offset may be a HEAD entry that starts there
  cases fs with
  | nil =>
    obtain rfl := Option.some.inj hrest
    exact ⟨hcid, hhead⟩
  | cons e fs =>
    have hle : c ≤ place s.log.len c e.size := le_place hV.len_pos
    have hsize := e.entrySize_le_size
    have hpos : 0 < ENTRY_SIZE := by decide
    rw [offsets, List.foldlM_cons, entryFormat_size, hcommit.pollConfigEntry hV hne hcommit] at hrest
    obtain ⟨r, hfirst, hbehind⟩ := Option.bind_eq_some_iff.mp hrest
    -- the entries further behind are not ahead of it
    rw [(hcommit.next hV).foldlM_behind hV hne hcommit (by omega)] at hbehind
    constructor
    · rw [cid_foldlM hbehind, cid_pollStep hfirst, hcid, lastConfig_cons]
      cases lastConfig s.cidIdx fs with
      | some last => rfl
      | none => split <;> rfl
    · have hplace : (e.type = HEAD ∧ decide (place s.log.len c e.size ≤ c) = true) ↔
          (e.type = HEAD ∧ place s.log.len c e.size = c) := by
        rw [decide_eq_true_iff]
        exact and_congr_right fun _ => by omega
      rw [headOffset_foldlM_false hbehind, headOffset_pollStep hfirst, hhead, headAtCommit,
        List.head?_cons, Option.bind_some]
      simp only [hplace]
      split <;> rfl

/-! ### Following the log -/

/-- A log with the entries `ds` from its head to `cid_offset`, `es` from there to the commit offset and
    `fs` behind. -/
structure PolledLog (s : ConfigState) (V v c : Nat) (ds es fs : List DareLogEntry) : Prop where
  ends : EndsAt s.log V
  head : ∃ h, Cursor s.log V h s.log.head (ds ++ (es ++ fs)) ∧ advance entryFormat s.log.len h ds = v
  cid : Cursor s.log V v s.cidOffset (es ++ fs)
  commit : Cursor s.log V c s.log.commit fs
  advance : advance entryFormat s.log.len v es = c

/-- The configuration is that of the last CONFIG entry; the head is advanced to the head offset of the
    last committed HEAD entry at most, and never moves backward; `cid_offset` is at the boundary of an
    entry, and not past the commit offset. -/
structure FollowsLog (s : ConfigState) (v : Nat) (ds es fs : List DareLogEntry) (s' : ConfigState) :
    Prop where
  cid : s'.cid = (lastConfig s.cidIdx (es ++ fs)).getD s.cid
  head : s'.log.head = s.log.head ∨ logIsOffsetLarger s.log s'.log.head s.log.head = true ∧
    ∃ x ∈ lastHead (ds ++ es), logIsOffsetLarger s.log s'.log.head x = false
  cidOffset : ∃ gs tl, es = gs ++ tl ∧
    IsOffset s.log.len (Lib.advance entryFormat s.log.len v gs) s'.cidOffset

theorem logIsOffsetLarger_self (log : DareLog) (off : Nat) : logIsOffsetLarger log off off = false := by
  simp [logIsOffsetLarger]

/-- The head that is set if the offset `x` is larger. -/
theorem head_follows_iff {x y : Nat} (hy : y = if logIsOffsetLarger s.log x s.log.head then x
    else s.log.head) : (y = s.log.head ∨ logIsOffsetLarger s.log y s.log.head = true ∧
      ∃ z ∈ lastHead (ds ++ es), logIsOffsetLarger s.log y z = false) ↔
    (logIsOffsetLarger s.log x s.log.head = true →
      ∃ z ∈ lastHead (ds ++ es), logIsOffsetLarger s.log x z = false) := by
  by_cases hlarger : logIsOffsetLarger s.log x s.log.head = true
  · rw [if_pos hlarger] at hy
    subst hy
    have hne : y ≠ s.log.head := by
      rintro rfl
      rw [logIsOffsetLarger_self] at hlarger
      cases hlarger
    simp [hne, hlarger]
  · rw [if_neg hlarger] at hy
    exact iff_of_true (.inl hy) fun hcon => absurd hcon hlarger

/-- It does not have to be looked at unless a HEAD entry starts at the commit offset. -/
theorem head_getD_iff (x : Option Nat) :
    (logIsOffsetLarger s.log (x.getD ((lastHead es).getD s.log.head)) s.log.head = true →
      ∃ z ∈ lastHead (ds ++ es),
        logIsOffsetLarger s.log (x.getD ((lastHead es).getD s.log.head)) z = false) ↔
    ∀ y ∈ x, logIsOffsetLarger s.log y s.log.head = true →
      ∃ z ∈ lastHead (ds ++ es), logIsOffsetLarger s.log y z = false := by
  cases x with
  | some y => simp
  | none =>
    refine iff_of_true (fun hlarger => ?_) (by simp)
    cases hlast : lastHead es with
    | none =>
      rw [hlast, Option.getD_none, Option.getD_none, logIsOffsetLarger_self] at hlarger
      cases hlarger
    | some y =>
      refine ⟨y, ?_, logIsOffsetLarger_self s.log y⟩
      rw [lastHead_append, hlast]
      rfl

/-- The commit offset, or the end of the log if there is nothing behind it, is where `cid_offset` is
    moved to. -/
theorem PolledLog.cidOffset {stop : Nat} (h : PolledLog s V v c ds es fs)
    (hempty : s.log.end_ ≠ s.log.len) (hstop : IsOffset s.log.len V stop) :
    IsOffset s.log.len c (if logIsOffsetLarger s.log stop s.log.commit then s.log.commit else stop) := by
  have hle := h.commit.le_end h.ends
  have hlen := h.ends.len_pos
  have hlarger : logIsOffsetLarger s.log stop s.log.commit = true ↔ c < V :=
    logIsOffsetLarger_iff_lt h.ends hempty hstop h.commit.offset (Nat.le_refl V) hle (by omega)
      h.commit.window
  split
  · exact h.commit.offset
  · rename_i hnot
    have heq : c = V := by
      by_contra hne
      exact hnot (hlarger.mpr (by omega))
    rw [heq]
    exact hstop

/-- A log that looks empty is not followed. -/
theorem pollConfigEntries_of_end_eq_len (hempty : s.log.end_ = s.log.len) :
    s.pollConfigEntries = some (.done s) := by
  have hwalk : readerWalk s.log (walkFuel s.log) s.cidOffset = some ([], s.cidOffset) := by
    rw [walkFuel, readerWalk, logGetEntry_of_end_eq_len hempty]
  rw [ConfigState.pollConfigEntries, hwalk]
  simp only [Option.map_some, List.foldlM_nil, logIsOffsetLarger_of_end_eq_len hempty,
    Bool.false_eq_true, if_false]
  rfl

/-- It follows itself if no other configuration is in it. -/
theorem PolledLog.follows_iff_of_end_eq_len (h : PolledLog s V v c ds es fs)
    (hempty : s.log.end_ = s.log.len) :
    (∃ s', s.pollConfigEntries = some (.done s') ∧ FollowsLog s v ds es fs s') ↔
      ∀ cid ∈ lastConfig s.cidIdx (es ++ fs), cid = s.cid := by
  rw [pollConfigEntries_of_end_eq_len hempty]
  constructor
  · rintro ⟨s', hs', hfollows⟩ cid hcid
    obtain rfl : s = s' := ConfigPoll.done.inj (Option.some.inj hs')
    have heq := hfollows.cid
    rw [Option.mem_def.mp hcid] at heq
    exact heq.symm
  · intro hall
    refine ⟨s, rfl, ?_, .inl rfl, [], es, rfl, h.cid.offset⟩
    cases hlast : lastConfig s.cidIdx (es ++ fs) with
    | none => rfl
    | some cid => exact (hall cid hlast).symm

/-- Any other log is followed but for a HEAD entry that starts at the commit offset. -/
theorem PolledLog.follows_iff (h : PolledLog s V v c ds es fs) (hempty : s.log.end_ ≠ s.log.len)
    (hstays : s.pollConfigEntries ≠ some .shutdown) :
    (∃ s', s.pollConfigEntries = some (.done s') ∧ FollowsLog s v ds es fs s') ↔
      ∀ x ∈ headAtCommit s.log.len c fs, logIsOffsetLarger s.log x s.log.head = true →
        ∃ y ∈ lastHead (ds ++ es), logIsOffsetLarger s.log x y = false := by
  obtain ⟨stop, hwalk, hstop⟩ := h.cid.readerWalk h.ends hempty (h.cid.fuel h.ends)
  rw [ConfigState.pollConfigEntries, hwalk] at hstays ⊢
  -- the loop either shuts the server down, or ends
  cases hloop : (offsets entryFormat s.log.len v (es ++ fs)).foldlM s.pollConfigEntry
      ⟨s.cid, s.reqId, s.cltId, s.log.head, s.snapshot⟩ with
  | none =>
    simp only [Option.map_some, hloop] at hstays
    exact absurd rfl hstays
  | some p =>
    simp only [Option.map_some, hloop, Option.some.injEq, ConfigPoll.done.injEq, exists_eq_left']
    obtain ⟨hcid, hhead⟩ := h.cid.foldlM_pollConfigEntry h.ends hempty h.commit h.advance hloop
    constructor
    · intro hfollows
      rw [← head_getD_iff, ← hhead]
      refine (head_follows_iff rfl).mp ?_
      have hhead' := hfollows.head
      rw [apply_ite DareLog.head] at hhead'
      exact hhead'
    · intro hall
      rw [← head_getD_iff, ← hhead] at hall
      refine ⟨hcid, ?_, es, [], (List.append_nil es).symm, ?_⟩
      · rw [apply_ite DareLog.head]
        exact (head_follows_iff rfl).mpr hall
      · rw [h.advance]
        exact h.cidOffset hempty hstop

/-- **When the configuration, the head and `cid_offset` follow the log**: if the log looks empty, no
    other configuration is in it; and a HEAD entry that starts at the commit offset is not ahead of the
    head and the last HEAD entry that is committed. -/
theorem followsLog_iff (h : PolledLog s V v c ds es fs) (hstays : s.pollConfigEntries ≠ some .shutdown) :
    (∃ s', s.pollConfigEntries = some (.done s') ∧ FollowsLog s v ds es fs s') ↔
      if s.log.end_ = s.log.len then ∀ cid ∈ lastConfig s.cidIdx (es ++ fs), cid = s.cid
      else ∀ x ∈ headAtCommit s.log.len c fs, logIsOffsetLarger s.log x s.log.head = true →
        ∃ y ∈ lastHead (ds ++ es), logIsOffsetLarger s.log x y = false := by
  split
  · rename_i hempty
    exact h.follows_iff_of_end_eq_len hempty
  · rename_i hempty
    exact h.follows_iff hempty hstays

/-! ### A log with a HEAD entry -/

/-- The server goes on if it is part of all configurations in the log. -/
theorem PolledLog.ne_shutdown (h : PolledLog s V v c ds es fs)
    (hon : ∀ e ∈ es ++ fs, e.type = CONFIG → cidIsServerOn e.cid s.idx = true) :
    s.pollConfigEntries ≠ some .shutdown := by
  by_cases hempty : s.log.end_ = s.log.len
  · rw [pollConfigEntries_of_end_eq_len hempty]
    nofun
  · obtain ⟨stop, hwalk, -⟩ := h.cid.readerWalk h.ends hempty (h.cid.fuel h.ends)
    obtain ⟨p, hloop⟩ := h.cid.foldlM_isSome h.ends hempty h.commit hon
      ⟨s.cid, s.reqId, s.cltId, s.log.head, s.snapshot⟩
    rw [ConfigState.pollConfigEntries, hwalk]
    simp only [Option.map_some, hloop]
    nofun

/-- A HEAD entry for the head offset 64. -/
def headEntry : DareLogEntry := mkEntry 2 1 0 0 HEAD { head := 64 }

/-- The bytes of a NOOP entry and this one. -/
def headMem : Mem := writeEntry (writeNoop zeroMem 0 1) 64 2 1 0 0 HEAD { head := 64 }

/-- A server with them in its log. -/
def headBehind (commit cidOffset : Nat) : ConfigState where
  log := logOf 0 commit 128 headMem
  idx := 1
  cid := default
  cidOffset := cidOffset
  cidIdx := 0
  reqId := 0
  cltId := 0
  snapshot := false

theorem chain_headMem : Chain entryFormat headMem LOG_SIZE 0 [noop 1, headEntry] :=
  chain_writeEntry rfl [noop 1] (by decide) (chain_writeNoop [] (by decide) trivial rfl rfl (by decide))
    rfl rfl (by decide)

theorem cursor_first (commit cidOffset : Nat) :
    Cursor (headBehind commit cidOffset).log 128 0 0 [noop 1, headEntry] :=
  cursor_logOf ⟨Nat.zero_le _, rfl⟩ (by decide) chain_headMem (by decide)

theorem cursor_headEntry (commit cidOffset : Nat) :
    Cursor (headBehind commit cidOffset).log 128 64 64 [headEntry] :=
  (cursor_first commit cidOffset).next (endsAt_logOf ⟨by decide, rfl⟩)

theorem cursor_behind (commit cidOffset : Nat) :
    Cursor (headBehind commit cidOffset).log 128 128 128 [] :=
  (cursor_headEntry commit cidOffset).next (endsAt_logOf ⟨by decide, rfl⟩)

/-- The HEAD entry is the first that is not committed. -/
theorem polledLog_uncommitted : PolledLog (headBehind 64 64) 128 64 64 [noop 1] [] [headEntry] :=
  ⟨endsAt_logOf ⟨by decide, rfl⟩, ⟨0, cursor_first 64 64, rfl⟩, cursor_headEntry 64 64,
    cursor_headEntry 64 64, rfl⟩

/-- Both entries are committed. -/
theorem polledLog_committed : PolledLog (headBehind 128 0) 128 0 128 [] [noop 1, headEntry] [] :=
  ⟨endsAt_logOf ⟨by decide, rfl⟩, ⟨0, cursor_first 128 0, rfl⟩, cursor_first 128 0,
    cursor_behind 128 0, rfl⟩

/-- If it is committed, the log is followed. -/
theorem follows_committed : ∃ s', (headBehind 128 0).pollConfigEntries = some (.done s') ∧
    FollowsLog (headBehind 128 0) 0 [] [noop 1, headEntry] [] s' := by
  refine (followsLog_iff polledLog_committed (polledLog_committed.ne_shutdown (by decide))).mpr ?_
  rw [if_neg (by decide)]
  simp [headAtCommit]

/-- If it is not, the server still takes its head offset. -/
theorem not_followsLog : PolledLog (headBehind 64 64) 128 64 64 [noop 1] [] [headEntry] ∧
    (headBehind 64 64).pollConfigEntries ≠ some .shutdown ∧
    ¬ ∃ s', (headBehind 64 64).pollConfigEntries = some (.done s') ∧
      FollowsLog (headBehind 64 64) 64 [noop 1] [] [headEntry] s' := by
  have hstays := polledLog_uncommitted.ne_shutdown (by decide)
  refine ⟨polledLog_uncommitted, hstays, fun hfollows => ?_⟩
  obtain ⟨y, hy, -⟩ := (polledLog_uncommitted.follows_iff (by decide) hstays).mp hfollows 64 (by decide)
    (by decide)
  cases hy

end Apus
