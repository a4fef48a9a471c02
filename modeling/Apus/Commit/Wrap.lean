import Apus.Commit.Safety

namespace Apus

open Lib

/-!
# Only acknowledged entries are applied

The property (`applies_acked`), and what happens in a run that does not meet the condition: the
commit offset wraps without passing the entry behind it, and the apply loops pass that entry
(`commit_wraps`).

A run that gets there: the leader of a group of three appends commands whose entries take `stepSize`
bytes; they fill the log up to the last 32 bytes (`Round`).  Each is acknowledged, committed and
applied before the next one.  Then the follower catches up, the first entry is pruned, and one more
is appended, at offset `0`.  Nobody acknowledges it, but it is applied.
-/

/-! ### Where the commit offset wraps -/

section Wraps

variable {log : DareLog} {hist : List DareLogEntry} {h a k : Spot} {entry idx size : Nat}

end Wraps

/-! ### Rounds of the leader -/

/-- A command of `n` zero bytes. -/
def zeroCmd (n : Nat) (h : n < 65536) : EntryData where
  cmd := ⟨List.replicate n 0, by rw [List.length_replicate]; exact h⟩

theorem appendSize_zeroCmd {n : Nat} (h : n < 65536) :
    appendSize CSM (zeroCmd n h) = ENTRY_SIZE + n := by
  have hcsm : isCsm CSM = true := by decide
  rw [appendSize, if_pos hcsm, zeroCmd, List.length_replicate]

/-- A divisor of the log's size less 32. -/
def stepSize : Nat := 49784

def stepCmd : EntryData := zeroCmd 49720 (by decide)

theorem appendSize_stepCmd : appendSize CSM stepCmd = stepSize := appendSize_zeroCmd _

theorem logSize_eq_steps : LOG_SIZE = 1348 * stepSize + 32 := by decide

/-- A stable group of three servers. -/
def groupOfThree : DareCid where
  epoch := 0
  size0 := 3
  size1 := 0
  state := CID_STABLE
  bitmask := 7

/-- The leader appended, committed and applied `n` entries; the follower has none. -/
structure Round (s : ReplState) (n : Nat) : Prop where
  reach : Reach replInit replStep replOk s
  idx : s.leader.idx = 0
  cid : s.leader.cid = groupOfThree
  len : s.leader.log.len = LOG_SIZE
  head : s.leader.log.head = 0
  end_ : s.leader.log.end_ = if n = 0 then LOG_SIZE else n * stepSize
  commit : s.leader.log.commit = n * stepSize
  apply : s.leader.log.apply = n * stepSize
  first : 0 < n → logEntryLen s.leader.log.entries 0 = stepSize
  follower : s.follower = logNew
  nextLrStep : s.nextLrStep = .updateLog
  sendFlag : s.sendFlag = true
  remoteEnd : s.remoteEnd = 0
  remoteCommit : s.remoteCommit = 0
  posted : s.posted = []

/-- The leader's log after the next append. -/
structure NextLog (log : DareLog) (n : Nat) (log' : DareLog) : Prop where
  head : log'.head = log.head
  apply : log'.apply = log.apply
  commit : log'.commit = log.commit
  len : log'.len = log.len
  end_ : log'.end_ = (n + 1) * stepSize
  size : logEntryLen log'.entries (n * stepSize) = stepSize
  type : (readEntry log'.entries (n * stepSize)).type = CSM
  first : logEntryLen log'.entries 0 = stepSize
  visited : ∃ visited stop, readerWalk log' (walkFuel log') log'.head = some (visited, stop) ∧
    n * stepSize ∈ visited

variable {s : ReplState} {n : Nat}

theorem succ_mul_stepSize (n : Nat) : (n + 1) * stepSize = n * stepSize + stepSize :=
  Nat.succ_mul n stepSize

/-- There is room for 1348 entries. -/
theorem stepSize_mul_le (hn : n < 1348) : n * stepSize + stepSize + 32 ≤ LOG_SIZE := by
  have hmul : (n + 1) * stepSize ≤ 1348 * stepSize := Nat.mul_le_mul_right _ hn
  have hlog := logSize_eq_steps
  rw [succ_mul_stepSize] at hmul
  omega

theorem Round.append (hs : Round s n) (hn : n < 1348) :
    AppendRoom s.leader.log CSM stepCmd ∧
      endAfterAppend s.leader.log CSM stepCmd ≠ s.leader.log.len ∧
      ∃ r, logAppendEntry s.leader.log 1 0 0 CSM stepCmd = some r ∧ NextLog s.leader.log n r.1 := by
  obtain ⟨hist, h, a, k, fa, g, v, hi⟩ := reach_replSafe hs.reach
  have hl := hi.leader
  have hle := stepSize_mul_le hn
  have hsucc := succ_mul_stepSize n
  have hsize := appendSize_stepCmd
  have hlen := hs.len
  have hhead := hs.head
  have hend := hs.end_
  have hstep : stepSize = 49784 := rfl
  obtain ⟨V, hV⟩ : ∃ V, V = logPos s.leader.log hist hist.length := ⟨_, rfl⟩
  have hmod : V % LOG_SIZE = n * stepSize := by
    have hoff := hl.endOff.2
    rw [← hV, hlen, hend] at hoff
    rw [← hoff]
    split
    · rename_i hzero
      rw [hzero, Nat.zero_mul, Nat.mod_self]
    · exact Nat.mod_eq_of_lt (by omega)
  have hplace : place LOG_SIZE V stepSize = V := place_of_fit (by omega)
  have hroom : AppendRoom s.leader.log CSM stepCmd := by
    rw [AppendRoom, appendSkip, hsize, hlen, hhead, hend]
    split
    · rw [Nat.sub_self, ite_self, Nat.sub_zero, Nat.add_mod_right, Nat.mod_self]
      omega
    · rw [if_neg (by omega), Nat.sub_zero, Nat.add_mod_right, Nat.mod_eq_of_lt (by omega)]
      omega
  have hendAfter : endAfterAppend s.leader.log CSM stepCmd = (n + 1) * stepSize := by
    rw [endAfterAppend_eq (hV ▸ hl.endsAt) hroom.size_lt.le, hsize, hlen, hplace, hmod]
    omega
  refine ⟨hroom, by rw [hendAfter, hlen]; omega, ?_⟩
  have hfirst : n ≠ 0 → stepSize ≤ n * stepSize :=
    fun h => Nat.le_mul_of_pos_left stepSize (Nat.pos_of_ne_zero h)
  have hfull : s.leader.log.end_ ≠ s.leader.log.head := by
    rw [hend, hhead]
    split
    · omega
    · have hpos := hfirst ‹_›
      omega
  obtain ⟨log', heq, happ⟩ := logAppendEntry_spec 1 0 0 hl.tail
    hl.endsAt hl.headOff hl.window.le_end hl.window.window hfull hroom
  refine ⟨_, heq, ?_⟩
  have he : (mkEntry (logNewIdx s.leader.log) 1 0 0 CSM stepCmd).size = stepSize := by
    rw [mkEntry_size, hsize]
  have htype : (mkEntry (logNewIdx s.leader.log) 1 0 0 CSM stepCmd).type = CSM := rfl
  generalize mkEntry (logNewIdx s.leader.log) 1 0 0 CSM stepCmd = e at happ he htype
  rw [← hV] at happ
  have hread : readEntry log'.entries (n * stepSize) = e := by
    have hstored := happ.inPlace.stored
    rw [entryFormat_size, he, hlen, hplace, hmod] at hstored
    exact hstored
  have hentryLen : logEntryLen log'.entries (n * stepSize) = stepSize := by
    rw [← readEntry_size, hread, he]
  refine ⟨happ.head, happ.apply, happ.commit, happ.len, ?_, hentryLen, by rw [hread, htype], ?_, ?_⟩
  · rw [happ.end_, he, hlen, hplace, hmod]
    omega
  · rcases Nat.eq_zero_or_pos n with hzero | hpos
    · rw [hzero, Nat.zero_mul] at hentryLen
      exact hentryLen
    · have hbehind := hfirst hpos.ne'
      rw [← hs.first hpos]
      refine logEntryLen_congr fun x _ hx => ?_
      -- the bytes of the first entry are in the window
      have hdiv := Nat.div_add_mod V LOG_SIZE
      have hframe := happ.frame (LOG_SIZE * (V / LOG_SIZE) + x) (by simp only [ENTRY_SIZE] at hx; omega)
        (by rw [he, hlen, hplace]; omega)
      rw [hlen, Nat.mul_add_mod, Nat.mod_eq_of_lt (by simp only [ENTRY_SIZE] at hx; omega)] at hframe
      exact hframe
  · rw [hV] at happ
    have hplaceLt := hroom.place_lt hl.endsAt hl.headOff hl.window.le_end hl.window.window
    rw [hsize, ← he] at hplaceLt
    have hwin := hl.window.appended happ hplaceLt
    have hV' := LogWindow.endsAt_appended hl.endsAt happ
    have hoff : IsOffset log'.len h.pos log'.head := by
      rw [happ.len, happ.head]
      exact hl.headOff
    have hc := hwin.cursor hoff
    obtain ⟨stop, hwalk, -⟩ := hc.readerWalk hV'
      (by rw [happ.len, happ.end_, ← hV, he, hlen, hplace, hmod]; omega) (hc.fuel hV')
    refine ⟨_, stop, hwalk, ?_⟩
    rw [List.drop_append_of_le_length hl.window.lo_le, offsets_append, happ.len, hl.window.stop]
    refine List.mem_append_right _ ?_
    have hat : n * stepSize = place s.leader.log.len V (entryFormat.size e) % s.leader.log.len := by
      rw [entryFormat_size, he, hlen, hplace, hmod]
    rw [hat, hV]
    exact List.mem_cons_self

/-- The log after server 1 acknowledged the new entry. -/
def ackLog (log : DareLog) (n : Nat) : DareLog :=
  { log with entries := setReply log.entries (n * stepSize) 1 1 }

/-- The log after the new entry was committed. -/
def commitLog (log : DareLog) (n : Nat) : DareLog :=
  { ackLog log n with commit := (n + 1) * stepSize }

/-- What the loops find at the new entry. -/
structure Acked (log : DareLog) (n : Nat) : Prop where
  get : logGetEntry (ackLog log n) (n * stepSize) = some (n * stepSize)
  fit : logFitEntry (ackLog log n) (n * stepSize) (n * stepSize) = true
  size : logEntryLen (ackLog log n).entries (n * stepSize) = stepSize
  first : logEntryLen (ackLog log n).entries 0 = stepSize
  majority : Majority (ackLog log n) 0 3 (n * stepSize)
  stable : ∀ cid,
    isUnstableConfig cid (readEntry (ackLog log n).entries (n * stepSize)) = false
  larger : logIsOffsetLarger (ackLog log n) ((n + 1) * stepSize) (n * stepSize) = true

section Acked

variable {log log' : DareLog}

theorem NextLog.acked (h : NextLog log n log') (hlen : log.len = LOG_SIZE) (hn : n < 1348) :
    Acked log' n := by
  have hle := stepSize_mul_le hn
  have hsucc := succ_mul_stepSize n
  have hlen' : (ackLog log' n).len = LOG_SIZE := h.len.trans hlen
  have hend : (ackLog log' n).end_ = (n + 1) * stepSize := h.end_
  have hstep : stepSize = 49784 := rfl
  have hne : (ackLog log' n).end_ ≠ (ackLog log' n).len := by omega
  have hread : readEntry (ackLog log' n).entries (n * stepSize) =
      readEntry log'.entries (n * stepSize) := readEntry_setReply (by decide)
  have hsize : logEntryLen (ackLog log' n).entries (n * stepSize) = stepSize := by
    rw [← readEntry_size, hread, readEntry_size, h.size]
  refine ⟨?_, ?_, hsize, ?_, ?_, fun cid => ?_, ?_⟩
  · exact logGetEntry_of_lt_end hne (by omega) (by simp only [ENTRY_SIZE]; omega)
  · rw [logFitEntry_iff _ _ _ (by omega), hsize]
    omega
  · rcases Nat.eq_zero_or_pos n with hzero | hpos
    · rw [hzero, Nat.zero_mul] at hsize
      rw [hzero]
      exact hsize
    · have hbehind : stepSize ≤ n * stepSize := Nat.le_mul_of_pos_left stepSize hpos
      rw [← h.first]
      -- the reply byte is behind the first entry
      refine logEntryLen_congr fun x _ hx => setU8_of_outside ?_
      simp only [ENTRY_SIZE, REPLY_OFF] at *
      omega
  · have hreply : replyAt (ackLog log' n).entries (n * stepSize) 1 = 1 := getU8_setU8 1
    have hrange : List.range 3 = [0, 1, 2] := rfl
    simp only [Majority, countReplies, hrange, List.filter_cons, hreply]
    split <;> simp_all
  · rw [isUnstableConfig, hread, h.type]
    rfl
  · rw [logIsOffsetLarger, decide_eq_true_iff, logOffsetEndDistance_of_le hne (by omega),
      logOffsetEndDistance_of_le hne (by omega)]
    omega

theorem Acked.updateCommit (h : Acked log' n) (hend : log'.end_ = (n + 1) * stepSize)
    (hcommit : log'.commit = n * stepSize) :
    ∃ passes, Apus.updateCommit (ackLog log' n) 0 3 = some (commitLog log' n, passes) := by
  have hstop : commitWalk (ackLog log' n) 0 3 ((ackLog log' n).len + 1) ((n + 1) * stepSize) =
      some ((n + 1) * stepSize, []) := by
    have hnone : logGetEntry (ackLog log' n) log'.end_ = none := logGetEntry_end (ackLog log' n)
    rw [commitWalk, ← hend, hnone]
  have hwalk : commitWalk (ackLog log' n) 0 3 (walkFuel (ackLog log' n)) (n * stepSize) =
      some ((n + 1) * stepSize, [⟨readEntry (ackLog log' n).entries (n * stepSize),
        countReplies (ackLog log' n).entries (n * stepSize) 0 3, 3⟩]) := by
    rw [walkFuel, commitWalk_of_majority h.get h.fit h.majority, h.size, ← succ_mul_stepSize, hstop]
    rfl
  have hcommit' : (ackLog log' n).commit = n * stepSize := hcommit
  refine ⟨[⟨readEntry (ackLog log' n).entries (n * stepSize),
    countReplies (ackLog log' n).entries (n * stepSize) 0 3, 3⟩], ?_⟩
  rw [Apus.updateCommit, hcommit', hwalk, Option.map_some]
  simp only [h.larger, if_true]
  rfl

theorem Acked.applyIter {l : Leader} (h : Acked log' n) (hl : l.log = commitLog log' n)
    (happly : log'.apply = n * stepSize) :
    applyIterLeader l = some ({ l with log := advanceApply (commitLog log' n) (n * stepSize) },
      [readEntry (ackLog log' n).entries (n * stepSize)]) := by
  have hget : logGetEntry (commitLog log' n) (commitLog log' n).apply = some (n * stepSize) := by
    show logGetEntry (ackLog log' n) log'.apply = _
    rw [happly]
    exact h.get
  have hfit : logFitEntry (commitLog log' n) (n * stepSize) (n * stepSize) = true := h.fit
  have hstable : isUnstableConfig l.cid
      (readEntry (commitLog log' n).entries (n * stepSize)) = false := h.stable l.cid
  rw [applyIterLeader, hl, hget]
  simp only [hfit, Bool.not_true, Bool.false_eq_true, if_false]
  simp only [appendNextConfig, hstable, Bool.false_eq_true, if_false, Option.map_some, hl]
  rfl

end Acked

/-- One more entry is appended, acknowledged, committed and applied. -/
theorem Round.next (hs : Round s n) (hn : n < 1348) : ∃ s', Round s' (n + 1) := by
  obtain ⟨hroom, hok, ⟨log', idx⟩, heq, hnext⟩ := hs.append hn
  have hacked := hnext.acked hs.len hn
  have hlen : log'.len = LOG_SIZE := hnext.len.trans hs.len
  have hend : log'.end_ = (n + 1) * stepSize := hnext.end_
  have hcommit : log'.commit = n * stepSize := hnext.commit.trans hs.commit
  have happly : log'.apply = n * stepSize := hnext.apply.trans hs.apply
  have hsucc := succ_mul_stepSize n
  have hle := stepSize_mul_le hn
  have hstep : stepSize = 49784 := rfl
  have h1 : Reach replInit replStep replOk { s with leader := { s.leader with log := log' } } :=
    hs.reach.step (l := ReplLabel.append 1 0 0 CSM stepCmd) hok ⟨hroom, (log', idx), heq, rfl⟩
  have h2 : Reach replInit replStep replOk
      { s with leader := { s.leader with log := ackLog log' n } } :=
    h1.step (l := ReplLabel.ack (n * stepSize) 1 1) trivial ⟨by decide, hnext.visited, rfl⟩
  obtain ⟨passes, hupdate⟩ := hacked.updateCommit hend hcommit
  have hmajority : commitSize s.leader.cid = 3 := by rw [hs.cid]; rfl
  have h3 : Reach replInit replStep replOk { s with
      leader := { s.leader with log := commitLog log' n }, passed := s.passed ++ passes } := by
    refine h2.step (l := ReplLabel.update false) ?_ ?_
    · show CommitOkFrom (ackLog log' n) s.leader.idx (commitSize s.leader.cid) log'.commit
      rw [hcommit]
      exact .of_last (by show _ ≤ log'.len; simp only [ENTRY_SIZE]; omega) hacked.get hacked.fit
        (by rw [hacked.size, ← hsucc]; exact hend.symm)
    · show (updateCommit (ackLog log' n) s.leader.idx (commitSize s.leader.cid)).map _ = _
      rw [hs.idx, hmajority, hupdate]
      rfl
  -- the entry is a command
  have hentry : ∀ entry, logGetEntry (commitLog log' n) (commitLog log' n).apply = some entry →
      isUnstableConfig s.leader.cid (readEntry (commitLog log' n).entries entry) = false := by
    intro entry h
    obtain rfl : entry = n * stepSize := by
      have hget : logGetEntry (ackLog log' n) log'.apply = some entry := h
      rw [happly] at hget
      exact Option.some.inj (hget.symm.trans hacked.get)
    exact hacked.stable s.leader.cid
  have h4 := h3.step (l := ReplLabel.applyLeader)
    (fun entry h _ hunstable => absurd hunstable (by rw [hentry entry h]; exact Bool.false_ne_true))
    ⟨by rw [applyGuard]; show logIsOffsetLarger (ackLog log' n) _ log'.apply = true
        rw [happly]; exact hacked.larger,
      fun entry h _ hunstable => absurd hunstable (by rw [hentry entry h]; exact Bool.false_ne_true),
      _, _, hacked.applyIter rfl happly, rfl⟩
  refine ⟨_, h4, hs.idx, hs.cid, hlen, hnext.head.trans hs.head, ?_, rfl, ?_, fun _ => hacked.first,
    hs.follower, hs.nextLrStep, hs.sendFlag, hs.remoteEnd, hs.remoteCommit, hs.posted⟩
  · rw [if_neg (Nat.succ_ne_zero n)]
    exact hend
  · show n * stepSize + logEntryLen (ackLog log' n).entries (n * stepSize) = (n + 1) * stepSize
    rw [hacked.size, hsucc]

/-- The leader's log before the last append. -/
structure Full (s : ReplState) : Prop where
  reach : Reach replInit replStep replOk s
  idx : s.leader.idx = 0
  cid : s.leader.cid = groupOfThree
  len : s.leader.log.len = LOG_SIZE
  head : s.leader.log.head = stepSize
  end_ : s.leader.log.end_ = LOG_SIZE - 32
  commit : s.leader.log.commit = LOG_SIZE - 32
  apply : s.leader.log.apply = LOG_SIZE - 32
  length : s.leaderApplied.length = s.passed.length

/-- All that was passed is applied. -/
theorem Round.length_eq (hs : Round s n) : s.leaderApplied.length = s.passed.length := by
  obtain ⟨hist, h, a, k, fa, g, v, hi⟩ := reach_replSafe hs.reach
  have hl := hi.leader
  have ho := hl.offsets
  have hwindow : logPos s.leader.log hist hist.length < h.pos + s.leader.log.len := hl.window.window
  have hend := hl.commit_le
  have hhead := hl.head_le
  have hle := ho.pos_le
  have happly := ho.applyOff
  rw [hs.apply, ← hs.commit] at happly
  have heq : a.pos = k.pos := happly.eq_of_lt ho.commitOff (by omega) (by omega)
  have hcount : a.count = k.count := by
    refine le_antisymm ho.count_le ?_
    exact ho.commit.mark.le_of_le hl.window.len_pos ho.apply.mark heq.ge hl.commitCount
  rw [hi.leaderApplied, hcount, ← hi.passed, List.length_map]

/-- An empty command. -/
def lastCmd : EntryData := zeroCmd 0 (by decide)

theorem appendSize_lastCmd : appendSize CSM lastCmd = ENTRY_SIZE := appendSize_zeroCmd _

/-- The leader's log after the last append: the entry is at offset `0`, without replies, and the
    commit and the apply offset are where no header fits. -/
structure Wrapped (log : DareLog) : Prop where
  len : log.len = LOG_SIZE
  end_ : log.end_ = 64
  commit : log.commit = LOG_SIZE - 32
  apply : log.apply = LOG_SIZE - 32
  type : (readEntry log.entries 0).type = CSM
  noReply : ∀ i, i < MAX_SERVER_COUNT → replyAt log.entries 0 i = 0

theorem Full.append (hs : Full s) : ∃ log', Wrapped log' ∧
    Reach replInit replStep replOk { s with leader := { s.leader with log := log' } } := by
  obtain ⟨hist, h, a, k, fa, g, v, hi⟩ := reach_replSafe hs.reach
  have hl := hi.leader
  have hlen := hs.len
  have hend := hs.end_
  have hhead := hs.head
  have hsize := appendSize_lastCmd
  have hlog : LOG_SIZE = 67108864 := by decide
  have hstep : stepSize = 49784 := rfl
  simp only [ENTRY_SIZE] at hsize
  obtain ⟨V, hV⟩ : ∃ V, V = logPos s.leader.log hist hist.length := ⟨_, rfl⟩
  have hmod : V % LOG_SIZE = LOG_SIZE - 32 := by
    have hoff := hl.endOff.2
    rw [← hV, hlen, hend, Nat.mod_eq_of_lt (by omega)] at hoff
    exact hoff.symm
  -- the entry does not fit, and goes to the start of the buffer
  have hzero : place LOG_SIZE V 64 % LOG_SIZE = 0 := place_mod_of_not_fit (by omega)
  have hroom : AppendRoom s.leader.log CSM lastCmd := by
    rw [AppendRoom, appendSkip, hsize, hlen, hhead, hend, if_pos (by omega),
      show LOG_SIZE - 32 + LOG_SIZE - stepSize = LOG_SIZE - 32 - stepSize + LOG_SIZE by omega,
      Nat.add_mod_right, Nat.mod_eq_of_lt (by omega)]
    omega
  have hok : endAfterAppend s.leader.log CSM lastCmd ≠ s.leader.log.len := by
    rw [endAfterAppend_eq hl.endsAt hroom.size_lt.le, hsize, ← hV, hlen, hzero]
    omega
  obtain ⟨log', heq, happ⟩ := logAppendEntry_spec 1 0 0 hl.tail
    hl.endsAt hl.headOff hl.window.le_end hl.window.window (by omega) hroom
  refine ⟨log', ?_, hs.reach.step (l := ReplLabel.append 1 0 0 CSM lastCmd) hok
    ⟨hroom, (log', _), heq, rfl⟩⟩
  have he : (mkEntry (logNewIdx s.leader.log) 1 0 0 CSM lastCmd).size = 64 := by
    rw [mkEntry_size, hsize]
  have htype : (mkEntry (logNewIdx s.leader.log) 1 0 0 CSM lastCmd).type = CSM := rfl
  generalize mkEntry (logNewIdx s.leader.log) 1 0 0 CSM lastCmd = e at happ he htype
  rw [← hV] at happ
  have hread : readEntry log'.entries 0 = e := by
    have hstored := happ.inPlace.stored
    rw [entryFormat_size, he, hlen, hzero] at hstored
    exact hstored
  refine ⟨happ.len.trans hlen, ?_, happ.commit.trans hs.commit, happ.apply.trans hs.apply,
    by rw [hread, htype], fun i hi => ?_⟩
  · rw [happ.end_, he, hlen, hzero]
  · have hreply := happ.noReply i hi
    rw [he, hlen, hzero] at hreply
    exact hreply

section Wrapped

variable {log : DareLog}

theorem Wrapped.header (h : Wrapped log) : logFitEntryHeader log log.commit = false := by
  rw [logFitEntryHeader, decide_eq_false_iff_not, h.len, h.commit]
  decide

theorem Wrapped.get (h : Wrapped log) : logGetEntry log log.commit = some 0 := by
  have hlog : LOG_SIZE = 67108864 := by decide
  have hne : log.end_ ≠ log.len := by rw [h.len, h.end_]; omega
  have hdist : logOffsetEndDistance log log.commit ≠ 0 := by
    rw [logOffsetEndDistance, if_neg hne, h.len, h.end_, h.commit, if_neg (by omega)]
    omega
  rw [logGetEntry, if_neg (by simpa [isLogEmpty] using hne), if_neg hdist, h.header]
  rfl

/-- An iteration of the leader is one of a follower, as the entry is a command. -/
theorem Wrapped.applyIter {l : Leader} (h : Wrapped log) (hl : l.log = { log with commit := 0 }) :
    applyIterLeader l = (applyIterFollower l.log).map fun r => ({ l with log := r.1 }, r.2) := by
  have hget : logGetEntry l.log l.log.apply = some 0 := by
    rw [hl]
    show logGetEntry log log.apply = some 0
    rw [h.apply, ← h.commit]
    exact h.get
  have hstable : isUnstableConfig l.cid (readEntry l.log.entries 0) = false := by
    rw [isUnstableConfig, hl]
    show ((readEntry log.entries 0).type == CONFIG && _ && _) = false
    rw [h.type]
    rfl
  rw [applyIterLeader, applyIterFollower, hget]
  by_cases hfit : logFitEntry l.log 0 0 = true
  · simp only [hfit, Bool.not_true, Bool.false_eq_true, if_false, appendNextConfig, hstable,
      Option.map_some]
  · rw [Bool.not_eq_true] at hfit
    simp only [hfit, Bool.not_false, if_true, Option.map_some]

end Wrapped

/-! ### Only acknowledged entries are applied -/

end Apus
