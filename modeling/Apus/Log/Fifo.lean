import Apus.Log.Append
import Apus.Lib.Run
import Mathlib.Data.List.Chain

namespace Apus

open Lib

/-!
# The circular log and the FIFO list

The abstract model of the log is a list of entries: an append adds one at the back, with the
next index, and an advance of `head` drops some at the front (`Fifo`).  A run of the log is any
sequence of appends that leave enough room and of advances of `head` to a value that the walk
over the entries takes (`fifoStep`); the list is carried along.

* `ReadsFifo` — the walk from `head` visits exactly the entries of the list and stops at the end;
* `FifoInv` — the invariant: `head` is a cursor with the entries of the list in front of it, and
  the tail is a cursor at the last entry;
* `reach_fifoInv` — it holds in every run whose appends neither end exactly at the buffer end nor
  find every entry pruned (`fifoOk`).

An append that ends exactly at the buffer end makes `end == len`, which is the mark of an empty
log; and when every entry is pruned, `end == head` is the mark of a full one.
-/

/-! ### The abstract model -/

/-- A FIFO list of entries and the index of the next one. -/
structure Fifo where
  entries : List DareLogEntry
  nextIdx : UInt64

namespace Fifo

/-- The list of a new log. -/
def new : Fifo := ⟨[], 1⟩

/-- Append an entry with the next index. -/
def push (f : Fifo) (term reqId : UInt64) (cltId : UInt16) (type : UInt8) (data : EntryData) :
    Fifo where
  entries := f.entries ++ [mkEntry f.nextIdx term reqId cltId type data]
  nextIdx := f.nextIdx + 1

/-- Drop the first `k` entries. -/
def pop (f : Fifo) (k : Nat) : Fifo := { f with entries := f.entries.drop k }

/-- The indices are consecutive, up to the next one. -/
def Consecutive (f : Fifo) : Prop :=
  f.entries.IsChain (fun a b => b.idx = a.idx + 1) ∧
    ∀ e ∈ f.entries.getLast?, f.nextIdx = e.idx + 1

theorem consecutive_new : new.Consecutive := ⟨List.isChain_nil, by simp [new]⟩

theorem Consecutive.push {f : Fifo} (h : f.Consecutive) (term reqId : UInt64) (cltId : UInt16)
    (type : UInt8) (data : EntryData) : (f.push term reqId cltId type data).Consecutive := by
  refine ⟨List.isChain_append.mpr ⟨h.1, List.isChain_singleton _, ?_⟩, ?_⟩
  · intro a ha b hb
    simp only [List.head?_cons, Option.mem_some_iff] at hb
    rw [← hb]
    exact h.2 a ha
  · intro e he
    simp only [Fifo.push, List.getLast?_append, List.getLast?_singleton, Option.some_or,
      Option.mem_some_iff] at he
    rw [← he]
    rfl

theorem Consecutive.pop {f : Fifo} (h : f.Consecutive) (k : Nat) : (f.pop k).Consecutive := by
  refine ⟨h.1.drop k, fun e he => h.2 e ?_⟩
  simp only [Fifo.pop, List.getLast?_drop] at he
  split at he
  · cases he
  · exact he

end Fifo

/-! ### Runs of the log -/

/-- The log and the entries appended to it and not yet pruned. -/
structure FifoState where
  log : DareLog
  fifo : Fifo

/-- The steps: an append, and an advance of `head` over the entries `visited` to `off`. -/
inductive FifoLabel
  | append (term reqId : UInt64) (cltId : UInt16) (type : UInt8) (data : EntryData)
  | prune (visited : List Nat) (off : Nat)

/-- The initial state: the log of `log_new`. -/
def fifoInit (s : FifoState) : Prop := s = ⟨logNew, Fifo.new⟩

/-- One step of the log, and of the list along with it. -/
def fifoStep (s : FifoState) : FifoLabel → FifoState → Prop
  | .append term reqId cltId type data, s' =>
    AppendRoom s.log type data ∧
      (∃ idx, logAppendEntry s.log term reqId cltId type data = some (s'.log, idx)) ∧
      s'.fifo = s.fifo.push term reqId cltId type data
  | .prune visited off, s' =>
    WalkTo s.log s.log.head visited off ∧
      s' = ⟨{ s.log with head := off }, s.fifo.pop visited.length⟩

/-- The walk from `head` ends and visits exactly the entries of the list, in order and each
    once; their indices are consecutive, and the walk stops at the end. -/
def ReadsFifo (s : FifoState) : Prop :=
  ∃ visited stop, readerWalk s.log (walkFuel s.log) s.log.head = some (visited, stop) ∧
    visited.map (readEntry s.log.entries) = s.fifo.entries ∧ visited.Nodup ∧
    s.fifo.Consecutive ∧ (s.fifo.entries ≠ [] → stop = s.log.end_)

/-- No append ends exactly at the buffer end, and none is made when every entry is pruned. -/
def fifoOk (s : FifoState) : FifoLabel → Prop
  | .append _ _ _ type data =>
    endAfterAppend s.log type data ≠ s.log.len ∧ s.log.end_ ≠ s.log.head
  | .prune _ _ => True

/-! ### The invariant -/

/-- The log was never appended to. -/
structure Fresh (s : FifoState) : Prop where
  log : s.log = logNew
  fifo : s.fifo = Fifo.new

/-- The log ends at position `V`, `head` has the entries of the list in front of it, and the tail
    is at the last entry. -/
structure Filled (s : FifoState) (V v : Nat) : Prop where
  endsAt : EndsAt s.log V
  len : s.log.len = LOG_SIZE
  end_ne_len : s.log.end_ ≠ s.log.len
  head : Cursor s.log V v s.log.head s.fifo.entries
  tail : ∃ P last, Cursor s.log V P s.log.tail [last] ∧ s.log.tail ≠ s.log.len ∧
    s.fifo.nextIdx = last.idx + 1
  end_eq : s.log.end_ = V % s.log.len
  end_pos : 0 < s.log.end_
  consecutive : s.fifo.Consecutive

/-- The invariant of the runs. -/
def FifoInv (s : FifoState) : Prop := Fresh s ∨ ∃ V v, Filled s V v

/-- The largest entry is much smaller than the log. -/
theorem appendSize_lt (type : UInt8) (data : EntryData) : appendSize type data < LOG_SIZE := by
  have hcmd := data.cmd.len_lt
  have hlog : LOG_SIZE = 67108864 := by decide
  simp only [appendSize, ENTRY_SIZE]
  split <;> omega

/-! ### One append -/

section Append

variable {s : FifoState} {V v : Nat} {term reqId : UInt64} {cltId : UInt16} {type : UInt8}
  {data : EntryData} {e : DareLogEntry} {log' : DareLog}

/-- After an append that does not end exactly at the buffer end, the log is filled. -/
theorem Appended.filled (hV : EndsAt s.log V) (hlen : s.log.len = LOG_SIZE)
    (hhead : Cursor s.log V v s.log.head s.fifo.entries) (hcons : s.fifo.Consecutive)
    (he : e = mkEntry s.fifo.nextIdx term reqId cltId type data)
    (hroom : AppendRoom s.log type data) (hfit : endAfterAppend s.log type data ≠ s.log.len)
    (happ : Appended s.log V e log') :
    Filled ⟨log', s.fifo.push term reqId cltId type data⟩
      (place s.log.len V e.size + e.size) v := by
  have hsize : e.size = appendSize type data := by rw [he, mkEntry_size]
  have hlt : e.size < s.log.len := by rw [hsize, hlen]; exact appendSize_lt type data
  -- there is room up to `head`
  have hplace := hroom.place_lt hV hhead.offset (hhead.le_end hV) hhead.window
  have hpos := appendSize_pos type data
  have hfits := place_mod_add_le (v := V) hlt.le
  rw [endAfterAppend_eq hV (by omega), ← hsize] at hfit
  rw [← hsize] at hplace hpos
  refine ⟨happ.endsAt hV, happ.len.trans hlen, happ.end_ne_len_iff.mpr hfit, ?_, ?_, ?_, ?_, ?_⟩
  · have hc := happ.cursor hV hplace hhead
    rw [he] at hc ⊢
    show Cursor log' _ v log'.head _
    rw [happ.head]
    exact hc
  · refine ⟨_, e, happ.tailCursor hV hlt, ?_, ?_⟩
    · show log'.tail ≠ log'.len
      rw [happ.tail, happ.len]
      exact (Nat.mod_lt _ hV.len_pos).ne
    · rw [he]; rfl
  · show log'.end_ = _ % log'.len
    rw [happ.end_, happ.len, add_mod_of_lt (by omega)]
  · show 0 < log'.end_
    rw [happ.end_]
    omega
  · exact hcons.push term reqId cltId type data

/-- The log may be appended to: it ends at position `V`, and `head` has the entries of the list in
    front of it. -/
structure Appendable (s : FifoState) (V v : Nat) : Prop where
  endsAt : EndsAt s.log V
  len : s.log.len = LOG_SIZE
  head : Cursor s.log V v s.log.head s.fifo.entries
  consecutive : s.fifo.Consecutive
  /-- An append returns with the next index of the list, and puts the entry in place. -/
  spec : ∀ (term reqId : UInt64) (cltId : UInt16) (type : UInt8) (data : EntryData),
    AppendRoom s.log type data → s.log.end_ ≠ s.log.head →
    ∃ log', logAppendEntry s.log term reqId cltId type data = some (log', s.fifo.nextIdx) ∧
      Appended s.log V (mkEntry s.fifo.nextIdx term reqId cltId type data) log'

theorem Fresh.appendable (h : Fresh s) : Appendable s 0 0 := by
  obtain ⟨log, fifo⟩ := s
  obtain ⟨rfl, rfl⟩ := h
  refine ⟨endsAt_logNew, rfl, cursor_logNew, Fifo.consecutive_new, ?_⟩
  intro term reqId cltId type data hroom hfull
  exact logAppendEntry_spec term reqId cltId (U := 0) (.inr rfl) endsAt_logNew cursor_logNew.offset (le_refl 0)
    cursor_logNew.window hfull hroom

theorem Filled.appendable (h : Filled s V v) : Appendable s V v := by
  refine ⟨h.endsAt, h.len, h.head, h.consecutive, ?_⟩
  intro term reqId cltId type data hroom hfull
  obtain ⟨P, last, htail, hknown, hidx⟩ := h.tail
  rw [hidx, ← logNewIdx_eq h.endsAt h.end_ne_len htail]
  exact logAppendEntry_spec term reqId cltId (.inl hknown) h.endsAt h.head.offset (h.head.le_end h.endsAt)
    h.head.window hfull hroom

/-- Where the end of the log goes. -/
theorem Appended.end_eq (hV : EndsAt s.log V) (hlen : s.log.len = LOG_SIZE)
    (happ : Appended s.log V (mkEntry s.fifo.nextIdx term reqId cltId type data) log') :
    log'.end_ = endAfterAppend s.log type data := by
  have hsize := appendSize_lt type data
  rw [happ.end_, endAfterAppend_eq hV (by omega), mkEntry_size]

end Append

/-! ### Every run -/

section Runs

variable {s s' : FifoState}

/-- Advancing `head` keeps a filled log. -/
theorem Filled.prune {V v off : Nat} {visited : List Nat} (h : Filled s V v)
    (hw : WalkTo s.log s.log.head visited off) :
    ∃ w, Filled ⟨{ s.log with head := off }, s.fifo.pop visited.length⟩ V w := by
  obtain ⟨w, -, hc⟩ := h.head.walkTo h.endsAt h.end_ne_len hw
  obtain ⟨P, last, htail, hknown, hidx⟩ := h.tail
  exact ⟨w, ⟨h.endsAt.1, h.endsAt.2⟩, h.len, h.end_ne_len, ⟨hc.1, hc.2, hc.3, hc.4⟩,
    ⟨P, last, ⟨htail.1, htail.2, htail.3, htail.4⟩, hknown, hidx⟩, h.end_eq, h.end_pos,
    h.consecutive.pop _⟩

theorem FifoInv.appendable (h : FifoInv s) : ∃ V v, Appendable s V v := by
  rcases h with hfresh | ⟨V, v, hfilled⟩
  · exact ⟨0, 0, hfresh.appendable⟩
  · exact ⟨V, v, hfilled.appendable⟩

/-- An append under the condition returns, and keeps the invariant. -/
theorem FifoInv.append (h : FifoInv s) {term reqId : UInt64} {cltId : UInt16} {type : UInt8}
    {data : EntryData} (hroom : AppendRoom s.log type data)
    (hok : fifoOk s (.append term reqId cltId type data)) :
    ∃ log', logAppendEntry s.log term reqId cltId type data = some (log', s.fifo.nextIdx) ∧
      FifoInv ⟨log', s.fifo.push term reqId cltId type data⟩ ∧
      log'.end_ = endAfterAppend s.log type data ∧ log'.head = s.log.head := by
  obtain ⟨V, v, happ⟩ := h.appendable
  obtain ⟨log', heq, hlog⟩ := happ.spec term reqId cltId type data hroom hok.2
  exact ⟨log', heq, .inr ⟨_, v, hlog.filled happ.endsAt happ.len happ.head happ.consecutive rfl
    hroom hok.1⟩, hlog.end_eq happ.endsAt happ.len, hlog.head⟩

/-- Every step under the condition keeps the invariant. -/
theorem FifoInv.step {l : FifoLabel} (h : FifoInv s) (hok : fifoOk s l) (hs : fifoStep s l s') :
    FifoInv s' := by
  cases l with
  | append term reqId cltId type data =>
    obtain ⟨hroom, ⟨idx, heq⟩, hfifo⟩ := hs
    obtain ⟨log', heq', hinv, -, -⟩ := h.append hroom hok
    rw [heq] at heq'
    obtain ⟨hlog, -⟩ := Prod.mk.inj (Option.some.inj heq')
    rw [← hlog, ← hfifo] at hinv
    exact hinv
  | prune visited off =>
    obtain ⟨hw, rfl⟩ := hs
    rcases h with hfresh | ⟨V, v, hfilled⟩
    · obtain ⟨rfl, rfl⟩ := hw.of_end_eq_len (by rw [hfresh.log]; rfl)
      exact .inl ⟨hfresh.log, by rw [← hfresh.fifo]; rfl⟩
    · obtain ⟨w, hf⟩ := hfilled.prune hw
      exact .inr ⟨V, w, hf⟩

theorem reach_fifoInv (h : Reach fifoInit fifoStep fifoOk s) : FifoInv s := by
  refine h.invariant (fun s hinit => .inl ?_) fun s l s' hinv hok hs => hinv.step hok hs
  rw [hinit]
  exact ⟨rfl, rfl⟩

/-- Under the invariant the walk from `head` reads the list. -/
theorem FifoInv.readsFifo (h : FifoInv s) : ReadsFifo s := by
  rcases h with hfresh | ⟨V, v, hfilled⟩
  · obtain ⟨log, fifo⟩ := s
    obtain ⟨rfl, rfl⟩ := hfresh
    refine ⟨[], 0, ?_, rfl, List.nodup_nil, Fifo.consecutive_new, fun h => absurd rfl h⟩
    rw [walkFuel, readerWalk, logGetEntry_of_end_eq_len rfl]
    rfl
  · have hhead := hfilled.head
    obtain ⟨stop, hwalk, hstop⟩ := hhead.readerWalk hfilled.endsAt hfilled.end_ne_len
      (hhead.fuel hfilled.endsAt)
    refine ⟨_, stop, hwalk, hhead.map_readEntry, ?_, hfilled.consecutive, fun _ => ?_⟩
    · refine nodup_offsets hfilled.endsAt.len_pos ?_
      rw [hhead.stop]
      exact hhead.window
    · have hend := hfilled.end_eq
      have hpos := hfilled.end_pos
      rcases hstop.cases hfilled.endsAt.len_pos with heq | ⟨-, hzero⟩
      · rw [heq, hend]
      · omega

/-- **The circular log refines the FIFO list**: in every run whose appends neither end exactly at
    the buffer end nor find every entry pruned, the walk from `head` reads the list, and the next
    such append returns the next index. -/
theorem circular_log_refines_fifo (h : Reach fifoInit fifoStep fifoOk s) :
    ReadsFifo s ∧ ∀ term reqId cltId type data, AppendRoom s.log type data →
      fifoOk s (.append term reqId cltId type data) →
      ∃ log', logAppendEntry s.log term reqId cltId type data = some (log', s.fifo.nextIdx) := by
  have hinv := reach_fifoInv h
  refine ⟨hinv.readsFifo, fun term reqId cltId type data hroom hok => ?_⟩
  obtain ⟨log', heq, -, -, -⟩ := hinv.append hroom hok
  exact ⟨log', heq⟩

end Runs

/-! ### An exact fit -/

section ExactFit

/-- A command whose entry takes `2 ^ 16` bytes, a divisor of the log's size. -/
def cmd64K : EntryData where
  cmd := ⟨List.replicate 65472 0, by rw [List.length_replicate]; decide⟩

theorem appendSize_cmd64K : appendSize CSM cmd64K = 65536 := by
  have hlen : cmd64K.cmd.cmd.length = 65472 := List.length_replicate
  have hcsm : isCsm CSM = true := by decide
  rw [appendSize, hcsm, if_pos rfl, hlen, ENTRY_SIZE]

theorem logSize_eq : LOG_SIZE = 1024 * 65536 := by decide

/-- `n + 1` such entries in a log from which nothing was pruned. -/
structure Appended64K (s : FifoState) (n : Nat) : Prop where
  reach : Reach fifoInit fifoStep fifoOk s
  length : s.fifo.entries.length = n + 1
  size : ∀ e ∈ s.fifo.entries, e.size = 65536
  end_ : s.log.end_ = (n + 1) * 65536
  head : s.log.head = 0

/-- The log after the first of them. -/
theorem exists_first64K : ∃ s, Appended64K s 0 ∧
    fifoStep ⟨logNew, Fifo.new⟩ (.append 1 0 0 CSM cmd64K) s := by
  have hlog := logSize_eq
  have hcmd := appendSize_cmd64K
  have hinit : Reach fifoInit fifoStep fifoOk ⟨logNew, Fifo.new⟩ := .start rfl
  have hend : endAfterAppend logNew CSM cmd64K = 65536 := by
    have hleft : logNew.len - logNew.end_ = 0 := Nat.sub_self LOG_SIZE
    rw [endAfterAppend, hcmd, hleft, if_pos (by omega)]
  have hroom : AppendRoom logNew CSM cmd64K := by
    simp only [AppendRoom, appendSkip, hcmd, logNew, hlog, Nat.sub_self, Nat.sub_zero,
      Nat.add_mod_right, Nat.mod_self, ite_self]
    omega
  have hok : fifoOk ⟨logNew, Fifo.new⟩ (.append 1 0 0 CSM cmd64K) :=
    ⟨by rw [hend]; show 65536 ≠ LOG_SIZE; omega, by show LOG_SIZE ≠ 0; omega⟩
  obtain ⟨log', heq, -, hend', hhead⟩ := (reach_fifoInv hinit).append hroom hok
  have hstep : fifoStep ⟨logNew, Fifo.new⟩ (.append 1 0 0 CSM cmd64K)
      ⟨log', Fifo.new.push 1 0 0 CSM cmd64K⟩ := ⟨hroom, ⟨_, heq⟩, rfl⟩
  refine ⟨_, ⟨hinit.step hok hstep, rfl, ?_, ?_, hhead⟩, hstep⟩
  · intro e he
    obtain rfl : e = mkEntry 1 1 0 0 CSM cmd64K := by simpa [Fifo.push, Fifo.new] using he
    rw [mkEntry_size, hcmd]
  · rw [Nat.zero_add, Nat.one_mul]
    exact hend'.trans hend

/-- One more of them. -/
theorem Appended64K.push {s : FifoState} {n : Nat} (hs : Appended64K s n) (hn : n + 1 < 1023) :
    ∃ s', Appended64K s' (n + 1) ∧ fifoStep s (.append 1 0 0 CSM cmd64K) s' := by
  have hlog := logSize_eq
  have hcmd := appendSize_cmd64K
  obtain ⟨V, v, happ⟩ := (reach_fifoInv hs.reach).appendable
  have hlen := happ.len
  have hend : endAfterAppend s.log CSM cmd64K = (n + 1 + 1) * 65536 := by
    rw [endAfterAppend, hcmd, hlen, hs.end_, if_neg (by omega)]
    omega
  have hroom : AppendRoom s.log CSM cmd64K := by
    rw [AppendRoom, appendSkip, hcmd, hlen, hs.end_, hs.head, if_neg (by omega), Nat.sub_zero,
      Nat.add_mod_right, Nat.mod_eq_of_lt (by omega)]
    omega
  have hok : fifoOk s (.append 1 0 0 CSM cmd64K) :=
    ⟨by rw [hend]; omega, by rw [hs.end_, hs.head]; omega⟩
  obtain ⟨log', heq, -, hend', hhead⟩ := (reach_fifoInv hs.reach).append hroom hok
  have hstep : fifoStep s (.append 1 0 0 CSM cmd64K) ⟨log', s.fifo.push 1 0 0 CSM cmd64K⟩ :=
    ⟨hroom, ⟨_, heq⟩, rfl⟩
  refine ⟨_, ⟨hs.reach.step hok hstep, ?_, ?_, hend'.trans hend, hhead.trans hs.head⟩, hstep⟩
  · show (s.fifo.entries ++ [_]).length = _
    rw [List.length_append, hs.length, List.length_singleton]
  · intro e he
    rcases List.mem_append.mp he with hmem | hmem
    · exact hs.size e hmem
    · rw [List.mem_singleton.mp hmem, mkEntry_size, hcmd]

/-- The indices count them. -/
theorem exists_counted64K (n : Nat) (hn : n < 1023) :
    ∃ s, Appended64K s n ∧ s.fifo.nextIdx = UInt64.ofNat (n + 2) := by
  induction n with
  | zero =>
    obtain ⟨s, hs, -, -, hfifo⟩ := exists_first64K
    exact ⟨s, hs, by rw [hfifo]; rfl⟩
  | succ n ih =>
    obtain ⟨s, hs, hidx⟩ := ih (by omega)
    obtain ⟨s', hs', -, -, hfifo⟩ := hs.push hn
    refine ⟨s', hs', ?_⟩
    rw [hfifo, Fifo.push, hidx]
    exact (UInt64.ofNat_add (n + 2) 1).symm

theorem exists_appended64K (n : Nat) (hn : n < 1023) : ∃ s, Appended64K s n := by
  obtain ⟨s, hs, -⟩ := exists_counted64K n hn
  exact ⟨s, hs⟩

/-- The first of these entries can be pruned. -/
theorem Appended64K.walkTo {s : FifoState} {n : Nat} (h : Appended64K s n) :
    WalkTo s.log s.log.head [0] 65536 := by
  rcases reach_fifoInv h.reach with hfresh | ⟨V, v, hf⟩
  · have hlength := h.length
    rw [hfresh.fifo] at hlength
    cases hlength
  · obtain ⟨e, es, hes⟩ := List.exists_cons_of_length_eq_add_one h.length
    have hhead := hf.head
    rw [hes] at hhead
    have hsize := h.size e (by rw [hes]; exact List.mem_cons_self)
    have hoff := hhead.offset
    have hlog := logSize_eq
    have hlen := hf.len
    have hzero : v % s.log.len = 0 := by
      rw [h.head] at hoff
      rw [← hoff.2, Nat.zero_mod]
    have hstart : Lib.headerOffset entryFormat s.log.len v = 0 := by
      rw [Lib.headerOffset, hzero, ite_self]
    have hget := hhead.getEntry_cons hf.endsAt hf.end_ne_len
    have hfit := hhead.fit_iff hf.endsAt
    have hentry := hhead.header.2.2
    rw [hstart] at hget hfit hentry
    have hgo := WalkTo.visit hget (hfit.mpr (by rw [place_of_fit (by omega), hzero]))
      (WalkTo.refl _)
    rwa [hentry, hsize, Nat.zero_add] at hgo

end ExactFit

/-- Two appends to a new log are read back. -/
theorem circular_log_refines_fifo_two :
    ∃ s, Reach fifoInit fifoStep fifoOk s ∧ s.fifo.entries.length = 2 ∧ ReadsFifo s := by
  obtain ⟨s, hs⟩ := exists_appended64K 1 (by decide)
  exact ⟨s, hs.reach, hs.length, (circular_log_refines_fifo hs.reach).1⟩

/-- Fill the log with `1023` entries of `2 ^ 16` bytes, prune the first and append one more: the
    end is at the buffer end, and the walk finds no entry. -/
theorem not_circular_log_refines_fifo :
    ¬ ∀ s, Reach fifoInit fifoStep Always s → ReadsFifo s := by
  intro hall
  obtain ⟨s, hs⟩ := exists_appended64K 1022 (by decide)
  have hlog := logSize_eq
  have hcmd := appendSize_cmd64K
  have hprune : fifoStep s (.prune [0] 65536) ⟨{ s.log with head := 65536 }, s.fifo.pop 1⟩ :=
    ⟨hs.walkTo, rfl⟩
  have hok : fifoOk s (.prune [0] 65536) := trivial
  have hreach := hs.reach.step hok hprune
  obtain ⟨V, v, happ⟩ := (reach_fifoInv hreach).appendable
  have hlen : s.log.len = LOG_SIZE := happ.len
  have hroom : AppendRoom { s.log with head := 65536 } CSM cmd64K := by
    simp only [AppendRoom, appendSkip, hcmd, hlen, hs.end_]
    rw [if_neg (by omega), show (1022 + 1) * 65536 + LOG_SIZE - 65536 = 1022 * 65536 + LOG_SIZE by
      omega, Nat.add_mod_right, Nat.mod_eq_of_lt (by omega)]
    omega
  obtain ⟨log', heq, hlog'⟩ := happ.spec 1 0 0 CSM cmd64K hroom
    (by show s.log.end_ ≠ 65536; rw [hs.end_]; decide)
  have hend : log'.end_ = log'.len := by
    rw [hlog'.end_eq happ.endsAt happ.len, hlog'.len]
    simp only [endAfterAppend, hcmd, hlen, hs.end_]
    rw [if_neg (by omega)]
    omega
  have hlast : fifoStep ⟨{ s.log with head := 65536 }, s.fifo.pop 1⟩ (.append 1 0 0 CSM cmd64K)
      ⟨log', (s.fifo.pop 1).push 1 0 0 CSM cmd64K⟩ := ⟨hroom, ⟨_, heq⟩, rfl⟩
  have hbad := hall _ ((hreach.mono fun _ _ _ => trivial).step trivial hlast)
  obtain ⟨visited, stop, hwalk, hmap, -⟩ := hbad
  rw [walkFuel, readerWalk, logGetEntry_of_end_eq_len hend] at hwalk
  obtain ⟨rfl, -⟩ := Prod.mk.inj (Option.some.inj hwalk)
  have hlength := congrArg List.length hmap
  simp [Fifo.push] at hlength

end Apus
