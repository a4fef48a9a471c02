import Apus.Persist.Senders
import Apus.Commit.Model

namespace Apus

open Lib

/-!
# Acknowledgements are true

The loop over the not committed entries in `update_remote_logs` counts the reply bytes of an entry.
They are part of the entry: they are copied with it to other servers, and stay set when the leader
changes.

A log adjustment may cut an entry that a follower has acknowledged, and the byte stays set in the log
of a server that still holds the entry (`not_acks_true`).  If no adjustment cuts what was handed over,
and `head` goes only past entries that every server has committed, every reply that is counted stands
for an entry that the server holds at this offset and has handed over (`acks_true`).
-/

/-! ### What is counted -/

/-- The offsets of the entries whose replies the loop over the not committed entries counts. -/
def countedEntries (log : DareLog) (idx size : Nat) : Nat → Nat → List Nat
  | 0, _ => []
  | fuel + 1, minOffset =>
    match logGetEntry log minOffset with
    | none => []
    | some entry =>
      if !logFitEntry log entry entry then countedEntries log idx size fuel 0
      else entry ::
        if countReplies log.entries entry idx size < size / 2 + 1 then []
        else countedEntries log idx size fuel (entry + logEntryLen log.entries entry)

/-- The server counts the reply of `i` for the entry at `off`, in a configuration of `size` servers. -/
structure Counted (t : PersistState) (size off : Nat) (i : ServerIdx) : Prop where
  counted : off ∈ countedEntries t.log t.idx size (walkFuel t.log) t.log.commit
  lt_size : i < size
  other : (i : Nat) ≠ t.idx
  reply : replyAt t.log.entries off i = 1

/-- The log of the server holds an entry with this index and term at `off`, which was handed over. -/
structure HoldsStored (t : PersistState) (off : Nat) (key : UInt64 × UInt64) : Prop where
  live : ∃ live stop, readerWalk t.log (walkFuel t.log) t.log.head = some (live, stop) ∧ off ∈ live
  same : entryKey (readEntry t.log.entries off) = key
  stored : key ∈ t.stored

/-- Every reply that `p` counts is true. -/
def AcksTrue (s : AckCluster) (p : ServerIdx) : Prop :=
  ∀ size off i, Counted (s.servers p) size off i →
    HoldsStored (s.servers i) off (entryKey (readEntry (s.servers p).log.entries off))

/-! ### The condition -/

/-- The index and the term of the entries before the commit offset. -/
def committedKeys (t : PersistState) : List (UInt64 × UInt64) :=
  match readerWalk t.log (walkFuel t.log) t.log.commit with
  | none => []
  | some (live, _) => (t.written.take (t.written.length - live.length)).map entryKey

/-- The condition on the steps. -/
def truthOk (s : AckCluster) (l : AckLabel) : Prop :=
  ackOk s l ∧ match l with
  | .own _ .start => ∀ j, s.pruned j = 0
  | .own i (.setCommit off) =>
    ∃ visited, WalkTo (s.servers i).log (s.servers i).log.commit visited off
  | .recover _ q _ es => s.pruned q = 0 ∧ es = (s.servers q).written
  | .update q _ rmtEnd es => LastEntries (s.servers q).log rmtEnd es
  | .adjust _ i off _ => ∃ visited, WalkTo (s.servers i).log (s.servers i).log.commit visited off
  | .prune i visited off =>
    (∃ vs, WalkTo (s.servers i).log off vs (s.servers i).log.commit) ∧
      ∀ j, j ≠ i → (s.servers j).recovered = true →
        ∀ e ∈ (s.servers i).written.take (s.pruned i + visited.length),
          entryKey e ∈ committedKeys (s.servers j)
  | .land n p => ∀ r, s.flight[n]? = some r →
    entryKey (readEntry (s.servers p).log.entries r.det.offset) = detKey r.det
  | _ => True

variable {s s' : AckCluster} {i j p q : ServerIdx} {t t' : PersistState} {u c w off size : Nat}
  {key : UInt64 × UInt64}

/-- The entries that are counted are visited by the walk from the same offset. -/
theorem mem_of_counted {log : DareLog} {idx fuel start stop : Nat} {live : List Nat}
    (hwalk : readerWalk log fuel start = some (live, stop))
    (h : off ∈ countedEntries log idx size fuel start) : off ∈ live := by
  induction fuel generalizing start live with
  | zero => cases hwalk
  | succ fuel ih =>
    rw [readerWalk] at hwalk
    rw [countedEntries] at h
    cases hget : logGetEntry log start with
    | none =>
      rw [hget] at h
      cases h
    | some entry =>
      simp only [hget] at hwalk h
      cases hfit : logFitEntry log entry entry with
      | false =>
        simp only [hfit, Bool.false_eq_true, if_false, Bool.not_false, if_true] at hwalk h
        exact ih hwalk h
      | true =>
        simp only [hfit, if_true, Bool.not_true, Bool.false_eq_true, if_false] at hwalk h
        obtain ⟨⟨rest, stop'⟩, hr, heq⟩ := Option.map_eq_some_iff.mp hwalk
        obtain ⟨rfl, rfl⟩ := Prod.mk.inj heq
        rcases List.mem_cons.mp h with rfl | h
        · exact List.mem_cons_self
        · split at h
          · cases h
          · exact List.mem_cons_of_mem _ (ih hr h)

/-- The reply bytes are in the header. -/
theorem replyOff_lt (i : ServerIdx) : REPLY_OFF + (i : Nat) < ENTRY_SIZE :=
  (stampOff_lt i.isLt : stampOff i false < ENTRY_SIZE)

/-! ### What was handed over stays -/

/-- An entry with this index and term was handed over at `off`, and was not cut off since. -/
def AckedAt (t : PersistState) (off : Nat) (key : UInt64 × UInt64) : Prop :=
  ∃ k e, k < t.stored.length ∧ t.written[k]? = some e ∧ entryOff t.log t.written k = off ∧
    entryKey e = key

/-- The entries handed over stay where they are. -/
structure KeepsStored (t t' : PersistState) : Prop where
  len : t'.log.len = t.log.len
  count : t.stored.length ≤ t'.stored.length
  written : t'.written.take t.stored.length = t.written.take t.stored.length

namespace KeepsStored

theorem getElem? {k : Nat} (h : KeepsStored t t') (hk : k < t.stored.length) :
    t'.written[k]? = t.written[k]? := by
  rw [← List.getElem?_take_of_lt hk, h.written, List.getElem?_take_of_lt hk]

theorem take {n : Nat} (h : KeepsStored t t') (hn : n ≤ t.stored.length) :
    t'.written.take n = t.written.take n := by
  have hsame := congrArg (List.take n) h.written
  rwa [List.take_take, List.take_take, Nat.min_eq_left hn] at hsame

theorem acked (h : KeepsStored t t') (ha : AckedAt t off key) : AckedAt t' off key := by
  obtain ⟨k, e, hk, he, hoff, hkey⟩ := ha
  refine ⟨k, e, Nat.lt_of_lt_of_le hk h.count, (h.getElem? hk).trans he, ?_, hkey⟩
  rw [← hoff, ← entryOff_take hk, h.written, entryOff_take hk, entryOff_of_len h.len]

end KeepsStored

/-- Every step under the condition keeps what was handed over. -/
theorem persistStep_kept {l : PersistLabel} (hlen : ENTRY_SIZE ≤ t.log.len)
    (hcount : t.stored.length ≤ t.written.length)
    (hnew : t.recovered = false → t.stored = []) (hok : persistOk t l) (hs : persistStep t l t') :
    KeepsStored t t' := by
  have hframe := (persistStep_frame hlen hs).2
  -- a server that starts or recovers has handed over nothing
  have hfresh : ∀ {es : List DareLogEntry}, t.recovered = false →
      es.take t.stored.length = t.written.take t.stored.length := by
    intro es hrec
    rw [hnew hrec]
    rfl
  cases l with
  | start =>
    obtain ⟨hrec, -, -, rfl⟩ := hs
    exact ⟨hframe, le_refl _, hfresh hrec⟩
  | recover target readOk es =>
    obtain ⟨hrec, rfl⟩ := hs
    exact ⟨hframe, le_refl _, hfresh hrec⟩
  | append term reqId cltId type data =>
    obtain ⟨-, -, log, idx, happend, rfl⟩ := hs
    refine ⟨hframe, le_refl _, ?_⟩
    show (if isLogFull t.log then t.written
      else t.written ++ [mkEntry idx term reqId cltId type data]).take t.stored.length = _
    split
    · rfl
    · exact List.take_append_of_le_length hcount
  | resetTail =>
    obtain ⟨-, -, rfl⟩ := hs
    exact ⟨hframe, le_refl _, rfl⟩
  | update ldr rmtEnd es =>
    obtain ⟨-, rfl⟩ := hs
    exact ⟨hframe, le_refl _, List.take_append_of_le_length hcount⟩
  | adjust off n =>
    obtain ⟨-, rfl⟩ := hs
    -- entries that were handed over are not cut off
    obtain ⟨visited, -, -, hn⟩ := hok.reached
    refine ⟨hframe, le_refl _, ?_⟩
    show (t.written.take n).take t.stored.length = _
    rw [List.take_take, Nat.min_eq_left (by omega)]
  | persist =>
    obtain ⟨-, fuel, r, hcall, rfl⟩ := hs
    refine ⟨hframe, ?_, rfl⟩
    show t.stored.length ≤ (t.stored ++ r.2.map fun v => detKey v.det).length
    rw [List.length_append]
    exact Nat.le_add_right _ _
  | _ =>
    obtain ⟨-, rfl⟩ := hs
    exact ⟨hframe, le_refl _, rfl⟩

/-! ### The invariant -/

/-- A recovered server: its commit offset is a place of its log, the other servers have pruned only
    entries before it, and a reply byte of an entry stands for an entry that was handed over. -/
structure TruthInv (s : AckCluster) (p : ServerIdx) (u c w : Nat) : Prop where
  inv : PersistInv (s.servers p) (s.pruned p) u
  commit : PlaceAt (s.servers p).log (s.servers p).written u c w (s.servers p).log.commit
  pruned : ∀ i, i ≠ p → ∀ e ∈ (s.servers i).written.take (s.pruned i),
    entryKey e ∈ ((s.servers p).written.take c).map entryKey
  reply : ∀ k (i : ServerIdx) e, s.pruned p ≤ k → (s.servers p).written[k]? = some e →
    tag (s.servers p).log (s.servers p).written k (REPLY_OFF + i) = 1 →
    AckedAt (s.servers i) (entryOff (s.servers p).log (s.servers p).written k) (entryKey e)

/-- The invariant of the runs. -/
structure TruthSafe (s : AckCluster) : Prop where
  safe : AckSafe s
  fresh : ∀ i, (s.servers i).recovered = false → (s.servers i).log.end_ = (s.servers i).log.len →
    (s.servers i).log.commit = 0
  server : ∀ p, (s.servers p).recovered = true → ∃ u c w, TruthInv s p u c w
  flight : ∀ r ∈ s.flight, AckedAt (s.servers r.server) r.det.offset (detKey r.det)

/-! ### What a step does to a server -/

/-- The commit offset that is recovered is that of the target. -/
theorem RecoverOk.commit_eq {target : DareLog} {es : List DareLogEntry} (readOk : Bool)
    (hok : RecoverOk t target es) (hempty : target.end_ ≠ t.log.len) :
    (rcRecoverLog t.log target readOk).1.commit = target.commit ∧
      (rcRecoverLog t.log target readOk).1.end_ = target.end_ := by
  have hwrap : ¬ (0 < target.end_ ∧ target.end_ < t.log.head) := by
    rw [hok.head]
    omega
  -- no offset is larger than the end
  have hlarger : logIsOffsetLarger { t.log with end_ := target.end_ } target.commit target.end_ =
      false := by
    simp [logIsOffsetLarger, logOffsetEndDistance]
  rw [rcRecoverLog, if_neg hempty]
  simp only [if_neg hwrap, hlarger, Bool.false_eq_true, if_false]
  cases readOk <;> exact ⟨rfl, rfl⟩

/-- The entries that are recovered have the bookkeeping bytes of the target. -/
theorem RecoverOk.tag_eq {target : DareLog} {es : List DareLogEntry} {lo k d commit : Nat}
    (hok : RecoverOk t target es) (hempty : target.end_ ≠ t.log.len)
    (hlen : target.len = t.log.len) (hwin : LogWindow target es lo u) (hlo : lo ≤ k)
    (hk : k < es.length) (hd : d < ENTRY_SIZE) :
    tag { t.log with
      end_ := target.end_
      commit := commit
      entries := copyRange t.log.entries target.entries 0 target.end_ } es k d =
      tag target es k d := by
  obtain ⟨y, -, hend, -, hy⟩ := hwin.tag_eq hlo hk hd
  have hstop : target.end_ = logPos target es es.length := by
    rw [hok.end_eq hempty, logPos, logPos, hlen]
  have hwindow := hok.window
  rw [← hok.end_eq hempty] at hwindow
  have hlast : y % target.len < target.end_ := by
    rw [Nat.mod_eq_of_lt (by omega)]
    omega
  show getU8 (copyRange t.log.entries target.entries 0 target.end_) (entryOff t.log es k + d) = _
  rw [← entryOff_of_len hlen, tag, hy]
  exact copyRange_of_inside (Nat.zero_le _) (by omega)

/-- The commit offset stays a place of the log when `head` does not go past it. -/
theorem PersistInv.commit_pruned {lo lo' u' : Nat} {visited vs : List Nat} (h : PersistInv t lo u)
    (hplace : PlaceAt t.log t.written u c w t.log.commit)
    (hwalk : WalkTo t.log t.log.head visited off) (hvs : WalkTo t.log off vs t.log.commit)
    (h' : PersistInv { t with log := { t.log with head := off } } lo' u') :
    ∃ c' w', c ≤ c' ∧ PlaceAt t.log t.written u' c' w' t.log.commit := by
  by_cases hempty : t.log.end_ = t.log.len
  · -- nothing was written
    obtain ⟨-, hoff⟩ := hvs.of_end_eq_len hempty
    have hcount := hplace.count_le
    rw [h.empty hempty, List.length_nil] at hcount
    rw [hoff]
    exact ⟨lo', u', by omega, h'.headPlace.of_len rfl⟩
  · obtain ⟨v, hv⟩ := h.window.placeAt h.endsAt hempty h.headOff hwalk
    have hwin := h.window.place hv
    obtain ⟨w', hw'⟩ := hwin.placeAt h.endsAt hempty hv.offset hvs
    have hwindow : logPos t.log t.written t.written.length < v + t.log.len := hwin.window
    have hwindow' : logPos t.log t.written t.written.length < u' + t.log.len := h'.window.window
    have hend : v ≤ logPos t.log t.written t.written.length := hwin.le_end
    have hend' : u' ≤ logPos t.log t.written t.written.length := h'.window.le_end
    have hhead : IsOffset t.log.len u' off := h'.headOff
    obtain rfl : u' = v := hhead.eq_of_lt hv.offset (by omega) (by omega)
    refine ⟨_, w', Nat.le_of_eq ?_, hw'⟩
    exact hplace.count_eq h.window
      ⟨hw'.mark, hv.le.trans hw'.le, hw'.le_end, hw'.count_le, hw'.offset⟩

/-- An acknowledgement stays true when what was handed over stays. -/
theorem KeepsStored.acked_set (hkept : KeepsStored (s.servers i) t)
    (hservers : s'.servers = Function.update s.servers i t) (ha : AckedAt (s.servers j) off key) :
    AckedAt (s'.servers j) off key := by
  by_cases hj : j = i
  · subst hj
    rw [hservers, Function.update_self]
    exact hkept.acked ha
  · rw [hservers, Function.update_of_ne hj]
    exact ha

namespace TruthInv

/-- The entries before the commit offset are those before its place. -/
theorem committedKeys_eq (h : TruthInv s p u c w) :
    committedKeys (s.servers p) = ((s.servers p).written.take c).map entryKey := by
  obtain ⟨live, stop, hwalk, hlive⟩ := h.inv.walk_from h.commit
  have hcount := h.commit.count_le
  have hlength : live.length = (s.servers p).written.length - c := by
    rw [hlive, List.length_map, List.length_range']
  rw [committedKeys, hwalk]
  simp only [hlength]
  rw [Nat.sub_sub_self hcount]

/-- The servers other than the one that takes the step. -/
theorem other (h : TruthInv s p u c w)
    (hservers : s'.servers = Function.update s.servers i t) (hkept : KeepsStored (s.servers i) t)
    (hpruned : ∀ j, j ≠ i → s'.pruned j = s.pruned j) (hp : p ≠ i)
    (hcut : ∀ e ∈ t.written.take (s'.pruned i),
      entryKey e ∈ ((s.servers p).written.take c).map entryKey) : TruthInv s' p u c w := by
  have hself : s'.servers p = s.servers p := by rw [hservers, Function.update_of_ne hp]
  refine ⟨?_, ?_, fun j hj e he => ?_, fun k j e hlo he htag => ?_⟩
  · rw [hself, hpruned p hp]
    exact h.inv
  · rw [hself]
    exact h.commit
  · rw [hself]
    by_cases hji : j = i
    · subst hji
      rw [hservers, Function.update_self] at he
      exact hcut e he
    · rw [hservers, Function.update_of_ne hji, hpruned j hji] at he
      exact h.pruned j hj e he
  · rw [hself] at he htag ⊢
    rw [hpruned p hp] at hlo
    exact hkept.acked_set hservers (h.reply k j e hlo he htag)

end TruthInv

namespace TruthSafe

theorem stored_of_joining (h : TruthSafe s) (hrec : (s.servers i).recovered = false) :
    (s.servers i).stored = [] := by
  obtain ⟨hjoin, -⟩ := (h.safe.server i).joining hrec
  exact hjoin.stored

theorem recovered_of_leader (h : TruthSafe s) (hlead : (s.servers p).isLeader = true) :
    (s.servers p).recovered = true := by
  cases hrec : (s.servers p).recovered with
  | true => rfl
  | false =>
    obtain ⟨-, hfollower, -⟩ := (h.safe.server p).joining hrec
    exact absurd (hfollower.symm.trans hlead) (by decide)

/-- What a leader counts is true. -/
theorem acksTrue (h : TruthSafe s) (hrec : (s.servers p).recovered = true) : AcksTrue s p := by
  intro size off i hc
  obtain ⟨u, c, w, hp⟩ := h.server p hrec
  have hne : i ≠ p := by
    rintro rfl
    exact hc.other (h.safe.server i).idx.symm
  -- the entry is behind the commit offset
  obtain ⟨live, stop, hwalk, hlive⟩ := hp.inv.walk_from hp.commit
  have hmem := mem_of_counted hwalk hc.counted
  rw [hlive] at hmem
  obtain ⟨k, hk, rfl⟩ := List.mem_map.mp hmem
  obtain ⟨hck, hk'⟩ := List.mem_range'_1.mp hk
  have hlt : k < (s.servers p).written.length := by omega
  have he : (s.servers p).written[k]? = some (s.servers p).written[k] := List.getElem?_eq_getElem hlt
  have hpk : s.pruned p ≤ k := by
    have hle := hp.inv.window.mark.le_of_le hp.inv.window.len_pos hp.commit.mark hp.commit.le
      hp.inv.lo_le_written
    omega
  have hreply := hc.reply
  rw [replyAt, Nat.add_assoc] at hreply
  obtain ⟨k', e', hk', he', hoff, hkey⟩ := hp.reply k i _ hpk he hreply
  rw [hp.inv.window.read_entryOff hpk he]
  have hrec' : (s.servers i).recovered = true := by
    cases hrec' : (s.servers i).recovered with
    | true => rfl
    | false =>
      rw [h.stored_of_joining hrec'] at hk'
      exact absurd hk' (Nat.not_lt_zero _)
  obtain ⟨u', c', w', hi⟩ := h.server i hrec'
  have hpruned : s.pruned i ≤ k' := by
    by_contra hcon
    -- the entry would be before the commit offset
    have hbefore := hp.pruned i hne e'
      (List.mem_of_getElem? ((List.getElem?_take_of_lt (by omega)).trans he'))
    rw [hkey] at hbefore
    rw [List.map_take] at hbefore
    obtain ⟨m, hget⟩ := List.mem_iff_getElem?.mp hbefore
    have hmc : m < c := by
      by_contra hcon
      rw [List.getElem?_take, if_neg hcon] at hget
      cases hget
    rw [List.getElem?_take_of_lt hmc] at hget
    have hsame : ((s.servers p).written.map entryKey)[k]? =
        ((s.servers p).written.map entryKey)[m]? := by
      rw [hget, List.getElem?_map, he]
      rfl
    have hkm := (List.getElem?_inj (by rw [List.length_map]; exact hlt) hp.inv.nodup).mp hsame
    omega
  refine ⟨?_, ?_, ?_⟩
  · obtain ⟨live', stop', hwalk', -⟩ := hi.inv.live
    refine ⟨live', stop', hwalk', (hi.inv.exists_of_live hwalk').mpr ⟨k', hpruned, ?_, hoff⟩⟩
    exact (List.getElem?_eq_some_iff.mp he').1
  · rw [← hoff, hi.inv.window.read_entryOff hpruned he', hkey]
  · rw [hi.inv.keys, ← hkey]
    exact List.mem_map_of_mem
      (List.mem_of_getElem? ((List.getElem?_take_of_lt hk').trans he'))

/-! ### The steps -/

/-- Only entries that were handed over are pruned. -/
theorem pruned_le (h : TruthSafe s) (i : ServerIdx) : s.pruned i ≤ (s.servers i).stored.length := by
  cases hrec : (s.servers i).recovered with
  | false =>
    obtain ⟨-, -, hzero⟩ := (h.safe.server i).joining hrec
    omega
  | true =>
    obtain ⟨u, c, w, hi⟩ := h.server i hrec
    exact hi.inv.lo_le

theorem kept (h : TruthSafe s) {l : PersistLabel} (hok : persistOk (s.servers i) l)
    (hs : persistStep (s.servers i) l t) : KeepsStored (s.servers i) t := by
  refine persistStep_kept (h.safe.server i).hdr_le ?_ h.stored_of_joining hok hs
  cases hrec : (s.servers i).recovered with
  | false =>
    rw [h.stored_of_joining hrec]
    exact Nat.zero_le _
  | true =>
    obtain ⟨u, c, w, hi⟩ := h.server i hrec
    exact hi.inv.cursor.count_le

/-- A step of one server, other than pruning. -/
theorem set (h : TruthSafe s) (hs' : AckSafe s')
    (hservers : s'.servers = Function.update s.servers i t) (hpruned : s'.pruned = s.pruned)
    (hkept : KeepsStored (s.servers i) t)
    (hfresh : t.recovered = false → t.log.end_ = t.log.len → t.log.commit = 0)
    (hi : t.recovered = true → ∃ u c w, TruthInv s' i u c w)
    (hflight : ∀ r ∈ s'.flight, r ∈ s.flight ∨
      AckedAt (s'.servers r.server) r.det.offset (detKey r.det)) : TruthSafe s' := by
  have hself : s'.servers i = t := by rw [hservers, Function.update_self]
  refine ⟨hs', fun p => ?_, fun p => ?_, fun r hr => ?_⟩
  · by_cases hp : p = i
    · subst hp
      rw [hself]
      exact hfresh
    · rw [hservers, Function.update_of_ne hp]
      exact h.fresh p
  · by_cases hp : p = i
    · subst hp
      rw [hself]
      exact hi
    · intro hrec
      rw [hservers, Function.update_of_ne hp] at hrec
      obtain ⟨u, c, w, hinv⟩ := h.server p hrec
      refine ⟨u, c, w, hinv.other hservers hkept (fun j _ => by rw [hpruned]) hp ?_⟩
      rw [hpruned, hkept.take (h.pruned_le i)]
      exact hinv.pruned i (Ne.symm hp)
  · rcases hflight r hr with hold | hnew
    · exact hkept.acked_set hservers (h.flight r hold)
    · exact hnew

/-- A step of a recovered server, other than pruning: its commit offset does not go back, and the reply
    bytes that are set are old ones or true. -/
theorem keep {l : PersistLabel} (h : TruthSafe s) (hs' : AckSafe s')
    (hservers : s'.servers = Function.update s.servers i t) (hpruned : s'.pruned = s.pruned)
    (hrec : (s.servers i).recovered = true) (hl : ∀ off, l ≠ .prune off)
    (hok : persistOk (s.servers i) l) (hs : persistStep (s.servers i) l t)
    (hcommit : ∀ u c w, PersistInv (s.servers i) (s.pruned i) u →
      PlaceAt (s.servers i).log (s.servers i).written u c w (s.servers i).log.commit →
      ∃ c' w', c ≤ c' ∧ t.written.take c = (s.servers i).written.take c ∧
        PlaceAt t.log t.written u c' w' t.log.commit)
    (hreply : ∀ u, PersistInv (s.servers i) (s.pruned i) u → ∀ k (j : ServerIdx) e,
      s.pruned i ≤ k → t.written[k]? = some e → tag t.log t.written k (REPLY_OFF + j) = 1 →
      (s.servers i).written[k]? = some e ∧
          tag (s.servers i).log (s.servers i).written k (REPLY_OFF + j) = 1 ∧
          entryOff t.log t.written k = entryOff (s.servers i).log (s.servers i).written k ∨
        AckedAt (s'.servers j) (entryOff t.log t.written k) (entryKey e))
    (hflight : ∀ r ∈ s'.flight, r ∈ s.flight ∨
      AckedAt (s'.servers r.server) r.det.offset (detKey r.det)) : TruthSafe s' := by
  have hkept := h.kept hok hs
  have hself : s'.servers i = t := by rw [hservers, Function.update_self]
  obtain ⟨u, c, w, hi⟩ := h.server i hrec
  obtain ⟨hrec', hinv'⟩ := hi.inv.step hrec hl hok hs
  refine h.set hs' hservers hpruned hkept (fun hcon => ?_) (fun _ => ?_) hflight
  · rw [hrec'] at hcon
    cases hcon
  · obtain ⟨c', w', hle, htake, hplace⟩ := hcommit u c w hi.inv hi.commit
    refine ⟨u, c', w', ?_, ?_, fun j hj e he => ?_, fun k j e hlo he htag => ?_⟩
    · rw [hself, hpruned]
      exact hinv'
    · rw [hself]
      exact hplace
    · -- what the others have pruned is before the commit offset
      rw [hservers, Function.update_of_ne hj, hpruned] at he
      have hmem := hi.pruned j hj e he
      rw [← htake] at hmem
      rw [hself]
      exact List.map_subset _ (List.take_sublist_take_left hle).subset hmem
    · rw [hself] at he htag ⊢
      rw [hpruned] at hlo
      rcases hreply u hi.inv k j e hlo he htag with ⟨he', htag', hoff⟩ | hnew
      · rw [hoff]
        exact hkept.acked_set hservers (hi.reply k j e hlo he' htag')
      · exact hnew

/-- A step that changes neither the entries nor the commit offset. -/
theorem keep_same {l : PersistLabel} (h : TruthSafe s) (hs' : AckSafe s')
    (hservers : s'.servers = Function.update s.servers i t) (hpruned : s'.pruned = s.pruned)
    (hrec : (s.servers i).recovered = true) (hl : ∀ off, l ≠ .prune off)
    (hok : persistOk (s.servers i) l) (hs : persistStep (s.servers i) l t)
    (hwritten : t.written = (s.servers i).written) (hlen : t.log.len = (s.servers i).log.len)
    (hentries : t.log.entries = (s.servers i).log.entries)
    (hcommit : t.log.commit = (s.servers i).log.commit) (hflight : s'.flight = s.flight) :
    TruthSafe s' := by
  refine h.keep hs' hservers hpruned hrec hl hok hs ?_ ?_ fun r hr => .inl (hflight ▸ hr)
  · intro u c w _ hplace
    rw [hwritten, hcommit]
    exact ⟨c, w, le_refl c, rfl, hplace.of_len hlen⟩
  · intro u _ k j e _ he htag
    rw [hwritten] at he htag ⊢
    rw [tag_of_eq hlen hentries] at htag
    exact .inl ⟨he, htag, entryOff_of_len hlen⟩

/-- The leader appends an entry, which has no replies. -/
theorem append {term reqId idx : UInt64} {cltId : UInt16} {type : UInt8} {data : EntryData}
    {log : DareLog} (h : TruthSafe s) (hs' : AckSafe s')
    (hrec : (s.servers i).recovered = true) (hlead : (s.servers i).isLeader = true)
    (hok : PersistAppendOk (s.servers i) type data)
    (happend : logAppendEntry (s.servers i).log term reqId cltId type data = some (log, idx))
    (hs : s' = s.set i { s.servers i with
      log := log
      written := if isLogFull (s.servers i).log then (s.servers i).written
        else (s.servers i).written ++ [mkEntry idx term reqId cltId type data] }) :
    TruthSafe s' := by
  subst hs
  refine h.keep (i := i) (l := .append term reqId cltId type data) hs' rfl rfl hrec nofun hok
    ⟨hrec, hlead, log, idx, happend, rfl⟩ ?_ ?_ fun r hr => .inl hr
  · -- the commit offset stays where it is
    intro u c w hinv hplace
    obtain ⟨es, hes, -, -⟩ := hinv.append_tag hok happend
    have hframe : log.commit = (s.servers i).log.commit ∧ log.len = (s.servers i).log.len := by
      rcases hinv.holds.append_cases hok happend with ⟨-, b, rfl⟩ | ⟨e, -, -, happ, -⟩
      · exact ⟨rfl, rfl⟩
      · exact ⟨happ.commit, happ.len⟩
    simp only [hes, hframe.1]
    exact ⟨c, w, le_refl c, List.take_append_of_le_length hplace.count_le,
      (hplace.append es hinv.window.len_pos).of_len hframe.2⟩
  · -- the new entry has no replies
    intro u hinv k j e hlo he htag
    obtain ⟨es, hes, hold, hnew⟩ := hinv.append_tag hok happend
    have hlen : log.len = (s.servers i).log.len := by
      rcases hinv.holds.append_cases hok happend with ⟨-, b, rfl⟩ | ⟨e, -, -, happ, -⟩
      · rfl
      · exact happ.len
    simp only [hes] at he htag ⊢
    obtain ⟨hk, -⟩ := List.getElem?_eq_some_iff.mp he
    rcases Nat.lt_or_ge k (s.servers i).written.length with hlt | hge
    · rw [hold k hlo hlt _ (replyOff_lt j)] at htag
      rw [List.getElem?_append_left hlt] at he
      exact .inl ⟨he, htag, (entryOff_append hlt).trans (entryOff_of_len hlen)⟩
    · rw [hnew k hge hk j j.isLt] at htag
      cases htag

/-- The leader writes the last entries of its log, with their reply bytes. -/
theorem update {rmtEnd : Nat} {es : List DareLogEntry} (h : TruthSafe s) (hs' : AckSafe s')
    (hrec : (s.servers i).recovered = true) (hlead : (s.servers q).isLeader = true)
    (hok : UpdateOk (s.servers i) (s.servers q).log rmtEnd es)
    (hlast : LastEntries (s.servers q).log rmtEnd es)
    (hs : s' = s.set i { s.servers i with
      log := copied (s.servers i).log (s.servers q).log.entries rmtEnd (s.servers q).log.end_
      written := (s.servers i).written ++ es }) : TruthSafe s' := by
  have hkept : KeepsStored (s.servers i) _ :=
    h.kept (l := .update (s.servers q).log rmtEnd es) hok ⟨hrec, rfl⟩
  subst hs
  refine h.keep (i := i) (l := .update (s.servers q).log rmtEnd es) hs' rfl rfl hrec nofun hok
    ⟨hrec, rfl⟩ ?_ ?_ fun r hr => .inl hr
  · intro u c w hinv hplace
    exact ⟨c, w, le_refl c, List.take_append_of_le_length hplace.count_le,
      (hplace.append es hinv.window.len_pos).of_len rfl⟩
  · intro u hinv k j e hlo he htag
    have hd := replyOff_lt j
    rcases Nat.lt_or_ge k (s.servers i).written.length with hlt | hge
    · have hold := hinv.update_tag hok hlo hlt hd
      rw [List.getElem?_append_left hlt] at he
      exact .inl ⟨he, hold.symm.trans htag, (entryOff_append hlt).trans (entryOff_of_len rfl)⟩
    · -- the entry and its reply byte are those of the leader
      right
      obtain ⟨m, rfl⟩ := Nat.exists_eq_add_of_le hge
      obtain ⟨⟨vs, hstart⟩, visited, stop, hwalk, hes⟩ := hlast
      obtain ⟨u', c', w', hq⟩ := h.server q (h.recovered_of_leader hlead)
      have hlen : (s.servers q).log.len = (s.servers i).log.len := by
        rw [(h.safe.server q).len, (h.safe.server i).len]
      obtain ⟨a, -, -, hlo', hsame⟩ := hinv.update_from hq.inv hlen hok hstart (.of_readerWalk hwalk)
        hes
      rw [List.getElem?_append_right hge, Nat.add_sub_cancel_left] at he
      obtain ⟨hm, -⟩ := List.getElem?_eq_some_iff.mp he
      obtain ⟨hget, hoff, hbytes⟩ := hsame m hm
      have htrue := hq.reply (a + m) j e (by omega) (hget.trans he) ((hbytes _ hd).symm.trans htag)
      rw [hoff] at htrue
      exact hkept.acked_set rfl htrue

/-- The commit offset moves along the log. -/
theorem setCommit (h : TruthSafe s) (hs' : AckSafe s') (hrec : (s.servers i).recovered = true)
    (hwalk : ∃ visited, WalkTo (s.servers i).log (s.servers i).log.commit visited off)
    (hs : s' = s.set i { s.servers i with log := { (s.servers i).log with commit := off } }) :
    TruthSafe s' := by
  subst hs
  refine h.keep (i := i) (l := .setCommit off) hs' rfl rfl hrec nofun trivial ⟨hrec, rfl⟩ ?_
    (fun u _ k j e _ he htag => .inl ⟨he, htag, rfl⟩) fun r hr => .inl hr
  intro u c w hinv hplace
  obtain ⟨vs, hvs⟩ := hwalk
  by_cases hempty : (s.servers i).log.end_ = (s.servers i).log.len
  · obtain ⟨-, rfl⟩ := hvs.of_end_eq_len hempty
    exact ⟨c, w, le_refl c, rfl, hplace.of_len rfl⟩
  · obtain ⟨w', hw'⟩ := (hinv.window.place hplace).placeAt hinv.endsAt hempty hplace.offset hvs
    have hsame : PlaceAt (s.servers i).log (s.servers i).written u (c + vs.length) w' off :=
      ⟨hw'.mark, hplace.le.trans hw'.le, hw'.le_end, hw'.count_le, hw'.offset⟩
    exact ⟨_, w', Nat.le_add_right c _, rfl, hsame.of_len rfl⟩

/-- A log adjustment does not go behind the commit offset. -/
theorem adjust {n : Nat} (h : TruthSafe s) (hs' : AckSafe s')
    (hrec : (s.servers i).recovered = true) (hok : AdjustOk (s.servers i) off n)
    (hcommit : ∃ visited, WalkTo (s.servers i).log (s.servers i).log.commit visited off)
    (hs : s' = s.set i { s.servers i with
      log := { (s.servers i).log with end_ := off }, written := (s.servers i).written.take n }) :
    TruthSafe s' := by
  subst hs
  refine h.keep (i := i) (l := .adjust off n) hs' rfl rfl hrec nofun hok ⟨hrec, rfl⟩ ?_ ?_
    fun r hr => .inl hr
  · intro u c w hinv hplace
    obtain ⟨vs, hwalk⟩ := hcommit
    obtain ⟨hn, hmod⟩ := hinv.adjust_place hok
    by_cases hempty : (s.servers i).log.end_ = (s.servers i).log.len
    · have hnil := hinv.empty hempty
      refine ⟨c, w, le_refl c, by simp [hnil], ?_⟩
      simp only [hnil, List.take_nil] at hplace ⊢
      exact hplace.of_len rfl
    · have hwin := hinv.window.place hplace
      obtain ⟨w', hw'⟩ := hwin.placeAt hinv.endsAt hempty hplace.offset hwalk
      have hpos := hinv.window.len_pos
      have hstored : (s.servers i).stored.length ≤ n := by
        obtain ⟨visited, -, -, hcount⟩ := hok.reached
        omega
      have hfirst : logPos (s.servers i).log (s.servers i).written (s.servers i).stored.length ≤
        logPos (s.servers i).log (s.servers i).written n := pos_mono hpos hstored
      have hend : PlaceAt (s.servers i).log (s.servers i).written u n
          (logPos (s.servers i).log (s.servers i).written n) off :=
        ⟨Mark.pos n, hinv.cursor.le.trans hfirst, pos_mono hpos hn, hn, hok.lt_len.le, hmod⟩
      -- the new end is the place that the walk from the commit offset takes
      have hsame := hend.eq_of_offset hinv.window
        ⟨hw'.mark, hplace.le.trans hw'.le, hw'.le_end, hw'.count_le, hw'.offset⟩
      have hle : w ≤ logPos (s.servers i).log (s.servers i).written n := hsame ▸ hw'.le
      have hcn : c ≤ n := hplace.mark.le_of_le hpos (Mark.pos n) hle hplace.count_le
      have hcut : PlaceAt (s.servers i).log ((s.servers i).written.take n) u c w
          (s.servers i).log.commit := by
        rw [← List.take_append_drop n (s.servers i).written] at hplace
        refine hplace.of_append hpos ?_
        rw [List.length_take_of_le hn]
        exact hle.trans (pos_take (le_refl n)).ge
      refine ⟨c, w, le_refl c, ?_, hcut.of_len rfl⟩
      show ((s.servers i).written.take n).take c = _
      rw [List.take_take, Nat.min_eq_left hcn]
  · intro u hinv k j e hlo he htag
    obtain ⟨hk, -⟩ := List.getElem?_eq_some_iff.mp he
    rw [List.length_take] at hk
    rw [List.getElem?_take_of_lt (by omega)] at he
    rw [tag_take (by omega)] at htag
    exact .inl ⟨he, htag, (entryOff_take (by omega)).trans (entryOff_of_len rfl)⟩

/-- A reply write takes effect at the entry that it was made for. -/
theorem land {n : Nat} {r : PostedReply} (h : TruthSafe s) (hs' : AckSafe s')
    (hr : s.flight[n]? = some r) (hrec : (s.servers p).recovered = true)
    (hok : persistOk (s.servers p) (.reply r.det.offset r.server 1))
    (hkey : entryKey (readEntry (s.servers p).log.entries r.det.offset) = detKey r.det)
    (hs : s' = { s.set p { s.servers p with log := { (s.servers p).log with
        entries := setU8 (s.servers p).log.entries r.write.offset 1 } } with
      flight := s.flight.eraseIdx n }) : TruthSafe s' := by
  have hstep := h.safe.land_step hr hrec
  have hkept := h.kept hok hstep
  rw [h.safe.reply r (List.mem_of_getElem? hr)] at hs hstep hkept
  subst hs
  refine h.keep (i := p) (l := .reply _ _ _) hs' rfl rfl hrec nofun hok hstep ?_ ?_
    fun r hr => .inl (List.mem_of_mem_eraseIdx hr)
  · intro u c w _ hplace
    exact ⟨c, w, le_refl c, rfl, hplace.of_len rfl⟩
  · intro u hinv k j e hlo he htag
    obtain ⟨hi, live, stop, hwalk, hentry⟩ := hok
    obtain ⟨hk, -⟩ := List.getElem?_eq_some_iff.mp he
    rcases hinv.reply_tag hi hwalk hentry (b := 1) hlo hk (replyOff_lt j) with
      hsame | ⟨hoff, hd, -⟩
    · exact .inl ⟨he, hsame.symm.trans htag, entryOff_of_len rfl⟩
    · -- the byte that is set
      right
      obtain rfl : j = r.server := Fin.ext (Nat.add_left_cancel hd)
      rw [← hoff, hinv.window.read_entryOff hlo he] at hkey
      have htrue := h.flight r (List.mem_of_getElem? hr)
      rw [← hkey, ← hoff] at htrue
      exact hkept.acked_set rfl htrue

/-- The entries handed over by a call of `persist_new_entries` are acknowledged. -/
theorem persist {fuel : Nat} {r : DareLog × List Visit} (h : TruthSafe s) (hs' : AckSafe s')
    (hrec : (s.servers i).recovered = true)
    (hcall : persistNewEntries (s.servers i).idx (s.servers i).isLeader fuel (s.servers i).log =
      some r)
    (hs : s' = { s.set i { s.servers i with
        log := r.1, stored := (s.servers i).stored ++ r.2.map fun v => detKey v.det } with
      flight := s.flight ++ posted i r.2 }) : TruthSafe s' := by
  have hlen := persistNewEntries_len hcall
  have hidx := (h.safe.server i).idx
  have hall : ∀ {u k e}, PersistInv (s.servers i) (s.pruned i) u →
      (s.servers i).written[k]? = some e →
      AckedAt (s'.servers i) (entryOff (s.servers i).log (s.servers i).written k) (entryKey e) := by
    intro u k e hinv he
    obtain ⟨hk, -⟩ := List.getElem?_eq_some_iff.mp he
    subst hs
    simp only [AckCluster.set, Function.update_self]
    refine ⟨k, e, ?_, he, entryOff_of_len hlen, rfl⟩
    rw [hinv.persist_length hcall]
    exact hk
  subst hs
  refine h.keep (i := i) (l := .persist) hs' rfl rfl hrec (fun _ hcon => by cases hcon) trivial
    ⟨hrec, fuel, r, hcall, rfl⟩ ?_ ?_ ?_
  · intro u c w hinv hplace
    have hcommit : r.1.commit = (s.servers i).log.commit := by rw [(hinv.of_call hcall).frame]
    have hsame : PlaceAt r.1 (s.servers i).written u c w r.1.commit := by
      rw [hcommit]
      exact hplace.of_len hlen
    exact ⟨c, w, le_refl c, rfl, hsame⟩
  · intro u hinv k j e hlo he htag
    obtain ⟨hk, -⟩ := List.getElem?_eq_some_iff.mp he
    rcases hinv.persist_tag hcall hlo hk (replyOff_lt j) with hsame | ⟨hd, -, -⟩
    · exact .inl ⟨he, hsame.symm.trans htag, entryOff_of_len hlen⟩
    · -- a follower sets its own reply
      right
      obtain rfl : j = i := by
        rw [hidx, stampOff] at hd
        split at hd
        · simp only [SENDER_OFF, REPLY_OFF] at hd
          omega
        · exact Fin.ext (Nat.add_left_cancel hd)
      have htrue := hall hinv he
      rwa [← entryOff_of_len hlen] at htrue
  · intro p hp
    refine (List.mem_append.mp hp).imp id fun hnew => ?_
    obtain ⟨v, hv, hpost⟩ := List.mem_filterMap.mp hnew
    obtain ⟨w, -, rfl⟩ := Option.map_eq_some_iff.mp hpost
    obtain ⟨u, c, w', hi⟩ := h.server i hrec
    obtain ⟨k, -, e, he, hoff, hkey⟩ := hi.inv.visit hcall hv
    rw [hoff, hkey]
    exact hall hi.inv he

/-- A server starts with a new log, before anything is pruned. -/
theorem start (h : TruthSafe s) (hs' : AckSafe s') (hrec : (s.servers i).recovered = false)
    (hhead : (s.servers i).log.head = 0) (hend : (s.servers i).log.end_ = (s.servers i).log.len)
    (hnone : ∀ j, (s.servers j).written.take (s.pruned j) = [])
    (hs : s' = s.set i { s.servers i with recovered := true, written := [] }) : TruthSafe s' := by
  obtain ⟨hjoin, -, hzero⟩ := (h.safe.server i).joining hrec
  have hkept : KeepsStored (s.servers i) _ := h.kept (l := .start) trivial ⟨hrec, hhead, hend, rfl⟩
  subst hs
  refine h.set (i := i) hs' rfl rfl hkept nofun (fun _ => ⟨0, 0, 0, ?_, ?_, ?_, ?_⟩)
    fun r hr => .inl hr
  all_goals simp only [AckCluster.set, Function.update_self, hzero]
  · exact hjoin.start hhead hend
  · rw [h.fresh i hrec hend]
    exact ⟨.inl (pos_zero).symm, le_refl _, Nat.zero_le _, le_refl _, Nat.zero_le _, rfl⟩
  · intro j hj e he
    rw [Function.update_of_ne hj, hnone j] at he
    cases he
  · intro k j e _ he
    cases he

/-- A joining server recovers the log of a server that has pruned nothing. -/
theorem recover {readOk : Bool} (h : TruthSafe s) (hs' : AckSafe s')
    (hrec : (s.servers i).recovered = false) (hq : (s.servers q).recovered = true)
    (hnone : s.pruned q = 0)
    (hok : RecoverOk (s.servers i) (s.servers q).log (s.servers q).written)
    (hs : s' = s.set i { s.servers i with
      log := (rcRecoverLog (s.servers i).log (s.servers q).log readOk).1
      recovered := (rcRecoverLog (s.servers i).log (s.servers q).log readOk).2
      written := (s.servers q).written }) : TruthSafe s' := by
  obtain ⟨hjoin, -, hzero⟩ := (h.safe.server i).joining hrec
  obtain ⟨u, c, w, hqinv⟩ := h.server q hq
  have hpruned : ∀ j, ∀ e ∈ (s.servers j).written.take (s.pruned j),
      entryKey e ∈ ((s.servers q).written.take c).map entryKey := by
    intro j e he
    by_cases hjq : j = q
    · rw [hjq, hnone, List.take_zero] at he
      cases he
    · exact hqinv.pruned j hjq e he
  by_cases hempty : (s.servers q).log.end_ = (s.servers i).log.len
  · -- an empty log is a new one
    obtain ⟨hend, hnil⟩ := hok.empty hempty
    have hsame : rcRecoverLog (s.servers i).log (s.servers q).log readOk =
      ((s.servers i).log, true) := by rw [rcRecoverLog, if_pos hempty]
    rw [hsame, hnil] at hs
    refine h.start hs' hrec hok.head hend (fun j => List.eq_nil_iff_forall_not_mem.mpr ?_) hs
    intro e he
    have hmem := hpruned j e he
    rw [hnil, List.take_nil] at hmem
    cases hmem
  · have hstep : persistStep (s.servers i)
      (.recover (s.servers q).log readOk (s.servers q).written) _ := ⟨hrec, rfl⟩
    have hlen : (rcRecoverLog (s.servers i).log (s.servers q).log readOk).1.len =
      (s.servers i).log.len := (persistStep_frame (h.safe.server i).hdr_le hstep).2
    have hlen' : (s.servers q).log.len = (s.servers i).log.len := by
      rw [(h.safe.server q).len, (h.safe.server i).len]
    have hkept : KeepsStored (s.servers i) _ :=
      h.kept (l := .recover (s.servers q).log readOk (s.servers q).written) hok hstep
    obtain ⟨hcommit, hend⟩ := hok.commit_eq readOk hempty
    subst hs
    refine h.set (i := i) hs' rfl rfl hkept (fun _ hcon => ?_) (fun hdone => ?_) fun r hr => .inl hr
    · exact absurd ((hend.symm.trans hcon).trans hlen) hempty
    · have hinv := hjoin.recover hok hdone
      rw [← hdone] at hinv
      refine ⟨0, c, w, ?_, ?_, fun j hj e he => ?_, fun k j e _ he htag => ?_⟩
      all_goals simp only [AckCluster.set, Function.update_self, hzero] at *
      · exact hinv
      · rw [hcommit]
        have hplace := hqinv.commit.of_len (hlen.trans hlen'.symm)
        exact ⟨hplace.mark, Nat.zero_le _, hplace.le_end, hplace.count_le, hplace.offset⟩
      · rw [Function.update_of_ne hj] at he
        exact hpruned j e he
      · obtain ⟨hk, -⟩ := List.getElem?_eq_some_iff.mp he
        obtain ⟨commit, hlog⟩ := Joining.recovered_log hok hdone hempty
        rw [hlog, hok.tag_eq hempty hlen' hqinv.inv.window (by omega) hk (replyOff_lt j)] at htag
        have htrue := hqinv.reply k j e (by omega) he htag
        rw [← entryOff_of_len (hlen.trans hlen'.symm)] at htrue
        exact hkept.acked_set (show (s.set i _).servers = _ from rfl) htrue

/-- `head` goes past entries that every server has committed. -/
theorem prune {visited : List Nat} (h : TruthSafe s) (hs' : AckSafe s')
    (hrec : (s.servers i).recovered = true) (hok : ackOk s (.prune i visited off))
    (hcommit : ∃ vs, WalkTo (s.servers i).log off vs (s.servers i).log.commit)
    (hall : ∀ j, j ≠ i → (s.servers j).recovered = true →
      ∀ e ∈ (s.servers i).written.take (s.pruned i + visited.length),
        entryKey e ∈ committedKeys (s.servers j))
    (hs : s' = { s.set i { s.servers i with log := { (s.servers i).log with head := off } } with
      pruned := Function.update s.pruned i (s.pruned i + visited.length) }) : TruthSafe s' := by
  obtain ⟨hprune, hwalk⟩ := hok
  have hkept : KeepsStored (s.servers i) _ := h.kept (l := .prune off) hprune ⟨hrec, rfl⟩
  obtain ⟨u, c, w, hi⟩ := h.server i hrec
  subst hs
  refine ⟨hs', fun p => ?_, fun p hp => ?_, fun r hr => hkept.acked_set rfl (h.flight r hr)⟩
  · by_cases hpi : p = i
    · subst hpi
      simp only [AckCluster.set, Function.update_self, hrec]
      intro hcon
      cases hcon
    · simp only [AckCluster.set, Function.update_of_ne hpi]
      exact h.fresh p
  · by_cases hpi : p = i
    · subst hpi
      obtain ⟨u', hinv⟩ := (hs'.server p).window hp
      simp only [AckCluster.set, Function.update_self] at hinv
      obtain ⟨vs, hvs⟩ := hcommit
      -- the commit offset is reached from the new `head`
      obtain ⟨c', w', hle, hplace⟩ := hi.inv.commit_pruned hi.commit hwalk hvs hinv
      refine ⟨u', c', w', ?_, ?_, fun j hj e he => ?_, fun k j e hlo he htag => ?_⟩
      all_goals simp only [AckCluster.set, Function.update_self] at *
      · exact hinv
      · exact hplace.of_len rfl
      · rw [Function.update_of_ne hj, Function.update_of_ne hj] at he
        exact List.map_subset _ (List.take_sublist_take_left hle).subset (hi.pruned j hj e he)
      · have htrue := hi.reply k j e (by omega) he htag
        exact hkept.acked_set (show (s.set p _).servers = _ from rfl) htrue
    · simp only [AckCluster.set, Function.update_of_ne hpi] at hp
      obtain ⟨u', c', w', hinv⟩ := h.server p hp
      refine ⟨u', c', w', hinv.other (i := i) rfl hkept
        (fun j hj => Function.update_of_ne hj _ _) hpi ?_⟩
      rw [← hinv.committedKeys_eq]
      simp only [Function.update_self]
      -- every server has committed what is pruned
      exact hall p hpi hp

/-- Every step under the condition keeps the acknowledgements true. -/
theorem step {l : AckLabel} (h : TruthSafe s) (hok : truthOk s l) (hs : ackStep s l s') :
    TruthSafe s' := by
  obtain ⟨hack, hok⟩ := hok
  have hs' := h.safe.step hack hs
  cases l with
  | own i l =>
    obtain ⟨hown, t, ht, rfl⟩ := hs
    cases l with
    | start =>
      obtain ⟨hrec, hhead, hend, rfl⟩ := ht
      exact h.start hs' hrec hhead hend (fun j => by rw [hok j, List.take_zero]) rfl
    | resetTail =>
      obtain ⟨hrec, hfollow, rfl⟩ := ht
      exact h.keep_same (l := .resetTail) hs' rfl rfl hrec nofun trivial ⟨hrec, hfollow, rfl⟩ rfl rfl
        rfl rfl rfl
    | append term reqId cltId type data =>
      obtain ⟨hrec, hlead, log, idx, happend, rfl⟩ := ht
      exact h.append hs' hrec hlead hack happend rfl
    | setCommit off =>
      obtain ⟨hrec, rfl⟩ := ht
      exact h.setCommit hs' hrec hok rfl
    | setApply off =>
      obtain ⟨hrec, rfl⟩ := ht
      exact h.keep_same (l := .setApply off) hs' rfl rfl hrec nofun trivial ⟨hrec, rfl⟩ rfl rfl rfl rfl
        rfl
    | _ => exact hown.elim
  | join i q =>
    obtain ⟨-, -, rfl⟩ := hs
    exact ⟨hs', h.fresh, fun p hp => (h.server p hp).imp fun u => .imp fun c => .imp fun w hi =>
      ⟨hi.inv, hi.commit, hi.pruned, hi.reply⟩, h.flight⟩
  | recover i q readOk es =>
    obtain ⟨-, hq, t, ⟨hrec, rfl⟩, rfl⟩ := hs
    obtain ⟨hnone, rfl⟩ := hok
    exact h.recover hs' hrec hq hnone hack rfl
  | lead i =>
    obtain ⟨t, ⟨hrec, rfl⟩, rfl⟩ := hs
    exact h.keep_same (i := i) (l := .lead) hs' rfl rfl hrec nofun trivial ⟨hrec, rfl⟩ rfl rfl rfl rfl
      rfl
  | follow i q =>
    obtain ⟨-, t, ⟨hrec, rfl⟩, rfl⟩ := hs
    exact h.keep_same (i := i) (l := .follow) hs' rfl rfl hrec nofun trivial ⟨hrec, rfl⟩ rfl rfl rfl
      rfl rfl
  | update q i rmtEnd es =>
    obtain ⟨-, hlead, t, ⟨hrec, rfl⟩, rfl⟩ := hs
    exact h.update hs' hrec hlead hack hok rfl
  | adjust q i off n =>
    obtain ⟨-, -, t, ⟨hrec, rfl⟩, rfl⟩ := hs
    exact h.adjust hs' hrec hack hok rfl
  | prune i visited off =>
    obtain ⟨t, ⟨hrec, rfl⟩, rfl⟩ := hs
    exact h.prune hs' hrec hack hok.1 hok.2 rfl
  | persist i =>
    obtain ⟨hrec, fuel, r, hcall, hs⟩ := hs
    exact h.persist hs' hrec hcall hs
  | land n p =>
    obtain ⟨r, hr, -, hs⟩ := hs
    obtain ⟨hrec, hlive⟩ := hack
    exact h.land hs' hr hrec (hlive r hr) (hok r hr) hs
  | lose n =>
    obtain rfl := hs
    exact ⟨hs', h.fresh, fun p hp => (h.server p hp).imp fun u => .imp fun c => .imp fun w hi =>
      ⟨hi.inv, hi.commit, hi.pruned, hi.reply⟩, fun r hr => h.flight r (List.mem_of_mem_eraseIdx hr)⟩

theorem init (h : ackInit s) : TruthSafe s := by
  obtain ⟨hservers, hflight⟩ := h
  refine ⟨AckSafe.init ⟨hservers, hflight⟩, fun i _ _ => ?_, fun i hrec => ?_, fun r hr => ?_⟩
  · obtain ⟨⟨⟨head, apply, hlog⟩, -⟩, -⟩ := hservers i
    rw [hlog]
    rfl
  · obtain ⟨⟨-, -, -, hnot, -⟩, -⟩ := hservers i
    exact absurd (hnot.symm.trans hrec) (by decide)
  · rw [hflight] at hr
    cases hr

end TruthSafe

/-- **Acknowledgements are true**: in every run under the condition, every reply that a leader counts
    stands for an entry that the server holds at this offset and has handed over. -/
theorem acks_true (h : Reach ackInit ackStep truthOk s) (hlead : (s.servers p).isLeader = true) :
    AcksTrue s p := by
  have hsafe : TruthSafe s :=
    h.invariant (fun _ => TruthSafe.init) fun _ _ _ hinv hok hs => hinv.step hok hs
  exact hsafe.acksTrue (hsafe.recovered_of_leader hlead)

/-! ### An acknowledged entry that is cut off -/

section Examples

/-- The walk over the log with one entry. -/
theorem readerWalk_stamped : readerWalk stamped (walkFuel stamped) stamped.head = some ([0], 64) := by
  have hget : logGetEntry stamped stamped.head = some 0 := by decide +kernel
  have hfit : logFitEntry stamped 0 0 = true := by decide +kernel
  have hnext : 0 + logEntryLen stamped.entries 0 = 64 := by decide +kernel
  have hstop : logGetEntry stamped 64 = none := by decide +kernel
  exact readerWalk_single hget hfit hnext hstop

/-- A log in which server 0 has acknowledged the entry. -/
def repliedLog : DareLog := { stamped with entries := setU8 stamped.entries (0 + REPLY_OFF + 0) 1 }

theorem counted_repliedLog {stored : List (UInt64 × UInt64)} {written : List DareLogEntry} :
    Counted ⟨repliedLog, 1, true, true, stored, written⟩ 5 0 0 := by
  have hreply : replyAt repliedLog.entries 0 0 = 1 := by decide +kernel
  refine ⟨?_, by decide, (by decide : (0 : Nat) ≠ 1), hreply⟩
  have hget : logGetEntry repliedLog 0 = some 0 := by decide +kernel
  have hfit : logFitEntry repliedLog 0 0 = true := by decide +kernel
  show 0 ∈ countedEntries repliedLog 1 5 (LOG_SIZE + 2) 0
  rw [countedEntries, hget]
  simp only [hfit, Bool.not_true, Bool.false_eq_true, if_false]
  exact List.mem_cons_self

theorem persist_copyOf : ∃ det, persistNewEntries 0 false 2 (copyOf stamped) =
    some (handedOver, [⟨det, some ⟨1, 0 + REPLY_OFF + 0⟩⟩]) ∧ det.offset = 0 ∧ detKey det = (1, 1) := by
  have hrun : (persistNewEntries 0 false 2 (copyOf stamped)).map (fun r =>
      r.2.map fun v => (v.reply, v.det.offset, detKey v.det)) =
      some [(some ⟨1, 0 + REPLY_OFF + 0⟩, 0, (1, 1))] := by decide +kernel
  obtain ⟨r, hr, hvisits⟩ := Option.map_eq_some_iff.mp hrun
  obtain ⟨⟨det, reply⟩, hv, hdata⟩ := List.map_eq_singleton_iff.mp hvisits
  simp only [Prod.mk.injEq] at hdata
  obtain ⟨rfl, hoff, hkey⟩ := hdata
  refine ⟨det, ?_, hoff, hkey⟩
  rw [handedOver, hr, ← hv]
  rfl

/-- Server 1 becomes leader and writes an entry to the log of server 0, whose reply it gets. -/
theorem reach_acked : ∃ s, Reach ackInit ackStep truthOk s ∧
    (∃ keys, s.servers 0 = ⟨handedOver, 0, false, true, keys, [noop 1]⟩) ∧
    (∃ keys, s.servers 1 = ⟨repliedLog, 1, true, true, keys, [noop 1]⟩) ∧
    s.servers 2 = ⟨logNew, 2, false, false, [], []⟩ := by
  obtain ⟨visits, hcall, hkeys⟩ := persist_oneEntry
  obtain ⟨det, hcall', hoff, hkey⟩ := persist_copyOf
  have hread : readEntry stamped.entries 0 = noop 1 := by decide +kernel
  have hinit : Reach ackInit ackStep truthOk freshServers := .start ackInit_freshServers
  have hstart₁ := hinit.step (l := AckLabel.own 1 .start) ⟨trivial, fun _ => rfl⟩
    ⟨trivial, _, ⟨rfl, rfl, rfl, rfl⟩, rfl⟩
  have hstart₀ := hstart₁.step (l := AckLabel.own 0 .start) ⟨trivial, fun _ => rfl⟩
    ⟨trivial, _, ⟨rfl, rfl, rfl, rfl⟩, rfl⟩
  have hlead := hstart₀.step (l := AckLabel.lead 1) ⟨trivial, trivial⟩ ⟨_, ⟨rfl, rfl⟩, rfl⟩
  have hroom : AppendRoom logNew NOOP default := by
    unfold AppendRoom
    decide
  have happend := hlead.step (l := AckLabel.own 1 (.append 1 0 0 NOOP default))
    ⟨⟨hroom, by decide, by decide, ⟨[], .refl _⟩, ⟨[], .refl _⟩, nofun⟩, trivial⟩
    ⟨trivial, _, ⟨rfl, rfl, _, _, append_oneEntry, rfl⟩, rfl⟩
  have hpersist := happend.step (l := AckLabel.persist 1) ⟨trivial, trivial⟩ ⟨rfl, 2, _, hcall, rfl⟩
  have hok : UpdateOk ⟨logNew, 0, false, true, [], []⟩ stamped 0 [noop 1] :=
    ⟨rfl, by decide, by simp, chain_stamped, by decide +kernel, by decide +kernel,
      List.pairwise_singleton _ _⟩
  have hlast : LastEntries stamped 0 [noop 1] :=
    ⟨⟨[], .refl _⟩, [0], 64, readerWalk_stamped, by rw [List.map_singleton, hread]⟩
  have hupdate := hpersist.step (l := AckLabel.update 1 0 0 [noop 1]) ⟨hok, hlast⟩
    ⟨by decide, rfl, _, ⟨rfl, rfl⟩, rfl⟩
  have hreply := hupdate.step (l := AckLabel.persist 0) ⟨trivial, trivial⟩ ⟨rfl, 2, _, hcall', rfl⟩
  -- a leader posts no replies
  have hnone : ∀ v ∈ visits, v.reply = none := by
    refine fun v hv => Option.eq_none_iff_forall_not_mem.mpr fun w hw => ?_
    exact absurd (persistNewEntries_replies hcall v hv w hw).1 (by decide)
  obtain ⟨s, hreach, ⟨keys₀, hs₀⟩, ⟨keys₁, hs₁⟩, hs₂, hflight⟩ : ∃ s, Reach ackInit ackStep truthOk s ∧
      (∃ keys, s.servers 0 = ⟨handedOver, 0, false, true, keys, [noop 1]⟩) ∧
      (∃ keys, s.servers 1 = ⟨stamped, 1, true, true, keys, [noop 1]⟩) ∧
      s.servers 2 = ⟨logNew, 2, false, false, [], []⟩ ∧
      s.flight = [⟨0, ⟨1, 0 + REPLY_OFF + 0⟩, det⟩] :=
    ⟨_, hreply, ⟨_, rfl⟩, ⟨_, rfl⟩, rfl, by simpa [AckCluster.set, posted, freshServers] using hnone⟩
  have hack : ackOk s (.land 0 1) := by
    refine ⟨by rw [hs₁], fun r hr => ?_⟩
    rw [hflight] at hr
    obtain rfl := Option.some.inj hr
    rw [hs₁, hoff]
    exact ⟨(0 : ServerIdx).isLt, [0], 64, readerWalk_stamped, List.mem_singleton_self 0⟩
  have hland := hreach.step (l := AckLabel.land 0 1) ⟨hack, fun r hr => ?_⟩
    ⟨_, by rw [hflight]; rfl, rfl, rfl⟩
  · refine ⟨_, hland, ⟨keys₀, hs₀⟩, ⟨keys₁, ?_⟩, hs₂⟩
    simp only [AckCluster.set, Function.update_self, hs₁]
    rfl
  · rw [hflight] at hr
    obtain rfl := Option.some.inj hr
    rw [hs₁, hoff, hkey, hread]
    rfl

/-- The reply of server 0 is counted, and it is true. -/
theorem acks_true_one : ∃ s, Reach ackInit ackStep truthOk s ∧ Counted (s.servers 1) 5 0 0 ∧
    AcksTrue s 1 := by
  obtain ⟨s, hreach, -, ⟨keys, hs₁⟩, -⟩ := reach_acked
  exact ⟨s, hreach, by rw [hs₁]; exact counted_repliedLog, acks_true hreach (by rw [hs₁])⟩

/-- The log of a leader of the next term. -/
def ownEntry : DareLog := ((logAppendEntry logNew 2 0 0 NOOP default).map Prod.fst).getD logNew

theorem append_ownEntry : logAppendEntry logNew 2 0 0 NOOP default = some (ownEntry, 1) := rfl

/-- Server 2 becomes leader, appends an entry of its own and cuts the entry of server 0 off.  When
    server 1 becomes leader again, it counts the reply. -/
theorem not_acks_true : ¬ ∀ s p, Reach ackInit ackStep Always s →
    (s.servers p).isLeader = true → AcksTrue s p := by
  intro hall
  obtain ⟨s, hreach, ⟨keys₀, hs₀⟩, ⟨keys₁, hs₁⟩, hs₂⟩ := reach_acked
  have hany : Reach ackInit ackStep Always s := hreach.mono fun _ _ _ => trivial
  have hstart := hany.step (l := AckLabel.own 2 .start) trivial
    ⟨trivial, ⟨logNew, 2, false, true, [], []⟩, by rw [hs₂]; exact ⟨rfl, rfl, rfl, rfl⟩, rfl⟩
  have hfollow := hstart.step (l := AckLabel.follow 1 2) trivial
    ⟨by decide, ⟨repliedLog, 1, false, true, keys₁, [noop 1]⟩, ⟨congrArg PersistState.recovered hs₁, by
      show _ = { s.servers 1 with isLeader := false }
      rw [hs₁]⟩, rfl⟩
  have hlead := hfollow.step (l := AckLabel.lead 2) trivial
    ⟨⟨logNew, 2, true, true, [], []⟩, ⟨rfl, rfl⟩, rfl⟩
  have happend := hlead.step (l := AckLabel.own 2 (.append 2 0 0 NOOP default)) trivial
    ⟨trivial, ⟨ownEntry, 2, true, true, [], [_]⟩, ⟨rfl, rfl, _, _, append_ownEntry, rfl⟩, rfl⟩
  have hadjust := happend.step (l := AckLabel.adjust 2 0 0 0) trivial
    ⟨by decide, rfl, ⟨{ handedOver with end_ := 0 }, 0, false, true, keys₀, []⟩,
      ⟨congrArg PersistState.recovered hs₀, by
        show _ = { s.servers 0 with
          log := { (s.servers 0).log with end_ := 0 }, written := (s.servers 0).written.take 0 }
        rw [hs₀]
        rfl⟩, rfl⟩
  have hback := hadjust.step (l := AckLabel.lead 1) trivial
    ⟨⟨repliedLog, 1, true, true, keys₁, [noop 1]⟩, ⟨rfl, rfl⟩, rfl⟩
  obtain ⟨⟨live, stop, hwalk, hmem⟩, -, -⟩ := hall _ 1 hback rfl 5 0 0 counted_repliedLog
  -- the log of server 0 ends where it starts
  have hend : logGetEntry { handedOver with end_ := 0 } 0 = none := by decide +kernel
  have hempty : readerWalk { handedOver with end_ := 0 } (LOG_SIZE + 2) 0 = some (live, stop) := hwalk
  rw [readerWalk, hend] at hempty
  obtain ⟨rfl, -⟩ := Prod.mk.inj (Option.some.inj hempty)
  cases hmem

end Examples

end Apus
