import Apus.Replication.Completeness

namespace Apus

open Lib

/-!
# Servers agree on what is committed

What a server hands to its state machine is before its commit offset.  Two servers never have different
entries there at one index, whatever leaders there were in between, and whatever has become of either log
since.

* `AgreeOnCommitted` — what is claimed;
* `servers_agree` — it holds in every run under the condition.
-/

/-- A server has what was before the commit offset of another one, if its own commit offset has been as far;
    and there is one such entry at an index, at one offset. -/
structure AgreeOnCommitted (s : VoteCluster) : Prop where
  holds : ∀ i j, ∀ c ∈ s.past i, ∀ c' ∈ s.past j, c.2.idx ≤ c'.2.idx → HoldsAt (s.logs.servers j) c
  same : ∀ i j, ∀ c ∈ s.past i, ∀ c' ∈ s.past j, c.2.idx = c'.2.idx → c = c'

variable {n : Nat} {s : VoteCluster} {a : AbsCluster}

namespace Simulates

/-- A place in the log of a server that is recovered. -/
theorem holdsAt_of_place {i : ServerIdx} {k : Nat} {c : Nat × DareLogEntry} (h : Simulates n s a)
    (hjoined : a.joined i = true) (hget : (a.hist i)[k]? = some c.2)
    (hat : AtPlace (a.led (entryTerm c.2)) k c) : HoldsAt (s.logs.servers i) c := by
  obtain ⟨lo, u, hh, hhist, hlen⟩ := h.servers_holds hjoined
  have hat' := (atPlace_iff (h.sound.source i) hget).mpr hat
  rw [hhist] at hat'
  exact hh.holdsAt hlen hat'

theorem agreeOnCommitted (h : Simulates n s a) : AgreeOnCommitted s := by
  refine ⟨fun i j c hc c' hc' hle => ?_, fun i j c hc c' hc' hidx => ?_⟩
  · obtain ⟨k, hk, hat⟩ := h.onRecord.past i c hc
    obtain ⟨k', hk', -⟩ := h.onRecord.past j c' hc'
    have hget := h.sound.known_of_le h.meet hk hk' (UInt64.le_iff_toNat_le.mp hle)
    have hjoined : a.joined j = true := by
      by_contra hcon
      rw [(h.sound.joining j (Bool.eq_false_iff.mpr hcon)).1] at hk'
      cases hk'
    exact h.holdsAt_of_place hjoined hget hat
  · obtain ⟨k, hk, hat⟩ := h.onRecord.past i c hc
    obtain ⟨k', hk', hat'⟩ := h.onRecord.past j c' hc'
    -- one place, and so one offset
    have heq := h.sound.known_unique h.meet hk hk' (congrArg UInt64.toNat hidx)
    obtain ⟨rfl, hentry⟩ := Prod.mk.inj heq
    refine Prod.ext ?_ hentry
    rw [hentry] at hat
    exact hat.2.symm.trans hat'.2

end Simulates

/-- **Servers agree on what is committed** in every run under the condition. -/
theorem servers_agree (hn : n < MAX_SERVER_COUNT) (h : Reach voteInit voteStep (voteOk n) s) :
    AgreeOnCommitted s := by
  obtain ⟨a, ha⟩ := simulated hn h
  exact ha.agreeOnCommitted

/-- After an entry was committed by two of three servers. -/
theorem servers_agree_three : ∃ s, Reach voteInit voteStep (voteOk 3) s ∧ s.passed ≠ [] ∧
    AgreeOnCommitted s := by
  obtain ⟨s, hreach, -, -, -, -, -, -, -, -, hpassed⟩ := reach_committed
  exact ⟨s, hreach, by simp [hpassed], servers_agree (by decide) hreach⟩

end Apus
