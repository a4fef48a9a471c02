import Mathlib.Data.Finset.Card
import Mathlib.Data.Finset.Range
import Mathlib.Data.Finset.NatAntidiagonal

namespace Apus.Lib

/-!
# Counting servers

A group is the set of the numbers below its size, and a test picks some of its members
(`members`).  Two tests that together pick more than the whole group pick a common member
(`exists_common`).  Majorities of groups whose sizes differ by at most one meet
(`IsMajority.meet`).
-/

variable {n k : Nat} {p q : Nat → Bool}

/-- The members of a group of `n` that pass the test. -/
def members (n : Nat) (p : Nat → Bool) : Finset Nat := (Finset.range n).filter fun i => p i = true

@[simp] theorem mem_members {i : Nat} : i ∈ members n p ↔ i < n ∧ p i = true := by
  simp [members]

/-- Counting by a loop over the group. -/
theorem length_filter_range (n : Nat) (p : Nat → Bool) :
    ((List.range n).filter p).length = (members n p).card := by
  have hset : members n p = ((List.range n).filter p).toFinset := by
    ext i
    simp
  rw [hset, List.toFinset_card_of_nodup (List.nodup_range.filter p)]

theorem card_members_mono (h : ∀ i, i < n → p i = true → q i = true) :
    (members n p).card ≤ (members n q).card := by
  refine Finset.card_le_card fun i hi => ?_
  obtain ⟨hlt, hp⟩ := mem_members.mp hi
  exact mem_members.mpr ⟨hlt, h i hlt hp⟩

/-- A group that is smaller by `k` loses at most `k` members. -/
theorem card_members_add_le (n k : Nat) (p : Nat → Bool) :
    (members (n + k) p).card ≤ (members n p).card + k := by
  induction k with
  | zero => exact le_refl _
  | succ k ih =>
    have hsub : members (n + (k + 1)) p ⊆ insert (n + k) (members (n + k) p) := by
      intro i hi
      obtain ⟨hlt, hp⟩ := mem_members.mp hi
      rcases Nat.lt_or_eq_of_le (show i ≤ n + k by omega) with h | h
      · exact Finset.mem_insert_of_mem (mem_members.mpr ⟨h, hp⟩)
      · exact h ▸ Finset.mem_insert_self _ _
    have hcard := (Finset.card_le_card hsub).trans (Finset.card_insert_le _ _)
    omega

/-- More members than the group has meet. -/
theorem exists_common (h : n < (members n p).card + (members n q).card) :
    ∃ i, i < n ∧ p i = true ∧ q i = true := by
  obtain ⟨i, hi⟩ := Finset.inter_nonempty_of_card_lt_card_add_card
    (s := Finset.range n) (Finset.filter_subset _ _) (Finset.filter_subset _ _)
    (by rw [Finset.card_range]; exact h)
  obtain ⟨hp, hq⟩ := Finset.mem_inter.mp hi
  exact ⟨i, (mem_members.mp hp).1, (mem_members.mp hp).2, (mem_members.mp hq).2⟩

/-- More than half of a group pass the test. -/
def IsMajority (n : Nat) (p : Nat → Bool) : Prop := n / 2 + 1 ≤ (members n p).card

/-- A majority of a group and one of the group with one more server meet. -/
theorem IsMajority.meet_succ (hp : IsMajority n p) (hq : IsMajority (n + 1) q) :
    ∃ i, i < n ∧ p i = true ∧ q i = true := by
  have hsmaller := card_members_add_le n 1 q
  simp only [IsMajority] at hp hq
  exact exists_common (by omega)

/-- Majorities of groups whose sizes differ by at most one meet. -/
theorem IsMajority.meet (hp : IsMajority n p) (hq : IsMajority k q) (hnk : n ≤ k + 1)
    (hkn : k ≤ n + 1) : ∃ i, i < n ∧ i < k ∧ p i = true ∧ q i = true := by
  rcases Nat.lt_trichotomy n k with hlt | rfl | hgt
  · obtain rfl : k = n + 1 := by omega
    obtain ⟨i, hi, hpi, hqi⟩ := hp.meet_succ hq
    exact ⟨i, hi, by omega, hpi, hqi⟩
  · have hcommon : ∃ i, i < n ∧ p i = true ∧ q i = true := by
      simp only [IsMajority] at hp hq
      exact exists_common (by omega)
    obtain ⟨i, hi, hpi, hqi⟩ := hcommon
    exact ⟨i, hi, hi, hpi, hqi⟩
  · obtain rfl : n = k + 1 := by omega
    obtain ⟨i, hi, hqi, hpi⟩ := hq.meet_succ hp
    exact ⟨i, by omega, hi, hpi, hqi⟩

end Apus.Lib
