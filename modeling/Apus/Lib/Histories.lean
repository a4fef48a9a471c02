import Mathlib.Logic.Function.Basic

namespace Apus.Lib

/-!
# Histories that match

Every replica has a history: the list of the records it was given, each of which has a key.  The
histories match if a key that is in two of them has the same records up to it in both (`Matching`).

* `Matching.copy` — replicas may take over a part of another history, from its start;
* `Matching.append` — a record with a new key may be added to one history;
* `Matching.eq_take` — a history whose last key is in another one is a part of it;
* `Matching.window` — replicas that still hold only the last records agree on what both hold.
-/

section Histories

variable {ι α κ : Type} {key : α → κ} {hist hist' : ι → List α} {i j : ι} {k k' lo lo' : Nat} {e e' : α}

/-- A key that two histories share has the same records up to it in both. -/
def Matching (key : α → κ) (hist : ι → List α) : Prop :=
  ∀ i j k k' e e', (hist i)[k]? = some e → (hist j)[k']? = some e' → key e = key e' →
    (hist i).take (k + 1) = (hist j).take (k' + 1)

namespace Matching

/-- The key is at the same place in both. -/
theorem index_eq (h : Matching key hist) (he : (hist i)[k]? = some e)
    (he' : (hist j)[k']? = some e') (hkey : key e = key e') : k = k' := by
  have hsame := congrArg List.length (h i j k k' e e' he he' hkey)
  obtain ⟨hk, -⟩ := List.getElem?_eq_some_iff.mp he
  obtain ⟨hk', -⟩ := List.getElem?_eq_some_iff.mp he'
  rw [List.length_take, List.length_take] at hsame
  omega

/-- The records up to the key are the same. -/
theorem getElem?_eq (h : Matching key hist) (he : (hist i)[k]? = some e)
    (he' : (hist j)[k']? = some e') (hkey : key e = key e') {m : Nat} (hm : m ≤ k) :
    (hist i)[m]? = (hist j)[m]? := by
  have hidx := h.index_eq he he' hkey
  rw [← List.getElem?_take_of_lt (show m < k + 1 by omega), h i j k k' e e' he he' hkey,
    List.getElem?_take_of_lt (by omega)]

/-- Every history becomes a part of an old one. -/
theorem copy (h : Matching key hist) (hcopy : ∀ i, ∃ j n, hist' i = (hist j).take n) :
    Matching key hist' := by
  intro i j k k' e e' he he' hkey
  obtain ⟨p, n, hp⟩ := hcopy i
  obtain ⟨q, m, hq⟩ := hcopy j
  rw [hp] at he ⊢
  rw [hq] at he' ⊢
  obtain ⟨hk, -⟩ := List.getElem?_eq_some_iff.mp he
  obtain ⟨hk', -⟩ := List.getElem?_eq_some_iff.mp he'
  rw [List.length_take] at hk hk'
  rw [List.getElem?_take_of_lt (by omega)] at he he'
  rw [List.take_take, List.take_take, Nat.min_eq_left (by omega), Nat.min_eq_left (by omega)]
  exact h p q k k' e e' he he' hkey

/-- A record whose key is in no history is added to one of them. -/
theorem append [DecidableEq ι] (h : Matching key hist) (hnew : ∀ j, ∀ e' ∈ hist j, key e' ≠ key e) :
    Matching key (Function.update hist i (hist i ++ [e])) := by
  -- an entry of the new histories is an old one or the new record
  have hcases : ∀ j k a, (Function.update hist i (hist i ++ [e]) j)[k]? = some a →
      (hist j)[k]? = some a ∧
        (Function.update hist i (hist i ++ [e]) j).take (k + 1) = (hist j).take (k + 1) ∨
      j = i ∧ k = (hist i).length ∧ a = e := by
    intro j k a ha
    by_cases hj : j = i
    · subst hj
      rw [Function.update_self] at ha ⊢
      rcases Nat.lt_or_ge k (hist j).length with hlt | hge
      · rw [List.getElem?_append_left hlt] at ha
        exact .inl ⟨ha, List.take_append_of_le_length hlt⟩
      · obtain ⟨hk, -⟩ := List.getElem?_eq_some_iff.mp ha
        rw [List.length_append, List.length_singleton] at hk
        obtain rfl : k = (hist j).length := by omega
        rw [List.getElem?_concat_length] at ha
        exact .inr ⟨rfl, rfl, (Option.some.inj ha).symm⟩
    · rw [Function.update_of_ne hj] at ha ⊢
      exact .inl ⟨ha, rfl⟩
  intro p q k k' a a' ha ha' hkey
  rcases hcases p k a ha with ⟨hold, htake⟩ | ⟨rfl, rfl, rfl⟩
  · rcases hcases q k' a' ha' with ⟨hold', htake'⟩ | ⟨-, -, rfl⟩
    · rw [htake, htake']
      exact h p q k k' a a' hold hold' hkey
    · exact absurd hkey (hnew p a (List.mem_of_getElem? hold))
  · rcases hcases q k' a' ha' with ⟨hold', -⟩ | ⟨rfl, rfl, -⟩
    · exact absurd hkey.symm (hnew q a' (List.mem_of_getElem? hold'))
    · rfl

/-- A history whose last key is in another one is a part of it. -/
theorem eq_take (h : Matching key hist) {n : Nat} (hn : n ≤ (hist j).length)
    (hlast : (hist i).getLast?.map key = ((hist j).take n).getLast?.map key) :
    hist i = (hist j).take n := by
  cases hi : (hist i).getLast? with
  | none =>
    rw [hi, Option.map_none, eq_comm, Option.map_eq_none_iff, List.getLast?_eq_none_iff] at hlast
    rw [hlast]
    exact List.getLast?_eq_none_iff.mp hi
  | some e =>
    rw [hi, Option.map_some, eq_comm, Option.map_eq_some_iff] at hlast
    obtain ⟨e', he', hkey⟩ := hlast
    rw [List.getLast?_eq_getElem?] at hi he'
    rw [List.length_take_of_le hn] at he'
    obtain ⟨hlt, -⟩ := List.getElem?_eq_some_iff.mp hi
    obtain ⟨hlt', -⟩ := List.getElem?_eq_some_iff.mp he'
    rw [List.length_take_of_le hn] at hlt'
    rw [List.getElem?_take_of_lt (by omega)] at he'
    have hsame := h i j _ _ e e' hi he' hkey.symm
    rwa [Nat.sub_add_cancel (by omega), Nat.sub_add_cancel (by omega), List.take_length] at hsame

/-- Two replicas that hold the last records of their histories agree on what both hold up to the key. -/
theorem window (h : Matching key hist) (he : ((hist i).drop lo)[k]? = some e)
    (he' : ((hist j).drop lo')[k']? = some e') (hkey : key e = key e') {d : Nat} (hd : d ≤ k)
    (hd' : d ≤ k') : ((hist i).drop lo)[k - d]? = ((hist j).drop lo')[k' - d]? := by
  rw [List.getElem?_drop] at he he' ⊢
  rw [List.getElem?_drop]
  have hidx := h.index_eq he he' hkey
  rw [h.getElem?_eq he he' hkey (show lo + (k - d) ≤ lo + k by omega),
    show lo + (k - d) = lo' + (k' - d) by omega]

end Matching

end Histories

end Apus.Lib
