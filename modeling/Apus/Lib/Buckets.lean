import Mathlib

namespace Apus.Lib

/-!
# Chained buckets

A hash table with chains: a key is looked for in the bucket of its index, from the head on, and a
new entry becomes the head.  Entries of different keys may share a bucket.

* `find_push`, `find_erase`, `find_replace` — a table is a finite map from the keys, as long as no
  bucket holds a key twice (`KeysOnce`);
* `total_push`, `total_erase`, `total_replace` — the sum of a weight over all entries;
* `nodup_entries` — with every entry in the bucket of its key (`Filed`) no key is stored twice.
-/

/-- The buckets, by their numbers. -/
abbrev Buckets (β : Type) := Nat → List β

namespace Buckets

variable {κ β : Type} [DecidableEq κ] (key : β → κ) (index : κ → Nat)

/-- The first entry with the key is changed. -/
def replaceFirst (k : κ) (f : β → β) (l : List β) : List β :=
  l.replaceF fun e => if k = key e then some (f e) else none

section Operations

variable (t : Buckets β)

/-- The first entry with the key. -/
def find (k : κ) : Option β := (t (index k)).find? fun e => decide (k = key e)

/-- A new entry in front of its bucket. -/
def push (e : β) : Buckets β :=
  Function.update t (index (key e)) (e :: t (index (key e)))

/-- The first entry with the key is unlinked. -/
def erase (k : κ) : Buckets β :=
  Function.update t (index k) ((t (index k)).eraseP fun e => decide (k = key e))

/-- The first entry with the key is changed in place. -/
def replace (k : κ) (f : β → β) : Buckets β :=
  Function.update t (index k) (replaceFirst key k f (t (index k)))

/-- No bucket holds a key twice. -/
def KeysOnce : Prop := ∀ i, ((t i).map key).Nodup

/-- Every entry is in the bucket of its key. -/
def Filed : Prop := ∀ i, ∀ e ∈ t i, index (key e) = i

/-- The entries of the first `n` buckets. -/
def entries (n : Nat) : List β := (List.range n).flatMap t

/-- The weight of the entries of the first `n` buckets. -/
def total (w : β → Nat) (n : Nat) : Nat := ∑ i ∈ Finset.range n, ((t i).map w).sum

end Operations

variable {key index} {t : Buckets β} {w : β → Nat} {n : Nat} {k k' : κ} {e : β} {f : β → β}
  {l : List β}

/-! ### One bucket -/

theorem find?_eraseP_self (h : (l.map key).Nodup) :
    (l.eraseP fun e => decide (k = key e)).find? (fun e => decide (k = key e)) = none := by
  induction l with
  | nil => rfl
  | cons a l ih =>
    rw [List.map_cons, List.nodup_cons] at h
    by_cases ha : k = key a
    · rw [List.eraseP_cons_of_pos (by simpa using ha), List.find?_eq_none]
      intro e he
      -- a second entry with the key would repeat it
      have hne : key e ≠ key a := fun heq => h.1 (heq ▸ List.mem_map_of_mem he)
      simpa [ha] using Ne.symm hne
    · rw [List.eraseP_cons_of_neg (by simpa using ha), List.find?_cons_of_neg (by simpa using ha)]
      exact ih h.2

theorem find?_eraseP_of_ne (h : k ≠ k') :
    (l.eraseP fun e => decide (k = key e)).find? (fun e => decide (k' = key e)) =
      l.find? fun e => decide (k' = key e) := by
  induction l with
  | nil => rfl
  | cons a l ih =>
    by_cases ha : k = key a
    · have ha' : k' ≠ key a := ha ▸ Ne.symm h
      rw [List.eraseP_cons_of_pos (by simpa using ha), List.find?_cons_of_neg (by simpa using ha')]
    · rw [List.eraseP_cons_of_neg (by simpa using ha), List.find?_cons, List.find?_cons, ih]

@[simp] theorem replaceFirst_nil : replaceFirst key k f [] = [] := rfl

theorem replaceFirst_cons (a : β) : replaceFirst key k f (a :: l) =
    if k = key a then f a :: l else a :: replaceFirst key k f l := by
  by_cases ha : k = key a
  · simp [replaceFirst, ha]
  · simp [replaceFirst, ha]

theorem find?_replaceFirst_self (hf : ∀ e, key (f e) = key e) :
    (replaceFirst key k f l).find? (fun e => decide (k = key e)) =
      (l.find? fun e => decide (k = key e)).map f := by
  induction l with
  | nil => rfl
  | cons a l ih =>
    by_cases ha : k = key a
    · rw [replaceFirst_cons, if_pos ha, List.find?_cons_of_pos (by simpa [hf] using ha),
        List.find?_cons_of_pos (by simpa using ha)]
      rfl
    · rw [replaceFirst_cons, if_neg ha, List.find?_cons_of_neg (by simpa using ha),
        List.find?_cons_of_neg (by simpa using ha), ih]

theorem find?_replaceFirst_of_ne (hf : ∀ e, key (f e) = key e) (h : k ≠ k') :
    (replaceFirst key k f l).find? (fun e => decide (k' = key e)) =
      l.find? fun e => decide (k' = key e) := by
  induction l with
  | nil => rfl
  | cons a l ih =>
    by_cases ha : k = key a
    · have ha' : k' ≠ key a := ha ▸ Ne.symm h
      rw [replaceFirst_cons, if_pos ha, List.find?_cons_of_neg (by simpa [hf] using ha'),
        List.find?_cons_of_neg (by simpa using ha')]
    · rw [replaceFirst_cons, if_neg ha, List.find?_cons, List.find?_cons, ih]

theorem map_replaceFirst (hf : ∀ e, key (f e) = key e) :
    (replaceFirst key k f l).map key = l.map key := by
  induction l with
  | nil => rfl
  | cons a l ih =>
    by_cases ha : k = key a
    · rw [replaceFirst_cons, if_pos ha, List.map_cons, List.map_cons, hf]
    · rw [replaceFirst_cons, if_neg ha, List.map_cons, List.map_cons, ih]

theorem sum_eraseP (h : (l.find? fun e => decide (k = key e)) = some e) :
    ((l.eraseP fun e => decide (k = key e)).map w).sum + w e = (l.map w).sum := by
  induction l with
  | nil => cases h
  | cons a l ih =>
    by_cases ha : k = key a
    · rw [List.find?_cons_of_pos (by simpa using ha), Option.some.injEq] at h
      rw [List.eraseP_cons_of_pos (by simpa using ha), List.map_cons, List.sum_cons, h,
        Nat.add_comm]
    · rw [List.find?_cons_of_neg (by simpa using ha)] at h
      rw [List.eraseP_cons_of_neg (by simpa using ha), List.map_cons, List.sum_cons, List.map_cons,
        List.sum_cons, Nat.add_assoc, ih h]

theorem sum_replaceFirst (h : (l.find? fun e => decide (k = key e)) = some e) :
    ((replaceFirst key k f l).map w).sum + w e =
      (l.map w).sum + w (f e) := by
  induction l with
  | nil => cases h
  | cons a l ih =>
    by_cases ha : k = key a
    · rw [List.find?_cons_of_pos (by simpa using ha), Option.some.injEq] at h
      rw [replaceFirst_cons, if_pos ha, List.map_cons, List.sum_cons, List.map_cons,
        List.sum_cons, h]
      omega
    · rw [List.find?_cons_of_neg (by simpa using ha)] at h
      rw [replaceFirst_cons, if_neg ha, List.map_cons, List.sum_cons, List.map_cons,
        List.sum_cons]
      have hrest := ih h
      omega

/-! ### The map -/

/-- What is found after one bucket was changed. -/
theorem find_update (i : Nat) :
    find key index (Function.update t i l) k =
      if index k = i then l.find? fun e => decide (k = key e) else find key index t k := by
  unfold find
  by_cases hi : index k = i
  · rw [if_pos hi, hi, Function.update_self]
  · rw [if_neg hi, Function.update_of_ne hi]

@[simp] theorem find_nil : find key index (fun _ => []) k = none := rfl

theorem key_of_find (h : find key index t k = some e) : key e = k := by
  have hkey := List.find?_some h
  exact (of_decide_eq_true hkey).symm

theorem find_push :
    find key index (push key index t e) k = if k = key e then some e else find key index t k := by
  unfold push
  rw [find_update]
  by_cases hk : k = key e
  · rw [if_pos (congrArg index hk), if_pos hk, List.find?_cons_of_pos (by simpa using hk)]
  · rw [if_neg hk, List.find?_cons_of_neg (by simpa using hk)]
    split
    · rename_i hi
      unfold find
      rw [hi]
    · rfl

theorem find_erase (h : KeysOnce key t) :
    find key index (erase key index t k) k' = if k = k' then none else find key index t k' := by
  unfold erase
  rw [find_update]
  by_cases hk : k = k'
  · subst hk
    rw [if_pos rfl, if_pos rfl, find?_eraseP_self (h _)]
  · rw [if_neg hk, find?_eraseP_of_ne hk]
    split
    · rename_i hi
      unfold find
      rw [hi]
    · rfl

theorem find_replace (hf : ∀ e, key (f e) = key e) :
    find key index (replace key index t k f) k' =
      if k = k' then (find key index t k).map f else find key index t k' := by
  unfold replace
  rw [find_update]
  by_cases hk : k = k'
  · subst hk
    rw [if_pos rfl, if_pos rfl, find?_replaceFirst_self hf]
    rfl
  · rw [if_neg hk, find?_replaceFirst_of_ne hf hk]
    split
    · rename_i hi
      unfold find
      rw [hi]
    · rfl

/-- Nothing is unlinked for a key that is not there. -/
theorem erase_of_none (h : find key index t k = none) : erase key index t k = t := by
  unfold erase
  rw [List.eraseP_of_forall_not (List.find?_eq_none.mp h), Function.update_eq_self]

/-! ### Keys -/

omit [DecidableEq κ] in
theorem KeysOnce.update (h : KeysOnce key t) {i : Nat} (hl : (l.map key).Nodup) :
    KeysOnce key (Function.update t i l) := by
  intro j
  by_cases hj : j = i
  · subst hj
    rw [Function.update_self]
    exact hl
  · rw [Function.update_of_ne hj]
    exact h j

theorem KeysOnce.push (h : KeysOnce key t) (hnew : find key index t (key e) = none) :
    KeysOnce key (push key index t e) := by
  refine h.update ?_
  rw [List.map_cons, List.nodup_cons]
  refine ⟨fun hmem => ?_, h _⟩
  obtain ⟨a, ha, hkey⟩ := List.mem_map.mp hmem
  exact List.find?_eq_none.mp hnew a ha (by simpa using hkey.symm)

theorem KeysOnce.erase (h : KeysOnce key t) : KeysOnce key (erase key index t k) :=
  h.update ((h _).sublist (List.Sublist.map key List.eraseP_sublist))

theorem KeysOnce.replace (h : KeysOnce key t) (hf : ∀ e, key (f e) = key e) :
    KeysOnce key (replace key index t k f) :=
  h.update (by rw [map_replaceFirst hf]; exact h _)

omit [DecidableEq κ] in
theorem Filed.update (h : Filed key index t) {i : Nat} (hl : ∀ e ∈ l, index (key e) = i) :
    Filed key index (Function.update t i l) := by
  intro j e he
  by_cases hj : j = i
  · subst hj
    rw [Function.update_self] at he
    exact hl e he
  · rw [Function.update_of_ne hj] at he
    exact h j e he

omit [DecidableEq κ] in
theorem Filed.push (h : Filed key index t) : Filed key index (push key index t e) := by
  refine h.update fun a ha => ?_
  rw [List.mem_cons] at ha
  obtain rfl | ha := ha
  · rfl
  · exact h _ a ha

theorem Filed.erase (h : Filed key index t) : Filed key index (erase key index t k) :=
  h.update fun e he => h _ e (List.mem_of_mem_eraseP he)

theorem Filed.replace (h : Filed key index t) (hf : ∀ e, key (f e) = key e) :
    Filed key index (replace key index t k f) := by
  refine h.update fun a ha => ?_
  -- the keys of the bucket are what they were
  have hmem : key a ∈ (t (index k)).map key := by
    rw [← map_replaceFirst (k := k) hf]
    exact List.mem_map_of_mem ha
  obtain ⟨b, hb, hkey⟩ := List.mem_map.mp hmem
  rw [← hkey]
  exact h _ b hb

omit [DecidableEq κ] in
/-- No key is stored twice in the whole table. -/
theorem nodup_entries (h : KeysOnce key t) (hfiled : Filed key index t) (n : Nat) :
    ((entries t n).map key).Nodup := by
  unfold entries
  rw [List.map_flatMap, List.nodup_flatMap]
  refine ⟨fun i _ => h i, ?_⟩
  refine List.nodup_range.imp fun {i j} hij => ?_
  intro a hi hj
  obtain ⟨e, he, rfl⟩ := List.mem_map.mp hi
  obtain ⟨e', he', hkey⟩ := List.mem_map.mp hj
  exact hij ((hfiled i e he).symm.trans ((congrArg index hkey.symm).trans (hfiled j e' he')))

/-! ### Weights -/

/-- The other buckets keep their weight. -/
theorem total_update {i : Nat} (hi : i < n) :
    total (Function.update t i l) w n + ((t i).map w).sum = total t w n + (l.map w).sum := by
  unfold total
  rw [← Finset.add_sum_erase _ _ (Finset.mem_range.mpr hi),
    ← Finset.add_sum_erase (Finset.range n) (fun j => ((t j).map w).sum) (Finset.mem_range.mpr hi),
    Function.update_self]
  have hrest : ∑ j ∈ (Finset.range n).erase i, ((Function.update t i l j).map w).sum =
      ∑ j ∈ (Finset.range n).erase i, ((t j).map w).sum :=
    Finset.sum_congr rfl fun j hj => by rw [Function.update_of_ne (Finset.ne_of_mem_erase hj)]
  rw [hrest]
  omega

omit [DecidableEq κ] in
theorem total_push (hi : index (key e) < n) :
    total (push key index t e) w n = total t w n + w e := by
  have h := total_update (t := t) (l := e :: t (index (key e))) (w := w) hi
  rw [List.map_cons, List.sum_cons] at h
  unfold push
  omega

theorem total_erase (hi : index k < n) (h : find key index t k = some e) :
    total (erase key index t k) w n + w e = total t w n := by
  have hbucket := sum_eraseP (w := w) h
  have htotal := total_update (t := t) (w := w)
    (l := (t (index k)).eraseP fun e => decide (k = key e)) hi
  unfold erase
  omega

theorem total_replace (hi : index k < n) (h : find key index t k = some e) :
    total (replace key index t k f) w n + w e = total t w n + w (f e) := by
  have hbucket := sum_replaceFirst (w := w) (f := f) h
  have htotal := total_update (t := t) (w := w)
    (l := replaceFirst key k f (t (index k))) hi
  unfold replace
  omega

end Buckets

end Apus.Lib
