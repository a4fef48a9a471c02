import Mathlib.Data.Fintype.Card
import Mathlib.Data.List.Nodup
import Mathlib.Order.Basic

namespace Apus.Lib

/-!
# Tables in the order of their keys

A table lists its entries with ascending keys (`KeyTable`), so that it is a finite map from the keys, and
tells the order in which a sorted container goes through them.

* `find_insert`, `find_erase` — the operations as those of a map;
* `entries_insert`, `entries_erase` — and as changes at one place of the list;
* `length_le` — a table has at most as many entries as there are keys.
-/

variable {κ β : Type} [LinearOrder κ]

/-- Entries with ascending keys. -/
structure KeyTable (key : β → κ) where
  entries : List β
  ascending : entries.Pairwise fun a b => key a < key b

namespace KeyTable

variable {key : β → κ} (t : KeyTable key)

def empty : KeyTable key := ⟨[], List.Pairwise.nil⟩

/-- The entry with the key. -/
def find (k : κ) : Option β := t.entries.find? fun e => decide (key e = k)

/-- An entry comes in, in the place of one with its key if there is one. -/
def insert (e : β) : KeyTable key where
  entries := t.entries.filter (fun a => decide (key a < key e)) ++
    e :: t.entries.filter fun a => decide (key e < key a)
  ascending := by
    refine List.pairwise_append.mpr ⟨t.ascending.filter _, List.pairwise_cons.mpr
      ⟨fun a ha => ?_, t.ascending.filter _⟩, fun a ha b hb => ?_⟩
    · exact of_decide_eq_true (List.mem_filter.mp ha).2
    · have hlt : key a < key e := of_decide_eq_true (List.mem_filter.mp ha).2
      rcases List.mem_cons.mp hb with rfl | hb
      · exact hlt
      · exact hlt.trans (of_decide_eq_true (List.mem_filter.mp hb).2)

/-- The entry with the key goes. -/
def erase (k : κ) : KeyTable key where
  entries := t.entries.filter fun a => decide (key a ≠ k)
  ascending := t.ascending.filter _

/-- All entries are changed, but for their keys. -/
def map (f : β → β) (hf : ∀ e, key (f e) = key e) : KeyTable key where
  entries := t.entries.map f
  ascending := t.ascending.map f fun a b h => by rwa [hf, hf]

variable {t} {k k' : κ} {e e' : β} {xs ys zs : List β}

@[ext] theorem ext {t' : KeyTable key} (h : t.entries = t'.entries) : t = t' := by
  cases t
  cases t'
  cases h
  rfl

theorem nodup_keys : (t.entries.map key).Nodup :=
  List.pairwise_map.mpr (t.ascending.imp fun h => h.ne)

/-- A table is a map. -/
theorem find_eq_some : t.find k = some e ↔ e ∈ t.entries ∧ key e = k := by
  constructor
  · intro h
    exact ⟨List.mem_of_find?_eq_some h, by simpa using List.find?_some h⟩
  · rintro ⟨hmem, rfl⟩
    rcases hfind : t.find (key e) with _ | e'
    · exact absurd (List.find?_eq_none.mp hfind e hmem) (by simp)
    · have hmem' := List.mem_of_find?_eq_some hfind
      have hkey : key e' = key e := by simpa using List.find?_some hfind
      rw [List.inj_on_of_nodup_map nodup_keys hmem' hmem hkey]

theorem find_eq_none : t.find k = none ↔ ∀ e ∈ t.entries, key e ≠ k := by
  simp [find, List.find?_eq_none]

theorem mem_insert : e' ∈ (t.insert e).entries ↔ e' = e ∨ e' ∈ t.entries ∧ key e' ≠ key e := by
  simp only [insert, List.mem_append, List.mem_filter, List.mem_cons, decide_eq_true_eq]
  constructor
  · rintro (⟨h, hlt⟩ | rfl | ⟨h, hlt⟩)
    · exact .inr ⟨h, hlt.ne⟩
    · exact .inl rfl
    · exact .inr ⟨h, hlt.ne'⟩
  · rintro (rfl | ⟨h, hne⟩)
    · exact .inr (.inl rfl)
    · rcases lt_or_gt_of_ne hne with hlt | hlt
      · exact .inl ⟨h, hlt⟩
      · exact .inr (.inr ⟨h, hlt⟩)

theorem find_insert : (t.insert e).find k = if key e = k then some e else t.find k := by
  split
  · rename_i h
    exact find_eq_some.mpr ⟨mem_insert.mpr (.inl rfl), h⟩
  · rename_i h
    refine Option.ext fun a => ?_
    rw [find_eq_some, find_eq_some, mem_insert]
    constructor
    · rintro ⟨rfl | ⟨ha, -⟩, hk⟩
      · exact absurd hk h
      · exact ⟨ha, hk⟩
    · rintro ⟨ha, rfl⟩
      exact ⟨.inr ⟨ha, Ne.symm h⟩, rfl⟩

theorem find_erase : (t.erase k).find k' = if k = k' then none else t.find k' := by
  split
  · rename_i h
    exact find_eq_none.mpr fun a ha => by simpa [h] using (List.mem_filter.mp ha).2
  · rename_i h
    refine Option.ext fun a => ?_
    rw [find_eq_some, find_eq_some, erase, List.mem_filter]
    constructor
    · rintro ⟨⟨ha, -⟩, hk⟩
      exact ⟨ha, hk⟩
    · rintro ⟨ha, rfl⟩
      exact ⟨⟨ha, by simpa using Ne.symm h⟩, rfl⟩

/-- An entry comes in between the smaller ones and the greater ones. -/
theorem entries_insert (zs : List β) (h : t.entries = xs ++ (zs ++ ys)) (hxs : ∀ x ∈ xs, key x < key e)
    (hzs : ∀ z ∈ zs, key z = key e) (hys : ∀ y ∈ ys, key e < key y) :
    (t.insert e).entries = xs ++ e :: ys := by
  have hlow : t.entries.filter (fun a => decide (key a < key e)) = xs := by
    rw [h, List.filter_append, List.filter_append, List.filter_eq_self.mpr (by simpa using hxs),
      List.filter_eq_nil_iff.mpr (by simpa using fun z hz => (hzs z hz).ge),
      List.filter_eq_nil_iff.mpr (by simpa using fun y hy => (hys y hy).le), List.append_nil,
      List.append_nil]
  have hhigh : t.entries.filter (fun a => decide (key e < key a)) = ys := by
    rw [h, List.filter_append, List.filter_append,
      List.filter_eq_nil_iff.mpr (by simpa using fun x hx => (hxs x hx).le),
      List.filter_eq_nil_iff.mpr (by simpa using fun z hz => (hzs z hz).le),
      List.filter_eq_self.mpr (by simpa using hys), List.nil_append, List.nil_append]
  show t.entries.filter _ ++ e :: t.entries.filter _ = xs ++ e :: ys
  rw [hlow, hhigh]

/-- The others stay where they are. -/
theorem entries_erase (h : t.entries = xs ++ e :: ys) : (t.erase (key e)).entries = xs ++ ys := by
  have hasc := t.ascending
  rw [h, List.pairwise_append, List.pairwise_cons] at hasc
  show t.entries.filter _ = xs ++ ys
  rw [h, List.filter_append, List.filter_cons_of_neg (by simp), List.filter_eq_self.mpr,
    List.filter_eq_self.mpr]
  · exact fun y hy => by simpa using (hasc.2.1.1 y hy).ne'
  · exact fun x hx => by simpa using (hasc.2.2 x hx e (List.mem_cons_self ..)).ne

theorem erase_eq_self (h : t.find k = none) : t.erase k = t := by
  refine ext (List.filter_eq_self.mpr fun a ha => ?_)
  simpa using find_eq_none.mp h a ha

/-- An entry comes in, and the one with its key goes. -/
theorem perm_insert : (t.insert e).entries.Perm (e :: (t.erase (key e)).entries) := by
  refine List.perm_middle.trans (List.Perm.cons e ?_)
  show (t.entries.filter _ ++ t.entries.filter _).Perm (t.entries.filter _)
  have hsplit : ∀ a, decide (key a ≠ key e) = (decide (key a < key e) || decide (key e < key a)) :=
    fun a => by rw [← Bool.decide_or, decide_eq_decide]; exact lt_or_lt_iff_ne.symm
  induction t.entries with
  | nil => exact List.Perm.refl _
  | cons a as ih =>
    rcases lt_trichotomy (key a) (key e) with h | h | h
    · simpa [hsplit, h, h.not_gt] using ih
    · simpa [hsplit, h] using ih
    · simpa [hsplit, h, h.not_gt] using List.perm_middle.trans (ih.cons a)

/-- The entry with the key goes. -/
theorem perm_erase (h : t.find k = some e) : t.entries.Perm (e :: (t.erase k).entries) := by
  obtain ⟨hmem, rfl⟩ := find_eq_some.mp h
  obtain ⟨xs, ys, hsplit⟩ := List.append_of_mem hmem
  rw [entries_erase hsplit, hsplit]
  exact List.perm_middle

theorem length_le {n : Nat} {f : κ → Fin n} (hf : Function.Injective f) : t.entries.length ≤ n := by
  have h := ((nodup_keys (t := t)).map hf).length_le_card
  rwa [List.length_map, List.length_map, Fintype.card_fin] at h

end KeyTable

end Apus.Lib
