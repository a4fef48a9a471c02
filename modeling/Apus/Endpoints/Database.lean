import Apus.Endpoints.Model
import Apus.Endpoints.Walks
import Apus.Lib.KeyTable

namespace Apus

open Lib ColorTree RbNode
open RbMem hiding node

/-!
# The database is a table of endpoints

What the endpoint database is for: a table of endpoints in the order of their LIDs.  The tree holds such a
table (`EpDb.Lists`) when its nodes, in order, are those of the entries, and no other endpoint is there.

* `epSearch_lists`, `epInsert_lists`, `epErase_lists` — the operations on the tree as those of the table.
-/

/-- The block is a new one. -/
def EpAlloc.Fresh (alloc : EpAlloc) (db : EpDb) : Prop := IsAddr alloc.addr ∧ db.ep alloc.addr = none

namespace EpDb

/-- LIDs are compared as numbers. -/
scoped instance : LinearOrder UInt16 where
  le_refl := UInt16.le_refl
  le_trans _ _ _ := UInt16.le_trans
  le_antisymm _ _ := UInt16.le_antisymm
  le_total := UInt16.le_total
  lt_iff_le_not_ge _ _ := by rw [UInt16.not_le]; exact ⟨fun h => ⟨UInt16.le_of_lt h, h⟩, And.right⟩
  toDecidableLE := inferInstance

end EpDb

open scoped EpDb

/-- The endpoints in the order of their LIDs. -/
abbrev EpTable := KeyTable DareEp.lid

namespace EpDb

variable {db db' : EpDb} {t : EpTable} {ls xs ys : List Ptr} {k k' : Frames Ptr} {s u : ColorTree Ptr}
  {p q par : Ptr} {lid : UInt16} {fuel n : Nat} {ep : DareEp} {alloc : EpAlloc} {gid : List UInt8}

/-- The nodes of the tree are those of the entries of the table, in order. -/
structure Lists (db : EpDb) (ls : List Ptr) (t : EpTable) : Prop where
  tree : RbTree db.mem ls
  eps : ls.map db.ep = t.entries.map some
  here : ∀ p, db.ep p ≠ none → p ∈ ls

/-- The database holds the table. -/
def Holds (db : EpDb) (t : EpTable) : Prop := ∃ ls, db.Lists ls t

/-- The LID of an endpoint that is there. -/
def lidAt (db : EpDb) (p : Ptr) : UInt16 := ((db.ep p).map DareEp.lid).getD 0

theorem lidAt_eq (h : db.ep p = some ep) : db.lidAt p = ep.lid := by rw [lidAt, h]; rfl

namespace Lists

theorem addrs (h : db.Lists ls t) : Addresses ls := by
  obtain ⟨⟨u, _, hat, -, rfl⟩, -, -⟩ := h
  exact hat.addrs

theorem length_eq (h : db.Lists ls t) : ls.length = t.entries.length := by
  have hlen := congrArg List.length h.eps
  rwa [List.length_map, List.length_map] at hlen

/-- There are not more endpoints than LIDs. -/
theorem length_le (h : db.Lists ls t) : ls.length ≤ 65536 := by
  rw [h.length_eq]
  exact KeyTable.length_le (f := UInt16.toFin) fun a b hab => UInt16.toFin_inj.mp hab

theorem exists_ep (h : db.Lists ls t) (hp : p ∈ ls) : ∃ ep ∈ t.entries, db.ep p = some ep := by
  have hmem : db.ep p ∈ t.entries.map some := h.eps ▸ List.mem_map_of_mem hp
  obtain ⟨ep, hep, heq⟩ := List.mem_map.mp hmem
  exact ⟨ep, hep, heq.symm⟩

/-- The LIDs are ascending along the nodes. -/
theorem ascending (h : db.Lists ls t) : ls.Pairwise fun p q => db.lidAt p < db.lidAt q := by
  have hasc := t.ascending
  have hmap : (t.entries.map some).Pairwise fun a b =>
      (a.map DareEp.lid).getD 0 < (b.map DareEp.lid).getD 0 := List.pairwise_map.mpr hasc
  rw [← h.eps] at hmap
  exact (List.pairwise_map (f := db.ep)).mp hmap

/-- An entry is found at its node. -/
theorem ep_of_find (h : db.Lists ls t) (hfind : t.find lid = some ep) :
    ∃ p ∈ ls, db.ep p = some ep ∧ db.lidAt p = lid := by
  obtain ⟨hmem, rfl⟩ := KeyTable.find_eq_some.mp hfind
  have hmem' : some ep ∈ ls.map db.ep := h.eps ▸ List.mem_map_of_mem hmem
  obtain ⟨p, hp, heq⟩ := List.mem_map.mp hmem'
  exact ⟨p, hp, heq, lidAt_eq heq⟩

/-- What is at a node is what the table has for its LID. -/
theorem find_lidAt (h : db.Lists ls t) (hp : p ∈ ls) : t.find (db.lidAt p) = db.ep p := by
  obtain ⟨ep, hep, hp'⟩ := h.exists_ep hp
  rw [hp', lidAt_eq hp']
  exact KeyTable.find_eq_some.mpr ⟨hep, rfl⟩

end Lists

/-! ### Search -/

/-- The loop of `ep_search` in a subtree. -/
theorem epSearchLoop_spec (lid : UInt16) (h : Stored db.mem par u) (heps : ∀ q ∈ u.items, ∃ ep, db.ep q = some ep)
    (hasc : u.items.Pairwise fun p q => db.lidAt p < db.lidAt q) (hfuel : u.height < fuel) :
    ∃ p, db.epSearchLoop lid fuel (ptrOf u) = some p ∧
      (p = NULL ∧ (∀ q ∈ u.items, db.lidAt q ≠ lid) ∨ p ∈ u.items ∧ db.lidAt p = lid) := by
  induction fuel generalizing par u with
  | zero => exact absurd hfuel (Nat.not_lt_zero _)
  | succ fuel ih =>
    cases u with
    | leaf => exact ⟨NULL, if_pos rfl, .inl ⟨rfl, by simp [items]⟩⟩
    | node c l a r =>
      obtain ⟨ha, hl, hr⟩ := h
      obtain ⟨ep, hep⟩ := heps a (by simp [items])
      have hlid := lidAt_eq hep
      have hne := ne_null_of_read ha
      have hleft : db.mem.child .left a = some (ptrOf l) := child_eq ha
      have hright : db.mem.child .right a = some (ptrOf r) := child_eq ha
      simp only [height] at hfuel
      rw [items, List.pairwise_append, List.pairwise_cons] at hasc
      obtain ⟨hascl, ⟨har, hascr⟩, hla⟩ := hasc
      rcases lt_trichotomy lid ep.lid with hlt | heq | hgt
      · -- the LIDs from here on to the right are greater
        obtain ⟨p, hloop, hp⟩ := ih hl (fun q hq => heps q (by simp [items, hq])) hascl (by omega)
        refine ⟨p, by simp [epSearchLoop, hne, hep, hlt, hleft, hloop], ?_⟩
        rcases hp with ⟨rfl, hno⟩ | ⟨hmem, hp⟩
        · refine .inl ⟨rfl, fun q hq => ?_⟩
          rcases List.mem_append.mp hq with hq | hq
          · exact hno q hq
          · rcases List.mem_cons.mp hq with rfl | hq
            · exact (hlid ▸ hlt).ne'
            · exact ((hlid ▸ hlt).trans (har q hq)).ne'
        · exact .inr ⟨by simp [items, hmem], hp⟩
      · refine ⟨a, by simp [epSearchLoop, hne, hep, heq], .inr ⟨by simp [items], ?_⟩⟩
        rw [hlid, heq]
      · obtain ⟨p, hloop, hp⟩ := ih hr (fun q hq => heps q (by simp [items, hq])) hascr (by omega)
        refine ⟨p, by simp [epSearchLoop, hne, hep, hgt, hgt.not_gt, hright, hloop], ?_⟩
        rcases hp with ⟨rfl, hno⟩ | ⟨hmem, hp⟩
        · refine .inl ⟨rfl, fun q hq => ?_⟩
          rcases List.mem_append.mp hq with hq | hq
          · exact ((hla q hq a (List.mem_cons_self ..)).trans (hlid ▸ hgt)).ne
          · rcases List.mem_cons.mp hq with rfl | hq
            · exact (hlid ▸ hgt).ne
            · exact hno q hq
        · exact .inr ⟨by simp [items, hmem], hp⟩

/-- `ep_search` finds what the table has. -/
theorem epSearch_lists (h : db.Lists ls t) (hfuel : 2 * Nat.log 2 (ls.length + 1) < fuel) (lid : UInt16) :
    ∃ p, db.epSearch fuel lid = some p ∧ db.ep p = t.find lid ∧ (p = NULL ↔ t.find lid = none) ∧
      (p ≠ NULL → p ∈ ls ∧ db.lidAt p = lid) := by
  have heps : ∀ q ∈ ls, ∃ ep, db.ep q = some ep := fun q hq =>
    let ⟨ep, _, hep⟩ := h.exists_ep hq
    ⟨ep, hep⟩
  have hasc := h.ascending
  have haddrs := h.addrs
  obtain ⟨u, n, hat, hbal, hu⟩ := h.tree
  have hheight := hbal.height_le_log
  rw [← hu] at heps hasc hfuel
  obtain ⟨p, hloop, hp⟩ := epSearchLoop_spec lid hat.stored heps hasc
    (Nat.lt_of_le_of_lt hheight hfuel)
  have hroot : db.mem.root = ptrOf u := hat.held
  have hnull : db.ep NULL = none := by
    by_contra hne
    exact haddrs.ne_null (h.here _ hne) rfl
  rw [hu] at hp
  refine ⟨p, by rw [epSearch, hroot, hloop], ?_⟩
  rcases hp with ⟨rfl, hno⟩ | ⟨hmem, rfl⟩
  · have hnone : t.find lid = none := by
      by_contra hne
      obtain ⟨ep, hfind⟩ := Option.ne_none_iff_exists'.mp hne
      obtain ⟨q, hq, -, hlid⟩ := h.ep_of_find hfind
      exact hno q hq hlid
    exact ⟨hnull.trans hnone.symm, ⟨fun _ => hnone, fun _ => rfl⟩, fun hne => absurd rfl hne⟩
  · have hfind := h.find_lidAt hmem
    obtain ⟨ep, -, hep⟩ := h.exists_ep hmem
    refine ⟨hfind.symm, ⟨fun heq => absurd heq (haddrs.ne_null hmem), fun hnone => ?_⟩,
      fun _ => ⟨hmem, rfl⟩⟩
    rw [hfind, hep] at hnone
    cases hnone

/-! ### Insertion -/

/-- The place in memory of the pointer in a position. -/
def linkOf : Frames Ptr → RbMem.Link
  | [] => .root
  | f :: _ => .child f.side f.item

theorem follow_linkOf {m : RbMem} (h : At m k u) : m.follow (linkOf k) = some (ptrOf u) := by
  cases k with
  | nil => exact congrArg some h.held
  | cons f k => exact child_near h.held.1

/-- A new node is linked in an empty position. -/
theorem rbLinkNode_at {m : RbMem} {nd : RbNode} (h : At m k .leaf) (hp : IsAddr p)
    (hread : m.read p = some nd) (hnew : p ∉ Frames.items k) :
    ∃ m', m.rbLinkNode p (parentPtr k) (linkOf k) = some m' ∧ At m' k (node .red .leaf p .leaf) := by
  have haddrs : Addresses (Frames.items k ++ (node .red .leaf p .leaf).items) := by
    have hnodup : (Frames.items k).Nodup := by simpa [items] using h.addrs.nodup
    refine ⟨?_, fun q hq => ?_⟩
    · simpa [items, List.nodup_append, hnodup] using fun q hq (heq : q = p) => hnew (heq ▸ hq)
    · rcases List.mem_append.mp hq with hq | hq
      · exact h.addrs.addr q (List.mem_append_left _ hq)
      · obtain rfl : q = p := by simpa [items] using hq
        exact hp
  let m₁ := m.write p ⟨parentPtr k, NULL, NULL⟩
  have hset₁ : m.modify p (fun _ => ⟨parentPtr k, NULL, NULL⟩) = some m₁ := modify_eq hread
  have hp₁ : m₁.read p = some ⟨parentPtr k ||| colorBit .red, NULL, NULL⟩ := by
    rw [read_write_self hp.1]
    simp [colorBit]
  have hheld : Held m₁ k NULL := h.held.write hnew
  cases k with
  | nil =>
    exact ⟨{ m₁ with root := p }, by simp [rbLinkNode, hset₁, linkOf], rfl, ⟨hp₁, trivial, trivial⟩,
      haddrs⟩
  | cons f k =>
    obtain ⟨hf, hs, hk⟩ := hheld
    have hnodup := h.addrs.nodup
    simp only [Frames.items, items, List.nodup_append, List.nodup_cons, List.mem_append,
      List.mem_cons, not_or, List.append_nil] at hnodup hnew
    have hset₂ := setChild_near (z := p) hf
    refine ⟨_, by simp [rbLinkNode, hset₁, linkOf, hset₂], ⟨read_write_self (ne_null_of_read hf),
      hs.write (by grind), hk.write (by grind)⟩, ⟨?_, trivial, trivial⟩, haddrs⟩
    rw [read_write_of_ne (by grind)]
    exact hp₁

/-- The loop of `ep_insert` in a subtree, below a position between the smaller LIDs and the greater
    ones. -/
theorem epInsertLoop_spec (lid : UInt16) (h : At db.mem k u) (heps : ∀ q ∈ u.items, ∃ ep, db.ep q = some ep)
    (hasc : (Frames.plug k u).items.Pairwise fun p q => db.lidAt p < db.lidAt q)
    (hbefore : ∀ q ∈ Frames.before k, db.lidAt q < lid)
    (hafter : ∀ q ∈ Frames.after k, lid < db.lidAt q) (hfuel : u.height < fuel) :
    (∃ q ∈ u.items, db.lidAt q = lid ∧
        db.epInsertLoop lid fuel (linkOf k) (parentPtr k) = some none) ∨
      ∃ k', db.epInsertLoop lid fuel (linkOf k) (parentPtr k) = some (some (linkOf k', parentPtr k')) ∧
        At db.mem k' .leaf ∧ Frames.plug k' .leaf = Frames.plug k u ∧
        (∀ q ∈ Frames.before k', db.lidAt q < lid) ∧ ∀ q ∈ Frames.after k', lid < db.lidAt q := by
  induction fuel generalizing k u with
  | zero => exact absurd hfuel (Nat.not_lt_zero _)
  | succ fuel ih =>
    have hfollow := follow_linkOf h
    cases u with
    | leaf =>
      refine .inr ⟨k, ?_, h, rfl, hbefore, hafter⟩
      simp [epInsertLoop, hfollow]
    | node c l a r =>
      obtain ⟨ep, hep⟩ := heps a (by simp [items])
      have hlid := lidAt_eq hep
      have hne := ne_null_of_read h.stored.1
      simp only [height] at hfuel
      have hsub := hasc
      rw [Frames.items_plug, items, List.pairwise_append, List.pairwise_append,
        List.pairwise_append, List.pairwise_cons] at hsub
      obtain ⟨-, ⟨⟨-, ⟨har, -⟩, hla⟩, -, -⟩, -⟩ := hsub
      rcases lt_trichotomy lid ep.lid with hlt | heq | hgt
      · have hloop : db.epInsertLoop lid (fuel + 1) (linkOf k) (parentPtr k) =
            db.epInsertLoop lid fuel (linkOf (⟨.left, c, a, r⟩ :: k))
              (parentPtr (⟨.left, c, a, r⟩ :: k)) := by
          show _ = db.epInsertLoop lid fuel (.child .left a) a
          simp [epInsertLoop, hfollow, hne, hep, hlt]
        have hrec := ih (k := ⟨.left, c, a, r⟩ :: k) (u := l) (At.down h)
          (fun q hq => heps q (by simp [items, hq])) hasc hbefore (fun q hq => ?_) (by omega)
        · rw [hloop]
          rcases hrec with ⟨q, hq, hlq, hres⟩ | hres
          · exact .inl ⟨q, by simp [items, hq], hlq, hres⟩
          · exact .inr hres
        · rcases List.mem_cons.mp hq with rfl | hq
          · exact hlid ▸ hlt
          · rcases List.mem_append.mp hq with hq | hq
            · exact (hlid ▸ hlt : lid < db.lidAt a).trans (har q hq)
            · exact hafter q hq
      · refine .inl ⟨a, by simp [items], hlid.trans heq.symm, ?_⟩
        simp [epInsertLoop, hfollow, hne, hep, heq]
      · have hloop : db.epInsertLoop lid (fuel + 1) (linkOf k) (parentPtr k) =
            db.epInsertLoop lid fuel (linkOf (⟨.right, c, a, l⟩ :: k))
              (parentPtr (⟨.right, c, a, l⟩ :: k)) := by
          show _ = db.epInsertLoop lid fuel (.child .right a) a
          simp [epInsertLoop, hfollow, hne, hep, hgt, hgt.not_gt]
        have hrec := ih (k := ⟨.right, c, a, l⟩ :: k) (u := r) (At.down h)
          (fun q hq => heps q (by simp [items, hq])) hasc (fun q hq => ?_) hafter (by omega)
        · rw [hloop]
          rcases hrec with ⟨q, hq, hlq, hres⟩ | hres
          · exact .inl ⟨q, by simp [items, hq], hlq, hres⟩
          · exact .inr hres
        · rcases List.mem_append.mp hq with hq | hq
          · exact hbefore q hq
          · rcases List.mem_append.mp hq with hq | hq
            · exact (hla q hq a (List.mem_cons_self ..)).trans (hlid ▸ hgt)
            · obtain rfl : q = a := by simpa using hq
              exact hlid ▸ hgt

/-- The entries of a part of the nodes. -/
theorem map_eq_append {es : List DareEp} {f : Ptr → Option DareEp}
    (h : (xs ++ ys).map f = es.map some) :
    ∃ es₁ es₂, es = es₁ ++ es₂ ∧ xs.map f = es₁.map some ∧ ys.map f = es₂.map some := by
  rw [List.map_append, eq_comm, List.map_eq_append_iff] at h
  obtain ⟨es₁, es₂, rfl, h₁, h₂⟩ := h
  exact ⟨es₁, es₂, rfl, h₁.symm, h₂.symm⟩

theorem map_congr_some {es : List DareEp} (h : xs.map db.ep = es.map some) {f : UInt16 → Prop}
    (hf : ∀ q ∈ xs, f (db.lidAt q)) : ∀ e ∈ es, f e.lid := by
  intro e he
  have hmem : some e ∈ xs.map db.ep := h ▸ List.mem_map_of_mem he
  obtain ⟨q, hq, heq⟩ := List.mem_map.mp hmem
  exact lidAt_eq heq ▸ hf q hq

namespace Lists

variable {m : RbMem}

/-- A node that is not there has no endpoint. -/
theorem ne_of_mem (h : db.Lists ls t) (hp : db.ep p = none) (hq : q ∈ ls) : q ≠ p := by
  rintro rfl
  obtain ⟨ep, -, hep⟩ := h.exists_ep hq
  rw [hp] at hep
  cases hep

/-- An endpoint comes in with a node between those of the smaller LIDs and of the greater ones. -/
theorem link (h : db.Lists (xs ++ ys) t) (htree : RbTree m (xs ++ p :: ys)) (hp : db.ep p = none)
    (hlow : ∀ q ∈ xs, db.lidAt q < ep.lid) (hhigh : ∀ q ∈ ys, ep.lid < db.lidAt q) :
    Lists ⟨m, Function.update db.ep p (some ep)⟩ (xs ++ p :: ys) (t.insert ep) := by
  obtain ⟨es₁, es₂, hes, h₁, h₂⟩ := map_eq_append h.eps
  have hentries : (t.insert ep).entries = es₁ ++ ep :: es₂ :=
    KeyTable.entries_insert [] hes (map_congr_some (f := (· < ep.lid)) h₁ hlow) (by simp)
      (map_congr_some (f := (ep.lid < ·)) h₂ hhigh)
  have hother : ∀ q ∈ xs ++ ys, Function.update db.ep p (some ep) q = db.ep q :=
    fun q hq => Function.update_of_ne (h.ne_of_mem hp hq) ..
  refine ⟨htree, ?_, fun q hq => ?_⟩
  · show (xs ++ p :: ys).map (Function.update db.ep p (some ep)) = _
    rw [hentries, List.map_append, List.map_cons, List.map_append, List.map_cons, ← h₁, ← h₂,
      Function.update_self,
      List.map_congr_left fun q hq => hother q (List.mem_append_left _ hq),
      List.map_congr_left fun q hq => hother q (List.mem_append_right _ hq)]
  · by_cases heq : q = p
    · simp [heq]
    · have hq' : db.ep q ≠ none := fun hnone => hq ((Function.update_of_ne heq ..).trans hnone)
      have hmem := h.here q hq'
      simp only [List.mem_append, List.mem_cons] at hmem ⊢
      tauto

/-- The entries before and behind that of a node. -/
theorem split (h : db.Lists (xs ++ p :: ys) t) (hp : db.ep p = some ep) :
    ∃ es₁ es₂, t.entries = es₁ ++ ep :: es₂ ∧ xs.map db.ep = es₁.map some ∧
      ys.map db.ep = es₂.map some ∧ p ∉ xs ∧ p ∉ ys := by
  have hnodup := h.addrs.nodup
  rw [List.nodup_middle, List.nodup_cons, List.mem_append, not_or] at hnodup
  obtain ⟨es₁, es, hes, h₁, h₂⟩ := map_eq_append h.eps
  rw [List.map_cons, hp, eq_comm, List.map_eq_cons_iff] at h₂
  obtain ⟨e, es₂, rfl, heq, h₂⟩ := h₂
  obtain rfl : e = ep := Option.some.inj heq
  exact ⟨es₁, es₂, hes, h₁, h₂.symm, hnodup.1⟩

/-- An endpoint goes with its node. -/
theorem unlink (h : db.Lists (xs ++ p :: ys) t) (htree : RbTree m (xs ++ ys)) (hp : db.ep p = some ep) :
    Lists ⟨m, Function.update db.ep p none⟩ (xs ++ ys) (t.erase ep.lid) := by
  obtain ⟨es₁, es₂, hes, h₁, h₂, hxs, hys⟩ := h.split hp
  have hentries : (t.erase ep.lid).entries = es₁ ++ es₂ := KeyTable.entries_erase hes
  have hother : ∀ q, q ≠ p → Function.update db.ep p none q = db.ep q :=
    fun q hq => Function.update_of_ne hq ..
  refine ⟨htree, ?_, fun q hq => ?_⟩
  · show (xs ++ ys).map (Function.update db.ep p none) = _
    rw [hentries, List.map_append, List.map_append, ← h₁, ← h₂,
      List.map_congr_left fun q hq => hother q fun heq => hxs (heq ▸ hq),
      List.map_congr_left fun q hq => hother q fun heq => hys (heq ▸ hq)]
  · have hne : q ≠ p := by
      rintro rfl
      exact hq (Function.update_self ..)
    have hmem := h.here q (hother q hne ▸ hq)
    simp only [List.mem_append, List.mem_cons] at hmem ⊢
    tauto

/-- An endpoint is changed, but for its LID. -/
theorem setEp {ep' : DareEp} (h : db.Lists ls t) (hp : db.ep p = some ep) (hlid : ep'.lid = ep.lid) :
    (db.setEp p ep').Lists ls (t.insert ep') := by
  have hmem : p ∈ ls := h.here p (by simp [hp])
  obtain ⟨xs, ys, rfl⟩ := List.append_of_mem hmem
  obtain ⟨es₁, es₂, hes, h₁, h₂, hxs, hys⟩ := h.split hp
  have hasc := t.ascending
  rw [hes, List.pairwise_append, List.pairwise_cons] at hasc
  have hentries : (t.insert ep').entries = es₁ ++ ep' :: es₂ :=
    KeyTable.entries_insert [ep] hes
      (fun x hx => hlid ▸ hasc.2.2 x hx ep (List.mem_cons_self ..)) (by simp [hlid])
      fun y hy => hlid ▸ hasc.2.1.1 y hy
  have hother : ∀ q, q ≠ p → (db.setEp p ep').ep q = db.ep q := fun q hq => Function.update_of_ne hq ..
  have hself : (db.setEp p ep').ep p = some ep' := Function.update_self ..
  refine ⟨h.tree, ?_, fun q hq => ?_⟩
  · rw [hentries, List.map_append, List.map_cons, List.map_append, List.map_cons, ← h₁, ← h₂, hself,
      List.map_congr_left fun q hq => hother q fun heq => hxs (heq ▸ hq),
      List.map_congr_left fun q hq => hother q fun heq => hys (heq ▸ hq)]
  · by_cases heq : q = p
    · exact heq ▸ hmem
    · exact h.here q (hother q heq ▸ hq)

end Lists

/-- `ep_insert` returns NULL when the LID is there; otherwise a new endpoint comes in. -/
theorem epInsert_lists (h : db.Lists ls t) (hfuel : 2 * Nat.log 2 (ls.length + 1) < fuel)
    (hnew : alloc.Fresh db) (lid : UInt16) (gid : List UInt8) :
    (t.find lid ≠ none ∧ db.epInsert fuel lid gid alloc = some (db, NULL)) ∨
      t.find lid = none ∧ ∃ db' ls', db.epInsert fuel lid gid alloc = some (db', alloc.addr) ∧
        db'.ep = Function.update db.ep alloc.addr (some (newEp lid gid alloc)) ∧
        db'.Lists ls' (t.insert (newEp lid gid alloc)) := by
  have heps : ∀ q ∈ ls, ∃ ep, db.ep q = some ep := fun q hq =>
    let ⟨ep, _, hep⟩ := h.exists_ep hq
    ⟨ep, hep⟩
  have hasc := h.ascending
  obtain ⟨u, n, hat, hbal, hu⟩ := h.tree
  have hheight := hbal.height_le_log
  rw [← hu] at heps hasc hfuel
  have hloop := epInsertLoop_spec (k := []) lid hat heps hasc (by simp [Frames.before])
    (by simp [Frames.after]) (Nat.lt_of_le_of_lt hheight hfuel)
  rcases hloop with ⟨q, hq, hlq, hloop⟩ | ⟨k, hloop, hatk, hplug, hbefore, hafter⟩
  · have hloop : db.epInsertLoop lid fuel .root NULL = some none := hloop
    refine .inl ⟨?_, by simp [epInsert, hloop]⟩
    obtain ⟨ep, hep⟩ := heps q hq
    rw [← hlq, h.find_lidAt (hu ▸ hq), hep]
    exact Option.some_ne_none ep
  · have hloop : db.epInsertLoop lid fuel .root NULL = some (some (linkOf k, parentPtr k)) := hloop
    have hplug : Frames.plug k .leaf = u := hplug
    have hls : ls = Frames.before k ++ Frames.after k := by
      rw [← hu, ← hplug]
      simp [Frames.items_plug, items]
    subst hplug
    -- the block is none of the nodes
    have haddr : alloc.addr ∉ Frames.items k := fun hmem =>
      h.ne_of_mem hnew.2 (hu ▸ Frames.mem_items_plug.mpr (.inl hmem)) rfl
    have hatk₁ : At (db.mem.write alloc.addr alloc.node) k .leaf :=
      ⟨hatk.held.write haddr, trivial, hatk.addrs⟩
    obtain ⟨m₁, hlink, hat₁⟩ := rbLinkNode_at hatk₁ hnew.1 (read_write_self hnew.1.1) haddr
    obtain ⟨c, n', hleaf, hfits⟩ := Frames.fits_of_plug hbal
    cases hleaf
    have hlen : k.length < fuel := by
      have hle := Frames.length_add_height_le (k := k) (t := .leaf)
      omega
    obtain ⟨m₂, hcolor, htree⟩ := rbInsertColor_tree hat₁ hfits hlen
    have hnone : t.find lid = none := by
      by_contra hne
      obtain ⟨ep, hfind⟩ := Option.ne_none_iff_exists'.mp hne
      obtain ⟨q, hq, -, hlq⟩ := h.ep_of_find hfind
      rcases List.mem_append.mp (hls ▸ hq) with hq | hq
      · exact absurd hlq (hbefore q hq).ne
      · exact absurd hlq (hafter q hq).ne'
    refine .inr ⟨hnone, ⟨m₂, Function.update db.ep alloc.addr (some (newEp lid gid alloc))⟩,
      Frames.before k ++ alloc.addr :: Frames.after k, ?_, rfl,
      (hls ▸ h).link htree hnew.2 hbefore hafter⟩
    simp only [epInsert, hloop, hlink, hcolor, Option.bind_eq_bind, Option.bind_some]

/-! ### Erasure -/

/-- What is written elsewhere does not matter to a tree. -/
theorem RbTree_congr {m m' : RbMem} (h : RbTree m ls) (hroot : m'.root = m.root)
    (hsame : ∀ q ∈ ls, m'.read q = m.read q) : RbTree m' ls := by
  obtain ⟨u, n, hat, hbal, rfl⟩ := h
  exact ⟨u, n, ⟨hroot.trans hat.held, hat.stored.congr hsame, hat.addrs⟩, hbal, rfl⟩

/-- `ep_erase`: the endpoint with the LID goes, and its address handle. -/
theorem epErase_lists (h : db.Lists ls t) (hfuel : 2 * Nat.log 2 (ls.length + 1) < fuel) (lid : UInt16) :
    ∃ db' ls', db.epErase fuel lid = some (db', (t.find lid).map fun ep => ep.udEp.ah) ∧
      db'.Lists ls' (t.erase lid) := by
  obtain ⟨p, hsearch, hp, hnull, hmem⟩ := epSearch_lists h hfuel lid
  cases hfind : t.find lid with
  | none =>
    rw [hfind] at hnull
    refine ⟨db, ls, by simp [epErase, hsearch, hnull.mpr rfl], ?_⟩
    rw [KeyTable.erase_eq_self hfind]
    exact h
  | some ep =>
    have hne : p ≠ NULL := fun heq => by simp [hnull.mp heq] at hfind
    obtain ⟨hpls, hlid⟩ := hmem hne
    rw [hfind] at hp
    obtain ⟨m, herase, htree⟩ := rbErase_tree h.tree hpls (Nat.le_of_lt hfuel)
    have hnodup := h.addrs.nodup
    obtain ⟨xs, ys, rfl⟩ := List.append_of_mem hpls
    have hdel : (xs ++ p :: ys).erase p = xs ++ ys := by
      rw [List.nodup_middle, List.nodup_cons, List.mem_append, not_or] at hnodup
      rw [List.erase_append_right _ hnodup.1.1, List.erase_cons_head]
    rw [hdel] at htree
    have htree' : RbTree { m with node := Function.update m.node p none } (xs ++ ys) := by
      rw [List.nodup_middle, List.nodup_cons] at hnodup
      refine RbTree_congr htree rfl fun q hq => ?_
      have hqp : q ≠ p := fun heq => hnodup.1 (heq ▸ hq)
      have hsame : Function.update m.node p none q = m.node q := Function.update_of_ne hqp ..
      simp only [RbMem.read, hsame]
    have hlid : ep.lid = lid := (lidAt_eq hp).symm.trans hlid
    refine ⟨⟨{ m with node := Function.update m.node p none }, Function.update db.ep p none⟩,
      xs ++ ys, ?_, hlid ▸ h.unlink htree' hp⟩
    simp [epErase, hsearch, hne, herase, freeEp, hp]

end EpDb

end Apus
