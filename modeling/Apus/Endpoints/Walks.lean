import Apus.Endpoints.Erase

namespace Apus

open Lib ColorTree RbNode
open RbMem hiding node

/-!
# Iteration

* `rbEnd_tree`, `rbBeside_tree` — `rb_first` and `rb_next` go through the nodes in order, and `rb_last`
  and `rb_prev` in the reverse order;
* `rbPostorder_tree` — `rb_first_postorder` and `rb_next_postorder` go through all nodes once, and from a
  node to the next also when only the nodes from there on are still what they were.
-/

variable {m m' : RbMem} {k : Frames Ptr} {t l r : ColorTree Ptr} {a par : Ptr} {c : Color} {d : Side}
  {fuel : Nat} {ls xs ys : List Ptr}

/-! ### In order -/

/-- The addresses in the order towards a side. -/
def along : Side → List Ptr → List Ptr
  | .right, ls => ls
  | .left, ls => ls.reverse

/-- The addresses beyond a position, towards a side. -/
def beyond (d : Side) : Frames Ptr → List Ptr
  | [] => []
  | f :: k => if f.side = d then beyond d k else f.item :: (along d f.sibling.items ++ beyond d k)

theorem along_join_flip {y z : ColorTree Ptr} :
    along d.flip (join d c y a z).items = along d.flip y.items ++ a :: along d.flip z.items := by
  cases d <;> simp [along, join, items, Side.flip]

theorem along_join {y z : ColorTree Ptr} :
    along d (join d c y a z).items = along d z.items ++ a :: along d y.items := by
  cases d <;> simp [along, join, items]

theorem along_plug : ∃ ls, along d (Frames.plug k t).items = ls ++ (along d t.items ++ beyond d k) := by
  induction k generalizing t with
  | nil => exact ⟨[], by simp [Frames.plug, beyond]⟩
  | cons f k ih =>
    obtain ⟨ls, h⟩ := ih (t := f.fill t)
    rw [Frames.plug, h, Frame.fill]
    by_cases hd : f.side = d
    · subst hd
      refine ⟨ls ++ (along f.side f.sibling.items ++ [f.item]), ?_⟩
      simp [along_join, beyond]
    · have hflip : d = f.side.flip := by
        cases d <;> cases hside : f.side <;> simp_all [Side.flip]
      refine ⟨ls, ?_⟩
      rw [beyond, if_neg hd, hflip, along_join_flip]
      simp

theorem along_ne_nil (ht : t ≠ .leaf) : along d t.items ≠ [] := by
  cases t with
  | leaf => exact absurd rfl ht
  | node c l a r => cases d <;> simp [along, items]

theorem headD_append {q : Ptr} (h : xs ≠ []) : (xs ++ ys).headD q = xs.headD q := by
  cases xs with
  | nil => exact absurd rfl h
  | cons x xs => rfl

/-- The way down to a side ends at the first node from there. -/
theorem rbDown_spec (h : Stored m par t) (ht : t ≠ .leaf) (hfuel : t.height ≤ fuel) :
    m.rbDown d fuel (ptrOf t) = some ((along d.flip t.items).headD NULL) := by
  induction fuel generalizing par t with
  | zero =>
    cases t with
    | leaf => exact absurd rfl ht
    | node c l a r => exact absurd hfuel (Nat.not_succ_le_zero _)
  | succ fuel ih =>
    cases t with
    | leaf => exact absurd rfl ht
    | node c l a r =>
      have hheight : l.height ≤ fuel ∧ r.height ≤ fuel := by
        simp only [height] at hfuel
        omega
      obtain ⟨y, z, hjoin, hy, -⟩ :=
        exists_join (c := c) (a := a) (P := (height · ≤ fuel)) d hheight.1 hheight.2
      rw [hjoin] at h ⊢
      obtain ⟨ha, hy', -⟩ := stored_join.mp h
      rw [along_join_flip, ptrOf_join]
      simp only [rbDown, child_near ha, Option.bind_eq_bind, Option.bind_some]
      by_cases hleaf : y = .leaf
      · subst hleaf
        rw [ptrOf_leaf, if_neg (fun h => h rfl)]
        cases d <;> rfl
      · rw [if_pos (ptrOf_ne_null hy' hleaf), ih hy' hleaf hy, headD_append (along_ne_nil hleaf)]

/-- The way up ends at the first node beyond the position. -/
theorem rbUp_spec (h : At m k t) (ht : t ≠ .leaf) (hfuel : k.length < fuel) :
    m.rbUp d fuel (ptrOf t) = some ((beyond d k).headD NULL) := by
  induction fuel generalizing k t with
  | zero => exact absurd hfuel (Nat.not_lt_zero _)
  | succ fuel ih =>
    have hparent : m.rbParent (ptrOf t) = some (parentPtr k) := by
      cases t with
      | leaf => exact absurd rfl ht
      | node c l a r =>
        rw [rbParent, ptrOf_node, parentColor_eq h.stored.1, Option.map_some,
          parentOf_word h.addrs.aligned_parentPtr]
    cases k with
    | nil => simp [rbUp, hparent, parentPtr, beyond]
    | cons f k =>
      have hf := h.held.1
      have hne : f.item ≠ NULL := ne_null_of_read hf
      by_cases hd : f.side = d
      · subst hd
        have hup := ih (t := f.fill t) h.up join_ne_leaf (by simpa using hfuel)
        rw [Frame.fill, ptrOf_join] at hup
        simp [rbUp, hparent, parentPtr, hne, child_near hf, hup, beyond]
      · have hflip : d = f.side.flip := by
          cases d <;> cases hside : f.side <;> simp_all [Side.flip]
        have hsib := h.ne_sibling (.inl (ptrOf_ne_null h.stored ht))
        rw [beyond, if_neg hd, hflip]
        simp [rbUp, hparent, parentPtr, hne, child_far hf, hsib]

/-- `rb_next`, `rb_prev`, from a node of the tree. -/
theorem rbBeside_spec (h : At m k (node c l a r)) (hfuel : (Frames.plug k (node c l a r)).height ≤ fuel) :
    ∃ xs ys, along d (Frames.plug k (node c l a r)).items = xs ++ a :: ys ∧
      m.rbBeside d fuel a = some (ys.headD NULL) := by
  have hle := Frames.length_add_height_le (k := k) (t := node c l a r)
  obtain ⟨ls, hls⟩ := along_plug (d := d) (k := k) (t := node c l a r)
  obtain ⟨y, z, hjoin, hy, hz⟩ := exists_join (c := c) (l := l) (a := a) (r := r)
    (P := fun t => t.height ≤ fuel) d (by simp only [height] at hle; omega)
    (by simp only [height] at hle; omega)
  have hlen : k.length < fuel := by
    simp only [height] at hle
    omega
  rw [hls]
  rw [hjoin] at h ⊢
  obtain ⟨ha, hy', -⟩ := stored_join.mp h.stored
  have haddr := h.addrs.addr a (by simp [mem_items_join])
  have hpar := h.addrs.aligned_parentPtr
  -- the node is not its own parent
  have hne : parentPtr k ≠ a := by
    have hnodup := h.addrs.nodup
    simp only [List.nodup_append, mem_items_join] at hnodup
    rcases parentPtr_mem (k := k) with hnull | hmem
    · rw [hnull]
      exact haddr.1.symm
    · exact hnodup.2.2 _ hmem a (.inr (.inl rfl))
  have hempty := word_ne hpar haddr.2 hne c
  refine ⟨ls ++ along d z.items, along d y.items ++ beyond d k, ?_, ?_⟩
  · rw [along_join]
    simp
  · simp only [rbBeside, parentColor_sided ha, child_near ha, Option.bind_eq_bind, Option.bind_some,
      if_neg hempty]
    by_cases hleaf : y = .leaf
    · subst hleaf
      have hup := rbUp_spec (d := d) h join_ne_leaf hlen
      rw [ptrOf_join] at hup
      rw [ptrOf_leaf, if_neg (fun h => h rfl), hup]
      cases d <;> rfl
    · have hdown := rbDown_spec (d := d.flip) hy' hleaf hy
      rw [Side.flip_flip] at hdown
      rw [if_pos (ptrOf_ne_null hy' hleaf), hdown, headD_append (along_ne_nil hleaf)]

/-- In a list without repetition, what is behind an element is determined. -/
theorem suffix_unique {xs' ys' : List Ptr} (hn : (xs ++ a :: ys).Nodup)
    (h : xs ++ a :: ys = xs' ++ a :: ys') : ys = ys' := by
  rw [List.nodup_middle, List.nodup_cons, List.mem_append, not_or] at hn
  exact ((List.append_cons_inj_of_notMem hn.1.1 hn.1.2).mp h).2.2

theorem along_nodup (h : ls.Nodup) : (along d ls).Nodup := by
  cases d
  · exact List.nodup_reverse.mpr h
  · exact h

/-- From a node, `rb_next` is the one behind it, and `rb_prev` the one before it. -/
theorem rbBeside_tree (h : RbTree m ls) (hls : along d ls = xs ++ a :: ys)
    (hfuel : 2 * Nat.log 2 (ls.length + 1) ≤ fuel) :
    m.rbBeside d fuel a = some (ys.headD NULL) := by
  obtain ⟨t, n, hat, hbal, rfl⟩ := h
  have hheight := hbal.height_le_log
  have ha : a ∈ t.items := by
    have hmem : a ∈ along d t.items := by simp [hls]
    cases d
    · exact List.mem_reverse.mp hmem
    · exact hmem
  have hnodup : t.items.Nodup := hat.addrs.nodup
  obtain ⟨k, c, l, r, rfl⟩ := Frames.exists_plug ha
  obtain ⟨xs', ys', hsplit, hnext⟩ :=
    rbBeside_spec (d := d) hat.of_plug (Nat.le_trans hheight hfuel)
  have hn := along_nodup (d := d) hnodup
  rw [hnext, suffix_unique (hls ▸ hn) (hls.symm.trans hsplit)]

/-- `rb_first` is the first node, and `rb_last` the last one. -/
theorem rbEnd_tree (h : RbTree m ls) (hfuel : 2 * Nat.log 2 (ls.length + 1) ≤ fuel) :
    m.rbEnd d fuel = some ((along d.flip ls).headD NULL) := by
  obtain ⟨t, n, hat, hbal, rfl⟩ := h
  have hheight := hbal.height_le_log
  have hroot : m.root = ptrOf t := hat.held
  by_cases hleaf : t = .leaf
  · subst hleaf
    have hnull : m.root = NULL := hroot
    rw [rbEnd, if_pos hnull]
    cases d <;> rfl
  · rw [rbEnd, hroot, if_neg (ptrOf_ne_null hat.stored hleaf)]
    exact rbDown_spec hat.stored hleaf (by omega)

/-! ### Children first -/

theorem postorder_ne_nil (ht : t ≠ .leaf) : t.postorder ≠ [] := by
  cases t with
  | leaf => exact absurd rfl ht
  | node c l a r => simp [postorder]

/-- The way down to the deepest node on the left ends at the first node. -/
theorem rbLeftDeepestNode_spec (h : Stored m par t) (ht : t ≠ .leaf) (hfuel : t.height ≤ fuel) :
    m.rbLeftDeepestNode fuel (ptrOf t) = some (t.postorder.headD NULL) := by
  induction fuel generalizing par t with
  | zero =>
    cases t with
    | leaf => exact absurd rfl ht
    | node c l a r => exact absurd hfuel (Nat.not_succ_le_zero _)
  | succ fuel ih =>
    cases t with
    | leaf => exact absurd rfl ht
    | node c l a r =>
      have hheight : l.height ≤ fuel ∧ r.height ≤ fuel := by
        simp only [height] at hfuel
        omega
      obtain ⟨ha, hl, hr⟩ := h
      have hleft : m.child .left a = some (ptrOf l) := child_eq ha
      have hright : m.child .right a = some (ptrOf r) := child_eq ha
      simp only [rbLeftDeepestNode, ptrOf_node, hleft, hright, postorder, Option.bind_eq_bind,
        Option.bind_some]
      by_cases hl' : l = .leaf
      · subst hl'
        rw [ptrOf_leaf, if_neg (fun h => h rfl)]
        by_cases hr' : r = .leaf
        · subst hr'
          rw [ptrOf_leaf, if_neg (fun h => h rfl)]
          rfl
        · rw [if_pos (ptrOf_ne_null hr hr'), ih hr hr' hheight.2, postorder, List.nil_append,
            headD_append (postorder_ne_nil hr')]
      · rw [if_pos (ptrOf_ne_null hl hl'), ih hl hl' hheight.1, headD_append (postorder_ne_nil hl')]

/-- `rb_next_postorder` from the root of a subtree, when the nodes behind it are still there. -/
theorem rbNextPostorder_spec (h : At m k t) (ht : t ≠ .leaf)
    (hsame : ∀ q ∈ ptrOf t :: Frames.postAfter k, m'.read q = m.read q)
    (hfuel : (Frames.plug k t).height ≤ fuel) :
    m'.rbNextPostorder fuel (ptrOf t) = some ((Frames.postAfter k).headD NULL) := by
  have htne := ptrOf_ne_null h.stored ht
  have hparent : m'.rbParent (ptrOf t) = some (parentPtr k) := by
    cases t with
    | leaf => exact absurd rfl ht
    | node c l a r =>
      have hread := (hsame a (List.mem_cons_self ..)).trans h.stored.1
      rw [rbParent, ptrOf_node, parentColor_eq hread, Option.map_some,
        parentOf_word h.addrs.aligned_parentPtr]
  rw [rbNextPostorder, if_neg htne]
  cases k with
  | nil => simp [hparent, parentPtr, Frames.postAfter]
  | cons f k =>
    have hne := h.ne_sibling (.inl htne)
    have hle := Frames.length_add_height_le (k := k) (t := f.fill t)
    obtain ⟨d, c, p, s⟩ := f
    obtain ⟨hp, hs, -⟩ := h.held
    have hpne := ne_null_of_read hp
    have hp' : m'.read p = m.read p := by
      cases d <;> exact hsame p (by simp [Frames.postAfter])
    cases d with
    | left =>
      have hleft := child_near (hp'.trans hp)
      have hright : m'.child .right p = some (ptrOf s) := child_far (hp'.trans hp)
      by_cases hsleaf : s = .leaf
      · subst hsleaf
        simp [hparent, parentPtr, hpne, hleft, hright, Frames.postAfter, postorder]
      · have hs' : Stored m' p s := hs.congr fun q hq => hsame q (by
          simp [Frames.postAfter, perm_postorder.mem_iff, hq])
        have hheight : s.height ≤ fuel := by
          simp only [Frame.fill, join, height] at hle
          have hplug : (Frames.plug k (node c t p s)).height ≤ fuel := hfuel
          omega
        have hdeep := rbLeftDeepestNode_spec hs' hsleaf hheight
        have hsne := ptrOf_ne_null hs hsleaf
        rw [Frames.postAfter, headD_append (postorder_ne_nil hsleaf), ← hdeep]
        simp [hparent, parentPtr, hpne, hleft, hright, hsne]
    | right =>
      have hleft : m'.child .left p = some (ptrOf s) := child_far (hp'.trans hp)
      have hright := child_near (hp'.trans hp)
      simp [hparent, parentPtr, hpne, hleft, hright, hne, Frames.postAfter]

/-- The nodes in some order: `rb_first_postorder` gives the first one, and `rb_next_postorder` the one behind
    a node, whatever has become of the nodes before it. -/
theorem rbPostorder_tree (h : RbTree m ls) (hfuel : 2 * Nat.log 2 (ls.length + 1) ≤ fuel) :
    ∃ ps, ps.Perm ls ∧ m.rbFirstPostorder fuel = some (ps.headD NULL) ∧
      ∀ xs a ys (m' : RbMem), ps = xs ++ a :: ys → (∀ q ∈ a :: ys, m'.read q = m.read q) →
        m'.rbNextPostorder fuel a = some (ys.headD NULL) := by
  obtain ⟨t, n, hat, hbal, rfl⟩ := h
  have hheight := Nat.le_trans hbal.height_le_log hfuel
  have hroot : m.root = ptrOf t := hat.held
  refine ⟨t.postorder, perm_postorder, ?_, fun xs a ys m' hsplit hsame => ?_⟩
  · by_cases hleaf : t = .leaf
    · subst hleaf
      have hnull : m.root = NULL := hroot
      rw [rbFirstPostorder, if_pos hnull]
      rfl
    · rw [rbFirstPostorder, hroot, if_neg (ptrOf_ne_null hat.stored hleaf)]
      exact rbLeftDeepestNode_spec hat.stored hleaf hheight
  · have ha : a ∈ t.items := perm_postorder.mem_iff.mp (by simp [hsplit])
    have hnodup : t.postorder.Nodup := perm_postorder.nodup_iff.mpr hat.addrs.nodup
    obtain ⟨k, c, l, r, rfl⟩ := Frames.exists_plug ha
    obtain ⟨zs, hzs⟩ := Frames.postorder_plug (k := k) (t := node c l a r)
    -- the nodes behind `a` are those behind its position
    have hsplit' : xs ++ a :: ys = (zs ++ (l.postorder ++ r.postorder)) ++ a :: Frames.postAfter k := by
      rw [← hsplit, hzs]
      simp [postorder]
    have hys : ys = Frames.postAfter k := suffix_unique (hsplit ▸ hnodup) hsplit'
    subst hys
    exact rbNextPostorder_spec hat.of_plug (fun hleaf => by cases hleaf) hsame hheight

end Apus
