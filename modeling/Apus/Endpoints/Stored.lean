import Apus.Endpoints.RbTree

namespace Apus

open Lib

/-!
# Trees in memory

A coloured tree of addresses is stored in memory when the node at each address has the pointers and the
colour that the tree says (`Stored`); the frames of a position are stored likewise, up to the pointer to
the root (`Held`).  `At m k t` is the whole tree, seen from the subtree `t` in the position `k`: no
address occurs twice, and the addresses are aligned and not NULL.

* `At.down`, `At.up` — the same tree from a child or from its parent;
* `Stored.congr`, `Held.congr` — what is written elsewhere does not matter;
* `adoptColor_at`, `adopt_at` — a subtree gets another parent;
* `changeChild_at`, `rotate_at` — the last steps of every rotation.
-/

/-- An address of a node: aligned, and not NULL. -/
def IsAddr (p : Ptr) : Prop := p ≠ NULL ∧ p &&& 3 = 0

/-! ### Words -/

theorem or_and (x y z : UInt64) : (x ||| y) &&& z = x &&& z ||| y &&& z := by
  rw [← UInt64.toBitVec_inj]
  exact BitVec.and_or_distrib_right

theorem colorBit_and (c : Color) : colorBit c &&& intOperand (~~~3) = 0 := by cases c <;> decide

theorem colorBit_and_one (c : Color) : colorBit c &&& intOperand 1 = colorBit c := by
  cases c <;> decide

theorem and_not_three {p : Ptr} (h : p &&& 3 = 0) : p &&& intOperand (~~~3) = p := by
  have hsplit : (3 ||| intOperand (~~~3)) &&& p = p := by
    rw [show (3 ||| intOperand (~~~3) : UInt64) = -1 by decide, UInt64.neg_one_and]
  rwa [or_and, UInt64.and_comm 3, h, UInt64.zero_or, UInt64.and_comm] at hsplit

theorem and_one {p : Ptr} (h : p &&& 3 = 0) : p &&& intOperand 1 = 0 := by
  rw [show (intOperand 1 : UInt64) = 3 &&& 1 by decide, ← UInt64.and_assoc, h, UInt64.zero_and]

theorem parentOf_word {p : Ptr} (h : p &&& 3 = 0) (c : Color) : parentOf (p ||| colorBit c) = p := by
  rw [parentOf, or_and, colorBit_and, UInt64.or_zero, and_not_three h]

theorem word_and_one {p : Ptr} (h : p &&& 3 = 0) (c : Color) :
    (p ||| colorBit c) &&& intOperand 1 = colorBit c := by
  rw [or_and, and_one h, UInt64.zero_or, colorBit_and_one]

theorem isBlackWord_word {p : Ptr} (h : p &&& 3 = 0) (c : Color) :
    isBlackWord (p ||| colorBit c) = decide (c = .black) := by
  rw [isBlackWord, word_and_one h]
  cases c <;> decide

/-- `RB_EMPTY_NODE` is false of a node that is not its own parent. -/
theorem word_ne {p q : Ptr} (hp : p &&& 3 = 0) (hq : q &&& 3 = 0) (hne : p ≠ q) (c : Color) :
    p ||| colorBit c ≠ q := by
  intro h
  cases c with
  | red => exact hne (by rwa [colorBit, UInt64.or_zero] at h)
  | black =>
    have hbit := word_and_one hp .black
    rw [h, and_one hq] at hbit
    exact absurd hbit (by decide)

/-! ### Accesses -/

namespace RbNode

/-- The node with the child `x` on the side `d`, and `y` on the other. -/
def sided (d : Side) (pc : UInt64) (x y : Ptr) : RbNode :=
  match d with
  | .left => ⟨pc, y, x⟩
  | .right => ⟨pc, x, y⟩

variable {d : Side} {pc pc' : UInt64} {x y z : Ptr}

@[simp] theorem child_sided : (sided d pc x y).child d = x := by cases d <;> rfl

@[simp] theorem child_flip_sided : (sided d pc x y).child d.flip = y := by cases d <;> rfl

@[simp] theorem setChild_sided : (sided d pc x y).setChild d z = sided d pc z y := by cases d <;> rfl

@[simp] theorem setChild_flip_sided : (sided d pc x y).setChild d.flip z = sided d pc x z := by
  cases d <;> rfl

@[simp] theorem parentColor_sided : (sided d pc x y).parentColor = pc := by cases d <;> rfl

@[simp] theorem setParentColor_sided :
    { sided d pc x y with parentColor := pc' } = sided d pc' x y := by cases d <;> rfl

theorem sided_flip : sided d.flip pc y x = sided d pc x y := by cases d <;> rfl

end RbNode

namespace RbMem

variable {m : RbMem} {p q : Ptr} {n n' : RbNode} {f : RbNode → RbNode}

theorem ne_null_of_read (h : m.read p = some n) : p ≠ NULL := by
  rintro rfl
  rw [read, if_pos rfl] at h
  cases h

theorem read_write_self (hp : p ≠ NULL) : (m.write p n).read p = some n := by
  rw [read, if_neg hp]
  exact Function.update_self ..

theorem read_write_of_ne (h : q ≠ p) : (m.write p n).read q = m.read q := by
  rw [read, read, show (m.write p n).node q = m.node q from Function.update_of_ne h ..]

theorem modify_eq (h : m.read p = some n) : m.modify p f = some (m.write p (f n)) := by
  rw [modify, h, Option.map_some]

theorem setChild_eq {d : Side} (h : m.read p = some n) :
    m.setChild d p q = some (m.write p (n.setChild d q)) := modify_eq h

theorem setParentColorWord_eq {pc : UInt64} (h : m.read p = some n) :
    m.setParentColorWord p pc = some (m.write p { n with parentColor := pc }) := modify_eq h

theorem child_eq {d : Side} (h : m.read p = some n) : m.child d p = some (n.child d) := by
  rw [child, h, Option.map_some]

theorem parentColor_eq (h : m.read p = some n) : m.parentColor p = some n.parentColor := by
  rw [parentColor, h, Option.map_some]

section Sided

open RbNode

variable {d : Side} {pc pc' : UInt64} {x y z : Ptr} (h : m.read p = some (sided d pc x y))

include h

theorem child_near : m.child d p = some x := (child_eq h).trans (by rw [child_sided])

theorem child_far : m.child d.flip p = some y := (child_eq h).trans (by rw [child_flip_sided])

theorem setChild_near : m.setChild d p z = some (m.write p (sided d pc z y)) :=
  (setChild_eq h).trans (by rw [setChild_sided])

theorem setChild_far : m.setChild d.flip p z = some (m.write p (sided d pc x z)) :=
  (setChild_eq h).trans (by rw [setChild_flip_sided])

theorem parentColor_sided : m.parentColor p = some pc :=
  (parentColor_eq h).trans (by rw [RbNode.parentColor_sided])

theorem setParentColorWord_sided :
    m.setParentColorWord p pc' = some (m.write p (sided d pc' x y)) :=
  (setParentColorWord_eq h).trans (by rw [setParentColor_sided])

end Sided

end RbMem

/-! ### Trees -/

open RbMem RbNode

/-- The pointer to a tree. -/
def ptrOf : ColorTree Ptr → Ptr
  | .leaf => NULL
  | .node _ _ a _ => a

/-- The parent of what is in a position. -/
def parentPtr : Frames Ptr → Ptr
  | [] => NULL
  | f :: _ => f.item

/-- The tree is in memory, and the parent of its root is `par`. -/
def Stored (m : RbMem) (par : Ptr) : ColorTree Ptr → Prop
  | .leaf => True
  | .node c l a r =>
    m.read a = some ⟨par ||| colorBit c, ptrOf r, ptrOf l⟩ ∧ Stored m a l ∧ Stored m a r

/-- The frames are in memory, and the pointer to the subtree in their position is `p`. -/
def Held (m : RbMem) : Frames Ptr → Ptr → Prop
  | [], p => m.root = p
  | f :: k, p =>
    m.read f.item = some (sided f.side (parentPtr k ||| colorBit f.color) p (ptrOf f.sibling)) ∧
      Stored m f.item f.sibling ∧ Held m k f.item

/-- A list of addresses, each of them once. -/
structure Addresses (l : List Ptr) : Prop where
  nodup : l.Nodup
  addr : ∀ q ∈ l, IsAddr q

/-- The tree is in memory, seen from a subtree of it. -/
structure At (m : RbMem) (k : Frames Ptr) (t : ColorTree Ptr) : Prop where
  held : Held m k (ptrOf t)
  stored : Stored m (parentPtr k) t
  addrs : Addresses (Frames.items k ++ t.items)

variable {m m' : RbMem} {k : Frames Ptr} {f : Frame Ptr} {t s u x y l r : ColorTree Ptr}
  {a p q g par x' y' : Ptr} {pc : UInt64} {c c' : Color} {d : Side} {n : Nat} {ls ls' : List Ptr}

@[simp] theorem ptrOf_leaf : ptrOf .leaf = NULL := rfl

@[simp, grind =] theorem ptrOf_node : ptrOf (.node c l a r) = a := rfl

@[simp] theorem ptrOf_join : ptrOf (ColorTree.join d c t a s) = a := by cases d <;> rfl

@[simp] theorem ptrOf_recolor : ptrOf (t.recolor c) = ptrOf t := by cases t <;> rfl

theorem ptrOf_mem : ptrOf t = NULL ∨ ptrOf t ∈ t.items := by
  cases t with
  | leaf => exact .inl rfl
  | node c l a r => exact .inr (by simp [ptrOf, ColorTree.items])

theorem parentPtr_mem : parentPtr k = NULL ∨ parentPtr k ∈ Frames.items k := by
  cases k with
  | nil => exact .inl rfl
  | cons f k => exact .inr (by simp [parentPtr, Frames.items])

theorem ptrOf_ne_null (h : Stored m par t) (ht : t ≠ .leaf) : ptrOf t ≠ NULL := by
  cases t with
  | leaf => exact absurd rfl ht
  | node c l a r => exact ne_null_of_read h.1

theorem stored_join : Stored m par (ColorTree.join d c t a s) ↔
    m.read a = some (sided d (par ||| colorBit c) (ptrOf t) (ptrOf s)) ∧
      Stored m a t ∧ Stored m a s := by
  cases d
  · exact Iff.rfl
  · exact and_congr_right fun _ => and_comm

theorem Stored.congr (h : Stored m par t) (hsame : ∀ q ∈ t.items, m'.read q = m.read q) :
    Stored m' par t := by
  induction t generalizing par with
  | leaf => trivial
  | node c l a r ihl ihr =>
    simp only [ColorTree.items, List.mem_append, List.mem_cons] at hsame
    exact ⟨(hsame a (.inr (.inl rfl))).trans h.1, ihl h.2.1 fun q hq => hsame q (.inl hq),
      ihr h.2.2 fun q hq => hsame q (.inr (.inr hq))⟩

theorem Held.congr (h : Held m k p) (hroot : m'.root = m.root)
    (hsame : ∀ q ∈ Frames.items k, m'.read q = m.read q) : Held m' k p := by
  induction k generalizing p with
  | nil => exact hroot.trans h
  | cons f k ih =>
    simp only [Frames.items, List.mem_cons, List.mem_append] at hsame
    exact ⟨(hsame _ (.inl rfl)).trans h.1, h.2.1.congr fun q hq => hsame q (.inr (.inl hq)),
      ih h.2.2 fun q hq => hsame q (.inr (.inr hq))⟩

theorem Stored.write {nd : RbNode} (h : Stored m par t) (hp : p ∉ t.items) :
    Stored (m.write p nd) par t :=
  h.congr fun _ hq => read_write_of_ne fun heq => hp (heq ▸ hq)

theorem Held.write {nd : RbNode} (h : Held m k q) (hp : p ∉ Frames.items k) :
    Held (m.write p nd) k q :=
  h.congr rfl fun _ hq => read_write_of_ne fun heq => hp (heq ▸ hq)

namespace Addresses

theorem perm (h : Addresses ls) (hp : ls.Perm ls') : Addresses ls' :=
  ⟨hp.nodup_iff.mp h.nodup, fun q hq => h.addr q (hp.mem_iff.mpr hq)⟩

/-- Without one of them. -/
theorem tail (h : Addresses (ls ++ a :: ls')) : Addresses (ls ++ ls') :=
  have hperm : Addresses (a :: (ls ++ ls')) := h.perm List.perm_middle
  ⟨(List.nodup_cons.mp hperm.nodup).2, fun q hq => hperm.addr q (List.mem_cons_of_mem _ hq)⟩

theorem right (h : Addresses (ls ++ ls')) : Addresses ls' :=
  ⟨(List.nodup_append.mp h.nodup).2.1, fun q hq => h.addr q (List.mem_append_right _ hq)⟩

theorem ne_null (h : Addresses ls) (hq : q ∈ ls) : q ≠ NULL := (h.addr q hq).1

theorem aligned_parentPtr (h : Addresses (Frames.items k ++ ls)) : parentPtr k &&& 3 = 0 := by
  rcases parentPtr_mem (k := k) with hnull | hmem
  · rw [hnull]; decide
  · exact (h.addr _ (List.mem_append_left _ hmem)).2

end Addresses

namespace At

/-- The same tree, seen from a child. -/
theorem down (h : At m k (f.fill t)) : At m (f :: k) t := by
  obtain ⟨hnode, ht, hs⟩ := stored_join.mp h.stored
  refine ⟨⟨hnode, hs, ?_⟩, ht, h.addrs.perm Frames.perm_items_fill⟩
  have hheld := h.held
  rwa [Frame.fill, ptrOf_join] at hheld

/-- The same tree, seen from the parent. -/
theorem up (h : At m (f :: k) t) : At m k (f.fill t) := by
  obtain ⟨hnode, hs, hk⟩ := h.held
  refine ⟨?_, stored_join.mpr ⟨hnode, h.stored, hs⟩, h.addrs.perm Frames.perm_items_fill.symm⟩
  rwa [Frame.fill, ptrOf_join]

theorem plug (h : At m k t) : At m [] (Frames.plug k t) := by
  induction k generalizing t with
  | nil => exact h
  | cons f k ih => exact ih h.up

theorem of_plug (h : At m [] (Frames.plug k t)) : At m k t := by
  induction k generalizing t with
  | nil => exact h
  | cons f k ih => exact (ih h).down

/-- The two children of a node are different, unless there is none. -/
theorem ne_sibling (h : At m (f :: k) t) (hne : ptrOf t ≠ NULL ∨ ptrOf f.sibling ≠ NULL) :
    ptrOf t ≠ ptrOf f.sibling := by
  intro heq
  have ht := ptrOf_mem (t := t)
  have hs := ptrOf_mem (t := f.sibling)
  rw [← heq] at hs hne
  have hnull : ptrOf t ≠ NULL := hne.elim id id
  have hnodup := h.addrs.nodup
  simp only [Frames.items, List.cons_append, List.nodup_cons, List.nodup_append, List.mem_append] at hnodup
  exact hnodup.2.2.2 _ (.inl (hs.resolve_left hnull)) _ (ht.resolve_left hnull) rfl

/-- The same tree, seen from a subtree of the subtree. -/
theorem down_plug {k' : Frames Ptr} (h : At m k (Frames.plug k' t)) : At m (k' ++ k) t :=
  of_plug (Frames.plug_append.symm ▸ h.plug)

end At

/-! ### Other parents and colours -/

/-- The root of a subtree gets another parent and another colour. -/
theorem paint_stored (h : Stored m par t) (ht : t ≠ .leaf) (hn : t.items.Nodup) (par' : Ptr)
    (c : Color) :
    ∃ m', m.rbSetParentColor (ptrOf t) par' c = some m' ∧ m'.root = m.root ∧
      Stored m' par' (t.recolor c) ∧ ∀ q, q ∉ t.items → m'.read q = m.read q := by
  cases t with
  | leaf => exact absurd rfl ht
  | node c' l a r =>
    obtain ⟨hread, hl, hr⟩ := h
    have hne := ne_null_of_read hread
    rw [ColorTree.items, List.nodup_middle, List.nodup_cons, List.mem_append, not_or] at hn
    refine ⟨_, setParentColorWord_eq hread, rfl,
      ⟨read_write_self hne, hl.write hn.1.1, hr.write hn.1.2⟩, fun q hq => read_write_of_ne ?_⟩
    rintro rfl
    exact hq (by simp [ColorTree.items])

/-- The root of a subtree, if there is one, gets another parent and becomes black. -/
theorem adoptColor_stored (h : Stored m par t) (hn : t.items.Nodup) (par' : Ptr) :
    ∃ m', m.adoptColor (ptrOf t) par' .black = some m' ∧ m'.root = m.root ∧
      Stored m' par' (t.recolor .black) ∧ ∀ q, q ∉ t.items → m'.read q = m.read q := by
  by_cases ht : t = .leaf
  · subst ht
    exact ⟨m, if_pos rfl, rfl, trivial, fun _ _ => rfl⟩
  · obtain ⟨m', hset, hrest⟩ := paint_stored h ht hn par' .black
    exact ⟨m', (if_neg (ptrOf_ne_null h ht)).trans hset, hrest⟩

/-- The root of a subtree, if there is one, gets another parent. -/
theorem adopt_stored (h : Stored m par t) (hn : t.items.Nodup) (hpar : par &&& 3 = 0) (par' : Ptr) :
    ∃ m', m.adopt (ptrOf t) par' = some m' ∧ m'.root = m.root ∧
      Stored m' par' t ∧ ∀ q, q ∉ t.items → m'.read q = m.read q := by
  cases t with
  | leaf => exact ⟨m, if_pos rfl, rfl, trivial, fun _ _ => rfl⟩
  | node c l a r =>
    obtain ⟨hread, hl, hr⟩ := h
    have hne := ne_null_of_read hread
    rw [ColorTree.items, List.nodup_middle, List.nodup_cons, List.mem_append, not_or] at hn
    refine ⟨_, (if_neg hne).trans (modify_eq hread), rfl, ⟨?_, hl.write hn.1.1, hr.write hn.1.2⟩,
      fun q hq => read_write_of_ne ?_⟩
    · show (m.write a _).read a = _
      rw [read_write_self hne, word_and_one hpar, UInt64.or_comm]
    · rintro rfl
      exact hq (by simp [ColorTree.items])

/-- The root of a subtree is painted. -/
theorem recolor_at (h : At m k t) (hne : t ≠ .leaf) (c : Color) :
    ∃ m', m.rbSetParentColor (ptrOf t) (parentPtr k) c = some m' ∧ At m' k (t.recolor c) := by
  cases t with
  | leaf => exact absurd rfl hne
  | node c' l a r =>
    obtain ⟨hread, hl, hr⟩ := h.stored
    have hnodup := (h.addrs.perm (List.perm_middle.append_left _)).nodup
    simp only [List.nodup_append, List.nodup_cons, List.mem_append, List.mem_cons, not_or] at hnodup
    refine ⟨_, setParentColorWord_eq hread, h.held.write (by grind), ?_, h.addrs⟩
    exact ⟨read_write_self (ne_null_of_read hread), hl.write (by grind), hr.write (by grind)⟩

/-- A red root becomes black. -/
theorem setBlack_at (h : At m k t) (hne : t ≠ .leaf) :
    ∃ m', m.rbSetBlack (ptrOf t) = some m' ∧ At m' k (t.recolor .black) := by
  cases t with
  | leaf => exact absurd rfl hne
  | node c' l a r =>
    obtain ⟨m', hm', hat⟩ := recolor_at h hne .black
    refine ⟨m', ?_, hat⟩
    have hword : (parentPtr k ||| colorBit c') ||| colorBit .black =
        parentPtr k ||| colorBit .black := by
      rw [UInt64.or_assoc]
      cases c' <;> rfl
    rw [← hm', ptrOf_node, rbSetParentColor, setParentColorWord_eq h.stored.1]
    refine (modify_eq h.stored.1).trans ?_
    rw [hword]

/-! ### Colours -/

theorem rbIsBlack_of_read (h : m.read p = some (sided d (par ||| colorBit c) x' y'))
    (hpar : par &&& 3 = 0) : m.rbIsBlack p = some (decide (c = .black)) := by
  rw [rbIsBlack, parentColor_sided h, Option.map_some, isBlackWord_word hpar]

theorem isRedNode_ptrOf (h : Stored m par t) (hpar : par &&& 3 = 0)
    (hb : ColorTree.Balanced t c n) : m.isRedNode (ptrOf t) = some (decide (c = .red)) := by
  cases t with
  | leaf => cases hb; exact if_pos rfl
  | node c' l a r =>
    have hc : c' = c := by cases hb <;> rfl
    obtain rfl := hc
    refine (if_neg (ne_null_of_read h.1)).trans ?_
    rw [ptrOf_node, rbIsBlack_of_read (d := .left) h.1 hpar]
    cases c' <;> rfl

theorem isBlackOrNull_ptrOf (h : Stored m par t) (hpar : par &&& 3 = 0)
    (hb : ColorTree.Balanced t c n) : m.isBlackOrNull (ptrOf t) = some (decide (c = .black)) := by
  cases t with
  | leaf => cases hb; exact if_pos rfl
  | node c' l a r =>
    have hc : c' = c := by cases hb <;> rfl
    obtain rfl := hc
    exact (if_neg (ne_null_of_read h.1)).trans (rbIsBlack_of_read (d := .left) h.1 hpar)

/-! ### Rotations -/

/-- Another subtree is put in a position. -/
theorem changeChild_held {old : Ptr} (h : Held m k old) (new : Ptr) (hk : (Frames.items k).Nodup)
    (hne : old ≠ NULL) (hold : old ∉ Frames.items k) :
    ∃ m', m.rbChangeChild old new (parentPtr k) = some m' ∧ Held m' k new ∧
      ∀ q, q ∉ Frames.items k → m'.read q = m.read q := by
  cases k with
  | nil => exact ⟨_, if_pos rfl, rfl, fun _ _ => rfl⟩
  | cons f k =>
    obtain ⟨d, c, a, s⟩ := f
    obtain ⟨hread, hs, hheld⟩ := h
    simp only [Frames.items, List.nodup_cons, List.nodup_append, List.mem_append, List.mem_cons,
      not_or] at hk hold
    have hnull := ne_null_of_read hread
    -- only the pointer on the way is the old one
    have hchange : m.rbChangeChild old new a =
        some (m.write a (sided d (parentPtr k ||| colorBit c) new (ptrOf s))) := by
      rw [rbChangeChild, if_neg hnull, child_eq hread]
      cases d with
      | left => exact (if_pos rfl).trans (setChild_eq hread)
      | right =>
        have hsib : ptrOf s ≠ old := by
          rintro rfl
          exact (ptrOf_mem (t := s)).elim hne hold.2.1
        exact (if_neg hsib).trans (setChild_eq hread)
    refine ⟨_, hchange, ⟨read_write_self hnull, hs.write hk.1.1, hheld.write hk.1.2⟩,
      fun q hq => read_write_of_ne ?_⟩
    rintro rfl
    exact hq (by simp [Frames.items])

/-- The end of a rotation at `g`, which goes below its child `p`: the pointers to children are set, but
    for the one to `g`. -/
theorem rotate_at (hk : Held m k g)
    (hg : m.read g = some (sided d (parentPtr k ||| colorBit c) (ptrOf t) (ptrOf u)))
    (hp : m.read p = some (sided d pc (ptrOf x) g))
    (hx : Stored m p x) (ht : Stored m g t) (hu : Stored m g u)
    (haddrs : Addresses (Frames.items k ++
      (ColorTree.join d c x p (ColorTree.join d c' t g u)).items)) :
    ∃ m', m.rbRotateSetParents g p c' = some m' ∧
      At m' k (ColorTree.join d c x p (ColorTree.join d c' t g u)) := by
  have hnodup := (haddrs.perm (ColorTree.perm_items_join.append_left _)).nodup
  have hpar := haddrs.aligned_parentPtr
  have hgne := ne_null_of_read hg
  have hpne := ne_null_of_read hp
  simp only [List.nodup_append, List.nodup_cons, List.mem_append, List.mem_cons,
    ColorTree.perm_items_join.nodup_iff, ColorTree.mem_items_join, not_or] at hnodup
  -- the cells of `p` and `g` are written, and then the pointer to `g`
  let m₁ := m.write p (sided d (parentPtr k ||| colorBit c) (ptrOf x) g)
  let m₂ := m₁.write g (sided d (p ||| colorBit c') (ptrOf t) (ptrOf u))
  have hg₁ : m₁.read g = m.read g := read_write_of_ne (by grind)
  have hk₂ : Held m₂ k g := (hk.write (by grind)).write (by grind)
  obtain ⟨m₃, hchange, hheld, hsame⟩ := changeChild_held hk₂ p (by grind) hgne (by grind)
  have hsame' : ∀ q, q ∉ Frames.items k → q ≠ p → q ≠ g → m₃.read q = m.read q :=
    fun q hq hqp hqg => by rw [hsame q hq, read_write_of_ne hqg, read_write_of_ne hqp]
  refine ⟨m₃, ?_, ?_, ?_, haddrs⟩
  · have hcolor : m.parentColor g = some (parentPtr k ||| colorBit c) := parentColor_sided hg
    have hnew : m.setParentColorWord p (parentPtr k ||| colorBit c) = some m₁ :=
      setParentColorWord_sided hp
    have hold : m₁.rbSetParentColor g p c' = some m₂ := setParentColorWord_sided (hg₁.trans hg)
    simp only [rbRotateSetParents, rbParent, hcolor, hnew, hold, hchange, parentOf_word hpar,
      Option.bind_eq_bind, Option.bind_some, Option.map_some]
  · rwa [ptrOf_join]
  · rw [stored_join, stored_join]
    refine ⟨?_, hx.congr fun q hq => ?_, ?_, ht.congr fun q hq => ?_, hu.congr fun q hq => ?_⟩
    · rw [hsame p (by grind), read_write_of_ne (by grind), read_write_self hpne, ptrOf_join]
    · exact hsame' q (by grind) (by grind) (by grind)
    · rw [hsame g (by grind), read_write_self hgne]
    · exact hsame' q (by grind) (by grind) (by grind)
    · exact hsame' q (by grind) (by grind) (by grind)

end Apus
