import Apus.Endpoints.EraseColor

namespace Apus

open Lib ColorTree RbNode
open RbMem hiding node

/-!
# Erasure

`__rb_erase_augmented` takes a node out, or puts its successor in its place, which is at the end of a path
to the left in the right subtree (`Path`).  In each case the node that is missing is one with at most one
child (`Missing`): there is nothing to do, its child becomes black, or the loop has to rebalance.

* `rbErase_tree` — `rb_erase` keeps the other nodes, in order, in a red-black tree.
-/

variable {m m' : RbMem} {k k' : Frames Ptr} {f : Frame Ptr} {t s u x y z l r : ColorTree Ptr}
  {a b e p q w par top : Ptr} {pc : UInt64} {c c' : Color} {d : Side} {n fuel : Nat} {ls : List Ptr}

/-! ### Paths -/

/-- The parent of what is in a position below a tree whose root has the parent `par`. -/
def parentOr (par : Ptr) : Frames Ptr → Ptr
  | [] => par
  | f :: _ => f.item

/-- The frames of a position are in memory, with the pointers `p` in it and `top` to its root. -/
def Path (m : RbMem) (par : Ptr) : Frames Ptr → Ptr → Ptr → Prop
  | [], p, top => top = p
  | f :: k, p, top =>
    m.read f.item = some (sided f.side (parentOr par k ||| colorBit f.color) p (ptrOf f.sibling)) ∧
      Stored m f.item f.sibling ∧ Path m par k f.item top

@[simp] theorem parentOr_cons : parentOr par (f :: k) = f.item := rfl

/-- A tree is a path to a subtree, and the latter. -/
theorem stored_plug : Stored m par (Frames.plug k t) ↔
    Path m par k (ptrOf t) (ptrOf (Frames.plug k t)) ∧ Stored m (parentOr par k) t := by
  induction k generalizing t with
  | nil => exact ⟨fun h => ⟨rfl, h⟩, And.right⟩
  | cons f k ih =>
    rw [Frames.plug, ih, Frame.fill, stored_join, ptrOf_join]
    constructor
    · rintro ⟨hpath, hf, ht, hs⟩
      exact ⟨⟨hf, hs, hpath⟩, ht⟩
    · rintro ⟨⟨hf, hs, hpath⟩, ht⟩
      exact ⟨hpath, hf, ht, hs⟩

theorem Path.top_eq (h : Path m par k (ptrOf t) top) : top = ptrOf (Frames.plug k t) := by
  induction k generalizing t with
  | nil => exact h
  | cons f k ih =>
    refine ih (t := f.fill t) ?_
    rw [Frame.fill, ptrOf_join]
    exact h.2.2

theorem Path.congr (h : Path m par k p top)
    (hsame : ∀ q ∈ Frames.items k, m'.read q = m.read q) : Path m' par k p top := by
  induction k generalizing p with
  | nil => exact h
  | cons f k ih =>
    simp only [Frames.items, List.mem_cons, List.mem_append] at hsame
    exact ⟨(hsame _ (.inl rfl)).trans h.1, h.2.1.congr fun q hq => hsame q (.inr (.inl hq)),
      ih h.2.2 fun q hq => hsame q (.inr (.inr hq))⟩

theorem Path.write {nd : RbNode} (h : Path m par k q top) (hp : p ∉ Frames.items k) :
    Path (m.write p nd) par k q top :=
  h.congr fun _ hq => read_write_of_ne fun heq => hp (heq ▸ hq)

/-- The first node of a path gets another parent. -/
theorem Path.adopt (h : Path m par k p top) (hk : k ≠ []) (hn : (Frames.items k).Nodup)
    (hpar : par &&& 3 = 0) (par' : Ptr) :
    ∃ m', m.rbSetParent top par' = some m' ∧ m'.root = m.root ∧ Path m' par' k p top ∧
      ∀ q, q ∉ Frames.items k → m'.read q = m.read q := by
  induction k generalizing p with
  | nil => exact absurd rfl hk
  | cons f k ih =>
    obtain ⟨hf, hs, hpath⟩ := h
    have hne := ne_null_of_read hf
    simp only [Frames.items, List.nodup_cons, List.nodup_append, List.mem_append, not_or] at hn
    cases k with
    | nil =>
      obtain rfl : top = f.item := hpath
      refine ⟨_, modify_eq hf, rfl, ⟨?_, hs.write hn.1.1, rfl⟩, fun q hq => read_write_of_ne ?_⟩
      · rw [read_write_self hne, RbNode.parentColor_sided, parentOr, word_and_one hpar, UInt64.or_comm]
        exact congrArg some setParentColor_sided
      · rintro rfl
        exact hq (by simp [Frames.items])
    | cons f' k =>
      obtain ⟨m', hset, hroot, hpath', hsame⟩ := ih hpath (List.cons_ne_nil _ _) hn.2.2.1
      refine ⟨m', hset, hroot, ⟨(hsame _ hn.1.2).trans hf, hs.congr fun q hq => ?_, hpath'⟩,
        fun q hq => ?_⟩
      · exact hsame q fun hmem => hn.2.2.2 q hq q hmem rfl
      · simp only [Frames.items, List.mem_cons, List.mem_append] at hq hsame
        exact hsame q (by tauto)

/-! ### The successor -/

/-- The loop goes down to the left. -/
theorem rbSuccessor_spec (h : Stored m par t) (ht : t ≠ .leaf) (hfuel : t.height ≤ fuel) (q : Ptr) :
    ∃ k c b z, t = Frames.plug k (node c .leaf b z) ∧ (∀ f ∈ k, f.side = .left) ∧
      m.rbSuccessor fuel q (ptrOf t) = some (parentOr q k, b) := by
  induction t generalizing par q fuel with
  | leaf => exact absurd rfl ht
  | node c l a r ihl _ =>
    cases fuel with
    | zero => exact absurd hfuel (Nat.not_succ_le_zero _)
    | succ fuel =>
      have hleft : m.child .left a = some (ptrOf l) := child_eq h.1
      by_cases hl : l = .leaf
      · subst hl
        refine ⟨[], c, a, r, rfl, by simp, ?_⟩
        simp [rbSuccessor, hleft, parentOr, ptrOf]
      · have hheight : l.height ≤ fuel := by simp only [height] at hfuel; omega
        obtain ⟨k, c', b, z, hplug, hside, hloop⟩ := ihl h.2.1 hl hheight a
        refine ⟨k ++ [⟨.left, c, a, r⟩], c', b, z, ?_, ?_, ?_⟩
        · rw [Frames.plug_append, ← hplug]
          rfl
        · simpa [or_imp, forall_and] using hside
        · have hne := ptrOf_ne_null h.2.1 hl
          simp only [rbSuccessor, ptrOf_node, hleft, Option.bind_eq_bind, Option.bind_some, hloop,
            if_pos hne]
          cases k <;> rfl

/-- What is known when the successor `b` is out of its place: the way from the position of its child `z`
    up to the top of the right subtree of `b`. -/
structure Taken (m m' : RbMem) (r : ColorTree Ptr) (k : Frames Ptr) (c : Color) (b : Ptr)
    (z : ColorTree Ptr) (top : Ptr) : Prop where
  tree : r = Frames.plug k (node c .leaf b z)
  items : r.items = b :: (Frames.plug k z).items
  path : Path m' b k (ptrOf z) top
  successor : ∃ q, q &&& 3 = 0 ∧ m'.read b = some ⟨q ||| colorBit c, top, NULL⟩
  child : Stored m' b z
  root : m'.root = m.root
  same : ∀ q, q ∉ r.items → m'.read q = m.read q

/-- Cases 2 and 3. -/
theorem rbEraseTake_spec (h : Stored m a r) (hr : r ≠ .leaf) (ha : a &&& 3 = 0)
    (haddrs : Addresses r.items) (hfuel : r.height ≤ fuel) :
    ∃ m' k c b z top, m.rbEraseTake fuel (ptrOf r) = some (m', parentOr b k, b, ptrOf z) ∧
      Taken m m' r k c b z top := by
  cases r with
  | leaf => exact absurd rfl hr
  | node c₀ l p s =>
    have hleft : m.child .left p = some (ptrOf l) := child_eq h.1
    by_cases hl : l = .leaf
    · -- case 2
      subst hl
      have hright : m.child .right p = some (ptrOf s) := child_eq h.1
      refine ⟨m, [], c₀, p, s, ptrOf s, ?_, rfl, rfl, rfl, ⟨a, ha, h.1⟩, h.2.2, rfl, fun _ _ => rfl⟩
      simp [rbEraseTake, hleft, hright, ptrOf, parentOr]
    · -- case 3
      have hheight : l.height ≤ fuel := by simp only [height] at hfuel; omega
      obtain ⟨k₀, c, b, z, hplug, hside, hloop⟩ := rbSuccessor_spec h.2.1 hl hheight p
      have hk₀ : ∃ f k, k₀ ++ [⟨.left, c₀, p, s⟩] = f :: k ∧ parentOr p k₀ = f.item := by
        cases k₀ with
        | nil => exact ⟨_, [], rfl, rfl⟩
        | cons f k₀ => exact ⟨f, _, rfl, rfl⟩
      obtain ⟨f, k, hk, hparent⟩ := hk₀
      have hleft' : ∀ f' ∈ f :: k, f'.side = .left := by
        rw [← hk]
        simpa [or_imp, forall_and] using hside
      have hf := hleft' f (List.mem_cons_self ..)
      have htree : node c₀ l p s = Frames.plug (f :: k) (node c .leaf b z) := by
        rw [← hk, Frames.plug_append, ← hplug]
        rfl
      obtain ⟨hpath, hb, -, hz⟩ := stored_plug.mp (htree ▸ h)
      rw [← htree] at hpath
      obtain ⟨hfread, hfs, hpath⟩ := hpath
      have hnodup := (htree ▸ haddrs).perm Frames.perm_items_plug |>.nodup
      have hitems : ∀ q, q ∉ (node c₀ l p s).items →
          q ∉ Frames.items (f :: k) ∧ q ≠ b ∧ q ∉ z.items := by
        intro q hq
        rw [htree, Frames.mem_items_plug] at hq
        simpa [items] using hq
      simp only [Frames.items, items, List.nil_append, List.nodup_append, List.nodup_cons,
        List.mem_append, List.mem_cons, not_or] at hnodup
      have hbne := ne_null_of_read hb
      have hfaddr : f.item &&& 3 = 0 := by
        refine (haddrs.addr f.item ?_).2
        rw [htree, Frames.mem_items_plug]
        exact .inl (List.mem_cons_self ..)
      -- the child of `b` takes its place, and `b` gets the right subtree of the node
      let m₁ := m.write f.item
        (sided f.side (parentOr a k ||| colorBit f.color) (ptrOf z) (ptrOf f.sibling))
      have hset₁ : m.setChild .left f.item (ptrOf z) = some m₁ := hf ▸ setChild_near hfread
      have hb₁ : m₁.read b = some ⟨f.item ||| colorBit c, ptrOf z, NULL⟩ := by
        rw [read_write_of_ne (by grind)]
        exact hb
      let m₂ := m₁.write b ⟨f.item ||| colorBit c, p, NULL⟩
      have hset₂ : m₁.setChild .right b p = some m₂ := setChild_eq hb₁
      have hpath₁ : Path m₁ a (f :: k) (ptrOf z) p :=
        ⟨read_write_self (ne_null_of_read hfread), hfs.write (by grind), hpath.write (by grind)⟩
      have hpath₂ : Path m₂ a (f :: k) (ptrOf z) p := hpath₁.write (by simp [Frames.items]; grind)
      obtain ⟨m₃, hset₃, hroot, hpath₃, hsame⟩ :=
        hpath₂.adopt (List.cons_ne_nil _ _) (by simp [Frames.items]; grind) ha b
      have hbk : b ∉ Frames.items (f :: k) := by simp [Frames.items]; grind
      refine ⟨m₃, f :: k, c, b, z, p, ?_, htree, ?_, hpath₃, ⟨f.item, hfaddr, ?_⟩, ?_, hroot,
        fun q hq => ?_⟩
      · have hlne := ptrOf_ne_null h.2.1 hl
        have hchild : m.child .right b = some (ptrOf z) := child_eq hb
        simp only [rbEraseTake, ptrOf_node, hleft, if_neg hlne, hloop, hparent, hchild, hset₁, hset₂,
          hset₃, parentOr_cons, Option.bind_eq_bind, Option.bind_some]
      · rw [htree, Frames.items_plug, Frames.items_plug, Frames.before_eq_nil hleft']
        rfl
      · rw [hsame b hbk, read_write_self hbne]
      · exact ((hz.write (by grind)).write (by grind)).congr
          fun q hq => hsame q (by simp [Frames.items]; grind)
      · obtain ⟨hqk, hqb, -⟩ := hitems q hq
        rw [hsame q hqk, read_write_of_ne hqb, read_write_of_ne fun heq => hqk (by
          rw [heq]
          exact List.mem_cons_self ..)]

/-! ### What is missing -/

/-- The node to rebalance at when a node of the colour `c` with the only child `z`, if any, is missing. -/
def rebalanceAt (c : Color) (k : Frames Ptr) : ColorTree Ptr → Ptr
  | .leaf => if c = .black then parentPtr k else NULL
  | .node _ _ _ _ => NULL

theorem rebalanceAt_of_ne_leaf (hz : z ≠ .leaf) : rebalanceAt c k z = NULL := by
  cases z with
  | leaf => exact absurd rfl hz
  | node => rfl

/-- A node of the colour `c` is missing in the position `k`: its only child `z` is there, and black. -/
structure Missing (m : RbMem) (k : Frames Ptr) (c : Color) (z : ColorTree Ptr) : Prop where
  tree : At m k (z.recolor .black)
  balanced : ∃ d b n, Balanced (join d c .leaf b z) c n ∧ Frames.Fits k c n

/-- A node with an only child is black, and the child is red. -/
theorem only_child (h : Balanced (join d c .leaf b z) c n) (hz : z ≠ .leaf) :
    c = .black ∧ n = 1 ∧ Balanced z .red 0 := by
  cases c with
  | red =>
    obtain ⟨-, hleaf, hnode⟩ := balanced_join_red.mp h
    cases hleaf
    cases hnode
    exact absurd rfl hz
  | black =>
    obtain ⟨-, _, rfl, ⟨_, hleaf⟩, c₁, hnode⟩ := balanced_join_black.mp h
    cases hleaf
    cases hnode with
    | leaf => exact absurd rfl hz
    | red hl hr => exact ⟨rfl, rfl, .red hl hr⟩

/-- The rest of `rb_erase`. -/
theorem Missing.finish (h : Missing m k c z) (hfuel : k.length ≤ fuel) :
    ∃ m', (if rebalanceAt c k z ≠ NULL then rbEraseLoop fuel m NULL (rebalanceAt c k z) else some m) =
        some m' ∧ RbTree m' (Frames.plug k z).items := by
  obtain ⟨d, b, n, hb, hk⟩ := h.balanced
  have htree := h.tree
  cases z with
  | leaf =>
    cases c with
    | red =>
      obtain ⟨-, hleaf, -⟩ := balanced_join_red.mp hb
      exact ⟨m, by simp [rebalanceAt], RbTree.of_at htree hleaf hk.black⟩
    | black =>
      obtain ⟨-, _, rfl, ⟨c', hleaf⟩, -⟩ := balanced_join_black.mp hb
      cases hleaf
      cases k with
      | nil => exact ⟨m, by simp [rebalanceAt, parentPtr], RbTree.of_at htree .leaf rfl⟩
      | cons f k =>
        obtain ⟨m', hloop, hdone⟩ := EraseAt.loop ⟨htree, .leaf, hk⟩ (List.cons_ne_nil _ _) hfuel
        have hne : f.item ≠ NULL := ne_null_of_read htree.held.1
        refine ⟨m', ?_, hdone⟩
        rw [rebalanceAt, if_pos rfl, parentPtr, if_pos hne]
        exact hloop
  | node c' l a r =>
    refine ⟨m, by simp [rebalanceAt], ?_⟩
    rw [Frames.items_plug_congr items_recolor.symm]
    obtain ⟨rfl, rfl, hz⟩ := only_child hb (by rintro ⟨⟩)
    exact RbTree.of_at htree hz.recolor_red hk

/-- Case 1 without a left child. -/
theorem rbEraseNoLeft_spec (h : At m k (node c .leaf a z)) (hb : Balanced (node c .leaf a z) c n)
    (hk : Frames.Fits k c n) :
    ∃ m', m.rbEraseNoLeft a (ptrOf z) = some (m', rebalanceAt c k z) ∧ Missing m' k c z := by
  have hbal : ∃ d b n, Balanced (join d c .leaf b z) c n ∧ Frames.Fits k c n := ⟨.left, a, n, hb, hk⟩
  obtain ⟨ha, -, hz⟩ := h.stored
  have hpar := h.addrs.aligned_parentPtr
  have haddrs : Addresses (Frames.items k ++ z.items) := h.addrs.tail
  have hnodup := h.addrs.nodup
  simp only [items, List.nil_append, List.nodup_append, List.nodup_cons, List.mem_cons] at hnodup
  have hpc : m.parentColor a = some (parentPtr k ||| colorBit c) := parentColor_eq ha
  have hold : Held m k a := h.held
  obtain ⟨m₁, hchange, hheld, hsame⟩ :=
    changeChild_held hold (ptrOf z) hnodup.1 (ne_null_of_read ha) (by grind)
  have hz₁ : Stored m₁ a z := hz.congr fun q hq => hsame q (by grind)
  by_cases hleaf : z = .leaf
  · subst hleaf
    refine ⟨m₁, ?_, ⟨hheld, trivial, haddrs⟩, hbal⟩
    simp only [rbEraseNoLeft, hpc, parentOf_word hpar, hchange, Option.bind_eq_bind, Option.bind_some,
      isBlackWord_word hpar, rebalanceAt, decide_eq_true_eq]
    exact if_neg fun h => h rfl
  · obtain ⟨rfl, -, -⟩ := only_child (d := .left) hb hleaf
    obtain ⟨m₂, hpaint, hroot, hz₂, hsame₂⟩ := paint_stored hz₁ hleaf (by grind) (parentPtr k) .black
    have hset : m₁.setParentColorWord (ptrOf z) (parentPtr k ||| colorBit .black) = some m₂ := hpaint
    refine ⟨m₂, ?_, ⟨?_, hz₂, by rwa [items_recolor]⟩, hbal⟩
    · have hne := ptrOf_ne_null hz hleaf
      have hnull : rebalanceAt .black k z = NULL := rebalanceAt_of_ne_leaf hleaf
      simp only [rbEraseNoLeft, hpc, parentOf_word hpar, hchange, Option.bind_eq_bind,
        Option.bind_some, if_pos hne, hset, hnull, Option.map_some]
    · rw [ptrOf_recolor]
      exact hheld.congr hroot fun q hq => hsame₂ q (by grind)

/-- Case 1 with a left child only. -/
theorem rbEraseNoRight_spec (h : At m k (node c z a .leaf)) (hz : z ≠ .leaf)
    (hb : Balanced (node c z a .leaf) c n) (hk : Frames.Fits k c n) :
    ∃ m', m.rbEraseNoRight a (ptrOf z) = some (m', rebalanceAt c k z) ∧ Missing m' k c z := by
  have hbal : ∃ d b n, Balanced (join d c .leaf b z) c n ∧ Frames.Fits k c n :=
    ⟨.right, a, n, hb, hk⟩
  obtain ⟨rfl, -, -⟩ := only_child (d := .right) hb hz
  obtain ⟨ha, hz', -⟩ := h.stored
  have hpar := h.addrs.aligned_parentPtr
  have hperm : (Frames.items k ++ (node .black z a .leaf).items).Perm
      (Frames.items k ++ (a :: z.items)) := by
    refine List.Perm.append_left _ ?_
    simp [items]
  have haddrs : Addresses (Frames.items k ++ z.items) := (h.addrs.perm hperm).tail
  have hnodup := (h.addrs.perm hperm).nodup
  simp only [List.nodup_append, List.nodup_cons, List.mem_cons] at hnodup
  have hpc : m.parentColor a = some (parentPtr k ||| colorBit .black) := parentColor_eq ha
  obtain ⟨m₁, hpaint, hroot, hz₁, hsame₁⟩ := paint_stored hz' hz (by grind) (parentPtr k) .black
  have hset : m.setParentColorWord (ptrOf z) (parentPtr k ||| colorBit .black) = some m₁ := hpaint
  have hheld₁ : Held m₁ k a := h.held.congr hroot fun q hq => hsame₁ q (by grind)
  obtain ⟨m₂, hchange, hheld, hsame₂⟩ :=
    changeChild_held hheld₁ (ptrOf z) hnodup.1 (ne_null_of_read ha) (by grind)
  refine ⟨m₂, ?_, ⟨by rwa [ptrOf_recolor], ?_, by rwa [items_recolor]⟩, hbal⟩
  · have hnull : rebalanceAt .black k z = NULL := rebalanceAt_of_ne_leaf hz
    simp [rbEraseNoRight, hpc, parentOf_word hpar, hchange, hset, hnull]
  · exact hz₁.congr fun q hq => hsame₂ q (by rw [items_recolor] at hq; grind)

namespace Taken

variable {m₁ : RbMem} {k₁ : Frames Ptr}

/-- The addresses, those of the right subtree last. -/
theorem perm (ht : Taken m m₁ r k₁ c' b z top) :
    (Frames.items k ++ (node c l a r).items).Perm
      (Frames.items k ++ (l.items ++ a :: b :: (Frames.items k₁ ++ z.items))) := by
  rw [ColorTree.items, ht.items]
  exact (((Frames.perm_items_plug.cons b).cons a).append_left _).append_left _

/-- The successor is in the place of the node, and has its colour. -/
theorem missing (ht : Taken m m₁ r k₁ c' b z top) (h : At m k (node c l a r))
    (hbal : Balanced (node c l a r) c n) (hk : Frames.Fits k c n) (hheld : Held m' k b)
    (hb : m'.read b = some ⟨parentPtr k ||| colorBit c, top, ptrOf l⟩) (hl : Stored m' b l)
    (hpath : Path m' b k₁ (ptrOf z) top) (hz : Stored m' (parentOr b k₁) (z.recolor .black)) :
    Missing m' (k₁ ++ ⟨.right, c, b, l⟩ :: k) c' z := by
  have hpath' : Path m' b k₁ (ptrOf (z.recolor .black)) top := by rwa [ptrOf_recolor]
  have hsub : Stored m' b (Frames.plug k₁ (z.recolor .black)) :=
    stored_plug.mpr ⟨hpath'.top_eq ▸ hpath', hz⟩
  have haddrs : Addresses (Frames.items k ++
      (node c l b (Frames.plug k₁ (z.recolor .black))).items) := by
    have hold := h.addrs.perm ht.perm
    rw [← List.append_assoc] at hold
    refine hold.tail.perm ?_
    rw [ColorTree.items, Frames.items_plug_congr items_recolor, List.append_assoc]
    exact ((Frames.perm_items_plug.symm.cons b).append_left _).append_left _
  have hat : At m' k (node c l b (Frames.plug k₁ (z.recolor .black))) :=
    ⟨hheld, ⟨by rw [hb, hpath'.top_eq], hl, hsub⟩, haddrs⟩
  refine ⟨At.down_plug (At.down (f := ⟨.right, c, b, l⟩) hat), .left, b, ?_⟩
  -- the position of the successor, as it was
  obtain ⟨_, hwhole⟩ := hk.plug hbal
  have hplug : Frames.plug k (node c l a r) =
      Frames.plug (k₁ ++ ⟨.right, c, a, l⟩ :: k) (node c' .leaf b z) := by
    rw [Frames.plug_append, ← ht.tree]
    rfl
  rw [hplug] at hwhole
  obtain ⟨c'', n', hsucc, hfits⟩ := Frames.fits_of_plug hwhole
  obtain rfl : c' = c'' := by cases hsucc <;> rfl
  exact ⟨n', hsucc, hfits.item⟩

end Taken

/-- Cases 2 and 3. -/
theorem rbEraseBoth_spec (h : At m k (node c l a r)) (hl : l ≠ .leaf) (hr : r ≠ .leaf)
    (hbal : Balanced (node c l a r) c n) (hk : Frames.Fits k c n)
    (hfuel : (Frames.plug k (node c l a r)).height ≤ fuel) :
    ∃ m' k' c' z, m.rbEraseBoth fuel a (ptrOf r) = some (m', rebalanceAt c' k' z) ∧
      Missing m' k' c' z ∧ k'.length ≤ fuel ∧
      (Frames.plug k' z).items = Frames.before k ++ (l.items ++ r.items) ++ Frames.after k := by
  have hheight := Frames.length_add_height_le (k := k) (t := node c l a r)
  have hr' : r.height ≤ fuel := by simp only [height] at hheight; omega
  obtain ⟨ha, hl₀, hr₀⟩ := h.stored
  have haddr : a &&& 3 = 0 := (h.addrs.addr a (by simp [items])).2
  have hrest : Addresses (Frames.items k ++ l.items ++ r.items) := by
    refine Addresses.tail (a := a) ?_
    simpa [items] using h.addrs
  have hpar := h.addrs.aligned_parentPtr
  obtain ⟨m₁, k₁, c', b, z, top, htake, ht⟩ := rbEraseTake_spec hr₀ hr haddr hrest.right hr'
  obtain ⟨q, hq, hb₁⟩ := ht.successor
  have hbne := ne_null_of_read hb₁
  have hmem : ∀ q, q ∈ r.items ↔ q = b ∨ q ∈ Frames.items k₁ ∨ q ∈ z.items := by
    intro q
    rw [ht.items, List.mem_cons, Frames.mem_items_plug]
  have hnodup := (h.addrs.perm ht.perm).nodup
  simp only [List.nodup_append, List.nodup_cons, List.mem_append, List.mem_cons, not_or] at hnodup
  have hl₁ : Stored m₁ a l := hl₀.congr fun q hq => ht.same q (by grind)
  have ha₁ : m₁.read a = _ := (ht.same a (by grind)).trans ha
  have hk₁ : Held m₁ k a := h.held.congr ht.root fun q hq => ht.same q (by grind)
  -- the left subtree goes to `b`
  let m₂ := m₁.write b ⟨q ||| colorBit c', top, ptrOf l⟩
  have hset₂ : m₁.setChild .left b (ptrOf l) = some m₂ := setChild_eq hb₁
  have hl₂ : Stored m₂ a l := hl₁.write (by grind)
  obtain ⟨m₃, hadopt, hroot₃, hl₃, hsame₃⟩ := adopt_stored hl₂ (by grind) haddr b
  have hset₃ : m₂.rbSetParent (ptrOf l) b = some m₃ := by
    rwa [adopt, if_neg (ptrOf_ne_null hl₀ hl)] at hadopt
  have hk₂ : Held m₂ k a := hk₁.write (by grind)
  have hk₃ : Held m₃ k a := hk₂.congr hroot₃ fun q hq => hsame₃ q (by grind)
  have ha₃ : m₃.parentColor a = some (parentPtr k ||| colorBit c) := by
    refine parentColor_eq (n := ⟨parentPtr k ||| colorBit c, ptrOf r, ptrOf l⟩) ?_
    rw [hsame₃ a (by grind), read_write_of_ne (by grind), ha₁]
  -- and so does the pointer to the node
  obtain ⟨m₄, hchange, hk₄, hsame₄⟩ :=
    changeChild_held hk₃ b (by grind) (ne_null_of_read ha) (by grind)
  have hsame : ∀ q, q ≠ b → q ∉ l.items → q ∉ Frames.items k → m₄.read q = m₁.read q :=
    fun q hqb hql hqk => by rw [hsame₄ q hqk, hsame₃ q hql, read_write_of_ne hqb]
  have hb₄ : m₄.read b = some ⟨q ||| colorBit c', top, ptrOf l⟩ := by
    rw [hsame₄ b (by grind), hsame₃ b (by grind), read_write_self hbne]
  let m₅ := m₄.write b ⟨parentPtr k ||| colorBit c, top, ptrOf l⟩
  have hset₅ : m₄.setParentColorWord b (parentPtr k ||| colorBit c) = some m₅ :=
    setParentColorWord_eq hb₄
  have hb₅ : m₅.read b = some ⟨parentPtr k ||| colorBit c, top, ptrOf l⟩ := read_write_self hbne
  have hk₅ : Held m₅ k b := hk₄.write (by grind)
  have hl₅ : Stored m₅ b l := (hl₃.congr fun q hq => hsame₄ q (by grind)).write (by grind)
  have hpath₅ : Path m₅ b k₁ (ptrOf z) top :=
    (ht.path.congr fun q hq => hsame q (by grind) (by grind) (by grind)).write (by grind)
  have hz₅ : Stored m₅ b z :=
    (ht.child.congr fun q hq => hsame q (by grind) (by grind) (by grind)).write (by grind)
  have hplug : Frames.plug k (node c l a r) =
      Frames.plug (k₁ ++ ⟨.right, c, a, l⟩ :: k) (node c' .leaf b z) := by
    rw [Frames.plug_append, ← ht.tree]
    rfl
  have hlen : (k₁ ++ ⟨.right, c, b, l⟩ :: k).length ≤ fuel := by
    have hle := Frames.length_add_height_le (k := k₁ ++ ⟨.right, c, a, l⟩ :: k)
      (t := node c' .leaf b z)
    rw [← hplug] at hle
    simp only [List.length_append, List.length_cons] at hle ⊢
    omega
  have hitems : (Frames.plug (k₁ ++ ⟨.right, c, b, l⟩ :: k) z).items =
      Frames.before k ++ (l.items ++ r.items) ++ Frames.after k := by
    rw [Frames.plug_append, Frames.plug, Frames.items_plug, ht.items]
    simp [Frame.fill, join, items]
  have hbody : m.rbEraseBoth fuel a (ptrOf r) = if ptrOf z ≠ NULL then
      (m₅.rbSetParentColor (ptrOf z) (parentOr b k₁) .black).map (·, NULL)
      else some (m₅, if c' = .black then parentOr b k₁ else NULL) := by
    have ha₁' : m₁.child .left a = some (ptrOf l) := child_eq ha₁
    have hb₄' : m₄.parentColor b = some (q ||| colorBit c') := parentColor_eq hb₄
    simp only [rbEraseBoth, htake, ha₁', hset₂, hset₃, ha₃, parentOf_word hpar, hchange, hb₄', hset₅,
      isBlackWord_word hq, Option.bind_eq_bind, Option.bind_some, decide_eq_true_eq]
  by_cases hz : z = .leaf
  · subst hz
    refine ⟨m₅, _, c', .leaf, ?_, ht.missing h hbal hk hk₅ hb₅ hl₅ hpath₅ trivial, hlen, hitems⟩
    rw [hbody, if_neg (by simp [ptrOf])]
    cases k₁ <;> rfl
  · obtain ⟨m₆, hset₆, hroot₆, hz₆, hsame₆⟩ := paint_stored hz₅ hz (by grind) (parentOr b k₁) .black
    have hmissing : Missing m₆ (k₁ ++ ⟨.right, c, b, l⟩ :: k) c' z := by
      refine ht.missing h hbal hk (hk₅.congr hroot₆ fun q hq => hsame₆ q (by grind)) ?_
        (hl₅.congr fun q hq => hsame₆ q (by grind)) (hpath₅.congr fun q hq => hsame₆ q (by grind)) hz₆
      rw [hsame₆ b (by grind), hb₅]
    refine ⟨m₆, _, c', z, ?_, hmissing, hlen, hitems⟩
    rw [hbody, if_pos (ptrOf_ne_null hz₅ hz), hset₆, rebalanceAt_of_ne_leaf hz, Option.map_some]

/-- `__rb_erase_augmented`, for a node of a red-black tree. -/
theorem rbEraseAugmented_spec (h : At m k (node c l a r)) (hbal : Balanced (node c l a r) c n)
    (hk : Frames.Fits k c n) (hfuel : (Frames.plug k (node c l a r)).height ≤ fuel) :
    ∃ m' k' c' z, m.rbEraseAugmented fuel a = some (m', rebalanceAt c' k' z) ∧
      Missing m' k' c' z ∧ k'.length ≤ fuel ∧
      (Frames.plug k' z).items = Frames.before k ++ (l.items ++ r.items) ++ Frames.after k := by
  have hlen : k.length ≤ fuel := by
    have hle := Frames.length_add_height_le (k := k) (t := node c l a r)
    omega
  have hleft : m.child .left a = some (ptrOf l) := child_eq h.stored.1
  have hright : m.child .right a = some (ptrOf r) := child_eq h.stored.1
  by_cases hl : l = .leaf
  · subst hl
    obtain ⟨m', herase, hmissing⟩ := rbEraseNoLeft_spec h hbal hk
    refine ⟨m', k, c, r, ?_, hmissing, hlen, by simp [Frames.items_plug, items]⟩
    simp [rbEraseAugmented, hleft, hright, herase]
  · have hlne := ptrOf_ne_null h.stored.2.1 hl
    by_cases hr : r = .leaf
    · subst hr
      obtain ⟨m', herase, hmissing⟩ := rbEraseNoRight_spec h hl hbal hk
      refine ⟨m', k, c, l, ?_, hmissing, hlen, by simp [Frames.items_plug, items]⟩
      simp [rbEraseAugmented, hleft, hright, herase, hlne]
    · have hrne := ptrOf_ne_null h.stored.2.2 hr
      obtain ⟨m', k', c', z, herase, hrest⟩ := rbEraseBoth_spec h hl hr hbal hk hfuel
      refine ⟨m', k', c', z, ?_, hrest⟩
      simp [rbEraseAugmented, hleft, hright, herase, hlne, hrne]

/-- `rb_erase`: the other nodes are kept, in order. -/
theorem rbErase_tree (h : RbTree m ls) (ha : a ∈ ls) (hfuel : 2 * Nat.log 2 (ls.length + 1) ≤ fuel) :
    ∃ m', m.rbErase fuel a = some m' ∧ RbTree m' (ls.erase a) := by
  obtain ⟨t, n, hat, hbal, rfl⟩ := h
  have hheight := hbal.height_le_log
  obtain ⟨k, c, l, r, rfl⟩ := Frames.exists_plug ha
  obtain ⟨c', n', hnode, hfits⟩ := Frames.fits_of_plug hbal
  obtain rfl : c = c' := by cases hnode <;> rfl
  obtain ⟨m', k', c', z, herase, hmissing, hlen, hitems⟩ :=
    rbEraseAugmented_spec hat.of_plug hnode hfits (Nat.le_trans hheight hfuel)
  obtain ⟨m'', hrest, htree⟩ := hmissing.finish hlen
  refine ⟨m'', ?_, ?_⟩
  · simp only [rbErase, herase, Option.bind_eq_bind, Option.bind_some]
    exact hrest
  · rw [hitems] at htree
    have hnodup : (Frames.plug k (node c l a r)).items.Nodup := by
      simpa [Frames.items] using hat.addrs.nodup
    rw [Frames.items_plug, items, List.append_assoc, ← List.append_assoc,
      List.nodup_append] at hnodup
    rw [Frames.items_plug, items, List.append_assoc, ← List.append_assoc, List.erase_append_right]
    · simpa using htree
    · exact fun hmem => hnodup.2.2 a hmem a (List.mem_cons_self ..) rfl

end Apus
