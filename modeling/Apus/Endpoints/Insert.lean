import Apus.Endpoints.Stored

namespace Apus

open Lib ColorTree RbNode
open RbMem hiding node

/-!
# Insertion keeps the tree red and black

The loop of `__rb_insert` works at a red node whose position takes a black tree with as many black nodes
on its paths (`InsertAt`): only a red parent is in the way of a red-black tree (`RbTree`).  A round
ends with such a tree, or goes on two levels higher with the same items (`InsertAt.round`), so that the
loop is done after as many rounds as the position has frames (`InsertAt.loop`).
-/

/-- A red-black tree with these items, in order, is in memory. -/
def RbTree (m : RbMem) (ls : List Ptr) : Prop :=
  ∃ t n, At m [] t ∧ Balanced t .black n ∧ t.items = ls

variable {m m' : RbMem} {k : Frames Ptr} {t s u x y z l r : ColorTree Ptr} {a p q g w par : Ptr}
  {pc : UInt64} {c c' : Color} {d : Side} {n : Nat} {ls : List Ptr}

/-- A balanced tree in a position that it fits. -/
theorem RbTree.of_at (h : At m k t) (ht : Balanced t c n) (hk : Frames.Fits k c n) :
    RbTree m (Frames.plug k t).items :=
  have ⟨_, hb⟩ := hk.plug ht
  ⟨_, _, h.plug, hb, rfl⟩

/-! ### The cases -/

/-- Case 3 does not need the pointers from `g` to its child and from `p` to its second child. -/
theorem insertOuter_at (hk : Held m k g)
    (hg : m.read g = some (sided d (parentPtr k ||| colorBit c) q (ptrOf u)))
    (hp : m.read p = some (sided d pc (ptrOf x) w))
    (hx : Stored m p x) (ht : Stored m par t) (hu : Stored m g u)
    (haddrs : Addresses (Frames.items k ++ (join d c x p (join d .red t g u)).items)) :
    ∃ m', m.rbInsertOuter d p g (ptrOf t) = some m' ∧
      At m' k (join d c x p (join d .red (t.recolor .black) g u)) := by
  have hgne := ne_null_of_read hg
  have hpne := ne_null_of_read hp
  have hnodup := (haddrs.perm (perm_items_join.append_left _)).nodup
  simp only [List.nodup_append, List.nodup_cons, List.mem_append, List.mem_cons,
    perm_items_join.nodup_iff, mem_items_join, not_or] at hnodup
  -- the pointers to children first, then the parent of `t`
  let m₁ := m.write g (sided d (parentPtr k ||| colorBit c) (ptrOf t) (ptrOf u))
  let m₂ := m₁.write p (sided d pc (ptrOf x) g)
  have hp₁ : m₁.read p = m.read p := read_write_of_ne (by grind)
  have hg₁ : m.setChild d g (ptrOf t) = some m₁ := setChild_near hg
  have hp₂ : m₁.setChild d.flip p g = some m₂ := setChild_far (hp₁.trans hp)
  have ht₂ : Stored m₂ par t := (ht.write (by grind)).write (by grind)
  obtain ⟨m₃, hadopt, hroot, ht₃, hsame⟩ := adoptColor_stored ht₂ (by grind) g
  have hsame' : ∀ q, q ≠ p → q ≠ g → q ∉ t.items → m₃.read q = m.read q :=
    fun q hqp hqg hqt => by rw [hsame q hqt, read_write_of_ne hqp, read_write_of_ne hqg]
  have hg₃ : m₃.read g = some (sided d (parentPtr k ||| colorBit c) (ptrOf t) (ptrOf u)) := by
    rw [hsame g (by grind), read_write_of_ne (by grind), read_write_self hgne]
  have hp₃ : m₃.read p = some (sided d pc (ptrOf x) g) := by
    rw [hsame p (by grind), read_write_self hpne]
  have hk₃ : Held m₃ k g := hk.congr hroot fun q hq => hsame' q (by grind) (by grind) (by grind)
  have hx₃ : Stored m₃ p x := hx.congr fun q hq => hsame' q (by grind) (by grind) (by grind)
  have hu₃ : Stored m₃ g u := hu.congr fun q hq => hsame' q (by grind) (by grind) (by grind)
  rw [← ptrOf_recolor (c := .black)] at hg₃
  have haddrs₃ : Addresses (Frames.items k ++
      (join d c x p (join d .red (t.recolor .black) g u)).items) := by
    cases d <;> simpa [join, items] using haddrs
  obtain ⟨m₄, hrot, hat⟩ := rotate_at hk₃ hg₃ hp₃ hx₃ ht₃ hu₃ haddrs₃
  refine ⟨m₄, ?_, hat⟩
  simp only [rbInsertOuter, hg₁, hp₂, hadopt, hrot, Option.bind_eq_bind, Option.bind_some]

/-- Case 2 and case 3 after it. -/
theorem insertInner_at
    (h : At m k (join d c (join d .red x p (join d .red y a z)) g u)) :
    ∃ m', m.rbInsertInner d a p g = some m' ∧
      At m' k (join d c (join d .red x p (y.recolor .black)) a
        (join d .red (z.recolor .black) g u)) := by
  have hheld := h.held
  rw [ptrOf_join] at hheld
  obtain ⟨hg, hstored, hu⟩ := stored_join.mp h.stored
  obtain ⟨hp, hx, hstored⟩ := stored_join.mp hstored
  obtain ⟨ha, hy, hz⟩ := stored_join.mp hstored
  have hane := ne_null_of_read ha
  have hpne := ne_null_of_read hp
  have haddrs : Addresses (Frames.items k ++ (join d c (join d .red x p (y.recolor .black)) a
      (join d .red z g u)).items) := by
    have hold := h.addrs
    cases d <;> simpa [join, items] using hold
  have hnodup := (haddrs.perm (perm_items_join.append_left _)).nodup
  simp only [List.nodup_append, List.nodup_cons, List.mem_append, List.mem_cons,
    perm_items_join.nodup_iff, mem_items_join, items_recolor, not_or] at hnodup
  simp only [ptrOf_join] at hg hp
  -- the rotation at `p`, but for the pointer to `a`
  let m₁ := m.write p (sided d (g ||| colorBit .red) (ptrOf x) (ptrOf y))
  let m₂ := m₁.write a (sided d (p ||| colorBit .red) p (ptrOf z))
  have ha₁ : m₁.read a = m.read a := read_write_of_ne (by grind)
  have hp₁ : m.setChild d.flip p (ptrOf y) = some m₁ := setChild_far hp
  have ha₂ : m₁.setChild d a p = some m₂ := setChild_near (ha₁.trans ha)
  have hy₂ : Stored m₂ a y := (hy.write (by grind)).write (by grind)
  obtain ⟨m₃, hadopt, hroot, hy₃, hsame⟩ := adoptColor_stored hy₂ (by grind) p
  have hp₃ : m₃.read p = some (sided d (g ||| colorBit .red) (ptrOf x) (ptrOf y)) := by
    rw [hsame p (by grind), read_write_of_ne (by grind), read_write_self hpne]
  let m₄ := m₃.write p (sided d (a ||| colorBit .red) (ptrOf x) (ptrOf y))
  have hp₄ : m₃.rbSetParentColor p a .red = some m₄ := setParentColorWord_sided hp₃
  have hsame' : ∀ q, q ≠ p → q ≠ a → q ∉ y.items → m₄.read q = m.read q :=
    fun q hqp hqa hqy => by
      rw [read_write_of_ne hqp, hsame q hqy, read_write_of_ne hqa, read_write_of_ne hqp]
  have ha₄ : m₄.read a = some (sided d (p ||| colorBit .red) p (ptrOf z)) := by
    rw [read_write_of_ne (by grind), hsame a (by grind), read_write_self hane]
  -- the node goes on with its new child `p`
  have hx₄ : Stored m₄ a (join d .red x p (y.recolor .black)) := by
    refine stored_join.mpr ⟨?_, hx.congr fun q hq => hsame' q (by grind) (by grind) (by grind),
      hy₃.write (by rw [items_recolor]; grind)⟩
    rw [read_write_self hpne, ptrOf_recolor]
  have hz₄ : Stored m₄ a z := hz.congr fun q hq => hsame' q (by grind) (by grind) (by grind)
  have hu₄ : Stored m₄ g u := hu.congr fun q hq => hsame' q (by grind) (by grind) (by grind)
  have hk₄ : Held m₄ k g := hheld.congr hroot fun q hq => hsame' q (by grind) (by grind) (by grind)
  have hg₄ := (hsame' g (by grind) (by grind) (by grind)).trans hg
  rw [show (sided d (p ||| colorBit .red) p (ptrOf z)) = sided d (p ||| colorBit .red)
    (ptrOf (join d .red x p (y.recolor .black))) (ptrOf z) by rw [ptrOf_join]] at ha₄
  obtain ⟨m₅, houter, hat⟩ := insertOuter_at hk₄ hg₄ ha₄ hx₄ hz₄ hu₄ haddrs
  refine ⟨m₅, ?_, hat⟩
  simp only [rbInsertInner, child_near ha, hp₁, ha₂, hadopt, hp₄, child_far ha₄, houter,
    Option.bind_eq_bind, Option.bind_some]

/-- Case 1: the red child `p` of `g` and the red root of `u` become black, and `g` becomes red. -/
theorem insertFlip_at (h : At m k (join d c t g u)) (ht : t ≠ .leaf) (hu : u ≠ .leaf) :
    ∃ m', m.rbInsertFlip (ptrOf t) g (ptrOf u) = some (.again m' g (parentPtr k)) ∧
      At m' k (join d .red (t.recolor .black) g (u.recolor .black)) := by
  -- down to `u`, over to `t`, and up to `g`
  have hdown : At m (⟨d.flip, c, g, t⟩ :: k) u := by
    refine At.down ?_
    rwa [Frame.fill, join_flip]
  obtain ⟨m₁, hset₁, hat₁⟩ := recolor_at hdown hu .black
  have hover : At m₁ (⟨d, c, g, u.recolor .black⟩ :: k) t := by
    refine At.down ?_
    have hup := hat₁.up
    rwa [Frame.fill, join_flip] at hup
  obtain ⟨m₂, hset₂, hat₂⟩ := recolor_at hover ht .black
  have hat₂ : At m₂ k (join d c (t.recolor .black) g (u.recolor .black)) := hat₂.up
  obtain ⟨hg, -, -⟩ := stored_join.mp hat₂.stored
  have hpar : m₂.rbParent g = some (parentPtr k) := by
    rw [rbParent, parentColor_sided hg, Option.map_some,
      parentOf_word hat₂.addrs.aligned_parentPtr]
  obtain ⟨m₃, hset₃, hat₃⟩ := recolor_at hat₂ join_ne_leaf .red
  rw [ptrOf_join] at hset₃
  refine ⟨m₃, ?_, by rwa [recolor_join] at hat₃⟩
  have hset₁ : m.rbSetParentColor (ptrOf u) g .black = some m₁ := hset₁
  have hset₂ : m₁.rbSetParentColor (ptrOf t) g .black = some m₂ := hset₂
  simp only [rbInsertFlip, hset₁, hset₂, hpar, hset₃, Option.bind_eq_bind, Option.bind_some]

/-! ### The loop -/

/-- The state of the loop: a red node in a position for a black tree with as many black nodes on its
    paths. -/
structure InsertAt (m : RbMem) (k : Frames Ptr) (l : ColorTree Ptr) (a : Ptr) (r : ColorTree Ptr)
    (n : Nat) : Prop where
  tree : At m k (node .red l a r)
  left : Balanced l .black n
  right : Balanced r .black n
  fits : Frames.Fits k .black n

/-- What a round ends with, for a tree with these items in a position of that many frames. -/
def InsertRound (ls : List Ptr) (len : Nat) : Round → Prop
  | .done m => RbTree m ls
  | .again m q parent => ∃ k l r n, InsertAt m k l q r n ∧ parent = parentPtr k ∧
      k.length < len ∧ (Frames.plug k (node .red l q r)).items = ls

namespace InsertAt

/-- With the subtrees by their sides. -/
theorem of_join (h : At m k (join d .red t g u)) (ht : Balanced t .black n) (hu : Balanced u .black n)
    (hk : Frames.Fits k .black n) :
    ∃ l r, join d .red t g u = node .red l g r ∧ InsertAt m k l g r n := by
  cases d with
  | left => exact ⟨t, u, rfl, h, ht, hu, hk⟩
  | right => exact ⟨u, t, rfl, h, hu, ht, hk⟩

/-- Case 1 goes on with `g`. -/
theorem flip (h : At m k (join d .black t g u)) (ht : Balanced (t.recolor .black) .black (n + 1))
    (hu : Balanced u .red n) (hk : Frames.Fits k .black (n + 1)) :
    ∃ out, m.rbInsertFlip (ptrOf t) g (ptrOf u) = some out ∧
      InsertRound (Frames.plug k (join d .black t g u)).items (k.length + 2) out := by
  obtain ⟨m', hflip, hat⟩ := insertFlip_at h (by rintro rfl; cases ht) (by rintro rfl; cases hu)
  obtain ⟨l, r, heq, hins⟩ := of_join hat ht hu.recolor_red hk
  refine ⟨_, hflip, k, l, r, n + 1, hins, rfl, by omega, ?_⟩
  rw [← heq]
  exact Frames.items_plug_congr (items_join_congr (by simp) (by simp))

/-- Case 3 leaves the loop. -/
theorem outer (h : At m k (join d .black (join d .red t p s) g u)) (ht : Balanced t .red n)
    (hs : Balanced s .black n) (hu : Balanced u .black n) (hk : Frames.Fits k .black (n + 1)) :
    ∃ m', m.rbInsertOuter d p g (ptrOf s) = some m' ∧
      RbTree m' (Frames.plug k (join d .black (join d .red t p s) g u)).items := by
  obtain ⟨hg, hp, hgu⟩ := stored_join.mp h.stored
  obtain ⟨hp, hx, ht'⟩ := stored_join.mp hp
  have hheld := h.held
  have haddrs := h.addrs
  rw [ptrOf_join] at hheld
  have hitems : items (join d .black (join d .red t p s) g u) =
      items (join d .black t p (join d .red s g u)) := items_rotate
  rw [hitems] at haddrs
  obtain ⟨m', houter, hat⟩ := insertOuter_at hheld hg hp hx ht' hgu haddrs
  rw [hs.recolor_eq] at hat
  refine ⟨m', houter, ?_⟩
  rw [Frames.items_plug_congr hitems]
  refine RbTree.of_at hat (balanced_join_black.mpr ⟨rfl, n, rfl, ⟨_, ht⟩, .red, ?_⟩) hk
  exact balanced_join_red.mpr ⟨rfl, hs, hu⟩

/-- Case 2 leaves the loop, too. -/
theorem inner (h : At m k (join d .black (join d .red s p (join d .red y a z)) g u))
    (hy : Balanced y .black n) (hz : Balanced z .black n) (hs : Balanced s .black n)
    (hu : Balanced u .black n) (hk : Frames.Fits k .black (n + 1)) :
    ∃ m', m.rbInsertInner d a p g = some m' ∧
      RbTree m' (Frames.plug k (join d .black (join d .red s p (join d .red y a z)) g u)).items := by
  obtain ⟨m', hinner, hat⟩ := insertInner_at h
  rw [hy.recolor_eq, hz.recolor_eq] at hat
  refine ⟨m', hinner, ?_⟩
  have hitems : (join d .black (join d .red s p (join d .red y a z)) g u).items =
      (join d .black (join d .red s p y) a (join d .red z g u)).items := by
    cases d <;> simp [join, items]
  rw [Frames.items_plug_congr hitems]
  refine RbTree.of_at hat (balanced_join_black.mpr ⟨rfl, n, rfl, ⟨.red, ?_⟩, .red, ?_⟩) hk
  · exact balanced_join_red.mpr ⟨rfl, hs, hy⟩
  · exact balanced_join_red.mpr ⟨rfl, hz, hu⟩

/-- The branch of a round with a red parent. -/
theorem side {d₁ : Side} (h : InsertAt m (⟨d₁, .red, p, s⟩ :: ⟨d, .black, g, u⟩ :: k) l a r n) :
    ∃ out, m.rbInsertSide d a p g = some out ∧
      InsertRound (Frames.plug (⟨d₁, .red, p, s⟩ :: ⟨d, .black, g, u⟩ :: k)
        (node .red l a r)).items (k.length + 2) out := by
  obtain ⟨-, hs, d', g', u', k', hcons, ⟨c', hu⟩, hk⟩ := h.fits.black_behind
  obtain ⟨⟨rfl, rfl, rfl, rfl⟩, rfl⟩ := hcons
  have hat : At m k (join d .black (join d₁ .red (node .red l a r) p s) g u) := h.tree.up.up
  have hbal : Balanced (node .red l a r) .red n := .red h.left h.right
  have hplug : Frames.plug (⟨d₁, .red, p, s⟩ :: ⟨d, .black, g, u⟩ :: k) (node .red l a r) =
      Frames.plug k (join d .black (join d₁ .red (node .red l a r) p s) g u) := rfl
  obtain ⟨hg, hp, hgu⟩ := stored_join.mp hat.stored
  have hgaddr : g &&& 3 = 0 := (h.tree.addrs.addr g (by simp [Frames.items])).2
  rw [hplug, rbInsertSide, child_far hg]
  simp only [Option.bind_eq_bind, Option.bind_some, isRedNode_ptrOf hgu hgaddr hu]
  cases c' with
  | red =>
    have hblack : Balanced ((join d₁ .red (node .red l a r) p s).recolor .black) .black (n + 1) := by
      rw [recolor_join]
      exact balanced_join_black.mpr ⟨rfl, n, rfl, ⟨_, hbal⟩, _, hs⟩
    have hflip := flip hat hblack hu hk
    rw [ptrOf_join] at hflip
    exact hflip
  | black =>
    by_cases hd : d₁ = d
    · -- the node is on the same side of `p` as `p` of `g`
      subst hd
      obtain ⟨hp, -, hsp⟩ := stored_join.mp hp
      have hne : a ≠ ptrOf s := h.tree.ne_sibling (.inl (ne_null_of_read h.tree.stored.1))
      obtain ⟨m', houter, htree⟩ := outer hat hbal hs hu hk
      exact ⟨.done m', by simp [child_far hp, hne, houter], htree⟩
    · have hd₁ : d₁ = d.flip := by cases d <;> cases d₁ <;> first | rfl | exact absurd rfl hd
      subst hd₁
      rw [join_flip] at hat hp ⊢
      obtain ⟨y, z, hjoin, hy, hz⟩ :=
        exists_join (c := .red) (a := a) (P := (Balanced · .black n)) d h.left h.right
      rw [hjoin] at hat hp ⊢
      obtain ⟨hp, -⟩ := stored_join.mp hp
      rw [ptrOf_join] at hp
      obtain ⟨m', hinner, htree⟩ := inner hat hy hz hs hu hk
      exact ⟨.done m', by simp [child_far hp, hinner], htree⟩

/-- A round of the loop. -/
theorem round (h : InsertAt m k l a r n) :
    ∃ out, m.rbInsertRound a (parentPtr k) = some out ∧
      InsertRound (Frames.plug k (node .red l a r)).items k.length out := by
  have hbal : Balanced (node .red l a r) .red n := .red h.left h.right
  cases k with
  | nil =>
    -- a red root becomes black
    obtain ⟨m', hset, hat⟩ := recolor_at h.tree (by rintro ⟨⟩) .black
    have hset : m.rbSetParentColor a NULL .black = some m' := hset
    refine ⟨.done m', ?_, _, _, hat, hbal.recolor_red, items_recolor⟩
    simp [rbInsertRound, parentPtr, hset]
  | cons f k =>
    obtain ⟨d₁, c, p, s⟩ := f
    obtain ⟨hp, -, hheld⟩ := h.tree.held
    have haligned : parentPtr k &&& 3 = 0 := h.tree.up.addrs.aligned_parentPtr
    have hpne := ne_null_of_read hp
    have hblack : m.rbIsBlack p = some (decide (c = .black)) := rbIsBlack_of_read hp haligned
    cases c with
    | black =>
      have hfits := h.fits
      refine ⟨.done m, ?_, RbTree.of_at h.tree hbal ⟨hfits.1, hfits.2⟩⟩
      simp [rbInsertRound, parentPtr, hpne, hblack]
    | red =>
      obtain ⟨-, -, d, g, u, k', rfl, -, -⟩ := h.fits.black_behind
      obtain ⟨out, hside, hout⟩ := h.side
      refine ⟨out, ?_, hout⟩
      have hred : m.rbRedParent p = some g := by
        refine (parentColor_sided hp).trans ?_
        simp [parentPtr, colorBit]
      have hg := hheld.1
      -- `p` is on the side of `g` where it is found
      have hright : m.child .right g = some (if d = .left then ptrOf u else p) := by
        cases d
        · exact child_far hg
        · exact child_near hg
      have hpu : p ≠ ptrOf u := by
        have hne := h.tree.up.ne_sibling (.inl (by rwa [Frame.fill, ptrOf_join]))
        rwa [Frame.fill, ptrOf_join] at hne
      cases d <;>
        simp [rbInsertRound, parentPtr, hpne, hblack, hred, hright, hpu, hside]

end InsertAt

/-- The loop, with a round for every frame at least, and another one. -/
theorem InsertAt.loop {fuel : Nat} (h : InsertAt m k l a r n) (hfuel : k.length < fuel) :
    ∃ m', rbInsertLoop fuel m a (parentPtr k) = some m' ∧
      RbTree m' (Frames.plug k (node .red l a r)).items := by
  induction fuel generalizing m k l a r n with
  | zero => exact absurd hfuel (Nat.not_lt_zero _)
  | succ fuel ih =>
    obtain ⟨out, hround, hout⟩ := h.round
    cases out with
    | done m' => exact ⟨m', by simp [rbInsertLoop, hround], hout⟩
    | again m' q parent =>
      obtain ⟨k', l', r', n', hins, rfl, hlt, hitems⟩ := hout
      obtain ⟨m'', hloop, htree⟩ := ih hins (by omega)
      refine ⟨m'', by simp [rbInsertLoop, hround, hloop], hitems ▸ htree⟩

/-- A new leaf is linked in the position `k` and coloured. -/
theorem rbInsertColor_tree {fuel : Nat} (h : At m k (node .red .leaf a .leaf))
    (hk : Frames.Fits k .black 0) (hfuel : k.length < fuel) :
    ∃ m', m.rbInsertColor fuel a = some m' ∧
      RbTree m' (Frames.before k ++ a :: Frames.after k) := by
  obtain ⟨m', hloop, htree⟩ := InsertAt.loop ⟨h, .leaf, .leaf, hk⟩ hfuel
  refine ⟨m', ?_, by simpa [Frames.items_plug, items] using htree⟩
  have hparent : m.rbRedParent a = some (parentPtr k) := by
    refine (parentColor_eq h.stored.1).trans ?_
    simp [colorBit]
  simp [rbInsertColor, hparent, hloop]

end Apus
