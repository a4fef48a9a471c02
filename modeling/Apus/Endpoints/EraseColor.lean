import Apus.Endpoints.Insert

namespace Apus

open Lib ColorTree RbNode
open RbMem hiding node

/-!
# Erasure keeps the tree red and black

The loop of `____rb_erase_color` works at a black subtree, or none, in a position for one with another
black node on its paths (`EraseAt`).  A round ends with a red-black tree, or goes on one level higher with
the same items (`EraseAt.round`), so that the loop is done after as many rounds as the position has frames
(`EraseAt.loop`).
-/

variable {m m' : RbMem} {k : Frames Ptr} {t s u x y z l r : ColorTree Ptr} {a b e p q w par : Ptr}
  {pc : UInt64} {c c' : Color} {d : Side} {n len : Nat} {ls : List Ptr}

/-! ### The cases -/

/-- Case 4 does not need the pointer from `p` to its child `b`, nor the parent and the colour of `s`. -/
theorem eraseOuter_at (hk : Held m k p)
    (hp : m.read p = some (sided d (parentPtr k ||| colorBit c) (ptrOf t) w))
    (hb : m.read b = some (sided d pc (ptrOf y) (ptrOf s)))
    (ht : Stored m p t) (hy : Stored m b y) (hs : Stored m par s) (hne : s ≠ .leaf)
    (haddrs : Addresses (Frames.items k ++ (join d c (join d .black t p y) b s).items)) :
    ∃ m', m.rbEraseOuter d p b (ptrOf s) = some m' ∧
      At m' k (join d c (join d .black t p y) b (s.recolor .black)) := by
  have hpne := ne_null_of_read hp
  have hbne := ne_null_of_read hb
  have hbaddr : b &&& 3 = 0 := (haddrs.addr b (by simp [mem_items_join])).2
  have hnodup := (haddrs.perm (perm_items_join.append_left _)).nodup
  simp only [List.nodup_append, List.nodup_cons, List.mem_append, List.mem_cons,
    perm_items_join.nodup_iff, mem_items_join, not_or] at hnodup
  have hsne := ptrOf_ne_null hs hne
  -- the pointers to children first, then the parents of `s` and `y`
  let m₁ := m.write p (sided d (parentPtr k ||| colorBit c) (ptrOf t) (ptrOf y))
  let m₂ := m₁.write b (sided d pc p (ptrOf s))
  have hb₁ : m₁.read b = m.read b := read_write_of_ne (by grind)
  have hset₁ : m.setChild d.flip p (ptrOf y) = some m₁ := setChild_far hp
  have hset₂ : m₁.setChild d b p = some m₂ := setChild_near (hb₁.trans hb)
  have hs₂ : Stored m₂ par s := (hs.write (by grind)).write (by grind)
  obtain ⟨m₃, hadopt₃, hroot₃, hs₃, hsame₃⟩ := adoptColor_stored hs₂ (by grind) b
  have hset₃ : m₂.rbSetParentColor (ptrOf s) b .black = some m₃ := by
    rwa [adoptColor, if_neg hsne] at hadopt₃
  have hy₃ : Stored m₃ b y :=
    ((hy.write (by grind)).write (by grind)).congr fun q hq => hsame₃ q (by grind)
  obtain ⟨m₄, hadopt₄, hroot₄, hy₄, hsame₄⟩ := adopt_stored hy₃ (by grind) hbaddr p
  have hsame' : ∀ q, q ≠ p → q ≠ b → q ∉ s.items → q ∉ y.items → m₄.read q = m.read q :=
    fun q hqp hqb hqs hqy => by
      rw [hsame₄ q hqy, hsame₃ q hqs, read_write_of_ne hqb, read_write_of_ne hqp]
  have hp₄ : m₄.read p = some (sided d.flip (parentPtr k ||| colorBit c) (ptrOf y) (ptrOf t)) := by
    rw [hsame₄ p (by grind), hsame₃ p (by grind), read_write_of_ne (by grind),
      read_write_self hpne, sided_flip]
  have hb₄ : m₄.read b = some (sided d.flip pc (ptrOf (s.recolor .black)) p) := by
    rw [hsame₄ b (by grind), hsame₃ b (by grind), read_write_self hbne, sided_flip, ptrOf_recolor]
  have hk₄ : Held m₄ k p :=
    hk.congr (hroot₄.trans hroot₃) fun q hq => hsame' q (by grind) (by grind) (by grind) (by grind)
  have ht₄ : Stored m₄ p t :=
    ht.congr fun q hq => hsame' q (by grind) (by grind) (by grind) (by grind)
  have hs₄ : Stored m₄ b (s.recolor .black) :=
    hs₃.congr fun q hq => hsame₄ q (by rw [items_recolor] at hq; grind)
  have haddrs₄ : Addresses (Frames.items k ++ (join d.flip c (s.recolor .black) b
      (join d.flip .black y p t)).items) := by
    rw [join_flip, join_flip, items_join_congr rfl items_recolor]
    exact haddrs
  obtain ⟨m₅, hrot, hat⟩ := rotate_at hk₄ hp₄ hb₄ hs₄ hy₄ ht₄ haddrs₄
  rw [join_flip, join_flip] at hat
  refine ⟨m₅, ?_, hat⟩
  simp only [rbEraseOuter, child_near hb, hset₁, hset₂, hset₃, hadopt₄, hrot, Option.bind_eq_bind,
    Option.bind_some]

/-- Case 3 and case 4 after it. -/
theorem eraseInner_at (h : At m k (join d c t p (join d .black (join d .red y e z) b s))) :
    ∃ m', m.rbEraseInner d p b e = some m' ∧
      At m' k (join d c (join d .black t p y) e (join d .black (z.recolor .black) b s)) := by
  have hheld := h.held
  rw [ptrOf_join] at hheld
  obtain ⟨hp, ht, hstored⟩ := stored_join.mp h.stored
  obtain ⟨hb, hstored, hs⟩ := stored_join.mp hstored
  obtain ⟨he, hy, hz⟩ := stored_join.mp hstored
  have hpne := ne_null_of_read hp
  have hbne := ne_null_of_read hb
  have hene := ne_null_of_read he
  have haddrs : Addresses (Frames.items k ++ (join d c (join d .black t p y) e
      (join d .black (z.recolor .black) b s)).items) := by
    have hold := h.addrs
    cases d <;> simpa [join, items] using hold
  have hnodup := (haddrs.perm (perm_items_join.append_left _)).nodup
  simp only [List.nodup_append, List.nodup_cons, List.mem_append, List.mem_cons,
    perm_items_join.nodup_iff, mem_items_join, items_recolor, not_or] at hnodup
  simp only [ptrOf_join] at hp hb
  -- the rotation at `b`, but for the parents
  let m₁ := m.write b (sided d (p ||| colorBit .black) (ptrOf z) (ptrOf s))
  let m₂ := m₁.write e (sided d (b ||| colorBit .red) (ptrOf y) b)
  let m₃ := m₂.write p (sided d (parentPtr k ||| colorBit c) (ptrOf t) e)
  have he₁ : m₁.read e = m.read e := read_write_of_ne (by grind)
  have hp₂ : m₂.read p = m.read p := by rw [read_write_of_ne (by grind), read_write_of_ne (by grind)]
  have hset₁ : m.setChild d b (ptrOf z) = some m₁ := setChild_near hb
  have hset₂ : m₁.setChild d.flip e b = some m₂ := setChild_far (he₁.trans he)
  have hset₃ : m₂.setChild d.flip p e = some m₃ := setChild_far (hp₂.trans hp)
  have hz₃ : Stored m₃ e z := ((hz.write (by grind)).write (by grind)).write (by grind)
  obtain ⟨m₄, hadopt, hroot, hz₄, hsame⟩ := adoptColor_stored hz₃ (by grind) b
  have hsame' : ∀ q, q ≠ p → q ≠ b → q ≠ e → q ∉ z.items → m₄.read q = m.read q :=
    fun q hqp hqb hqe hqz => by
      rw [hsame q hqz, read_write_of_ne hqp, read_write_of_ne hqe, read_write_of_ne hqb]
  have hp₄ : m₄.read p = some (sided d (parentPtr k ||| colorBit c) (ptrOf t) e) := by
    rw [hsame p (by grind), read_write_self hpne]
  have he₄ : m₄.read e = some (sided d (b ||| colorBit .red) (ptrOf y)
      (ptrOf (join d .black (z.recolor .black) b s))) := by
    rw [hsame e (by grind), read_write_of_ne (by grind), read_write_self hene, ptrOf_join]
  -- `b` has its children, and still the parent `p`
  have hb₄ : Stored m₄ p (join d .black (z.recolor .black) b s) := by
    refine stored_join.mpr ⟨?_, hz₄,
      hs.congr fun q hq => hsame' q (by grind) (by grind) (by grind) (by grind)⟩
    rw [hsame b (by grind), read_write_of_ne (by grind), read_write_of_ne (by grind),
      read_write_self hbne, ptrOf_recolor]
  have hk₄ : Held m₄ k p :=
    hheld.congr hroot fun q hq => hsame' q (by grind) (by grind) (by grind) (by grind)
  have ht₄ : Stored m₄ p t :=
    ht.congr fun q hq => hsame' q (by grind) (by grind) (by grind) (by grind)
  have hy₄ : Stored m₄ e y :=
    hy.congr fun q hq => hsame' q (by grind) (by grind) (by grind) (by grind)
  obtain ⟨m₅, houter, hat⟩ := eraseOuter_at hk₄ hp₄ he₄ ht₄ hy₄ hb₄ join_ne_leaf haddrs
  rw [ptrOf_join] at houter
  rw [recolor_join] at hat
  refine ⟨m₅, ?_, hat⟩
  simp only [rbEraseInner, child_far he, hset₁, hset₂, hset₃, hadopt, houter, Option.bind_eq_bind,
    Option.bind_some]

/-- Case 1: the rotation is that of an insertion. -/
theorem eraseRed_at (h : At m k (join d c t p (join d c' y b s))) (hy : y ≠ .leaf) :
    ∃ m', m.rbEraseRed d p b = some (m', ptrOf y) ∧
      At m' k (join d c (join d .red t p (y.recolor .black)) b s) := by
  have hheld := h.held
  rw [ptrOf_join] at hheld
  obtain ⟨hp, ht, hstored⟩ := stored_join.mp h.stored
  obtain ⟨hb, hy', hs⟩ := stored_join.mp hstored
  have hyne := ptrOf_ne_null hy' hy
  have haddrs : Addresses (Frames.items k ++
      (join d.flip c s b (join d.flip .red y p t)).items) := by
    have hold := h.addrs
    rw [join_flip, join_flip]
    cases d <;> simpa [join, items] using hold
  have hbfar := child_near hb
  rw [← sided_flip] at hp hb
  obtain ⟨m', houter, hat⟩ := insertOuter_at hheld hp hb hs hy' ht haddrs
  rw [join_flip, join_flip] at hat
  refine ⟨m', ?_, hat⟩
  -- the second subtree is there
  have hadopt : ∀ m₁ : RbMem, m₁.adoptColor (ptrOf y) p .black =
      m₁.rbSetParentColor (ptrOf y) p .black := fun m₁ => if_neg hyne
  simp only [rbInsertOuter, hadopt, Side.flip_flip, Option.bind_eq_bind] at houter
  obtain ⟨m₁, h₁, houter⟩ := Option.bind_eq_some_iff.mp houter
  obtain ⟨m₂, h₂, houter⟩ := Option.bind_eq_some_iff.mp houter
  obtain ⟨m₃, h₃, h₄⟩ := Option.bind_eq_some_iff.mp houter
  simp only [rbEraseRed, hbfar, h₁, h₂, h₃, h₄, Option.bind_eq_bind, Option.bind_some]

/-- Case 2: the black sibling becomes red. -/
theorem eraseFlip_at (h : At m (⟨d, c, p, s⟩ :: k) t) (hs : s ≠ .leaf) :
    ∃ m', m.rbSetParentColor (ptrOf s) p .red = some m' ∧
      At m' (⟨d, c, p, s.recolor .red⟩ :: k) t := by
  have hover : At m (⟨d.flip, c, p, t⟩ :: k) s := by
    refine At.down ?_
    have hup := h.up
    rwa [Frame.fill, ← join_flip] at hup
  obtain ⟨m', hset, hat⟩ := recolor_at hover hs .red
  refine ⟨m', hset, At.down ?_⟩
  have hup := hat.up
  rwa [Frame.fill, join_flip] at hup

/-! ### The loop -/

/-- The state of the loop: a black tree in a position for one with another black node on its paths. -/
structure EraseAt (m : RbMem) (k : Frames Ptr) (t : ColorTree Ptr) (n : Nat) : Prop where
  tree : At m k t
  black : Balanced t .black n
  fits : Frames.Fits k .black (n + 1)

/-- What a round ends with, for a tree with these items in a position of that many frames. -/
def EraseRound (ls : List Ptr) (len : Nat) : Round → Prop
  | .done m => RbTree m ls
  | .again m q parent => ∃ k t n, EraseAt m k t n ∧ q = ptrOf t ∧ k ≠ [] ∧ parent = parentPtr k ∧
      k.length < len ∧ (Frames.plug k t).items = ls

namespace EraseAt

/-- Case 2 of a round: the tree at `p` has one black node less on its paths, unless `p` was red. -/
theorem flip (h : EraseAt m (⟨d, c, p, s⟩ :: k) t n) (hs : Balanced (s.recolor .red) .red n)
    (hne : s ≠ .leaf) (hlen : c = .black → k.length < len) :
    ∃ out, m.rbEraseFlip p (ptrOf s) = some out ∧
      EraseRound (Frames.plug (⟨d, c, p, s⟩ :: k) t).items len out := by
  obtain ⟨m₁, hset, hat⟩ := eraseFlip_at h.tree hne
  have hup : At m₁ k (join d c t p (s.recolor .red)) := hat.up
  obtain ⟨hp, -, -⟩ := stored_join.mp hup.stored
  have hpne := ne_null_of_read hp
  have haligned := hup.addrs.aligned_parentPtr
  have hitems : (Frames.plug (⟨d, c, p, s⟩ :: k) t).items =
      (Frames.plug k (join d .black t p (s.recolor .red))).items :=
    Frames.items_plug_congr (items_join_congr rfl items_recolor.symm)
  have hblack : Balanced (join d .black t p (s.recolor .red)) .black (n + 1) :=
    balanced_join_black.mpr ⟨rfl, n, rfl, ⟨_, h.black⟩, _, hs⟩
  have hcolor : m₁.isRedNode p = some (decide (c = .red)) := by
    rw [isRedNode, if_neg hpne, rbIsBlack_of_read hp haligned]
    cases c <;> rfl
  rw [hitems]
  cases c with
  | red =>
    obtain ⟨m₂, hset₂, hat₂⟩ := setBlack_at hup join_ne_leaf
    rw [ptrOf_join] at hset₂
    rw [recolor_join] at hat₂
    refine ⟨.done m₂, by simp [rbEraseFlip, hset, hcolor, hset₂], ?_⟩
    exact RbTree.of_at hat₂ hblack h.fits.2.2.black
  | black =>
    have hparent : m₁.rbParent p = some (parentPtr k) := by
      rw [rbParent, parentColor_sided hp, Option.map_some, parentOf_word haligned]
    cases k with
    | nil =>
      refine ⟨.done m₁, by simp [rbEraseFlip, hset, hcolor, hparent, parentPtr], ?_⟩
      exact RbTree.of_at hup hblack h.fits.2
    | cons f k =>
      have hfne : f.item ≠ NULL := ne_null_of_read hup.held.1
      refine ⟨.again m₁ p f.item, by simp [rbEraseFlip, hset, hcolor, hparent, parentPtr, hfne], ?_⟩
      exact ⟨f :: k, _, n + 1, ⟨hup, hblack, h.fits.2⟩, ptrOf_join.symm, List.cons_ne_nil _ _, rfl,
        hlen rfl, rfl⟩

/-- A tree with the colour of `p` and two black subtrees is what the position takes. -/
theorem settled {t' s' : ColorTree Ptr} (h : At m k (join d c t' b s')) (ht : Balanced t' .black (n + 1))
    (hs : Balanced s' .black (n + 1)) (hfits : Frames.Fits (⟨d, c, p, s⟩ :: k) .black (n + 1)) :
    RbTree m (Frames.plug k (join d c t' b s')).items := by
  cases c with
  | red => exact RbTree.of_at h (balanced_join_red.mpr ⟨rfl, ht, hs⟩) hfits.2.2
  | black =>
    exact RbTree.of_at h (balanced_join_black.mpr ⟨rfl, n + 1, rfl, ⟨_, ht⟩, _, hs⟩) hfits.2

/-- A round with a black sibling. -/
theorem blackSibling (h : EraseAt m (⟨d, c, p, s⟩ :: k) t n) (hs : Balanced s .black (n + 1))
    (hlen : c = .black → k.length < len) :
    ∃ out, m.rbEraseBlack d p (ptrOf s) = some out ∧
      EraseRound (Frames.plug (⟨d, c, p, s⟩ :: k) t).items len out := by
  obtain ⟨y, b, z, rfl⟩ : ∃ y b z, s = join d .black y b z := by
    cases hs with
    | @black l r b =>
      obtain ⟨y, z, heq, -, -⟩ := exists_join (c := .black) (a := b) (P := fun _ => True) d
        (l := l) (r := r) trivial trivial
      exact ⟨y, b, z, heq⟩
  obtain ⟨-, _, ⟨⟩, ⟨c₁, hy⟩, c₂, hz⟩ := balanced_join_black.mp hs
  have hup : At m k (join d c t p (join d .black y b z)) := h.tree.up
  obtain ⟨hp, ht, hstored⟩ := stored_join.mp hup.stored
  obtain ⟨hb, hy', hz'⟩ := stored_join.mp hstored
  have hbaddr : b &&& 3 = 0 := (hup.addrs.addr b (by simp [mem_items_join])).2
  have hplug : Frames.plug (⟨d, c, p, join d .black y b z⟩ :: k) t =
      Frames.plug k (join d c t p (join d .black y b z)) := rfl
  have hnear := isBlackOrNull_ptrOf hy' hbaddr hy
  have hfar := isBlackOrNull_ptrOf hz' hbaddr hz
  rw [ptrOf_join, rbEraseBlack]
  simp only [child_far hb, child_near hb, hnear, hfar, Option.bind_eq_bind, Option.bind_some]
  cases c₂ with
  | black =>
    cases c₁ with
    | black =>
      have hred : Balanced ((join d .black y b z).recolor .red) .red n := by
        rw [recolor_join]
        exact balanced_join_red.mpr ⟨rfl, hy, hz⟩
      have hflip := h.flip hred join_ne_leaf hlen
      rw [ptrOf_join] at hflip
      exact hflip
    | red =>
      obtain ⟨y₁, e, y₂, rfl⟩ : ∃ y₁ e y₂, y = join d .red y₁ e y₂ := by
        cases hy with
        | @red l r e =>
          obtain ⟨y₁, y₂, heq, -, -⟩ := exists_join (c := .red) (a := e) (P := fun _ => True) d
            (l := l) (r := r) trivial trivial
          exact ⟨y₁, e, y₂, heq⟩
      obtain ⟨-, hy₁, hy₂⟩ := balanced_join_red.mp hy
      obtain ⟨m', hinner, hat⟩ := eraseInner_at hup
      rw [hy₂.recolor_eq] at hat
      refine ⟨.done m', by simp [ptrOf_join, hinner], ?_⟩
      have hitems : (join d c t p (join d .black (join d .red y₁ e y₂) b z)).items =
          (join d c (join d .black t p y₁) e (join d .black y₂ b z)).items := by
        cases d <;> simp [join, items]
      rw [hplug, Frames.items_plug_congr hitems]
      exact settled hat (balanced_join_black.mpr ⟨rfl, n, rfl, ⟨_, h.black⟩, _, hy₁⟩)
        (balanced_join_black.mpr ⟨rfl, n, rfl, ⟨_, hy₂⟩, _, hz⟩) h.fits
  | red =>
    have hheld := hup.held
    rw [ptrOf_join] at hheld hp
    have haddrs := hup.addrs
    have hitems : (join d c t p (join d .black y b z)).items =
        (join d c (join d .black t p y) b z).items := items_rotate.symm
    rw [hitems] at haddrs
    obtain ⟨m', houter, hat⟩ := eraseOuter_at hheld hp hb ht hy' hz' (by rintro rfl; cases hz) haddrs
    refine ⟨.done m', by simp [houter], ?_⟩
    rw [hplug, Frames.items_plug_congr (hitems.trans (items_join_congr rfl items_recolor.symm))]
    exact settled hat (balanced_join_black.mpr ⟨rfl, n, rfl, ⟨_, h.black⟩, _, hy⟩) hz.recolor_red h.fits

/-- The branch of a round for the side of the subtree. -/
theorem side (h : EraseAt m (⟨d, c, p, s⟩ :: k) t n) :
    ∃ out, m.rbEraseSide d p (ptrOf s) = some out ∧
      EraseRound (Frames.plug (⟨d, c, p, s⟩ :: k) t).items (k.length + 1) out := by
  have hup : At m k (join d c t p s) := h.tree.up
  obtain ⟨hp, ht, hstored⟩ := stored_join.mp hup.stored
  have hpaddr : p &&& 3 = 0 := (hup.addrs.addr p (by simp [mem_items_join])).2
  obtain ⟨c', hs⟩ : ∃ c', Balanced s c' (n + 1) := by
    have hfits := h.fits
    cases c with
    | red => exact ⟨_, hfits.2.1⟩
    | black => exact hfits.1
  have hcolor := isBlackOrNull_ptrOf hstored hpaddr hs
  rw [isBlackOrNull, if_neg (ptrOf_ne_null hstored hs.ne_leaf)] at hcolor
  rw [rbEraseSide]
  simp only [hcolor, Option.bind_eq_bind, Option.bind_some]
  cases c' with
  | black => exact h.blackSibling hs fun _ => Nat.lt_succ_self _
  | red =>
    -- `p` is black, and becomes the red parent of a black sibling
    have hc : c = .black := by
      cases c with
      | red =>
        have hblack := h.fits.2.1
        cases hs with
        | red => cases hblack
      | black => rfl
    subst hc
    obtain ⟨y, b, z, rfl⟩ : ∃ y b z, s = join d .red y b z := by
      cases hs with
      | @red l r b =>
        obtain ⟨y, z, heq, -, -⟩ := exists_join (c := .red) (a := b) (P := fun _ => True) d
          (l := l) (r := r) trivial trivial
        exact ⟨y, b, z, heq⟩
    obtain ⟨-, hy, hz⟩ := balanced_join_red.mp hs
    obtain ⟨m', hred, hat⟩ := eraseRed_at hup hy.ne_leaf
    rw [hy.recolor_eq] at hat
    have hnext : EraseAt m' (⟨d, .red, p, y⟩ :: ⟨d, .black, b, z⟩ :: k) t n :=
      ⟨At.down (At.down hat), h.black, ⟨rfl, hy, ⟨_, hz⟩, h.fits.2⟩⟩
    obtain ⟨out, hblack, hout⟩ : ∃ out, _ ∧ EraseRound _ (k.length + 1) out :=
      hnext.blackSibling hy fun hc => by cases hc
    refine ⟨out, by simp [ptrOf_join, hred, hblack], ?_⟩
    rw [show (Frames.plug (⟨d, .black, p, join d .red y b z⟩ :: k) t).items =
      (Frames.plug (⟨d, .red, p, y⟩ :: ⟨d, .black, b, z⟩ :: k) t).items from
      Frames.items_plug_congr items_rotate.symm]
    exact hout

/-- A round of the loop. -/
theorem round (h : EraseAt m k t n) (hk : k ≠ []) :
    ∃ out, m.rbEraseRound (ptrOf t) (parentPtr k) = some out ∧
      EraseRound (Frames.plug k t).items k.length out := by
  cases k with
  | nil => exact absurd rfl hk
  | cons f k =>
    obtain ⟨d, c, p, s⟩ := f
    obtain ⟨out, hside, hout⟩ := h.side
    refine ⟨out, ?_, hout⟩
    have hp := h.tree.held.1
    have hs : ptrOf s ≠ NULL := by
      have hstored := h.tree.held.2.1
      have hfits := h.fits
      cases c with
      | red => exact ptrOf_ne_null hstored hfits.2.1.ne_leaf
      | black => exact ptrOf_ne_null hstored (hfits.1.choose_spec).ne_leaf
    -- the subtree is on the side where it is found
    have hne : ptrOf t ≠ ptrOf s := h.tree.ne_sibling (.inr hs)
    cases d with
    | left =>
      have hright : m.child .right p = some (ptrOf s) := child_far hp
      simp [rbEraseRound, parentPtr, hright, hne, hside]
    | right =>
      have hright : m.child .right p = some (ptrOf t) := child_near hp
      have hleft : m.child .left p = some (ptrOf s) := child_far hp
      simp [rbEraseRound, parentPtr, hright, hleft, hside]

/-- The loop, with a round for every frame at least. -/
theorem loop {fuel : Nat} (h : EraseAt m k t n) (hk : k ≠ []) (hfuel : k.length ≤ fuel) :
    ∃ m', rbEraseLoop fuel m (ptrOf t) (parentPtr k) = some m' ∧
      RbTree m' (Frames.plug k t).items := by
  induction fuel generalizing m k t n with
  | zero => exact absurd (List.length_eq_zero_iff.mp (Nat.le_zero.mp hfuel)) hk
  | succ fuel ih =>
    obtain ⟨out, hround, hout⟩ := h.round hk
    cases out with
    | done m' => exact ⟨m', by simp [rbEraseLoop, hround], hout⟩
    | again m' q parent =>
      obtain ⟨k', t', n', hnext, rfl, hk', rfl, hlt, hitems⟩ := hout
      obtain ⟨m'', hloop, htree⟩ := ih hnext hk' (by omega)
      refine ⟨m'', by simp [rbEraseLoop, hround, hloop], hitems ▸ htree⟩

end EraseAt

end Apus
