import Mathlib.Data.Nat.Log
import Mathlib.Tactic.Ring

namespace Apus.Lib

/-!
# Coloured trees

Binary trees with red and black nodes, and the position of a subtree in a tree as a list of frames from
the subtree up to the root (`ColorTree.plug`).

* `Balanced t c n` — the root of `t` has the colour `c`, no red node has a red child, and every path
  down has `n` black nodes; `Balanced.height_le` — such a tree is not high;
* `Fits k c n` — a balanced tree of the colour `c` with `n` black nodes on its paths goes into the
  position `k` of a balanced tree; `Fits.plug` and `fits_of_plug` say so in both directions;
* `items_plug` — the items before and behind a position, in order; `items_rotate`;
* `postorder_plug` — the items behind a position when the children are visited first.
-/

inductive Color
  | red
  | black
deriving DecidableEq

inductive Side
  | left
  | right
deriving DecidableEq

/-- The other side. -/
def Side.flip : Side → Side
  | left => right
  | right => left

@[simp] theorem Side.flip_flip (d : Side) : d.flip.flip = d := by cases d <;> rfl

/-- A tree whose nodes have a colour and an item. -/
inductive ColorTree (α : Type)
  | leaf
  | node (c : Color) (l : ColorTree α) (a : α) (r : ColorTree α)

/-- A node on the way up: the side of it that the way comes from, and its other subtree. -/
structure Frame (α : Type) where
  side : Side
  color : Color
  item : α
  sibling : ColorTree α

namespace ColorTree

variable {α : Type}

/-- The node with the subtree `t` on the side `d`, and `s` on the other. -/
def join (d : Side) (c : Color) (t : ColorTree α) (a : α) (s : ColorTree α) : ColorTree α :=
  match d with
  | .left => node c t a s
  | .right => node c s a t

/-- The items from left to right. -/
def items : ColorTree α → List α
  | leaf => []
  | node _ l a r => items l ++ a :: items r

/-- The items, those of the children first. -/
def postorder : ColorTree α → List α
  | leaf => []
  | node _ l a r => postorder l ++ (postorder r ++ [a])

def height : ColorTree α → Nat
  | leaf => 0
  | node _ l _ r => max (height l) (height r) + 1

/-- The tree with a root of the given colour. -/
def recolor (c : Color) : ColorTree α → ColorTree α
  | leaf => leaf
  | node _ l a r => node c l a r

/-- The colour of the root, the number of black nodes on every path down, and no red node with a red
    child. -/
inductive Balanced : ColorTree α → Color → Nat → Prop
  | leaf : Balanced leaf .black 0
  | red {l r : ColorTree α} {a : α} {n : Nat} : Balanced l .black n → Balanced r .black n →
      Balanced (node .red l a r) .red n
  | black {l r : ColorTree α} {a : α} {c c' : Color} {n : Nat} : Balanced l c n → Balanced r c' n →
      Balanced (node .black l a r) .black (n + 1)

end ColorTree

open ColorTree

variable {α : Type}

namespace Frame

/-- The node, with a subtree on the side that the way came from. -/
def fill (f : Frame α) (t : ColorTree α) : ColorTree α := join f.side f.color t f.item f.sibling

end Frame

/-- A position: the frames from a subtree up to the root. -/
abbrev Frames (α : Type) := List (Frame α)

namespace Frames

/-- The whole tree. -/
def plug : Frames α → ColorTree α → ColorTree α
  | [], t => t
  | f :: k, t => plug k (f.fill t)

/-- The items of the frames and of their subtrees. -/
def items : Frames α → List α
  | [] => []
  | f :: k => f.item :: (f.sibling.items ++ items k)

/-- The items before the position. -/
def before : Frames α → List α
  | [] => []
  | f :: k =>
    match f.side with
    | .left => before k
    | .right => before k ++ (f.sibling.items ++ [f.item])

/-- The items behind the position. -/
def after : Frames α → List α
  | [] => []
  | f :: k =>
    match f.side with
    | .left => f.item :: (f.sibling.items ++ after k)
    | .right => after k

/-- The items behind the position when the children are visited first. -/
def postAfter : Frames α → List α
  | [] => []
  | f :: k =>
    match f.side with
    | .left => f.sibling.postorder ++ f.item :: postAfter k
    | .right => f.item :: postAfter k

/-- The position takes a balanced tree whose root has the colour `c` and whose paths have `n` black
    nodes: then the whole tree is balanced, and has a black root. -/
def Fits : Frames α → Color → Nat → Prop
  | [], c, _ => c = .black
  | ⟨_, .red, _, s⟩ :: k, c, n => c = .black ∧ Balanced s .black n ∧ Fits k .red n
  | ⟨_, .black, _, s⟩ :: k, _, n => (∃ c', Balanced s c' n) ∧ Fits k .black (n + 1)

end Frames

/-! ### Sides -/

namespace ColorTree

variable {l r t s x y u : ColorTree α} {a p g : α} {c c' c₁ c₂ c₃ c₄ : Color} {n : Nat} {d : Side}

/-- What is on one side of a node is the other subtree of the other side. -/
theorem join_flip : join d.flip c s a t = join d c t a s := by cases d <;> rfl

theorem join_ne_leaf : join d c t a s ≠ leaf := by cases d <;> simp [join]

/-- The subtrees of a node, by their sides. -/
theorem exists_join {P : ColorTree α → Prop} (d : Side) (hl : P l) (hr : P r) :
    ∃ y z, node c l a r = join d c y a z ∧ P y ∧ P z := by
  cases d with
  | left => exact ⟨l, r, rfl, hl, hr⟩
  | right => exact ⟨r, l, rfl, hr, hl⟩

theorem items_rotate : items (join d c₁ (join d c₂ x p t) g u) =
    items (join d c₃ x p (join d c₄ t g u)) := by
  cases d <;> simp [join, items]

theorem mem_items_join {q : α} :
    q ∈ items (join d c t a s) ↔ q ∈ t.items ∨ q = a ∨ q ∈ s.items := by
  cases d
  · simp [join, items]
  · simp only [join, items, List.mem_append, List.mem_cons]
    tauto

@[simp] theorem items_recolor : items (t.recolor c) = t.items := by cases t <;> rfl

theorem items_join_congr (ht : t.items = x.items) (hs : s.items = y.items) :
    items (join d c t a s) = items (join d c' x a y) := by
  cases d <;> simp [join, items, ht, hs]

theorem recolor_join : (join d c t a s).recolor c' = join d c' t a s := by cases d <;> rfl

theorem perm_items_join : (items (join d c t a s)).Perm (a :: (s.items ++ t.items)) := by
  cases d
  · show (t.items ++ a :: s.items).Perm _
    exact List.perm_middle.trans (List.Perm.cons _ List.perm_append_comm)
  · exact List.perm_middle

theorem perm_postorder : (postorder t).Perm t.items := by
  induction t with
  | leaf => exact List.Perm.refl _
  | node c l a r ihl ihr =>
    show (l.postorder ++ (r.postorder ++ [a])).Perm (l.items ++ a :: r.items)
    have hlast : (r.postorder ++ [a]).Perm (a :: r.postorder) := List.perm_append_comm
    exact ihl.append (hlast.trans (ihr.cons a))

/-! ### Balance -/

theorem balanced_join_red :
    Balanced (join d .red t a s) c n ↔ c = .red ∧ Balanced t .black n ∧ Balanced s .black n := by
  constructor
  · intro h
    cases d <;> cases h with
    | red hl hr => exact ⟨rfl, by assumption, by assumption⟩
  · rintro ⟨rfl, ht, hs⟩
    cases d
    · exact .red ht hs
    · exact .red hs ht

theorem balanced_join_black : Balanced (join d .black t a s) c n ↔
    c = .black ∧ ∃ m, n = m + 1 ∧ (∃ c₁, Balanced t c₁ m) ∧ ∃ c₂, Balanced s c₂ m := by
  constructor
  · intro h
    cases d <;> cases h with
    | black hl hr => exact ⟨rfl, _, rfl, ⟨_, by assumption⟩, _, by assumption⟩
  · rintro ⟨rfl, m, rfl, ⟨c₁, ht⟩, c₂, hs⟩
    cases d
    · exact .black ht hs
    · exact .black hs ht

namespace Balanced

/-- The root has its colour. -/
theorem recolor_eq (h : Balanced t c n) : t.recolor c = t := by
  cases h <;> rfl

/-- A red root that becomes black adds a black node to every path. -/
theorem recolor_red (h : Balanced t .red n) : Balanced (t.recolor .black) .black (n + 1) := by
  cases h with
  | red hl hr => exact .black hl hr

/-- A tree with a black node on its paths is not a leaf. -/
theorem ne_leaf (h : Balanced t c (n + 1)) : t ≠ .leaf := by
  rintro rfl
  cases h

/-- A path has at most as many red nodes as black ones, and one more below a red root. -/
theorem height_le (h : Balanced t c n) : t.height ≤ 2 * n + if c = .red then 1 else 0 := by
  induction h with
  | leaf => exact Nat.le_refl 0
  | red _ _ ihl ihr => simp only [height, reduceCtorEq, ↓reduceIte] at *; omega
  | black _ _ ihl ihr =>
    simp only [height, reduceCtorEq, ↓reduceIte] at *
    split at ihl <;> split at ihr <;> omega

/-- The black nodes alone make a full tree. -/
theorem two_pow_le (h : Balanced t c n) : 2 ^ n ≤ t.items.length + 1 := by
  induction h with
  | leaf => exact Nat.le_refl 1
  | red _ _ ihl ihr => simp only [items, List.length_append, List.length_cons]; omega
  | black _ _ ihl ihr =>
    simp only [items, List.length_append, List.length_cons, Nat.pow_succ]
    omega

/-- A tree with a black root is at most twice as high as a full tree with as many items. -/
theorem height_le_log (h : Balanced t .black n) : t.height ≤ 2 * Nat.log 2 (t.items.length + 1) := by
  have hheight := h.height_le
  have hlog : n ≤ Nat.log 2 (t.items.length + 1) :=
    (Nat.le_log_iff_pow_le (by decide) (Nat.succ_ne_zero _)).mpr h.two_pow_le
  simp only [reduceCtorEq, ↓reduceIte] at hheight
  omega

end Balanced

end ColorTree

/-! ### Positions -/

namespace Frames

variable {t s l r : ColorTree α} {k : Frames α} {f : Frame α} {a : α} {c : Color} {n : Nat}

theorem items_plug : (plug k t).items = before k ++ (t.items ++ after k) := by
  induction k generalizing t with
  | nil => simp [plug, before, after]
  | cons f k ih =>
    obtain ⟨d, c, a, s⟩ := f
    cases d <;> simp [plug, ih, before, after, Frame.fill, join, ColorTree.items]

theorem plug_append {k' : Frames α} : plug (k ++ k') t = plug k' (plug k t) := by
  induction k generalizing t with
  | nil => rfl
  | cons f k ih => exact ih

/-- Only the items of the subtree count. -/
theorem items_plug_congr (h : t.items = s.items) : (plug k t).items = (plug k s).items := by
  rw [items_plug, items_plug, h]

theorem perm_items_fill :
    (items k ++ (f.fill t).items).Perm (items (f :: k) ++ t.items) := by
  have hfill : (items k ++ (f.fill t).items).Perm
      (items k ++ (f.item :: (f.sibling.items ++ t.items))) :=
    (List.Perm.refl _).append perm_items_join
  refine hfill.trans (List.perm_middle.trans ?_)
  -- the subtree moves to the end
  rw [items, List.cons_append, ← List.append_assoc]
  exact (List.perm_append_comm.append_right _).cons _

theorem perm_items_plug : (plug k t).items.Perm (items k ++ t.items) := by
  induction k generalizing t with
  | nil => exact List.Perm.refl _
  | cons f k ih => exact ih.trans perm_items_fill

theorem mem_items_plug {q : α} : q ∈ (plug k t).items ↔ q ∈ items k ∨ q ∈ t.items := by
  rw [perm_items_plug.mem_iff, List.mem_append]

/-- Nothing is before a position on the left. -/
theorem before_eq_nil (h : ∀ f ∈ k, f.side = .left) : before k = [] := by
  induction k with
  | nil => rfl
  | cons f k ih =>
    have hf := h f (List.mem_cons_self ..)
    rw [before, hf]
    exact ih fun g hg => h g (List.mem_cons_of_mem _ hg)

theorem postorder_plug : ∃ ls, (plug k t).postorder = ls ++ (t.postorder ++ postAfter k) := by
  induction k generalizing t with
  | nil => exact ⟨[], by simp [plug, postAfter]⟩
  | cons f k ih =>
    obtain ⟨ls, h⟩ := ih (t := f.fill t)
    obtain ⟨d, c, a, s⟩ := f
    cases d with
    | left => exact ⟨ls, by rw [plug, h]; simp [postAfter, Frame.fill, join, postorder]⟩
    | right =>
      exact ⟨ls ++ s.postorder, by rw [plug, h]; simp [postAfter, Frame.fill, join, postorder]⟩

/-- Every item is the root of a subtree. -/
theorem exists_plug (h : a ∈ t.items) : ∃ k c l r, t = plug k (.node c l a r) := by
  suffices hgo : ∀ k, ∃ k' c l r, plug k t = plug k' (.node c l a r) from hgo []
  induction t with
  | leaf => cases h
  | node c l b r ihl ihr =>
    intro k
    rcases List.mem_append.mp h with hl | hr
    · exact ihl hl (⟨.left, c, b, r⟩ :: k)
    · rcases List.mem_cons.mp hr with rfl | hr
      · exact ⟨k, c, l, r, rfl⟩
      · exact ihr hr (⟨.right, c, b, l⟩ :: k)

/-- A balanced tree in a position that it fits. -/
theorem Fits.plug (hk : Fits k c n) (ht : Balanced t c n) : ∃ m, Balanced (plug k t) .black m := by
  induction k generalizing t c n with
  | nil => exact ⟨n, hk ▸ ht⟩
  | cons f k ih =>
    obtain ⟨d, c', a, s⟩ := f
    cases c' with
    | red =>
      obtain ⟨rfl, hs, hk⟩ := hk
      exact ih hk (balanced_join_red.mpr ⟨rfl, ht, hs⟩)
    | black =>
      obtain ⟨hs, hk⟩ := hk
      exact ih hk (balanced_join_black.mpr ⟨rfl, n, rfl, ⟨c, ht⟩, hs⟩)

/-- Every subtree of a balanced tree is balanced, and fits where it is. -/
theorem fits_of_plug {m : Nat} (h : Balanced (Frames.plug k t) .black m) :
    ∃ c n, Balanced t c n ∧ Fits k c n := by
  induction k generalizing t with
  | nil => exact ⟨_, _, h, rfl⟩
  | cons f k ih =>
    obtain ⟨c, n, hf, hk⟩ := ih h
    obtain ⟨d, c', a, s⟩ := f
    cases c' with
    | red =>
      obtain ⟨rfl, ht, hs⟩ := balanced_join_red.mp hf
      exact ⟨.black, n, ht, rfl, hs, hk⟩
    | black =>
      obtain ⟨rfl, n, rfl, ⟨c, ht⟩, hs⟩ := balanced_join_black.mp hf
      exact ⟨c, n, ht, hs, hk⟩

/-- Behind a red node there is a black one. -/
theorem Fits.black_behind {d : Side} {s : ColorTree α} (h : Fits (⟨d, .red, a, s⟩ :: k) c n) :
    c = .black ∧ Balanced s .black n ∧ ∃ d' g u k', k = ⟨d', .black, g, u⟩ :: k' ∧
      (∃ c', Balanced u c' n) ∧ Fits k' .black (n + 1) := by
  obtain ⟨rfl, hs, hk⟩ := h
  cases k with
  | nil => cases hk
  | cons f k =>
    obtain ⟨d', c', g, u⟩ := f
    cases c' with
    | red => exact absurd hk.1 (by decide)
    | black => exact ⟨rfl, hs, d', g, u, k, rfl, hk⟩

/-- What fits when it is red fits when it is black. -/
theorem Fits.black (h : Fits k c n) : Fits k .black n := by
  cases k with
  | nil => rfl
  | cons f k =>
    obtain ⟨d, c', a, s⟩ := f
    cases c' with
    | red => exact ⟨rfl, h.2⟩
    | black => exact h

/-- The items of the frames do not matter. -/
theorem Fits.item {d : Side} {c' : Color} {b : α} {k' : Frames α}
    (h : Fits (k ++ ⟨d, c', a, s⟩ :: k') c n) : Fits (k ++ ⟨d, c', b, s⟩ :: k') c n := by
  induction k generalizing c n with
  | nil => cases c' <;> exact h
  | cons f k ih =>
    obtain ⟨e, c'', g, u⟩ := f
    cases c'' with
    | red => exact ⟨h.1, h.2.1, ih h.2.2⟩
    | black => exact ⟨h.1, ih h.2⟩

theorem length_add_height_le : k.length + t.height ≤ (plug k t).height := by
  induction k generalizing t with
  | nil => simp [plug]
  | cons f k ih =>
    refine Nat.le_trans ?_ (ih (t := f.fill t))
    have hfill : t.height + 1 ≤ (f.fill t).height := by
      obtain ⟨d, c, a, s⟩ := f
      cases d <;> simp only [Frame.fill, join, height] <;> omega
    simp only [List.length_cons]
    omega

end Frames

end Apus.Lib
