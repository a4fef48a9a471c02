import Apus.Lib.ColorTree
import Apus.Lib.Fields

namespace Apus

open Lib

/-!
# The red-black tree

`rbtree.h`, `rbtree_augmented.h` and `rbtree.c`: nodes that are linked by pointers, with the colour of a
node in the low bit of the pointer to its parent.  A function that follows NULL, or a pointer to a node
that is not there, returns `none`, and so does a loop that is not done after the given number of rounds.

The branches of the source that are each other's mirror image are one definition here, with the side
as a parameter.
-/

/-! ### Nodes -/

/-- An address. -/
abbrev Ptr := UInt64

abbrev NULL : Ptr := 0

/-- `RB_RED` and `RB_BLACK`. -/
def colorBit : Color → UInt64
  | .red => 0
  | .black => 1

/-- `struct rb_node`. -/
structure RbNode where
  parentColor : UInt64
  right : Ptr
  left : Ptr
deriving DecidableEq

/-- `__rb_parent`. -/
def parentOf (pc : UInt64) : Ptr := pc &&& intOperand (~~~3)

/-- `__rb_is_black`. -/
def isBlackWord (pc : UInt64) : Bool := pc &&& intOperand 1 != 0

namespace RbNode

/-- `rb_left` or `rb_right`. -/
def child (d : Side) (n : RbNode) : Ptr :=
  match d with
  | .left => n.left
  | .right => n.right

def setChild (d : Side) (q : Ptr) (n : RbNode) : RbNode :=
  match d with
  | .left => { n with left := q }
  | .right => { n with right := q }

end RbNode

/-- The nodes that are there, and `struct rb_root`. -/
structure RbMem where
  root : Ptr
  node : Ptr → Option RbNode

namespace RbMem

variable (m : RbMem)

/-! ### Accesses -/

/-- The node that a pointer points to. -/
def read (p : Ptr) : Option RbNode := if p = NULL then none else m.node p

def write (p : Ptr) (n : RbNode) : RbMem := { m with node := Function.update m.node p (some n) }

/-- A node is changed in place. -/
def modify (p : Ptr) (f : RbNode → RbNode) : Option RbMem := (m.read p).map fun n => m.write p (f n)

/-- `p->rb_left` or `p->rb_right`. -/
def child (d : Side) (p : Ptr) : Option Ptr := (m.read p).map (RbNode.child d)

def setChild (d : Side) (p q : Ptr) : Option RbMem := m.modify p (RbNode.setChild d q)

/-- `p->__rb_parent_color`. -/
def parentColor (p : Ptr) : Option UInt64 := (m.read p).map RbNode.parentColor

def setParentColorWord (p : Ptr) (pc : UInt64) : Option RbMem :=
  m.modify p fun n => { n with parentColor := pc }

/-- `rb_parent`. -/
def rbParent (p : Ptr) : Option Ptr := (m.parentColor p).map parentOf

/-- `rb_red_parent`: the colour bit is not masked out. -/
def rbRedParent (p : Ptr) : Option Ptr := m.parentColor p

/-- `rb_is_black`. -/
def rbIsBlack (p : Ptr) : Option Bool := (m.parentColor p).map isBlackWord

/-- `p && rb_is_red(p)`. -/
def isRedNode (p : Ptr) : Option Bool := if p = NULL then some false else (m.rbIsBlack p).map (! ·)

/-- `!p || rb_is_black(p)`. -/
def isBlackOrNull (p : Ptr) : Option Bool := if p = NULL then some true else m.rbIsBlack p

/-- `rb_set_parent`. -/
def rbSetParent (p q : Ptr) : Option RbMem :=
  m.modify p fun n => { n with parentColor := n.parentColor &&& intOperand 1 ||| q }

/-- `rb_set_parent_color`. -/
def rbSetParentColor (p q : Ptr) (c : Color) : Option RbMem := m.setParentColorWord p (q ||| colorBit c)

/-- `rb_set_black`. -/
def rbSetBlack (p : Ptr) : Option RbMem :=
  m.modify p fun n => { n with parentColor := n.parentColor ||| colorBit .black }

/-- `if (p) rb_set_parent_color(p, q, c)`. -/
def adoptColor (p q : Ptr) (c : Color) : Option RbMem :=
  if p = NULL then some m else m.rbSetParentColor p q c

/-- `if (p) rb_set_parent(p, q)`. -/
def adopt (p q : Ptr) : Option RbMem := if p = NULL then some m else m.rbSetParent p q

/-- `__rb_change_child`. -/
def rbChangeChild (old new parent : Ptr) : Option RbMem :=
  if parent = NULL then some { m with root := new }
  else do
    let left ← m.child .left parent
    if left = old then m.setChild .left parent new else m.setChild .right parent new

/-- `__rb_rotate_set_parents`. -/
def rbRotateSetParents (old new : Ptr) (c : Color) : Option RbMem := do
  let parent ← m.rbParent old
  let pc ← m.parentColor old
  let m ← m.setParentColorWord new pc
  let m ← m.rbSetParentColor old new c
  m.rbChangeChild old new parent

/-! ### Insertion -/

/-- A place that holds a pointer to a node: that of the root, or the one to a child of a node. -/
inductive Link
  | root
  | child (d : Side) (p : Ptr)

/-- `*link`. -/
def follow : Link → Option Ptr
  | .root => some m.root
  | .child d p => m.child d p

/-- `rb_link_node`. -/
def rbLinkNode (node parent : Ptr) (link : Link) : Option RbMem := do
  let m ← m.modify node fun _ => ⟨parent, NULL, NULL⟩
  match link with
  | .root => some { m with root := node }
  | .child d p => m.setChild d p node

/-- The outcome of a round of a loop: it is left, or goes on with another node and its parent. -/
inductive Round
  | done (m : RbMem)
  | again (m : RbMem) (node parent : Ptr)

/-- `rb_insert_color`, case 3: a rotation at gparent. -/
def rbInsertOuter (d : Side) (parent gparent tmp : Ptr) : Option RbMem := do
  let m ← m.setChild d gparent tmp
  let m ← m.setChild d.flip parent gparent
  let m ← m.adoptColor tmp gparent .black
  m.rbRotateSetParents gparent parent .red

/-- Case 2, a rotation at parent, and case 3 after it. -/
def rbInsertInner (d : Side) (node parent gparent : Ptr) : Option RbMem := do
  let tmp ← m.child d node
  let m ← m.setChild d.flip parent tmp
  let m ← m.setChild d node parent
  let m ← m.adoptColor tmp parent .black
  let m ← m.rbSetParentColor parent node .red
  let tmp ← m.child d.flip node
  m.rbInsertOuter d node gparent tmp

/-- Case 1: the colours are flipped. -/
def rbInsertFlip (parent gparent tmp : Ptr) : Option Round := do
  let m ← m.rbSetParentColor tmp gparent .black
  let m ← m.rbSetParentColor parent gparent .black
  let up ← m.rbParent gparent
  let m ← m.rbSetParentColor gparent up .red
  some (.again m gparent up)

/-- The branch of the loop where parent is the child of gparent on the side `d`. -/
def rbInsertSide (d : Side) (node parent gparent : Ptr) : Option Round := do
  let tmp ← m.child d.flip gparent
  if ← m.isRedNode tmp then m.rbInsertFlip parent gparent tmp
  else
    let tmp ← m.child d.flip parent
    if node = tmp then (m.rbInsertInner d node parent gparent).map .done
    else (m.rbInsertOuter d parent gparent tmp).map .done

/-- A round of the loop of `__rb_insert`. -/
def rbInsertRound (node parent : Ptr) : Option Round := do
  if parent = NULL then (m.rbSetParentColor node NULL .black).map .done
  else if ← m.rbIsBlack parent then some (.done m)
  else
    let gparent ← m.rbRedParent parent
    let tmp ← m.child .right gparent
    if parent ≠ tmp then m.rbInsertSide .left node parent gparent
    else m.rbInsertSide .right node parent gparent

/-- The loop of `__rb_insert`. -/
def rbInsertLoop : Nat → RbMem → Ptr → Ptr → Option RbMem
  | 0, _, _, _ => none
  | fuel + 1, m, node, parent => do
    match ← m.rbInsertRound node parent with
    | .done m => some m
    | .again m node parent => rbInsertLoop fuel m node parent

/-- `rb_insert_color`. -/
def rbInsertColor (fuel : Nat) (node : Ptr) : Option RbMem := do
  let parent ← m.rbRedParent node
  rbInsertLoop fuel m node parent

/-! ### Erasure -/

/-- The loop of `__rb_erase_augmented` that goes down to the successor, with the parent of the latter. -/
def rbSuccessor (m : RbMem) : Nat → Ptr → Ptr → Option (Ptr × Ptr)
  | 0, _, _ => none
  | fuel + 1, successor, tmp => do
    let next ← m.child .left tmp
    if next ≠ NULL then rbSuccessor m fuel tmp next else some (successor, tmp)

/-- Case 1 of `__rb_erase_augmented` without a left child. -/
def rbEraseNoLeft (node child : Ptr) : Option (RbMem × Ptr) := do
  let pc ← m.parentColor node
  let m ← m.rbChangeChild node child (parentOf pc)
  if child ≠ NULL then (m.setParentColorWord child pc).map (·, NULL)
  else some (m, if isBlackWord pc then parentOf pc else NULL)

/-- Case 1 with a left child only. -/
def rbEraseNoRight (node tmp : Ptr) : Option (RbMem × Ptr) := do
  let pc ← m.parentColor node
  let m ← m.setParentColorWord tmp pc
  let m ← m.rbChangeChild node tmp (parentOf pc)
  some (m, NULL)

/-- Case 2 or 3: the successor, its parent and its child; in case 3 the successor is taken out of its
    place and gets the right child of the node. -/
def rbEraseTake (fuel : Nat) (child : Ptr) : Option (RbMem × Ptr × Ptr × Ptr) := do
  let tmp ← m.child .left child
  if tmp = NULL then
    let child2 ← m.child .right child
    some (m, child, child, child2)
  else
    let (parent, successor) ← m.rbSuccessor fuel child tmp
    let child2 ← m.child .right successor
    let m ← m.setChild .left parent child2
    let m ← m.setChild .right successor child
    let m ← m.rbSetParent child successor
    some (m, parent, successor, child2)

/-- Cases 2 and 3: the successor goes to the place of the node. -/
def rbEraseBoth (fuel : Nat) (node child : Ptr) : Option (RbMem × Ptr) := do
  let (m, parent, successor, child2) ← m.rbEraseTake fuel child
  let tmp ← m.child .left node
  let m ← m.setChild .left successor tmp
  let m ← m.rbSetParent tmp successor
  let pc ← m.parentColor node
  let m ← m.rbChangeChild node successor (parentOf pc)
  if child2 ≠ NULL then
    let m ← m.setParentColorWord successor pc
    (m.rbSetParentColor child2 parent .black).map (·, NULL)
  else
    let pc2 ← m.parentColor successor
    let m ← m.setParentColorWord successor pc
    some (m, if isBlackWord pc2 then parent else NULL)

/-- `__rb_erase_augmented`, with the node to rebalance at. -/
def rbEraseAugmented (fuel : Nat) (node : Ptr) : Option (RbMem × Ptr) := do
  let child ← m.child .right node
  let tmp ← m.child .left node
  if tmp = NULL then m.rbEraseNoLeft node child
  else if child = NULL then m.rbEraseNoRight node tmp
  else m.rbEraseBoth fuel node child

/-- `____rb_erase_color`, case 1: a rotation at parent; the new sibling. -/
def rbEraseRed (d : Side) (parent sibling : Ptr) : Option (RbMem × Ptr) := do
  let tmp1 ← m.child d sibling
  let m ← m.setChild d.flip parent tmp1
  let m ← m.setChild d sibling parent
  let m ← m.rbSetParentColor tmp1 parent .black
  let m ← m.rbRotateSetParents parent sibling .red
  some (m, tmp1)

/-- Case 2: the colour of the sibling is flipped. -/
def rbEraseFlip (parent sibling : Ptr) : Option Round := do
  let m ← m.rbSetParentColor sibling parent .red
  if ← m.isRedNode parent then (m.rbSetBlack parent).map .done
  else
    let up ← m.rbParent parent
    if up ≠ NULL then some (.again m parent up) else some (.done m)

/-- Case 4: a rotation at parent, and the colours are flipped. -/
def rbEraseOuter (d : Side) (parent sibling tmp1 : Ptr) : Option RbMem := do
  let tmp2 ← m.child d sibling
  let m ← m.setChild d.flip parent tmp2
  let m ← m.setChild d sibling parent
  let m ← m.rbSetParentColor tmp1 sibling .black
  let m ← m.adopt tmp2 parent
  m.rbRotateSetParents parent sibling .black

/-- Case 3, a rotation at sibling, and case 4 after it. -/
def rbEraseInner (d : Side) (parent sibling tmp2 : Ptr) : Option RbMem := do
  let tmp1 ← m.child d.flip tmp2
  let m ← m.setChild d sibling tmp1
  let m ← m.setChild d.flip tmp2 sibling
  let m ← m.setChild d.flip parent tmp2
  let m ← m.adoptColor tmp1 sibling .black
  m.rbEraseOuter d parent tmp2 sibling

/-- Cases 2 to 4, where node is the child of parent on the side `d` and sibling is black. -/
def rbEraseBlack (d : Side) (parent sibling : Ptr) : Option Round := do
  let tmp1 ← m.child d.flip sibling
  if ← m.isBlackOrNull tmp1 then
    let tmp2 ← m.child d sibling
    if ← m.isBlackOrNull tmp2 then m.rbEraseFlip parent sibling
    else (m.rbEraseInner d parent sibling tmp2).map .done
  else (m.rbEraseOuter d parent sibling tmp1).map .done

/-- The branch of the loop where node is the child of parent on the side `d`. -/
def rbEraseSide (d : Side) (parent sibling : Ptr) : Option Round := do
  if ← m.rbIsBlack sibling then m.rbEraseBlack d parent sibling
  else
    let (m, sibling) ← m.rbEraseRed d parent sibling
    m.rbEraseBlack d parent sibling

/-- A round of the loop of `____rb_erase_color`. -/
def rbEraseRound (node parent : Ptr) : Option Round := do
  let sibling ← m.child .right parent
  if node ≠ sibling then m.rbEraseSide .left parent sibling
  else
    let sibling ← m.child .left parent
    m.rbEraseSide .right parent sibling

/-- The loop of `____rb_erase_color`. -/
def rbEraseLoop : Nat → RbMem → Ptr → Ptr → Option RbMem
  | 0, _, _, _ => none
  | fuel + 1, m, node, parent => do
    match ← m.rbEraseRound node parent with
    | .done m => some m
    | .again m node parent => rbEraseLoop fuel m node parent

/-- `rb_erase`. -/
def rbErase (fuel : Nat) (node : Ptr) : Option RbMem := do
  let (m, rebalance) ← m.rbEraseAugmented fuel node
  if rebalance ≠ NULL then rbEraseLoop fuel m NULL rebalance else some m

/-! ### Iteration -/

/-- `while (n->rb_left) n = n->rb_left;`, or to the right. -/
def rbDown (d : Side) (m : RbMem) : Nat → Ptr → Option Ptr
  | 0, _ => none
  | fuel + 1, n => do
    let next ← m.child d n
    if next ≠ NULL then rbDown d m fuel next else some n

/-- `rb_first`, `rb_last`. -/
def rbEnd (d : Side) (fuel : Nat) : Option Ptr :=
  if m.root = NULL then some NULL else m.rbDown d fuel m.root

def rbFirst (fuel : Nat) : Option Ptr := m.rbEnd .left fuel

def rbLast (fuel : Nat) : Option Ptr := m.rbEnd .right fuel

/-- `while ((parent = rb_parent(node)) && node == parent->rb_right) node = parent;`, or from the left. -/
def rbUp (d : Side) (m : RbMem) : Nat → Ptr → Option Ptr
  | 0, _ => none
  | fuel + 1, node => do
    let parent ← m.rbParent node
    if parent = NULL then some parent
    else
      let child ← m.child d parent
      if node = child then rbUp d m fuel parent else some parent

/-- `rb_next`, `rb_prev`. -/
def rbBeside (d : Side) (fuel : Nat) (node : Ptr) : Option Ptr := do
  let pc ← m.parentColor node
  -- `RB_EMPTY_NODE`
  if pc = node then some NULL
  else
    let child ← m.child d node
    if child ≠ NULL then m.rbDown d.flip fuel child else m.rbUp d fuel node

def rbNext (fuel : Nat) (node : Ptr) : Option Ptr := m.rbBeside .right fuel node

def rbPrev (fuel : Nat) (node : Ptr) : Option Ptr := m.rbBeside .left fuel node

/-- `rb_left_deepest_node`. -/
def rbLeftDeepestNode (m : RbMem) : Nat → Ptr → Option Ptr
  | 0, _ => none
  | fuel + 1, node => do
    let left ← m.child .left node
    if left ≠ NULL then rbLeftDeepestNode m fuel left
    else
      let right ← m.child .right node
      if right ≠ NULL then rbLeftDeepestNode m fuel right else some node

/-- `rb_first_postorder`. -/
def rbFirstPostorder (fuel : Nat) : Option Ptr :=
  if m.root = NULL then some NULL else m.rbLeftDeepestNode fuel m.root

/-- `rb_next_postorder`. -/
def rbNextPostorder (fuel : Nat) (node : Ptr) : Option Ptr :=
  if node = NULL then some NULL
  else do
    let parent ← m.rbParent node
    if parent = NULL then some parent
    else
      let left ← m.child .left parent
      let right ← m.child .right parent
      if node = left ∧ right ≠ NULL then m.rbLeftDeepestNode fuel right else some parent

end RbMem

end Apus
