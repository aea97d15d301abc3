import Mathlib.Data.List.Perm.Basic
import SimpleBasicComponents.BTree.Model

/-!
What a split leaves behind.

Owns: what a split promises, the exact result of `btree_split_child` on a full
child, and which of the promises it keeps when. The new node is never given its
`num`, the inner children are copied with the two indices exchanged, and the median
and the new node are put at the end of the parent, over its last child.
-/

namespace SimpleBasicComponents.BTree

open SimpleBasicComponents.Semantics

/-! ### What a split promises -/

/-- What stands in a node in the order of a traversal. -/
inductive Item where
  | key (key : KeyType)
  | subtree (child : Option Addr)
deriving DecidableEq, Repr

def interleave : List (Option Addr) → List KeyType → List Item
  | [], keys => keys.map .key
  | children, [] => children.map .subtree
  | child :: children, key :: keys => .subtree child :: .key key :: interleave children keys

def BtreeNode.subtrees (node : BtreeNode) : List (Option Addr) :=
  if node.leaf = 0 then node.children.toList.take (node.num + 1) else []

def BtreeNode.items (node : BtreeNode) : List Item := interleave node.subtrees (node.keys.toList.take node.num)

/-- The items of a node, with those of the given children in their places. -/
def inOrder (heap : Heap BtreeNode) (opened : List Addr) (node : BtreeNode) : List Item :=
  node.items.flatMap fun item =>
    match item with
    | .key key => [.key key]
    | .subtree none => [.subtree none]
    | .subtree (some child) =>
        if child ∈ opened then ((heap.load child).map BtreeNode.items).getD [] else [.subtree (some child)]

/-- The parent, the child and the position between them. -/
structure FullChild (heap : Heap BtreeNode) (parent : Addr) (idx : Nat) (child : Addr)
    (parentNode childNode : BtreeNode) : Prop where
  parentLoads : heap.load parent = some parentNode
  room : parentNode.num < m - 1
  position : idx ≤ parentNode.num
  isChild : parentNode.children[idx]? = some (some child)
  childLoads : heap.load child = some childNode
  different : parent ≠ child
  full : childNode.num = m - 1

/-- What the three nodes are to be after the split of a child. -/
structure Halved (heap next : Heap BtreeNode) (idx : Nat) (child newNode : Addr)
    (parentNode childNode parentAfter left right : BtreeNode) : Prop where
  order : inOrder next [child, newNode] parentAfter = inOrder heap [child] parentNode
  counted : parentAfter.num = parentNode.num + 1
  median : parentAfter.keys[idx]? = childNode.keys[degrees - 1]?
  leftPlace : parentAfter.children[idx]? = some (some child)
  rightPlace : parentAfter.children[idx + 1]? = some (some newNode)
  leftShape : left.num = degrees - 1 ∧ left.leaf = childNode.leaf
  rightShape : right.num = degrees - 1 ∧ right.leaf = childNode.leaf
  pointers : List.Perm (parentAfter.subtrees ++ left.subtrees ++ right.subtrees)
    (some newNode :: (parentNode.subtrees ++ childNode.subtrees))

def Preserved (heap next : Heap BtreeNode) (parent : Addr) (idx : Nat) (child : Addr)
    (parentNode childNode : BtreeNode) : Prop :=
  ∃ parentAfter left right, next.load parent = some parentAfter ∧ next.load child = some left ∧
    next.load heap.length = some right ∧
    Halved heap next idx child heap.length parentNode childNode parentAfter left right

/-! ### What a split does -/

/-- The node that `btree_create_node` returned, after the loops. -/
def rightHalf (fresh child : BtreeNode) : BtreeNode where
  keys := (fresh.keys.set 0 child.keys[3]).set 1 child.keys[4]
  children :=
    if child.leaf = 0 then
      ((fresh.children.set 3 child.children[0]).set 4 child.children[1]).set 5 child.children[2]
    else fresh.children
  num := fresh.num
  leaf := fresh.leaf

def leftHalf (child : BtreeNode) : BtreeNode :=
  { child with
    children := if child.leaf = 0 then ((child.children.set 3 none).set 4 none).set 5 none else child.children
    num := 2 }

variable {heap next : Heap BtreeNode} {parent child : Addr} {idx : Nat}
  {parentNode childNode fresh : BtreeNode}

theorem moveKeys_eq (child newNode : BtreeNode) :
    moveKeys child 2 3 0 newNode =
      some { newNode with keys := (newNode.keys.set 0 child.keys[3]).set 1 child.keys[4] } := by
  simp [moveKeys, BtreeNode.setKey, m]

theorem moveChildren_eq (newNode child : BtreeNode) :
    moveChildren 3 3 0 (newNode, child) =
      some ({ newNode with children :=
          ((newNode.children.set 3 child.children[0]).set 4 child.children[1]).set 5 child.children[2] },
        { child with children := ((child.children.set 3 none).set 4 none).set 5 none }) := by
  simp [moveChildren, BtreeNode.setChild, m]

theorem moveHalf_eq (full : childNode.num = m - 1) (isInner : fresh.leaf = 0) :
    moveHalf fresh childNode = some (rightHalf fresh childNode, { leftHalf childNode with num := childNode.num }) := by
  have keyTurns : childNode.num - degrees = 2 := by
    rw [full]
    rfl
  have childTurns : (childNode.num + 1) % 4294967296 - degrees = 3 := by
    rw [full]
    rfl
  unfold moveHalf
  rw [keyTurns, childTurns, show degrees = 3 from rfl, moveKeys_eq]
  by_cases inner : childNode.leaf = 0
  · simp only [if_pos inner, moveChildren_eq]
    simp [rightHalf, leftHalf, inner, isInner]
  · simp [rightHalf, leftHalf, inner]

/-- The parent gets the median and the new node behind everything it has, the new
node in the place of its last child. -/
def parentAfter (parent child : BtreeNode) (newNode : Addr) (room : parent.num < m - 1) : BtreeNode where
  keys := parent.keys.set parent.num child.keys[2]
  children := parent.children.set parent.num (some newNode) (Nat.lt_of_lt_of_le room (Nat.sub_le m 1))
  num := parent.num + 1
  leaf := parent.leaf

theorem FullChild.inside (isFull : FullChild heap parent idx child parentNode childNode) : parentNode.num < m :=
  Nat.lt_of_lt_of_le isFull.room (Nat.sub_le m 1)

theorem FullChild.apart (isFull : FullChild heap parent idx child parentNode childNode) :
    parent ≠ heap.length ∧ child ≠ heap.length :=
  ⟨Nat.ne_of_lt (Heap.lt_length_of_load isFull.parentLoads), Nat.ne_of_lt (Heap.lt_length_of_load isFull.childLoads)⟩

theorem appendChild_eq {keys : Vector KeyType (m - 1)} (room : parentNode.num < m - 1) (newNode : Addr) :
    appendChild { parentNode with keys := keys } newNode =
      some { parentNode with
        keys := keys
        children := parentNode.children.set parentNode.num (some newNode) (Nat.lt_of_lt_of_le room (Nat.sub_le m 1))
        num := parentNode.num + 1 } := by
  have inside : parentNode.num < m := Nat.lt_of_lt_of_le room (Nat.sub_le m 1)
  have small : (parentNode.num + 1) % 4294967296 = parentNode.num + 1 := by
    unfold m at room
    omega
  unfold appendChild BtreeNode.setChild
  simp only [dif_pos inside, small]

/-- The split of any full child. Nothing else in the memory changes. -/
theorem splitChild_eq (isFull : FullChild heap parent idx child parentNode childNode) (isInner : fresh.leaf = 0) :
    ∃ next, btreeSplitChild heap fresh parent idx = some next ∧
      next.load parent = some (parentAfter parentNode childNode heap.length isFull.room) ∧
      next.load child = some (leftHalf childNode) ∧ next.load heap.length = some (rightHalf fresh childNode) ∧
      ∀ other, other ≠ parent → other ≠ child → other ≠ heap.length → next.load other = heap.load other := by
  have ⟨parentNew, childNew⟩ := isFull.apart
  have different := isFull.different
  have allocated (addr : Addr) (old : addr ≠ heap.length) : (heap.alloc fresh).load addr = heap.load addr :=
    Heap.load_alloc_other old
  have loaded : (heap.alloc fresh).load heap.length = some fresh := Heap.load_alloc_self
  obtain ⟨first, storesFirst, loadsFirst⟩ := Heap.store_load loaded (rightHalf fresh childNode)
  have childFirst : first.load child = some childNode := by
    rw [loadsFirst, Function.update_of_ne childNew, allocated child childNew, isFull.childLoads]
  obtain ⟨second, storesSecond, loadsSecond⟩ := Heap.store_load childFirst
    { leftHalf childNode with num := childNode.num }
  have parentSecond : second.load parent = some parentNode := by
    rw [loadsSecond, Function.update_of_ne different, loadsFirst, Function.update_of_ne parentNew,
      allocated parent parentNew, isFull.parentLoads]
  obtain ⟨third, storesThird, loadsThird⟩ := Heap.store_load parentSecond
    { parentNode with keys := parentNode.keys.set parentNode.num childNode.keys[2] isFull.room }
  have childThird : third.load child = some { leftHalf childNode with num := childNode.num } := by
    rw [loadsThird, Function.update_of_ne different.symm, loadsSecond, Function.update_self]
  obtain ⟨fourth, storesFourth, loadsFourth⟩ := Heap.store_load childThird (leftHalf childNode)
  have parentFourth : fourth.load parent =
      some { parentNode with keys := parentNode.keys.set parentNode.num childNode.keys[2] isFull.room } := by
    rw [loadsFourth, Function.update_of_ne different, loadsThird, Function.update_self]
  obtain ⟨next, stores, loads⟩ := Heap.store_load parentFourth
    (parentAfter parentNode childNode heap.length isFull.room)
  refine ⟨next, ?_, ?_, ?_, ?_, ?_⟩
  · have median : (leftHalf childNode).keys[2]? = some childNode.keys[2] := by
      simp [leftHalf]
    have sets : parentNode.setKey parentNode.num childNode.keys[2] =
        some { parentNode with keys := parentNode.keys.set parentNode.num childNode.keys[2] isFull.room } :=
      dif_pos isFull.room
    unfold btreeSplitChild
    simp only [isFull.parentLoads, isFull.isChild, isFull.childLoads, Option.bind_eq_bind, Option.bind_some,
      moveHalf_eq isFull.full isInner, storesFirst, storesSecond, parentSecond, show degrees - 1 = 2 from rfl, median,
      sets, storesThird, childThird]
    have shape : { leftHalf childNode with num := 2 } = leftHalf childNode := rfl
    rw [shape, storesFourth, Option.bind_some, parentFourth, Option.bind_some, appendChild_eq isFull.room,
      Option.bind_some]
    exact stores
  · rw [loads, Function.update_self]
  · rw [loads, Function.update_of_ne different.symm, loadsFourth, Function.update_self]
  · rw [loads, Function.update_of_ne parentNew.symm, loadsFourth, Function.update_of_ne childNew.symm, loadsThird,
      Function.update_of_ne parentNew.symm, loadsSecond, Function.update_of_ne childNew.symm, loadsFirst,
      Function.update_self]
  · intro other notParent notChild notNew
    rw [loads, Function.update_of_ne notParent, loadsFourth, Function.update_of_ne notChild, loadsThird,
      Function.update_of_ne notParent, loadsSecond, Function.update_of_ne notChild, loadsFirst,
      Function.update_of_ne notNew, allocated other notNew]

/-! ### Which promises are kept -/

/-- The new node keeps the `num` it was created with. -/
private theorem not_halved (isFull : FullChild heap parent idx child parentNode childNode)
    (isFresh : fresh.leaf = 0 ∧ fresh.num = 0) (splits : btreeSplitChild heap fresh parent idx = some next) :
    ¬ Preserved heap next parent idx child parentNode childNode := by
  obtain ⟨other, splitsOther, -, -, loadsNew, -⟩ := splitChild_eq isFull isFresh.1
  obtain rfl := Option.some.inj (splitsOther.symm.trans splits)
  rintro ⟨after, left, right, -, -, loadsRight, halved⟩
  have same := Option.some.inj (loadsNew.symm.trans loadsRight)
  have counted := halved.rightShape.1
  rw [← same] at counted
  exact absurd (isFresh.2.symm.trans counted) (by decide)

/-- No split is right, whatever the parent, the position and the child. -/
theorem splitChild_not_preserved (isFull : FullChild heap parent idx child parentNode childNode)
    (keys : Vector KeyType (m - 1)) (children : Vector (Option Addr) m) :
    ∃ next, btreeSplitChild heap (btreeCreateNode keys children) parent idx = some next ∧
      ¬ Preserved heap next parent idx child parentNode childNode := by
  obtain ⟨next, splits, -⟩ := @splitChild_eq _ _ _ _ _ _ (btreeCreateNode keys children) isFull rfl
  exact ⟨next, splits, not_halved isFull ⟨rfl, rfl⟩ splits⟩

/-- The new root above a full leaf, as `btree_insert` makes it. -/
private theorem fullRoot (keys : Vector KeyType (m - 1)) (children : Vector (Option Addr) m) :
    FullChild [some ⟨keys, Vector.replicate m (some 1), 0, 0⟩, some ⟨keys, children, m - 1, 1⟩] 0 0 1
      ⟨keys, Vector.replicate m (some 1), 0, 0⟩ ⟨keys, children, m - 1, 1⟩ where
  parentLoads := rfl
  room := (by decide : 0 < m - 1)
  position := Nat.le_refl 0
  isChild := by simp
  childLoads := rfl
  different := by decide
  full := rfl

theorem fullRoot_not_preserved : ∃ next,
    btreeSplitChild
        [some ⟨Vector.replicate (m - 1) 7, Vector.replicate m (some 1), 0, 0⟩,
          some ⟨Vector.replicate (m - 1) 7, Vector.replicate m none, m - 1, 1⟩]
        (btreeCreateNode (Vector.replicate (m - 1) 0) (Vector.replicate m none)) 0 0 = some next ∧
      ¬ Preserved
        [some ⟨Vector.replicate (m - 1) 7, Vector.replicate m (some 1), 0, 0⟩,
          some ⟨Vector.replicate (m - 1) 7, Vector.replicate m none, m - 1, 1⟩] next 0 0 1
        ⟨Vector.replicate (m - 1) 7, Vector.replicate m (some 1), 0, 0⟩
        ⟨Vector.replicate (m - 1) 7, Vector.replicate m none, m - 1, 1⟩ :=
  splitChild_not_preserved (fullRoot _ _) _ _

/-- The root is full and is split for the first time. -/
theorem fullRoot_fails : ¬ ∀ (heap : Heap BtreeNode) (parent : Addr) (idx : Nat) (child : Addr)
    (parentNode childNode : BtreeNode) (keys : Vector KeyType (m - 1)) (children : Vector (Option Addr) m),
    FullChild heap parent idx child parentNode childNode →
      ∃ next, btreeSplitChild heap (btreeCreateNode keys children) parent idx = some next ∧
        Preserved heap next parent idx child parentNode childNode := by
  intro claimed
  have isFull := fullRoot (Vector.replicate (m - 1) 7) (Vector.replicate m none)
  obtain ⟨next, splits, preserved⟩ :=
    claimed _ _ _ _ _ _ (Vector.replicate (m - 1) 0) (Vector.replicate m none) isFull
  exact not_halved isFull ⟨rfl, rfl⟩ splits preserved

/-- The leaf mark of the new node is right for inner children only. -/
theorem rightHalf_leaf_iff (isInner : fresh.leaf = 0) :
    (rightHalf fresh childNode).leaf = childNode.leaf ↔ childNode.leaf = 0 := by
  change fresh.leaf = childNode.leaf ↔ _
  rw [isInner]
  exact eq_comm

/-- The median is in its place if the child was the last one. -/
theorem median_iff (isFull : FullChild heap parent idx child parentNode childNode) (newNode : Addr) :
    (parentAfter parentNode childNode newNode isFull.room).keys[idx]? = some childNode.keys[2] ↔
      idx = parentNode.num ∨ parentNode.keys[idx]? = some childNode.keys[2] := by
  change (parentNode.keys.set parentNode.num childNode.keys[2] isFull.room)[idx]? = _ ↔ _
  rw [Vector.getElem?_set]
  split
  · next same => exact iff_of_true rfl (.inl same.symm)
  · next different => exact (or_iff_right (Ne.symm different)).symm

/-- The last child of the parent is lost, the split one if it was the last. -/
theorem leftPlace_iff (isFull : FullChild heap parent idx child parentNode childNode) :
    (parentAfter parentNode childNode heap.length isFull.room).children[idx]? = some (some child) ↔
      idx ≠ parentNode.num := by
  change (parentNode.children.set parentNode.num (some heap.length) isFull.inside)[idx]? = _ ↔ _
  rw [Vector.getElem?_set]
  split
  · next same =>
      refine iff_of_false ?_ (fun different => different same.symm)
      intro isChild
      exact isFull.apart.2 (Option.some.inj (Option.some.inj isChild)).symm
  · next different => exact iff_of_true isFull.isChild (Ne.symm different)

/-- The new node comes to stand behind the child only if that was the last but one. -/
theorem rightPlace_iff (isFull : FullChild heap parent idx child parentNode childNode)
    (valid : some heap.length ∉ parentNode.children) :
    (parentAfter parentNode childNode heap.length isFull.room).children[idx + 1]? = some (some heap.length) ↔
      idx + 1 = parentNode.num := by
  change (parentNode.children.set parentNode.num (some heap.length) isFull.inside)[idx + 1]? = _ ↔ _
  rw [Vector.getElem?_set]
  split
  · next same => exact iff_of_true rfl same.symm
  · next different =>
      refine iff_of_false ?_ (Ne.symm different)
      intro found
      exact valid (Vector.mem_of_getElem? found)

private theorem mem_of_mem_set {children : Vector (Option Addr) m} {i : Nat} (bound : i < m) {value : Option Addr}
    {lost : Addr} (other : value ≠ some lost) (member : some lost ∈ children.set i value bound) :
    some lost ∈ children :=
  (Vector.mem_or_eq_of_mem_set member).resolve_right other.symm

/-- The last three subtrees of an inner child are gone. -/
theorem subtree_lost (isFull : FullChild heap parent idx child parentNode childNode)
    (isInner : childNode.leaf = 0) {lost : Addr} (isOld : lost ≠ heap.length)
    (late : ∀ k < 3, childNode.children[k]? ≠ some (some lost)) (notParent : some lost ∉ parentNode.children)
    (notFresh : some lost ∉ fresh.children) :
    some lost ∉ (parentAfter parentNode childNode heap.length isFull.room).children ∧
      some lost ∉ (leftHalf childNode).children ∧ some lost ∉ (rightHalf fresh childNode).children := by
  have early {k : Nat} (bound : k < 3) (inside : k < m) : childNode.children[k] ≠ some lost := by
    intro found
    exact late k bound (by rw [Vector.getElem?_eq_getElem inside, found])
  refine ⟨?_, ?_, ?_⟩
  · intro member
    exact notParent (mem_of_mem_set isFull.inside (fun same => isOld (Option.some.inj same).symm) member)
  · intro member
    rw [leftHalf, if_pos isInner, Vector.mem_iff_getElem?] at member
    obtain ⟨k, found⟩ := member
    simp only [Vector.getElem?_set] at found
    split at found
    · cases found
    split at found
    · cases found
    split at found
    · cases found
    · next three four five =>
        have bound := (Vector.getElem?_eq_some_iff.mp found).1
        exact late k (by unfold m at bound; omega) found
  · intro member
    rw [rightHalf, if_pos isInner] at member
    have second := mem_of_mem_set (by decide) (early (by decide) (by decide)) member
    have third := mem_of_mem_set (by decide) (early (by decide) (by decide)) second
    exact notFresh (mem_of_mem_set (by decide) (early (by decide) (by decide)) third)

end SimpleBasicComponents.BTree
