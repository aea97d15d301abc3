import SimpleBasicComponents.Semantics.Heap

/-!
The B-tree split of `src/util/btree.c`.

Owns: the nodes, and `btree_split_child` with its two loops as the source computes
them. `btree_create_node` clears the node and gives it no arrays; here every node
has its two arrays, at their full length, and what is in those of a new node is an
argument. The tree itself is not used by a split.
-/

namespace SimpleBasicComponents.BTree

open SimpleBasicComponents.Semantics

abbrev m : Nat := 6

def degrees : Nat := m / 2

abbrev KeyType := Int

structure BtreeNode where
  keys : Vector KeyType (m - 1)
  children : Vector (Option Addr) m
  /-- An `unsigned int`. -/
  num : Nat
  leaf : Int
deriving DecidableEq, Repr

/-! ### Arrays -/

namespace BtreeNode

/-- Writing behind an array has no result. -/
def setKey (node : BtreeNode) (i : Nat) (key : KeyType) : Option BtreeNode :=
  if bound : i < m - 1 then some { node with keys := node.keys.set i key bound } else none

def setChild (node : BtreeNode) (i : Nat) (child : Option Addr) : Option BtreeNode :=
  if bound : i < m then some { node with children := node.children.set i child bound } else none

end BtreeNode

def btreeCreateNode (keys : Vector KeyType (m - 1)) (children : Vector (Option Addr) m) : BtreeNode :=
  ⟨keys, children, 0, 0⟩

/-! ### Splitting -/

/-- `new_node->keys[u32j] = child->keys[u32i]`, for the turns that are left. -/
def moveKeys (child : BtreeNode) : Nat → Nat → Nat → BtreeNode → Option BtreeNode
  | 0, _, _, newNode => some newNode
  | left + 1, u32i, u32j, newNode =>
      match child.keys[u32i]? with
      | none => none
      | some key =>
          match newNode.setKey u32j key with
          | none => none
          | some newNode => moveKeys child left (u32i + 1) (u32j + 1) newNode

/-- `new_node->children[u32i] = child->children[u32j]; child->children[u32i] = NULL`. -/
def moveChildren : Nat → Nat → Nat → BtreeNode × BtreeNode → Option (BtreeNode × BtreeNode)
  | 0, _, _, nodes => some nodes
  | left + 1, u32i, u32j, (newNode, child) =>
      match child.children[u32j]? with
      | none => none
      | some moved =>
          match newNode.setChild u32i moved, child.setChild u32i none with
          | some newNode, some child => moveChildren left (u32i + 1) (u32j + 1) (newNode, child)
          | _, _ => none

/-- The new node and what is left of the child, before the child's `num` is set. -/
def moveHalf (newNode child : BtreeNode) : Option (BtreeNode × BtreeNode) :=
  match moveKeys child (child.num - degrees) degrees 0 newNode with
  | none => none
  | some newNode =>
      if child.leaf = 0 then
        moveChildren ((child.num + 1) % 4294967296 - degrees) degrees 0 ({ newNode with leaf := 0 }, child)
      else some (newNode, child)

/-- `parent->children[parent->num++] = new_node`. -/
def appendChild (parent : BtreeNode) (newNode : Addr) : Option BtreeNode :=
  match parent.setChild parent.num (some newNode) with
  | none => none
  | some parent => some { parent with num := (parent.num + 1) % 4294967296 }

/-- `fresh` is what `btree_create_node` returns. -/
def btreeSplitChild (heap : Heap BtreeNode) (fresh : BtreeNode) (parent : Addr) (idx : Nat) :
    Option (Heap BtreeNode) := do
  let parentNode ← heap.load parent
  let child ← (← parentNode.children[idx]?)
  let childNode ← heap.load child
  let newNode := heap.length
  let heap := heap.alloc fresh
  let (newHalf, childNode) ← moveHalf fresh childNode
  let heap ← heap.store newNode newHalf
  let heap ← heap.store child childNode
  let parentNode ← heap.load parent
  let median ← childNode.keys[degrees - 1]?
  let heap ← heap.store parent (← parentNode.setKey parentNode.num median)
  let childNode ← heap.load child
  let heap ← heap.store child { childNode with num := degrees - 1 }
  let parentNode ← heap.load parent
  heap.store parent (← appendChild parentNode newNode)

end SimpleBasicComponents.BTree
