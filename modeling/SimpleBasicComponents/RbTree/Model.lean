import SimpleBasicComponents.Semantics.BinaryTree
import SimpleBasicComponents.Semantics.Heap
import SimpleBasicComponents.Semantics.Loop
import SimpleBasicComponents.Semantics.Machine

/-!
The red-black tree of `util/rbtree.{h,c}`.

Owns: the nodes on the heap, `rbtree_create`, `rbtree_find`, `rbtree_insert`,
`rbtree_delete` and `rbtree_free` with what they call, as the source computes
them, and a machine whose labels are the insertions and deletions. A pointer is
`none` if it is null; following it then is a fault, as is following one to a
freed node.

The source writes each rotation and each branch of the two fix-ups twice, with
left and right exchanged; here they are one definition with the side as a
parameter. The nodes of `rbtree_insert` come from its caller: `rb_node_create`,
which forgets to return what it made, is no part of the interface.
-/

namespace SimpleBasicComponents.RbTree

open SimpleBasicComponents.Semantics

abbrev Ptr := Option Addr

def RED : UInt8 := 0

def BLACK : UInt8 := 1

structure RbtreeNode where
  color : UInt8
  left : Ptr
  right : Ptr
  parent : Ptr
  key : Int32
  value : Nat
deriving DecidableEq, Repr

structure Rbtree where
  heap : Heap RbtreeNode
  root : Ptr
  nil : Ptr
deriving DecidableEq, Repr

def RbtreeNode.child (node : RbtreeNode) : Side → Ptr
  | .left => node.left
  | .right => node.right

def RbtreeNode.withChild (node : RbtreeNode) (side : Side) (ptr : Ptr) : RbtreeNode :=
  match side with
  | .left => { node with left := ptr }
  | .right => { node with right := ptr }

namespace Rbtree

def load (T : Rbtree) (ptr : Ptr) : Option RbtreeNode := ptr.bind T.heap.load

/-- Assign to fields of `*ptr`. -/
def assign (T : Rbtree) (ptr : Ptr) (fields : RbtreeNode → RbtreeNode) : Option Rbtree := do
  let addr ← ptr
  let node ← T.heap.load addr
  let heap ← T.heap.store addr (fields node)
  return { T with heap }

def setColor (T : Rbtree) (ptr : Ptr) (color : UInt8) : Option Rbtree :=
  T.assign ptr fun node => { node with color }

def setParent (T : Rbtree) (ptr parent : Ptr) : Option Rbtree :=
  T.assign ptr fun node => { node with parent }

def setChild (T : Rbtree) (ptr : Ptr) (side : Side) (child : Ptr) : Option Rbtree :=
  T.assign ptr fun node => node.withChild side child

def free (T : Rbtree) (ptr : Ptr) : Option Rbtree := do
  let addr ← ptr
  let heap ← T.heap.free addr
  return { T with heap }

/-- More than any loop of the source takes on a tree. -/
def turns (T : Rbtree) : Nat := T.heap.length + 1

end Rbtree

/-- What `swap` is used on. -/
structure Field (α : Type) where
  get : RbtreeNode → α
  set : RbtreeNode → α → RbtreeNode

def colorField : Field UInt8 := ⟨fun node => node.color, fun node color => { node with color }⟩

def keyField : Field Int32 := ⟨fun node => node.key, fun node key => { node with key }⟩

/-- One of the three assignments `x = a ^ b` of `swap`. -/
def xorAssign {α : Type} [XorOp α] (field : Field α) (T : Rbtree) (x a b : Ptr) : Option Rbtree := do
  let left ← T.load a
  let right ← T.load b
  T.assign x fun node => field.set node (field.get left ^^^ field.get right)

def swap {α : Type} [XorOp α] (field : Field α) (T : Rbtree) (a b : Ptr) : Option Rbtree := do
  let T ← xorAssign field T a a b
  let T ← xorAssign field T b a b
  xorAssign field T a a b

def swapColor (T : Rbtree) (a b : Ptr) : Option Rbtree := swap colorField T a b

def swapKey (T : Rbtree) (a b : Ptr) : Option Rbtree := swap keyField T a b

/-! ### Links -/

/-- `if (child != T->nil) child->parent = parent`. -/
def adopt (T : Rbtree) (child parent : Ptr) : Option Rbtree :=
  if child ≠ T.nil then T.setParent child parent else some T

/-- Let what points down to `node`, in `parent` or in `T`, point to `child`. -/
def relink (T : Rbtree) (side : Side) (node parent child : Ptr) : Option Rbtree :=
  if parent = T.nil then some { T with root := child }
  else do
    let above ← T.load parent
    if node = above.child side then T.setChild parent side child
    else T.setChild parent side.other child

def logicDelete (T : Rbtree) (node child : Ptr) : Option (Rbtree × Int) :=
  if node = none ∨ node = T.nil then some (T, -1)
  else if child = none then some (T, -1)
  else do
    let doomed ← T.load node
    let T ← adopt T child doomed.parent
    let T ← relink T .left node doomed.parent child
    return (T, 0)

/-- The links of a rotation: `child` comes up, `parent` goes down to the side. -/
def rotateLinks (T : Rbtree) (side : Side) (parent child : Ptr) : Option Rbtree := do
  let below ← T.load child
  let T ← T.setChild parent side.other (below.child side)
  let T ← adopt T (below.child side) parent
  let above ← T.load parent
  let T ← T.setParent child above.parent
  let T ← relink T side parent above.parent child
  let T ← T.setChild child side parent
  T.setParent parent child

def rotate (T : Rbtree) (side : Side) (parent : Ptr) : Option Rbtree := do
  let above ← T.load parent
  let T ← swapColor T (above.child side.other) parent
  rotateLinks T side parent (above.child side.other)

def leftRotate (T : Rbtree) (parent : Ptr) : Option Rbtree := rotate T .left parent

def rightRotate (T : Rbtree) (parent : Ptr) : Option Rbtree := rotate T .right parent

/-! ### Search -/

/-- The state is `node`. -/
def findTurn (T : Rbtree) (key : Int32) (node : Ptr) : Option (Turn Ptr Ptr) :=
  if node = T.nil then some (.leave node)
  else do
    let here ← T.load node
    if here.key = key then return .leave node
    else if here.key < key then return .again here.right
    else if key < here.key then return .again here.left
    else return .again node

def rbtreeFind (T : Rbtree) (key : Int32) : Option Ptr :=
  if T.root = T.nil then some none
  else do
    let node ← loop (fun node => .orFault (findTurn T key node)) T.turns T.root
    return if node = T.nil then none else node

/-- The state is `node`. -/
def leftmostTurn (T : Rbtree) (node : Ptr) : Option (Turn Ptr Ptr) := do
  let here ← T.load node
  if here.left ≠ T.nil then return .again here.left else return .leave node

/-- The state is `node` and `parent`. -/
def climbTurn (T : Rbtree) : Ptr × Ptr → Option (Turn (Ptr × Ptr) Ptr)
  | (node, parent) => do
      let above ← T.load parent
      if node ≠ above.left ∧ parent ≠ T.nil then return .again (parent, above.parent)
      else return .leave parent

def findSuccessor (T : Rbtree) (node : Ptr) : Option Ptr :=
  if node = none then some none
  else do
    let here ← T.load node
    if here.right ≠ T.nil then
      loop (fun node => .orFault (leftmostTurn T node)) T.turns here.right
    else
      let parent ← loop (fun state => .orFault (climbTurn T state)) T.turns (node, here.parent)
      return if parent = T.nil then none else parent

/-! ### Insertion -/

/-- The branch for a `parent` that is the child of `pparent` on the side. -/
def insertFixupSide (T : Rbtree) (side : Side) (node parent pparent : Ptr) :
    Option (Turn (Rbtree × Ptr) Rbtree) := do
  let grand ← T.load pparent
  let uncle := grand.child side.other
  let uncleNode ← T.load uncle
  if uncleNode.color = RED then
    let T ← swapColor T parent pparent
    let parentNode ← T.load parent
    let T ← T.setColor uncle parentNode.color
    return .again (T, pparent)
  else
    let parentNode ← T.load parent
    if node = parentNode.child side.other then
      let T ← rotate T side parent
      let T ← rotate T side.other pparent
      return .again (T, parent)
    else
      let T ← rotate T side.other pparent
      return .again (T, node)

/-- The state is the tree and `node`. -/
def insertFixupTurn : Rbtree × Ptr → Option (Turn (Rbtree × Ptr) Rbtree)
  | (T, node) => do
      let here ← T.load node
      let parentNode ← T.load here.parent
      if parentNode.color = RED then
        let grand ← T.load parentNode.parent
        if here.parent = grand.left then insertFixupSide T .left node here.parent parentNode.parent
        else insertFixupSide T .right node here.parent parentNode.parent
      else return .leave T

def insertFixup (T : Rbtree) (node : Ptr) : Option Rbtree := do
  let here ← T.load node
  let parentNode ← T.load here.parent
  if parentNode.color = BLACK then return T
  else
    let T ← loop (fun state => .orFault (insertFixupTurn state)) T.turns (T, node)
    T.setColor T.root BLACK

/-- The state is `tmp` and `parent`; the result is `parent`, or nothing if the
key is there. -/
def insertTurn (T : Rbtree) (key : Int32) : Ptr × Ptr → Option (Turn (Ptr × Ptr) (Option Ptr))
  | (tmp, parent) =>
      if tmp = T.nil then some (.leave (some parent))
      else do
        let here ← T.load tmp
        if key < here.key then return .again (here.left, tmp)
        else if here.key < key then return .again (here.right, tmp)
        else return .leave none

def rbNodeInit (T : Rbtree) (node parent : Ptr) : Option Rbtree :=
  T.assign node fun fresh => { fresh with parent, left := T.nil, right := T.nil, color := RED }

/-- Let `parent`, or `T` if there is none, point to the new node. -/
def linkNew (T : Rbtree) (key : Int32) (newNode parent : Ptr) : Option Rbtree :=
  if parent = T.nil then ({ T with root := newNode } : Rbtree).setColor newNode BLACK
  else do
    let above ← T.load parent
    if key < above.key then T.setChild parent .left newNode else T.setChild parent .right newNode

def rbtreeInsert (T : Rbtree) (newNode : Ptr) : Option Rbtree := do
  let fresh ← T.load newNode
  let found ← loop (fun state => .orFault (insertTurn T fresh.key state)) T.turns (T.root, T.nil)
  match found with
  | none => return T
  | some parent =>
      let T ← rbNodeInit T newNode parent
      let T ← linkNew T fresh.key newNode parent
      insertFixup T newNode

/-! ### Deletion -/

/-- The branch for a `node` that is the child of `parent` on the side. -/
def deleteFixupSide (T : Rbtree) (side : Side) (node parent : Ptr) :
    Option (Turn (Rbtree × Ptr) Rbtree) := do
  let above ← T.load parent
  let brother := above.child side.other
  let beside ← T.load brother
  if beside.color = RED then
    let T ← rotate T side parent
    return .again (T, node)
  else if beside.child side.other ≠ T.nil then
    let T ← T.setColor (beside.child side.other) BLACK
    let T ← rotate T side parent
    return .leave T
  else if beside.child side ≠ T.nil then
    let T ← T.setColor (beside.child side) BLACK
    let T ← rotate T side.other brother
    let T ← rotate T side parent
    return .leave T
  else if above.color = RED then
    let T ← swapColor T parent brother
    return .leave T
  else
    let T ← T.setColor brother RED
    return .again (T, parent)

/-- The state is the tree and `node`. -/
def deleteFixupTurn : Rbtree × Ptr → Option (Turn (Rbtree × Ptr) Rbtree)
  | (T, node) => do
      let here ← T.load node
      if here.left ≠ T.nil ∧ here.right = T.nil then
        let T ← T.setColor here.left BLACK
        return .leave T
      else if here.left = T.nil ∧ here.right ≠ T.nil then
        let T ← T.setColor here.right BLACK
        return .leave T
      else if here.color = RED then return .leave T
      else if T.root = node then return .leave { T with root := T.nil }
      else
        let above ← T.load here.parent
        if node = above.left then deleteFixupSide T .left node here.parent
        else if node = above.right then deleteFixupSide T .right node here.parent
        else return .leave T

def deleteFixup (T : Rbtree) (node : Ptr) : Option Rbtree :=
  if node = none ∨ node = T.nil then some T
  else loop (fun state => .orFault (deleteFixupTurn state)) T.turns (T, node)

/-- Exchange the keys and the values. -/
def swapEntry (T : Rbtree) (successor node : Ptr) : Option Rbtree := do
  let T ← swapKey T successor node
  let there ← T.load successor
  let here ← T.load node
  let T ← T.assign successor fun other => { other with value := here.value }
  T.assign node fun other => { other with value := there.value }

/-- The state is the tree and `node`. -/
def deleteTurn : Rbtree × Ptr → Option (Turn (Rbtree × Ptr) Rbtree)
  | (T, node) => do
      let here ← T.load node
      if here.left = T.nil ∧ here.right = T.nil then
        let T ← deleteFixup T node
        let doomed ← T.load node
        let (T, _) ← logicDelete T node doomed.left
        let T ← T.free node
        return .leave T
      else if here.left ≠ T.nil ∧ here.right = T.nil then
        let T ← deleteFixup T node
        let (T, _) ← logicDelete T node here.left
        let T ← T.free node
        return .leave T
      else if here.left = T.nil ∧ here.right ≠ T.nil then
        let T ← deleteFixup T node
        let (T, _) ← logicDelete T node here.right
        let T ← T.free node
        return .leave T
      else
        let successor ← findSuccessor T node
        let T ← swapEntry T successor node
        return .again (T, successor)

/-- The tree and the return value. -/
def rbtreeDelete (T : Rbtree) (key : Int32) : Option (Rbtree × Int) := do
  let node ← rbtreeFind T key
  if node = none then return (T, -1)
  else
    let T ← loop (fun state => .orFault (deleteTurn state)) T.turns (T, node)
    return (T, 0)

/-! ### Release -/

def rbtreeIsEmpty (T : Rbtree) : Bool := T.root = T.nil

/-- The state is the tree. -/
def freeTurn (T : Rbtree) : Option (Turn Rbtree Rbtree) :=
  if rbtreeIsEmpty T then some (.leave T)
  else do
    let root ← T.load T.root
    let (T, _) ← rbtreeDelete T root.key
    return .again T

def rbtreeFree (T : Rbtree) : Option Rbtree := do
  let T ← loop (fun T => .orFault (freeTurn T)) T.turns T
  let T ← T.free T.nil
  return { T with root := none, nil := none }

/-! ### Calls -/

/-- The node at address 0 is `T->nil`. -/
def rbtreeCreate : Rbtree :=
  { heap := [some ⟨BLACK, none, none, some 0, 0, 0⟩], root := some 0, nil := some 0 }

/-- `insert` is a call of `rbtree_insert` with a fresh node. -/
inductive Call where
  | insert (key : Int32) (value : Nat)
  | delete (key : Int32)
deriving DecidableEq, Repr

inductive Event where
  | inserted (key : Int32) (value : Nat)
  | deleted (key : Int32) (result : Int)
deriving DecidableEq, Repr

def step (T : Rbtree) : Call → Option (Rbtree × List Event)
  | .insert key value => do
      let fresh : RbtreeNode := { color := 0, left := none, right := none, parent := none, key, value }
      let T ← rbtreeInsert { T with heap := T.heap.alloc fresh } (some T.heap.length)
      return (T, [.inserted key value])
  | .delete key => do
      let (T, result) ← rbtreeDelete T key
      return (T, [.deleted key result])

def machine : Machine Rbtree Call Event where
  start := rbtreeCreate
  step := step

end SimpleBasicComponents.RbTree
