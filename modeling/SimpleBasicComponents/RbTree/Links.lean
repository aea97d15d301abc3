import SimpleBasicComponents.RbTree.Model

/-!
Trees on the heap.

Owns: when the nodes of a heap are linked to a tree, seen from one of its
subtrees, and what the assignments, `relink` and the rotations do to it. A cell
is what a node holds besides its links.
-/

namespace SimpleBasicComponents.RbTree

open SimpleBasicComponents.Semantics

structure Cell where
  addr : Addr
  color : UInt8
  key : Int32
  value : Nat
deriving DecidableEq, Repr

/-- The nodes below a pointer, as far as they are linked. -/
def readTree (T : Rbtree) : Nat → Ptr → BinTree Cell
  | 0, _ => .leaf
  | depth + 1, ptr =>
      if ptr = T.nil then .leaf
      else
        match ptr, T.load ptr with
        | some addr, some node =>
            .node (readTree T depth node.left) ⟨addr, node.color, node.key, node.value⟩
              (readTree T depth node.right)
        | _, _ => .leaf

/-- The tree as it stands in memory. -/
def Rbtree.tree (T : Rbtree) : BinTree Cell := readTree T T.turns T.root

/-- `T->nil`, which every tree has below its leaves and above its root. -/
structure Ground where
  addr : Addr
  node : RbtreeNode
  black : node.color = BLACK

theorem Ground.notRed (nil : Ground) : nil.node.color ≠ RED := by
  rw [nil.black]
  decide

/-- The address of the root of a tree. -/
def top (nil : Ground) : BinTree Cell → Addr
  | .leaf => nil.addr
  | .node _ cell _ => cell.addr

/-- The node with `near` on the side and `far` on the other. -/
def Cell.node (cell : Cell) (side : Side) (near far parent : Addr) : RbtreeNode :=
  match side with
  | .left => ⟨cell.color, some near, some far, some parent, cell.key, cell.value⟩
  | .right => ⟨cell.color, some far, some near, some parent, cell.key, cell.value⟩

section

variable (cell : Cell) (side : Side) (near far parent other : Addr)

@[simp] theorem node_child : (cell.node side near far parent).child side = some near := by
  cases side <;> rfl

@[simp] theorem node_child_other : (cell.node side near far parent).child side.other = some far := by
  cases side <;> rfl

@[simp] theorem node_color : (cell.node side near far parent).color = cell.color := by
  cases side <;> rfl

@[simp] theorem node_key : (cell.node side near far parent).key = cell.key := by
  cases side <;> rfl

@[simp] theorem node_value : (cell.node side near far parent).value = cell.value := by
  cases side <;> rfl

@[simp] theorem node_parent : (cell.node side near far parent).parent = some parent := by
  cases side <;> rfl

@[simp] theorem node_withChild :
    (cell.node side near far parent).withChild side (some other) = cell.node side other far parent := by
  cases side <;> rfl

@[simp] theorem node_withChild_other :
    (cell.node side near far parent).withChild side.other (some other) =
      cell.node side near other parent := by
  cases side <;> rfl

@[simp] theorem node_withParent :
    { cell.node side near far parent with parent := some other } = cell.node side near far other := by
  cases side <;> rfl

@[simp] theorem node_withColor (color : UInt8) :
    { cell.node side near far parent with color } = { cell with color }.node side near far parent := by
  cases side <;> rfl

@[simp] theorem node_withKey (key : Int32) :
    { cell.node side near far parent with key } = { cell with key }.node side near far parent := by
  cases side <;> rfl

@[simp] theorem node_withValue (value : Nat) :
    { cell.node side near far parent with value } = { cell with value }.node side near far parent := by
  cases side <;> rfl

theorem node_other : cell.node side.other near far parent = cell.node side far near parent := by
  cases side <;> rfl

theorem top_join (nil : Ground) (left right : BinTree Cell) :
    top nil (.join side left cell right) = cell.addr := by
  cases side <;> rfl

end

/-- What the heap holds, as a function. -/
abbrev Store := Addr → Option RbtreeNode

/-- The tree is linked, with its root below `parent`. -/
def Rep (store : Store) (nil : Ground) : Addr → BinTree Cell → Prop
  | _, .leaf => True
  | parent, .node left cell right =>
      store cell.addr = some (cell.node .left (top nil left) (top nil right) parent) ∧
        Rep store nil cell.addr left ∧ Rep store nil cell.addr right

def parentOf (nil : Ground) : Trail Cell → Addr
  | [] => nil.addr
  | frame :: _ => frame.item.addr

/-- The root of the tree whose subtree at the end of the trail is at `hole`. -/
def rootOf (hole : Addr) : Trail Cell → Addr
  | [] => hole
  | frame :: rest => rootOf frame.item.addr rest

/-- The tree is linked, but for the subtree at `hole`. -/
def RepTrail (store : Store) (nil : Ground) : Addr → Trail Cell → Prop
  | _, [] => True
  | hole, frame :: rest =>
      store frame.item.addr =
          some (frame.item.node frame.side hole (top nil frame.sibling) (parentOf nil rest)) ∧
        Rep store nil frame.item.addr frame.sibling ∧ RepTrail store nil frame.item.addr rest

/-- No two cells have one address, and none has that of `T->nil`. -/
structure Apart (nil : Ground) (cells : List Cell) : Prop where
  real : ∀ cell ∈ cells, cell.addr ≠ nil.addr
  distinct : cells.Pairwise fun one two => one.addr ≠ two.addr

/-- A tree on the heap, seen from the subtree at the end of the trail. -/
structure Shape (store : Store) (nil : Ground) (trail : Trail Cell) (tree : BinTree Cell) : Prop where
  nilNode : store nil.addr = some nil.node
  linked : Rep store nil (parentOf nil trail) tree
  linkedAbove : RepTrail store nil (top nil tree) trail
  apart : Apart nil (tree.toList ++ trail.items)

structure Focus (T : Rbtree) (nil : Ground) (trail : Trail Cell) (tree : BinTree Cell) : Prop where
  isNil : T.nil = some nil.addr
  root : T.root = some (rootOf (top nil tree) trail)
  shape : Shape T.heap.load nil trail tree

section

variable {store next : Store} {nil : Ground} {parent hole : Addr} {tree left right near far : BinTree Cell}
  {trail rest : Trail Cell} {cell : Cell} {frame : Frame Cell} {T : Rbtree}

theorem rep_join (side : Side) : Rep store nil parent (.join side near cell far) ↔
    store cell.addr = some (cell.node side (top nil near) (top nil far) parent) ∧
      Rep store nil cell.addr near ∧ Rep store nil cell.addr far := by
  cases side with
  | left => exact Iff.rfl
  | right =>
      show _ ∧ _ ∧ _ ↔ _
      rw [and_comm (a := Rep store nil cell.addr far)]
      exact Iff.rfl

theorem Rep.congr (rep : Rep store nil parent tree)
    (same : ∀ cell ∈ tree.toList, next cell.addr = store cell.addr) : Rep next nil parent tree := by
  induction tree generalizing parent with
  | leaf => trivial
  | node left cell right left_ih right_ih =>
      obtain ⟨found, repLeft, repRight⟩ := rep
      refine ⟨(same cell (by simp [BinTree.toList])).trans found, left_ih repLeft ?_, right_ih repRight ?_⟩
      · exact fun other member => same other (List.mem_append_left _ member)
      · exact fun other member => same other (List.mem_append_right _ (List.mem_cons_of_mem _ member))

theorem RepTrail.congr (rep : RepTrail store nil hole trail)
    (same : ∀ cell ∈ trail.items, next cell.addr = store cell.addr) : RepTrail next nil hole trail := by
  induction trail generalizing hole with
  | nil => trivial
  | cons frame rest inductionHypothesis =>
      obtain ⟨found, sibling, above⟩ := rep
      refine ⟨(same frame.item List.mem_cons_self).trans found, sibling.congr ?_,
        inductionHypothesis above ?_⟩
      · exact fun other member =>
          same other (List.mem_cons_of_mem _ (List.mem_append_left _ member))
      · exact fun other member =>
          same other (List.mem_cons_of_mem _ (List.mem_append_right _ member))

theorem Apart.perm {one two : List Cell} (apart : Apart nil one) (perm : one.Perm two) :
    Apart nil two where
  real cell member := apart.real cell (perm.mem_iff.mpr member)
  distinct := (perm.pairwise_iff fun different => Ne.symm different).mp apart.distinct

theorem Apart.sublist {one two : List Cell} (apart : Apart nil two) (within : one.Sublist two) :
    Apart nil one where
  real cell member := apart.real cell (within.subset member)
  distinct := apart.distinct.sublist within

/-- Only the addresses matter. -/
theorem Apart.congr {one two : List Cell} (apart : Apart nil one)
    (same : two.map Cell.addr = one.map Cell.addr) : Apart nil two where
  real := by
    have real : ∀ addr ∈ one.map Cell.addr, addr ≠ nil.addr := by
      intro addr member
      obtain ⟨cell, inOne, rfl⟩ := List.mem_map.mp member
      exact apart.real cell inOne
    rw [← same] at real
    exact fun cell member => real cell.addr (List.mem_map_of_mem member)
  distinct := by
    have distinct : (one.map Cell.addr).Pairwise (· ≠ ·) := List.pairwise_map.mpr apart.distinct
    rw [← same] at distinct
    exact List.pairwise_map.mp distinct

theorem rep_fill : Rep store nil parent (frame.fill tree) ↔
    store frame.item.addr =
        some (frame.item.node frame.side (top nil tree) (top nil frame.sibling) parent) ∧
      Rep store nil frame.item.addr tree ∧ Rep store nil frame.item.addr frame.sibling :=
  rep_join frame.side

theorem top_fill : top nil (frame.fill tree) = frame.item.addr := top_join _ _ _ _ _

/-- The view may move up and down. -/
theorem shape_cons : Shape store nil (frame :: rest) tree ↔ Shape store nil rest (frame.fill tree) := by
  have perm : (tree.toList ++ Trail.items (frame :: rest)).Perm
      ((frame.fill tree).toList ++ rest.items) := by
    have filled := (BinTree.toList_join_perm frame.side tree frame.item frame.sibling).append_right rest.items
    refine List.Perm.trans ?_ filled.symm
    exact List.perm_middle.trans (by simp)
  constructor
  · rintro ⟨nilNode, rep, ⟨found, sibling, above⟩, apart⟩
    refine ⟨nilNode, rep_fill.mpr ⟨found, rep, sibling⟩, ?_, apart.perm perm⟩
    rw [top_fill]
    exact above
  · rintro ⟨nilNode, rep, above, apart⟩
    obtain ⟨found, repTree, sibling⟩ := rep_fill.mp rep
    rw [top_fill] at above
    exact ⟨nilNode, repTree, ⟨found, sibling, above⟩, apart.perm perm.symm⟩

theorem focus_cons : Focus T nil (frame :: rest) tree ↔ Focus T nil rest (frame.fill tree) := by
  constructor
  · rintro ⟨isNil, root, shape⟩
    refine ⟨isNil, ?_, shape_cons.mp shape⟩
    rw [root, top_fill]
    rfl
  · rintro ⟨isNil, root, shape⟩
    refine ⟨isNil, ?_, shape_cons.mpr shape⟩
    rw [root, top_fill]
    rfl

/-- The view may move to the other side. -/
theorem focus_sibling : Focus T nil (frame :: rest) tree ↔
    Focus T nil (⟨frame.side.other, frame.item, tree⟩ :: rest) frame.sibling := by
  rw [focus_cons, focus_cons, Frame.fill, Frame.fill, BinTree.join_other]

theorem focus_append {inner : Trail Cell} :
    Focus T nil (inner ++ trail) tree ↔ Focus T nil trail (inner.plug tree) := by
  induction inner generalizing tree with
  | nil => exact Iff.rfl
  | cons frame rest inductionHypothesis => exact focus_cons.trans inductionHypothesis

theorem focus_plug : Focus T nil trail tree ↔ Focus T nil [] (trail.plug tree) := by
  have atTop := @focus_append nil tree [] T trail
  rwa [List.append_nil] at atTop

/-- Nothing outside the tree matters. -/
theorem Focus.congr {other : Rbtree} (focus : Focus T nil trail tree) (sameRoot : other.root = T.root)
    (sameNil : other.nil = T.nil) (keepsNil : other.heap.load nil.addr = T.heap.load nil.addr)
    (keeps : ∀ cell ∈ tree.toList ++ trail.items, other.heap.load cell.addr = T.heap.load cell.addr) :
    Focus other nil trail tree := by
  obtain ⟨isNil, root, nilNode, linked, above, apart⟩ := focus
  refine ⟨sameNil.trans isNil, sameRoot.trans root, keepsNil.trans nilNode, linked.congr ?_,
    above.congr ?_, apart⟩
  · exact fun cell member => keeps cell (List.mem_append_left _ member)
  · exact fun cell member => keeps cell (List.mem_append_right _ member)

/-- The cells in view, the one at the root of the subtree first. -/
theorem Shape.apart_join {side : Side} (shape : Shape store nil trail (.join side near cell far)) :
    Apart nil (cell :: (near.toList ++ far.toList ++ trail.items)) :=
  shape.apart.perm ((BinTree.toList_join_perm side near cell far).append_right trail.items)

theorem Shape.load_join {side : Side} (shape : Shape store nil trail (.join side near cell far)) :
    store cell.addr = some (cell.node side (top nil near) (top nil far) (parentOf nil trail)) :=
  ((rep_join side).mp shape.linked).1

/-- A node other than the links of which is overwritten. -/
theorem Shape.setCell {side : Side} {new : Cell} (shape : Shape store nil trail (.join side near cell far))
    (same : new.addr = cell.addr) :
    Shape (Function.update store cell.addr
        (some (new.node side (top nil near) (top nil far) (parentOf nil trail))))
      nil trail (.join side near new far) := by
  have apart := shape.apart_join
  have others := (List.pairwise_cons.mp apart.distinct).1
  have elsewhere : ∀ other ∈ near.toList ++ far.toList ++ trail.items, Function.update store cell.addr
      (some (new.node side (top nil near) (top nil far) (parentOf nil trail))) other.addr =
        store other.addr := by
    intro other member
    rw [Function.update_of_ne (Ne.symm (others other member))]
  obtain ⟨-, repNear, repFar⟩ := (rep_join side).mp shape.linked
  have above := shape.linkedAbove
  rw [top_join] at above
  refine ⟨?_, (rep_join side).mpr ⟨?_, ?_, ?_⟩, ?_, ?_⟩
  · rw [Function.update_of_ne (apart.real cell List.mem_cons_self).symm]
    exact shape.nilNode
  · rw [same, Function.update_self]
  · rw [same]
    exact repNear.congr fun other member => elsewhere other (by simp [member])
  · rw [same]
    exact repFar.congr fun other member => elsewhere other (by simp [member])
  · rw [top_join, same]
    exact above.congr fun other member => elsewhere other (by simp [member])
  · have perm := (BinTree.toList_join_perm side near new far).append_right trail.items
    refine Apart.perm (apart.congr ?_) perm.symm
    simp [same]

theorem shape_append {inner : Trail Cell} :
    Shape store nil (inner ++ trail) tree ↔ Shape store nil trail (inner.plug tree) := by
  induction inner generalizing tree with
  | nil => exact Iff.rfl
  | cons frame rest inductionHypothesis => exact shape_cons.trans inductionHypothesis

theorem top_plug {one two : BinTree Cell} (same : top nil one = top nil two) (trail : Trail Cell) :
    top nil (trail.plug one) = top nil (trail.plug two) := by
  induction trail generalizing one two with
  | nil => exact same
  | cons frame rest inductionHypothesis =>
      exact inductionHypothesis (by rw [top_fill, top_fill])

/-- The root is the topmost node passed. -/
theorem rootOf_mem (hole : Addr) (frame : Frame Cell) (rest : Trail Cell) :
    ∃ item ∈ Trail.items (frame :: rest), item.addr = rootOf hole (frame :: rest) := by
  induction rest generalizing hole frame with
  | nil => exact ⟨frame.item, List.mem_cons_self, rfl⟩
  | cons above rest inductionHypothesis =>
      obtain ⟨item, member, isRoot⟩ := inductionHypothesis frame.item.addr above
      exact ⟨item, List.mem_cons_of_mem _ (List.mem_append_right _ member), isRoot⟩

/-- The frame with another item. -/
def withItem (frame : Frame Cell) (item : Cell) : Frame Cell := { frame with item }

theorem Shape.load_frame {inner : Trail Cell} (shape : Shape store nil (inner ++ frame :: trail) tree) :
    store frame.item.addr = some (frame.item.node frame.side (top nil (inner.plug tree))
      (top nil frame.sibling) (parentOf nil trail)) :=
  (shape_cons.mp (shape_append.mp shape)).load_join

theorem Shape.setFrame {inner : Trail Cell} {new : Cell}
    (shape : Shape store nil (inner ++ frame :: trail) tree) (same : new.addr = frame.item.addr) :
    Shape (Function.update store frame.item.addr (some (new.node frame.side (top nil (inner.plug tree))
        (top nil frame.sibling) (parentOf nil trail))))
      nil (inner ++ withItem frame new :: trail) tree :=
  shape_append.mpr (shape_cons.mpr ((shape_cons.mp (shape_append.mp shape)).setCell same))

theorem Shape.frame_ne {inner : Trail Cell} {side : Side}
    (shape : Shape store nil (inner ++ frame :: trail) (.join side near cell far)) :
    cell.addr ≠ frame.item.addr := by
  have others := (List.pairwise_cons.mp shape.apart_join.distinct).1
  apply others
  simp [Trail.items_append, Trail.items]

/-- The cell in view and one above it are overwritten. -/
theorem Shape.setTwo {inner : Trail Cell} {side : Side} {below above : Cell}
    (shape : Shape store nil (inner ++ frame :: trail) (.join side near cell far))
    (sameBelow : below.addr = cell.addr) (sameAbove : above.addr = frame.item.addr) :
    Shape (Function.update
        (Function.update store cell.addr (some (below.node side (top nil near) (top nil far)
          (parentOf nil (inner ++ frame :: trail)))))
        frame.item.addr (some (above.node frame.side (top nil (inner.plug (.join side near cell far)))
          (top nil frame.sibling) (parentOf nil trail))))
      nil (inner ++ withItem frame above :: trail) (.join side near below far) := by
  have first := shape.setCell sameBelow
  have second := first.setFrame sameAbove
  rw [top_plug (show top nil (.join side near below far) = top nil (.join side near cell far) by
    rw [top_join, top_join, sameBelow])] at second
  exact second

end

end SimpleBasicComponents.RbTree
