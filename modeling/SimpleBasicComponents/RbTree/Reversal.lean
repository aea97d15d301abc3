import SimpleBasicComponents.RbTree.Rotation
import SimpleBasicComponents.RbTree.Storage

/-!
What a rotation changes, and that it can be taken back.

Owns: that a linked tree determines what its nodes hold, the exact frame of a
rotation, and the theorem that the rotation the other way restores the memory cell
by cell.
-/

namespace SimpleBasicComponents.RbTree

open SimpleBasicComponents.Semantics

section

variable {store other : Store} {nil : Ground} {T next : Rbtree} {parent hole lower : Addr} {side : Side}
  {tree : BinTree Cell} {trail : Trail Cell}

/-! ### What a tree determines -/

theorem Rep.same (one : Rep store nil parent tree) (two : Rep other nil parent tree) :
    ∀ cell ∈ tree.toList, other cell.addr = store cell.addr := by
  induction tree generalizing parent with
  | leaf => exact fun cell member => absurd member List.not_mem_nil
  | node left item right left_ih right_ih =>
      obtain ⟨here, repLeft, repRight⟩ := one
      obtain ⟨hereOther, repLeftOther, repRightOther⟩ := two
      intro cell member
      rw [BinTree.toList, List.mem_append, List.mem_cons] at member
      rcases member with inLeft | rfl | inRight
      · exact left_ih repLeft repLeftOther cell inLeft
      · exact hereOther.trans here.symm
      · exact right_ih repRight repRightOther cell inRight

/-- Below another parent only the root differs. -/
theorem Rep.same_below (one : Rep store nil parent tree) (two : Rep other nil lower tree) :
    ∀ cell ∈ tree.toList, cell.addr ≠ top nil tree → other cell.addr = store cell.addr := by
  cases tree with
  | leaf => exact fun cell member => absurd member List.not_mem_nil
  | node left item right =>
      intro cell member notTop
      rw [BinTree.toList, List.mem_append, List.mem_cons] at member
      rcases member with inLeft | rfl | inRight
      · exact one.2.1.same two.2.1 cell inLeft
      · exact absurd rfl notTop
      · exact one.2.2.same two.2.2 cell inRight

theorem RepTrail.same (one : RepTrail store nil hole trail) (two : RepTrail other nil hole trail) :
    ∀ cell ∈ trail.items, other cell.addr = store cell.addr := by
  induction trail generalizing hole with
  | nil => exact fun cell member => absurd member List.not_mem_nil
  | cons frame rest inductionHypothesis =>
      obtain ⟨here, sibling, above⟩ := one
      obtain ⟨hereOther, siblingOther, aboveOther⟩ := two
      intro cell member
      rw [Trail.items, List.mem_cons, List.mem_append] at member
      rcases member with rfl | beside | further
      · exact hereOther.trans here.symm
      · exact sibling.same siblingOther cell beside
      · exact inductionHypothesis above aboveOther cell further

/-- Above another subtree only the lowest node differs. -/
theorem RepTrail.same_above (one : RepTrail store nil hole trail) (two : RepTrail other nil lower trail) :
    ∀ cell ∈ trail.items, cell.addr ≠ parentOf nil trail → other cell.addr = store cell.addr := by
  cases trail with
  | nil => exact fun cell member => absurd member List.not_mem_nil
  | cons frame rest =>
      intro cell member notLowest
      rw [Trail.items, List.mem_cons, List.mem_append] at member
      rcases member with rfl | beside | further
      · exact absurd rfl notLowest
      · exact one.2.1.same two.2.1 cell beside
      · exact one.2.2.same two.2.2 cell further

/-- One tree in two memories: all its nodes are the same. -/
theorem Focus.same (one : Focus T nil trail tree) (two : Focus next nil trail tree) {addr : Addr}
    (inTree : addr = nil.addr ∨ ∃ cell ∈ tree.toList ++ trail.items, cell.addr = addr) :
    next.heap.load addr = T.heap.load addr := by
  rcases inTree with rfl | ⟨cell, member, rfl⟩
  · exact two.shape.nilNode.trans one.shape.nilNode.symm
  · cases List.mem_append.mp member with
    | inl within => exact one.shape.linked.same two.shape.linked cell within
    | inr above => exact one.shape.linkedAbove.same two.shape.linkedAbove cell above

/-- Memories of one size that hold the same are the same. -/
theorem heap_ext {one two : Heap RbtreeNode} (length : one.length = two.length) (load : one.load = two.load) :
    one = two := by
  apply List.ext_getElem length
  intro addr inOne inTwo
  have loads := congrFun load addr
  unfold Heap.load at loads
  rw [List.getElem?_eq_getElem inOne, List.getElem?_eq_getElem inTwo] at loads
  exact loads

theorem rbtree_ext {one two : Rbtree} (heap : one.heap = two.heap) (root : one.root = two.root)
    (ground : one.nil = two.nil) : one = two := by
  obtain ⟨oneHeap, oneRoot, oneNil⟩ := one
  obtain ⟨twoHeap, twoRoot, twoNil⟩ := two
  obtain rfl : oneHeap = twoHeap := heap
  obtain rfl : oneRoot = twoRoot := root
  obtain rfl : oneNil = twoNil := ground
  rfl

/-! ### Rotations -/

/-- What `rotate` does at `x`, whose child on the other side is `y`. -/
structure Rotated (T next : Rbtree) (nil : Ground) (side : Side) (trail : Trail Cell) (x y : Cell)
    (A M C : BinTree Cell) : Prop where
  linked : Focus next nil trail
    (.join side (.join side A { x with color := y.color } M) { y with color := x.color } C)
  order : records (trail.plug (.join side (.join side A { x with color := y.color } M) { y with color := x.color } C)) =
    records (trail.plug (.join side A x (.join side M y C)))
  elsewhere : ∀ addr, addr ≠ x.addr → addr ≠ y.addr → addr ≠ top nil M → addr ≠ parentOf nil trail →
    next.heap.load addr = T.heap.load addr
  colors : ∀ addr, addr ≠ x.addr → addr ≠ y.addr →
    (next.heap.load addr).map RbtreeNode.color = (T.heap.load addr).map RbtreeNode.color
  ground : next.nil = T.nil ∧ next.heap.load nil.addr = T.heap.load nil.addr
  root : trail ≠ [] → next.root = T.root
  restored : rotate next side.other (some y.addr) = some T

/-- The tree around the two nodes of a rotation, taken apart. -/
private structure Parts (store : Store) (nil : Ground) (trail : Trail Cell) (root holder : Addr) (M : BinTree Cell) :
    Prop where
  nilNode : store nil.addr = some nil.node
  middle : Rep store nil holder M
  above : RepTrail store nil root trail

variable {x y : Cell} {A M C : BinTree Cell}

private theorem Focus.parts (focus : Focus T nil trail (.join side A x (.join side M y C))) :
    Parts T.heap.load nil trail x.addr y.addr M := by
  have above := focus.shape.linkedAbove
  rw [top_join] at above
  have lower := ((rep_join side).mp focus.shape.linked).2.2
  exact ⟨focus.shape.nilNode, ((rep_join side).mp lower).2.1, above⟩

private theorem Focus.partsAfter (focus : Focus next nil trail (.join side (.join side A x M) y C)) :
    Parts next.heap.load nil trail y.addr x.addr M := by
  have above := focus.shape.linkedAbove
  rw [top_join] at above
  have lower := ((rep_join side).mp focus.shape.linked).2.1
  exact ⟨focus.shape.nilNode, ((rep_join side).mp lower).2.2, above⟩

private theorem Parts.elsewhere {root holder : Addr} (before : Parts store nil trail root holder M)
    (after : Parts other nil trail hole lower M)
    (kept : ∀ addr, addr ≠ root → addr ≠ hole → (∀ cell ∈ M.toList, cell.addr ≠ addr) →
      (∀ cell ∈ trail.items, cell.addr ≠ addr) → other addr = store addr)
    {addr : Addr} (notRoot : addr ≠ root) (notHole : addr ≠ hole) (notTop : addr ≠ top nil M)
    (notLowest : addr ≠ parentOf nil trail) : other addr = store addr := by
  by_cases between : ∃ cell ∈ M.toList, cell.addr = addr
  · obtain ⟨cell, member, rfl⟩ := between
    exact before.middle.same_below after.middle cell member notTop
  · by_cases isAbove : ∃ cell ∈ trail.items, cell.addr = addr
    · obtain ⟨cell, member, rfl⟩ := isAbove
      exact before.above.same_above after.above cell member notLowest
    · exact kept addr notRoot notHole (fun cell member same => between ⟨cell, member, same⟩)
        fun cell member same => isAbove ⟨cell, member, same⟩

/-- The root of the middle tree and the node above keep their colours. -/
private theorem Parts.colors {root holder addr : Addr} (before : Parts store nil trail root holder M)
    (after : Parts other nil trail hole lower M) (touched : addr = top nil M ∨ addr = parentOf nil trail) :
    (other addr).map RbtreeNode.color = (store addr).map RbtreeNode.color := by
  rcases touched with rfl | rfl
  · cases M with
    | leaf =>
        change (other nil.addr).map _ = (store nil.addr).map _
        rw [before.nilNode, after.nilNode]
    | node left cell right =>
        change (other cell.addr).map _ = (store cell.addr).map _
        rw [before.middle.1, after.middle.1]
        rfl
  · cases trail with
    | nil =>
        change (other nil.addr).map _ = (store nil.addr).map _
        rw [before.nilNode, after.nilNode]
    | cons frame rest =>
        change (other frame.item.addr).map _ = (store frame.item.addr).map _
        rw [before.above.1, after.above.1, Option.map_some, Option.map_some, node_color, node_color]

/-- Rotated this way and that way, a node comes to hold what it held. -/
private theorem restored (focus : Focus T nil trail (.join side A x (.join side M y C)))
    (rotates : rotate T side (some x.addr) = some next)
    (after : Focus next nil trail
      (.join side (.join side A { x with color := y.color } M) { y with color := x.color } C))
    (kept : ∀ addr, addr ≠ x.addr → addr ≠ y.addr → (∀ cell ∈ M.toList, cell.addr ≠ addr) →
      (∀ cell ∈ trail.items, cell.addr ≠ addr) → next.heap.load addr = T.heap.load addr) :
    rotate next side.other (some y.addr) = some T := by
  have turned : Focus next nil trail (.join side.other C { y with color := x.color }
      (.join side.other M { x with color := y.color } A)) := by
    rw [BinTree.join_other, BinTree.join_other]
    exact after
  obtain ⟨last, rotatesBack, focusLast, keptLast⟩ := rotate_kept turned
  rw [BinTree.join_other, BinTree.join_other] at focusLast
  have sameCells : Focus last nil trail (.join side A x (.join side M y C)) := focusLast
  have length : last.heap.length = T.heap.length := by
    have first := (rotate_keeps (Keeps.refl T) next rotates).length
    exact ((rotate_keeps (Keeps.refl next) last rotatesBack).length).trans first
  have load : last.heap.load = T.heap.load := by
    funext addr
    by_cases inTree : addr = nil.addr ∨
        ∃ cell ∈ (BinTree.join side A x (.join side M y C)).toList ++ trail.items, cell.addr = addr
    · exact focus.same sameCells inTree
    · rw [not_or, not_exists] at inTree
      have outside (cell : Cell)
          (member : cell ∈ (BinTree.join side A x (.join side M y C)).toList ++ trail.items) : cell.addr ≠ addr :=
        fun same => inTree.2 cell ⟨member, same⟩
      have perm := BinTree.toList_join_perm side A x (.join side M y C)
      have lower := BinTree.toList_join_perm side M y C
      have notX : addr ≠ x.addr := by
        apply Ne.symm
        apply outside
        simp [perm.mem_iff]
      have notY : addr ≠ y.addr := by
        apply Ne.symm
        apply outside
        simp [perm.mem_iff, lower.mem_iff]
      have notBetween : ∀ cell ∈ M.toList, cell.addr ≠ addr := by
        intro cell member
        apply outside
        simp [perm.mem_iff, lower.mem_iff, member]
      have notAbove : ∀ cell ∈ trail.items, cell.addr ≠ addr := by
        intro cell member
        exact outside cell (List.mem_append_right _ member)
      rw [keptLast addr notY notX notBetween notAbove, kept addr notX notY notBetween notAbove]
  have sameNil : last.nil = T.nil := sameCells.isNil.trans focus.isNil.symm
  have sameRoot : last.root = T.root := sameCells.root.trans focus.root.symm
  rw [rotatesBack]
  exact congrArg some (rbtree_ext (heap_ext length load) sameRoot sameNil)

/-- A rotation of any node with a child to come up, wherever it stands in the tree. -/
theorem rotate_rotated (focus : Focus T nil trail (.join side A x (.join side M y C))) :
    ∃ next, rotate T side (some x.addr) = some next ∧ Rotated T next nil side trail x y A M C := by
  obtain ⟨next, rotates, after, kept⟩ := rotate_kept focus
  have before := focus.parts
  have afterParts := after.partsAfter
  have elsewhere : ∀ addr, addr ≠ x.addr → addr ≠ y.addr → addr ≠ top nil M → addr ≠ parentOf nil trail →
      next.heap.load addr = T.heap.load addr :=
    fun addr notX notY notTop notLowest => before.elsewhere afterParts kept notX notY notTop notLowest
  refine ⟨next, rotates, after, ?_, elsewhere, ?_, ?_, ?_, restored focus rotates after kept⟩
  · have lower : records (.join side (.join side A { x with color := y.color } M) { y with color := x.color } C) =
        records (.join side A x (.join side M y C)) := records_rotate rfl rfl
    exact records_plug_congr lower trail
  · intro addr notX notY
    by_cases touched : addr = top nil M ∨ addr = parentOf nil trail
    · exact before.colors afterParts touched
    · rw [not_or] at touched
      rw [elsewhere addr notX notY touched.1 touched.2]
  · exact ⟨after.isNil.trans focus.isNil.symm, afterParts.nilNode.trans before.nilNode.symm⟩
  · intro below
    obtain ⟨frame, rest, rfl⟩ := List.exists_cons_of_ne_nil below
    exact after.root.trans focus.root.symm

/-- A root with a right child, and `T->nil` at 0. -/
theorem twoNodes_rotated : ∃ next,
    rotate ⟨[some ⟨BLACK, none, none, some 0, 0, 0⟩, some ⟨BLACK, some 0, some 2, some 0, 5, 0⟩,
        some ⟨RED, some 0, some 0, some 1, 7, 0⟩], some 1, some 0⟩ .left (some 1) = some next ∧
      Rotated ⟨[some ⟨BLACK, none, none, some 0, 0, 0⟩, some ⟨BLACK, some 0, some 2, some 0, 5, 0⟩,
          some ⟨RED, some 0, some 0, some 1, 7, 0⟩], some 1, some 0⟩ next
        ⟨0, ⟨BLACK, none, none, some 0, 0, 0⟩, rfl⟩ .left [] ⟨1, BLACK, 5, 0⟩ ⟨2, RED, 7, 0⟩ .leaf .leaf .leaf := by
  have focus : Focus ⟨[some ⟨BLACK, none, none, some 0, 0, 0⟩, some ⟨BLACK, some 0, some 2, some 0, 5, 0⟩,
      some ⟨RED, some 0, some 0, some 1, 7, 0⟩], some 1, some 0⟩ ⟨0, ⟨BLACK, none, none, some 0, 0, 0⟩, rfl⟩ []
      (.join .left .leaf ⟨1, BLACK, 5, 0⟩ (.join .left .leaf ⟨2, RED, 7, 0⟩ .leaf)) := by
    refine ⟨rfl, rfl, rfl, ⟨rfl, trivial, rfl, trivial, trivial⟩, trivial, ?_, ?_⟩
    · simp [BinTree.toList, BinTree.join, Trail.items]
    · simp [BinTree.toList, BinTree.join, Trail.items]
  exact rotate_rotated focus

end

end SimpleBasicComponents.RbTree
