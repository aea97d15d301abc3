import SimpleBasicComponents.RbTree.Deletion
import SimpleBasicComponents.RbTree.Storage

/-!
Deletion.

Owns: the node that a deletion unlinks (`spot`), what is left of the tree then
(`remove`), and the theorem that `rbtree_delete` computes it: it faults exactly
when `remove` has no result.
-/

namespace SimpleBasicComponents.RbTree

open SimpleBasicComponents.Semantics

/-- Down to the left as far as there are nodes. -/
def descend : BinTree Cell → Trail Cell → BinTree Cell × Trail Cell
  | .leaf, trail => (.leaf, trail)
  | .node .leaf cell right, trail => (.node .leaf cell right, trail)
  | .node (.node left lower middle) cell right, trail =>
      descend (.node left lower middle) (⟨.left, cell, right⟩ :: trail)

/-- The cell with the key and the value of the other. -/
def Cell.withEntry (cell other : Cell) : Cell := { cell with key := other.key, value := other.value }

/-- A node with two children exchanges its entry with its successor, which is the
one to be unlinked. -/
def exchange (cell : Cell) (left : BinTree Cell) (outer : Trail Cell) :
    BinTree Cell × Trail Cell → BinTree Cell × Trail Cell
  | (.leaf, _) => (.leaf, outer)
  | (.node lower low upper, inner) =>
      (.node lower (low.withEntry cell) upper, inner ++ ⟨.right, cell.withEntry low, left⟩ :: outer)

/-- The node that a deletion of the key unlinks, and the trail to it. -/
def spot (tree : BinTree Cell) (key : Int32) : BinTree Cell × Trail Cell :=
  match tree.zoom keyOf key.toInt [] with
  | (.node (.node a b c) cell (.node d e f), outer) =>
      exchange cell (.node a b c) outer (descend (.node d e f) [])
  | place => place

/-- The only child of the unlinked node, which is painted black, if there is one. -/
def promoted : BinTree Cell → BinTree Cell → BinTree Cell
  | .leaf, right => paint BLACK right
  | .node left cell right, _ => paint BLACK (.node left cell right)

/-- What is left when the root of the subtree at the end of the trail is unlinked. -/
def remove : BinTree Cell → Trail Cell → Option (BinTree Cell)
  | .leaf, _ => none
  | .node .leaf cell .leaf, trail =>
      if cell.color = RED then some (trail.plug .leaf)
      else if mends trail then some ((mend trail).plug .leaf)
      else if loses trail then some .leaf
      else none
  | .node left _ right, trail => some (trail.plug (promoted left right))

/-- The other nodes are kept: the unlinked one has a child, is red, is the only one,
or the fix-up mends the trail. -/
def keepsRest : BinTree Cell → Trail Cell → Bool
  | .node .leaf cell .leaf, trail => cell.color = RED || mends trail || trail.isEmpty
  | _, _ => true

section

variable {nil : Ground} {T : Rbtree} {parent : Addr} {left right child tree : BinTree Cell}
  {cell low : Cell} {side : Side} {frame : Frame Cell} {trail rest inner outer : Trail Cell}

/-! ### The successor -/

theorem descend_spec (left : BinTree Cell) (cell : Cell) (right : BinTree Cell) (trail : Trail Cell) :
    ∃ low upper inner, descend (.node left cell right) trail = (.node .leaf low upper, inner ++ trail) ∧
      Trail.plug inner (.node .leaf low upper) = .node left cell right ∧ inner.before = [] := by
  induction left generalizing cell right trail with
  | leaf => exact ⟨cell, right, [], rfl, rfl, rfl⟩
  | node one lower two inductionHypothesis _ =>
      have ⟨low, upper, inner, ends, whole, nothing⟩ :=
        inductionHypothesis lower two (⟨.left, cell, right⟩ :: trail)
      refine ⟨low, upper, inner ++ [⟨.left, cell, right⟩], ?_, ?_, ?_⟩
      · rw [descend, ends, List.append_assoc, List.singleton_append]
      · rw [Trail.plug_append, whole]
        rfl
      · rw [Trail.before_append, nothing]
        rfl

theorem leftmostLoop_eq (isNil : T.nil = some nil.addr) (fuel : Nat)
    (linked : Rep T.heap.load nil parent (.node left cell right))
    (real : ∀ other ∈ (BinTree.node left cell right).toList, other.addr ≠ nil.addr)
    (enough : left.size < fuel) (trail : Trail Cell) :
    loop (fun node => .orFault (leftmostTurn T node)) fuel (some cell.addr) =
      some (some (top nil (descend (.node left cell right) trail).1)) := by
  induction left generalizing parent cell right fuel trail with
  | leaf =>
      obtain ⟨fuel, rfl⟩ := Nat.exists_eq_add_of_le' (Nat.one_le_of_lt enough)
      have loads : T.load (some cell.addr) = some _ := linked.1
      apply loop_leave
      simp only [leftmostTurn, loads, Option.bind_eq_bind, Option.bind_some]
      exact congrArg Turn.orFault (if_neg (not_not.mpr isNil.symm))
  | node one lower two inductionHypothesis _ =>
      obtain ⟨fuel, rfl⟩ := Nat.exists_eq_add_of_le' (Nat.one_le_of_lt enough)
      rw [BinTree.size] at enough
      have loads : T.load (some cell.addr) = some _ := linked.1
      have notNil : some lower.addr ≠ T.nil := by
        rw [isNil]
        exact fun same => real lower (by simp [BinTree.toList]) (Option.some.inj same)
      have turn : leftmostTurn T (some cell.addr) = some (.again (some lower.addr)) := by
        simp only [leftmostTurn, loads, Option.bind_eq_bind, Option.bind_some]
        exact if_pos notNil
      rw [loop_again (by rw [turn, Turn.orFault]), descend]
      apply inductionHypothesis fuel linked.2.1 _ (by omega)
      exact fun other member => real other (List.mem_append_left _ member)

/-- A node with a right child has its successor below. -/
theorem findSuccessor_eq {d f : BinTree Cell} {e : Cell}
    (focus : Focus T nil trail (.node left cell (.node d e f))) :
    findSuccessor T (some cell.addr) = some (some (top nil (descend (.node d e f) []).1)) := by
  have loads : T.load (some cell.addr) = some _ := @Focus.load nil T left _ trail cell .left focus
  have linked := focus.shape.linked.2.2
  have apart := focus.shape.apart
  have real : ∀ other ∈ (BinTree.node d e f).toList, other.addr ≠ nil.addr := by
    intro other member
    apply apart.real
    simp [BinTree.toList] at member ⊢
    tauto
  have notNil : some e.addr ≠ T.nil := by
    rw [focus.isNil]
    exact fun same => real e (by simp [BinTree.toList]) (Option.some.inj same)
  have small : d.size < T.turns := by
    have whole := Trail.length_le_size_plug trail (.node left cell (.node d e f))
    have below := focus.size_lt
    simp only [BinTree.size] at whole
    unfold Rbtree.turns
    omega
  have walk := leftmostLoop_eq focus.isNil T.turns linked real small []
  unfold findSuccessor
  simp only [reduceCtorEq, if_false, loads, Option.bind_eq_bind, Option.bind_some]
  rw [← walk]
  exact if_pos notNil

/-! ### The exchange -/

theorem rootOf_withItem {new : Cell} (hole : Addr) (inner : Trail Cell)
    (same : new.addr = frame.item.addr) :
    rootOf hole (inner ++ withItem frame new :: outer) = rootOf hole (inner ++ frame :: outer) := by
  induction inner generalizing hole with
  | nil =>
      show rootOf new.addr outer = rootOf frame.item.addr outer
      rw [same]
  | cons above rest inductionHypothesis => exact inductionHypothesis above.item.addr

/-- The node in view and one above it exchange their keys. -/
private theorem Focus.swapKey (focus : Focus T nil (inner ++ frame :: outer) (.node left low right)) :
    ∃ next, RbTree.swapKey T (some low.addr) (some frame.item.addr) = some next ∧
      Focus next nil (inner ++ withItem frame { frame.item with key := low.key } :: outer)
        (.node left { low with key := frame.item.key } right) := by
  have differ := @Shape.frame_ne _ nil left right outer low frame inner .left focus.shape
  have atLow := @Shape.load_join _ nil left right _ low .left focus.shape
  have atFrame := focus.shape.load_frame
  obtain ⟨next, swaps, sameRoot, sameNil, loads⟩ := swapKey_eq_some differ atLow atFrame
  have shape := @Shape.setTwo _ nil left right outer low frame inner .left
    { low with key := frame.item.key } { frame.item with key := low.key } focus.shape rfl rfl
  refine ⟨next, swaps, sameNil.trans focus.isNil, ?_, ?_⟩
  · rw [sameRoot, focus.root]
    have same : ({ frame.item with key := low.key } : Cell).addr = frame.item.addr := rfl
    exact congrArg some (rootOf_withItem low.addr inner same).symm
  · rw [loads]
    simp only [node_key, node_withKey]
    exact shape

private theorem swapEntry_eq_some (focus : Focus T nil (inner ++ frame :: outer) (.node left low right)) :
    ∃ next, swapEntry T (some low.addr) (some frame.item.addr) = some next ∧
      Focus next nil (inner ++ withItem frame (frame.item.withEntry low) :: outer)
        (.node left (low.withEntry frame.item) right) := by
  obtain ⟨keyed, swaps, focusKeyed⟩ := focus.swapKey
  have there := @Focus.load nil keyed left right _ { low with key := frame.item.key } .left focusKeyed
  have here : keyed.load (some frame.item.addr) = some _ := focusKeyed.shape.load_frame
  obtain ⟨valued, assigns, focusValued⟩ := @Focus.assign nil keyed left right _
    { low with key := frame.item.key } .left (low.withEntry frame.item)
    (fun other => { other with value := frame.item.value }) focusKeyed rfl
    fun one two parent => node_withValue _ _ _ _ _ _
  have atFrame := focus_cons.mp (focus_append.mp focusValued)
  obtain ⟨next, assignsAgain, focusNext⟩ := @Focus.assign nil valued _ _ outer
    { frame.item with key := low.key } frame.side (frame.item.withEntry low)
    (fun other => { other with value := low.value }) atFrame rfl
    fun one two parent => node_withValue _ _ _ _ _ _
  refine ⟨next, ?_, focus_append.mpr (focus_cons.mpr focusNext)⟩
  simp only [swapEntry, swaps, Option.bind_eq_bind, Option.bind_some, there, here, node_value]
  exact (congrArg (fun valued => Option.bind valued _) assigns).trans assignsAgain

/-! ### Unlinking -/

/-- `logic_delete` and `free`: the child of a node without another one takes its place. -/
private theorem unlink (focus : Focus T nil trail (.join side child cell .leaf)) :
    ∃ unlinked next, logicDelete T (some cell.addr) (some (top nil child)) = some (unlinked, 0) ∧
      unlinked.free (some cell.addr) = some next ∧ Focus next nil trail child := by
  have apart := focus.shape.apart_join
  have others := (List.pairwise_cons.mp apart.distinct).1
  have notInChild : ∀ other ∈ child.toList, other.addr ≠ cell.addr :=
    fun other member => (others other (by simp [member])).symm
  have notAbove : ∀ other ∈ trail.items, other.addr ≠ cell.addr :=
    fun other member => (others other (by simp [member])).symm
  have remaining : Apart nil (child.toList ++ trail.items) := by
    have rest := apart.sublist (List.sublist_cons_self _ _)
    simpa [BinTree.toList] using rest
  have between : ∀ one ∈ child.toList, ∀ two ∈ trail.items, one.addr ≠ two.addr :=
    (List.pairwise_append.mp remaining.distinct).2.2
  have notNil : some cell.addr ≠ T.nil := by
    rw [focus.isNil]
    exact fun same => focus.real (Option.some.inj same)
  have root := focus.root
  have linkedAbove := focus.shape.linkedAbove
  rw [top_join] at root linkedAbove
  -- the child gets the parent of the node
  obtain ⟨adopted, adopts, isNil, sameRoot, linked, kept⟩ := adopt_eq_some focus.isNil
    ((rep_join side).mp focus.shape.linked).2.1 (remaining.sublist (List.sublist_append_left _ _))
    (parentOf nil trail)
  have trailAdopted : RepTrail adopted.heap.load nil cell.addr trail := linkedAbove.congr
    fun other member => kept _ fun inner isInner => between inner isInner other member
  -- what pointed to the node points to the child
  obtain ⟨unlinked, relinks, isNilUnlinked, rootUnlinked, trailUnlinked, keptAgain⟩ :=
    relink_eq_some .left isNil (sameRoot.trans root) trailAdopted
      (remaining.sublist (List.sublist_append_right _ _)) focus.real notAbove (top nil child)
  have doomed := (keptAgain _ notAbove).trans ((kept _ notInChild).trans focus.shape.load_join)
  obtain ⟨heap, frees, -, keptLast⟩ := Heap.free_eq_some doomed
  refine ⟨unlinked, { unlinked with heap }, ?_, ?_, isNilUnlinked, rootUnlinked, ?_, ?_, ?_, remaining⟩
  · simp only [logicDelete, reduceCtorEq, false_or, if_neg notNil, if_false, focus.load, Option.bind_eq_bind,
      Option.bind_some, node_parent, adopts, relinks]
    rfl
  · simp only [Rbtree.free, Option.bind_eq_bind, Option.bind_some, frees]
    rfl
  · have outside : ∀ other ∈ child.toList ++ trail.items, other.addr ≠ nil.addr := remaining.real
    show heap.load nil.addr = _
    rw [keptLast _ focus.real.symm, keptAgain _ fun other member => outside other (by simp [member]),
      kept _ fun other member => outside other (by simp [member])]
    exact focus.shape.nilNode
  · refine linked.congr fun other member => ?_
    show heap.load other.addr = _
    rw [keptLast _ (notInChild other member), keptAgain _ fun above isAbove =>
      (between other member above isAbove).symm]
  · refine trailUnlinked.congr fun other member => ?_
    show heap.load other.addr = _
    rw [keptLast _ (notAbove other member)]

/-- The tree is lost already: what is unlinked hangs on nothing. -/
private theorem unlink_lost (focus : Focus T nil trail (.node .leaf cell .leaf)) :
    ∃ unlinked next, logicDelete { T with root := T.nil } (some cell.addr) (some nil.addr) =
        some (unlinked, 0) ∧
      unlinked.free (some cell.addr) = some next ∧ Focus next nil [] .leaf := by
  have apart := @Shape.apart_join _ nil .leaf .leaf trail cell .left focus.shape
  have others := (List.pairwise_cons.mp apart.distinct).1
  have notNil : some cell.addr ≠ T.nil := by
    rw [focus.isNil]
    exact fun same => focus.real_node (Option.some.inj same)
  have loads : T.load (some cell.addr) = some _ := @Focus.load nil T .leaf .leaf trail cell .left focus
  have keeps : adopt { T with root := T.nil } (some nil.addr) (some (parentOf nil trail)) =
      some { T with root := T.nil } := by
    rw [adopt, focus.isNil]
    exact if_neg (not_not.mpr rfl)
  obtain ⟨unlinked, relinks, isNil, isRoot, sameNil, doomed⟩ : ∃ unlinked,
      relink { T with root := T.nil } .left (some cell.addr) (some (parentOf nil trail))
        (some nil.addr) = some unlinked ∧
      unlinked.nil = some nil.addr ∧ unlinked.root = some nil.addr ∧
      unlinked.heap.load nil.addr = some nil.node ∧
      ∃ node, unlinked.heap.load cell.addr = some node := by
    cases trail with
    | nil =>
        refine ⟨{ T with root := some nil.addr }, ?_, focus.isNil, rfl, focus.shape.nilNode, _, loads⟩
        exact if_pos focus.isNil.symm
    | cons frame rest =>
        have real : frame.item.addr ≠ nil.addr := apart.real _ (by simp [Trail.items])
        have differ : cell.addr ≠ frame.item.addr := others _ (by simp [Trail.items])
        have parentNotNil : some frame.item.addr ≠ T.nil := by
          rw [focus.isNil]
          exact fun same => real (Option.some.inj same)
        have atParent : T.heap.load frame.item.addr = some _ := focus.load_frame
        have sets (side : Side) : ∃ unlinked,
            Rbtree.setChild { T with root := T.nil } (some frame.item.addr) side (some nil.addr) =
              some unlinked ∧
            unlinked.nil = some nil.addr ∧ unlinked.root = some nil.addr ∧
            unlinked.heap.load nil.addr = some nil.node ∧
            ∃ node, unlinked.heap.load cell.addr = some node := by
          obtain ⟨unlinked, assigns, sameRoot, sameNil, loadsNow⟩ :=
            @assign_eq_some { T with root := T.nil } _ _ atParent
              fun node => node.withChild side (some nil.addr)
          refine ⟨unlinked, assigns, sameNil.trans focus.isNil, sameRoot.trans focus.isNil, ?_, ?_⟩
          · rw [loadsNow, Function.update_of_ne real.symm]
            exact focus.shape.nilNode
          · rw [loadsNow, Function.update_of_ne differ]
            exact ⟨_, loads⟩
        obtain ⟨above, loadsParent⟩ : ∃ above,
            Rbtree.load { T with root := T.nil } (some frame.item.addr) = some above := ⟨_, atParent⟩
        simp only [relink, parentOf, if_neg parentNotNil, loadsParent, Option.bind_eq_bind,
          Option.bind_some]
        by_cases onLeft : some cell.addr = above.child .left
        · simp only [if_pos onLeft]
          exact sets .left
        · simp only [if_neg onLeft]
          exact sets .right
  obtain ⟨node, found⟩ := doomed
  obtain ⟨heap, frees, -, kept⟩ := Heap.free_eq_some found
  refine ⟨unlinked, { unlinked with heap }, ?_, ?_, isNil, isRoot, ?_, trivial, trivial, ?_⟩
  · have loadsLost : Rbtree.load { T with root := T.nil } (some cell.addr) = some _ := loads
    simp only [logicDelete, reduceCtorEq, false_or, if_neg notNil, if_false, loadsLost, Option.bind_eq_bind,
      Option.bind_some, node_parent, keeps, relinks]
    rfl
  · simp only [Rbtree.free, Option.bind_eq_bind, Option.bind_some, frees]
    rfl
  · show heap.load nil.addr = _
    rw [kept _ focus.real_node.symm, sameNil]
  · exact ⟨by simp [BinTree.toList, Trail.items], List.Pairwise.nil⟩

/-! ### The last turn -/

private theorem turns_enough (focus : Focus T nil trail (.node left cell right)) :
    trail.length + 2 ≤ T.turns := by
  have whole := Trail.length_le_size_plug trail (.node left cell right)
  have below := focus.size_lt
  simp only [BinTree.size] at whole
  unfold Rbtree.turns
  omega

private theorem deleteFixup_eq (focus : Focus T nil trail (.node left cell right)) :
    deleteFixup T (some cell.addr) =
      loop (fun state => .orFault (deleteFixupTurn state)) T.turns (T, some cell.addr) := by
  have notNil : some cell.addr ≠ T.nil := by
    rw [focus.isNil]
    exact fun same => focus.real_node (Option.some.inj same)
  simp only [deleteFixup, reduceCtorEq, false_or, if_neg notNil]

/-- What a turn that does not fault comes to. -/
private theorem deleteFixup_leaves (focus : Focus T nil trail (.node left cell right)) {next : Rbtree}
    (turn : deleteFixupTurn (T, some cell.addr) = some (.leave next)) :
    deleteFixup T (some cell.addr) = some next := by
  rw [deleteFixup_eq focus]
  exact loop_leave (by rw [turn, Turn.orFault])

/-- The only child of the node is painted black. -/
private theorem deleteFixup_onlyChild {lower upper : BinTree Cell} {only : Cell}
    (focus : Focus T nil trail (.join side (.node lower only upper) cell .leaf)) :
    ∃ next, deleteFixup T (some cell.addr) = some next ∧
      Focus next nil trail (.join side (paint BLACK (.node lower only upper)) cell .leaf) := by
  have atChild : Focus T nil (⟨side, cell, .leaf⟩ :: trail) (.node lower only upper) :=
    focus_cons.mpr focus
  obtain ⟨next, paints, focusNext⟩ := @Focus.setColor nil T lower upper _ only .left atChild BLACK
  have hasChild : some only.addr ≠ T.nil := by
    rw [focus.isNil]
    exact fun same => atChild.real_node (Option.some.inj same)
  have isNil := focus.isNil
  have here := focus.load
  refine ⟨next, ?_, focus_cons.mp focusNext⟩
  cases side with
  | left =>
      apply deleteFixup_leaves focus
      simp only [deleteFixupTurn, here, Option.bind_eq_bind, Option.bind_some]
      simp only [Cell.node, top, isNil] at hasChild ⊢
      rw [if_pos ⟨hasChild, trivial⟩, paints]
      rfl
  | right =>
      apply deleteFixup_leaves focus
      simp only [deleteFixupTurn, here, Option.bind_eq_bind, Option.bind_some]
      simp only [Cell.node, top, isNil] at hasChild ⊢
      rw [if_neg (by simp), if_pos ⟨trivial, hasChild⟩, paints]
      rfl

/-- A node with one child: this takes its place. -/
private theorem deleteTurn_onlyChild {lower upper : BinTree Cell} {only : Cell}
    (focus : Focus T nil trail (.join side (.node lower only upper) cell .leaf)) :
    ∃ next, deleteTurn (T, some cell.addr) = some (.leave next) ∧
      Focus next nil trail (paint BLACK (.node lower only upper)) := by
  obtain ⟨painted, fixes, focusPainted⟩ := deleteFixup_onlyChild focus
  obtain ⟨unlinked, next, deletes, frees, focusNext⟩ := unlink focusPainted
  have hasChild : some only.addr ≠ T.nil := by
    rw [focus.isNil]
    have atChild : Focus T nil (⟨side, cell, .leaf⟩ :: trail) (.node lower only upper) :=
      focus_cons.mpr focus
    exact fun same => atChild.real_node (Option.some.inj same)
  have isNil := focus.isNil
  have here := focus.load
  refine ⟨next, ?_, focusNext⟩
  cases side with
  | left =>
      simp only [deleteTurn, here, Option.bind_eq_bind, Option.bind_some]
      simp only [Cell.node, top, isNil, paint] at hasChild deletes ⊢
      rw [if_neg fun both => hasChild both.1, if_pos ⟨hasChild, trivial⟩, fixes]
      simp only [Option.bind_some, deletes, frees]
      rfl
  | right =>
      simp only [deleteTurn, here, Option.bind_eq_bind, Option.bind_some]
      simp only [Cell.node, top, isNil, paint] at hasChild deletes ⊢
      rw [if_neg fun both => hasChild both.2, if_neg fun both => both.1 rfl, if_pos ⟨trivial, hasChild⟩,
        fixes]
      simp only [Option.bind_some, deletes, frees]
      rfl

/-- A node without children: the fix-up comes first, and finds it as it is. -/
private theorem deleteTurn_childless (focus : Focus T nil trail (.node .leaf cell .leaf)) :
    deleteTurn (T, some cell.addr) = do
      let T ← deleteFixup T (some cell.addr)
      let doomed ← T.load (some cell.addr)
      let (T, _) ← logicDelete T (some cell.addr) doomed.left
      let T ← T.free (some cell.addr)
      return .leave T := by
  have here : T.load (some cell.addr) = some _ := @Focus.load nil T .leaf .leaf trail cell .left focus
  simp only [deleteTurn, here, Option.bind_eq_bind, Option.bind_some, Cell.node, top, focus.isNil]
  exact if_pos ⟨trivial, trivial⟩

private theorem deleteTurn_unlinks {fixed : Rbtree} {above : Trail Cell}
    (focus : Focus T nil trail (.node .leaf cell .leaf))
    (fixes : deleteFixup T (some cell.addr) = some fixed)
    (focusFixed : Focus fixed nil above (.node .leaf cell .leaf)) :
    ∃ next, deleteTurn (T, some cell.addr) = some (.leave next) ∧ Focus next nil above .leaf := by
  have doomed : fixed.load (some cell.addr) = some _ :=
    @Focus.load nil fixed .leaf .leaf above cell .left focusFixed
  obtain ⟨unlinked, next, deletes, frees, focusNext⟩ :=
    @unlink nil fixed .leaf cell .left above focusFixed
  refine ⟨next, ?_, focusNext⟩
  simp only [deleteTurn_childless focus, fixes, Option.bind_eq_bind, Option.bind_some, doomed, Cell.node]
  simp only [top] at deletes ⊢
  simp only [deletes, Option.bind_some, frees]
  rfl

private theorem deleteTurn_loses {fixed : Rbtree} {above : Trail Cell}
    (focus : Focus T nil trail (.node .leaf cell .leaf))
    (fixes : deleteFixup T (some cell.addr) = some { fixed with root := fixed.nil })
    (focusFixed : Focus fixed nil above (.node .leaf cell .leaf)) :
    ∃ next, deleteTurn (T, some cell.addr) = some (.leave next) ∧ Focus next nil [] .leaf := by
  have doomed : Rbtree.load { fixed with root := fixed.nil } (some cell.addr) = some _ :=
    @Focus.load nil fixed .leaf .leaf above cell .left focusFixed
  obtain ⟨unlinked, next, deletes, frees, focusNext⟩ := unlink_lost focusFixed
  refine ⟨next, ?_, focusNext⟩
  simp only [deleteTurn_childless focus, fixes, Option.bind_eq_bind, Option.bind_some, doomed, Cell.node]
  simp only [top] at deletes ⊢
  simp only [deletes, Option.bind_some, frees]
  rfl

/-- The last turn of `rbtree_delete` leaves what `remove` says. -/
theorem deleteTurn_spec (null : remove (.node left cell right) trail = none → nil.Null)
    (focus : Focus T nil trail (.node left cell right)) (few : left = .leaf ∨ right = .leaf)
    (ruled : Ruled trail False) :
    match remove (.node left cell right) trail with
    | some after => ∃ next, deleteTurn (T, some cell.addr) = some (.leave next) ∧ Focus next nil [] after
    | none => deleteTurn (T, some cell.addr) = none := by
  cases left with
  | node lower only upper =>
      obtain rfl : right = .leaf := few.resolve_left (by simp)
      obtain ⟨next, turn, focusNext⟩ := @deleteTurn_onlyChild nil T cell .left trail lower upper only focus
      exact ⟨next, turn, focus_plug.mp focusNext⟩
  | leaf =>
      cases right with
      | node lower only upper =>
          obtain ⟨next, turn, focusNext⟩ :=
            @deleteTurn_onlyChild nil T cell .right trail lower upper only focus
          exact ⟨next, turn, focus_plug.mp focusNext⟩
      | leaf =>
          rw [remove] at null ⊢
          by_cases red : cell.color = RED
          · rw [if_pos red]
            have stays := deleteFixup_leaves focus (deleteFixupTurn_red focus red)
            obtain ⟨next, turn, focusNext⟩ := deleteTurn_unlinks focus stays focus
            exact ⟨next, turn, focus_plug.mp focusNext⟩
          · rw [if_neg red] at null ⊢
            have paired : Paired (.leaf : BinTree Cell) .leaf := Iff.rfl
            have enough := turns_enough focus
            cases ends : mends trail with
            | true =>
                obtain ⟨fixed, ran, focusFixed⟩ :=
                  deleteFixupLoop_mends T.turns focus paired red ruled ends enough
                obtain ⟨next, turn, focusNext⟩ :=
                  deleteTurn_unlinks focus ((deleteFixup_eq focus).trans ran) focusFixed
                exact ⟨next, turn, focus_plug.mp focusNext⟩
            | false =>
                cases isLost : loses trail with
                | true =>
                    obtain ⟨fixed, above, ran, focusFixed, -⟩ :=
                      deleteFixupLoop_loses T.turns focus paired red isLost (by omega)
                    exact deleteTurn_loses focus ((deleteFixup_eq focus).trans ran) focusFixed
                | false =>
                    rw [ends, isLost] at null
                    have faults :=
                      deleteFixupLoop_faults (null rfl) T.turns focus paired red ends isLost
                    have isNone : deleteTurn (T, some cell.addr) = none := by
                      rw [deleteTurn_childless focus, deleteFixup_eq focus, faults]
                      rfl
                    exact isNone

/-! ### What the exchange keeps -/

/-- The trees have the same nodes with the same colours; the entries may differ. -/
inductive Alike : BinTree Cell → BinTree Cell → Prop
  | leaf : Alike .leaf .leaf
  | node {left right left' right' : BinTree Cell} {cell cell' : Cell} (lefts : Alike left left')
      (addr : cell'.addr = cell.addr) (color : cell'.color = cell.color) (rights : Alike right right') :
      Alike (.node left cell right) (.node left' cell' right')

theorem Alike.refl (tree : BinTree Cell) : Alike tree tree := by
  induction tree with
  | leaf => exact .leaf
  | node left cell right left_ih right_ih => exact .node left_ih rfl rfl right_ih

theorem Alike.fill {one two : BinTree Cell} {new : Cell} (alike : Alike one two)
    (addr : new.addr = frame.item.addr) (color : new.color = frame.item.color) :
    Alike (frame.fill one) ((withItem frame new).fill two) := by
  obtain ⟨side, item, sibling⟩ := frame
  cases side with
  | left => exact .node alike addr color (.refl sibling)
  | right => exact .node (.refl sibling) addr color alike

theorem Alike.plug {one two : BinTree Cell} (alike : Alike one two) (trail : Trail Cell) :
    Alike (trail.plug one) (trail.plug two) := by
  induction trail generalizing one two with
  | nil => exact alike
  | cons frame rest inductionHypothesis =>
      exact inductionHypothesis (@Alike.fill frame one two frame.item alike rfl rfl)

section

variable {one two : BinTree Cell}

theorem Alike.isRed (alike : Alike one two) : RbTree.isRed two ↔ RbTree.isRed one := by
  cases alike with
  | leaf => exact Iff.rfl
  | node _ _ color _ =>
      show _ = RED ↔ _ = RED
      rw [color]

theorem Alike.noRedRed (alike : Alike one two) (noRedRed : NoRedRed one) : NoRedRed two := by
  induction alike with
  | leaf => trivial
  | node lefts _ color rights left_ih right_ih =>
      obtain ⟨here, left, right⟩ := noRedRed
      refine ⟨?_, left_ih left, right_ih right⟩
      rw [color, lefts.isRed, rights.isRed]
      exact here

theorem Alike.colored (alike : Alike one two) (colored : Colored one) : Colored two :=
  ⟨fun red => colored.1 (alike.isRed.mp red), alike.noRedRed colored.2⟩

end

/-- The node to be unlinked has at most one child, and only entries have moved. -/
theorem spot_alike {key : Int32} (isSpot : spot tree key = (.node left cell right, trail)) :
    (left = .leaf ∨ right = .leaf) ∧ Alike tree (trail.plug (.node left cell right)) := by
  have whole := @BinTree.plug_zoom _ _ _ keyOf key.toInt tree []
  rw [Trail.plug_nil] at whole
  unfold spot at isSpot
  split at isSpot
  · rename_i a b c found d e f outer isZoom
    rw [isZoom] at whole
    have ⟨low, upper, inner, ends, isRight, _⟩ := descend_spec d e f []
    rw [List.append_nil] at ends
    rw [ends, exchange, Prod.mk.injEq, BinTree.node.injEq] at isSpot
    obtain ⟨⟨rfl, rfl, rfl⟩, rfl⟩ := isSpot
    refine ⟨.inl rfl, ?_⟩
    rw [← whole, ← isRight, Trail.plug_append, Trail.plug_cons]
    have lower : Alike (.node .leaf low upper) (.node .leaf (low.withEntry found) upper) :=
      .node .leaf rfl rfl (.refl upper)
    have middle := @Alike.fill ⟨.right, found, .node a b c⟩ _ _ (found.withEntry low)
      (lower.plug inner) rfl rfl
    exact middle.plug outer
  · rename_i notBoth
    rw [isSpot] at whole
    refine ⟨?_, ?_⟩
    · cases left with
      | leaf => exact .inl rfl
      | node a b c =>
          cases right with
          | leaf => exact .inr rfl
          | node d e f => exact (notBoth a b c cell d e f trail isSpot).elim
    · rw [← whole]
      exact .refl _

/-- Without the unlinked node the tree has the other entries in their order. -/
theorem spot_entries {key : Int32} (isSpot : spot tree key = (.node left cell right, trail)) :
    ∃ smaller value greater, entries tree = smaller ++ (key, value) :: greater ∧
      entries (trail.plug (promoted left right)) = smaller ++ greater := by
  have whole := @BinTree.plug_zoom _ _ _ keyOf key.toInt tree []
  rw [Trail.plug_nil] at whole
  have few := (spot_alike isSpot).1
  have painted (color : UInt8) (tree : BinTree Cell) : entries (paint color tree) = entries tree :=
    entries_of_records (records_paint color tree)
  unfold spot at isSpot
  split at isSpot
  · rename_i a b c found d e f outer isZoom
    have isKey : found.key = key := key_eq_iff.mpr (BinTree.zoom_found isZoom)
    rw [isZoom] at whole
    have ⟨low, upper, inner, ends, isRight, nothing⟩ := descend_spec d e f []
    rw [List.append_nil] at ends
    rw [ends, exchange, Prod.mk.injEq, BinTree.node.injEq] at isSpot
    obtain ⟨⟨rfl, rfl, rfl⟩, rfl⟩ := isSpot
    refine ⟨outer.before.map Cell.entry ++ entries (.node a b c), found.value,
      entries (.node .leaf low upper) ++ inner.after.map Cell.entry ++ outer.after.map Cell.entry, ?_, ?_⟩
    · have isRightList : entries (.node d e f) =
          entries (.node .leaf low upper) ++ inner.after.map Cell.entry := by
        rw [← isRight, entries_plug, nothing]
        rfl
      rw [← whole, entries_plug]
      have here : entries (.node (.node a b c) found (.node d e f)) =
          entries (.node a b c) ++ (key, found.value) :: entries (.node d e f) := by
        rw [← isKey]
        exact List.map_append
      rw [here, isRightList]
      simp
    · rw [promoted, entries_plug, painted, Trail.before_append, Trail.after_append, nothing]
      simp [Trail.before, Trail.after, entries, BinTree.toList, Cell.withEntry, Cell.entry]
  · have isKey : cell.key = key := key_eq_iff.mpr (BinTree.zoom_found isSpot)
    rw [isSpot] at whole
    refine ⟨trail.before.map Cell.entry ++ entries left, cell.value,
      entries right ++ trail.after.map Cell.entry, ?_, ?_⟩
    · rw [← whole, entries_plug, ← isKey]
      simp [entries, BinTree.toList, Cell.entry]
    · rw [entries_plug]
      cases left with
      | leaf =>
          rw [promoted, painted]
          simp [entries, BinTree.toList]
      | node a b c =>
          obtain rfl : right = .leaf := few.resolve_left (by simp)
          rw [promoted, painted]
          simp [entries, BinTree.toList]

/-! ### What is left -/

theorem colored_promoted (colored : Colored (trail.plug (.node left cell right))) :
    Colored (trail.plug (promoted left right)) := by
  have ⟨noRedRed, ruled⟩ := colored_plug.mp colored
  have isBlack : BLACK ≠ RED := by decide
  have higher : Ruled trail False := ruled.mono False.elim
  rw [colored_plug]
  cases left with
  | leaf => exact ⟨noRedRed_paint noRedRed.2.2 isBlack, higher.mono (isRed_paint isBlack)⟩
  | node a b c =>
      show NoRedRed (paint BLACK (.node a b c)) ∧ Ruled trail (isRed (paint BLACK (.node a b c)))
      exact ⟨noRedRed_paint noRedRed.2.1 isBlack, higher.mono (isRed_paint isBlack)⟩

/-- If the other nodes are kept, they stay in order and the colour rule holds. -/
theorem remove_of_keepsRest (colored : Colored (trail.plug (.node left cell right)))
    (few : left = .leaf ∨ right = .leaf) (keeps : keepsRest (.node left cell right) trail = true) :
    ∃ after, remove (.node left cell right) trail = some after ∧ Colored after ∧
      records after = records (trail.plug (promoted left right)) := by
  have promotes := colored_promoted colored
  cases left with
  | node a b c =>
      cases right with
      | leaf => exact ⟨_, rfl, promotes, rfl⟩
      | node d e f => exact absurd few (by simp)
  | leaf =>
      cases right with
      | node d e f => exact ⟨_, rfl, promotes, rfl⟩
      | leaf =>
          have higher : Ruled trail False := (colored_plug.mp colored).2.mono False.elim
          rw [remove]
          by_cases red : cell.color = RED
          · exact ⟨_, if_pos red, promotes, rfl⟩
          · rw [if_neg red]
            cases ends : mends trail with
            | true =>
                refine ⟨_, rfl, ?_, sameAround_mend trail _⟩
                exact colored_plug.mpr ⟨trivial, ruled_mend higher ends⟩
            | false =>
                simp only [keepsRest, decide_eq_false red, ends, Bool.false_or,
                  List.isEmpty_iff] at keeps
                rw [keeps]
                exact ⟨.leaf, rfl, ⟨id, trivial⟩, rfl⟩

/-- Otherwise nothing is kept, or the deletion faults. -/
theorem remove_of_not_keepsRest (loses : keepsRest (.node left cell right) trail = false) :
    trail ≠ [] ∧ (remove (.node left cell right) trail = some .leaf ∨
      remove (.node left cell right) trail = none) := by
  cases left with
  | node a b c => cases right <;> contradiction
  | leaf =>
      cases right with
      | node d e f => contradiction
      | leaf =>
          simp only [keepsRest, Bool.or_eq_false_iff, decide_eq_false_iff_not] at loses
          obtain ⟨⟨black, ends⟩, below⟩ := loses
          refine ⟨?_, ?_⟩
          · intro isEmpty
            rw [isEmpty] at below
            contradiction
          · rw [remove, if_neg black, ends]
            cases RbTree.loses trail with
            | true => exact .inl rfl
            | false => exact .inr rfl

/-! ### The whole deletion -/

/-- A key that is in the tree has a node to be unlinked. -/
theorem spot_isNode {key : Int32} (ordered : tree.Ordered keyOf)
    (present : ∃ cell ∈ tree.toList, cell.key = key) :
    ∃ left cell right trail, spot tree key = (.node left cell right, trail) := by
  cases isZoom : tree.zoom keyOf key.toInt [] with
  | mk place outer =>
      cases place with
      | leaf =>
          have ⟨cell, member, same⟩ := present
          exact absurd same ((zoom_leaf_iff ordered isZoom).mp rfl cell member)
      | node left cell right =>
          cases left with
          | leaf =>
              refine ⟨.leaf, cell, right, outer, ?_⟩
              rw [spot, isZoom]
          | node a b c =>
              cases right with
              | leaf =>
                  refine ⟨.node a b c, cell, .leaf, outer, ?_⟩
                  rw [spot, isZoom]
              | node d e f =>
                  have ⟨low, upper, inner, ends, _⟩ := descend_spec d e f []
                  refine ⟨.leaf, low.withEntry cell, upper,
                    (inner ++ []) ++ ⟨.right, cell.withEntry low, .node a b c⟩ :: outer, ?_⟩
                  rw [spot, isZoom]
                  simp only [ends, exchange]

theorem rbtreeDelete_absent {key : Int32} (focus : Focus T nil [] tree) (ordered : tree.Ordered keyOf)
    (absent : ∀ cell ∈ tree.toList, cell.key ≠ key) : rbtreeDelete T key = some (T, -1) := by
  have search := rbtreeFind_eq focus key
  cases isZoom : tree.zoom keyOf key.toInt [] with
  | mk place outer =>
      have isLeaf : place = .leaf := (zoom_leaf_iff ordered isZoom).mpr absent
      rw [isLeaf] at isZoom
      rw [isZoom] at search
      simp only [rbtreeDelete, search, Option.bind_eq_bind, Option.bind_some]
      rfl

/-- The turns of `rbtree_delete` from the node with the key on. -/
private theorem deleteLoop_eq (focus : Focus T nil [] tree) {key : Int32} {place : BinTree Cell}
    {found : Cell} {lower upper : BinTree Cell} {outer : Trail Cell}
    (isZoom : tree.zoom keyOf key.toInt [] = (.node lower found upper, outer))
    (isSpot : spot tree key = (place, trail)) (isPlace : place = .node left cell right) :
    ∃ ready more, Focus ready nil trail place ∧ Keeps T ready ∧
      loop (fun state => .orFault (deleteTurn state)) T.turns (T, some found.addr) =
        loop (fun state => .orFault (deleteTurn state)) (more + 1) (ready, some cell.addr) := by
  have whole := @BinTree.plug_zoom _ _ _ keyOf key.toInt tree []
  rw [isZoom, Trail.plug_nil] at whole
  simp only at whole
  rw [← whole] at focus
  have atFound := focus_plug.mpr focus
  have enough := turns_enough atFound
  rw [spot, isZoom] at isSpot
  split at isSpot
  · rename_i a b c found' d e f outer' same
    rw [Prod.mk.injEq, BinTree.node.injEq] at same
    obtain ⟨⟨rfl, rfl, rfl⟩, rfl⟩ := same
    have ⟨low, upper, inner, ends, isRight, _⟩ := descend_spec d e f []
    rw [List.append_nil] at ends
    rw [ends, exchange, Prod.mk.injEq] at isSpot
    obtain ⟨rfl, rfl⟩ := isSpot
    rw [BinTree.node.injEq] at isPlace
    obtain ⟨rfl, rfl, rfl⟩ := isPlace
    have successor := findSuccessor_eq atFound
    rw [ends] at successor
    have atRight : Focus T nil (⟨.right, found, .node a b c⟩ :: outer) (.node d e f) :=
      focus_cons.mpr atFound
    have atLow : Focus T nil (inner ++ ⟨.right, found, .node a b c⟩ :: outer) (.node .leaf low upper) := by
      rw [focus_append, isRight]
      exact atRight
    obtain ⟨ready, exchanges, focusReady⟩ := swapEntry_eq_some atLow
    have here : T.load (some found.addr) = some _ :=
      @Focus.load nil T (.node a b c) (.node d e f) outer found .left atFound
    have hasLeft : some b.addr ≠ T.nil := by
      rw [focus.isNil]
      have atLeft : Focus T nil (⟨.left, found, .node d e f⟩ :: outer) (.node a b c) :=
        focus_cons.mpr atFound
      exact fun same => atLeft.real_node (Option.some.inj same)
    have hasRight : some e.addr ≠ T.nil := by
      rw [focus.isNil]
      exact fun same => atRight.real_node (Option.some.inj same)
    have turn : deleteTurn (T, some found.addr) = some (.again (ready, some low.addr)) := by
      simp only [deleteTurn, here, Option.bind_eq_bind, Option.bind_some]
      simp only [Cell.node, top]
      have notChildless : ¬ (some b.addr = T.nil ∧ some e.addr = T.nil) := fun both => hasLeft both.1
      have notLeftOnly : ¬ (some b.addr ≠ T.nil ∧ some e.addr = T.nil) := fun both => hasRight both.2
      have notRightOnly : ¬ (some b.addr = T.nil ∧ some e.addr ≠ T.nil) := fun both => hasLeft both.1
      refine (if_neg notChildless).trans ((if_neg notLeftOnly).trans ((if_neg notRightOnly).trans ?_))
      rw [successor]
      simp only [top, Option.bind_some, exchanges]
      rfl
    obtain ⟨more, isMore⟩ : ∃ more, T.turns = more + 1 + 1 := ⟨T.turns - 2, by omega⟩
    have keeps : Keeps T ready := deleteTurn_frees (T, some found.addr) (.refl T) _ turn
    refine ⟨ready, more, focusReady, keeps, ?_⟩
    rw [isMore, loop_again (by rw [turn, Turn.orFault])]
    rfl
  · rw [Prod.mk.injEq] at isSpot
    obtain ⟨rfl, rfl⟩ := isSpot
    rw [BinTree.node.injEq] at isPlace
    obtain ⟨rfl, rfl, rfl⟩ := isPlace
    refine ⟨T, T.turns - 1, atFound, .refl T, ?_⟩
    rw [Nat.sub_add_cancel (by omega)]

/-- `rbtree_delete` of a key that is there leaves what `remove` says. That it faults
otherwise rests on the links of `T->nil`. -/
theorem rbtreeDelete_spec {key : Int32} (focus : Focus T nil [] tree) (colored : Colored tree)
    (isSpot : spot tree key = (.node left cell right, trail))
    (null : remove (.node left cell right) trail = none → nil.Null) :
    match remove (.node left cell right) trail with
    | some after => ∃ next, rbtreeDelete T key = some (next, 0) ∧ Focus next nil [] after ∧
        Frees T cell.addr next
    | none => rbtreeDelete T key = none := by
  have search := rbtreeFind_eq focus key
  obtain ⟨few, alike⟩ := spot_alike isSpot
  have ruled : Ruled trail False := (colored_plug.mp (alike.colored colored)).2.mono False.elim
  cases isZoom : tree.zoom keyOf key.toInt [] with
  | mk place outer =>
      cases place with
      | leaf =>
          rw [spot, isZoom] at isSpot
          cases isSpot
      | node lower found upper =>
          obtain ⟨ready, more, focusReady, keeps, ran⟩ := deleteLoop_eq focus isZoom isSpot rfl
          have last := deleteTurn_spec null focusReady few ruled
          rw [isZoom] at search
          have deletes : rbtreeDelete T key = (loop (fun state => .orFault (deleteTurn state)) (more + 1)
              (ready, some cell.addr)).map fun next => (next, 0) := by
            rw [← ran]
            simp only [rbtreeDelete, search, Option.bind_eq_bind, Option.bind_some, reduceCtorEq, if_false]
            cases loop (fun state => Turn.orFault (deleteTurn state)) T.turns (T, some found.addr) <;> rfl
          cases isRemoved : remove (.node left cell right) trail with
          | none =>
              rw [isRemoved] at last
              simp only at last ⊢
              rw [deletes, loop_fault (by rw [last, Turn.orFault])]
              rfl
          | some after =>
              rw [isRemoved] at last
              obtain ⟨next, turn, focusNext⟩ := last
              obtain ⟨addr, isAddr, frees⟩ : ∃ addr, some cell.addr = some addr ∧ Frees T addr next :=
                deleteTurn_frees (ready, some cell.addr) keeps _ turn
              obtain rfl := Option.some.inj isAddr
              refine ⟨next, ?_, focusNext, frees⟩
              rw [deletes, loop_leave (by rw [turn, Turn.orFault])]
              rfl

end

end SimpleBasicComponents.RbTree
