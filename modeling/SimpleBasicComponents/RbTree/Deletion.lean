import SimpleBasicComponents.RbTree.Mend
import SimpleBasicComponents.RbTree.Rotation
import SimpleBasicComponents.RbTree.Search

/-!
The fix-up of a deletion.

Owns: one turn of `delete_fixup`, and that the loop leaves the trail `mend`
gives if the trail mends, and otherwise faults or loses the tree.
-/

namespace SimpleBasicComponents.RbTree

open SimpleBasicComponents.Semantics

/-- As `rbtree_create` makes it: the links of `T->nil` downwards are null. -/
def Ground.Null (nil : Ground) : Prop := ∀ side, nil.node.child side = none

section

variable {nil : Ground} {T : Rbtree} {left right near far tree : BinTree Cell} {cell brother : Cell}
  {side : Side} {frame : Frame Cell} {rest trail : Trail Cell} {node : Ptr}

theorem top_eq_nil_iff (real : ∀ cell ∈ tree.toList, cell.addr ≠ nil.addr) :
    top nil tree = nil.addr ↔ tree = .leaf := by
  cases tree with
  | leaf => exact iff_of_true rfl rfl
  | node left cell right => exact iff_of_false (real cell (by simp [BinTree.toList])) (by simp)

/-- The links of a node say whether it has children. -/
theorem Focus.child_eq_nil_iff (focus : Focus T nil trail (.join side near cell far)) :
    (some (top nil near) = T.nil ↔ near = .leaf) ∧ (some (top nil far) = T.nil ↔ far = .leaf) := by
  have real := focus.shape.apart_join.real
  rw [focus.isNil, Option.some.injEq, Option.some.injEq]
  exact ⟨top_eq_nil_iff fun other member => real other (by simp [member]),
    top_eq_nil_iff fun other member => real other (by simp [member])⟩

/-! ### The brother -/

/-- The brother comes up. -/
theorem rotate_frame (focus : Focus T nil (frame :: rest) tree)
    (isSibling : frame.sibling = .node left brother right) :
    ∃ next, rotate T frame.side (some frame.item.addr) = some next ∧
      Focus next nil (lowered frame brother (childOf frame.side frame.sibling) ::
        lifted frame brother (childOf frame.side.other frame.sibling) :: rest) tree := by
  have whole := focus_cons.mp focus
  have split := join_childOf frame.side left brother right
  rw [Frame.fill, isSibling, ← split] at whole
  obtain ⟨next, rotates, focusNext⟩ := rotate_eq_some whole
  refine ⟨next, rotates, ?_⟩
  rw [focus_cons, focus_cons, isSibling]
  exact focusNext

/-- The same with the sides as the fix-up sees them. -/
private theorem rotate_sibling {parent : Cell}
    (focus : Focus T nil (⟨side, parent, .join side near brother far⟩ :: rest) tree) :
    ∃ next, rotate T side (some parent.addr) = some next ∧
      Focus next nil (⟨side, { parent with color := brother.color }, near⟩ ::
        ⟨side, { brother with color := parent.color }, far⟩ :: rest) tree := by
  obtain ⟨next, rotates, focusNext⟩ := rotate_eq_some (focus_cons.mp focus)
  exact ⟨next, rotates, focus_cons.mpr (focus_cons.mpr focusNext)⟩

theorem Focus.real_node (focus : Focus T nil trail (.node left cell right)) :
    cell.addr ≠ nil.addr :=
  @Focus.real nil T left right trail cell .left focus

/-- The brother, with the sides as the fix-up sees them. -/
private theorem Focus.atBrother (focus : Focus T nil (frame :: rest) tree)
    (isSibling : frame.sibling = .node left brother right) :
    Focus T nil (⟨frame.side.other, frame.item, tree⟩ :: rest)
      (.join frame.side (childOf frame.side frame.sibling) brother
        (childOf frame.side.other frame.sibling)) := by
  rw [isSibling, join_childOf, ← isSibling]
  exact focus_sibling.mp focus

private theorem Focus.load_brother (focus : Focus T nil (frame :: rest) tree)
    (isSibling : frame.sibling = .node left brother right) :
    ∃ above beside, T.load (some frame.item.addr) = some above ∧ above.color = frame.item.color ∧
      above.child frame.side.other = some brother.addr ∧ T.load (some brother.addr) = some beside ∧
      beside.color = brother.color ∧
      beside.child frame.side = some (top nil (childOf frame.side frame.sibling)) ∧
      beside.child frame.side.other = some (top nil (childOf frame.side.other frame.sibling)) := by
  have above := focus.load_frame
  rw [isSibling] at above
  exact ⟨_, _, above, node_color .., node_child_other .., (focus.atBrother isSibling).load,
    node_color .., node_child .., node_child_other ..⟩

private theorem deleteFixupSide_leaf (null : nil.Null) (focus : Focus T nil (frame :: rest) tree)
    (isLeaf : frame.sibling = .leaf) :
    deleteFixupSide T frame.side node (some frame.item.addr) = none := by
  have above := focus.load_frame
  have atNil : T.load (some nil.addr) = some nil.node := focus.shape.nilNode
  have notNil : none ≠ T.nil := by
    rw [focus.isNil]
    simp
  have faults : T.setColor none BLACK = none := rfl
  simp only [deleteFixupSide, above, Option.bind_eq_bind, Option.bind_some, node_child_other, isLeaf,
    top, atNil, if_neg nil.notRed, null frame.side.other, if_pos notNil, faults, Option.bind_none]

private theorem deleteFixupSide_red (focus : Focus T nil (frame :: rest) tree)
    (isSibling : frame.sibling = .node left brother right) (red : brother.color = RED) :
    ∃ next, deleteFixupSide T frame.side node (some frame.item.addr) = some (.again (next, node)) ∧
      Focus next nil (lowered frame brother (childOf frame.side frame.sibling) ::
        lifted frame brother (childOf frame.side.other frame.sibling) :: rest) tree := by
  obtain ⟨above, beside, loadAbove, -, isBrother, loadBrother, color, -⟩ := focus.load_brother isSibling
  obtain ⟨next, rotates, focusNext⟩ := rotate_frame focus isSibling
  refine ⟨next, ?_, focusNext⟩
  simp only [deleteFixupSide, loadAbove, Option.bind_eq_bind, Option.bind_some, isBrother, loadBrother,
    color, if_pos red, rotates]
  rfl

/-- Nothing ends here: the brother is painted red, and it is the parent's turn. -/
private theorem deleteFixupSide_climbs (focus : Focus T nil (frame :: rest) tree)
    (isSibling : frame.sibling = .node left brother right) (black : brother.color ≠ RED)
    (goesOn : endsAt frame = false) :
    ∃ next, deleteFixupSide T frame.side node (some frame.item.addr) =
        some (.again (next, some frame.item.addr)) ∧
      Focus next nil (⟨frame.side, frame.item, paint RED frame.sibling⟩ :: rest) tree := by
  obtain ⟨frameSide, parent, sibling⟩ := frame
  obtain ⟨above, beside, loadAbove, colorAbove, isBrother, loadBrother, color, nearTop, farTop⟩ :=
    focus.load_brother isSibling
  obtain rfl : sibling = .node left brother right := isSibling
  obtain ⟨rfl, rfl, parentBlack⟩ := endsAt_eq_false.mp goesOn
  have atBrother := focus_sibling.mp focus
  obtain ⟨next, colors, focusNext⟩ := @Focus.setColor nil T .leaf .leaf _ brother .left atBrother RED
  have noNear : beside.child frameSide = T.nil := by
    rw [nearTop, focus.isNil]
    cases frameSide <;> rfl
  have noFar : beside.child frameSide.other = T.nil := by
    rw [farTop, focus.isNil]
    cases frameSide <;> rfl
  refine ⟨next, ?_, focus_sibling.mpr focusNext⟩
  simp only [deleteFixupSide, loadAbove, Option.bind_eq_bind, Option.bind_some, isBrother, loadBrother,
    color, if_neg black, noNear, noFar, ne_eq, not_true_eq_false, if_false, colorAbove,
    if_neg parentBlack, colors]
  rfl

/-- A brother with a child on its other side: this is painted black, and the brother comes up. -/
private theorem deleteFixupSide_far {one two : BinTree Cell} {nephew : Cell}
    (focus : Focus T nil (frame :: rest) tree) (isSibling : frame.sibling = .node left brother right)
    (black : brother.color ≠ RED)
    (isFar : childOf frame.side.other frame.sibling = .node one nephew two) :
    ∃ next, deleteFixupSide T frame.side node (some frame.item.addr) = some (.leave next) ∧
      Focus next nil (ended frame rest) tree := by
  obtain ⟨above, beside, loadAbove, -, isBrother, loadBrother, color, -, farTop⟩ :=
    focus.load_brother isSibling
  have atBrother := focus.atBrother isSibling
  have atFar : Focus T nil (⟨frame.side.other, brother, childOf frame.side frame.sibling⟩ ::
      ⟨frame.side.other, frame.item, tree⟩ :: rest) (.node one nephew two) := by
    rw [focus_cons, Frame.fill, BinTree.join_other, ← isFar]
    exact atBrother
  obtain ⟨painted, paints, focusPainted⟩ := @Focus.setColor nil T one two _ nephew .left atFar BLACK
  have back : Focus painted nil (⟨frame.side, frame.item, .join frame.side
      (childOf frame.side frame.sibling) brother (paint BLACK (.node one nephew two))⟩ :: rest) tree := by
    apply focus_sibling.mpr
    have up := focus_cons.mp focusPainted
    rw [Frame.fill, BinTree.join_other] at up
    exact up
  obtain ⟨next, rotates, focusNext⟩ := rotate_sibling back
  have hasFar : beside.child frame.side.other ≠ T.nil := by
    rw [farTop, isFar, focus.isNil]
    exact fun same => atFar.real_node (Option.some.inj same)
  refine ⟨next, ?_, ?_⟩
  · rw [isFar] at farTop
    simp only [deleteFixupSide, loadAbove, Option.bind_eq_bind, Option.bind_some, isBrother,
      loadBrother, color, if_neg black, if_pos hasFar]
    simp only [farTop, top, paints, Option.bind_some, rotates]
    rfl
  · have isEnded : ended frame rest = lowered frame brother (childOf frame.side frame.sibling) ::
        lifted frame brother (paint BLACK (.node one nephew two)) :: rest := by
      simp only [ended, isFar]
      rw [isSibling]
    rw [isEnded]
    exact focusNext

/-- A brother with a child on its own side only: this is painted black and comes up twice. -/
private theorem deleteFixupSide_near {one two : BinTree Cell} {nephew : Cell}
    (focus : Focus T nil (frame :: rest) tree) (isSibling : frame.sibling = .node left brother right)
    (black : brother.color ≠ RED) (isFar : childOf frame.side.other frame.sibling = .leaf)
    (isNear : childOf frame.side frame.sibling = .node one nephew two) :
    ∃ next, deleteFixupSide T frame.side node (some frame.item.addr) = some (.leave next) ∧
      Focus next nil (ended frame rest) tree := by
  obtain ⟨above, beside, loadAbove, -, isBrother, loadBrother, color, nearTop, farTop⟩ :=
    focus.load_brother isSibling
  have atBrother := focus.atBrother isSibling
  rw [isFar] at atBrother
  have atNear : Focus T nil (⟨frame.side, brother, .leaf⟩ ::
      ⟨frame.side.other, frame.item, tree⟩ :: rest) (.node one nephew two) := by
    rw [focus_cons, Frame.fill, ← isNear]
    exact atBrother
  obtain ⟨painted, paints, focusPainted⟩ := @Focus.setColor nil T one two _ nephew .left atNear BLACK
  have turned : Focus painted nil (⟨frame.side.other, frame.item, tree⟩ :: rest)
      (.join frame.side.other .leaf brother (.join frame.side.other
        (childOf frame.side.other (.node one nephew two)) { nephew with color := BLACK }
        (childOf frame.side (.node one nephew two)))) := by
    have up := focus_cons.mp focusPainted
    rw [Frame.fill] at up
    rw [BinTree.join_other, BinTree.join_other]
    have same := join_childOf frame.side one { nephew with color := BLACK } two
    rw [show childOf frame.side (.node one nephew two) =
        childOf frame.side (.node one { nephew with color := BLACK } two) by cases frame.side <;> rfl,
      show childOf frame.side.other (.node one nephew two) =
        childOf frame.side.other (.node one { nephew with color := BLACK } two) by
          cases frame.side <;> rfl, same]
    exact up
  obtain ⟨first, rotatesFirst, focusFirst⟩ := rotate_eq_some turned
  have back : Focus first nil (⟨frame.side, frame.item, .join frame.side
      (childOf frame.side (.node one nephew two)) { nephew with color := brother.color }
      (.join frame.side.other .leaf { brother with color := BLACK }
        (childOf frame.side.other (.node one nephew two)))⟩ :: rest) tree := by
    apply focus_sibling.mpr
    rw [BinTree.join_other] at focusFirst
    exact focusFirst
  obtain ⟨next, rotates, focusNext⟩ := rotate_sibling back
  have noFar : beside.child frame.side.other = T.nil := by
    rw [farTop, isFar, focus.isNil]
    rfl
  have hasNear : beside.child frame.side ≠ T.nil := by
    rw [nearTop, isNear, focus.isNil]
    exact fun same => atNear.real_node (Option.some.inj same)
  refine ⟨next, ?_, ?_⟩
  · rw [isNear] at nearTop
    simp only [deleteFixupSide, loadAbove, Option.bind_eq_bind, Option.bind_some, isBrother,
      loadBrother, color, if_neg black, noFar, ne_eq, not_true_eq_false, if_false]
    rw [if_pos hasNear]
    simp only [nearTop, top, paints, Option.bind_some, rotatesFirst, rotates]
    rfl
  · have isEnded : ended frame rest =
        lowered frame brother (childOf frame.side (.node one nephew two)) ::
        lifted frame nephew (.join frame.side.other .leaf { brother with color := BLACK }
          (childOf frame.side.other (.node one nephew two))) :: rest := by
      simp only [ended, isFar, isNear]
      rw [isSibling]
    rw [isEnded]
    exact focusNext

/-- A red parent above a brother without children: they exchange their colours. -/
private theorem deleteFixupSide_swap (focus : Focus T nil (frame :: rest) tree)
    (isSibling : frame.sibling = .node .leaf brother .leaf) (black : brother.color ≠ RED)
    (red : frame.item.color = RED) :
    ∃ next, deleteFixupSide T frame.side node (some frame.item.addr) = some (.leave next) ∧
      Focus next nil (ended frame rest) tree := by
  obtain ⟨above, beside, loadAbove, colorAbove, isBrother, loadBrother, color, nearTop, farTop⟩ :=
    focus.load_brother isSibling
  have noChild (side : Side) : childOf side frame.sibling = .leaf := by
    rw [isSibling]
    cases side <;> rfl
  have noNear : beside.child frame.side = T.nil := by
    rw [nearTop, noChild, focus.isNil]
    rfl
  have noFar : beside.child frame.side.other = T.nil := by
    rw [farTop, noChild, focus.isNil]
    rfl
  have atBrother := focus_sibling.mp focus
  rw [isSibling] at atBrother
  obtain ⟨next, swaps, focusNext⟩ := @Focus.swapColor_down nil T .leaf .leaf rest brother
    ⟨frame.side.other, frame.item, tree⟩ .left atBrother
  refine ⟨next, ?_, ?_⟩
  · simp only [deleteFixupSide, loadAbove, Option.bind_eq_bind, Option.bind_some, isBrother,
      loadBrother, color, if_neg black, noFar, noNear, ne_eq, not_true_eq_false, if_false, colorAbove,
      if_pos red]
    simp only [swaps, Option.bind_some]
    rfl
  · have isEnded : ended frame rest = ⟨frame.side, { frame.item with color := brother.color },
        paint frame.item.color frame.sibling⟩ :: rest := by
      simp only [ended, noChild]
      rw [isSibling]
    rw [isEnded, isSibling]
    exact focus_sibling.mpr focusNext

/-- A black brother with a child, or below a red parent: the fix-up ends. -/
private theorem deleteFixupSide_ended (focus : Focus T nil (frame :: rest) tree)
    (black : ¬ isRed frame.sibling) (ends : endsAt frame = true) :
    ∃ next, deleteFixupSide T frame.side node (some frame.item.addr) = some (.leave next) ∧
      Focus next nil (ended frame rest) tree := by
  cases isSibling : frame.sibling with
  | leaf =>
      rw [endsAt, isSibling] at ends
      contradiction
  | node left brother right =>
      rw [isSibling] at black
      cases isFar : childOf frame.side.other frame.sibling with
      | node one nephew two => exact deleteFixupSide_far focus isSibling black isFar
      | leaf =>
          cases isNear : childOf frame.side frame.sibling with
          | node one nephew two => exact deleteFixupSide_near focus isSibling black isFar isNear
          | leaf =>
              have noChildren : left = .leaf ∧ right = .leaf := by
                rw [isSibling] at isFar isNear
                cases isSide : frame.side with
                | left =>
                    rw [isSide] at isFar isNear
                    exact ⟨isNear, isFar⟩
                | right =>
                    rw [isSide] at isFar isNear
                    exact ⟨isFar, isNear⟩
              rw [noChildren.1, noChildren.2] at isSibling
              apply deleteFixupSide_swap focus isSibling black
              rw [endsAt, isSibling] at ends
              simpa [BinTree.isLeaf] using ends

/-! ### One turn -/

/-- Both children are there, or none is. -/
def Paired (left right : BinTree Cell) : Prop := left = .leaf ↔ right = .leaf

private theorem deleteFixupTurn_paired (focus : Focus T nil trail (.node left cell right))
    (paired : Paired left right) (black : cell.color ≠ RED) :
    deleteFixupTurn (T, some cell.addr) =
      if T.root = some cell.addr then some (.leave { T with root := T.nil })
      else do
        let above ← T.load (some (parentOf nil trail))
        if some cell.addr = above.left then
          deleteFixupSide T .left (some cell.addr) (some (parentOf nil trail))
        else if some cell.addr = above.right then
          deleteFixupSide T .right (some cell.addr) (some (parentOf nil trail))
        else return .leave T := by
  have here : T.load (some cell.addr) = some _ := @Focus.load nil T left right trail cell .left focus
  have children := @Focus.child_eq_nil_iff nil T left right cell .left trail focus
  have isLeft : (cell.node .left (top nil left) (top nil right) (parentOf nil trail)).left = T.nil ↔
      left = .leaf := children.1
  have isRight : (cell.node .left (top nil left) (top nil right) (parentOf nil trail)).right = T.nil ↔
      right = .leaf := children.2
  have notLeft : ¬ ((cell.node .left (top nil left) (top nil right) (parentOf nil trail)).left ≠ T.nil ∧
      (cell.node .left (top nil left) (top nil right) (parentOf nil trail)).right = T.nil) := by
    rw [ne_eq, isLeft, isRight]
    exact fun both => both.1 (paired.mpr both.2)
  have notRight : ¬ ((cell.node .left (top nil left) (top nil right) (parentOf nil trail)).left = T.nil ∧
      (cell.node .left (top nil left) (top nil right) (parentOf nil trail)).right ≠ T.nil) := by
    rw [ne_eq, isLeft, isRight]
    exact fun both => both.2 (paired.mp both.1)
  simp only [deleteFixupTurn, here, Option.bind_eq_bind, Option.bind_some, if_neg notLeft,
    if_neg notRight, node_color, if_neg black, node_parent]
  rfl

/-- A red node without children needs no fix-up. -/
theorem deleteFixupTurn_red (focus : Focus T nil trail (.node .leaf cell .leaf))
    (red : cell.color = RED) : deleteFixupTurn (T, some cell.addr) = some (.leave T) := by
  have here : T.load (some cell.addr) = some _ := @Focus.load nil T .leaf .leaf trail cell .left focus
  simp only [deleteFixupTurn, here, Option.bind_eq_bind, Option.bind_some, Cell.node, top, focus.isNil,
    ne_eq, not_true_eq_false, false_and, and_false, if_false, if_pos red]
  rfl

/-- The turn at the root: `T->root` is set to `T->nil`, whatever is below. -/
private theorem deleteFixupTurn_root (focus : Focus T nil [] (.node left cell right))
    (paired : Paired left right) (black : cell.color ≠ RED) :
    deleteFixupTurn (T, some cell.addr) = some (.leave { T with root := T.nil }) := by
  rw [deleteFixupTurn_paired focus paired black]
  exact if_pos focus.root

private theorem root_ne (focus : Focus T nil (frame :: rest) (.node left cell right)) :
    T.root ≠ some cell.addr := by
  rw [focus.root]
  intro same
  have others := (List.pairwise_cons.mp (@Shape.apart_join _ _ left right _ cell .left focus.shape).distinct).1
  obtain ⟨item, member, isRoot⟩ := rootOf_mem (top nil (.node left cell right)) frame rest
  apply others item
  · exact List.mem_append_right _ member
  · rw [← Option.some.inj same, isRoot]

private theorem deleteFixupTurn_below (focus : Focus T nil (frame :: rest) (.node left cell right))
    (paired : Paired left right) (black : cell.color ≠ RED) :
    deleteFixupTurn (T, some cell.addr) =
      deleteFixupSide T frame.side (some cell.addr) (some frame.item.addr) := by
  obtain ⟨above, loadAbove, -, child, childOther, -⟩ :=
    @Focus.load_frame_child nil T left right rest cell frame .left focus
  have notSibling := @Focus.sibling_ne nil T left right rest cell frame .left focus
  rw [deleteFixupTurn_paired focus paired black, if_neg (root_ne focus)]
  simp only [parentOf, loadAbove, Option.bind_eq_bind, Option.bind_some]
  cases isSide : frame.side with
  | left =>
      rw [isSide] at child
      exact if_pos child.symm
  | right =>
      rw [isSide] at child childOther
      have notLeft : some cell.addr ≠ above.left := by
        intro same
        exact notSibling (Option.some.inj (same.trans childOther)).symm
      rw [if_neg notLeft]
      exact if_pos child.symm

/-! ### The loop -/

/-- What a climb finds: the brother is painted red, and it is the turn of the parent. -/
private theorem loop_climbs (focus : Focus T nil (frame :: rest) (.node left cell right))
    (paired : Paired left right) (black : cell.color ≠ RED) (brotherBlack : ¬ isRed frame.sibling)
    (goesOn : endsAt frame = false) (there : frame.sibling.isLeaf = false) (fuel : Nat) :
    ∃ next, Focus next nil rest
        (Frame.fill ⟨frame.side, frame.item, paint RED frame.sibling⟩ (.node left cell right)) ∧
      loop (fun state => .orFault (deleteFixupTurn state)) (fuel + 1) (T, some cell.addr) =
        loop (fun state => .orFault (deleteFixupTurn state)) fuel (next, some frame.item.addr) := by
  cases isSibling : frame.sibling with
  | leaf =>
      rw [isSibling] at there
      contradiction
  | node lower brother upper =>
      rw [isSibling] at brotherBlack
      obtain ⟨next, turn, focusNext⟩ :=
        @deleteFixupSide_climbs nil T lower upper _ brother frame rest (some cell.addr) focus isSibling
          brotherBlack goesOn
      rw [isSibling] at focusNext
      refine ⟨next, focus_cons.mp focusNext, ?_⟩
      have isTurn := deleteFixupTurn_below focus paired black
      exact loop_again (by rw [isTurn, turn, Turn.orFault])

/-- The parent with both subtrees, after a climb. -/
private theorem fill_eq_node (frame : Frame Cell) (there : frame.sibling.isLeaf = false) :
    ∃ lower upper, Frame.fill ⟨frame.side, frame.item, paint RED frame.sibling⟩
        (.node left cell right) = .node lower frame.item upper ∧ Paired lower upper := by
  cases isSibling : frame.sibling with
  | leaf =>
      rw [isSibling] at there
      contradiction
  | node one brother two =>
      cases isSide : frame.side with
      | left => exact ⟨_, _, rfl, iff_of_false (by simp) (by simp [paint])⟩
      | right => exact ⟨_, _, rfl, iff_of_false (by simp [paint]) (by simp)⟩

private theorem parent_black (goesOn : endsAt frame = false) (there : frame.sibling.isLeaf = false) :
    frame.item.color ≠ RED := by
  cases isSibling : frame.sibling with
  | leaf =>
      rw [isSibling] at there
      contradiction
  | node left brother right =>
      simp only [endsAt, isSibling, Bool.or_eq_false_iff, decide_eq_false_iff_not] at goesOn
      exact goesOn.2

/-- The fix-up leaves the trail `mend` gives, if the trail mends. -/
theorem deleteFixupLoop_mends (fuel : Nat) (focus : Focus T nil trail (.node left cell right))
    (paired : Paired left right) (black : cell.color ≠ RED) (ruled : Ruled trail False)
    (ends : mends trail = true) (enough : trail.length + 2 ≤ fuel) :
    ∃ next, loop (fun state => .orFault (deleteFixupTurn state)) fuel (T, some cell.addr) = some next ∧
      Focus next nil (mend trail) (.node left cell right) := by
  induction trail generalizing T left cell right fuel with
  | nil => contradiction
  | cons frame rest inductionHypothesis =>
      rw [List.length_cons] at enough
      obtain ⟨fuel, rfl⟩ := Nat.exists_eq_add_of_le' (Nat.one_le_of_lt enough)
      have isTurn := deleteFixupTurn_below focus paired black
      rw [mends] at ends
      cases isSibling : frame.sibling with
      | leaf => simp [isSibling, isRed, endsAt, BinTree.isLeaf] at ends
      | node lower brother upper =>
          by_cases red : isRed frame.sibling
          · -- the brother comes up, and the next turn ends the fix-up below the red parent
            rw [if_pos red, Bool.not_eq_true'] at ends
            have brotherRed : brother.color = RED := by
              rw [isSibling] at red
              exact red
            obtain ⟨turned, turn, focusTurned⟩ :=
              @deleteFixupSide_red nil T lower upper _ brother frame rest (some cell.addr) focus
                isSibling brotherRed
            have isTurnAgain := deleteFixupTurn_below focusTurned paired black
            have below : endsAt (lowered frame brother (childOf frame.side frame.sibling)) = true := by
              unfold endsAt lowered
              cases isNear : childOf frame.side frame.sibling with
              | leaf =>
                  rw [isNear] at ends
                  contradiction
              | node one nephew two => simp [brotherRed]
            obtain ⟨next, turnAgain, focusNext⟩ := @deleteFixupSide_ended nil turned _ _ _
              (some cell.addr) focusTurned (isRed_childOf ruled.2.1 red frame.side) below
            obtain ⟨less, rfl⟩ := Nat.exists_eq_add_of_le' (show 1 ≤ fuel by omega)
            refine ⟨next, ?_, ?_⟩
            · rw [loop_again (by rw [isTurn, turn, Turn.orFault])]
              exact loop_leave (by rw [isTurnAgain, turnAgain, Turn.orFault])
            · simp only [mend]
              rw [isSibling] at focusNext ⊢
              simp only [if_pos brotherRed]
              exact focusNext
          · rw [if_neg red] at ends
            have brotherBlack : brother.color ≠ RED := by
              rw [isSibling] at red
              exact red
            by_cases here : endsAt frame = true
            · obtain ⟨next, turn, focusNext⟩ :=
                @deleteFixupSide_ended nil T _ frame rest (some cell.addr) focus red here
              refine ⟨next, loop_leave (by rw [isTurn, turn, Turn.orFault]), ?_⟩
              simp only [mend]
              rw [isSibling]
              simp only [if_neg brotherBlack, if_pos here]
              exact focusNext
            · have goesOn := Bool.eq_false_of_not_eq_true here
              rw [goesOn, Bool.false_or, Bool.and_eq_true, Bool.not_eq_true'] at ends
              obtain ⟨next, focusNext, climbs⟩ :=
                loop_climbs focus paired black red goesOn ends.1 fuel
              obtain ⟨one, two, isNode, pairedAbove⟩ := @fill_eq_node left right cell frame ends.1
              rw [isNode] at focusNext
              have parentBlack := parent_black goesOn ends.1
              have higher : Ruled rest False := ruled.2.2.mono False.elim
              obtain ⟨last, ran, focusLast⟩ := inductionHypothesis fuel focusNext pairedAbove
                parentBlack higher ends.2 (by omega)
              refine ⟨last, climbs.trans ran, ?_⟩
              simp only [mend]
              rw [isSibling]
              simp only [if_neg brotherBlack, if_neg here]
              rw [← isNode, isSibling] at focusLast
              exact focus_cons.mpr focusLast

/-- The fix-up loses the tree, if it climbs to the root. -/
theorem deleteFixupLoop_loses (fuel : Nat) (focus : Focus T nil trail (.node left cell right))
    (paired : Paired left right) (black : cell.color ≠ RED) (isLost : loses trail = true)
    (enough : trail.length + 1 ≤ fuel) :
    ∃ next above, loop (fun state => .orFault (deleteFixupTurn state)) fuel (T, some cell.addr) =
        some { next with root := next.nil } ∧
      Focus next nil above (.node left cell right) ∧ above.length = trail.length := by
  induction trail generalizing T left cell right fuel with
  | nil =>
      obtain ⟨fuel, rfl⟩ := Nat.exists_eq_add_of_le' enough
      have turn := deleteFixupTurn_root focus paired black
      exact ⟨T, [], loop_leave (by rw [turn, Turn.orFault]), focus, rfl⟩
  | cons frame rest inductionHypothesis =>
      rw [List.length_cons] at enough
      obtain ⟨fuel, rfl⟩ := Nat.exists_eq_add_of_le' (Nat.one_le_of_lt enough)
      simp only [loses, Bool.and_eq_true, Bool.not_eq_true', decide_eq_false_iff_not] at isLost
      obtain ⟨⟨⟨brotherBlack, goesOn⟩, there⟩, higher⟩ := isLost
      obtain ⟨next, focusNext, climbs⟩ := loop_climbs focus paired black brotherBlack goesOn there fuel
      obtain ⟨one, two, isNode, pairedAbove⟩ := @fill_eq_node left right cell frame there
      rw [isNode] at focusNext
      obtain ⟨last, above, ran, focusLast, same⟩ := inductionHypothesis fuel focusNext pairedAbove
        (parent_black goesOn there) higher (by omega)
      refine ⟨last, ⟨frame.side, frame.item, paint RED frame.sibling⟩ :: above, climbs.trans ran, ?_,
        by rw [List.length_cons, List.length_cons, same]⟩
      rw [focus_cons, isNode]
      exact focusLast

/-- The fix-up faults, if it meets a brother that is not there. -/
theorem deleteFixupLoop_faults (null : nil.Null) (fuel : Nat)
    (focus : Focus T nil trail (.node left cell right)) (paired : Paired left right)
    (black : cell.color ≠ RED) (notMended : mends trail = false) (notLost : loses trail = false) :
    loop (fun state => .orFault (deleteFixupTurn state)) fuel (T, some cell.addr) = none := by
  induction trail generalizing T left cell right fuel with
  | nil => contradiction
  | cons frame rest inductionHypothesis =>
      have isTurn := deleteFixupTurn_below focus paired black
      cases isSibling : frame.sibling with
      | leaf =>
          have faults := @deleteFixupSide_leaf nil T _ frame rest (some cell.addr) null focus isSibling
          exact loop_fault (by rw [isTurn, faults, Turn.orFault])
      | node lower brother upper =>
          have there : frame.sibling.isLeaf = false := by
            rw [isSibling]
            rfl
          rw [mends] at notMended
          cases fuel with
          | zero => rfl
          | succ fuel =>
              by_cases red : isRed frame.sibling
              · rw [if_pos red, Bool.not_eq_false'] at notMended
                have brotherRed : brother.color = RED := by
                  rw [isSibling] at red
                  exact red
                obtain ⟨turned, turn, focusTurned⟩ :=
                  @deleteFixupSide_red nil T lower upper _ brother frame rest (some cell.addr) focus
                    isSibling brotherRed
                have isTurnAgain := deleteFixupTurn_below focusTurned paired black
                have faults := @deleteFixupSide_leaf nil turned _ _ _ (some cell.addr) null focusTurned
                  (BinTree.isLeaf_iff.mp notMended)
                rw [loop_again (by rw [isTurn, turn, Turn.orFault])]
                exact loop_fault (by rw [isTurnAgain, faults, Turn.orFault])
              · rw [if_neg red, Bool.or_eq_false_iff, there, Bool.not_false, Bool.true_and] at notMended
                obtain ⟨goesOn, higher⟩ := notMended
                simp only [loses, goesOn, there, decide_eq_false red, Bool.not_false,
                  Bool.true_and] at notLost
                obtain ⟨next, focusNext, climbs⟩ :=
                  loop_climbs focus paired black red goesOn there fuel
                obtain ⟨one, two, isNode, pairedAbove⟩ := @fill_eq_node left right cell frame there
                rw [isNode] at focusNext
                rw [climbs]
                exact inductionHypothesis fuel focusNext pairedAbove (parent_black goesOn there) higher
                  notLost

end

end SimpleBasicComponents.RbTree
