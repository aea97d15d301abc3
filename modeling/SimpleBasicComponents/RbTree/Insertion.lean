import SimpleBasicComponents.RbTree.Raise
import SimpleBasicComponents.RbTree.Rotation
import SimpleBasicComponents.RbTree.Search

/-!
Insertion.

Owns: one turn of `insert_fixup`, the whole loop, and the theorem that
`rbtree_insert` puts the entry of the new node where it belongs, or changes
nothing, and keeps the colour rule.
-/

namespace SimpleBasicComponents.RbTree

open SimpleBasicComponents.Semantics

section

variable {nil : Ground} {T : Rbtree} {near far : BinTree Cell} {cell : Cell} {side : Side}
  {frame above : Frame Cell} {rest trail : Trail Cell}

/-! ### One turn of the fix-up -/

private theorem Focus.load_nil (focus : Focus T nil trail near) :
    T.load (some nil.addr) = some nil.node := focus.shape.nilNode

private theorem insertFixupTurn_root (focus : Focus T nil [] (.join side near cell far)) :
    insertFixupTurn (T, some cell.addr) = some (.leave T) := by
  simp only [insertFixupTurn, focus.load, Option.bind_eq_bind, Option.bind_some, node_parent, parentOf,
    focus.load_nil, if_neg nil.notRed]
  rfl

private theorem insertFixupTurn_black (focus : Focus T nil (frame :: rest) (.join side near cell far))
    (black : frame.item.color ≠ RED) : insertFixupTurn (T, some cell.addr) = some (.leave T) := by
  obtain ⟨parent, found, color, -⟩ := focus.load_frame_child
  simp only [insertFixupTurn, focus.load, Option.bind_eq_bind, Option.bind_some, node_parent, parentOf,
    found, color, if_neg black]
  rfl

private theorem insertFixupTurn_red
    (focus : Focus T nil (frame :: above :: rest) (.join side near cell far))
    (red : frame.item.color = RED) : insertFixupTurn (T, some cell.addr) =
      insertFixupSide T above.side (some cell.addr) (some frame.item.addr) (some above.item.addr) := by
  obtain ⟨parent, found, color, -, -, isParent⟩ := focus.load_frame_child
  have upper := focus_cons.mp focus
  obtain ⟨pparent, foundAbove, -, child, childOther, -⟩ := upper.load_frame_child
  have notSibling := upper.sibling_ne
  simp only [insertFixupTurn, focus.load, Option.bind_eq_bind, Option.bind_some, node_parent, parentOf,
    found, color, if_pos red, isParent, foundAbove]
  cases isSide : above.side with
  | left =>
      rw [isSide] at child
      exact if_pos child.symm
  | right =>
      rw [isSide] at childOther
      have notLeft : some frame.item.addr ≠ pparent.left := by
        intro same
        exact notSibling (Option.some.inj (same.trans childOther)).symm
      exact if_neg notLeft

/-- A red uncle: the colours are exchanged and the fix-up goes on two nodes up. -/
private theorem insertFixupSide_recolored {tree : BinTree Cell} (node : Ptr)
    (focus : Focus T nil (frame :: above :: rest) tree) (red : isRed above.sibling) :
    ∃ next, insertFixupSide T above.side node (some frame.item.addr) (some above.item.addr) =
        some (.again (next, some above.item.addr)) ∧
      Focus next nil rest (recolored frame above tree) := by
  have middle := focus_cons.mp focus
  obtain ⟨pparent, foundAbove, -, -, childOther, -⟩ := middle.load_frame_child
  obtain ⟨uncleNode, atUncle, color⟩ := (focus_sibling.mp middle).load_top
  obtain ⟨swapped, swaps, focusSwapped⟩ := middle.swapColor_up
  have parentNode := focusSwapped.load
  have uncleSwapped := focus_sibling.mp focusSwapped
  simp only [withItem] at uncleSwapped
  cases isUncle : above.sibling with
  | leaf =>
      rw [isUncle] at red
      exact red.elim
  | node lower uncle upper =>
      rw [isUncle] at uncleSwapped childOther atUncle
      obtain ⟨next, colors, focusNext⟩ :=
        @Focus.setColor nil swapped lower upper _ uncle .left uncleSwapped above.item.color
      refine ⟨next, ?_, ?_⟩
      · simp only [insertFixupSide, foundAbove, Option.bind_eq_bind, Option.bind_some, childOther,
          atUncle, if_pos (color.mpr red), swaps, parentNode, node_color]
        simp only [top, colors, Option.bind_some]
        rfl
      · have back := focus_cons.mp focusNext
        rw [Frame.fill, BinTree.join_other] at back
        rw [recolored, isUncle]
        exact back

/-- A black uncle on the other side: one rotation. -/
private theorem insertFixupSide_straight
    (focus : Focus T nil (frame :: above :: rest) (.join side near cell far))
    (same : frame.side = above.side) (notRed : ¬ isRed above.sibling) :
    ∃ next, insertFixupSide T above.side (some cell.addr) (some frame.item.addr)
        (some above.item.addr) = some (.again (next, some cell.addr)) ∧
      Focus next nil rest (straight frame above (.join side near cell far)) := by
  have middle := focus_cons.mp focus
  obtain ⟨pparent, foundAbove, -, -, childOther, -⟩ := middle.load_frame_child
  obtain ⟨uncleNode, atUncle, color⟩ := (focus_sibling.mp middle).load_top
  obtain ⟨parentNode, foundParent, -, -, sibling, -⟩ := focus.load_frame_child
  have notInner : some cell.addr ≠ parentNode.child above.side.other := by
    rw [← same, sibling]
    exact fun isTop => focus.sibling_ne (Option.some.inj isTop).symm
  have turned : Focus T nil rest (.join above.side.other above.sibling above.item
      (.join above.side.other frame.sibling frame.item (.join side near cell far))) := by
    have whole := focus_cons.mp middle
    rw [Frame.fill, Frame.fill, same] at whole
    rw [BinTree.join_other, BinTree.join_other]
    exact whole
  obtain ⟨next, rotates, focusNext⟩ := rotate_eq_some turned
  refine ⟨next, ?_, focusNext⟩
  simp only [insertFixupSide, foundAbove, Option.bind_eq_bind, Option.bind_some, childOther, atUncle,
    if_neg fun red => notRed (color.mp red), foundParent, if_neg notInner, rotates]
  rfl

/-- A black uncle on the same side: two rotations. -/
private theorem insertFixupSide_bent {left right : BinTree Cell}
    (focus : Focus T nil (frame :: above :: rest) (.node left cell right))
    (differ : frame.side ≠ above.side) (notRed : ¬ isRed above.sibling) :
    ∃ next, insertFixupSide T above.side (some cell.addr) (some frame.item.addr)
        (some above.item.addr) = some (.again (next, some frame.item.addr)) ∧
      Focus next nil rest (bent frame above (.node left cell right) cell) := by
  have isOther := Side.eq_other_of_ne differ
  have middle := focus_cons.mp focus
  obtain ⟨pparent, foundAbove, -, -, childOther, -⟩ := middle.load_frame_child
  obtain ⟨uncleNode, atUncle, color⟩ := (focus_sibling.mp middle).load_top
  obtain ⟨parentNode, foundParent, -, child, -, -⟩ :=
    @Focus.load_frame_child nil T left right _ cell frame .left focus
  have inner : some cell.addr = parentNode.child above.side.other := by
    rw [← isOther, child]
  have lower : Focus T nil (above :: rest) (.join above.side frame.sibling frame.item
      (.join above.side (childOf above.side (.node left cell right)) cell
        (childOf above.side.other (.node left cell right)))) := by
    rw [Frame.fill, isOther, BinTree.join_other] at middle
    rw [join_childOf]
    exact middle
  obtain ⟨first, rotatesFirst, focusFirst⟩ := rotate_eq_some lower
  have upper : Focus first nil rest (.join above.side.other above.sibling above.item
      (.join above.side.other (childOf above.side.other (.node left cell right))
        { cell with color := frame.item.color }
        (.join above.side frame.sibling { frame.item with color := cell.color }
          (childOf above.side (.node left cell right))))) := by
    rw [BinTree.join_other, BinTree.join_other]
    exact focus_cons.mp focusFirst
  obtain ⟨next, rotates, focusNext⟩ := rotate_eq_some upper
  refine ⟨next, ?_, focusNext⟩
  simp only [insertFixupSide, foundAbove, Option.bind_eq_bind, Option.bind_some, childOther, atUncle,
    if_neg fun red => notRed (color.mp red), foundParent, if_pos inner, rotatesFirst, rotates]
  rfl

/-! ### The whole fix-up -/

/-- The loop of `insert_fixup` makes of the tree what `raise` does. -/
private theorem insertFixupLoop_eq_some {tree : BinTree Cell} (fuel : Nat)
    (focus : Focus T nil trail tree) (red : isRed tree) (ruled : Ruled trail False)
    (enough : trail.length + 1 < fuel) :
    ∃ next, loop (fun state => .orFault (insertFixupTurn state)) fuel (T, some (top nil tree)) =
        some next ∧ Focus next nil [] (raise trail tree) := by
  obtain ⟨fuel, rfl⟩ := Nat.exists_eq_add_of_le' (Nat.one_le_of_lt enough)
  fun_induction raise trail tree generalizing T fuel with
  | case1 frame above rest left cell right parentRed uncleRed ih =>
      obtain ⟨next, turn, focusNext⟩ :=
        insertFixupSide_recolored (some cell.addr) focus uncleRed
      have isTurn := @insertFixupTurn_red nil T left right cell .left frame above rest focus parentRed
      have higher := (ruled.two parentRed).2.2.2.2
      simp only [List.length_cons] at enough
      obtain ⟨less, rfl⟩ : ∃ less, fuel = less + 1 := ⟨fuel - 1, by omega⟩
      obtain ⟨last, ran, focusLast⟩ :=
        ih focusNext (isRed_join.mpr parentRed) higher less (by omega)
      refine ⟨last, ?_, focusLast⟩
      rw [top, loop_again (by rw [isTurn, turn, Turn.orFault])]
      rw [recolored, top_join] at ran
      exact ran
  | case2 frame above rest left cell right parentRed uncleBlack same =>
      have isTurn := @insertFixupTurn_red nil T left right cell .left frame above rest focus parentRed
      obtain ⟨next, turn, focusNext⟩ :=
        @insertFixupSide_straight nil T left right cell .left frame above rest focus same uncleBlack
      have aboveBlack := (ruled.two parentRed).2.2.1
      have below : Focus next nil (⟨above.side, { frame.item with color := above.item.color },
          .join above.side.other above.sibling { above.item with color := frame.item.color }
            frame.sibling⟩ :: rest) (.node left cell right) := by
        rw [focus_cons, Frame.fill, ← BinTree.join_other]
        exact focusNext
      have ends := @insertFixupTurn_black nil next left right cell .left _ rest below aboveBlack
      obtain ⟨less, rfl⟩ : ∃ less, fuel = less + 1 := ⟨fuel - 1, by omega⟩
      refine ⟨next, ?_, focus_plug.mp focusNext⟩
      rw [top, loop_again (by rw [isTurn, turn, Turn.orFault]), loop_leave (by rw [ends, Turn.orFault])]
  | case3 frame above rest left cell right parentRed uncleBlack differ =>
      have isTurn := @insertFixupTurn_red nil T left right cell .left frame above rest focus parentRed
      obtain ⟨next, turn, focusNext⟩ := insertFixupSide_bent focus differ uncleBlack
      have aboveBlack := (ruled.two parentRed).2.2.1
      have below : Focus next nil (⟨above.side, { cell with color := above.item.color },
          .join above.side.other above.sibling { above.item with color := frame.item.color }
            (childOf above.side.other (.node left cell right))⟩ :: rest)
          (.join above.side frame.sibling { frame.item with color := cell.color }
            (childOf above.side (.node left cell right))) := by
        rw [focus_cons, Frame.fill, ← BinTree.join_other]
        exact focusNext
      have ends := insertFixupTurn_black below aboveBlack
      obtain ⟨less, rfl⟩ : ∃ less, fuel = less + 1 := ⟨fuel - 1, by omega⟩
      refine ⟨next, ?_, focus_plug.mp focusNext⟩
      rw [top, loop_again (by rw [isTurn, turn, Turn.orFault]), loop_leave (by rw [ends, Turn.orFault])]
  | case4 frame above rest left cell right notRed =>
      have ends := @insertFixupTurn_black nil T left right cell .left frame _ focus notRed
      have whole : Focus T nil [] (Trail.plug (frame :: above :: rest) (.node left cell right)) :=
        focus_plug.mp focus
      refine ⟨T, ?_, whole⟩
      rw [top, loop_leave (by rw [ends, Turn.orFault])]
  | case5 trail tree short =>
      cases tree with
      | leaf => cases red
      | node left cell right =>
          cases trail with
          | nil =>
              have ends := @insertFixupTurn_root nil T left right cell .left focus
              refine ⟨T, ?_, focus⟩
              rw [top, loop_leave (by rw [ends, Turn.orFault])]
          | cons frame outer =>
              cases outer with
              | nil =>
                  have ends :=
                    @insertFixupTurn_black nil T left right cell .left frame _ focus ruled.2.2
                  refine ⟨T, ?_, focus_plug.mp focus⟩
                  rw [top, loop_leave (by rw [ends, Turn.orFault])]
              | cons above rest => exact (short _ _ _ _ _ _ rfl rfl).elim

/-- A tree that is not empty is painted at its root. -/
private theorem setColor_root {left right : BinTree Cell} (focus : Focus T nil [] (.node left cell right))
    (color : UInt8) : ∃ next, T.setColor T.root color = some next ∧
      Focus next nil [] (paint color (.node left cell right)) := by
  have isRoot : T.root = some cell.addr := focus.root
  rw [isRoot]
  exact @Focus.setColor nil T left right [] cell .left focus color

theorem insertFixup_eq_some {left right : BinTree Cell}
    (focus : Focus T nil (frame :: rest) (.node left cell right)) (red : cell.color = RED)
    (ruled : Ruled (frame :: rest) False) :
    ∃ next, insertFixup T (some cell.addr) = some next ∧
      Focus next nil [] (settle (frame :: rest) (.node left cell right)) := by
  obtain ⟨parent, found, color, -⟩ := @Focus.load_frame_child nil T left right _ cell frame .left focus
  have here : T.load (some cell.addr) = some _ := @Focus.load nil T left right _ cell .left focus
  by_cases isBlack : frame.item.color = BLACK
  · refine ⟨T, ?_, ?_⟩
    · simp only [insertFixup, here, Option.bind_eq_bind, Option.bind_some, node_parent, parentOf, found,
        color, if_pos isBlack]
      rfl
    · rw [settle, if_pos isBlack, ← Trail.plug_cons]
      exact focus_plug.mp focus
  · have size := (Trail.length_le_size_plug (frame :: rest) (.node left cell right)).trans_lt focus.size_lt
    have enough : (frame :: rest).length + 1 < T.turns := by
      simp only [BinTree.size] at size
      unfold Rbtree.turns
      omega
    obtain ⟨raised, ran, focusRaised⟩ := insertFixupLoop_eq_some T.turns focus red ruled enough
    rw [settle, if_neg isBlack]
    have kept := records_raise (frame :: rest) (.node left cell right)
    generalize raise (frame :: rest) (.node left cell right) = tree at focusRaised kept ⊢
    cases tree with
    | leaf =>
        have isCell : cell.record ∈ records (Trail.plug (frame :: rest) (.node left cell right)) := by
          rw [records, Trail.toList_plug]
          simp [BinTree.toList]
        rw [← kept] at isCell
        exact absurd isCell List.not_mem_nil
    | node lower root upper =>
        obtain ⟨next, paints, focusNext⟩ := setColor_root focusRaised BLACK
        refine ⟨next, ?_, focusNext⟩
        rw [top] at ran
        simp only [insertFixup, here, Option.bind_eq_bind, Option.bind_some, node_parent, parentOf, found,
          color, if_neg isBlack, ran, paints]

private theorem insertFixup_root (focus : Focus T nil [] (.join side near cell far)) :
    insertFixup T (some cell.addr) = some T := by
  have isBlack : nil.node.color = BLACK := nil.black
  simp only [insertFixup, focus.load, Option.bind_eq_bind, Option.bind_some, node_parent, parentOf,
    focus.load_nil, if_pos isBlack]
  rfl

/-! ### The new node -/

private theorem rbNodeInit_eq_some {tree : BinTree Cell} {addr : Addr} {fresh : RbtreeNode}
    (focus : Focus T nil trail tree) (found : T.heap.load addr = some fresh) (real : addr ≠ nil.addr)
    (notHere : ∀ cell ∈ tree.toList ++ trail.items, cell.addr ≠ addr) (parent : Addr) :
    ∃ next, rbNodeInit T (some addr) (some parent) = some next ∧ Focus next nil trail tree ∧
      next.heap.load addr =
        some ((⟨addr, RED, fresh.key, fresh.value⟩ : Cell).node .left nil.addr nil.addr parent) := by
  obtain ⟨next, assigns, sameRoot, sameNil, loads⟩ := assign_eq_some found fun node =>
    { node with parent := some parent, left := T.nil, right := T.nil, color := RED }
  refine ⟨next, assigns, focus.congr sameRoot sameNil ?_ ?_, ?_⟩
  · rw [loads, Function.update_of_ne real.symm]
  · intro cell member
    rw [loads, Function.update_of_ne (notHere cell member)]
  · rw [loads, Function.update_self, focus.isNil]
    rfl

private theorem apart_node (apart : Apart nil trail.items) (real : cell.addr ≠ nil.addr)
    (notHere : ∀ other ∈ trail.items, other.addr ≠ cell.addr) :
    Apart nil ((BinTree.node .leaf cell .leaf).toList ++ trail.items) where
  real other member := by
    rcases List.mem_cons.mp member with rfl | inTrail
    · exact real
    · exact apart.real other inTrail
  distinct := List.pairwise_cons.mpr
    ⟨fun other member => (notHere other member).symm, apart.distinct⟩

/-- The first node is painted black. -/
private theorem linkNew_root (focus : Focus T nil [] .leaf) (real : cell.addr ≠ nil.addr)
    (found : T.heap.load cell.addr = some (cell.node .left nil.addr nil.addr nil.addr)) (key : Int32) :
    ∃ next, linkNew T key (some cell.addr) (some nil.addr) = some next ∧
      Focus next nil [] (.node .leaf { cell with color := BLACK } .leaf) := by
  have grown : Focus { T with root := some cell.addr } nil [] (.node .leaf cell .leaf) :=
    ⟨focus.isNil, rfl, focus.shape.nilNode, ⟨found, trivial, trivial⟩, trivial,
      apart_node ⟨by simp [Trail.items], List.Pairwise.nil⟩ real (by simp [Trail.items])⟩
  obtain ⟨next, paints, focusNext⟩ :=
    @Focus.setColor nil _ .leaf .leaf [] cell .left grown BLACK
  refine ⟨next, ?_, focusNext⟩
  rw [linkNew, if_pos focus.isNil.symm]
  exact paints

private theorem linkNew_below (focus : Focus T nil (frame :: rest) .leaf) (real : cell.addr ≠ nil.addr)
    (notHere : ∀ other ∈ Trail.items (frame :: rest), other.addr ≠ cell.addr)
    (found : T.heap.load cell.addr = some (cell.node .left nil.addr nil.addr frame.item.addr)) {key : Int32}
    (place : frame.side = .left ↔ key < frame.item.key) :
    ∃ next, linkNew T key (some cell.addr) (some frame.item.addr) = some next ∧
      Focus next nil (frame :: rest) (.node .leaf cell .leaf) := by
  obtain ⟨isNil, root, nilNode, linked, above, apart⟩ := focus
  have atParent := above.1
  have notNil : some frame.item.addr ≠ T.nil := by
    rw [isNil]
    exact fun same => apart.real frame.item (by simp [Trail.items]) (Option.some.inj same)
  obtain ⟨next, assigns, sameRoot, sameNil, loads⟩ := assign_eq_some atParent
    fun node => node.withChild frame.side (some cell.addr)
  rw [node_withChild] at loads
  refine ⟨next, ?_, sameNil.trans isNil, sameRoot.trans root, ?_, ⟨?_, trivial, trivial⟩, ?_, ?_⟩
  · have loadParent : T.load (some frame.item.addr) = some _ := atParent
    rw [linkNew, if_neg notNil]
    simp only [loadParent, Option.bind_eq_bind, Option.bind_some, node_key]
    cases isSide : frame.side with
    | left =>
        rw [if_pos (place.mp isSide), Rbtree.setChild, ← isSide, assigns]
    | right =>
        have notLess : ¬ key < frame.item.key := by
          rw [← place, isSide]
          simp
        rw [if_neg notLess, Rbtree.setChild, ← isSide, assigns]
  · rw [loads, Function.update_of_ne (apart.real frame.item (by simp [Trail.items])).symm]
    exact nilNode
  · rw [loads, Function.update_of_ne (notHere frame.item List.mem_cons_self).symm]
    exact found
  · rw [loads]
    exact above.retarget apart cell.addr
  · exact apart_node apart real notHere

/-- `rbtree_insert` puts a new node in its place, or changes nothing. -/
theorem rbtreeInsert_eq_some {tree : BinTree Cell} {addr : Addr} {fresh : RbtreeNode}
    (focus : Focus T nil [] tree) (ordered : tree.Ordered keyOf) (colored : Colored tree)
    (found : T.heap.load addr = some fresh) (real : addr ≠ nil.addr)
    (notHere : ∀ cell ∈ tree.toList, cell.addr ≠ addr) :
    ∃ next, rbtreeInsert T (some addr) = some next ∧
      match tree.zoom keyOf fresh.key.toInt [] with
      | (.leaf, trail) => Focus next nil []
          (settle trail (.node .leaf ⟨addr, RED, fresh.key, fresh.value⟩ .leaf))
      | (.node _ _ _, _) => next = T := by
  have search := insertLoop_spec focus fresh.key
  have whole := @BinTree.plug_zoom _ _ _ keyOf fresh.key.toInt tree []
  have loads : T.load (some addr) = some fresh := found
  cases isZoom : tree.zoom keyOf fresh.key.toInt [] with
  | mk place trail =>
      rw [isZoom] at search whole
      cases place with
      | node left cell right =>
          refine ⟨T, ?_, rfl⟩
          simp only [rbtreeInsert, loads, Option.bind_eq_bind, Option.bind_some, search]
          rfl
      | leaf =>
          rw [Trail.plug_nil] at whole
          simp only at whole search ⊢
          obtain ⟨before, after⟩ := BinTree.zoom_between_of_ordered ordered isZoom
          rw [← whole] at focus colored notHere
          have ruled : Ruled trail False := (colored_plug.mp colored).2
          have cells := Trail.toList_plug_perm trail (.leaf : BinTree Cell)
          have fresh' : ∀ cell ∈ (BinTree.leaf : BinTree Cell).toList ++ trail.items, cell.addr ≠ addr :=
            fun cell member => notHere cell (cells.mem_iff.mpr member)
          obtain ⟨ready, inits, focusReady, foundReady⟩ := rbNodeInit_eq_some (focus_plug.mpr focus)
            found real fresh' (parentOf nil trail)
          cases trail with
          | nil =>
              obtain ⟨linked, links, focusLinked⟩ := @linkNew_root nil ready
                ⟨addr, RED, fresh.key, fresh.value⟩ focusReady real foundReady fresh.key
              refine ⟨linked, ?_, focusLinked⟩
              have stays := @insertFixup_root nil linked .leaf .leaf _ .left focusLinked
              simp only [rbtreeInsert, loads, Option.bind_eq_bind, Option.bind_some, search, inits]
              simp only [parentOf, links, Option.bind_some, stays]
          | cons frame rest =>
              have place : frame.side = .left ↔ fresh.key < frame.item.key := by
                obtain ⟨side, item, sibling⟩ := frame
                cases side with
                | left =>
                    have less := after item (by simp [Trail.after])
                    exact iff_of_true rfl (lt_keyOf_iff.mpr less)
                | right =>
                    have more := before item (by simp [Trail.before])
                    exact iff_of_false (by simp) fun less => more.not_gt (lt_keyOf_iff.mp less)
              obtain ⟨linked, links, focusLinked⟩ := @linkNew_below nil ready
                ⟨addr, RED, fresh.key, fresh.value⟩ frame rest focusReady real
                (fun cell member => fresh' cell (List.mem_append_right _ member)) foundReady _ place
              obtain ⟨next, fixes, focusNext⟩ := insertFixup_eq_some focusLinked rfl ruled
              refine ⟨next, ?_, focusNext⟩
              simp only [rbtreeInsert, loads, Option.bind_eq_bind, Option.bind_some, search, inits]
              simp only [parentOf, links, Option.bind_some, fixes]

/-! ### The red-black invariant -/

/-- `rbtree_insert` returns; it puts a node with a key that is not there between the
smaller and the greater keys, and changes nothing otherwise. -/
theorem rbtreeInsert_spec {tree : BinTree Cell} {addr : Addr} {fresh : RbtreeNode}
    (focus : Focus T nil [] tree) (ordered : tree.Ordered keyOf) (colored : Colored tree)
    (found : T.heap.load addr = some fresh) (real : addr ≠ nil.addr)
    (notHere : ∀ cell ∈ tree.toList, cell.addr ≠ addr) :
    ∃ next, rbtreeInsert T (some addr) = some next ∧
      ((∃ cell ∈ tree.toList, cell.key = fresh.key) → next = T) ∧
      ((∀ cell ∈ tree.toList, cell.key ≠ fresh.key) → ∃ trail, Trail.plug trail .leaf = tree ∧
        (∀ item ∈ trail.before, keyOf item < fresh.key.toInt) ∧
        (∀ item ∈ trail.after, fresh.key.toInt < keyOf item) ∧
        Focus next nil [] (settle trail (.node .leaf ⟨addr, RED, fresh.key, fresh.value⟩ .leaf))) := by
  have ⟨next, inserts, result⟩ := rbtreeInsert_eq_some focus ordered colored found real notHere
  have whole := @BinTree.plug_zoom _ _ _ keyOf fresh.key.toInt tree []
  refine ⟨next, inserts, ?_⟩
  cases isZoom : tree.zoom keyOf fresh.key.toInt [] with
  | mk place trail =>
      rw [isZoom] at result whole
      have absent_iff := zoom_leaf_iff ordered isZoom
      cases place with
      | node left cell right =>
          refine ⟨fun _ => result, fun absent => ?_⟩
          have isLeaf := absent_iff.mpr absent
          contradiction
      | leaf =>
          have absent := absent_iff.mp rfl
          have between := BinTree.zoom_between_of_ordered ordered isZoom
          refine ⟨fun present => ?_, fun _ => ⟨trail, whole, between.1, between.2, result⟩⟩
          have ⟨cell, member, same⟩ := present
          exact absurd same (absent cell member)

/-- A fresh node is not part of the tree. -/
theorem Focus.alloc {tree : BinTree Cell} (focus : Focus T nil trail tree) (fresh : RbtreeNode) :
    Focus { T with heap := T.heap.alloc fresh } nil trail tree := by
  have keepsNil := focus.shape.nilNode
  have loaded : ∀ cell ∈ tree.toList ++ trail.items, ∃ node, T.heap.load cell.addr = some node := by
    intro cell member
    have whole := (focus_plug.mp focus).shape.linked
    have isIn := (Trail.toList_plug_perm trail tree).mem_iff.mpr member
    have ⟨node, found, _⟩ := whole.loaded_cell isIn
    exact ⟨node, found⟩
  refine @Focus.congr nil tree trail T _ focus rfl rfl ?_ ?_
  · rw [keepsNil]
    exact Heap.load_alloc_of_load keepsNil
  · intro cell member
    have ⟨node, found⟩ := loaded cell member
    rw [found]
    exact Heap.load_alloc_of_load found

/-- A call of `rbtree_insert` with a fresh node. -/
theorem step_insert {tree : BinTree Cell} (focus : Focus T nil [] tree) (ordered : tree.Ordered keyOf)
    (colored : Colored tree) (key : Int32) (value : Nat) :
    ∃ next, step T (.insert key value) = some (next, [.inserted key value]) ∧
      ((∃ cell ∈ tree.toList, cell.key = key) → Focus next nil [] tree) ∧
      ((∀ cell ∈ tree.toList, cell.key ≠ key) → ∃ trail, Trail.plug trail .leaf = tree ∧
        (∀ item ∈ trail.before, keyOf item < key.toInt) ∧
        (∀ item ∈ trail.after, key.toInt < keyOf item) ∧
        Focus next nil [] (settle trail (.node .leaf ⟨T.heap.length, RED, key, value⟩ .leaf))) := by
  have grown := focus.alloc { color := 0, left := none, right := none, parent := none, key, value }
  have real : T.heap.length ≠ nil.addr := (Heap.lt_length_of_load focus.shape.nilNode).ne'
  have notHere : ∀ cell ∈ tree.toList, cell.addr ≠ T.heap.length := by
    intro cell member
    have ⟨node, found, _⟩ := focus.shape.linked.loaded_cell member
    exact (Heap.lt_length_of_load found).ne
  have ⟨next, inserts, present, absent⟩ :=
    rbtreeInsert_spec grown ordered colored Heap.load_alloc_self real notHere
  refine ⟨next, ?_, fun isIn => ?_, absent⟩
  · simp only [step, inserts, Option.bind_eq_bind, Option.bind_some]
    rfl
  · rw [present isIn]
    exact grown

/-- `rbtree_insert` returns, adds the entry of a new node whose key is not there,
and keeps the tree a red-black tree; it leaves everything as it is otherwise. -/
theorem rbtreeInsert_redBlack {tree : BinTree Cell} {addr : Addr} {fresh : RbtreeNode}
    (focus : Focus T nil [] tree) (redBlack : RedBlack tree) (found : T.heap.load addr = some fresh)
    (real : addr ≠ nil.addr) (notHere : ∀ cell ∈ tree.toList, cell.addr ≠ addr) :
    ∃ next, rbtreeInsert T (some addr) = some next ∧
      ((∃ cell ∈ tree.toList, cell.key = fresh.key) → next = T) ∧
      ((∀ cell ∈ tree.toList, cell.key ≠ fresh.key) → ∃ grown smaller greater,
        Focus next nil [] grown ∧ RedBlack grown ∧ entries tree = smaller ++ greater ∧
          entries grown = smaller ++ (fresh.key, fresh.value) :: greater) := by
  have ⟨next, inserts, present, grows⟩ :=
    rbtreeInsert_spec focus redBlack.ordered redBlack.colored found real notHere
  refine ⟨next, inserts, present, fun absent => ?_⟩
  have ⟨trail, whole, before, after, focusNext⟩ := grows absent
  rw [← whole] at redBlack
  refine ⟨_, trail.before.map Cell.entry, trail.after.map Cell.entry, focusNext,
    redBlack_settle redBlack rfl before after, ?_, ?_⟩
  · rw [← whole, entries_plug]
    simp [entries, BinTree.toList]
  · rw [entries_of_records (records_settle _ _), entries_plug]
    simp [entries, BinTree.toList, Cell.entry]

end

/-! ### An insertion that recolours -/

/-- The nodes with the keys 2, 1 and 3, and a new one with the key 4. -/
def threeNodes : Rbtree where
  heap := [some ⟨BLACK, none, none, some 0, 0, 0⟩, some ⟨BLACK, some 2, some 3, some 0, 2, 20⟩,
    some ⟨RED, some 0, some 0, some 1, 1, 10⟩, some ⟨RED, some 0, some 0, some 1, 3, 30⟩,
    some ⟨0, none, none, none, 4, 40⟩]
  root := some 1
  nil := some 0

theorem threeNodes_redBlack : ∃ next, rbtreeInsert threeNodes (some 4) = some next ∧
    ∃ nil grown, Focus next nil [] grown ∧ RedBlack grown := by
  have focus : Focus threeNodes ⟨0, ⟨BLACK, none, none, some 0, 0, 0⟩, rfl⟩ []
      (.node (.node .leaf ⟨2, RED, 1, 10⟩ .leaf) ⟨1, BLACK, 2, 20⟩
        (.node .leaf ⟨3, RED, 3, 30⟩ .leaf)) :=
    ⟨rfl, rfl, rfl, ⟨rfl, ⟨rfl, trivial, trivial⟩, ⟨rfl, trivial, trivial⟩⟩, trivial,
      ⟨by decide, by decide⟩⟩
  have redBlack : RedBlack (.node (.node .leaf ⟨2, RED, 1, 10⟩ .leaf) ⟨1, BLACK, 2, 20⟩
      (.node .leaf ⟨3, RED, 3, 30⟩ .leaf)) :=
    ⟨by unfold BinTree.Ordered; decide, rfl,
      ⟨by decide, ⟨fun _ => ⟨id, id⟩, trivial, trivial⟩, ⟨fun _ => ⟨id, id⟩, trivial, trivial⟩⟩,
      ⟨1, 0, ⟨0, rfl, rfl, rfl⟩, ⟨0, rfl, rfl, rfl⟩, rfl⟩⟩
  obtain ⟨next, inserts, -, grows⟩ := rbtreeInsert_redBlack focus redBlack
    (show threeNodes.heap.load 4 = some _ from rfl) (by decide) (by decide)
  obtain ⟨grown, -, -, focusNext, isRedBlack, -⟩ := grows (by decide)
  exact ⟨next, inserts, _, grown, focusNext, isRedBlack⟩

end SimpleBasicComponents.RbTree
