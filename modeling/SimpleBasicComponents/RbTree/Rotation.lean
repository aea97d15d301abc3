import SimpleBasicComponents.RbTree.Colors

/-!
Assignments and rotations on a linked tree.

Owns: what an assignment does to the store, recolouring a node, exchanging the
colours of two nodes, `relink`, and the theorem that a rotation rotates the tree
and exchanges the colours.
-/

namespace SimpleBasicComponents.RbTree

open SimpleBasicComponents.Semantics

section

variable {store : Store} {nil : Ground} {T : Rbtree}

/-! ### Assignments -/

theorem load_some (T : Rbtree) (addr : Addr) : T.load (some addr) = T.heap.load addr := rfl

theorem assign_eq_some {addr : Addr} {node : RbtreeNode} (found : T.heap.load addr = some node)
    (fields : RbtreeNode → RbtreeNode) :
    ∃ next, T.assign (some addr) fields = some next ∧ next.root = T.root ∧ next.nil = T.nil ∧
      next.heap.load = Function.update T.heap.load addr (some (fields node)) := by
  obtain ⟨heap, stores, loads⟩ := Heap.store_load found (fields node)
  refine ⟨{ T with heap }, ?_, rfl, rfl, loads⟩
  simp [Rbtree.assign, found, stores]

/-- Three exclusive ors exchange the fields of two nodes. -/
theorem swap_eq_some {α : Type} [XorOp α] {field : Field α}
    (get_set : ∀ node content, field.get (field.set node content) = content)
    (set_set : ∀ node one two, field.set (field.set node one) two = field.set node two)
    (cancelRight : ∀ one two : α, one ^^^ two ^^^ two = one)
    (cancelLeft : ∀ one two : α, one ^^^ two ^^^ one = two)
    {a b : Addr} {left right : RbtreeNode} (different : a ≠ b)
    (foundLeft : T.heap.load a = some left) (foundRight : T.heap.load b = some right) :
    ∃ next, swap field T (some a) (some b) = some next ∧ next.root = T.root ∧ next.nil = T.nil ∧
      next.heap.load = Function.update
        (Function.update T.heap.load a (some (field.set left (field.get right)))) b
        (some (field.set right (field.get left))) := by
  generalize isLeft : field.get left = l
  generalize isRight : field.get right = r
  obtain ⟨first, setsFirst, rootFirst, nilFirst, loadFirst⟩ :=
    assign_eq_some foundLeft fun node => field.set node (l ^^^ r)
  have leftFirst : first.heap.load a = some (field.set left (l ^^^ r)) := by
    rw [loadFirst, Function.update_self]
  have rightFirst : first.heap.load b = some right := by
    rw [loadFirst, Function.update_of_ne (Ne.symm different), foundRight]
  obtain ⟨second, setsSecond, rootSecond, nilSecond, loadSecond⟩ :=
    assign_eq_some rightFirst fun node => field.set node l
  have leftSecond : second.heap.load a = some (field.set left (l ^^^ r)) := by
    rw [loadSecond, Function.update_of_ne different, leftFirst]
  have rightSecond : second.heap.load b = some (field.set right l) := by
    rw [loadSecond, Function.update_self]
  obtain ⟨third, setsThird, rootThird, nilThird, loadThird⟩ :=
    assign_eq_some leftSecond fun node => field.set node r
  refine ⟨third, ?_, by rw [rootThird, rootSecond, rootFirst], by rw [nilThird, nilSecond, nilFirst], ?_⟩
  · simp only [swap, xorAssign, load_some, Option.bind_eq_bind, Option.bind_some, foundLeft, foundRight,
      isLeft, isRight, setsFirst, leftFirst, rightFirst, get_set, cancelRight, setsSecond, leftSecond,
      rightSecond, cancelLeft, setsThird]
  · rw [loadThird, loadSecond, loadFirst, set_set]
    funext other
    by_cases isA : other = a
    · rw [isA, Function.update_self, Function.update_of_ne different, Function.update_self]
    · rw [Function.update_of_ne isA]
      by_cases isB : other = b
      · rw [isB, Function.update_self, Function.update_self]
      · rw [Function.update_of_ne isB, Function.update_of_ne isB, Function.update_of_ne isA,
          Function.update_of_ne isA]

theorem swapColor_eq_some {a b : Addr} {left right : RbtreeNode} (different : a ≠ b)
    (foundLeft : T.heap.load a = some left) (foundRight : T.heap.load b = some right) :
    ∃ next, swapColor T (some a) (some b) = some next ∧ next.root = T.root ∧ next.nil = T.nil ∧
      next.heap.load = Function.update
        (Function.update T.heap.load a (some { left with color := right.color })) b
        (some { right with color := left.color }) := by
  apply swap_eq_some (fun _ _ => rfl) (fun _ _ _ => rfl) _ _ different foundLeft foundRight
  · intro one two
    rw [UInt8.xor_assoc, UInt8.xor_self, UInt8.xor_zero]
  · intro one two
    rw [UInt8.xor_comm one, UInt8.xor_assoc, UInt8.xor_self, UInt8.xor_zero]

theorem swapKey_eq_some {a b : Addr} {left right : RbtreeNode} (different : a ≠ b)
    (foundLeft : T.heap.load a = some left) (foundRight : T.heap.load b = some right) :
    ∃ next, swapKey T (some a) (some b) = some next ∧ next.root = T.root ∧ next.nil = T.nil ∧
      next.heap.load = Function.update
        (Function.update T.heap.load a (some { left with key := right.key })) b
        (some { right with key := left.key }) := by
  apply swap_eq_some (fun _ _ => rfl) (fun _ _ _ => rfl) _ _ different foundLeft foundRight
  · intro one two
    rw [Int32.xor_assoc, Int32.xor_self, Int32.xor_zero]
  · intro one two
    rw [Int32.xor_comm one, Int32.xor_assoc, Int32.xor_self, Int32.xor_zero]

variable {near far : BinTree Cell} {trail : Trail Cell} {cell : Cell} {frame : Frame Cell} {side : Side}

theorem Focus.load (focus : Focus T nil trail (.join side near cell far)) :
    T.load (some cell.addr) =
      some (cell.node side (top nil near) (top nil far) (parentOf nil trail)) :=
  focus.shape.load_join

theorem Focus.load_frame {tree : BinTree Cell} (focus : Focus T nil (frame :: trail) tree) :
    T.load (some frame.item.addr) =
      some (frame.item.node frame.side (top nil tree) (top nil frame.sibling) (parentOf nil trail)) :=
  (focus_cons.mp focus).load

theorem Focus.assign {new : Cell} {fields : RbtreeNode → RbtreeNode}
    (focus : Focus T nil trail (.join side near cell far)) (same : new.addr = cell.addr)
    (effect : ∀ one two parent, fields (cell.node side one two parent) = new.node side one two parent) :
    ∃ next, T.assign (some cell.addr) fields = some next ∧
      Focus next nil trail (.join side near new far) := by
  obtain ⟨next, assigns, sameRoot, sameNil, loads⟩ := assign_eq_some focus.load fields
  rw [effect] at loads
  refine ⟨next, assigns, sameNil.trans focus.isNil, ?_, ?_⟩
  · rw [sameRoot, focus.root, top_join, top_join, same]
  · rw [loads]
    exact focus.shape.setCell same

theorem Focus.setColor (focus : Focus T nil trail (.join side near cell far)) (color : UInt8) :
    ∃ next, T.setColor (some cell.addr) color = some next ∧
      Focus next nil trail (.join side near { cell with color } far) :=
  focus.assign rfl fun _ _ _ => node_withColor _ _ _ _ _ _

private theorem Focus.swapped {next : Rbtree} {below above : Cell}
    (focus : Focus T nil (frame :: trail) (.join side near cell far))
    (sameBelow : below.addr = cell.addr) (sameAbove : above.addr = frame.item.addr)
    (sameRoot : next.root = T.root) (sameNil : next.nil = T.nil)
    (loads : next.heap.load = Function.update
      (Function.update T.heap.load cell.addr (some (below.node side (top nil near) (top nil far)
        frame.item.addr)))
      frame.item.addr (some (above.node frame.side cell.addr (top nil frame.sibling)
        (parentOf nil trail)))) :
    Focus next nil (withItem frame above :: trail) (.join side near below far) := by
  refine ⟨sameNil.trans focus.isNil, ?_, ?_⟩
  · rw [sameRoot, focus.root]
    show some (rootOf frame.item.addr trail) = some (rootOf above.addr trail)
    rw [sameAbove]
  · have shape := @Shape.setTwo _ _ _ _ _ _ _ [] side below above focus.shape sameBelow sameAbove
    rw [Trail.plug_nil, top_join] at shape
    rw [loads]
    exact shape

/-- Exchange the colours of a node and the one above it. -/
theorem Focus.swapColor_up (focus : Focus T nil (frame :: trail) (.join side near cell far)) :
    ∃ next, swapColor T (some cell.addr) (some frame.item.addr) = some next ∧
      Focus next nil (withItem frame { frame.item with color := cell.color } :: trail)
        (.join side near { cell with color := frame.item.color } far) := by
  have different : cell.addr ≠ frame.item.addr := @Shape.frame_ne _ _ _ _ _ _ _ [] _ focus.shape
  obtain ⟨next, swaps, sameRoot, sameNil, loads⟩ :=
    swapColor_eq_some different focus.load focus.load_frame
  refine ⟨next, swaps, focus.swapped rfl rfl sameRoot sameNil ?_⟩
  rw [loads]
  simp only [node_color, node_withColor, top_join]
  rfl

theorem Focus.swapColor_down (focus : Focus T nil (frame :: trail) (.join side near cell far)) :
    ∃ next, swapColor T (some frame.item.addr) (some cell.addr) = some next ∧
      Focus next nil (withItem frame { frame.item with color := cell.color } :: trail)
        (.join side near { cell with color := frame.item.color } far) := by
  have different : cell.addr ≠ frame.item.addr := @Shape.frame_ne _ _ _ _ _ _ _ [] _ focus.shape
  obtain ⟨next, swaps, sameRoot, sameNil, loads⟩ :=
    swapColor_eq_some different.symm focus.load_frame focus.load
  refine ⟨next, swaps, focus.swapped rfl rfl sameRoot sameNil ?_⟩
  rw [loads, Function.update_comm different.symm]
  simp only [node_color, node_withColor, top_join]
  rfl

/-! ### Links -/

theorem top_ne {tree : BinTree Cell} {addr : Addr} (real : addr ≠ nil.addr)
    (notHere : ∀ other ∈ tree.toList, other.addr ≠ addr) : top nil tree ≠ addr := by
  cases tree with
  | leaf => exact real.symm
  | node left item right => exact notHere item (by simp [BinTree.toList])

/-- The node in view is not the one on the other side. -/
theorem Focus.sibling_ne (focus : Focus T nil (frame :: trail) (.join side near cell far)) :
    top nil frame.sibling ≠ cell.addr := by
  have apart := focus.shape.apart_join
  apply top_ne (apart.real cell List.mem_cons_self)
  intro other member
  apply Ne.symm
  apply (List.pairwise_cons.mp apart.distinct).1
  exact List.mem_append_right _ (List.mem_cons_of_mem _ (List.mem_append_left _ member))

theorem Focus.real (focus : Focus T nil trail (.join side near cell far)) : cell.addr ≠ nil.addr :=
  focus.shape.apart_join.real cell List.mem_cons_self

/-- The root of a subtree can be read, also if it is `T->nil`. -/
theorem Focus.load_top {tree : BinTree Cell} (focus : Focus T nil trail tree) :
    ∃ node, T.load (some (top nil tree)) = some node ∧ (node.color = RED ↔ isRed tree) := by
  cases tree with
  | leaf => exact ⟨_, focus.shape.nilNode, iff_of_false nil.notRed id⟩
  | node left cell right =>
      have found := @Focus.load nil T left right trail cell .left focus
      exact ⟨_, found, Iff.rfl⟩

/-- What is on the given side of the node above. -/
theorem Focus.load_frame_child (focus : Focus T nil (frame :: trail) (.join side near cell far)) :
    ∃ node, T.load (some frame.item.addr) = some node ∧ node.color = frame.item.color ∧
      node.child frame.side = some cell.addr ∧
      node.child frame.side.other = some (top nil frame.sibling) ∧
      node.parent = some (parentOf nil trail) := by
  have found := focus.load_frame
  rw [top_join] at found
  exact ⟨_, found, node_color .., node_child .., node_child_other .., node_parent ..⟩

/-- The trail leads to another subtree once its lowest node points there. -/
theorem RepTrail.retarget {old : Addr} (linked : RepTrail store nil old (frame :: trail))
    (apart : Apart nil (Trail.items (frame :: trail))) (new : Addr) :
    RepTrail (Function.update store frame.item.addr
        (some (frame.item.node frame.side new (top nil frame.sibling) (parentOf nil trail))))
      nil new (frame :: trail) := by
  obtain ⟨-, sibling, above⟩ := linked
  have others := (List.pairwise_cons.mp apart.distinct).1
  refine ⟨Function.update_self _ _ _, sibling.congr ?_, above.congr ?_⟩
  · intro other member
    rw [Function.update_of_ne (others other (List.mem_append_left _ member)).symm]
  · intro other member
    rw [Function.update_of_ne (others other (List.mem_append_right _ member)).symm]

/-- `relink` lets the trail lead to another subtree. -/
theorem relink_eq_some {old : Addr} (side : Side) (isNil : T.nil = some nil.addr)
    (root : T.root = some (rootOf old trail)) (linked : RepTrail T.heap.load nil old trail)
    (apart : Apart nil trail.items) (real : old ≠ nil.addr) (notAbove : ∀ other ∈ trail.items, other.addr ≠ old)
    (new : Addr) :
    ∃ next, relink T side (some old) (some (parentOf nil trail)) (some new) = some next ∧
      next.nil = some nil.addr ∧ next.root = some (rootOf new trail) ∧
      RepTrail next.heap.load nil new trail ∧
      ∀ addr, (∀ other ∈ trail.items, other.addr ≠ addr) → next.heap.load addr = T.heap.load addr := by
  cases trail with
  | nil =>
      refine ⟨{ T with root := some new }, ?_, isNil, rfl, trivial, fun _ _ => rfl⟩
      rw [relink, isNil]
      exact if_pos rfl
  | cons frame rest =>
      obtain ⟨found, -, -⟩ := id linked
      have notNil : some frame.item.addr ≠ T.nil := by
        rw [isNil]
        exact fun same => apart.real frame.item List.mem_cons_self (Option.some.inj same)
      obtain ⟨next, assigns, sameRoot, sameNil, loads⟩ := assign_eq_some found
        fun node => node.withChild frame.side (some new)
      rw [node_withChild] at loads
      refine ⟨next, ?_, sameNil.trans isNil, sameRoot.trans root, ?_, ?_⟩
      · simp only [relink, parentOf, if_neg notNil, load_some, found, Option.bind_eq_bind,
          Option.bind_some, Rbtree.setChild]
        by_cases same : frame.side = side
        · rw [← same, node_child, if_pos rfl, assigns]
        · have isOther := Side.eq_other_of_ne (Ne.symm same)
          have notSibling : some old ≠ some (top nil frame.sibling) := by
            intro isTop
            apply top_ne real _ (Option.some.inj isTop).symm
            exact fun other member => notAbove other
              (List.mem_cons_of_mem _ (List.mem_append_left _ member))
          rw [isOther, node_child_other, if_neg notSibling, Side.other_other, assigns]
      · rw [loads]
        exact linked.retarget apart new
      · intro addr notHere
        rw [loads, Function.update_of_ne (notHere frame.item List.mem_cons_self).symm]

/-- A subtree, if there is one, is put below another parent. -/
theorem adopt_eq_some {tree : BinTree Cell} {old : Addr} (isNil : T.nil = some nil.addr)
    (linked : Rep T.heap.load nil old tree) (apart : Apart nil tree.toList) (new : Addr) :
    ∃ next, adopt T (some (top nil tree)) (some new) = some next ∧
      next.nil = some nil.addr ∧ next.root = T.root ∧ Rep next.heap.load nil new tree ∧
      ∀ addr, (∀ other ∈ tree.toList, other.addr ≠ addr) → next.heap.load addr = T.heap.load addr := by
  cases tree with
  | leaf =>
      refine ⟨T, ?_, isNil, rfl, trivial, fun _ _ => rfl⟩
      rw [adopt, isNil]
      exact if_neg (not_not.mpr rfl)
  | node left item right =>
      have perm : (BinTree.node left item right).toList.Perm _ := BinTree.toList_join_perm .left left item right
      have others := (List.pairwise_cons.mp (apart.perm perm).distinct).1
      have isItem : item ∈ (BinTree.node left item right).toList := by simp [BinTree.toList]
      have notNil : some item.addr ≠ T.nil := by
        rw [isNil]
        exact fun same => apart.real item isItem (Option.some.inj same)
      obtain ⟨found, repLeft, repRight⟩ := linked
      obtain ⟨next, assigns, sameRoot, sameNil, loads⟩ := assign_eq_some found
        fun node => { node with parent := some new }
      rw [node_withParent] at loads
      refine ⟨next, ?_, sameNil.trans isNil, sameRoot, ⟨?_, repLeft.congr ?_, repRight.congr ?_⟩, ?_⟩
      · rw [adopt, top, if_pos notNil]
        exact assigns
      · rw [loads, Function.update_self]
      · intro other member
        rw [loads, Function.update_of_ne (others other (List.mem_append_left _ member)).symm]
      · intro other member
        rw [loads, Function.update_of_ne (others other (List.mem_append_right _ member)).symm]
      · intro addr notHere
        rw [loads, Function.update_of_ne (notHere item isItem).symm]

/-! ### Rotation -/

/-- The nodes a rotation deals with: those below, between and above the two
cells, and the cells themselves. -/
private theorem Apart.split {x y : Cell} {A M C P : List Cell}
    (apart : Apart nil (y :: (M ++ C ++ (x :: (A ++ P))))) :
    (x.addr ≠ y.addr) ∧ (∀ cell ∈ A ++ M ++ C ++ P, cell.addr ≠ x.addr ∧ cell.addr ≠ y.addr) ∧
      (∀ cell ∈ A ++ C, ∀ other ∈ M ++ P, other.addr ≠ cell.addr) ∧
      (∀ cell ∈ M, ∀ other ∈ P, other.addr ≠ cell.addr) := by
  have distinct := apart.distinct
  simp only [List.pairwise_cons, List.pairwise_append, List.mem_append, List.mem_cons] at distinct ⊢
  grind

private theorem rotateLinks_eq_some {x y : Cell} {A M C : BinTree Cell}
    (focus : Focus T nil (⟨side.other, x, A⟩ :: trail) (.join side M y C)) :
    ∃ next, rotateLinks T side (some x.addr) (some y.addr) = some next ∧
      Focus next nil trail (.join side (.join side A x M) y C) ∧
      ∀ addr, addr ≠ x.addr → addr ≠ y.addr → (∀ cell ∈ M.toList, cell.addr ≠ addr) →
        (∀ cell ∈ trail.items, cell.addr ≠ addr) → next.heap.load addr = T.heap.load addr := by
  obtain ⟨isNil, root, nilNode, linked, ⟨atX, repA, repTrail⟩, apart⟩ := focus
  obtain ⟨atY, repM, repC⟩ := (rep_join side).mp linked
  rw [top_join, node_other] at atX
  simp only [parentOf] at atY
  have cells := apart.perm ((BinTree.toList_join_perm side M y C).append_right _)
  obtain ⟨differ, others, beside, between⟩ := Apart.split (A := A.toList) (P := trail.items) cells
  have realX : x.addr ≠ nil.addr := cells.real x (by simp [Trail.items])
  have realY : y.addr ≠ nil.addr := cells.real y (by simp)
  have notX : ∀ cell ∈ A.toList ++ M.toList ++ C.toList ++ trail.items, cell.addr ≠ x.addr :=
    fun cell member => (others cell member).1
  have notY : ∀ cell ∈ A.toList ++ M.toList ++ C.toList ++ trail.items, cell.addr ≠ y.addr :=
    fun cell member => (others cell member).2
  have apartM : Apart nil M.toList := by
    apply cells.sublist
    exact ((List.sublist_append_left _ _).cons y).trans (List.sublist_append_left _ _)
  have apartTrail : Apart nil trail.items := by
    apply cells.sublist
    exact ((List.sublist_append_right _ _).cons x).trans (List.sublist_append_right _ _)
  generalize isParent : parentOf nil trail = parent at *
  -- `parent` takes over the middle tree
  obtain ⟨T₁, sets₁, root₁, nil₁, load₁⟩ := assign_eq_some atX
    fun node => node.withChild side.other (some (top nil M))
  rw [node_withChild_other] at load₁
  have repM₁ : Rep T₁.heap.load nil y.addr M := repM.congr fun cell member => by
    rw [load₁, Function.update_of_ne (notX cell (by simp [member]))]
  obtain ⟨T₂, sets₂, nil₂, root₂, repM₂, load₂⟩ :=
    adopt_eq_some (nil₁.trans isNil) repM₁ apartM x.addr
  have atX₂ : T₂.heap.load x.addr = some (x.node side (top nil A) (top nil M) parent) := by
    rw [load₂ _ fun cell member => notX cell (by simp [member]), load₁, Function.update_self]
  have atY₂ : T₂.heap.load y.addr = some (y.node side (top nil M) (top nil C) x.addr) := by
    rw [load₂ _ fun cell member => notY cell (by simp [member]), load₁,
      Function.update_of_ne differ.symm, atY]
  -- `child` goes to the place of `parent`
  obtain ⟨T₃, sets₃, root₃, nil₃, load₃⟩ := assign_eq_some atY₂
    fun node => { node with parent := some parent }
  rw [node_withParent] at load₃
  have isNil₃ : T₃.nil = some nil.addr := nil₃.trans nil₂
  have root₃ : T₃.root = some (rootOf x.addr trail) := by
    rw [root₃, root₂, root₁, root]
    rfl
  have kept₃ : ∀ addr, addr ≠ x.addr → addr ≠ y.addr → (∀ cell ∈ M.toList, cell.addr ≠ addr) →
      T₃.heap.load addr = T.heap.load addr := by
    intro addr isNotX isNotY notInM
    rw [load₃, Function.update_of_ne isNotY, load₂ addr notInM, load₁, Function.update_of_ne isNotX]
  have repTrail₃ : RepTrail T₃.heap.load nil x.addr trail := repTrail.congr fun cell member =>
    kept₃ _ (notX cell (by simp [member])) (notY cell (by simp [member]))
      fun other inM => (between other inM cell member).symm
  obtain ⟨T₄, sets₄, nil₄, root₄, repTrail₄, load₄⟩ := relink_eq_some side isNil₃ root₃ repTrail₃
    apartTrail realX (fun cell member => notX cell (by simp [member])) y.addr
  rw [isParent] at sets₄
  have atY₄ : T₄.heap.load y.addr = some (y.node side (top nil M) (top nil C) parent) := by
    rw [load₄ _ fun cell member => notY cell (by simp [member]), load₃, Function.update_self]
  -- `parent` goes below `child`
  obtain ⟨T₅, sets₅, root₅, nil₅, load₅⟩ := assign_eq_some atY₄
    fun node => node.withChild side (some x.addr)
  rw [node_withChild] at load₅
  have atX₅ : T₅.heap.load x.addr = some (x.node side (top nil A) (top nil M) parent) := by
    rw [load₅, Function.update_of_ne differ, load₄ _ fun cell member => notX cell (by simp [member]),
      load₃, Function.update_of_ne differ, atX₂]
  obtain ⟨T₆, sets₆, root₆, nil₆, load₆⟩ := assign_eq_some atX₅
    fun node => { node with parent := some y.addr }
  rw [node_withParent] at load₆
  have kept₆ : ∀ addr, addr ≠ x.addr → addr ≠ y.addr → T₆.heap.load addr = T₄.heap.load addr := by
    intro addr isNotX isNotY
    rw [load₆, Function.update_of_ne isNotX, load₅, Function.update_of_ne isNotY]
  have kept : ∀ addr, addr ≠ x.addr → addr ≠ y.addr → (∀ cell ∈ M.toList, cell.addr ≠ addr) →
      (∀ cell ∈ trail.items, cell.addr ≠ addr) → T₆.heap.load addr = T.heap.load addr := by
    intro addr isNotX isNotY notInM notAbove
    rw [kept₆ addr isNotX isNotY, load₄ addr notAbove, kept₃ addr isNotX isNotY notInM]
  refine ⟨T₆, ?_, ⟨?_, ?_, ?_, (rep_join side).mpr ⟨?_, (rep_join side).mpr ⟨?_, ?_, ?_⟩, ?_⟩, ?_, ?_⟩, kept⟩
  · simp only [rotateLinks, load_some, atY, node_child, Rbtree.setChild, Rbtree.setParent,
      Option.bind_eq_bind, Option.bind_some, sets₁, sets₂, atX₂, node_parent, sets₃, sets₄, sets₅]
    exact sets₆
  · exact nil₆.trans (nil₅.trans nil₄)
  · rw [root₆, root₅, root₄, top_join]
  · rw [kept nil.addr realX.symm realY.symm, nilNode]
    · exact fun cell member => cells.real cell (by simp [member])
    · exact fun cell member => cells.real cell (by simp [member, Trail.items])
  · rw [load₆, Function.update_of_ne differ.symm, load₅, Function.update_self, top_join, isParent]
  · rw [load₆, Function.update_self]
  · exact repA.congr fun cell member => kept _ (notX cell (by simp [member]))
      (notY cell (by simp [member])) (fun other inM => beside cell (by simp [member]) other (by simp [inM]))
      (fun other above => beside cell (by simp [member]) other (by simp [above]))
  · refine repM₂.congr fun cell member => ?_
    rw [kept₆ _ (notX cell (by simp [member])) (notY cell (by simp [member])),
      load₄ _ fun other above => between cell member other above, load₃,
      Function.update_of_ne (notY cell (by simp [member]))]
  · exact repC.congr fun cell member => kept _ (notX cell (by simp [member]))
      (notY cell (by simp [member])) (fun other inM => beside cell (by simp [member]) other (by simp [inM]))
      (fun other above => beside cell (by simp [member]) other (by simp [above]))
  · rw [top_join]
    refine repTrail₄.congr fun cell member => ?_
    exact kept₆ _ (notX cell (by simp [member])) (notY cell (by simp [member]))
  · refine cells.perm ?_
    have upper := BinTree.toList_join_perm side (.join side A x M) y C
    have lower := (BinTree.toList_join_perm side A x M).append_right C.toList
    refine List.Perm.trans ?_ ((upper.trans (lower.cons y)).append_right trail.items).symm
    refine List.perm_iff_count.mpr fun cell => ?_
    simp only [Trail.items, List.count_append, List.count_cons]
    omega

/-- A rotation, and what it leaves as it is. -/
theorem rotate_kept {x y : Cell} {A M C : BinTree Cell}
    (focus : Focus T nil trail (.join side A x (.join side M y C))) :
    ∃ next, rotate T side (some x.addr) = some next ∧
      Focus next nil trail
        (.join side (.join side A { x with color := y.color } M) { y with color := x.color } C) ∧
      ∀ addr, addr ≠ x.addr → addr ≠ y.addr → (∀ cell ∈ M.toList, cell.addr ≠ addr) →
        (∀ cell ∈ trail.items, cell.addr ≠ addr) → next.heap.load addr = T.heap.load addr := by
  have atX := focus.load
  rw [top_join] at atX
  have above : Focus T nil (⟨side.other, x, A⟩ :: trail) (.join side M y C) := by
    rw [focus_cons, Frame.fill, BinTree.join_other]
    exact focus
  obtain ⟨swapped, swaps, focusSwapped⟩ := above.swapColor_up
  have different : y.addr ≠ x.addr := @Shape.frame_ne _ _ _ _ _ _ _ [] _ above.shape
  obtain ⟨other, swapsOther, -, -, loads⟩ := swapColor_eq_some different above.load above.load_frame
  obtain rfl := Option.some.inj (swapsOther.symm.trans swaps)
  obtain ⟨next, rotates, focusNext, kept⟩ := rotateLinks_eq_some focusSwapped
  refine ⟨next, ?_, focusNext, ?_⟩
  · simp only [rotate, atX, Option.bind_eq_bind, Option.bind_some, node_child_other, swaps]
    exact rotates
  · intro addr notX notY notBetween notAbove
    rw [kept addr notX notY notBetween notAbove, loads, Function.update_of_ne notX, Function.update_of_ne notY]

theorem rotate_eq_some {x y : Cell} {A M C : BinTree Cell}
    (focus : Focus T nil trail (.join side A x (.join side M y C))) :
    ∃ next, rotate T side (some x.addr) = some next ∧
      Focus next nil trail
        (.join side (.join side A { x with color := y.color } M) { y with color := x.color } C) := by
  obtain ⟨next, rotates, focusNext, -⟩ := rotate_kept focus
  exact ⟨next, rotates, focusNext⟩

end

end SimpleBasicComponents.RbTree
