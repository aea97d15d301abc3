import SimpleBasicComponents.RbTree.Removal

/-!
The successor of a node.

Owns: the climb of `find_successor`, the theorem that it finds what comes next in
order, and the walk through the tree from its leftmost node. What `T->nil` has in
its links does not matter: the climb looks at its left one and stops all the same.
-/

namespace SimpleBasicComponents.RbTree

open SimpleBasicComponents.Semantics

section

variable {nil : Ground} {T : Rbtree} {tree near far left right : BinTree Cell} {cell : Cell} {side : Side}
  {trail : Trail Cell} {earlier later : List Cell}

/-! ### The climb -/

/-- The climb stops at the first node that the trail leaves to the left, or at `T->nil`. -/
theorem climbLoop_eq {fuel : Nat} (focus : Focus T nil trail (.join side near cell far))
    (enough : trail.length < fuel) :
    loop (fun state => .orFault (climbTurn T state)) fuel (some cell.addr, some (parentOf nil trail)) =
      some (some ((trail.after.head?.map Cell.addr).getD nil.addr)) := by
  induction trail generalizing side near far cell fuel with
  | nil =>
      have loads : T.load (some nil.addr) = some nil.node := focus.shape.nilNode
      have atNil : ¬ (some cell.addr ≠ nil.node.left ∧ some nil.addr ≠ T.nil) :=
        fun both => both.2 focus.isNil.symm
      obtain ⟨fuel, rfl⟩ := Nat.exists_eq_succ_of_ne_zero (Nat.ne_of_gt enough)
      apply loop_leave
      simp only [climbTurn, parentOf, loads, Option.bind_eq_bind, Option.bind_some]
      exact congrArg Turn.orFault (if_neg atNil)
  | cons frame rest inductionHypothesis =>
      obtain ⟨above, loads, -, here, beside, isParent⟩ := focus.load_frame_child
      have notNil : some frame.item.addr ≠ T.nil := by
        rw [focus.isNil]
        have apart := focus.shape.apart_join
        exact fun same => apart.real frame.item (by simp [Trail.items]) (Option.some.inj same)
      obtain ⟨fuel, rfl⟩ := Nat.exists_eq_succ_of_ne_zero (Nat.ne_of_gt (Nat.zero_lt_of_lt enough))
      cases isSide : frame.side with
      | left =>
          rw [isSide] at here
          have atLeft : ¬ (some cell.addr ≠ above.left ∧ some frame.item.addr ≠ T.nil) :=
            fun both => both.1 here.symm
          have found : Trail.after (frame :: rest) = frame.item :: frame.sibling.toList ++ Trail.after rest := by
            obtain ⟨side, item, sibling⟩ := frame
            obtain rfl : side = .left := isSide
            rfl
          rw [found]
          apply loop_leave
          simp only [climbTurn, parentOf, loads, Option.bind_eq_bind, Option.bind_some]
          exact congrArg Turn.orFault (if_neg atLeft)
      | right =>
          rw [isSide] at beside
          have notLeft : some cell.addr ≠ above.left := by
            intro same
            have isSibling : some (top nil frame.sibling) = some cell.addr := beside.symm.trans same.symm
            exact focus.sibling_ne (Option.some.inj isSibling)
          have found : Trail.after (frame :: rest) = Trail.after rest := by
            obtain ⟨side, item, sibling⟩ := frame
            obtain rfl : side = .right := isSide
            rfl
          have turn : climbTurn T (some cell.addr, some frame.item.addr) =
              some (.again (some frame.item.addr, some (parentOf nil rest))) := by
            simp only [climbTurn, loads, Option.bind_eq_bind, Option.bind_some, isParent]
            exact if_pos ⟨notLeft, notNil⟩
          rw [found, parentOf, loop_again (by rw [turn, Turn.orFault])]
          have up : Focus T nil rest (.join frame.side (.join side near cell far) frame.item frame.sibling) :=
            focus_cons.mp focus
          exact inductionHypothesis up (Nat.lt_of_succ_lt_succ enough)

/-! ### What comes next -/

theorem head_descend (left : BinTree Cell) (cell : Cell) (right : BinTree Cell) :
    (BinTree.node left cell right).toList.head?.map Cell.addr =
      some (top nil (descend (.node left cell right) []).1) := by
  obtain ⟨low, upper, inner, ends, whole, nothing⟩ := descend_spec left cell right []
  rw [ends, ← whole, Trail.toList_plug, nothing]
  rfl

/-- In whatever part of the tree the successor is. -/
theorem findSuccessor_at (focus : Focus T nil trail (.node left cell right)) :
    findSuccessor T (some cell.addr) = some ((right.toList ++ trail.after).head?.map Cell.addr) := by
  cases right with
  | node low item high =>
      have found := findSuccessor_eq focus
      rw [← head_descend] at found
      rw [found, BinTree.toList, List.append_assoc]
      cases low.toList <;> rfl
  | leaf =>
      have loads : T.load (some cell.addr) = some _ := @Focus.load nil T left .leaf trail cell .left focus
      have size := (Trail.length_le_size_plug trail (.node left cell .leaf)).trans_lt focus.size_lt
      have enough : trail.length < T.turns := by
        unfold Rbtree.turns
        omega
      have climb := @climbLoop_eq nil T left .leaf cell .left trail T.turns focus enough
      have isNil : ¬ some (top nil .leaf) ≠ T.nil := not_not.mpr focus.isNil.symm
      unfold findSuccessor
      simp only [reduceCtorEq, if_false, loads, Option.bind_eq_bind, Option.bind_some]
      refine (if_neg isNil).trans ?_
      simp only [node_parent, climb, Option.bind_some]
      cases isAfter : trail.after with
      | nil => exact congrArg some (if_pos focus.isNil.symm)
      | cons next others =>
          have member : next ∈ (trail.plug (.node left cell .leaf)).toList := by
            rw [Trail.toList_plug, isAfter]
            simp
          have real : next.addr ≠ nil.addr := (focus_plug.mp focus).shape.apart.real next
            (List.mem_append_left _ member)
          have notNil : some next.addr ≠ T.nil := by
            rw [focus.isNil]
            exact fun same => real (Option.some.inj same)
          exact congrArg some (if_neg notNil)

/-- The successor is the next node in order, if there is one. -/
theorem findSuccessor_split (focus : Focus T nil [] tree) (split : tree.toList = earlier ++ cell :: later) :
    findSuccessor T (some cell.addr) = some (later.head?.map Cell.addr) := by
  obtain ⟨trail, left, right, rfl, -, rfl⟩ := Trail.exists_plug_of_split split
  exact findSuccessor_at (focus_plug.mpr focus)

/-- The pointer is to the node with the next larger key, or `NULL` behind the largest. -/
def Succeeds (tree : BinTree Cell) (cell : Cell) : Ptr → Prop
  | none => ∀ other ∈ tree.toList, keyOf other ≤ keyOf cell
  | some addr =>
      ∃ next ∈ tree.toList, next.addr = addr ∧ keyOf cell < keyOf next ∧
        ∀ other ∈ tree.toList, keyOf cell < keyOf other → keyOf next ≤ keyOf other

theorem succeeds_split (ordered : tree.Ordered keyOf) (split : tree.toList = earlier ++ cell :: later) :
    Succeeds tree cell (later.head?.map Cell.addr) := by
  have sorted := ordered
  rw [BinTree.Ordered, split, List.pairwise_append, List.pairwise_cons] at sorted
  obtain ⟨-, ⟨larger, among⟩, across⟩ := sorted
  have smaller : ∀ other ∈ earlier, keyOf other < keyOf cell :=
    fun other member => across other member cell List.mem_cons_self
  cases later with
  | nil =>
      intro other member
      rw [split, List.mem_append, List.mem_singleton] at member
      rcases member with before | rfl
      · exact (smaller other before).le
      · exact le_refl _
  | cons next rest =>
      refine ⟨next, by rw [split]; simp, rfl, larger next List.mem_cons_self, ?_⟩
      intro other member more
      rw [split, List.mem_append, List.mem_cons, List.mem_cons] at member
      rcases member with before | rfl | rfl | behind
      · exact absurd more (smaller other before).not_gt
      · exact absurd more (lt_irrefl _)
      · exact le_refl _
      · exact ((List.pairwise_cons.mp among).1 other behind).le

/-! ### The walk through the tree -/

/-- The nodes that are come by from a node on, until there is no successor. -/
def visit (T : Rbtree) : Nat → Ptr → Option (List Addr)
  | _, none => some []
  | 0, some _ => none
  | fuel + 1, some addr =>
      match findSuccessor T (some addr) with
      | none => none
      | some next => (visit T fuel next).map fun rest => addr :: rest

theorem visit_split {fuel : Nat} (focus : Focus T nil [] tree) (split : tree.toList = earlier ++ later)
    (enough : later.length ≤ fuel) :
    visit T fuel (later.head?.map Cell.addr) = some (later.map Cell.addr) := by
  induction later generalizing earlier fuel with
  | nil => cases fuel <;> rfl
  | cons cell later inductionHypothesis =>
      obtain ⟨fuel, rfl⟩ := Nat.exists_eq_succ_of_ne_zero (Nat.ne_of_gt (Nat.zero_lt_of_lt enough))
      have found := findSuccessor_split focus split
      have rest := @inductionHypothesis (earlier ++ [cell]) fuel (by rw [split]; simp) (Nat.le_of_succ_le_succ enough)
      change visit T (fuel + 1) (some cell.addr) = _
      rw [visit, found]
      simp only [rest]
      rfl

/-- The loop of `find_successor`, from the root. -/
theorem leftmost_eq (focus : Focus T nil [] (.node left cell right)) :
    loop (fun node => .orFault (leftmostTurn T node)) T.turns T.root =
      some ((BinTree.node left cell right).toList.head?.map Cell.addr) := by
  have real : ∀ other ∈ (BinTree.node left cell right).toList, other.addr ≠ nil.addr :=
    fun other member => focus.shape.apart.real other (List.mem_append_left _ member)
  have size := focus.size_lt
  have enough : left.size < T.turns := by
    rw [Trail.plug_nil, BinTree.size] at size
    unfold Rbtree.turns
    omega
  rw [focus.root, head_descend]
  exact leftmostLoop_eq focus.isNil T.turns focus.shape.linked real enough []

/-- Every node has its successor, and going from one to the next from the leftmost
node on comes by every node once, in the order of the keys. -/
theorem findSuccessor_succeeds (focus : Focus T nil [] tree) (ordered : tree.Ordered keyOf) :
    (∀ cell ∈ tree.toList, ∃ next, findSuccessor T (some cell.addr) = some next ∧ Succeeds tree cell next) ∧
      (tree ≠ .leaf → ∃ first, loop (fun node => .orFault (leftmostTurn T node)) T.turns T.root = some first ∧
        visit T tree.size first = some (tree.toList.map Cell.addr)) := by
  constructor
  · intro cell member
    obtain ⟨earlier, later, split⟩ := List.append_of_mem member
    exact ⟨_, findSuccessor_split focus split, succeeds_split ordered split⟩
  · intro some
    cases tree with
    | leaf => exact absurd rfl some
    | node left cell right =>
        refine ⟨_, leftmost_eq focus, ?_⟩
        exact @visit_split _ _ _ [] _ _ focus rfl (BinTree.length_toList _).le

/-- A root with a right child, and `T->nil` at 0. -/
theorem twoNodes_succeeds :
    (∀ cell ∈ (BinTree.node .leaf ⟨1, BLACK, 5, 0⟩ (.node .leaf ⟨2, RED, 7, 0⟩ .leaf)).toList, ∃ next,
        findSuccessor ⟨[some ⟨BLACK, none, none, some 0, 0, 0⟩, some ⟨BLACK, some 0, some 2, some 0, 5, 0⟩,
          some ⟨RED, some 0, some 0, some 1, 7, 0⟩], some 1, some 0⟩ (some cell.addr) = some next ∧
        Succeeds (.node .leaf ⟨1, BLACK, 5, 0⟩ (.node .leaf ⟨2, RED, 7, 0⟩ .leaf)) cell next) ∧
      visit ⟨[some ⟨BLACK, none, none, some 0, 0, 0⟩, some ⟨BLACK, some 0, some 2, some 0, 5, 0⟩,
        some ⟨RED, some 0, some 0, some 1, 7, 0⟩], some 1, some 0⟩ 2 (some 1) = some [1, 2] := by
  have focus : Focus ⟨[some ⟨BLACK, none, none, some 0, 0, 0⟩, some ⟨BLACK, some 0, some 2, some 0, 5, 0⟩,
      some ⟨RED, some 0, some 0, some 1, 7, 0⟩], some 1, some 0⟩ ⟨0, ⟨BLACK, none, none, some 0, 0, 0⟩, rfl⟩ []
      (.node .leaf ⟨1, BLACK, 5, 0⟩ (.node .leaf ⟨2, RED, 7, 0⟩ .leaf)) := by
    refine ⟨rfl, rfl, rfl, ⟨rfl, trivial, rfl, trivial, trivial⟩, trivial, ?_, ?_⟩
    · simp [BinTree.toList, Trail.items]
    · simp [BinTree.toList, Trail.items]
  have succeeds := findSuccessor_succeeds focus (by simp [BinTree.Ordered, BinTree.toList, keyOf])
  exact ⟨succeeds.1, by decide +kernel⟩

end

end SimpleBasicComponents.RbTree
