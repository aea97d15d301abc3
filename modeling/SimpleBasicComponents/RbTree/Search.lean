import Mathlib.Data.List.Perm.Subperm
import SimpleBasicComponents.RbTree.Colors

/-!
Walks down a linked tree.

Owns: how large a tree on a heap can be, and that the loops of `rbtree_find`,
`rbtree_insert` and `find_successor` end where `zoom` or the leftmost trail
does.
-/

namespace SimpleBasicComponents.RbTree

open SimpleBasicComponents.Semantics

section

variable {store : Store} {nil : Ground} {parent : Addr} {tree : BinTree Cell} {trail : Trail Cell} {T : Rbtree}

/-! ### Size -/

/-- A node of the tree is on the heap, with its key and its value. -/
theorem Rep.loaded_cell (rep : Rep store nil parent tree) {cell : Cell} (member : cell ∈ tree.toList) :
    ∃ node, store cell.addr = some node ∧ node.key = cell.key ∧ node.value = cell.value := by
  induction tree generalizing parent with
  | leaf => contradiction
  | node left item right left_ih right_ih =>
      obtain ⟨found, repLeft, repRight⟩ := rep
      rcases List.mem_append.mp member with inLeft | rest
      · exact left_ih repLeft inLeft
      · rcases List.mem_cons.mp rest with rfl | inRight
        · exact ⟨_, found, node_key .., node_value ..⟩
        · exact right_ih repRight inRight

/-- All nodes and `T->nil` are on the heap. -/
theorem Focus.size_lt (focus : Focus T nil trail tree) : (trail.plug tree).size < T.heap.length := by
  obtain ⟨-, -, nilNode, linked, -, apart⟩ := focus_plug.mp focus
  simp only [Trail.items, List.append_nil] at apart
  generalize trail.plug tree = whole at *
  have nodup : (nil.addr :: whole.toList.map Cell.addr).Nodup := by
    rw [List.nodup_cons]
    refine ⟨?_, List.pairwise_map.mpr apart.distinct⟩
    intro member
    obtain ⟨cell, inTree, same⟩ := List.mem_map.mp member
    exact apart.real cell inTree same
  have below : nil.addr :: whole.toList.map Cell.addr ⊆ List.range T.heap.length := by
    intro addr member
    rw [List.mem_range]
    rcases List.mem_cons.mp member with rfl | isCell
    · exact Heap.lt_length_of_load nilNode
    · obtain ⟨cell, inTree, rfl⟩ := List.mem_map.mp isCell
      obtain ⟨node, found, _⟩ := linked.loaded_cell inTree
      exact Heap.lt_length_of_load found
  have fits := (List.Nodup.subperm nodup below).length_le
  exact Nat.lt_of_succ_le (by simpa using fits)

/-! ### Searching -/

theorem keyOf_lt_iff {cell : Cell} {key : Int32} : cell.key < key ↔ keyOf cell < key.toInt :=
  Int32.lt_iff_toInt_lt

theorem lt_keyOf_iff {cell : Cell} {key : Int32} : key < cell.key ↔ key.toInt < keyOf cell :=
  Int32.lt_iff_toInt_lt

theorem key_eq_iff {cell : Cell} {key : Int32} : cell.key = key ↔ keyOf cell = key.toInt :=
  Int32.toInt_inj.symm

/-- Where `zoom` ends decides whether the key is there. -/
theorem zoom_leaf_iff {tree place : BinTree Cell} {key : Int32} (ordered : tree.Ordered keyOf)
    (isZoom : tree.zoom keyOf key.toInt [] = (place, trail)) :
    place = .leaf ↔ ∀ cell ∈ tree.toList, cell.key ≠ key := by
  have whole := @BinTree.plug_zoom _ _ _ keyOf key.toInt tree []
  rw [isZoom, Trail.plug_nil] at whole
  simp only at whole
  constructor
  · rintro rfl cell member same
    obtain ⟨before, after⟩ := BinTree.zoom_between_of_ordered ordered isZoom
    rw [← whole, Trail.toList_plug, BinTree.toList, List.append_nil] at member
    rw [key_eq_iff] at same
    rcases List.mem_append.mp member with isBefore | isAfter
    · exact (before cell isBefore).ne same
    · exact (after cell isAfter).ne' same
  · intro absent
    cases place with
    | leaf => rfl
    | node left cell right =>
        have isCell : cell ∈ tree.toList := by
          rw [← whole, Trail.toList_plug]
          simp [BinTree.toList]
        exact absurd (key_eq_iff.mpr (BinTree.zoom_found isZoom)) (absent cell isCell)

/-- The search leaves after at most as many turns as the tree has levels. -/
theorem findLoop_eq (isNil : T.nil = some nil.addr) (key : Int32) (fuel : Nat)
    (linked : Rep T.heap.load nil parent tree) (real : ∀ cell ∈ tree.toList, cell.addr ≠ nil.addr)
    (enough : tree.height < fuel) (trail : Trail Cell) :
    loop (fun node => .orFault (findTurn T key node)) fuel (some (top nil tree)) =
      some (some (top nil (tree.zoom keyOf key.toInt trail).1)) := by
  induction tree generalizing parent fuel trail with
  | leaf =>
      obtain ⟨fuel, rfl⟩ := Nat.exists_eq_add_of_le' (Nat.one_le_of_lt enough)
      have turn : Turn.orFault (findTurn T key (some (top nil .leaf))) = .leave (some nil.addr) := by
        simp only [findTurn, top, isNil, if_true, Turn.orFault]
      rw [loop_leave turn]
      rfl
  | node left cell right left_ih right_ih =>
      obtain ⟨fuel, rfl⟩ := Nat.exists_eq_add_of_le' (Nat.one_le_of_lt enough)
      obtain ⟨found, repLeft, repRight⟩ := linked
      rw [BinTree.height] at enough
      have notNil : some cell.addr ≠ T.nil := by
        rw [isNil]
        exact fun same => real cell (by simp [BinTree.toList]) (Option.some.inj same)
      have turn : findTurn T key (some cell.addr) =
          if cell.key = key then some (.leave (some cell.addr))
          else if cell.key < key then some (.again (some (top nil right)))
          else if key < cell.key then some (.again (some (top nil left)))
          else some (.again (some cell.addr)) := by
        have loads : T.load (some cell.addr) = some _ := found
        simp only [findTurn, if_neg notNil, loads, Option.bind_eq_bind, Option.bind_some]
        rfl
      rw [top, BinTree.zoom]
      rcases lt_trichotomy (keyOf cell) key.toInt with less | equal | more
      · have isLess : cell.key < key := keyOf_lt_iff.mpr less
        have notEqual : cell.key ≠ key := fun same => less.ne (key_eq_iff.mp same)
        rw [if_neg notEqual, if_pos isLess] at turn
        rw [if_neg less.not_gt, if_pos less, loop_again (by rw [turn, Turn.orFault])]
        exact right_ih fuel repRight (fun other member => real other (by simp [BinTree.toList, member]))
          (by omega) _
      · rw [if_pos (key_eq_iff.mpr equal)] at turn
        rw [if_neg equal.not_gt, if_neg equal.not_lt, loop_leave (by rw [turn, Turn.orFault])]
        rfl
      · have isMore : key < cell.key := lt_keyOf_iff.mpr more
        have notLess : ¬ cell.key < key := fun less => more.not_gt (keyOf_lt_iff.mp less)
        have notEqual : cell.key ≠ key := fun same => more.ne' (key_eq_iff.mp same)
        rw [if_neg notEqual, if_neg notLess, if_pos isMore] at turn
        rw [if_pos more, loop_again (by rw [turn, Turn.orFault])]
        exact left_ih fuel repLeft (fun other member => real other (by simp [BinTree.toList, member]))
          (by omega) _

/-- `rbtree_find` finds what `zoom` finds. -/
theorem rbtreeFind_eq (focus : Focus T nil [] tree) (key : Int32) :
    rbtreeFind T key = some (match (tree.zoom keyOf key.toInt []).1 with
      | .leaf => none
      | .node _ cell _ => some cell.addr) := by
  have real : ∀ cell ∈ tree.toList, cell.addr ≠ nil.addr :=
    fun cell member => focus.shape.apart.real cell (List.mem_append_left _ member)
  have enough : tree.height < T.turns :=
    Nat.lt_succ_of_lt (tree.height_le_size.trans_lt focus.size_lt)
  have walk := findLoop_eq focus.isNil key T.turns focus.shape.linked real enough []
  have whole := @BinTree.plug_zoom _ _ _ keyOf key.toInt tree []
  generalize isZoom : tree.zoom keyOf key.toInt [] = zoomed at walk whole ⊢
  obtain ⟨found, outer⟩ := zoomed
  have isRoot : T.root = some (top nil tree) := focus.root
  cases tree with
  | leaf =>
      rw [BinTree.zoom, Prod.mk.injEq] at isZoom
      rw [rbtreeFind, if_pos (isRoot.trans focus.isNil.symm), ← isZoom.1]
  | node left cell right =>
      have notNil : T.root ≠ T.nil := by
        rw [isRoot, focus.isNil]
        exact fun same => real cell (by simp [BinTree.toList]) (Option.some.inj same)
      rw [rbtreeFind, if_neg notNil, isRoot]
      simp only [walk, Option.bind_eq_bind, Option.bind_some, focus.isNil]
      cases found with
      | leaf => simp [top]
      | node lower item upper =>
          have isItem : item ∈ (BinTree.node left cell right).toList := by
            rw [Trail.plug_nil] at whole
            rw [← whole, Trail.toList_plug]
            simp [BinTree.toList]
          simp [top, real item isItem]

/-- Keys do not occur twice. -/
theorem eq_of_key_eq (ordered : tree.Ordered keyOf) {one two : Cell} (isOne : one ∈ tree.toList)
    (isTwo : two ∈ tree.toList) (same : one.key = two.key) : one = two := by
  have distinct : (tree.toList.map keyOf).Nodup :=
    List.pairwise_map.mpr (ordered.imp fun less => ne_of_lt less)
  apply List.inj_on_of_nodup_map distinct isOne isTwo
  unfold keyOf
  rw [same]

theorem rbtreeFind_absent {key : Int32} (focus : Focus T nil [] tree) (ordered : tree.Ordered keyOf)
    (absent : ∀ cell ∈ tree.toList, cell.key ≠ key) : rbtreeFind T key = some none := by
  rw [rbtreeFind_eq focus key]
  cases isZoom : tree.zoom keyOf key.toInt [] with
  | mk place outer =>
      have isLeaf : place = .leaf := (zoom_leaf_iff ordered isZoom).mpr absent
      rw [isLeaf]

theorem rbtreeFind_present {cell : Cell} (focus : Focus T nil [] tree) (ordered : tree.Ordered keyOf)
    (member : cell ∈ tree.toList) : rbtreeFind T cell.key = some (some cell.addr) := by
  have whole := @BinTree.plug_zoom _ _ _ keyOf cell.key.toInt tree []
  rw [Trail.plug_nil] at whole
  rw [rbtreeFind_eq focus cell.key]
  cases isZoom : tree.zoom keyOf cell.key.toInt [] with
  | mk place outer =>
      cases place with
      | leaf => exact absurd rfl ((zoom_leaf_iff ordered isZoom).mp rfl cell member)
      | node left found right =>
          rw [isZoom] at whole
          have isFound : found ∈ tree.toList := by
            rw [← whole, Trail.toList_plug]
            simp [BinTree.toList]
          have same := key_eq_iff.mpr (BinTree.zoom_found isZoom)
          rw [eq_of_key_eq ordered isFound member same]

private theorem insertLoop_eq (isNil : T.nil = some nil.addr) (key : Int32) (fuel : Nat)
    (linked : Rep T.heap.load nil parent tree) (real : ∀ cell ∈ tree.toList, cell.addr ≠ nil.addr)
    (enough : tree.size < fuel) (trail : Trail Cell) :
    loop (fun state => .orFault (insertTurn T key state)) fuel
        (some (top nil tree), some (parentOf nil trail)) =
      some (match tree.zoom keyOf key.toInt trail with
        | (.leaf, outer) => some (some (parentOf nil outer))
        | (.node _ _ _, _) => none) := by
  induction tree generalizing parent fuel trail with
  | leaf =>
      obtain ⟨fuel, rfl⟩ := Nat.exists_eq_add_of_le' (Nat.one_le_of_lt enough)
      apply loop_leave
      simp only [insertTurn, top, isNil, if_true, Turn.orFault, BinTree.zoom]
  | node left cell right left_ih right_ih =>
      obtain ⟨fuel, rfl⟩ := Nat.exists_eq_add_of_le' (Nat.one_le_of_lt enough)
      obtain ⟨found, repLeft, repRight⟩ := linked
      rw [BinTree.size] at enough
      have notNil : some cell.addr ≠ T.nil := by
        rw [isNil]
        exact fun same => real cell (by simp [BinTree.toList]) (Option.some.inj same)
      have turn : insertTurn T key (some cell.addr, some (parentOf nil trail)) =
          if key < cell.key then some (.again (some (top nil left), some cell.addr))
          else if cell.key < key then some (.again (some (top nil right), some cell.addr))
          else some (.leave none) := by
        have loads : T.load (some cell.addr) = some _ := found
        simp only [insertTurn, if_neg notNil, loads, Option.bind_eq_bind, Option.bind_some]
        rfl
      rw [top, BinTree.zoom]
      rcases lt_trichotomy (keyOf cell) key.toInt with less | equal | more
      · have isLess : cell.key < key := keyOf_lt_iff.mpr less
        have notMore : ¬ key < cell.key := fun more => less.not_gt (lt_keyOf_iff.mp more)
        rw [if_neg notMore, if_pos isLess] at turn
        rw [if_neg less.not_gt, if_pos less, loop_again (by rw [turn, Turn.orFault])]
        exact right_ih fuel repRight (fun other member => real other (by simp [BinTree.toList, member]))
          (by omega) (⟨.right, cell, left⟩ :: trail)
      · have notMore : ¬ key < cell.key := fun more => equal.not_gt (lt_keyOf_iff.mp more)
        have notLess : ¬ cell.key < key := fun less => equal.not_lt (keyOf_lt_iff.mp less)
        rw [if_neg notMore, if_neg notLess] at turn
        rw [if_neg equal.not_gt, if_neg equal.not_lt, loop_leave (by rw [turn, Turn.orFault])]
      · rw [if_pos (lt_keyOf_iff.mpr more)] at turn
        rw [if_pos more, loop_again (by rw [turn, Turn.orFault])]
        exact left_ih fuel repLeft (fun other member => real other (by simp [BinTree.toList, member]))
          (by omega) (⟨.left, cell, right⟩ :: trail)

/-- The loop of `rbtree_insert` finds the place for the key, unless it is there. -/
theorem insertLoop_spec (focus : Focus T nil [] tree) (key : Int32) :
    loop (fun state => .orFault (insertTurn T key state)) T.turns (T.root, T.nil) =
      some (match tree.zoom keyOf key.toInt [] with
        | (.leaf, outer) => some (some (parentOf nil outer))
        | (.node _ _ _, _) => none) := by
  rw [focus.root, focus.isNil]
  exact insertLoop_eq focus.isNil key T.turns focus.shape.linked
    (fun cell member => focus.shape.apart.real cell (List.mem_append_left _ member))
    (Nat.lt_succ_of_lt focus.size_lt) []

/-! ### Reading the tree -/

theorem readTree_eq (isNil : T.nil = some nil.addr) (depth : Nat)
    (linked : Rep T.heap.load nil parent tree) (real : ∀ cell ∈ tree.toList, cell.addr ≠ nil.addr)
    (enough : tree.size < depth) : readTree T depth (some (top nil tree)) = tree := by
  induction tree generalizing parent depth with
  | leaf =>
      cases depth with
      | zero => rfl
      | succ depth => exact if_pos isNil.symm
  | node left cell right left_ih right_ih =>
      obtain ⟨depth, rfl⟩ := Nat.exists_eq_add_of_le' (Nat.one_le_of_lt enough)
      rw [BinTree.size] at enough
      have loads : T.load (some cell.addr) = some _ := linked.1
      have notNil : some cell.addr ≠ T.nil := by
        rw [isNil]
        exact fun same => real cell (by simp [BinTree.toList]) (Option.some.inj same)
      have isLeft := left_ih depth linked.2.1 (fun other member => real other
        (by simp [BinTree.toList, member])) (by omega)
      have isRight := right_ih depth linked.2.2 (fun other member => real other
        (by simp [BinTree.toList, member])) (by omega)
      show readTree T (depth + 1) (some cell.addr) = _
      simp only [readTree, if_neg notNil, loads, Cell.node, isLeft, isRight]

theorem Focus.tree_eq (focus : Focus T nil [] tree) : T.tree = tree := by
  have isRoot : T.root = some (top nil tree) := focus.root
  rw [Rbtree.tree, isRoot]
  exact readTree_eq focus.isNil _ focus.shape.linked
    (fun cell member => focus.shape.apart.real cell (List.mem_append_left _ member))
    (Nat.lt_succ_of_lt focus.size_lt)

end

end SimpleBasicComponents.RbTree
