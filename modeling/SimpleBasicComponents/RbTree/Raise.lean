import SimpleBasicComponents.RbTree.Colors

/-!
What the fix-up of an insertion makes of a tree.

Owns: `raise`, the fix-up as a function on trees, and what it keeps: the records,
the colour rule and the balance. `insert_fixup` is shown to compute it.
-/

namespace SimpleBasicComponents.RbTree

open SimpleBasicComponents.Semantics

/-- The subtree on a side. -/
def childOf (side : Side) : BinTree Cell → BinTree Cell
  | .leaf => .leaf
  | .node left _ right =>
      match side with
      | .left => left
      | .right => right

theorem leaves_of_childOf {side : Side} {left right : BinTree Cell} {cell : Cell}
    (isNear : childOf side (.node left cell right) = .leaf)
    (isFar : childOf side.other (.node left cell right) = .leaf) : left = .leaf ∧ right = .leaf := by
  cases side with
  | left => exact ⟨isNear, isFar⟩
  | right => exact ⟨isFar, isNear⟩

def paint (color : UInt8) : BinTree Cell → BinTree Cell
  | .leaf => .leaf
  | .node left cell right => .node left { cell with color } right

/-- Parent and uncle take the colour of the node above them, and it takes theirs. -/
def recolored (frame above : Frame Cell) (tree : BinTree Cell) : BinTree Cell :=
  .join above.side (.join frame.side tree { frame.item with color := above.item.color } frame.sibling)
    { above.item with color := frame.item.color } (paint above.item.color above.sibling)

/-- One rotation: the parent comes up. -/
def straight (frame above : Frame Cell) (tree : BinTree Cell) : BinTree Cell :=
  .join above.side.other
    (.join above.side.other above.sibling { above.item with color := frame.item.color } frame.sibling)
    { frame.item with color := above.item.color } tree

/-- Two rotations: the node itself comes up. -/
def bent (frame above : Frame Cell) (tree : BinTree Cell) (cell : Cell) : BinTree Cell :=
  .join above.side.other
    (.join above.side.other above.sibling { above.item with color := frame.item.color }
      (childOf above.side.other tree))
    { cell with color := above.item.color }
    (.join above.side frame.sibling { frame.item with color := cell.color } (childOf above.side tree))

/-- The tree when a node that has become red is at the end of the trail. Its
parent may be red too; then its uncle decides whether the fix-up goes on upwards
or rotations end it. -/
def raise : Trail Cell → BinTree Cell → BinTree Cell
  | frame :: above :: rest, .node left cell right =>
      if frame.item.color = RED then
        if isRed above.sibling then raise rest (recolored frame above (.node left cell right))
        else if frame.side = above.side then
          Trail.plug rest (straight frame above (.node left cell right))
        else Trail.plug rest (bent frame above (.node left cell right) cell)
      else Trail.plug rest (above.fill (frame.fill (.node left cell right)))
  | trail, tree => Trail.plug trail tree

/-- The tree after an insertion: the root is painted black, unless the parent of
the new node is black already. -/
def settle : Trail Cell → BinTree Cell → BinTree Cell
  | [], tree => paint BLACK tree
  | frame :: rest, tree =>
      if frame.item.color = BLACK then Trail.plug rest (frame.fill tree)
      else paint BLACK (raise (frame :: rest) tree)

theorem join_childOf (side : Side) (left : BinTree Cell) (cell : Cell) (right : BinTree Cell) :
    BinTree.join side (childOf side (.node left cell right)) cell
      (childOf side.other (.node left cell right)) = .node left cell right := by
  cases side <;> rfl

section

variable {tree left right : BinTree Cell} {cell : Cell} {frame above : Frame Cell} {trail rest : Trail Cell}

/-! ### Entries -/

theorem records_paint (color : UInt8) (tree : BinTree Cell) : records (paint color tree) = records tree := by
  cases tree <;> simp [paint, records, BinTree.toList, Cell.record]

private theorem records_recolored :
    records (recolored frame above tree) = records (above.fill (frame.fill tree)) := by
  have lower : records (.join frame.side tree { frame.item with color := above.item.color }
      frame.sibling) = records (frame.fill tree) := records_join_congr rfl rfl rfl
  exact records_join_congr lower rfl (records_paint _ _)

private theorem records_straight (same : frame.side = above.side) :
    records (straight frame above tree) = records (above.fill (frame.fill tree)) := by
  have rotated := @records_rotate above.side.other above.sibling frame.sibling tree above.item
    frame.item { above.item with color := frame.item.color } { frame.item with color := above.item.color }
    rfl rfl
  rw [straight, rotated, Frame.fill, Frame.fill, same, BinTree.join_other, BinTree.join_other]

private theorem records_bent (differ : frame.side ≠ above.side) :
    records (bent frame above (.node left cell right) cell) =
      records (above.fill (frame.fill (.node left cell right))) := by
  have isOther := Side.eq_other_of_ne differ
  have lower := @records_rotate above.side frame.sibling (childOf above.side (.node left cell right))
    (childOf above.side.other (.node left cell right)) frame.item cell
    { frame.item with color := cell.color } cell rfl rfl
  rw [join_childOf] at lower
  have upper := @records_rotate above.side.other above.sibling
    (childOf above.side.other (.node left cell right))
    (.join above.side frame.sibling { frame.item with color := cell.color }
      (childOf above.side (.node left cell right)))
    above.item cell { above.item with color := frame.item.color } { cell with color := above.item.color }
    rfl rfl
  rw [bent, upper, BinTree.join_other, BinTree.join_other]
  refine records_join_congr ?_ rfl rfl
  rw [lower, Frame.fill, isOther, BinTree.join_other]

/-- The records stay in their order. -/
theorem records_raise (trail : Trail Cell) (tree : BinTree Cell) :
    records (raise trail tree) = records (Trail.plug trail tree) := by
  fun_induction raise trail tree with
  | case1 frame above rest left cell right red uncleRed ih =>
      rw [ih]
      exact records_plug_congr records_recolored rest
  | case2 frame above rest left cell right red uncleBlack same =>
      exact records_plug_congr (records_straight same) rest
  | case3 frame above rest left cell right red uncleBlack differ =>
      exact records_plug_congr (records_bent differ) rest
  | case4 frame above rest left cell right black => rfl
  | case5 => rfl

/-! ### Colours -/

theorem noRedRed_paint {color : UInt8} (noRedRed : NoRedRed tree) (black : color ≠ RED) :
    NoRedRed (paint color tree) := by
  cases tree with
  | leaf => trivial
  | node left cell right => exact ⟨fun red => absurd red black, noRedRed.2⟩

theorem isRed_paint {color : UInt8} (black : color ≠ RED) : ¬ isRed (paint color tree) := by
  cases tree with
  | leaf => exact id
  | node left cell right => exact black

/-- What is known of two nodes one above the other, the lower one red. -/
theorem Ruled.two (ruled : Ruled (frame :: above :: rest) False) (red : frame.item.color = RED) :
    ¬ isRed frame.sibling ∧ NoRedRed frame.sibling ∧ above.item.color ≠ RED ∧ NoRedRed above.sibling ∧
      Ruled rest False := by
  obtain ⟨here, sibling, hereAbove, siblingAbove, higher⟩ := ruled
  exact ⟨(here red).2, sibling, fun redAbove => (hereAbove redAbove).1 red, siblingAbove,
    higher.mono False.elim⟩

/-- No red node has a red child afterwards, but the root may be red. -/
theorem noRedRed_raise (ruled : Ruled trail False) (red : isRed tree) (noRedRed : NoRedRed tree) :
    NoRedRed (raise trail tree) := by
  fun_induction raise trail tree with
  | case1 frame above rest left cell right parentRed uncleRed ih =>
      obtain ⟨siblingBlack, sibling, aboveBlack, uncle, higher⟩ := ruled.two parentRed
      apply ih higher (isRed_join.mpr parentRed)
      have lower : NoRedRed (.join frame.side (.node left cell right)
          { frame.item with color := above.item.color } frame.sibling) :=
        noRedRed_join.mpr ⟨fun isRed => absurd isRed aboveBlack, noRedRed, sibling⟩
      refine noRedRed_join.mpr ⟨fun _ => ⟨?_, isRed_paint aboveBlack⟩, lower,
        noRedRed_paint uncle aboveBlack⟩
      rw [isRed_join]
      exact aboveBlack
  | case2 frame above rest left cell right parentRed uncleBlack same =>
      obtain ⟨siblingBlack, sibling, aboveBlack, uncle, higher⟩ := ruled.two parentRed
      apply (colored_plug.mpr ⟨?_, ?_⟩).2
      · refine noRedRed_join.mpr ⟨fun isRed => absurd isRed aboveBlack, ?_, noRedRed⟩
        exact noRedRed_join.mpr ⟨fun _ => ⟨uncleBlack, siblingBlack⟩, uncle, sibling⟩
      · rw [straight, isRed_join]
        exact higher.mono aboveBlack
  | case3 frame above rest left cell right parentRed uncleBlack differ =>
      obtain ⟨siblingBlack, sibling, aboveBlack, uncle, higher⟩ := ruled.two parentRed
      rw [← join_childOf above.side, noRedRed_join] at noRedRed
      obtain ⟨blackBelow, near, far⟩ := noRedRed
      obtain ⟨nearBlack, farBlack⟩ := blackBelow red
      apply (colored_plug.mpr ⟨?_, ?_⟩).2
      · refine noRedRed_join.mpr ⟨fun isRed => absurd isRed aboveBlack, ?_, ?_⟩
        · exact noRedRed_join.mpr ⟨fun _ => ⟨uncleBlack, farBlack⟩, uncle, far⟩
        · exact noRedRed_join.mpr ⟨fun _ => ⟨siblingBlack, nearBlack⟩, sibling, near⟩
      · rw [bent, isRed_join]
        exact higher.mono aboveBlack
  | case4 frame above rest left cell right black =>
      show NoRedRed (Trail.plug (frame :: above :: rest) _)
      exact (colored_plug.mpr ⟨noRedRed, ruled.of_black black⟩).2
  | case5 trail tree short =>
      match trail, tree with
      | [], _ => exact noRedRed
      | [frame], _ =>
          have black : frame.item.color ≠ RED := ruled.2.2
          exact (colored_plug.mpr ⟨noRedRed, ruled.of_black black⟩).2
      | frame :: above :: rest, .node left cell right => exact (short _ _ _ _ _ _ rfl rfl).elim

/-! ### Balance -/

/-- A red node adds nothing to the height, so any colour may take its place. -/
theorem balanced_paint {height : Nat} (balanced : Balanced tree height) (red : isRed tree)
    (color : UInt8) : Balanced (paint color tree) (height + black color) := by
  cases tree with
  | leaf => exact red.elim
  | node left cell right =>
      have isRed : cell.color = RED := red
      obtain ⟨below, isLeft, isRight, rfl⟩ := balanced
      rw [isRed, black_RED, Nat.add_zero]
      exact ⟨below, isLeft, isRight, rfl⟩

/-- All trails still have equally many black nodes. -/
theorem balanced_raise {height : Nat} (red : isRed tree) (balanced : Balanced tree height)
    (ruled : BalancedTrail trail height) : ∃ after, Balanced (raise trail tree) after := by
  fun_induction raise trail tree generalizing height with
  | case1 frame above rest left cell right parentRed uncleRed ih =>
      obtain ⟨sibling, uncle, higher⟩ := ruled
      rw [parentRed, black_RED, Nat.add_zero] at uncle higher
      apply ih (isRed_join.mpr parentRed) _ higher
      refine balanced_join.mpr ⟨_, balanced_join.mpr ⟨height, balanced, sibling, rfl⟩,
        balanced_paint uncle uncleRed _, ?_⟩
      rw [parentRed, black_RED, Nat.add_zero]
  | case2 frame above rest left cell right parentRed uncleBlack same =>
      obtain ⟨sibling, uncle, higher⟩ := ruled
      rw [parentRed, black_RED, Nat.add_zero] at uncle higher
      have lower : Balanced (.join above.side.other above.sibling
          { above.item with color := frame.item.color } frame.sibling) height := by
        refine balanced_join.mpr ⟨height, uncle, sibling, ?_⟩
        rw [parentRed, black_RED, Nat.add_zero]
      exact balanced_plug.mpr ⟨_, balanced_join.mpr ⟨height, lower, balanced, rfl⟩, higher⟩
  | case3 frame above rest left cell right parentRed uncleBlack differ =>
      obtain ⟨sibling, uncle, higher⟩ := ruled
      rw [parentRed, black_RED, Nat.add_zero] at uncle higher
      have isRed : cell.color = RED := red
      rw [← join_childOf above.side, balanced_join, isRed, black_RED] at balanced
      obtain ⟨below, near, far, rfl⟩ := balanced
      have lower : Balanced (.join above.side.other above.sibling
          { above.item with color := frame.item.color }
          (childOf above.side.other (.node left cell right))) height := by
        refine balanced_join.mpr ⟨_, uncle, far, ?_⟩
        rw [parentRed, black_RED, Nat.add_zero]
      have other : Balanced (.join above.side frame.sibling { frame.item with color := cell.color }
          (childOf above.side (.node left cell right))) height := by
        refine balanced_join.mpr ⟨_, sibling, near, ?_⟩
        rw [isRed, black_RED, Nat.add_zero]
      exact balanced_plug.mpr ⟨_, balanced_join.mpr ⟨_, lower, other, rfl⟩, higher⟩
  | case4 frame above rest left cell right notRed =>
      show ∃ after, Balanced (Trail.plug (frame :: above :: rest) _) after
      exact balanced_plug.mpr ⟨height, balanced, ruled⟩
  | case5 => exact balanced_plug.mpr ⟨height, balanced, ruled⟩

/-! ### After the root is painted -/

theorem records_settle (trail : Trail Cell) (tree : BinTree Cell) :
    records (settle trail tree) = records (Trail.plug trail tree) := by
  cases trail with
  | nil => exact records_paint BLACK tree
  | cons frame rest =>
      rw [settle]
      split
      · rfl
      · rw [records_paint, records_raise]

private theorem blackRoot_paint (tree : BinTree Cell) : BlackRoot (paint BLACK tree) := by
  cases tree with
  | leaf => trivial
  | node left cell right => exact rfl

/-- What is at the end of a trail has no influence on the root. -/
private theorem blackRoot_plug (frame : Frame Cell) (rest : Trail Cell) (one two : BinTree Cell) :
    BlackRoot (Trail.plug (frame :: rest) one) ↔ BlackRoot (Trail.plug (frame :: rest) two) := by
  induction rest generalizing frame one two with
  | nil =>
      cases isSide : frame.side <;>
        simp only [Trail.plug_cons, Trail.plug_nil, Frame.fill, isSide, BinTree.join, BlackRoot]
  | cons above rest inductionHypothesis => exact inductionHypothesis above _ _

theorem blackRoot_settle (black : BlackRoot (Trail.plug trail .leaf)) (tree : BinTree Cell) :
    BlackRoot (settle trail tree) := by
  cases trail with
  | nil => exact blackRoot_paint tree
  | cons frame rest =>
      rw [settle]
      split
      · exact (blackRoot_plug frame rest .leaf tree).mp black
      · exact blackRoot_paint _

theorem colored_settle (ruled : Ruled trail False) (red : isRed tree) (noRedRed : NoRedRed tree) :
    Colored (settle trail tree) := by
  have black : BLACK ≠ RED := by decide
  cases trail with
  | nil => exact ⟨isRed_paint black, noRedRed_paint noRedRed black⟩
  | cons frame rest =>
      rw [settle]
      split
      · rename_i isBlack
        rw [← Trail.plug_cons, colored_plug]
        refine ⟨noRedRed, ruled.of_black ?_⟩
        rw [isBlack]
        exact black
      · exact ⟨isRed_paint black, noRedRed_paint (noRedRed_raise ruled red noRedRed) black⟩

theorem balanced_settle {height : Nat} (red : isRed tree) (balanced : Balanced tree height)
    (ruled : BalancedTrail trail height) : ∃ after, Balanced (settle trail tree) after := by
  have painted : ∀ {tree : BinTree Cell} {height : Nat}, Balanced tree height →
      ∃ after, Balanced (paint BLACK tree) after := by
    intro tree height balanced
    cases tree with
    | leaf => exact ⟨height, balanced⟩
    | node left cell right =>
        obtain ⟨below, isLeft, isRight, -⟩ := balanced
        exact ⟨_, below, isLeft, isRight, rfl⟩
  cases trail with
  | nil => exact painted balanced
  | cons frame rest =>
      rw [settle]
      split
      · rw [← Trail.plug_cons, balanced_plug]
        exact ⟨height, balanced, ruled⟩
      · obtain ⟨after, isBalanced⟩ := balanced_raise red balanced ruled
        exact painted isBalanced

/-- A new node between smaller and greater keys. -/
theorem ordered_settle {cell : Cell} (ordered : (Trail.plug trail .leaf).Ordered keyOf)
    (before : ∀ item ∈ trail.before, keyOf item < keyOf cell)
    (after : ∀ item ∈ trail.after, keyOf cell < keyOf item) :
    (settle trail (.node .leaf cell .leaf)).Ordered keyOf := by
  rw [ordered_iff_entries, entries_of_records (records_settle _ _), ← ordered_iff_entries]
  exact ordered.insert before after

theorem colored_settle_single {cell : Cell} (colored : Colored (Trail.plug trail .leaf))
    (red : cell.color = RED) : Colored (settle trail (.node .leaf cell .leaf)) := by
  apply @colored_settle (.node .leaf cell .leaf) trail (colored_plug.mp colored).2 red
  exact ⟨fun _ => ⟨id, id⟩, trivial, trivial⟩

/-- A new red node between smaller and greater keys. -/
theorem redBlack_settle {cell : Cell} (redBlack : RedBlack (Trail.plug trail .leaf))
    (red : cell.color = RED) (before : ∀ item ∈ trail.before, keyOf item < keyOf cell)
    (after : ∀ item ∈ trail.after, keyOf cell < keyOf item) :
    RedBlack (settle trail (.node .leaf cell .leaf)) := by
  obtain ⟨height, isLeaf, balancedTrail⟩ := balanced_plug.mp redBlack.balanced
  obtain rfl : height = 0 := isLeaf
  have single : Balanced (.node .leaf cell .leaf) 0 := ⟨0, rfl, rfl, by rw [red, black_RED]⟩
  exact ⟨ordered_settle redBlack.ordered before after, blackRoot_settle redBlack.blackRoot _,
    (colored_settle_single redBlack.colored red).2, balanced_settle red single balancedTrail⟩

end

end SimpleBasicComponents.RbTree
