import Mathlib.Data.Int.Order.Basic
import SimpleBasicComponents.RbTree.Links

/-!
The colours and the entries of a tree.

Owns: the colour rule the source keeps through every call (the root is not red,
and no red node has a red child), read along a trail, and the entries of a tree
in order. That all trails to a leaf pass equally many black nodes is not among
the rules: deletions break it.
-/

namespace SimpleBasicComponents.RbTree

open SimpleBasicComponents.Semantics

def isRed : BinTree Cell → Prop
  | .leaf => False
  | .node _ cell _ => cell.color = RED

instance (tree : BinTree Cell) : Decidable (isRed tree) := by
  cases tree <;> unfold isRed <;> infer_instance

def NoRedRed : BinTree Cell → Prop
  | .leaf => True
  | .node left cell right =>
      (cell.color = RED → ¬ isRed left ∧ ¬ isRed right) ∧ NoRedRed left ∧ NoRedRed right

def Colored (tree : BinTree Cell) : Prop := ¬ isRed tree ∧ NoRedRed tree

/-- A subtree that is red, or is not, may be put at the end of the trail. -/
def Ruled : Trail Cell → Prop → Prop
  | [], red => ¬ red
  | frame :: rest, red =>
      (frame.item.color = RED → ¬ red ∧ ¬ isRed frame.sibling) ∧ NoRedRed frame.sibling ∧
        Ruled rest (frame.item.color = RED)

/-- How much a node of this colour adds to the number of black nodes on a trail. -/
def black (color : UInt8) : Nat := if color = BLACK then 1 else 0

@[simp] theorem black_RED : black RED = 0 := rfl

/-- On every trail from the root to a leaf there are so many black nodes. -/
def Balanced : BinTree Cell → Nat → Prop
  | .leaf, height => height = 0
  | .node left cell right, height =>
      ∃ below, Balanced left below ∧ Balanced right below ∧ height = below + black cell.color

/-- A subtree of that height may be put at the end of the trail. -/
def BalancedTrail : Trail Cell → Nat → Prop
  | [], _ => True
  | frame :: rest, height => Balanced frame.sibling height ∧ BalancedTrail rest (height + black frame.item.color)

def BlackRoot : BinTree Cell → Prop
  | .leaf => True
  | .node _ cell _ => cell.color = BLACK

/-- What is stored under a key. -/
def Cell.entry (cell : Cell) : Int32 × Nat := (cell.key, cell.value)

/-- The entries from left to right. -/
def entries (tree : BinTree Cell) : List (Int32 × Nat) := tree.toList.map Cell.entry

/-- What a node holds besides its colour and its links. -/
def Cell.record (cell : Cell) : Addr × Int32 × Nat := (cell.addr, cell.key, cell.value)

def records (tree : BinTree Cell) : List (Addr × Int32 × Nat) := tree.toList.map Cell.record

section

variable {near far tree : BinTree Cell} {cell : Cell} {frame : Frame Cell} {rest trail : Trail Cell}
  {side : Side} {red : Prop}

theorem isRed_join : isRed (.join side near cell far) ↔ cell.color = RED := by
  cases side <;> exact Iff.rfl

theorem noRedRed_join : NoRedRed (.join side near cell far) ↔
    (cell.color = RED → ¬ isRed near ∧ ¬ isRed far) ∧ NoRedRed near ∧ NoRedRed far := by
  cases side with
  | left => exact Iff.rfl
  | right =>
      show (_ → _ ∧ _) ∧ _ ∧ _ ↔ _
      rw [and_comm (a := ¬ isRed far), and_comm (a := NoRedRed far)]

theorem Ruled.mono {less : Prop} (ruled : Ruled trail red) (implies : less → red) : Ruled trail less := by
  cases trail with
  | nil => exact fun isLess => ruled (implies isLess)
  | cons frame rest =>
      obtain ⟨here, sibling, above⟩ := ruled
      exact ⟨fun frameRed => ⟨fun isLess => (here frameRed).1 (implies isLess), (here frameRed).2⟩,
        sibling, above⟩

theorem Ruled.of_black (ruled : Ruled (frame :: rest) False) (black : frame.item.color ≠ RED) :
    Ruled (frame :: rest) red :=
  ⟨fun frameRed => absurd frameRed black, ruled.2⟩

theorem colored_plug : Colored (trail.plug tree) ↔ NoRedRed tree ∧ Ruled trail (isRed tree) := by
  induction trail generalizing tree with
  | nil => exact and_comm
  | cons frame rest inductionHypothesis =>
      rw [Trail.plug_cons, inductionHypothesis, Frame.fill, noRedRed_join, Ruled]
      constructor
      · rintro ⟨⟨here, noRedRed, sibling⟩, above⟩
        exact ⟨noRedRed, here, sibling, above.mono isRed_join.mpr⟩
      · rintro ⟨noRedRed, here, sibling, above⟩
        exact ⟨⟨here, noRedRed, sibling⟩, above.mono isRed_join.mp⟩

theorem balanced_join {height : Nat} : Balanced (.join side near cell far) height ↔
    ∃ below, Balanced near below ∧ Balanced far below ∧ height = below + black cell.color := by
  cases side with
  | left => exact Iff.rfl
  | right =>
      show (∃ below, _ ∧ _ ∧ _) ↔ _
      exact exists_congr fun below => and_left_comm

theorem balanced_plug : (∃ height, Balanced (trail.plug tree) height) ↔
    ∃ height, Balanced tree height ∧ BalancedTrail trail height := by
  induction trail generalizing tree with
  | nil => simp [BalancedTrail]
  | cons frame rest inductionHypothesis =>
      rw [Trail.plug_cons, inductionHypothesis]
      constructor
      · rintro ⟨height, balanced, above⟩
        obtain ⟨below, isTree, sibling, rfl⟩ := balanced_join.mp balanced
        exact ⟨below, isTree, sibling, above⟩
      · rintro ⟨height, balanced, sibling, above⟩
        exact ⟨_, balanced_join.mpr ⟨height, balanced, sibling, rfl⟩, above⟩

/-! ### Records -/

theorem records_join_congr {other : BinTree Cell} {sibling : BinTree Cell} {new : Cell}
    (same : records tree = records other) (sameRecord : new.record = cell.record)
    (sameFar : records sibling = records far) :
    records (.join side tree new sibling) = records (.join side other cell far) := by
  unfold records at *
  cases side <;> simp [BinTree.join, BinTree.toList, same, sameRecord, sameFar]

theorem records_plug_congr {other : BinTree Cell} (same : records tree = records other)
    (trail : Trail Cell) : records (trail.plug tree) = records (trail.plug other) := by
  unfold records at *
  rw [Trail.toList_plug, Trail.toList_plug, List.map_append, List.map_append, List.map_append,
    List.map_append, same]

/-- Rotations keep the order. -/
theorem records_rotate {A M C : BinTree Cell} {x y x' y' : Cell} (sameX : x'.record = x.record)
    (sameY : y'.record = y.record) :
    records (.join side (.join side A x' M) y' C) = records (.join side A x (.join side M y C)) := by
  unfold records
  cases side <;> simp [BinTree.join, BinTree.toList, sameX, sameY]

/-- Nodes with the same records have the same entries. -/
theorem entries_of_records {other : BinTree Cell} (same : records tree = records other) :
    entries tree = entries other := by
  have mapped := congrArg (List.map Prod.snd) same
  unfold records at mapped
  rw [List.map_map, List.map_map] at mapped
  exact mapped

theorem entries_plug (trail : Trail Cell) (tree : BinTree Cell) : entries (trail.plug tree) =
    trail.before.map Cell.entry ++ entries tree ++ trail.after.map Cell.entry := by
  rw [entries, Trail.toList_plug, List.map_append, List.map_append, entries]

/-- The keys in the order of `int`. -/
def keyOf (cell : Cell) : Int := cell.key.toInt

theorem ordered_iff_entries : tree.Ordered keyOf ↔
    (entries tree).Pairwise fun one two => one.1.toInt < two.1.toInt := by
  rw [entries, List.pairwise_map]
  exact Iff.rfl

end

/-- The red-black invariant. -/
structure RedBlack (tree : BinTree Cell) : Prop where
  ordered : tree.Ordered keyOf
  blackRoot : BlackRoot tree
  noRedRed : NoRedRed tree
  balanced : ∃ height, Balanced tree height

theorem RedBlack.colored {tree : BinTree Cell} (redBlack : RedBlack tree) : Colored tree := by
  refine ⟨?_, redBlack.noRedRed⟩
  have black := redBlack.blackRoot
  cases tree with
  | leaf => exact id
  | node left cell right =>
      show cell.color ≠ RED
      rw [show cell.color = BLACK from black]
      decide

end SimpleBasicComponents.RbTree
