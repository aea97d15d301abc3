import Mathlib.Data.List.Nodup
import Mathlib.Order.Lattice

/-!
Binary trees and the trails into them.

A trail is the list of the items passed on the way from a subtree up to the root,
each with the side the subtree is on and with what hangs on the other side.
`plug` puts a subtree back. The two sides are mirror images: `join` makes a tree
of an item, what is on a given side of it and what is on the other.

`zoom` is the search for a key. In a tree with its keys in order it ends at the
item with the key or where such an item belongs.
-/

namespace SimpleBasicComponents.Semantics

inductive Side where
  | left
  | right
deriving DecidableEq, Repr

def Side.other : Side → Side
  | .left => .right
  | .right => .left

@[simp] theorem Side.other_other (side : Side) : side.other.other = side := by
  cases side <;> rfl

theorem Side.eq_other_of_ne {one two : Side} (different : one ≠ two) : one = two.other := by
  cases one <;> cases two <;> first | rfl | exact absurd rfl different

inductive BinTree (α : Type*) where
  | leaf
  | node (left : BinTree α) (item : α) (right : BinTree α)
deriving DecidableEq, Repr

structure Frame (α : Type*) where
  side : Side
  item : α
  sibling : BinTree α
deriving DecidableEq, Repr

/-- From the bottom up. -/
abbrev Trail (α : Type*) := List (Frame α)

variable {α : Type*}

namespace BinTree

def isLeaf : BinTree α → Bool
  | leaf => true
  | node _ _ _ => false

/-- The items from left to right. -/
def toList : BinTree α → List α
  | leaf => []
  | node left item right => left.toList ++ item :: right.toList

def size : BinTree α → Nat
  | leaf => 0
  | node left _ right => left.size + right.size + 1

def height : BinTree α → Nat
  | leaf => 0
  | node left _ right => max left.height right.height + 1

/-- The tree with `near` on the side and `far` on the other. -/
def join : Side → BinTree α → α → BinTree α → BinTree α
  | .left, near, item, far => node near item far
  | .right, near, item, far => node far item near

theorem join_other (side : Side) (near : BinTree α) (item : α) (far : BinTree α) :
    join side.other near item far = join side far item near := by
  cases side <;> rfl

theorem isLeaf_iff {tree : BinTree α} : tree.isLeaf = true ↔ tree = leaf := by
  cases tree <;> simp [isLeaf]

@[simp] theorem length_toList (tree : BinTree α) : tree.toList.length = tree.size := by
  induction tree with
  | leaf => rfl
  | node left item right left_ih right_ih =>
      rw [toList, List.length_append, List.length_cons, left_ih, right_ih, size]
      omega

theorem height_le_size (tree : BinTree α) : tree.height ≤ tree.size := by
  induction tree with
  | leaf => exact Nat.le_refl 0
  | node left item right left_ih right_ih =>
      rw [height, size]
      omega

theorem toList_join_perm (side : Side) (near : BinTree α) (item : α) (far : BinTree α) :
    (join side near item far).toList.Perm (item :: (near.toList ++ far.toList)) := by
  cases side with
  | left => exact List.perm_middle
  | right => exact List.perm_middle.trans ((List.perm_append_comm).cons item)

end BinTree

def Frame.fill (frame : Frame α) (tree : BinTree α) : BinTree α :=
  BinTree.join frame.side tree frame.item frame.sibling

namespace Trail

def plug : Trail α → BinTree α → BinTree α
  | [], tree => tree
  | frame :: rest, tree => plug rest (frame.fill tree)

/-- The items to the left of the hole, and those to the right. -/
def before : Trail α → List α
  | [] => []
  | ⟨.left, _, _⟩ :: rest => before rest
  | ⟨.right, item, sibling⟩ :: rest => before rest ++ (sibling.toList ++ [item])

def after : Trail α → List α
  | [] => []
  | ⟨.left, item, sibling⟩ :: rest => item :: sibling.toList ++ after rest
  | ⟨.right, _, _⟩ :: rest => after rest

def items : Trail α → List α
  | [] => []
  | frame :: rest => frame.item :: (frame.sibling.toList ++ items rest)

@[simp] theorem plug_nil (tree : BinTree α) : plug [] tree = tree := rfl

@[simp] theorem plug_cons (frame : Frame α) (rest : Trail α) (tree : BinTree α) :
    plug (frame :: rest) tree = plug rest (frame.fill tree) := rfl

theorem plug_append (inner outer : Trail α) (tree : BinTree α) :
    plug (inner ++ outer) tree = plug outer (plug inner tree) := by
  induction inner generalizing tree with
  | nil => rfl
  | cons frame rest inductionHypothesis => exact inductionHypothesis (frame.fill tree)

theorem items_append (inner outer : Trail α) : items (inner ++ outer) = items inner ++ items outer := by
  induction inner with
  | nil => rfl
  | cons frame rest inductionHypothesis =>
      rw [List.cons_append, items, items, inductionHypothesis, List.cons_append, List.append_assoc]

theorem before_append (inner outer : Trail α) :
    before (inner ++ outer) = before outer ++ before inner := by
  induction inner with
  | nil => exact (List.append_nil _).symm
  | cons frame rest inductionHypothesis =>
      obtain ⟨side, item, sibling⟩ := frame
      cases side with
      | left => exact inductionHypothesis
      | right => rw [List.cons_append, before, before, inductionHypothesis, List.append_assoc]

theorem after_append (inner outer : Trail α) :
    after (inner ++ outer) = after inner ++ after outer := by
  induction inner with
  | nil => rfl
  | cons frame rest inductionHypothesis =>
      obtain ⟨side, item, sibling⟩ := frame
      cases side with
      | left => rw [List.cons_append, after, after, inductionHypothesis, List.append_assoc]
      | right => exact inductionHypothesis

theorem toList_plug (trail : Trail α) (tree : BinTree α) :
    (plug trail tree).toList = before trail ++ tree.toList ++ after trail := by
  induction trail generalizing tree with
  | nil => simp [before, after]
  | cons frame rest inductionHypothesis =>
      obtain ⟨side, item, sibling⟩ := frame
      rw [plug_cons, inductionHypothesis]
      cases side <;> simp [before, after, Frame.fill, BinTree.join, BinTree.toList]

theorem toList_plug_perm (trail : Trail α) (tree : BinTree α) :
    (plug trail tree).toList.Perm (tree.toList ++ items trail) := by
  induction trail generalizing tree with
  | nil => simp [items]
  | cons frame rest inductionHypothesis =>
      refine (inductionHypothesis (frame.fill tree)).trans ?_
      have filled := (BinTree.toList_join_perm frame.side tree frame.item frame.sibling).append_right (items rest)
      refine filled.trans ?_
      have moved : (frame.item :: (tree.toList ++ (frame.sibling.toList ++ items rest))).Perm
          (tree.toList ++ frame.item :: (frame.sibling.toList ++ items rest)) := List.perm_middle.symm
      simpa [items] using moved

/-- Every place in the list of the items is a place in the tree. -/
theorem exists_plug_of_split {tree : BinTree α} {earlier later : List α} {item : α}
    (split : tree.toList = earlier ++ item :: later) :
    ∃ trail left right, plug trail (.node left item right) = tree ∧ before trail ++ left.toList = earlier ∧
      right.toList ++ after trail = later := by
  induction tree generalizing earlier later with
  | leaf => simp [BinTree.toList] at split
  | node left other right left_ih right_ih =>
      rw [BinTree.toList, List.append_eq_append_iff] at split
      rcases split with ⟨more, rfl, rest⟩ | ⟨more, isLeft, rest⟩
      · cases more with
        | nil =>
            obtain ⟨rfl, rfl⟩ := List.cons.inj rest
            exact ⟨[], left, right, rfl, by simp [before], by simp [after]⟩
        | cons head more =>
            obtain ⟨rfl, isRight⟩ := List.cons.inj rest
            obtain ⟨trail, near, far, rfl, rfl, rfl⟩ := right_ih isRight
            refine ⟨trail ++ [⟨.right, other, left⟩], near, far, ?_, ?_, ?_⟩
            · rw [plug_append]
              rfl
            · rw [before_append]
              simp [before]
            · rw [after_append]
              simp [after]
      · cases more with
        | nil =>
            obtain ⟨rfl, rfl⟩ := List.cons.inj rest
            exact ⟨[], left, right, rfl, by simpa [before] using isLeft, by simp [after]⟩
        | cons head more =>
            obtain ⟨rfl, rfl⟩ := List.cons.inj rest
            obtain ⟨trail, near, far, rfl, rfl, rfl⟩ := left_ih isLeft
            refine ⟨trail ++ [⟨.left, other, right⟩], near, far, ?_, ?_, ?_⟩
            · rw [plug_append]
              rfl
            · rw [before_append]
              simp [before]
            · rw [after_append]
              simp [after]

theorem length_le_size_plug (trail : Trail α) (tree : BinTree α) :
    trail.length + tree.size ≤ (plug trail tree).size := by
  induction trail generalizing tree with
  | nil => simp
  | cons frame rest inductionHypothesis =>
      have grown := inductionHypothesis (frame.fill tree)
      have filled : tree.size < (frame.fill tree).size := by
        cases isSide : frame.side <;> simp only [Frame.fill, isSide, BinTree.join, BinTree.size] <;> omega
      rw [plug_cons, List.length_cons]
      omega

end Trail

/-! ### Search -/

section

variable {κ : Type*} [LinearOrder κ] (key : α → κ)

namespace BinTree

def Ordered (tree : BinTree α) : Prop := tree.toList.Pairwise fun one two => key one < key two

/-- Go down to the item with the key, or to the leaf where it would be. -/
def zoom (sought : κ) : BinTree α → Trail α → BinTree α × Trail α
  | leaf, trail => (leaf, trail)
  | node left item right, trail =>
      if sought < key item then zoom sought left (⟨.left, item, right⟩ :: trail)
      else if key item < sought then zoom sought right (⟨.right, item, left⟩ :: trail)
      else (node left item right, trail)

variable {key} {sought : κ}

theorem plug_zoom (tree : BinTree α) (trail : Trail α) :
    Trail.plug (tree.zoom key sought trail).2 (tree.zoom key sought trail).1 = Trail.plug trail tree := by
  induction tree generalizing trail with
  | leaf => rfl
  | node left item right left_ih right_ih =>
      rw [zoom]
      split
      · exact left_ih _
      · split
        · exact right_ih _
        · rfl

theorem zoom_found {tree left right : BinTree α} {trail outer : Trail α} {item : α}
    (found : tree.zoom key sought trail = (node left item right, outer)) : key item = sought := by
  induction tree generalizing trail with
  | leaf => simp [zoom] at found
  | node below other above left_ih right_ih =>
      rw [zoom] at found
      split at found
      · exact left_ih found
      · rename_i notLess
        split at found
        · exact right_ih found
        · rename_i notMore
          simp only [Prod.mk.injEq, node.injEq] at found
          obtain ⟨⟨-, rfl, -⟩, -⟩ := found
          exact le_antisymm (not_lt.mp notLess) (not_lt.mp notMore)

/-- The items left of the place found have smaller keys, those right of it
greater ones. -/
theorem zoom_between {tree found : BinTree α} {trail outer : Trail α}
    (ordered : Ordered key (Trail.plug trail tree))
    (before : ∀ item ∈ Trail.before trail, key item < sought)
    (after : ∀ item ∈ Trail.after trail, sought < key item)
    (isZoom : tree.zoom key sought trail = (found, outer)) :
    (∀ item ∈ Trail.before outer, key item < sought) ∧ ∀ item ∈ Trail.after outer, sought < key item := by
  induction tree generalizing trail with
  | leaf =>
      simp only [zoom, Prod.mk.injEq] at isZoom
      obtain ⟨-, rfl⟩ := isZoom
      exact ⟨before, after⟩
  | node left other right left_ih right_ih =>
      have sorted := ordered
      rw [Ordered, Trail.toList_plug, toList, List.pairwise_append, List.pairwise_append,
        List.pairwise_append, List.pairwise_cons] at sorted
      obtain ⟨⟨-, ⟨-, ⟨otherBefore, -⟩, leftBefore⟩, -⟩, -, -⟩ := sorted
      rw [zoom] at isZoom
      split at isZoom
      · rename_i less
        refine @left_ih (⟨.left, other, right⟩ :: trail) ordered before ?_ isZoom
        intro item member
        rcases List.mem_append.mp member with near | far
        · rcases List.mem_cons.mp near with rfl | inRight
          · exact less
          · exact less.trans (otherBefore item inRight)
        · exact after item far
      · split at isZoom
        · rename_i more
          refine @right_ih (⟨.right, other, left⟩ :: trail) ordered ?_ after isZoom
          intro item member
          rcases List.mem_append.mp member with far | near
          · exact before item far
          · rcases List.mem_append.mp near with inLeft | isOther
            · exact (leftBefore item inLeft other List.mem_cons_self).trans more
            · exact List.mem_singleton.mp isOther ▸ more
        · simp only [Prod.mk.injEq] at isZoom
          obtain ⟨-, rfl⟩ := isZoom
          exact ⟨before, after⟩

/-- An item may be put between smaller and greater ones. -/
theorem Ordered.insert {trail : Trail α} {item : α} (ordered : Ordered key (trail.plug leaf))
    (before : ∀ other ∈ trail.before, key other < key item)
    (after : ∀ other ∈ trail.after, key item < key other) :
    Ordered key (trail.plug (node leaf item leaf)) := by
  rw [Ordered, Trail.toList_plug, toList, List.append_nil, List.pairwise_append] at ordered
  obtain ⟨sortedBefore, sortedAfter, between⟩ := ordered
  rw [Ordered, Trail.toList_plug, toList, toList, List.nil_append, List.append_assoc,
    List.pairwise_append, List.singleton_append, List.pairwise_cons]
  refine ⟨sortedBefore, ⟨after, sortedAfter⟩, ?_⟩
  intro one isBefore two member
  rcases List.mem_cons.mp member with rfl | isAfter
  · exact before one isBefore
  · exact between one isBefore two isAfter

/-- From the root. -/
theorem zoom_between_of_ordered {tree found : BinTree α} {outer : Trail α} (ordered : Ordered key tree)
    (isZoom : tree.zoom key sought [] = (found, outer)) :
    (∀ item ∈ Trail.before outer, key item < sought) ∧ ∀ item ∈ Trail.after outer, sought < key item :=
  @zoom_between _ _ _ _ _ _ _ [] _ ordered (by simp [Trail.before]) (by simp [Trail.after]) isZoom

end BinTree

end

end SimpleBasicComponents.Semantics
