import Mathlib.Logic.Equiv.Basic
import Mathlib.Order.Lattice

/-!
Binary heaps in an array.

The keys are a function of the position; the children of a position are
`2 * index + 1` and `2 * index + 2`. Owns: the order of a heap, what its root is, and the
rise of one key from the end: `OrderedBut` holds while the key at one position
may be smaller than those above it, an exchange with the parent keeps it, and
where the rise stops the order is whole again.
-/

namespace SimpleBasicComponents.Semantics.BinaryHeap

variable {α : Type*} [LinearOrder α] {keys grown : Nat → α} {top pos : Nat}

/-! ### Positions -/

def parent (index : Nat) : Nat := (index - 1) / 2

theorem parent_lt {index : Nat} (notRoot : index ≠ 0) : parent index < index := by
  unfold parent
  omega

/-- The number of levels of a heap of so many keys. -/
def levels (size : Nat) : Nat := if size = 0 then 0 else Nat.log2 size + 1

theorem two_le_levels {size : Nat} (two : 2 ≤ size) : 2 ≤ levels size := by
  have deep : 1 ≤ Nat.log2 size := (Nat.le_log2 (by omega)).mpr two
  rw [levels, if_neg (by omega)]
  omega

/-! ### Order -/

/-- No key up to position `top` is smaller than the one at its parent. -/
def Ordered (keys : Nat → α) (top : Nat) : Prop :=
  ∀ index ≤ top, index ≠ 0 → keys (parent index) ≤ keys index

theorem ordered_zero : Ordered keys 0 := by
  intro index inside notRoot
  omega

theorem Ordered.root_le (ordered : Ordered keys top) {index : Nat} (inside : index ≤ top) :
    keys 0 ≤ keys index := by
  induction index using Nat.strongRecOn with
  | ind index inductionHypothesis =>
      by_cases isRoot : index = 0
      · rw [isRoot]
      · have higher := parent_lt isRoot
        have above := inductionHypothesis (parent index) higher (by omega)
        exact above.trans (ordered index inside isRoot)

/-- In order, except that the key at `pos` may be smaller than those above it. -/
structure OrderedBut (keys : Nat → α) (top pos : Nat) : Prop where
  other : ∀ index ≤ top, index ≠ 0 → index ≠ pos → keys (parent index) ≤ keys index
  across : pos ≠ 0 → ∀ index ≤ top, index ≠ 0 → parent index = pos → keys (parent pos) ≤ keys index

/-- A key is added behind the last one. -/
theorem Ordered.append (ordered : Ordered keys top) (same : ∀ index ≤ top, grown index = keys index) :
    OrderedBut grown (top + 1) (top + 1) where
  other := by
    intro index inside notRoot notNew
    have higher := parent_lt notRoot
    rw [same index (by omega), same _ (by omega)]
    exact ordered index (by omega) notRoot
  across := by
    intro _ index inside notRoot isChild
    have higher := parent_lt notRoot
    omega

theorem OrderedBut.ordered (but : OrderedBut keys top pos)
    (settled : pos ≠ 0 → keys (parent pos) ≤ keys pos) : Ordered keys top := by
  intro index inside notRoot
  by_cases isPos : index = pos
  · subst isPos
    exact settled notRoot
  · exact but.other index inside notRoot isPos

/-- Exchange the key with the larger one at its parent. -/
theorem OrderedBut.raise (but : OrderedBut keys top pos) (inside : pos ≤ top) (notRoot : pos ≠ 0)
    (less : keys pos < keys (parent pos)) :
    OrderedBut (fun index => keys (Equiv.swap (parent pos) pos index)) top (parent pos) where
  other := by
    intro index indexInside indexNotRoot notParent
    by_cases isPos : index = pos
    · rw [isPos, Equiv.swap_apply_left, Equiv.swap_apply_right]
      exact less.le
    · rw [Equiv.swap_apply_of_ne_of_ne notParent isPos]
      by_cases isChild : parent index = pos
      · rw [isChild, Equiv.swap_apply_right]
        exact but.across notRoot index indexInside indexNotRoot isChild
      · have ordered := but.other index indexInside indexNotRoot isPos
        by_cases isSibling : parent index = parent pos
        · rw [isSibling] at ordered ⊢
          rw [Equiv.swap_apply_left]
          exact less.le.trans ordered
        · rw [Equiv.swap_apply_of_ne_of_ne isSibling isChild]
          exact ordered
  across := by
    intro parentNotRoot index indexInside indexNotRoot isChild
    have higher := parent_lt notRoot
    have highest := parent_lt parentNotRoot
    have above := but.other (parent pos) (by omega) parentNotRoot (by omega)
    rw [Equiv.swap_apply_of_ne_of_ne (by omega) (by omega)]
    by_cases isPos : index = pos
    · rw [isPos, Equiv.swap_apply_right]
      exact above
    · have lower := parent_lt indexNotRoot
      have notParent : index ≠ parent pos := by omega
      have sibling := but.other index indexInside indexNotRoot isPos
      rw [isChild] at sibling
      rw [Equiv.swap_apply_of_ne_of_ne notParent isPos]
      exact above.trans sibling

end SimpleBasicComponents.Semantics.BinaryHeap
