import Mathlib.Logic.Equiv.Basic
import Mathlib.Tactic.Common
import SimpleBasicComponents.MinHeapTimer.Model

/-!
The two sift loops of the min-heap timer.

Owns: cells after a swap, rearrangements of the live range, what `adjust_up`
does to the least entry, and the complete behaviour of `adjust_down` at the
root. Its child indices are `pos+1` and `(pos+1)/2`, so from position 2 on one
of the two "children" is an entry the sunk one has already passed: the loop
returns only if it stops at position 0 or 1.
-/

namespace SimpleBasicComponents.MinHeapTimer

open SimpleBasicComponents.Semantics

/-! ### Index arithmetic -/

theorem parent_toNat {pos : UInt32} (positive : 0 < pos.toNat) :
    ((pos - 1) >>> 1).toNat = (pos.toNat - 1) / 2 := by
  have one : (1 : UInt32) ≤ pos := by
    rw [UInt32.le_iff_toNat_le]
    exact positive
  rw [UInt32.toNat_shiftRight, UInt32.toNat_sub_of_le _ _ one, Nat.shiftRight_eq_div_pow]
  rfl

theorem succ_toNat {pos : UInt32} (small : pos.toNat + 1 < 2 ^ 32) :
    (pos + 1).toNat = pos.toNat + 1 := by
  rw [UInt32.toNat_add]
  exact Nat.mod_eq_of_lt small

theorem lchild_toNat {pos : UInt32} (small : pos.toNat + 1 < 2 ^ 32) :
    ((pos + 1) >>> (1 - 1)).toNat = pos.toNat + 1 := by
  rw [UInt32.toNat_shiftRight, succ_toNat small]
  rfl

theorem rchild_toNat {pos : UInt32} (small : pos.toNat + 1 < 2 ^ 32) :
    ((pos + 1) >>> 1).toNat = (pos.toNat + 1) / 2 := by
  rw [UInt32.toNat_shiftRight, succ_toNat small, Nat.shiftRight_eq_div_pow]
  rfl

/-! ### Cells -/

/-- The entry a cell points to. -/
def cell (list : List (Option TimerEntry)) (index : Nat) : Option TimerEntry := list[index]?.join

theorem deref_eq_cell (list : List (Option TimerEntry)) (index : UInt32) :
    deref list index = cell list index.toNat := rfl

theorem cell_eq_some_iff {list : List (Option TimerEntry)} {index : Nat} {entry : TimerEntry} :
    cell list index = some entry ↔ list[index]? = some (some entry) :=
  Option.join_eq_some_iff

theorem lt_length_of_cell {list : List (Option TimerEntry)} {index : Nat} {entry : TimerEntry}
    (points : cell list index = some entry) : index < list.length := by
  by_contra outside
  simp [cell, List.getElem?_eq_none (Nat.le_of_not_lt outside)] at points

theorem timerEntryGreater_eq_true {a b : TimerEntry} :
    timerEntryGreater a b = true ↔ b.expire < a.expire := by
  simp [timerEntryGreater]

/-- A swap inside the block exchanges two cells and keeps the others. -/
theorem swapPtr_eq_some {list : List (Option TimerEntry)} (left right : UInt32)
    (leftLt : left.toNat < list.length) (rightLt : right.toNat < list.length) :
    ∃ swapped, swapPtr list left right = some swapped ∧ swapped.length = list.length ∧
      ∀ index, cell swapped index = cell list (Equiv.swap left.toNat right.toNat index) := by
  have swaps : swapPtr list left right =
      some ((list.set left.toNat list[right.toNat]).set right.toNat list[left.toNat]) := by
    simp only [swapPtr, List.getElem?_eq_getElem leftLt, List.getElem?_eq_getElem rightLt]
  refine ⟨_, swaps, by simp, ?_⟩
  intro index
  simp only [cell, Equiv.swap_apply_def, List.getElem?_set]
  by_cases isRight : right.toNat = index
  · subst isRight
    by_cases same : right.toNat = left.toNat
    · simp [same, leftLt]
    · simp [same, rightLt, leftLt]
  · by_cases isLeft : left.toNat = index
    · subst isLeft
      simp [isRight, leftLt, rightLt]
    · simp [isRight, isLeft, Ne.symm isRight, Ne.symm isLeft]

/-- The same cells in another order, nothing moved at or beyond `bound`. -/
def Rearranged (bound : Nat) (before after : List (Option TimerEntry)) : Prop :=
  after.length = before.length ∧
    ∃ order : Equiv.Perm Nat, (∀ index, bound ≤ index → order index = index) ∧
      ∀ index, cell after index = cell before (order index)

theorem Rearranged.refl (bound : Nat) (list : List (Option TimerEntry)) :
    Rearranged bound list list :=
  ⟨rfl, Equiv.refl _, fun _ _ => rfl, fun _ => rfl⟩

theorem Rearranged.trans {bound : Nat} {first second third : List (Option TimerEntry)}
    (left : Rearranged bound first second) (right : Rearranged bound second third) :
    Rearranged bound first third := by
  obtain ⟨leftLength, leftOrder, leftFixes, leftCells⟩ := left
  obtain ⟨rightLength, rightOrder, rightFixes, rightCells⟩ := right
  refine ⟨rightLength.trans leftLength, rightOrder.trans leftOrder, ?_, ?_⟩
  · intro index beyond
    simp [rightFixes index beyond, leftFixes index beyond]
  · intro index
    simp [rightCells, leftCells]

theorem Rearranged.of_swap {bound : Nat} {list swapped : List (Option TimerEntry)} {left right : Nat}
    (leftLt : left < bound) (rightLt : right < bound) (length : swapped.length = list.length)
    (cells : ∀ index, cell swapped index = cell list (Equiv.swap left right index)) :
    Rearranged bound list swapped := by
  refine ⟨length, Equiv.swap left right, ?_, cells⟩
  intro index beyond
  exact Equiv.swap_apply_of_ne_of_ne (by omega) (by omega)

/-- A rearrangement below `bound` maps the range below `bound` onto itself. -/
private theorem order_lt {bound : Nat} {order : Equiv.Perm Nat}
    (fixes : ∀ index, bound ≤ index → order index = index) {index : Nat} (below : index < bound) :
    order index < bound := by
  by_contra beyond
  have fixed := fixes _ (Nat.le_of_not_lt beyond)
  have same := order.injective fixed
  omega

theorem Rearranged.exists_cell {bound : Nat} {before after : List (Option TimerEntry)}
    (rearranged : Rearranged bound before after) {index : Nat} (below : index < bound) :
    ∃ other < bound, cell after index = cell before other := by
  obtain ⟨-, order, fixes, cells⟩ := rearranged
  exact ⟨order index, order_lt fixes below, cells index⟩

theorem Rearranged.symm {bound : Nat} {before after : List (Option TimerEntry)}
    (rearranged : Rearranged bound before after) : Rearranged bound after before := by
  obtain ⟨length, order, fixes, cells⟩ := rearranged
  refine ⟨length.symm, order.symm, ?_, ?_⟩
  · intro index beyond
    rw [Equiv.symm_apply_eq]
    exact (fixes index beyond).symm
  · intro index
    rw [cells, Equiv.apply_symm_apply]

/-- The range below `bound` holds the same entries. -/
theorem Rearranged.entries_iff {bound : Nat} {before after : List (Option TimerEntry)}
    (rearranged : Rearranged bound before after) (entry : TimerEntry) :
    (∃ index < bound, cell after index = some entry) ↔
      ∃ index < bound, cell before index = some entry := by
  constructor
  · rintro ⟨index, below, found⟩
    obtain ⟨other, otherLt, same⟩ := rearranged.exists_cell below
    exact ⟨other, otherLt, same.symm.trans found⟩
  · rintro ⟨index, below, found⟩
    obtain ⟨other, otherLt, same⟩ := rearranged.symm.exists_cell below
    exact ⟨other, otherLt, same.symm.trans found⟩

theorem Rearranged.full {bound : Nat} {before after : List (Option TimerEntry)}
    (rearranged : Rearranged bound before after)
    (full : ∀ index < bound, ∃ entry, cell before index = some entry) :
    ∀ index < bound, ∃ entry, cell after index = some entry := by
  intro index below
  obtain ⟨other, otherLt, same⟩ := rearranged.exists_cell below
  obtain ⟨entry, found⟩ := full other otherLt
  exact ⟨entry, same.trans found⟩

theorem Rearranged.injective {bound : Nat} {before after : List (Option TimerEntry)}
    (rearranged : Rearranged bound before after)
    (distinct : ∀ left right entry, left < bound → right < bound →
      cell before left = some entry → cell before right = some entry → left = right)
    {left right : Nat} {entry : TimerEntry} (leftLt : left < bound) (rightLt : right < bound)
    (leftCell : cell after left = some entry) (rightCell : cell after right = some entry) :
    left = right := by
  obtain ⟨-, order, fixes, cells⟩ := rearranged
  rw [cells] at leftCell rightCell
  exact order.injective
    (distinct _ _ entry (order_lt fixes leftLt) (order_lt fixes rightLt) leftCell rightCell)

/-! ### `adjust_up` -/

/-- While the new entry rises from `top`: every other entry expires at `least`
or later, and the root holds `least` until the new entry, expiring earlier,
takes its place. -/
private structure Rising (list : List (Option TimerEntry)) (top : Nat) (least : UInt32)
    (state : List (Option TimerEntry) × UInt32) : Prop where
  rearranged : Rearranged (top + 1) list state.1
  inside : state.2.toNat ≤ top
  others : ∀ index ≤ top, index ≠ state.2.toNat → ∀ entry, cell state.1 index = some entry →
    least ≤ entry.expire
  root : state.2.toNat ≠ 0 → ∃ entry, cell state.1 0 = some entry ∧ entry.expire = least
  risen : state.2.toNat = 0 → ∃ entry, cell state.1 0 = some entry ∧ entry.expire ≤ least

/-- The root expires no later than any entry up to position `top`. -/
def RootLeast (list : List (Option TimerEntry)) (top : Nat) : Prop :=
  ∃ root, cell list 0 = some root ∧
    ∀ index ≤ top, ∀ entry, cell list index = some entry → root.expire ≤ entry.expire

private theorem Rising.turn {list : List (Option TimerEntry)} {top : Nat} {least : UInt32}
    (full : ∀ index ≤ top, ∃ entry, cell list index = some entry)
    (state : List (Option TimerEntry) × UInt32) (rising : Rising list top least state) :
    (∃ result, adjustUpTurn state = .leave result ∧
        (Rearranged (top + 1) list result ∧ RootLeast result top)) ∨
      ∃ next, adjustUpTurn state = .again next ∧ Rising list top least next ∧
        next.2.toNat < state.2.toNat := by
  obtain ⟨current, pos⟩ := state
  obtain ⟨rearranged, inside, others, root, risen⟩ := rising
  simp only at rearranged inside others root risen
  have points := rearranged.full fun index below => full index (Nat.le_of_lt_succ below)
  by_cases atRoot : pos.toNat = 0
  · left
    have notPositive : ¬ pos > 0 := by
      rw [gt_iff_lt, UInt32.lt_iff_toNat_lt, atRoot]
      exact Nat.lt_irrefl 0
    obtain ⟨entry, isRoot, early⟩ := risen atRoot
    refine ⟨current, by simp only [adjustUpTurn, if_neg notPositive], rearranged, entry, isRoot, ?_⟩
    intro index le other found
    by_cases isPos : index = pos.toNat
    · rw [isPos, atRoot, isRoot] at found
      obtain rfl := Option.some.inj found
      exact UInt32.le_refl _
    · exact UInt32.le_trans early (others index le isPos other found)
  · have positive : pos > 0 := by
      rw [gt_iff_lt, UInt32.lt_iff_toNat_lt]
      exact Nat.pos_of_ne_zero atRoot
    have parentValue := parent_toNat (Nat.pos_of_ne_zero atRoot)
    have parentLt : (pos.toNat - 1) / 2 < pos.toNat := by omega
    obtain ⟨above, aboveCell⟩ := points ((pos.toNat - 1) / 2) (by omega)
    obtain ⟨entry, entryCell⟩ := points pos.toNat (Nat.lt_succ_of_le inside)
    have aboveLate : least ≤ above.expire := others _ (by omega) (by omega) _ aboveCell
    by_cases greater : timerEntryGreater above entry = true
    · right
      obtain ⟨swapped, swaps, length, cells⟩ :=
        swapPtr_eq_some ((pos - 1) >>> 1) pos
          (by rw [parentValue]; exact lt_length_of_cell aboveCell) (lt_length_of_cell entryCell)
      rw [parentValue] at cells
      have atParent : cell swapped ((pos.toNat - 1) / 2) = some entry := by
        rw [cells, Equiv.swap_apply_left, entryCell]
      have early := timerEntryGreater_eq_true.mp greater
      refine ⟨(swapped, (pos - 1) >>> 1), ?_, ?_, ?_⟩
      · simp only [adjustUpTurn, if_pos positive, deref_eq_cell, parentValue, aboveCell, entryCell,
          if_pos greater, swaps]
      · refine ⟨rearranged.trans (.of_swap (by omega) (by omega) length cells), ?_, ?_, ?_, ?_⟩
        · simp only [parentValue]
          omega
        · intro index le notParent other found
          simp only [parentValue] at notParent
          rw [cells] at found
          by_cases isPos : index = pos.toNat
          · rw [isPos, Equiv.swap_apply_right, aboveCell] at found
            obtain rfl := Option.some.inj found
            exact aboveLate
          · rw [Equiv.swap_apply_of_ne_of_ne notParent isPos] at found
            exact others index le isPos other found
        · intro parentNotRoot
          simp only [parentValue] at parentNotRoot
          obtain ⟨rootEntry, isRoot, expires⟩ := root atRoot
          refine ⟨rootEntry, ?_, expires⟩
          rw [cells, Equiv.swap_apply_of_ne_of_ne (Ne.symm parentNotRoot) (Ne.symm atRoot)]
          exact isRoot
        · intro parentRoot
          simp only [parentValue] at parentRoot
          obtain ⟨rootEntry, isRoot, expires⟩ := root atRoot
          rw [parentRoot] at atParent aboveCell
          rw [isRoot] at aboveCell
          obtain rfl := Option.some.inj aboveCell
          exact ⟨entry, atParent, expires ▸ UInt32.le_of_lt early⟩
      · simp only [parentValue]
        exact parentLt
    · left
      refine ⟨current, ?_, rearranged, ?_⟩
      · simp only [adjustUpTurn, if_pos positive, deref_eq_cell, parentValue, aboveCell, entryCell,
          if_neg greater]
      · obtain ⟨rootEntry, isRoot, expires⟩ := root atRoot
        refine ⟨rootEntry, isRoot, ?_⟩
        intro index le other found
        rw [expires]
        by_cases isPos : index = pos.toNat
        · rw [isPos, entryCell] at found
          obtain rfl := Option.some.inj found
          rw [timerEntryGreater_eq_true, UInt32.not_lt] at greater
          exact UInt32.le_trans aboveLate greater
        · exact others index le isPos other found

/-- `adjust_up` rearranges the live range and ends with the least entry at the
root, if the root was least among the entries above the new one. -/
theorem adjustUp_spec {list : List (Option TimerEntry)} (pos : UInt32) {fuel : Nat}
    (positive : pos.toNat ≠ 0) (full : ∀ index ≤ pos.toNat, ∃ entry, cell list index = some entry)
    (least : RootLeast list (pos.toNat - 1)) (enough : pos.toNat < fuel) :
    ∃ result, adjustUp fuel list pos = some result ∧
      Rearranged (pos.toNat + 1) list result ∧ RootLeast result pos.toNat := by
  obtain ⟨root, isRoot, rootLeast⟩ := least
  have start : Rising list pos.toNat root.expire (list, pos) := by
    refine ⟨.refl _ _, le_rfl, ?_, fun _ => ⟨root, isRoot, rfl⟩, fun zero => absurd zero positive⟩
    intro index le notPos entry found
    simp only at notPos found
    exact rootLeast index (by omega) entry found
  exact loop_of_measure (fun state => state.2.toNat) (Rising.turn full) start enough

/-! ### `adjust_down` at the root -/

section Down

variable {list : List (Option TimerEntry)} {z b c : TimerEntry}

theorem lowerChild_eq_some (pos : UInt32) (small : pos.toNat + 1 < 2 ^ 32) {left right : TimerEntry}
    (leftCell : cell list (pos.toNat + 1) = some left)
    (rightCell : cell list ((pos.toNat + 1) / 2) = some right) :
    lowerChild list pos =
      some (if right.expire < left.expire then (pos + 1) >>> 1 else (pos + 1) >>> (1 - 1)) := by
  simp only [lowerChild, deref_eq_cell, lchild_toNat small, rchild_toNat small, leftCell, rightCell,
    timerEntryGreater_eq_true]

/-- The sunk entry `z` has passed entries that all expire before it, and the
child it is compared with next does so, too. -/
private structure Sinking (length : Nat) (z : TimerEntry)
    (state : List (Option TimerEntry) × UInt32 × UInt32) : Prop where
  size : state.1.length = length
  sunk : cell state.1 state.2.1.toNat = some z
  below : 1 ≤ state.2.1.toNat
  passed : ∀ index < state.2.1.toNat,
    ∃ entry, cell state.1 index = some entry ∧ entry.expire < z.expire
  child : ∃ entry, cell state.1 state.2.2.toNat = some entry ∧ entry.expire < z.expire
  position : state.2.2.toNat = state.2.1.toNat + 1 ∨
    2 ≤ state.2.1.toNat ∧ state.2.2.toNat = (state.2.1.toNat + 1) / 2

/-- Whatever `lower` is chosen next keeps `z` sinking. -/
private theorem Sinking.of_lowerChild {length : Nat} (small : length < 2 ^ 32)
    (pos : UInt32) {lower : UInt32} (size : list.length = length)
    (sunk : cell list pos.toNat = some z)
    (below : 1 ≤ pos.toNat)
    (passed : ∀ index < pos.toNat, ∃ entry, cell list index = some entry ∧ entry.expire < z.expire)
    (second : pos.toNat = 1 → ∃ entry, cell list 2 = some entry ∧ entry.expire < z.expire)
    (chosen : lowerChild list pos = some lower) : Sinking length z (list, pos, lower) := by
  have posLt := lt_length_of_cell sunk
  have noWrap : pos.toNat + 1 < 2 ^ 32 := by omega
  have lchild := lchild_toNat noWrap
  have rchild := rchild_toNat noWrap
  simp only [lowerChild, deref_eq_cell, lchild, rchild] at chosen
  split at chosen
  · rename_i left right leftCell rightCell
    have chosen := Option.some.inj chosen
    by_cases first : pos.toNat = 1
    · -- The right child of position 1 is position 1 itself.
      obtain ⟨entry, entryCell, early⟩ := second first
      have isEntry : left = entry := by
        rw [first] at leftCell
        exact Option.some.inj (leftCell.symm.trans entryCell)
      have isSunk : right = z := by
        rw [first] at rightCell sunk
        exact Option.some.inj (rightCell.symm.trans sunk)
      have notGreater : ¬ timerEntryGreater left right = true := by
        rw [timerEntryGreater_eq_true, UInt32.not_lt, isEntry, isSunk]
        exact UInt32.le_of_lt early
      rw [if_neg notGreater] at chosen
      subst chosen
      exact ⟨size, sunk, below, passed, ⟨left, by rw [lchild]; exact leftCell, isEntry ▸ early⟩,
        .inl lchild⟩
    · obtain ⟨entry, entryCell, early⟩ := passed ((pos.toNat + 1) / 2) (by omega)
      have isEntry : right = entry := Option.some.inj (rightCell.symm.trans entryCell)
      rw [← isEntry] at early
      split at chosen <;> rename_i greater <;> subst chosen
      · exact ⟨size, sunk, below, passed, ⟨right, by rw [rchild]; exact rightCell, early⟩,
          .inr ⟨show 2 ≤ pos.toNat by omega, rchild⟩⟩
      · rw [timerEntryGreater_eq_true, UInt32.not_lt] at greater
        have leftEarly : left.expire < z.expire := by
          rw [UInt32.lt_iff_toNat_lt] at early ⊢
          rw [UInt32.le_iff_toNat_le] at greater
          omega
        exact ⟨size, sunk, below, passed, ⟨left, by rw [lchild]; exact leftCell, leftEarly⟩,
          .inl lchild⟩
  · contradiction

private theorem Sinking.turn {length : Nat} (small : length < 2 ^ 32)
    (state : List (Option TimerEntry) × UInt32 × UInt32) (sinking : Sinking length z state) :
    adjustDownTurn state = .fault ∨
      ∃ next, adjustDownTurn state = .again next ∧ Sinking length z next := by
  obtain ⟨current, pos, lower⟩ := state
  obtain ⟨size, sunk, below, passed, ⟨child, childCell, early⟩, position⟩ := sinking
  simp only at size sunk below passed childCell position
  have greater : timerEntryGreater z child = true := timerEntryGreater_eq_true.mpr early
  obtain ⟨swapped, swaps, sameLength, cells⟩ :=
    swapPtr_eq_some pos lower (lt_length_of_cell sunk) (lt_length_of_cell childCell)
  have sunkNext : cell swapped lower.toNat = some z := by
    rw [cells, Equiv.swap_apply_right, sunk]
  have childNext : cell swapped pos.toNat = some child := by
    rw [cells, Equiv.swap_apply_left, childCell]
  cases chosen : lowerChild swapped lower with
  | none =>
      left
      simp only [adjustDownTurn, deref_eq_cell, sunk, childCell, if_pos greater, swaps, chosen]
  | some nextLower =>
      right
      refine ⟨(swapped, lower, nextLower), ?_, ?_⟩
      · simp only [adjustDownTurn, deref_eq_cell, sunk, childCell, if_pos greater, swaps, chosen]
      · apply Sinking.of_lowerChild small lower (sameLength.trans size) sunkNext _ _ _ chosen
        · omega
        · intro index less
          by_cases isPos : index = pos.toNat
          · exact ⟨child, isPos ▸ childNext, early⟩
          · rw [cells, Equiv.swap_apply_of_ne_of_ne isPos (by omega)]
            exact passed index (by omega)
        · intro first
          have wasTwo : pos.toNat = 2 := by omega
          exact ⟨child, wasTwo ▸ childNext, early⟩

variable {fuel : Nat}

private theorem lowerChild_root (root : cell list 0 = some z) (first : cell list 1 = some b) :
    lowerChild list 0 = some (if z.expire < b.expire then 0 else 1) :=
  lowerChild_eq_some 0 (by decide) first root

/-- The moved entry stays at the root if it expires no later than its first
neighbour; no other position is looked at. -/
theorem adjustDown_stays (root : cell list 0 = some z) (first : cell list 1 = some b)
    (early : z.expire ≤ b.expire) : adjustDown (fuel + 1) list 0 = some list := by
  simp only [adjustDown, lowerChild_root root first]
  apply loop_leave
  split
  · have same : ¬ timerEntryGreater z z = true := by simp [timerEntryGreater]
    simp only [adjustDownTurn, deref_eq_cell, UInt32.reduceToNat, root, if_neg same]
  · have notGreater : ¬ timerEntryGreater z b = true := by
      rw [timerEntryGreater_eq_true, UInt32.not_lt]
      exact early
    simp only [adjustDownTurn, deref_eq_cell, UInt32.reduceToNat, root, first, if_neg notGreater]

/-- The list after the moved entry has gone down one position. -/
private theorem adjustDown_first_turn (root : cell list 0 = some z)
    (first : cell list 1 = some b) (late : b.expire < z.expire) :
    lowerChild list 0 = some 1 ∧
      ∃ swapped, swapPtr list 0 1 = some swapped ∧ swapped.length = list.length ∧
        (∀ index, cell swapped index = cell list (Equiv.swap 0 1 index)) ∧
        adjustDownTurn (list, 0, 1) =
          match lowerChild swapped 1 with
          | some lower => .again (swapped, 1, lower)
          | none => .fault := by
  have notStays : ¬ z.expire < b.expire := by
    rw [UInt32.not_lt]
    exact UInt32.le_of_lt late
  have chosen : lowerChild list 0 = some 1 := by
    rw [lowerChild_root root first, if_neg notStays]
  have greater : timerEntryGreater z b = true := timerEntryGreater_eq_true.mpr late
  obtain ⟨swapped, swaps, length, cells⟩ :=
    swapPtr_eq_some 0 1 (lt_length_of_cell root) (lt_length_of_cell first)
  refine ⟨chosen, swapped, swaps, length, cells, ?_⟩
  cases chosenNext : lowerChild swapped 1 <;>
    simp only [adjustDownTurn, deref_eq_cell, UInt32.reduceToNat, root, first, if_pos greater, swaps,
      chosenNext]

/-- One position down, the moved entry is compared with position 2 and with
itself. -/
theorem adjustDown_stops_at_one (root : cell list 0 = some z)
    (first : cell list 1 = some b) (late : b.expire < z.expire) (second : cell list 2 = some c)
    (early : z.expire ≤ c.expire) :
    ∃ result, adjustDown (fuel + 2) list 0 = some result ∧ result.length = list.length ∧
      ∀ index, cell result index = cell list (Equiv.swap 0 1 index) := by
  obtain ⟨chosen, swapped, -, length, cells, turns⟩ := adjustDown_first_turn root first late
  have sunk : cell swapped 1 = some z := by
    rw [cells, Equiv.swap_apply_right, root]
  have next : cell swapped 2 = some c := by
    rw [cells, Equiv.swap_apply_of_ne_of_ne (by decide) (by decide), second]
  have lower : lowerChild swapped 1 = some (if z.expire < c.expire then 1 else 2) :=
    lowerChild_eq_some 1 (by decide) next sunk
  rw [lower] at turns
  refine ⟨swapped, ?_, length, cells⟩
  simp only [adjustDown, chosen]
  rw [loop_again turns]
  apply loop_leave
  split
  · have same : ¬ timerEntryGreater z z = true := by simp [timerEntryGreater]
    simp only [adjustDownTurn, deref_eq_cell, UInt32.reduceToNat, sunk, if_neg same]
  · have notGreater : ¬ timerEntryGreater z c = true := by
      rw [timerEntryGreater_eq_true, UInt32.not_lt]
      exact early
    simp only [adjustDownTurn, deref_eq_cell, UInt32.reduceToNat, sunk, next, if_neg notGreater]

theorem adjustDown_without_first (missing : cell list 1 = none) : adjustDown fuel list 0 = none := by
  have noChild : lowerChild list 0 = none := by
    have lchild : deref list (((0 : UInt32) + 1) >>> (1 - 1)) = none := missing
    simp only [lowerChild, lchild]
  simp only [adjustDown, noChild]

/-- Any deeper, `adjust_down` faults or never returns. -/
theorem adjustDown_eq_none (small : list.length < 2 ^ 32) (root : cell list 0 = some z)
    (first : cell list 1 = some b) (late : b.expire < z.expire)
    (sinks : ∀ entry, cell list 2 = some entry → entry.expire < z.expire) :
    adjustDown fuel list 0 = none := by
  obtain ⟨chosen, swapped, -, length, cells, turns⟩ := adjustDown_first_turn root first late
  have sunk : cell swapped 1 = some z := by
    rw [cells, Equiv.swap_apply_right, root]
  have risen : cell swapped 0 = some b := by
    rw [cells, Equiv.swap_apply_left, first]
  have next : cell swapped 2 = cell list 2 := by
    rw [cells, Equiv.swap_apply_of_ne_of_ne (by decide) (by decide)]
  simp only [adjustDown, chosen]
  cases fuel with
  | zero => rfl
  | succ fuel =>
      cases second : lowerChild swapped 1 with
      | none =>
          rw [second] at turns
          exact loop_fault turns
      | some lower =>
          rw [second] at turns
          rw [loop_again turns]
          have hasSecond : ∃ entry, cell swapped 2 = some entry ∧ entry.expire < z.expire := by
            simp only [lowerChild, deref_eq_cell] at second
            split at second
            · rename_i left right leftCell rightCell
              have leftCell : cell swapped 2 = some left := leftCell
              exact ⟨left, leftCell, sinks left (next ▸ leftCell)⟩
            · contradiction
          have passed : ∀ index < (1 : UInt32).toNat,
              ∃ entry, cell swapped index = some entry ∧ entry.expire < z.expire := by
            intro index less
            have isRoot : index = 0 := by
              simp only [UInt32.reduceToNat] at less
              omega
            exact ⟨b, isRoot ▸ risen, late⟩
          have sinking := Sinking.of_lowerChild small 1 length sunk (by decide) passed
            (fun _ => hasSecond) second
          exact loop_eq_none_of_invariant (Sinking.turn small) sinking

end Down

end SimpleBasicComponents.MinHeapTimer
