import Mathlib.Data.List.Nodup
import SimpleBasicComponents.TimeWheel.Digits

/-!
The slots of the wheel.

Owns: the invariant of the slots at one time, and what linking a node, clearing
a list and `timer_shift` do to it. After a shift a node of the moved list is in
the slot `add_node` finds for it, and every other node is where it was.
-/

namespace SimpleBasicComponents.TimeWheel

open SimpleBasicComponents.Semantics

/-- Each list holds different nodes, each node is in one list, and it fits there. -/
structure Shelved (heap : Heap TimerNode) (timer : Timer) : Prop where
  nodup : ∀ slot, (timer.slots slot).Nodup
  disjoint : ∀ left right addr, addr ∈ timer.slots left → addr ∈ timer.slots right → left = right
  fits : ∀ slot, ∀ addr ∈ timer.slots slot, ∃ node, heap.load addr = some node ∧
    Fits timer.time node.expire slot

/-- No node in `near` expires at this moment. -/
def Settled (heap : Heap TimerNode) (timer : Timer) : Prop :=
  ∀ idx, ∀ addr ∈ timer.slots (.near idx), ∀ node, heap.load addr = some node →
    distance node.expire timer.time ≠ 0

/-- The node is in some list. -/
def Shelf (timer : Timer) (addr : Addr) : Prop := ∃ slot, addr ∈ timer.slots slot

/-- The node is in a list no shift ever moves. -/
def StuckIn (timer : Timer) (addr : Addr) : Prop := ∃ slot, Stuck slot ∧ addr ∈ timer.slots slot

section

variable {heap after : Heap TimerNode} {timer : Timer}

theorem shelved_create (heap : Heap TimerNode) : Shelved heap timerCreateTimer where
  nodup _ := List.nodup_nil
  disjoint _ _ _ member := absurd member (List.not_mem_nil)
  fits _ _ member := absurd member (List.not_mem_nil)

/-- Only the `expire` of the nodes in the lists matters. -/
theorem Shelved.congr (shelved : Shelved heap timer)
    (same : ∀ addr, Shelf timer addr → (after.load addr).map TimerNode.expire =
      (heap.load addr).map TimerNode.expire) : Shelved after timer := by
  refine ⟨shelved.nodup, shelved.disjoint, ?_⟩
  intro slot addr member
  obtain ⟨node, found, fits⟩ := shelved.fits slot addr member
  have kept := same addr ⟨slot, member⟩
  rw [found, Option.map_some] at kept
  obtain ⟨now, foundNow, expire⟩ := Option.map_eq_some_iff.mp kept
  exact ⟨now, foundNow, expire ▸ fits⟩

theorem Settled.congr (settled : Settled heap timer)
    (same : ∀ addr, Shelf timer addr → (after.load addr).map TimerNode.expire =
      (heap.load addr).map TimerNode.expire) : Settled after timer := by
  intro idx addr member node found
  have kept := same addr ⟨_, member⟩
  rw [found, Option.map_some] at kept
  obtain ⟨before, foundBefore, expire⟩ := Option.map_eq_some_iff.mp kept.symm
  exact expire ▸ settled idx addr member before foundBefore

/-! ### Linking -/

theorem mem_link {slot other : Slot} {node addr : Addr} :
    addr ∈ (link timer slot node).slots other ↔
      addr ∈ timer.slots other ∨ other = slot ∧ addr = node := by
  simp only [link, Function.update_apply]
  split
  · rename_i same
    subst same
    simp
  · rename_i different
    simp [different]

theorem addNode_eq_some (shelved : Shelved heap timer) {addr : Addr} {node : TimerNode}
    (found : heap.load addr = some node) (free : ¬ Shelf timer addr) :
    ∃ next, addNode heap timer addr = some next ∧ next.time = timer.time ∧ Shelved heap next ∧
      ∀ slot other, other ∈ next.slots slot ↔
        other ∈ timer.slots slot ∨ slot = slotFor timer.time node.expire ∧ other = addr := by
  refine ⟨link timer (slotFor timer.time node.expire) addr, by simp only [addNode, found], rfl,
    ⟨?_, ?_, ?_⟩, fun _ _ => mem_link⟩
  · intro slot
    simp only [link, Function.update_apply]
    split
    · rename_i same
      rw [← same, List.nodup_append]
      refine ⟨shelved.nodup slot, List.nodup_singleton _, ?_⟩
      rintro other member last isLast rfl
      obtain rfl := List.mem_singleton.mp isLast
      exact free ⟨slot, member⟩
    · exact shelved.nodup slot
  · intro left right other inLeft inRight
    rw [mem_link] at inLeft inRight
    rcases inLeft with wasLeft | ⟨rfl, rfl⟩ <;> rcases inRight with wasRight | ⟨rfl, isAddr⟩
    · exact shelved.disjoint left right other wasLeft wasRight
    · exact absurd ⟨left, isAddr ▸ wasLeft⟩ free
    · exact absurd ⟨right, wasRight⟩ free
    · rfl
  · intro slot other member
    rcases mem_link.mp member with was | ⟨rfl, rfl⟩
    · exact shelved.fits slot other was
    · exact ⟨node, found, fits_slotFor _ _⟩

/-! ### Clearing -/

theorem mem_linkClear {slot other : Slot} {addr : Addr} :
    addr ∈ (linkClear timer slot).2.slots other ↔ addr ∈ timer.slots other ∧ other ≠ slot := by
  simp only [linkClear, Function.update_apply]
  split
  · rename_i same
    simp [same]
  · rename_i different
    simp [different]

theorem Shelved.linkClear (shelved : Shelved heap timer) (slot : Slot) :
    Shelved heap (linkClear timer slot).2 := by
  refine ⟨?_, ?_, ?_⟩
  · intro other
    simp only [TimeWheel.linkClear, Function.update_apply]
    split
    · exact List.nodup_nil
    · exact shelved.nodup other
  · intro left right addr inLeft inRight
    exact shelved.disjoint left right addr (mem_linkClear.mp inLeft).1 (mem_linkClear.mp inRight).1
  · intro other addr member
    exact shelved.fits other addr (mem_linkClear.mp member).1

/-! ### Shifting -/

/-- The slot `add_node` finds for a node. -/
def slotOf (heap : Heap TimerNode) (time : UInt32) (addr : Addr) : Option Slot :=
  (heap.load addr).map fun node => slotFor time node.expire

theorem addNodes_eq_some (nodes : List Addr)
    (found : ∀ addr ∈ nodes, ∃ node, heap.load addr = some node) :
    ∃ next, addNodes heap nodes timer = some next ∧ next.time = timer.time ∧
      ∀ slot, next.slots slot =
        timer.slots slot ++ nodes.filter fun addr => slotOf heap timer.time addr = some slot := by
  induction nodes generalizing timer with
  | nil => exact ⟨timer, rfl, rfl, by simp⟩
  | cons addr rest inductionHypothesis =>
      obtain ⟨node, isNode⟩ := found addr (by simp)
      obtain ⟨next, adds, sameTime, lists⟩ :=
        @inductionHypothesis (link timer (slotFor timer.time node.expire) addr)
          fun other member => found other (List.mem_cons_of_mem _ member)
      refine ⟨next, by simp only [addNodes, addNode, isNode, adds], sameTime, ?_⟩
      intro slot
      have listed : next.slots slot = (link timer (slotFor timer.time node.expire) addr).slots slot ++
          rest.filter fun addr => slotOf heap timer.time addr = some slot := lists slot
      have isSlot : slotOf heap timer.time addr = some (slotFor timer.time node.expire) := by
        simp [slotOf, isNode]
      rw [listed]
      by_cases here : slotFor timer.time node.expire = slot
      · subst here
        rw [List.filter_cons_of_pos (by simp [isSlot])]
        simp [link]
      · have notHere : ¬ slotOf heap timer.time addr = some slot := by
          rw [isSlot]
          exact fun same => here (Option.some.inj same)
        rw [List.filter_cons_of_neg (by simp [notHere])]
        simp [link, Ne.symm here]

/-- What a shift did to the lists: the nodes of the moved list, if any, are in
the slots `add_node` finds for them. -/
structure Shifted (heap : Heap TimerNode) (before after : Timer) : Prop where
  time : after.time = before.time + 1
  stayed : ∀ slot addr, (∀ i idx, slot = .t i idx → ¬ Moves (before.time + 1) i idx) →
    addr ∈ before.slots slot → addr ∈ after.slots slot
  moved : ∀ i idx, Moves (before.time + 1) i idx → ∀ addr ∈ before.slots (.t i idx), ∀ node,
    heap.load addr = some node → addr ∈ after.slots (slotFor (before.time + 1) node.expire)
  source : ∀ slot, ∀ addr ∈ after.slots slot,
    (addr ∈ before.slots slot ∧ ∀ i idx, slot = .t i idx → ¬ Moves (before.time + 1) i idx) ∨
      ∃ i idx node, Moves (before.time + 1) i idx ∧ addr ∈ before.slots (.t i idx) ∧
        heap.load addr = some node ∧ slot = slotFor (before.time + 1) node.expire

/-- A node that stays in its list fits there after the shift. -/
private theorem fits_of_stayed (shelved : Shelved heap timer) (settled : Settled heap timer)
    {slot : Slot} {addr : Addr} (member : addr ∈ timer.slots slot)
    (unmoved : ∀ i idx, slot = .t i idx → ¬ Moves (timer.time + 1) i idx) :
    ∃ node, heap.load addr = some node ∧ Fits (timer.time + 1) node.expire slot := by
  obtain ⟨node, found, fits⟩ := shelved.fits slot addr member
  refine ⟨node, found, fits.shift ?_ unmoved⟩
  rintro idx rfl
  exact settled idx addr member node found

private theorem shift_without_list (shelved : Shelved heap timer)
    (unmoved : ∀ i idx, ¬ Moves (timer.time + 1) i idx) :
    (Settled heap timer → Shelved heap { timer with time := timer.time + 1 }) ∧
      Shifted heap timer { timer with time := timer.time + 1 } := by
  refine ⟨fun settled => ⟨shelved.nodup, shelved.disjoint, ?_⟩, rfl, ?_, ?_, ?_⟩
  · intro slot addr member
    exact fits_of_stayed shelved settled member fun i idx _ => unmoved i idx
  · exact fun _ _ _ member => member
  · exact fun i idx moves => absurd moves (unmoved i idx)
  · exact fun slot addr member => .inl ⟨member, fun i idx _ => unmoved i idx⟩

/-- The lists after `move_list`. -/
private theorem mem_moved {i idx : Nat} {next : Timer}
    (lists : ∀ slot, next.slots slot = (linkClear timer (.t i idx)).2.slots slot ++
      (timer.slots (.t i idx)).filter fun addr => slotOf heap (timer.time + 1) addr = some slot)
    (slot : Slot) (addr : Addr) :
    addr ∈ next.slots slot ↔ addr ∈ timer.slots slot ∧ slot ≠ .t i idx ∨
      addr ∈ timer.slots (.t i idx) ∧ slotOf heap (timer.time + 1) addr = some slot := by
  rw [lists, List.mem_append, mem_linkClear, List.mem_filter, decide_eq_true_iff]

private theorem shift_with_list (shelved : Shelved heap timer) {i idx : Nat} {next : Timer}
    (time : next.time = timer.time + 1) (moves : ∀ j jdx, Moves (timer.time + 1) j jdx ↔ j = i ∧ jdx = idx)
    (lists : ∀ slot, next.slots slot = (linkClear timer (.t i idx)).2.slots slot ++
      (timer.slots (.t i idx)).filter fun addr => slotOf heap (timer.time + 1) addr = some slot) :
    (Settled heap timer → Shelved heap next) ∧ Shifted heap timer next := by
  have unmoved : ∀ slot, slot ≠ Slot.t i idx → ∀ j jdx, slot = .t j jdx →
      ¬ Moves (timer.time + 1) j jdx := by
    rintro slot different j jdx rfl isMoved
    obtain ⟨rfl, rfl⟩ := (moves j jdx).mp isMoved
    exact different rfl
  have slotOf_eq : ∀ addr node, heap.load addr = some node →
      slotOf heap (timer.time + 1) addr = some (slotFor (timer.time + 1) node.expire) := by
    intro addr node found
    simp [slotOf, found]
  refine ⟨fun settled => ⟨?_, ?_, ?_⟩, time, ?_, ?_, ?_⟩
  · intro slot
    rw [lists, List.nodup_append]
    refine ⟨(shelved.linkClear _).nodup slot, (shelved.nodup _).filter _, ?_⟩
    rintro addr stays other goes rfl
    obtain ⟨was, different⟩ := mem_linkClear.mp stays
    exact different (shelved.disjoint _ _ addr was (List.mem_filter.mp goes).1)
  · intro left right addr inLeft inRight
    rw [mem_moved lists] at inLeft inRight
    rcases inLeft with ⟨wasLeft, notLeft⟩ | ⟨movedLeft, isLeft⟩ <;>
      rcases inRight with ⟨wasRight, notRight⟩ | ⟨movedRight, isRight⟩
    · exact shelved.disjoint left right addr wasLeft wasRight
    · exact absurd (shelved.disjoint _ _ addr wasLeft movedRight) notLeft
    · exact absurd (shelved.disjoint _ _ addr wasRight movedLeft) notRight
    · exact Option.some.inj (isLeft.symm.trans isRight)
  · intro slot addr member
    rw [time]
    rcases (mem_moved lists slot addr).mp member with ⟨was, different⟩ | ⟨moved, isSlot⟩
    · exact fits_of_stayed shelved settled was (unmoved slot different)
    · obtain ⟨node, found, -⟩ := shelved.fits _ addr moved
      obtain rfl := Option.some.inj ((slotOf_eq addr node found).symm.trans isSlot)
      exact ⟨node, found, fits_slotFor _ _⟩
  · intro slot addr stays member
    refine (mem_moved lists slot addr).mpr (.inl ⟨member, ?_⟩)
    rintro rfl
    exact stays i idx rfl ((moves i idx).mpr ⟨rfl, rfl⟩)
  · intro j jdx isMoved addr member node found
    obtain ⟨rfl, rfl⟩ := (moves j jdx).mp isMoved
    exact (mem_moved lists _ addr).mpr (.inr ⟨member, slotOf_eq addr node found⟩)
  · intro slot addr member
    rcases (mem_moved lists slot addr).mp member with ⟨was, different⟩ | ⟨moved, isSlot⟩
    · exact .inl ⟨was, unmoved slot different⟩
    · obtain ⟨node, found, -⟩ := shelved.fits _ addr moved
      have same := Option.some.inj ((slotOf_eq addr node found).symm.trans isSlot)
      exact .inr ⟨i, idx, node, (moves i idx).mpr ⟨rfl, rfl⟩, moved, found, same.symm⟩

/-- A shift succeeds, and keeps the lists in order if no node in `near` is due. -/
theorem timerShift_shifted (shelved : Shelved heap timer) :
    ∃ next, timerShift heap timer = some next ∧ (Settled heap timer → Shelved heap next) ∧
      Shifted heap timer next := by
  obtain ⟨target, isTarget, moves⟩ := shiftedList_eq_some (timer.time + 1)
  cases target with
  | none =>
      refine ⟨_, by simp only [timerShift, isTarget], shift_without_list shelved ?_⟩
      intro i idx isMoved
      exact absurd ((moves i idx).mpr isMoved) (by simp)
  | some list =>
      obtain ⟨i, idx⟩ := list
      have only : ∀ j jdx, Moves (timer.time + 1) j jdx ↔ j = i ∧ jdx = idx := by
        intro j jdx
        rw [← moves, Option.some.injEq, Prod.mk.injEq, eq_comm, @eq_comm _ idx]
      obtain ⟨next, adds, time, lists⟩ := @addNodes_eq_some heap
        (linkClear { timer with time := timer.time + 1 } (.t i idx)).2 (timer.slots (.t i idx))
        fun addr member => by
          obtain ⟨node, found, -⟩ := shelved.fits _ addr member
          exact ⟨node, found⟩
      refine ⟨next, ?_, shift_with_list shelved time only lists⟩
      simp only [timerShift, isTarget, moveList]
      exact adds

theorem timerShift_eq_some (shelved : Shelved heap timer) (settled : Settled heap timer) :
    ∃ next, timerShift heap timer = some next ∧ Shelved heap next ∧ Shifted heap timer next := by
  have ⟨next, shifts, kept, shifted⟩ := timerShift_shifted shelved
  exact ⟨next, shifts, kept settled, shifted⟩

/-- When no node of the present moment is in `near`, none in `near` expires now. -/
theorem Shelved.settled_of_empty (shelved : Shelved heap timer)
    (empty : timer.slots (.near (timer.time &&& timeNearMask).toNat) = []) : Settled heap timer := by
  intro idx addr member node found isNow
  have ⟨other, foundOther, fits⟩ := shelved.fits _ addr member
  obtain rfl := Option.some.inj (found.symm.trans foundOther)
  rcases fits.of_distance_eq_zero isNow with stuck | present
  · exact stuck
  · rw [present, empty] at member
    exact List.not_mem_nil member

/-! ### Which nodes are in the lists after a shift -/

variable {next : Timer}

theorem Shifted.shelf_iff (shifted : Shifted heap timer next) (shelved : Shelved heap timer)
    (addr : Addr) : Shelf next addr ↔ Shelf timer addr := by
  constructor
  · rintro ⟨slot, member⟩
    rcases shifted.source slot addr member with ⟨was, -⟩ | ⟨i, idx, -, -, was, -⟩
    · exact ⟨slot, was⟩
    · exact ⟨_, was⟩
  · rintro ⟨slot, member⟩
    by_cases isMoved : ∃ i idx, slot = .t i idx ∧ Moves (timer.time + 1) i idx
    · obtain ⟨i, idx, rfl, moves⟩ := isMoved
      obtain ⟨node, found, -⟩ := shelved.fits _ addr member
      exact ⟨_, shifted.moved i idx moves addr member node found⟩
    · exact ⟨slot, shifted.stayed slot addr (fun i idx same moves => isMoved ⟨i, idx, same, moves⟩) member⟩

/-- No shift moves a node into a stuck list or out of one. -/
theorem Shifted.stuckIn_iff (shifted : Shifted heap timer next) (shelved : Shelved heap timer)
    (addr : Addr) : StuckIn next addr ↔ StuckIn timer addr := by
  constructor
  · rintro ⟨slot, stuck, member⟩
    rcases shifted.source slot addr member with ⟨was, -⟩ | ⟨i, idx, node, moves, was, found, rfl⟩
    · exact ⟨slot, stuck, was⟩
    · obtain ⟨other, foundOther, fits⟩ := shelved.fits _ addr was
      obtain rfl := Option.some.inj (found.symm.trans foundOther)
      exact absurd stuck (slotFor_of_moved moves.1 (fits.moved moves)).1
  · rintro ⟨slot, stuck, member⟩
    refine ⟨slot, stuck, shifted.stayed slot addr ?_ member⟩
    rintro i idx rfl moves
    exact moves.2.2.2 stuck.1 stuck.2

end

end SimpleBasicComponents.TimeWheel
