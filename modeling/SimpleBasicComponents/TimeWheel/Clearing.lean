import Mathlib.Data.List.Nodup
import SimpleBasicComponents.TimeWheel.Cancellation
import SimpleBasicComponents.TimeWheel.Missed

/-!
`clear_timer`.

Owns: the loops that free what is in the lists, and what is left of the heap after
them. They take no lock; here they are one step, which may come at any point of a run
of the wheel. The nodes that `dispatch_list` holds at that moment are in no list and
are left to it.
-/

namespace SimpleBasicComponents.TimeWheel

open SimpleBasicComponents.Semantics

/-- The lists in the order of the loops. -/
def clearedSlots : List Slot :=
  (List.range timeNear.toNat).map .near ++
    (List.range 4).flatMap fun i => (List.range timeLevel.toNat).map (.t i)

/-- One turn: the nodes of the list are freed, then it is emptied. -/
def clearSlot (heap : Heap TimerNode) (timer : Timer) (slot : Slot) : Option (Heap TimerNode × Timer) :=
  match heap.freeAll (timer.slots slot) with
  | some heap => some (heap, (linkClear timer slot).2)
  | none => none

def clearSlots (heap : Heap TimerNode) (timer : Timer) : List Slot → Option (Heap TimerNode × Timer)
  | [] => some (heap, timer)
  | slot :: rest =>
      match clearSlot heap timer slot with
      | some (heap, timer) => clearSlots heap timer rest
      | none => none

def clearTimer (world : World) : Option (Heap TimerNode × Timer) :=
  clearSlots world.heap world.timer clearedSlots

/-! ### The lists -/

/-- The lists there are. -/
def Slot.InBounds : Slot → Prop
  | .near idx => idx < 256
  | .t i idx => i < 4 ∧ idx < 64

theorem mem_clearedSlots {slot : Slot} : slot ∈ clearedSlots ↔ slot.InBounds := by
  have near : timeNear.toNat = 256 := rfl
  have level : timeLevel.toNat = 64 := rfl
  rw [clearedSlots, near, level, List.mem_append, List.mem_flatMap]
  cases slot with
  | near idx => simp [Slot.InBounds]
  | t i idx => simp [Slot.InBounds]

theorem clearedSlots_nodup : clearedSlots.Nodup := by
  have perLevel : ∀ i, ((List.range timeLevel.toNat).map (Slot.t i)).Nodup := fun i =>
    List.nodup_range.map fun _ _ same => (Slot.t.inj same).2
  rw [clearedSlots, List.nodup_append]
  refine ⟨List.nodup_range.map fun _ _ same => Slot.near.inj same, ?_, ?_⟩
  · rw [List.nodup_flatMap]
    refine ⟨fun i _ => perLevel i, List.nodup_range.imp ?_⟩
    intro i j different slot inI inJ
    have ⟨_, _, isI⟩ := List.mem_map.mp inI
    have ⟨_, _, isJ⟩ := List.mem_map.mp inJ
    exact different (Slot.t.inj (isI.trans isJ.symm)).1
  · intro left inNear right inLevels same
    have ⟨_, _, isNear⟩ := List.mem_map.mp inNear
    have ⟨_, _, inLevel⟩ := List.mem_flatMap.mp inLevels
    have ⟨_, _, isLevel⟩ := List.mem_map.mp inLevel
    rw [← isNear, ← isLevel] at same
    contradiction

theorem Fits.inBounds {now expire : UInt32} {slot : Slot} (fits : Fits now expire slot) : slot.InBounds := by
  cases slot with
  | near idx =>
      have isIdx := fits.1
      exact isIdx ▸ Nat.mod_lt _ (by decide)
  | t i idx =>
      have isIdx := fits.2.1
      exact ⟨fits.1, isIdx ▸ Nat.mod_lt _ (by decide)⟩

/-! ### What the loops free -/

/-- The nodes the loops come to, in their order. -/
def clearedNodes (timer : Timer) : List Addr := clearedSlots.flatMap timer.slots

section

variable {heap : Heap TimerNode} {timer : Timer}

private theorem flatMap_linkClear {slot : Slot} {slots : List Slot} (absent : slot ∉ slots) :
    slots.flatMap (linkClear timer slot).2.slots = slots.flatMap timer.slots := by
  apply List.flatMap_congr
  intro other member
  have different : other ≠ slot := fun same => absent (same ▸ member)
  exact Function.update_of_ne different _ _

/-- The timer without the nodes of these lists. -/
private def emptied (timer : Timer) (slots : List Slot) : Timer :=
  { timer with slots := fun slot => if slot ∈ slots then [] else timer.slots slot }

private theorem emptied_cons (slot : Slot) (rest : List Slot) :
    emptied timer (slot :: rest) = emptied (linkClear timer slot).2 rest := by
  unfold emptied linkClear
  congr 1
  funext other
  by_cases same : other = slot
  · simp [same]
  · simp [same]

private theorem clearSlots_eq {slots : List Slot} (distinct : slots.Nodup) :
    clearSlots heap timer slots =
      (heap.freeAll (slots.flatMap timer.slots)).map fun heap => (heap, emptied timer slots) := by
  induction slots generalizing heap timer with
  | nil => simp [clearSlots, Heap.freeAll, emptied]
  | cons slot rest inductionHypothesis =>
      obtain ⟨absent, distinctRest⟩ := List.nodup_cons.mp distinct
      rw [List.flatMap_cons, Heap.freeAll_append, clearSlots, clearSlot]
      cases heap.freeAll (timer.slots slot) with
      | none => rfl
      | some next =>
          rw [emptied_cons, ← flatMap_linkClear absent]
          exact inductionHypothesis distinctRest

end

/-! ### The heap of a run -/

/-- Every cell there is was added and is not freed yet. -/
def Cells (world : World) (events : List Event) : Prop :=
  ∀ addr, (world.heap.load addr).isSome → addr ∈ addedNodes events ∧ addr ∉ freedNodes events

section

variable {world next : World} {call : Call} {events shown : List Event}

private theorem Cells.quiet (cells : Cells world events) (freesNone : freedNodes shown = [])
    (same : ∀ addr, (next.heap.load addr).isSome → (world.heap.load addr).isSome) :
    Cells next (events ++ shown) := by
  intro addr found
  have ⟨added, notFreed⟩ := cells addr (same addr found)
  rw [addedNodes_append, freedNodes_append, freesNone, List.append_nil]
  exact ⟨List.mem_append_left _ added, notFreed⟩

private theorem Cells.step (cells : Cells world events) (wheel : Wheel world events)
    (inRange : call.InRange) (taken : step world call = some (next, shown)) :
    Cells next (events ++ shown) := by
  cases step_touches taken with
  | nothing _ same _ freesNone => exact cells.quiet freesNone fun addr found => same ▸ found
  | @added time callback id cancel _ _ _ freesNone allocs =>
      intro addr found
      rw [allocs] at found
      by_cases isNew : addr = world.heap.length
      · obtain ⟨rfl, _⟩ := wheel.addTimer_taken inRange taken
        rw [isNew, addedNodes_append, freedNodes_append, freesNone, List.append_nil]
        refine ⟨List.mem_append_right _ (List.mem_singleton_self _), fun freed => ?_⟩
        have added := wheel.ledger.handed_added (wheel.freed_handed freed)
        exact Nat.lt_irrefl _ (wheel.below _ added)
      · rw [Heap.load_alloc_other isNew] at found
        have ⟨added, notFreed⟩ := cells addr found
        rw [addedNodes_append, freedNodes_append, freesNone, List.append_nil]
        exact ⟨List.mem_append_left _ added, notFreed⟩
  | late notPositive =>
      have positive := inRange.1
      omega
  | @deleted addr node found stores =>
      apply cells.quiet rfl
      intro other foundOther
      obtain ⟨heap, isStored, _, _, others⟩ := Heap.store_eq_some found { node with cancel := 1 }
      obtain rfl := Option.some.inj (isStored.symm.trans stores)
      by_cases same : other = addr
      · rw [same, found]
        rfl
      · rw [← others other same]
        exact foundOther
  | @dispatched addr node found frees =>
      intro other foundOther
      obtain ⟨heap, isFreed, _, others⟩ := Heap.free_eq_some found
      obtain rfl := Option.some.inj (isFreed.symm.trans frees)
      have different : other ≠ addr := by
        intro same
        rw [same, Heap.load_free_self frees] at foundOther
        contradiction
      rw [others other different] at foundOther
      have ⟨added, notFreed⟩ := cells other foundOther
      rw [addedNodes_append, freedNodes_append, freedNodes_dispatching, List.mem_append, List.mem_append,
        List.mem_singleton]
      exact ⟨.inl added, not_or.mpr ⟨notFreed, different⟩⟩

theorem exec_cells {calls : List Call} (inRange : ∀ call ∈ calls, call.InRange)
    (exec : machine.Exec calls world events) : Cells world events := by
  induction exec with
  | start => exact fun addr => by simp [machine, Heap.load, addedNodes]
  | step before taken inductionHypothesis =>
      have inRangeBefore := fun call member => inRange call (List.mem_append_left _ member)
      exact (inductionHypothesis inRangeBefore).step (exec_wheel inRangeBefore before)
        (inRange _ (by simp)) taken

/-- The nodes in the lists, each once. -/
private theorem clearedNodes_spec (wheel : Wheel world events) :
    (clearedNodes world.timer).Nodup ∧
      ∀ addr, addr ∈ clearedNodes world.timer ↔ Waiting events addr := by
  have shelved := wheel.shelved
  constructor
  · rw [clearedNodes, List.nodup_flatMap]
    refine ⟨fun slot _ => shelved.nodup slot, clearedSlots_nodup.imp ?_⟩
    intro left right different addr inLeft inRight
    exact different (shelved.disjoint left right addr inLeft inRight)
  · intro addr
    rw [clearedNodes, List.mem_flatMap, ← wheel.waiting]
    constructor
    · intro member
      have ⟨slot, _, inSlot⟩ := member
      exact ⟨slot, inSlot⟩
    · intro shelf
      have ⟨slot, inSlot⟩ := shelf
      have ⟨_, _, fits⟩ := shelved.fits slot addr inSlot
      exact ⟨slot, mem_clearedSlots.mpr fits.inBounds, inSlot⟩

/-- What `clear_timer` does, wherever the wheel is: it frees the nodes that wait in the
lists, each once, and empties the lists. The cells left are those `dispatch_list` holds. -/
structure Cleared (world : World) (events : List Event) (heap : Heap TimerNode) (timer : Timer) : Prop where
  clears : clearTimer world = some (heap, timer)
  frees : world.heap.freeAll (clearedNodes world.timer) = some heap
  once : (clearedNodes world.timer).Nodup
  waiting : ∀ addr, addr ∈ clearedNodes world.timer ↔ Waiting events addr
  empty : ∀ slot, timer.slots slot = []
  left : ∀ addr, (heap.load addr).isSome ↔ addr ∈ world.pc.current

theorem exec_cleared {calls : List Call} (inRange : ∀ call ∈ calls, call.InRange)
    (exec : machine.Exec calls world events) : ∃ heap timer, Cleared world events heap timer := by
  have wheel := exec_wheel inRange exec
  have cells := exec_cells inRange exec
  have ⟨distinct, waiting⟩ := clearedNodes_spec wheel
  have live : ∀ addr ∈ clearedNodes world.timer, (world.heap.load addr).isSome := by
    intro addr member
    have ⟨added, notHanded⟩ := (waiting addr).mp member
    have ⟨node, found, _⟩ := wheel.alive addr added fun freed => notHanded (wheel.freed_handed freed)
    rw [found]
    rfl
  have ⟨heap, frees, _, gone, kept⟩ := Heap.freeAll_eq_some distinct live
  have clears : clearTimer world = some (heap, emptied world.timer clearedSlots) := by
    rw [clearTimer, clearSlots_eq clearedSlots_nodup]
    show (world.heap.freeAll (clearedNodes world.timer)).map _ = _
    rw [frees]
    rfl
  refine ⟨heap, _, clears, frees, distinct, waiting, ?_, ?_⟩
  · intro slot
    show (if slot ∈ clearedSlots then [] else world.timer.slots slot) = []
    by_cases inBounds : slot ∈ clearedSlots
    · rw [if_pos inBounds]
    · rw [if_neg inBounds, List.eq_nil_iff_forall_not_mem]
      intro addr member
      have ⟨_, _, fits⟩ := wheel.shelved.fits slot addr member
      exact inBounds (mem_clearedSlots.mpr fits.inBounds)
  · intro addr
    have order := wheel.ledger.order
    by_cases member : addr ∈ clearedNodes world.timer
    · rw [gone addr member]
      have notHanded := ((waiting addr).mp member).2
      constructor
      · intro found
        contradiction
      · intro held
        exact absurd (order ▸ List.mem_append_right _ held) notHanded
    · rw [kept addr member]
      constructor
      · intro found
        have ⟨added, notFreed⟩ := cells addr found
        have handed : addr ∈ handedNodes events := by
          by_contra notHanded
          exact member ((waiting addr).mpr ⟨added, notHanded⟩)
        rw [order] at handed
        exact (List.mem_append.mp handed).resolve_left notFreed
      · intro held
        have distinctHanded := wheel.ledger.handed
        rw [order, List.nodup_append] at distinctHanded
        have handed : addr ∈ handedNodes events := order ▸ List.mem_append_right _ held
        have ⟨node, found, _⟩ := wheel.alive addr (wheel.ledger.handed_added handed)
          fun freed => distinctHanded.2.2 addr freed addr held rfl
        rw [found]
        rfl

/-- One timer waits while another is dispatched. -/
theorem twoTimers_cleared :
    ∃ world events heap timer,
      machine.Exec [.addTimer 1 0 0 0, .addTimer 20000 0 1 0, .timerUpdate, .run, .run] world events ∧
        Cleared world events heap timer := by
  have ran := machine.exec_of_isSome
    [.addTimer 1 0 0 0, .addTimer 20000 0 1 0, .timerUpdate, .run, .run] rfl
  have ⟨heap, timer, cleared⟩ := exec_cleared (by decide) ran
  exact ⟨_, _, heap, timer, ran, cleared⟩

end

end SimpleBasicComponents.TimeWheel
