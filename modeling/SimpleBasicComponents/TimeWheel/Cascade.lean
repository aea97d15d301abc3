import SimpleBasicComponents.Semantics.Observed
import SimpleBasicComponents.TimeWheel.Runs

/-!
Cascades.

Owns: the level of a list, the states the loop of `timer_shift` goes through,
and the nodes each step takes out of a level's list to link them again. They go
strictly down, so a node has at most as many cascades ahead of it as its list is
levels above `near`. This holds for delays of any sign.
-/

namespace SimpleBasicComponents.TimeWheel

open SimpleBasicComponents.Semantics

/-- How far a list is above `near`. -/
def Slot.level : Slot → Nat
  | .near _ => 0
  | .t level _ => level + 1

theorem level_slotFor (now expire : UInt32) : (slotFor now expire).level ≤ 4 := by
  rcases slotFor_cases now expire with ⟨-, isNear⟩ | ⟨i, small, -, -, isLevel⟩
  · rw [isNear]
    exact Nat.zero_le 4
  · rw [isLevel]
    exact small

/-! ### The loop of `timer_shift` -/

/-- In every turn `mask` is that of the level, and there are four levels. -/
theorem visited_shift (ct : UInt32) :
    ∀ state ∈ visited (timerShiftTurn ct) 5 (256, ct >>> timeNearShift, 0),
      state.1 = 2 ^ shiftOf state.2.2 ∧ state.2.2 ≤ 3 := by
  apply @visited_of_invariant _ _ (timerShiftTurn ct) _ _
    fun state => state.1 = 2 ^ shiftOf state.2.2 ∧ state.2.2 ≤ 3
  · intro state next holds goesOn
    have ⟨isMask, small⟩ := holds
    have wider : 2 ^ shiftOf (state.2.2 + 1) = state.1 * 64 := by
      rw [isMask, show shiftOf (state.2.2 + 1) = shiftOf state.2.2 + 6 from rfl, Nat.pow_add]
    simp only [timerShiftTurn] at goesOn
    split at goesOn
    · split at goesOn
      · contradiction
      · split at goesOn
        · rename_i noOverflow
          rw [← wider, Nat.pow_lt_pow_iff_right (by decide), shiftOf] at noOverflow
          have isNext := Turn.again.inj goesOn
          rw [← isNext]
          exact ⟨wider.symm, by show state.2.2 + 1 ≤ 3; omega⟩
        · contradiction
    · contradiction
  · exact ⟨rfl, Nat.zero_le 3⟩

/-- The nodes that the next shift takes out of a level's list. -/
def drained (timer : Timer) : List Addr :=
  match shiftedList (timer.time + 1) with
  | some (some (i, idx)) => timer.slots (.t i idx)
  | _ => []

section

variable {heap : Heap TimerNode} {timer next : Timer}

theorem mem_drained {addr : Addr} :
    addr ∈ drained timer ↔ ∃ i idx, Moves (timer.time + 1) i idx ∧ addr ∈ timer.slots (.t i idx) := by
  have ⟨target, isTarget, moves⟩ := shiftedList_eq_some (timer.time + 1)
  rw [drained, isTarget]
  cases target with
  | none =>
      constructor
      · exact fun member => absurd member List.not_mem_nil
      · intro ⟨i, idx, isMoved, _⟩
        exact absurd ((moves i idx).mpr isMoved) (by simp)
  | some list =>
      constructor
      · exact fun member => ⟨list.1, list.2, (moves _ _).mp rfl, member⟩
      · intro ⟨i, idx, isMoved, member⟩
        obtain rfl := Option.some.inj ((moves i idx).mpr isMoved)
        exact member

theorem nodup_drained (shelved : Shelved heap timer) : (drained timer).Nodup := by
  unfold drained
  split
  · exact shelved.nodup _
  · exact List.nodup_nil

/-! ### One shift -/

/-- A node of the moved list goes strictly below it. -/
theorem Shelved.goes_down (shelved : Shelved heap timer) {i idx : Nat}
    (moves : Moves (timer.time + 1) i idx) {addr : Addr} (member : addr ∈ timer.slots (.t i idx)) :
    ∃ node, heap.load addr = some node ∧
      (slotFor (timer.time + 1) node.expire).level < (Slot.t i idx).level := by
  have ⟨node, found, fits⟩ := shelved.fits _ addr member
  have lower := (slotFor_of_moved moves.1 (fits.moved moves)).2
  refine ⟨node, found, ?_⟩
  cases isSlot : slotFor (timer.time + 1) node.expire with
  | near => exact Nat.succ_pos i
  | t j jdx => exact Nat.succ_lt_succ (lower j jdx isSlot)

/-- The loop of `timer_shift` ends, on a level up to 3 and without overflow of
`mask`, and the nodes of the list it moves are linked to lower lists. -/
structure CascadesDown (heap : Heap TimerNode) (timer : Timer) : Prop where
  levels : ∀ state ∈ visited (timerShiftTurn (timer.time + 1)) 5
    (256, (timer.time + 1) >>> timeNearShift, 0), state.1 < 2 ^ 31 ∧ state.2.2 ≤ 3
  ends : ∃ target, shiftedList (timer.time + 1) = some target
  shifts : ∃ next, timerShift heap timer = some next ∧
    ∀ i idx, shiftedList (timer.time + 1) = some (some (i, idx)) →
      i ≤ 3 ∧ next.slots (.t i idx) = [] ∧
        ∀ addr ∈ timer.slots (.t i idx), ∃ node, heap.load addr = some node ∧
          (slotFor (timer.time + 1) node.expire).level < (Slot.t i idx).level ∧
          addr ∈ next.slots (slotFor (timer.time + 1) node.expire)

theorem Shelved.cascadesDown (shelved : Shelved heap timer) : CascadesDown heap timer := by
  have ⟨target, isTarget, moves⟩ := shiftedList_eq_some (timer.time + 1)
  have ⟨next, shifts, _, shifted⟩ := timerShift_shifted shelved
  refine ⟨?_, ⟨target, isTarget⟩, next, shifts, ?_⟩
  · intro state member
    have ⟨isMask, small⟩ := visited_shift (timer.time + 1) state member
    rw [isMask]
    refine ⟨Nat.pow_lt_pow_right (by decide) ?_, small⟩
    unfold shiftOf
    omega
  · intro i idx isList
    have isMoved := (moves i idx).mp (Option.some.inj (isTarget.symm.trans isList))
    refine ⟨Nat.le_of_lt_succ isMoved.1, ?_, ?_⟩
    · apply List.eq_nil_iff_forall_not_mem.mpr
      intro addr member
      rcases shifted.source _ addr member with ⟨_, stays⟩ | ⟨j, jdx, node, movesToo, was, found, isSlot⟩
      · exact stays i idx rfl isMoved
      · have ⟨other, foundToo, lower⟩ := shelved.goes_down movesToo was
        obtain rfl := Option.some.inj (found.symm.trans foundToo)
        rw [← isSlot] at lower
        have same := (moves j jdx).mpr movesToo
        rw [(moves i idx).mpr isMoved] at same
        obtain ⟨rfl, rfl⟩ := Prod.mk.inj (Option.some.inj same)
        exact Nat.lt_irrefl _ lower
    · intro addr member
      have ⟨node, found, lower⟩ := shelved.goes_down isMoved member
      exact ⟨node, found, lower, shifted.moved i idx isMoved addr member node found⟩

end

/-! ### The cascades of a run -/

/-- The nodes a step takes out of a level's list to link them again. -/
def cascaded (world : World) : Call → List Addr
  | .addTimer _ _ _ _ => []
  | .delTimer _ => []
  | .timerUpdate => []
  | .run =>
      match world.pc with
      | .executing .beforeShift =>
          if world.timer.slots (.near (world.timer.time &&& timeNearMask).toNat) ≠ [] then []
          else drained world.timer
      | _ => []

/-- A node has been cascaded at most once for every level that its list is below
the highest. -/
structure Graded (world : World) (moved : List Addr) : Prop where
  shelved : Shelved world.heap world.timer
  apart : ∀ addr ∈ world.pc.current, ¬ Shelf world.timer addr
  current : ∀ addr ∈ world.pc.current, addr < world.heap.length
  below : ∀ addr ∈ moved, addr < world.heap.length
  spent : ∀ addr, moved.count addr ≤ 4
  left : ∀ slot, ∀ addr ∈ world.timer.slots slot, moved.count addr + slot.level ≤ 4

theorem graded_start : Graded machine.start [] where
  shelved := shelved_create _
  apart _ member := absurd member List.not_mem_nil
  current _ member := absurd member List.not_mem_nil
  below _ member := absurd member List.not_mem_nil
  spent _ := Nat.zero_le 4
  left _ _ member := absurd member List.not_mem_nil

theorem Shelved.below {heap : Heap TimerNode} {timer : Timer} (shelved : Shelved heap timer)
    {addr : Addr} (shelf : Shelf timer addr) : addr < heap.length := by
  have ⟨slot, member⟩ := shelf
  have ⟨node, found, _⟩ := shelved.fits slot addr member
  exact Heap.lt_length_of_load found

section

variable {world next : World} {moved : List Addr}

/-- A step that leaves the lists as they are. -/
theorem Graded.elsewhere (graded : Graded world moved) (sameTimer : next.timer = world.timer)
    (sameExpire : ∀ addr, Shelf world.timer addr →
      (next.heap.load addr).map TimerNode.expire = (world.heap.load addr).map TimerNode.expire)
    (current : next.pc.current ⊆ world.pc.current) (length : world.heap.length ≤ next.heap.length) :
    Graded next moved where
  shelved := by
    rw [sameTimer]
    exact graded.shelved.congr sameExpire
  apart addr member := by
    rw [sameTimer]
    exact graded.apart addr (current member)
  current addr member := Nat.lt_of_lt_of_le (graded.current addr (current member)) length
  below addr member := Nat.lt_of_lt_of_le (graded.below addr member) length
  spent := graded.spent
  left slot addr member := by
    rw [sameTimer] at member
    exact graded.left slot addr member

theorem Graded.addTimer (graded : Graded world moved) {time : Int} {callback : Nat} {id : Int}
    {cancel : UInt8} {shown : List Event}
    (taken : TimeWheel.addTimer world time callback id cancel = some (next, shown)) :
    Graded next moved := by
  generalize isNode : (⟨UInt32.ofInt time + world.timer.time, callback, cancel, id⟩ : TimerNode) = node
  have free : ¬ Shelf world.timer world.heap.length :=
    fun shelf => Nat.lt_irrefl _ (graded.shelved.below shelf)
  have sameLoad : ∀ addr, Shelf world.timer addr →
      (world.heap.alloc node).load addr = world.heap.load addr := by
    intro addr shelf
    exact Heap.load_alloc_other (Nat.ne_of_lt (graded.shelved.below shelf))
  have grows : world.heap.length ≤ (world.heap.alloc node).length := by
    rw [Heap.length_alloc]
    exact Nat.le_succ _
  have found : (world.heap.alloc node).load world.heap.length = some node := Heap.load_alloc_self
  simp only [TimeWheel.addTimer, isNode] at taken
  split at taken
  · obtain ⟨heap, frees, length, others⟩ := Heap.free_eq_some found
    rw [frees] at taken
    obtain ⟨rfl, rfl⟩ := Prod.mk.inj (Option.some.inj taken)
    apply graded.elsewhere
    · rfl
    · intro addr shelf
      show (heap.load addr).map TimerNode.expire = _
      rw [others addr (fun same => free (same ▸ shelf)), sameLoad addr shelf]
    · exact List.Subset.refl _
    · exact Nat.le_trans grows (Nat.le_of_eq length.symm)
  · obtain ⟨timer, adds, sameTime, shelved, members⟩ := addNode_eq_some
      (graded.shelved.congr fun addr shelf => by rw [sameLoad addr shelf]) found free
    rw [adds] at taken
    obtain ⟨rfl, rfl⟩ := Prod.mk.inj (Option.some.inj taken)
    have fresh : moved.count world.heap.length = 0 :=
      List.count_eq_zero.mpr fun member => Nat.lt_irrefl _ (graded.below _ member)
    refine ⟨shelved, ?_, ?_, ?_, graded.spent, ?_⟩
    · intro addr member shelf
      obtain ⟨slot, inSlot⟩ := shelf
      rcases (members slot addr).mp inSlot with was | ⟨_, isNew⟩
      · exact graded.apart addr member ⟨slot, was⟩
      · exact Nat.ne_of_lt (graded.current addr member) isNew
    · intro addr member
      exact Nat.lt_of_lt_of_le (graded.current addr member) grows
    · intro addr member
      exact Nat.lt_of_lt_of_le (graded.below addr member) grows
    · intro slot addr member
      rcases (members slot addr).mp member with was | ⟨isSlot, isNew⟩
      · exact graded.left slot addr was
      · rw [isNew, fresh, isSlot, Nat.zero_add]
        exact level_slotFor _ _

theorem Graded.delTimer (graded : Graded world moved) {addr : Addr} {shown : List Event}
    (taken : TimeWheel.delTimer world addr = some (next, shown)) : Graded next moved := by
  obtain ⟨-, sameTimer, samePc, length, sameExpire⟩ := delTimer_keeps taken
  apply graded.elsewhere sameTimer
  · exact fun other _ => sameExpire other
  · rw [samePc]
    exact List.Subset.refl _
  · exact Nat.le_of_eq length.symm

/-- A turn of `dispatch_list` frees a node that is in no list any more. -/
theorem Graded.dispatch (graded : Graded world moved) {phase : Phase} {addr : Addr} {rest : List Addr}
    {node : TimerNode} {heap : Heap TimerNode} (isNext : world.pc = .dispatching phase (addr :: rest))
    (found : world.heap.load addr = some node) (frees : world.heap.free addr = some heap) :
    Graded ⟨heap, world.timer, .dispatching phase rest⟩ moved := by
  have current : world.pc.current = addr :: rest := by rw [isNext, Pc.current]
  obtain ⟨other, isFreed, length, others⟩ := Heap.free_eq_some found
  obtain rfl := Option.some.inj (frees.symm.trans isFreed)
  apply graded.elsewhere
  · rfl
  · intro other shelf
    show (heap.load other).map TimerNode.expire = _
    rw [others other]
    intro same
    apply graded.apart other _ shelf
    rw [current, same]
    exact List.mem_cons_self
  · rw [current]
    exact List.subset_cons_self addr rest
  · exact Nat.le_of_eq length.symm

/-- The nodes of the present moment are taken out of the lists. -/
theorem Graded.handOver (graded : Graded world moved) (slot : Slot) (phase : Phase) :
    Graded ⟨world.heap, (linkClear world.timer slot).2, .dispatching phase (world.timer.slots slot)⟩
      moved where
  shelved := graded.shelved.linkClear slot
  apart addr member shelf := by
    have ⟨other, inOther⟩ := shelf
    have ⟨was, different⟩ := mem_linkClear.mp inOther
    exact different (graded.shelved.disjoint other slot addr was member)
  current addr member := graded.shelved.below ⟨slot, member⟩
  below := graded.below
  spent := graded.spent
  left other addr member := graded.left other addr (mem_linkClear.mp member).1

/-- Every node that is cascaded is a level lower than before, or more. -/
theorem Graded.shift (graded : Graded world moved) {timer : Timer}
    (settled : Settled world.heap world.timer)
    (shifts : timerShift world.heap world.timer = some timer) :
    Graded { world with timer, pc := .executing .afterShift } (moved ++ drained world.timer) := by
  obtain ⟨_, isNext, shelved, shifted⟩ := timerShift_eq_some graded.shelved settled
  obtain rfl := Option.some.inj (isNext.symm.trans shifts)
  have once : ∀ addr, (drained world.timer).count addr ≤ 1 :=
    List.nodup_iff_count_le_one.mp (nodup_drained graded.shelved)
  refine ⟨shelved, by simp [Pc.current], by simp [Pc.current], ?_, ?_, ?_⟩
  · intro addr member
    rcases List.mem_append.mp member with before | now
    · exact graded.below addr before
    · obtain ⟨i, idx, _, inList⟩ := mem_drained.mp now
      exact graded.shelved.below ⟨_, inList⟩
  · intro addr
    rw [List.count_append]
    by_cases now : addr ∈ drained world.timer
    · obtain ⟨i, idx, _, inList⟩ := mem_drained.mp now
      have left := graded.left _ addr inList
      have := once addr
      simp only [Slot.level] at left
      omega
    · rw [List.count_eq_zero.mpr now]
      exact graded.spent addr
  · intro slot addr member
    rw [List.count_append]
    rcases shifted.source slot addr member with ⟨was, stays⟩ | ⟨i, idx, node, moves, was, found, isSlot⟩
    · have notNow : addr ∉ drained world.timer := by
        intro now
        obtain ⟨i, idx, moves, inList⟩ := mem_drained.mp now
        exact stays i idx (graded.shelved.disjoint _ _ addr was inList) moves
      rw [List.count_eq_zero.mpr notNow]
      exact graded.left slot addr was
    · obtain ⟨_, foundToo, lower⟩ := graded.shelved.goes_down moves was
      obtain rfl := Option.some.inj (found.symm.trans foundToo)
      have left := graded.left _ addr was
      have := once addr
      rw [← isSlot] at lower
      omega

/-- Only a shift cascades anything. -/
theorem Graded.run (graded : Graded world moved) {shown : List Event}
    (taken : runUpdate world = some (next, shown)) : Graded next (moved ++ cascaded world .run) := by
  cases runUpdate_advances taken with
  | dispatched isPc found frees =>
      simp only [cascaded, isPc, List.append_nil]
      exact graded.dispatch isPc found frees
  | emptied isPc =>
      simp only [cascaded, isPc, List.append_nil]
      exact graded.elsewhere rfl (fun _ _ => rfl) (List.nil_subset _) (Nat.le_refl _)
  | @handedOver phase slot isPc isSlot due =>
      have nothing : cascaded world .run = [] := by
        rw [isSlot] at due
        cases phase with
        | beforeShift => simp only [cascaded, isPc, if_pos due]
        | afterShift => simp only [cascaded, isPc]
      rw [nothing, List.append_nil]
      exact graded.handOver slot phase
  | shifted isPc noneDue shifts =>
      simp only [cascaded, isPc, if_neg (not_not.mpr noneDue)]
      exact graded.shift (graded.shelved.settled_of_empty noneDue) shifts
  | finished isPc noneDue =>
      simp only [cascaded, isPc, List.append_nil]
      exact graded.elsewhere rfl (fun _ _ => rfl) (List.nil_subset _) (Nat.le_refl _)

theorem Graded.step (graded : Graded world moved) {call : Call} {shown : List Event}
    (taken : step world call = some (next, shown)) : Graded next (moved ++ cascaded world call) := by
  cases call with
  | addTimer time callback id cancel =>
      simp only [TimeWheel.step] at taken
      rw [cascaded, List.append_nil]
      split at taken
      · exact graded.addTimer taken
      · contradiction
  | delTimer addr =>
      rw [cascaded, List.append_nil]
      exact graded.delTimer taken
  | timerUpdate =>
      simp only [TimeWheel.step] at taken
      rw [cascaded, List.append_nil]
      split at taken
      · obtain ⟨rfl, rfl⟩ := Prod.mk.inj (Option.some.inj taken)
        exact graded.elsewhere rfl (fun _ _ => rfl) (List.nil_subset _) (Nat.le_refl _)
      · contradiction
  | run => exact graded.run taken

end

/-! ### Whole runs -/

theorem exec_graded {calls : List Call} {world : World} {events : List Event}
    (exec : machine.Exec calls world events) :
    ∃ moved, (machine.reporting cascaded).Exec calls world moved ∧ Graded world moved := by
  induction exec with
  | start => exact ⟨[], .start, graded_start⟩
  | step before taken inductionHypothesis =>
      have ⟨moved, ran, graded⟩ := inductionHypothesis
      exact ⟨_, ran.step (Machine.reporting_step cascaded taken), graded.step taken⟩

/-- In every state a shift ends and links the nodes it moves to lower lists, and
over a whole run no node is moved more than four times. -/
theorem cascades_end {calls : List Call} {world : World} {events : List Event}
    (exec : machine.Exec calls world events) :
    CascadesDown world.heap world.timer ∧
      ∃ moved, (machine.reporting cascaded).Exec calls world moved ∧
        ∀ addr, moved.count addr ≤ 4 := by
  have ⟨moved, ran, graded⟩ := exec_graded exec
  exact ⟨graded.shelved.cascadesDown, moved, ran, graded.spent⟩

/-- A timer that is filed on level 0 and comes down when the first 256 updates
are over. -/
def firstRound : List Call :=
  .addTimer 256 0 0 0 :: (List.replicate 256 [Call.timerUpdate, .run, .run]).flatten

theorem firstRound_cascades :
    ∃ world events, machine.Exec firstRound world events ∧
      CascadesDown world.heap world.timer ∧
      ∃ moved, (machine.reporting cascaded).Exec firstRound world moved ∧
        ∀ addr, moved.count addr ≤ 4 := by
  have ran := machine.exec_of_isSome firstRound (by decide +kernel)
  exact ⟨_, _, ran, cascades_end ran⟩

example : ((machine.reporting cascaded).run firstRound).map Prod.snd = some [0] := by decide +kernel

end SimpleBasicComponents.TimeWheel
