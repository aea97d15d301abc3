import Mathlib.Data.List.Pairwise
import SimpleBasicComponents.TimeWheel.Runs

/-!
Timers the wheel misses.

Owns: the condition under which a timer is called in time, and the theorem that
it is exactly then. `add_node` goes by the distance and files by a digit of
`expire`; where that digit is zero on one of the levels 0 to 2, the node goes
into a list `timer_shift` never moves.
-/

namespace SimpleBasicComponents.TimeWheel

open SimpleBasicComponents.Semantics

/-- On the level the delay belongs to, `expire` has a digit that comes round. -/
def Revisited (now : UInt32) (time : Int) : Prop :=
  ∀ i < 3, 2 ^ shiftOf i ≤ time.toNat → time.toNat < 2 ^ shiftOf (i + 1) →
    digit i (UInt32.ofInt time + now) ≠ 0

/-- Calls of `add_timer` with a positive delay, into cleared memory, and of
`timer_update`. -/
def Call.Plain : Call → Prop
  | .addTimer time _ _ cancel => 1 ≤ time ∧ time ≤ 2 ^ 31 - 1 ∧ cancel = 0
  | .delTimer _ => False
  | .timerUpdate => True
  | .run => True

instance : (call : Call) → Decidable call.Plain
  | .addTimer time _ _ cancel => inferInstanceAs (Decidable (1 ≤ time ∧ time ≤ 2 ^ 31 - 1 ∧ cancel = 0))
  | .delTimer _ => inferInstanceAs (Decidable False)
  | .timerUpdate => inferInstanceAs (Decidable True)
  | .run => inferInstanceAs (Decidable True)

theorem Call.Plain.inRange {call : Call} (plain : call.Plain) : call.InRange := by
  cases call with
  | addTimer time callback id cancel => exact ⟨plain.1, plain.2.1⟩
  | delTimer | timerUpdate | run => trivial

instance (now : UInt32) (time : Int) : Decidable (Revisited now time) := by
  unfold Revisited
  infer_instance

private theorem le_of_pow_le_of_lt {i j delay : Nat} (le : 2 ^ shiftOf i ≤ delay)
    (less : delay < 2 ^ shiftOf (j + 1)) : i ≤ j := by
  have powers := (Nat.pow_lt_pow_iff_right (by decide)).mp (Nat.lt_of_le_of_lt le less)
  simp only [shiftOf] at powers
  omega

theorem stuck_slotFor_iff {time : Int} (positive : 1 ≤ time) (small : time ≤ 2 ^ 31 - 1)
    (now : UInt32) : Stuck (slotFor now (UInt32.ofInt time + now)) ↔ ¬ Revisited now time := by
  have isDelay := distance_of_delay positive small now
  rcases slotFor_cases now (UInt32.ofInt time + now) with ⟨near, isNear⟩ | ⟨i, four, le, less, isLevel⟩
  · rw [isNear]
    rw [isDelay] at near
    refine ⟨False.elim, fun missed => missed fun i _ le _ => ?_⟩
    have first : 2 ^ 8 ≤ 2 ^ shiftOf i := Nat.pow_le_pow_right (by decide) (Nat.le_add_right 8 _)
    omega
  · rw [isLevel]
    rw [isDelay] at le less
    constructor
    · rintro ⟨three, zero⟩ revisited
      exact revisited i three le (less three) zero
    · intro missed
      by_contra notStuck
      apply missed
      intro j three leJ lessJ zero
      have atMost := le_of_pow_le_of_lt le lessJ
      have same : i = j := by
        apply Nat.le_antisymm atMost
        exact le_of_pow_le_of_lt leJ (less (Nat.lt_of_le_of_lt atMost three))
      subst same
      exact notStuck ⟨three, zero⟩

/-! ### Callbacks of timers that are not cancelled -/

/-- No node is cancelled, and every node freed was called back. -/
structure Uncancelled (world : World) (events : List Event) : Prop where
  flags : ∀ addr node, world.heap.load addr = some node → node.cancel = 0
  called : calledNodes events = freedNodes events

theorem Uncancelled.step {world next : World} {events shown : List Event} {call : Call}
    (uncancelled : Uncancelled world events) (plain : call.Plain)
    (taken : step world call = some (next, shown)) : Uncancelled next (events ++ shown) := by
  obtain ⟨flags, called⟩ := uncancelled
  cases step_touches taken with
  | nothing _ same callsNone freesNone =>
      refine ⟨by rw [same]; exact flags, ?_⟩
      rw [calledNodes_append, freedNodes_append, callsNone, freesNone, called]
  | added positive callsNone freesNone allocs =>
      refine ⟨?_, by rw [calledNodes_append, freedNodes_append, callsNone, freesNone, called]⟩
      intro addr node found
      rw [allocs] at found
      by_cases isNew : addr = world.heap.length
      · rw [isNew, Heap.load_alloc_self] at found
        obtain rfl := Option.some.inj found
        exact plain.2.2
      · rw [Heap.load_alloc_other isNew] at found
        exact flags addr node found
  | late notPositive _ =>
      have positive := plain.1
      omega
  | deleted => exact plain.elim
  | @dispatched addr node found frees =>
      obtain ⟨heap, isFreed, -, others⟩ := Heap.free_eq_some found
      obtain rfl := Option.some.inj (isFreed.symm.trans frees)
      refine ⟨?_, ?_⟩
      · intro other old foundOld
        by_cases same : other = addr
        · rw [same, Heap.load_free_self frees] at foundOld
          contradiction
        · exact flags other old ((others other same).symm.trans foundOld)
      · rw [calledNodes_append, freedNodes_append, dispatching, if_pos (flags addr node found), called]
        rfl

theorem exec_uncancelled {calls : List Call} {world : World} {events : List Event}
    (plain : ∀ call ∈ calls, call.Plain) (exec : machine.Exec calls world events) :
    Uncancelled world events := by
  induction exec with
  | start => exact ⟨fun addr node found => by simp [machine, Heap.load] at found, rfl⟩
  | step before taken inductionHypothesis =>
      have plainBefore := fun call member => plain call (List.mem_append_left _ member)
      exact (inductionHypothesis plainBefore).step (plain _ (by simp)) taken

/-! ### One timer in a run -/

/-- What does not change for a timer that was added at some point of a run. -/
private theorem exec_after {before after : List Call} {start world : World}
    {earlier events : List Event} {addr : Addr}
    (inRange : ∀ call ∈ before ++ after, call.InRange)
    (reached : machine.Exec before start earlier) (added : addr ∈ addedNodes earlier)
    (exec : machine.Exec (before ++ after) world events) :
    earlier <+: events ∧ (StuckIn world.timer addr ↔ StuckIn start.timer addr) := by
  apply reached.since (fun _ state seen =>
    earlier <+: seen ∧ (StuckIn state.timer addr ↔ StuckIn start.timer addr)) ⟨List.prefix_rfl, Iff.rfl⟩ ?_ exec
  intro later call state seen next shown isPrefix ran both taken
  obtain ⟨within, same⟩ := both
  have inRangeNow : ∀ other ∈ before ++ (later ++ [call]), other.InRange := fun other member =>
    inRange other (((List.prefix_append_right_inj _).mpr isPrefix).subset member)
  rw [← List.append_assoc] at inRangeNow
  have wheel := exec_wheel (fun other member => inRangeNow other (List.mem_append_left _ member)) ran
  have sameStuck := (wheel.step (inRangeNow call (by simp)) taken).2
  have addedSeen : addr ∈ addedNodes seen := by
    obtain ⟨more, rfl⟩ := within
    rw [addedNodes_append]
    exact List.mem_append_left _ added
  exact ⟨within.trans (List.prefix_append _ _), (sameStuck addr addedSeen).trans same⟩

/-- A node has one `expire`. -/
theorem added_unique {events : List Event} {addr : Addr} {first second : UInt32}
    (nodup : (addedNodes events).Nodup) (one : .added addr first ∈ events)
    (two : .added addr second ∈ events) : first = second := by
  by_contra different
  have symmetric : Std.Symm fun left right : Event => ∀ a, left.addedNode = some a →
      ∀ b, right.addedNode = some b → a ≠ b :=
    ⟨fun _ _ distinct a isA b isB => (distinct b isB a isA).symm⟩
  have distinct := (List.pairwise_filterMap.mp nodup).forall one two
    fun same => different (Event.added.inj same).2
  exact distinct addr rfl addr rfl rfl

/-- A node that is not stuck is not in a list any more when the clock has reached
its `expire`. -/
private theorem Wheel.notShelf_of_due {world : World} {events : List Event} (wheel : Wheel world events)
    (idle : world.pc = .idle) {addr : Addr} {expire : UInt32} (added : .added addr expire ∈ events)
    (due : expire = world.timer.time) (notStuck : ¬ StuckIn world.timer addr) :
    ¬ Shelf world.timer addr := by
  rintro ⟨slot, member⟩
  obtain ⟨isAdded, notFreed⟩ := wheel.shelf_alive ⟨slot, member⟩
  obtain ⟨node, found, isNode⟩ := wheel.alive addr isAdded notFreed
  have isExpire : node.expire = expire := added_unique wheel.ledger.added isNode added
  have isNow : distance node.expire world.timer.time = 0 := by
    rw [distance_eq_zero, isExpire, due]
  obtain ⟨other, foundOther, fits⟩ := wheel.shelved.fits slot addr member
  obtain rfl := Option.some.inj (found.symm.trans foundOther)
  rcases fits.of_distance_eq_zero isNow with stuck | rfl
  · exact notStuck ⟨slot, stuck, member⟩
  · exact wheel.settled (by rw [idle]; simp) _ addr member node found isNow

/-- Between updates the nodes handed over have been called back. -/
private theorem Wheel.called_iff {world : World} {events : List Event} (wheel : Wheel world events)
    (uncancelled : Uncancelled world events) (idle : world.pc = .idle) {addr : Addr}
    (added : addr ∈ addedNodes events) : addr ∈ calledNodes events ↔ ¬ Shelf world.timer addr := by
  have order := wheel.ledger.order
  rw [idle, Pc.current, List.append_nil] at order
  rw [uncancelled.called, ← order, wheel.waiting, Waiting, not_and_not_right]
  exact ⟨fun handed _ => handed, fun handed => handed added⟩

private theorem exec_due {world : World} {events : List Event} (wheel : Wheel world events)
    (idle : world.pc = .idle) {start : World} {earlier : List Event} (wheelStart : Wheel start earlier)
    (idleStart : start.pc = .idle) {time : Int} (positive : 1 ≤ time) (small : time ≤ 2 ^ 31 - 1)
    (due : events.count .updated = earlier.count .updated + time.toNat) :
    UInt32.ofInt time + start.timer.time = world.timer.time := by
  have clock := wheel.clock
  have clockStart := wheelStart.clock
  rw [idle] at clock
  rw [idleStart] at clockStart
  simp only [Pc.shifted, Nat.add_zero] at clock clockStart
  rw [← UInt32.toNat_inj, UInt32.toNat_add, ofInt_toNat positive small, clock, clockStart, due]
  omega

/-- A timer added between two updates is called by the end of the update it is
due in, and leaves the wheel, exactly if its delay and `expire` agree about the
level it belongs to. -/
theorem calledInTime_iff {before after : List Call} {time : Int} {callback : Nat} {id : Int}
    {start world : World} {earlier events : List Event}
    (plain : ∀ call ∈ before ++ .addTimer time callback id 0 :: after, call.Plain)
    (reached : machine.Exec before start earlier) (idleStart : start.pc = .idle)
    (exec : machine.Exec (before ++ .addTimer time callback id 0 :: after) world events)
    (idle : world.pc = .idle)
    (due : events.count .updated = earlier.count .updated + time.toNat) :
    (start.heap.length ∈ calledNodes events ↔ Revisited start.timer.time time) ∧
      ((∀ slot, start.heap.length ∉ world.timer.slots slot) ↔ Revisited start.timer.time time) := by
  obtain ⟨positive, small, -⟩ := plain (.addTimer time callback id 0) (by simp)
  have inRange := fun call member => (plain call member).inRange
  have wheelStart := exec_wheel (fun call member => inRange call (List.mem_append_left _ member)) reached
  obtain ⟨next, taken, -, -, -, stuckIn, -⟩ :=
    wheelStart.addTimer positive small (by rw [idleStart]; rfl) callback id 0
  rw [stuck_slotFor_iff positive small] at stuckIn
  have split : before ++ Call.addTimer time callback id 0 :: after =
      (before ++ [.addTimer time callback id 0]) ++ after := by simp
  rw [split] at exec inRange plain
  have isAdded : start.heap.length ∈ addedNodes
      (earlier ++ [.added start.heap.length (UInt32.ofInt time + start.timer.time)]) := by
    rw [addedNodes_append]
    exact List.mem_append_right _ (List.mem_singleton_self _)
  obtain ⟨⟨later, grown⟩, sameStuck⟩ := exec_after inRange (reached.step taken) isAdded exec
  have added : .added start.heap.length (UInt32.ofInt time + start.timer.time) ∈ events := by
    rw [← grown]
    simp
  have wheel := exec_wheel inRange exec
  have isDue := exec_due wheel idle wheelStart idleStart positive small due
  have shelf_iff : ¬ Shelf world.timer start.heap.length ↔ Revisited start.timer.time time := by
    constructor
    · intro notShelf
      by_contra missed
      obtain ⟨slot, -, member⟩ := sameStuck.mpr (stuckIn.mpr missed)
      exact notShelf ⟨slot, member⟩
    · intro revisited
      apply wheel.notShelf_of_due idle added isDue
      rw [sameStuck, stuckIn]
      exact not_not_intro revisited
  constructor
  · rw [wheel.called_iff (exec_uncancelled plain exec) idle (mem_addedNodes.mpr ⟨_, added⟩), shelf_iff]
  · rw [← shelf_iff, Shelf, not_exists]

/-- A timer added before the first update and called in it. -/
theorem addOne_calledInTime :
    ∃ start world earlier events, machine.Exec [] start earlier ∧
      machine.Exec [.addTimer 1 0 0 0, .timerUpdate, .run, .run, .run, .run, .run] world events ∧
      start.heap.length ∈ calledNodes events ∧ ∀ slot, start.heap.length ∉ world.timer.slots slot := by
  have ran := machine.exec_of_isSome
    [.addTimer 1 0 0 0, .timerUpdate, .run, .run, .run, .run, .run] rfl
  have inTime := @calledInTime_iff [] [.timerUpdate, .run, .run, .run, .run, .run] 1 0 0 _ _ _ _
    (by decide) .start rfl ran rfl rfl
  have revisited : Revisited machine.start.timer.time 1 := by decide
  exact ⟨_, _, _, _, .start, ran, inTime.1.mpr revisited, inTime.2.mpr revisited⟩

/-! ### An update that has begun returns -/

section

variable {world : World} {events : List Event}

private theorem Wheel.run_dispatching (wheel : Wheel world events) {phase : Phase} {current : List Addr}
    (isPc : world.pc = .dispatching phase current) :
    ∃ next shown, machine.Steps world shown next ∧ Wheel next (events ++ shown) ∧
      next.pc = .executing phase ∧ next.timer = world.timer := by
  induction current generalizing world events with
  | nil =>
      obtain ⟨next, shown, taken, kept, -⟩ := wheel.run (by rw [isPc]; simp)
      have isNext : TimeWheel.step world .run = some ({ world with pc := .executing phase }, []) := by
        simp only [TimeWheel.step, runUpdate, isPc]
      obtain ⟨rfl, rfl⟩ := Prod.mk.inj (Option.some.inj (isNext.symm.trans taken))
      exact ⟨_, _, .one .run taken, kept, rfl, rfl⟩
  | cons addr rest inductionHypothesis =>
      obtain ⟨next, shown, taken, kept, -⟩ := wheel.run (by rw [isPc]; simp)
      have isRest : next.pc = .dispatching phase rest ∧ next.timer = world.timer := by
        simp only [TimeWheel.step, runUpdate, isPc, TimeWheel.dispatch] at taken
        split at taken
        · simp only [Option.some.injEq, Prod.mk.injEq] at taken
          obtain ⟨rfl, rfl⟩ := taken
          exact ⟨rfl, rfl⟩
        · contradiction
      obtain ⟨last, later, steps, keptLast, isLast, sameTimer⟩ := inductionHypothesis kept isRest.1
      refine ⟨last, shown ++ later, .step .run taken steps, ?_, isLast, sameTimer.trans isRest.2⟩
      rw [← List.append_assoc]
      exact keptLast

/-- `timer_execute` ends when the list of the present moment is empty. -/
private theorem Wheel.run_empty (wheel : Wheel world events) (isPc : world.pc = .executing .afterShift)
    (empty : world.timer.slots (.near (world.timer.time &&& timeNearMask).toNat) = []) :
    ∃ next shown, machine.Steps world shown next ∧ Wheel next (events ++ shown) ∧ next.pc = .idle := by
  obtain ⟨next, shown, taken, kept, -⟩ := wheel.run (by rw [isPc]; simp)
  have isNext : TimeWheel.step world .run = some ({ world with pc := .idle }, [.updated]) := by
    simp only [TimeWheel.step, runUpdate, isPc, empty, ne_eq, not_true_eq_false, if_false]
  obtain ⟨rfl, rfl⟩ := Prod.mk.inj (Option.some.inj (isNext.symm.trans taken))
  exact ⟨_, _, .one .run taken, kept, rfl⟩

private theorem Wheel.run_afterShift (wheel : Wheel world events)
    (isPc : world.pc = .executing .afterShift) :
    ∃ next shown, machine.Steps world shown next ∧ Wheel next (events ++ shown) ∧ next.pc = .idle := by
  by_cases empty : world.timer.slots (.near (world.timer.time &&& timeNearMask).toNat) = []
  · exact wheel.run_empty isPc empty
  · obtain ⟨next, shown, taken, kept, -⟩ := wheel.run (by rw [isPc]; simp)
    have isNext : next.pc = .dispatching .afterShift
          (world.timer.slots (.near (world.timer.time &&& timeNearMask).toNat)) ∧
        next.timer = (linkClear world.timer (.near (world.timer.time &&& timeNearMask).toNat)).2 := by
      simp only [TimeWheel.step, runUpdate, isPc, ne_eq, empty, not_false_eq_true, if_true,
        Option.some.injEq, Prod.mk.injEq] at taken
      obtain ⟨rfl, -⟩ := taken
      exact ⟨rfl, rfl⟩
    obtain ⟨done, later, dispatches, keptDone, isDone, sameTimer⟩ := kept.run_dispatching isNext.1
    have emptied : done.timer.slots (.near (done.timer.time &&& timeNearMask).toNat) = [] := by
      rw [sameTimer, isNext.2]
      simp [linkClear]
    obtain ⟨last, final, ends, keptLast, isLast⟩ := keptDone.run_empty isDone emptied
    refine ⟨last, shown ++ (later ++ final), .step .run taken (dispatches.trans ends), ?_, isLast⟩
    rw [← List.append_assoc, ← List.append_assoc]
    exact keptLast

/-- Wherever an update is, it can be run to its end. -/
theorem exec_returns {calls : List Call} (inRange : ∀ call ∈ calls, call.InRange)
    (exec : machine.Exec calls world events) :
    ∃ more next shown, machine.Exec (calls ++ more) next (events ++ shown) ∧ next.pc = .idle := by
  have wheel := exec_wheel inRange exec
  have returns : ∃ next shown, machine.Steps world shown next ∧ next.pc = .idle := by
    cases isPc : world.pc with
    | idle => exact ⟨world, [], .refl world, isPc⟩
    | dispatching phase current =>
        have isAfter : phase = .afterShift := by
          cases phase with
          | beforeShift => exact absurd isPc (wheel.phase _)
          | afterShift => rfl
        subst isAfter
        obtain ⟨done, shown, steps, kept, isDone, -⟩ := wheel.run_dispatching isPc
        obtain ⟨last, later, ends, -, isLast⟩ := kept.run_afterShift isDone
        exact ⟨last, shown ++ later, steps.trans ends, isLast⟩
    | executing phase =>
        cases phase with
        | afterShift =>
            obtain ⟨last, shown, ends, -, isLast⟩ := wheel.run_afterShift isPc
            exact ⟨last, shown, ends, isLast⟩
        | beforeShift =>
            obtain ⟨next, shown, taken, kept, -⟩ := wheel.run (by rw [isPc]; simp)
            have isNext : next.pc = .executing .afterShift := by
              have notDispatching := kept.phase
              simp only [TimeWheel.step, runUpdate, isPc] at taken
              split at taken
              · simp only [Option.some.injEq, Prod.mk.injEq] at taken
                obtain ⟨rfl, -⟩ := taken
                exact absurd rfl (notDispatching _)
              · split at taken
                · simp only [Option.some.injEq, Prod.mk.injEq] at taken
                  obtain ⟨rfl, -⟩ := taken
                  rfl
                · contradiction
            obtain ⟨last, later, ends, -, isLast⟩ := kept.run_afterShift isNext
            exact ⟨last, shown ++ later, .step .run taken ends, isLast⟩
  obtain ⟨next, shown, steps, isIdle⟩ := returns
  obtain ⟨more, grown⟩ := exec.steps steps
  exact ⟨more, next, shown, grown, isIdle⟩

end

/-! ### A missed timer -/

/-- Only lists that are never moved have nodes in them. -/
private def Quiet (timer : Timer) : Prop := ∀ slot, ¬ Stuck slot → timer.slots slot = []

private theorem Quiet.timerShift {heap : Heap TimerNode} {timer : Timer} (quiet : Quiet timer) :
    timerShift heap timer = some { timer with time := timer.time + 1 } := by
  obtain ⟨target, isTarget, moves⟩ := shiftedList_eq_some (timer.time + 1)
  cases target with
  | none => simp only [TimeWheel.timerShift, isTarget]
  | some list =>
      obtain ⟨i, idx⟩ := list
      have isMoved := (moves i idx).mp rfl
      have empty : timer.slots (.t i idx) = [] :=
        quiet (.t i idx) fun stuck => isMoved.2.2.2 stuck.1 stuck.2
      have unchanged : Function.update timer.slots (.t i idx) [] = timer.slots := by
        rw [← empty, Function.update_eq_self]
      simp only [TimeWheel.timerShift, isTarget, moveList, linkClear, empty, addNodes, unchanged]

/-- A call of `timer_update` with nothing to dispatch. -/
def update : List Call := [.timerUpdate, .run, .run]

private theorem Quiet.exec_update {calls : List Call} {heap : Heap TimerNode} {timer : Timer}
    {events : List Event} (quiet : Quiet timer) (exec : machine.Exec calls ⟨heap, timer, .idle⟩ events) :
    machine.Exec (calls ++ update) ⟨heap, { timer with time := timer.time + 1 }, .idle⟩
      (events ++ [.updated]) := by
  have empty : ∀ idx, timer.slots (.near idx) = [] := fun idx => quiet (.near idx) id
  have begun : machine.step ⟨heap, timer, .idle⟩ .timerUpdate =
      some (⟨heap, timer, .executing .beforeShift⟩, []) := rfl
  have shifted : machine.step ⟨heap, timer, .executing .beforeShift⟩ .run =
      some (⟨heap, { timer with time := timer.time + 1 }, .executing .afterShift⟩, []) := by
    simp only [machine, step, runUpdate, empty, ne_eq, not_true_eq_false, if_false, quiet.timerShift]
  have ended : machine.step ⟨heap, { timer with time := timer.time + 1 }, .executing .afterShift⟩ .run =
      some (⟨heap, { timer with time := timer.time + 1 }, .idle⟩, [.updated]) := by
    simp only [machine, step, runUpdate, empty, ne_eq, not_true_eq_false, if_false]
  have ran := ((exec.step begun).step shifted).step ended
  simpa [update] using ran

def updates (count : Nat) : List Call := (List.replicate count update).flatten

private theorem Quiet.exec_updates (count : Nat) {calls : List Call} {heap : Heap TimerNode}
    {timer : Timer} {events : List Event} (quiet : Quiet timer)
    (exec : machine.Exec calls ⟨heap, timer, .idle⟩ events) :
    ∃ time, machine.Exec (calls ++ updates count) ⟨heap, { timer with time }, .idle⟩
      (events ++ List.replicate count .updated) := by
  induction count generalizing calls timer events with
  | zero => exact ⟨timer.time, by simpa [updates] using exec⟩
  | succ count inductionHypothesis =>
      have next : Quiet { timer with time := timer.time + 1 } := quiet
      obtain ⟨time, ran⟩ := inductionHypothesis next (quiet.exec_update exec)
      refine ⟨time, ?_⟩
      simpa [updates, List.replicate_succ] using ran

/-- After one update the clock is 1; a timer of 16383 expires at `2 ^ 14`, whose
digit on level 0 is zero. -/
def late : Call := .addTimer 16383 0 0 0

private theorem plain_updates (count : Nat) : ∀ call ∈ update ++ late :: updates count, call.Plain := by
  have plainUpdate : ∀ call ∈ update, call.Plain := by decide
  intro call member
  rcases List.mem_append.mp member with first | second
  · exact plainUpdate call first
  · rcases List.mem_cons.mp second with rfl | rest
    · decide
    · obtain ⟨list, isUpdate, inList⟩ := List.mem_flatten.mp rest
      obtain rfl := List.eq_of_mem_replicate isUpdate
      exact plainUpdate call inList

/-- No number of updates moves it out of `t[0][0]`. -/
private theorem late_stays (count : Nat) :
    ∃ start world earlier events, machine.Exec update start earlier ∧ start.pc = .idle ∧
      machine.Exec (update ++ late :: updates count) world events ∧ world.pc = .idle ∧
      events.count .updated = earlier.count .updated + count ∧
      start.heap.length ∉ calledNodes events ∧ start.heap.length ∈ world.timer.slots (.t 0 0) := by
  have created : Quiet timerCreateTimer := fun _ _ => rfl
  have started := created.exec_update .start
  have added : machine.step ⟨[], { timerCreateTimer with time := 0 + 1 }, .idle⟩ late =
      some (⟨[some ⟨16384, 0, 0, 0⟩], link { timerCreateTimer with time := 0 + 1 } (.t 0 0) 0, .idle⟩,
        [.added 0 16384]) := rfl
  have quiet : Quiet (link { timerCreateTimer with time := 0 + 1 } (.t 0 0) 0) := by
    intro slot notStuck
    have different : slot ≠ .t 0 0 := by
      rintro rfl
      exact notStuck ⟨by decide, rfl⟩
    simp [link, timerCreateTimer, different]
  obtain ⟨time, ran⟩ := quiet.exec_updates count (started.step added)
  have calls : update ++ late :: updates count = [] ++ update ++ [late] ++ updates count := by simp
  rw [← calls] at ran
  refine ⟨_, _, _, _, started, rfl, ran, rfl, ?_, ?_, ?_⟩
  · simp [Nat.add_comm]
  · simp [calledNodes, Event.calledNode]
  · simp [link]

theorem late_notCalled :
    ∃ start world earlier events, machine.Exec update start earlier ∧ start.pc = .idle ∧
      machine.Exec (update ++ late :: updates 16383) world events ∧ world.pc = .idle ∧
      (∀ call ∈ update ++ late :: updates 16383, call.Plain) ∧
      events.count .updated = earlier.count .updated + 16383 ∧
      start.heap.length ∉ calledNodes events ∧ start.heap.length ∈ world.timer.slots (.t 0 0) := by
  obtain ⟨start, world, earlier, events, reached, idleStart, exec, idle, due, missed⟩ := late_stays 16383
  exact ⟨start, world, earlier, events, reached, idleStart, exec, idle, plain_updates 16383, due, missed⟩

end SimpleBasicComponents.TimeWheel
