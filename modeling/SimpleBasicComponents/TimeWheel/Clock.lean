import SimpleBasicComponents.TimeWheel.Missed

/-!
The clock of the time wheel.

Owns: `init_timer` and `expire_timer`, as a machine over that of the wheel, and how
the wheel's time and the callbacks relate to the clock. `expire_timer` makes an
update for each tick since it was called last; while it catches up, the wheel is
behind by the updates that are pending, and a timer added then is called early by
no more than these.

What `gettime` returns is an argument. The updates are counted by an `int`; for
2^31 ticks or more at once there is no step. One thread calls `expire_timer`.
-/

namespace SimpleBasicComponents.TimeWheel.Clock

open SimpleBasicComponents.Semantics

structure Clocked where
  world : World
  currentPoint : UInt64
  /-- The updates that the loop of `expire_timer` has still to make. -/
  pending : Nat

inductive Label where
  | expireTimer (cp : UInt64)
  /-- The next turn of its loop. -/
  | turn
  | call (call : Call)
deriving DecidableEq, Repr

inductive Event where
  | ticked (diff : Nat)
  | wheel (event : TimeWheel.Event)
deriving DecidableEq, Repr

def expireTimer (state : Clocked) (cp : UInt64) : Option (Clocked × List Event) :=
  if cp ≠ state.currentPoint then
    let diff := (cp - state.currentPoint).toUInt32
    if diff.toNat < 2 ^ 31 then
      some ({ state with currentPoint := cp, pending := diff.toNat }, [.ticked diff.toNat])
    else none
  else some (state, [])

/-- A step of the wheel that leaves so many updates. -/
def onWheel (state : Clocked) (pending : Nat) (call : Call) : Option (Clocked × List Event) :=
  match TimeWheel.step state.world call with
  | some (world, shown) => some ({ state with world, pending }, shown.map .wheel)
  | none => none

def step (state : Clocked) : Label → Option (Clocked × List Event)
  | .expireTimer cp =>
      if state.pending = 0 ∧ state.world.pc = .idle then expireTimer state cp else none
  | .turn =>
      match state.pending with
      | 0 => none
      | pending + 1 => onWheel state pending .timerUpdate
  | .call call => if call = .timerUpdate then none else onWheel state state.pending call

/-- `init_timer` at the time `start`. -/
def machine (start : UInt64) : Machine Clocked Label Event where
  start := ⟨TimeWheel.machine.start, start, 0⟩
  step := step

/-! ### The run of the wheel -/

def Label.calls : Label → List Call
  | .expireTimer _ => []
  | .turn => [Call.timerUpdate]
  | .call asked => [asked]

def Event.onWheel : Event → Option TimeWheel.Event
  | .ticked _ => none
  | .wheel event => some event

def Event.ticks : Event → Nat
  | .ticked diff => diff
  | .wheel _ => 0

/-- The ticks that `expire_timer` has seen. -/
def ticks (events : List Event) : Nat := (events.map Event.ticks).sum

def wheelEvents (events : List Event) : List TimeWheel.Event := events.filterMap Event.onWheel

/-- The calls of a run of labels on the wheel. -/
def wheelCalls (labels : List Label) : List Call := labels.flatMap Label.calls

section

variable {events shown : List Event} {labels more : List Label}

theorem ticks_append : ticks (events ++ shown) = ticks events + ticks shown := by
  rw [ticks, List.map_append, List.sum_append]
  rfl

theorem wheelEvents_append : wheelEvents (events ++ shown) = wheelEvents events ++ wheelEvents shown :=
  List.filterMap_append

theorem wheelCalls_append : wheelCalls (labels ++ more) = wheelCalls labels ++ wheelCalls more :=
  List.flatMap_append

theorem wheelEvents_map (events : List TimeWheel.Event) : wheelEvents (events.map .wheel) = events := by
  rw [wheelEvents, List.filterMap_map]
  exact List.filterMap_some

theorem ticks_map (events : List TimeWheel.Event) : ticks (events.map .wheel) = 0 := by
  induction events with
  | nil => rfl
  | cons event rest inductionHypothesis =>
      rw [List.map_cons, ticks, List.map_cons, List.sum_cons]
      exact (Nat.zero_add _).trans inductionHypothesis

end

/-- An update is under way. -/
def busy : Pc → Nat
  | .idle => 0
  | _ => 1

/-- An update is under way that has not moved the clock yet. -/
def late : Pc → Nat
  | .executing .beforeShift => 1
  | _ => 0

theorem busy_eq (pc : Pc) : busy pc = late pc + pc.shifted := by
  cases pc with
  | idle => rfl
  | executing phase => cases phase <;> rfl
  | dispatching phase current => rfl

/-- How far the wheel is behind the ticks that `expire_timer` has seen. -/
def Clocked.lag (state : Clocked) : Nat := state.pending + late state.world.pc

/-! ### The steps of the wheel -/

section

variable {world next : World} {call : Call} {events shown : List TimeWheel.Event}

private theorem addTimer_quiet {time : Int} {callback : Nat} {id : Int} {cancel : UInt8}
    (taken : TimeWheel.step world (.addTimer time callback id cancel) = some (next, shown)) :
    next.pc = world.pc ∧ shown.count .updated = 0 := by
  simp only [TimeWheel.step, addTimer] at taken
  split at taken
  · split at taken
    · split at taken
      · obtain ⟨rfl, rfl⟩ := Prod.mk.inj (Option.some.inj taken)
        exact ⟨rfl, rfl⟩
      · contradiction
    · split at taken
      · obtain ⟨rfl, rfl⟩ := Prod.mk.inj (Option.some.inj taken)
        exact ⟨rfl, rfl⟩
      · contradiction
  · contradiction

private theorem dispatching_count (node : TimerNode) (addr : Addr) :
    (dispatching node addr).count .updated = 0 := by
  unfold dispatching
  split <;> rfl

/-- An update that has begun is under way or finished. -/
private theorem step_busy (taken : TimeWheel.step world call = some (next, shown)) :
    shown.count .updated + busy next.pc = busy world.pc + if call = .timerUpdate then 1 else 0 := by
  cases call with
  | addTimer time callback id cancel =>
      have ⟨samePc, noUpdate⟩ := addTimer_quiet taken
      rw [samePc, noUpdate, if_neg (by simp), Nat.zero_add, Nat.add_zero]
  | delTimer node =>
      have ⟨quiet, _, samePc, _⟩ := delTimer_keeps taken
      rw [quiet, samePc, if_neg (by simp)]
      exact Nat.zero_add _
  | timerUpdate =>
      simp only [TimeWheel.step] at taken
      split at taken
      · rename_i isIdle
        obtain ⟨rfl, rfl⟩ := Prod.mk.inj (Option.some.inj taken)
        rw [isIdle, if_pos rfl]
        rfl
      · contradiction
  | run =>
      rw [if_neg (by simp), Nat.add_zero]
      cases runUpdate_advances taken with
      | dispatched isPc => rw [isPc, dispatching_count]; rfl
      | emptied isPc => rw [isPc]; rfl
      | handedOver isPc => rw [isPc, updated_notMem_handings]; rfl
      | shifted isPc => rw [isPc]; rfl
      | finished isPc => rw [isPc]; rfl

/-- The clock of the wheel moves on only. -/
private theorem step_shifted (wheel : Wheel world events)
    (taken : TimeWheel.step world call = some (next, shown)) :
    world.pc.shifted ≤ shown.count .updated + next.pc.shifted := by
  cases call with
  | addTimer time callback id cancel =>
      rw [(addTimer_quiet taken).1]
      exact Nat.le_add_left _ _
  | delTimer node =>
      have ⟨_, _, samePc, _⟩ := delTimer_keeps taken
      rw [samePc]
      exact Nat.le_add_left _ _
  | timerUpdate =>
      simp only [TimeWheel.step] at taken
      split at taken
      · rename_i isIdle
        rw [isIdle]
        exact Nat.zero_le _
      · contradiction
  | run =>
      cases runUpdate_advances taken with
      | dispatched isPc => rw [isPc]; exact Nat.le_add_left _ _
      | @emptied phase isPc =>
          cases phase with
          | beforeShift => exact absurd isPc (wheel.phase [])
          | afterShift => rw [isPc]; exact Nat.le_add_left _ _
      | @handedOver phase _ isPc =>
          rw [isPc]
          cases phase with
          | beforeShift => exact Nat.zero_le _
          | afterShift => exact Nat.le_add_left _ _
      | shifted isPc => rw [isPc]; exact Nat.zero_le _
      | finished isPc => rw [isPc]; exact Nat.le_add_right _ _

/-- The updates that have moved the clock of the wheel. -/
def shifts (world : World) (events : List TimeWheel.Event) : Nat :=
  events.count .updated + world.pc.shifted

/-- What is handed over carries the time of the wheel. -/
private theorem handed_now (taken : TimeWheel.step world call = some (next, shown)) {addr : Addr}
    {time : UInt32} (handed : .handed addr time ∈ shown) : time = next.timer.time := by
  cases call with
  | addTimer delay callback id cancel =>
      simp only [TimeWheel.step, addTimer] at taken
      split at taken
      · split at taken
        · split at taken
          · obtain ⟨rfl, rfl⟩ := Prod.mk.inj (Option.some.inj taken)
            simp at handed
          · contradiction
        · split at taken
          · obtain ⟨rfl, rfl⟩ := Prod.mk.inj (Option.some.inj taken)
            simp at handed
          · contradiction
      · contradiction
  | delTimer node =>
      rw [(delTimer_keeps taken).1] at handed
      contradiction
  | timerUpdate =>
      simp only [TimeWheel.step] at taken
      split at taken
      · obtain ⟨rfl, rfl⟩ := Prod.mk.inj (Option.some.inj taken)
        contradiction
      · contradiction
  | run =>
      cases runUpdate_advances taken with
      | @dispatched _ _ _ node =>
          unfold dispatching at handed
          split at handed <;> simp at handed
      | emptied | shifted => contradiction
      | handedOver =>
          obtain ⟨node, _, same⟩ := List.mem_map.mp handed
          exact (TimeWheel.Event.handed.inj same).2.symm
      | finished => simp at handed

private theorem wheel_shifts (wheel : Wheel world events) :
    world.timer.time.toNat = shifts world events % 2 ^ 32 := wheel.clock

/-- Where the clock of the wheel has come round to an `expire`, it has made as many
shifts as the delay. -/
private theorem shifts_of_expire {start now : UInt32} {time : Int} {base count : Nat}
    (positive : 1 ≤ time) (small : time ≤ 2 ^ 31 - 1) (isStart : start.toNat = base % 2 ^ 32)
    (isNow : now.toNat = count % 2 ^ 32) (later : base ≤ count)
    (expired : UInt32.ofInt time + start = now) : base + time.toNat ≤ count := by
  have same := congrArg UInt32.toNat expired
  rw [UInt32.toNat_add, ofInt_toNat positive small, isStart, isNow] at same
  omega

private theorem step_shifts (wheel : Wheel world events)
    (taken : TimeWheel.step world call = some (next, shown)) :
    shifts world events ≤ shifts next (events ++ shown) := by
  have later := step_shifted wheel taken
  rw [shifts, shifts, List.count_append]
  omega

/-- The wheel hands a timer over after as many shifts as its delay. -/
private theorem handed_notEarly {before after : List Call} {time : Int} {callback : Nat} {id : Int}
    {cancel : UInt8} {start : World} {earlier : List TimeWheel.Event}
    (inRange : ∀ call ∈ before ++ .addTimer time callback id cancel :: after, call.InRange)
    (reached : TimeWheel.machine.Exec before start earlier)
    (exec : TimeWheel.machine.Exec (before ++ .addTimer time callback id cancel :: after) world events)
    (handed : start.heap.length ∈ handedNodes events) :
    shifts start earlier + time.toNat ≤ shifts world events := by
  have inRangeTimer := inRange (.addTimer time callback id cancel) (by simp)
  have wheelStart := exec_wheel (fun call member => inRange call (List.mem_append_left _ member)) reached
  have split : before ++ Call.addTimer time callback id cancel :: after =
      (before ++ [.addTimer time callback id cancel]) ++ after := by simp
  rw [split] at exec inRange
  have ⟨first, firstSeen, ran, _⟩ := exec.earlier (List.prefix_append _ after)
  obtain ⟨other, otherSeen, shown, ranOther, taken, rfl⟩ := ran.unsnoc
  obtain ⟨rfl, rfl⟩ := ranOther.functional reached
  obtain ⟨rfl, samePc⟩ := wheelStart.addTimer_taken inRangeTimer taken
  generalize isExpire : UInt32.ofInt time + other.timer.time = expire at *
  have notYet : other.heap.length ∉ handedNodes (otherSeen ++ [.added other.heap.length expire]) := by
    intro handed
    rw [handedNodes_append] at handed
    rcases List.mem_append.mp handed with old | new
    · exact Nat.lt_irrefl _ (wheelStart.below _ (wheelStart.ledger.handed_added old))
    · contradiction
  have kept := ran.since (fun _ state seen => .added other.heap.length expire ∈ seen ∧
    shifts other otherSeen ≤ shifts state seen ∧ (other.heap.length ∈ handedNodes seen →
      shifts other otherSeen + time.toNat ≤ shifts state seen)) ?_ ?_ exec
  · exact kept.2.2 handed
  · refine ⟨by simp, ?_, fun handed => absurd handed notYet⟩
    rw [shifts, shifts, samePc]
    simp
  · intro later call state seen next shown isPrefix ran holds taken
    have ⟨added, grown, onTime⟩ := holds
    have inRangeNow : ∀ other ∈ _ ++ (later ++ [call]), other.InRange := fun other member =>
      inRange other (((List.prefix_append_right_inj _).mpr isPrefix).subset member)
    rw [← List.append_assoc] at inRangeNow
    have wheel := exec_wheel (fun other member => inRangeNow other (List.mem_append_left _ member)) ran
    have wheelNext := exec_wheel inRangeNow (ran.step taken)
    have moved := step_shifts wheel taken
    have addedNow := List.mem_append_left shown added
    refine ⟨addedNow, grown.trans moved, fun handed => ?_⟩
    rw [handedNodes_append] at handed
    rcases List.mem_append.mp handed with old | new
    · exact (onTime old).trans moved
    · have ⟨now, member⟩ := mem_handedNodes.mp new
      have isAdded := wheelNext.ledger.onTime _ now (List.mem_append_right _ member)
      have sameExpire := added_unique wheelNext.ledger.added addedNow isAdded
      have isNow := isExpire.trans (sameExpire.trans (handed_now taken member))
      exact shifts_of_expire inRangeTimer.1 inRangeTimer.2 (wheel_shifts wheelStart)
        (wheel_shifts wheelNext) (grown.trans moved) isNow

end

/-! ### The wheel and the clock -/

/-- The wheel runs, all updates are accounted for, and the clock is as many ticks from
the start as `expire_timer` has seen, modulo 2^32. -/
structure Paced (start : UInt64) (labels : List Label) (state : Clocked) (events : List Event) : Prop where
  wheelRun : TimeWheel.machine.Exec (wheelCalls labels) state.world (wheelEvents events)
  updates : ticks events = state.pending + (wheelEvents events).count .updated + busy state.world.pc
  clock : (state.currentPoint - start).toUInt32 = UInt32.ofNat (ticks events)

section

variable {start : UInt64} {labels : List Label} {state next : Clocked} {events shown : List Event}

/-- A step of the wheel that leaves the updates that were pending, less one if it
begins one. -/
private theorem Paced.onWheel (paced : Paced start labels state events) {label : Label} {call : Call}
    {pending : Nat} (isCall : label.calls = [call])
    (balance : state.pending = pending + if call = .timerUpdate then 1 else 0)
    (taken : Clock.onWheel state pending call = some (next, shown)) :
    Paced start (labels ++ [label]) next (events ++ shown) := by
  unfold Clock.onWheel at taken
  split at taken
  · rename_i world seen stepped
    obtain ⟨rfl, rfl⟩ := Prod.mk.inj (Option.some.inj taken)
    have begun := step_busy stepped
    refine ⟨?_, ?_, ?_⟩
    · rw [wheelCalls_append, wheelEvents_append, wheelEvents_map]
      have isCalls : wheelCalls [label] = [call] := (List.append_nil _).trans isCall
      rw [isCalls]
      exact paced.wheelRun.step stepped
    · rw [ticks_append, ticks_map, wheelEvents_append, wheelEvents_map, List.count_append, paced.updates,
        balance]
      simp only
      omega
    · rw [ticks_append, ticks_map]
      exact paced.clock
  · contradiction

private theorem toUInt32_sub_add (cp point start : UInt64) :
    (cp - start).toUInt32 = (point - start).toUInt32 + (cp - point).toUInt32 := by
  have same : cp - start = (point - start) + (cp - point) := by grind
  rw [← UInt64.toUInt32_add, ← same]

private theorem Paced.expireTimer (paced : Paced start labels state events) {cp : UInt64}
    (caughtUp : state.pending = 0) (idle : state.world.pc = .idle)
    (taken : Clock.expireTimer state cp = some (next, shown)) :
    Paced start (labels ++ [.expireTimer cp]) next (events ++ shown) := by
  have noCall : wheelCalls (labels ++ [.expireTimer cp]) = wheelCalls labels := by
    rw [wheelCalls_append]
    exact List.append_nil _
  unfold Clock.expireTimer at taken
  split at taken
  · simp only at taken
    split at taken
    · obtain ⟨rfl, rfl⟩ := Prod.mk.inj (Option.some.inj taken)
      have isTicks : ticks (events ++ [.ticked (cp - state.currentPoint).toUInt32.toNat]) =
          ticks events + (cp - state.currentPoint).toUInt32.toNat := ticks_append
      have sameEvents : wheelEvents (events ++ [.ticked (cp - state.currentPoint).toUInt32.toNat]) =
          wheelEvents events := by
        rw [wheelEvents_append]
        exact List.append_nil _
      refine ⟨?_, ?_, ?_⟩
      · rw [noCall, sameEvents]
        exact paced.wheelRun
      · rw [isTicks, sameEvents, paced.updates, caughtUp, idle]
        simp only [busy]
        omega
      · rw [isTicks, UInt32.ofNat_add, UInt32.ofNat_toNat, ← paced.clock]
        exact toUInt32_sub_add cp state.currentPoint start
    · contradiction
  · obtain ⟨rfl, rfl⟩ := Prod.mk.inj (Option.some.inj taken)
    rw [List.append_nil]
    exact ⟨noCall ▸ paced.wheelRun, paced.updates, paced.clock⟩

private theorem paced_start : Paced start [] (machine start).start [] where
  wheelRun := .start
  updates := rfl
  clock := by
    show (start - start).toUInt32 = 0
    rw [UInt64.sub_self]
    rfl

theorem exec_paced (exec : (machine start).Exec labels state events) : Paced start labels state events := by
  induction exec with
  | start => exact paced_start
  | @step labels state next events shown label before taken inductionHypothesis =>
      cases label with
      | expireTimer cp =>
          simp only [machine, step] at taken
          split at taken
          · rename_i ready
            exact inductionHypothesis.expireTimer ready.1 ready.2 taken
          · contradiction
      | turn =>
          simp only [machine, step] at taken
          split at taken
          · contradiction
          · rename_i pending isPending
            exact inductionHypothesis.onWheel rfl isPending taken
      | call asked =>
          simp only [machine, step] at taken
          split at taken
          · contradiction
          · rename_i notUpdate
            exact inductionHypothesis.onWheel rfl (by rw [if_neg notUpdate]; rfl) taken

/-- The delays of the calls of a run are what `add_timer` is meant for. -/
def InRange (labels : List Label) : Prop := ∀ asked ∈ wheelCalls labels, asked.InRange

instance (labels : List Label) : Decidable (InRange labels) := by
  unfold InRange
  infer_instance

/-- The wheel is behind the clock by the updates that are pending, and a timer is
handed over early by no more than those that were pending when it was added. -/
theorem exec_keepsPace {before after : List Label} {time : Int} {callback : Nat} {id : Int} {cancel : UInt8}
    {earlier : Clocked} {seen : List Event}
    (inRange : InRange (before ++ .call (.addTimer time callback id cancel) :: after))
    (reached : (machine start).Exec before earlier seen)
    (exec : (machine start).Exec (before ++ .call (.addTimer time callback id cancel) :: after) state events) :
    state.world.timer.time + UInt32.ofNat state.lag = (state.currentPoint - start).toUInt32 ∧
      (earlier.world.heap.length ∈ handedNodes (wheelEvents events) →
        ticks seen + time.toNat ≤ ticks events + earlier.lag) := by
  have isCalls : wheelCalls (before ++ .call (.addTimer time callback id cancel) :: after) =
      wheelCalls before ++ .addTimer time callback id cancel :: wheelCalls after := wheelCalls_append
  have ⟨wheelRun, updates, clock⟩ := exec_paced exec
  have ⟨wheelBefore, updatesBefore, _⟩ := exec_paced reached
  unfold InRange at inRange
  rw [isCalls] at wheelRun inRange
  constructor
  · have isTime : state.world.timer.time = UInt32.ofNat (shifts state.world (wheelEvents events)) := by
      rw [← UInt32.toNat_inj, wheel_shifts (exec_wheel inRange wheelRun)]
      exact UInt32.toNat_ofNat'.symm
    have balance : ticks events = shifts state.world (wheelEvents events) + state.lag := by
      rw [updates, busy_eq, shifts, Clocked.lag]
      omega
    rw [clock, balance, UInt32.ofNat_add, isTime]
  · intro handed
    have notEarly := handed_notEarly inRange wheelBefore wheelRun handed
    rw [shifts, shifts] at notEarly
    rw [updates, updatesBefore, busy_eq, busy_eq, Clocked.lag]
    omega

/-- Two ticks have passed; the timer is added before the first of the two updates and
comes due one tick after it. -/
theorem catchingUp_keepsPace :
    ∃ earlier seen state events, (machine 0).Exec [.expireTimer 2] earlier seen ∧
      (machine 0).Exec ([.expireTimer 2] ++ .call (.addTimer 1 0 0 0) ::
        [.turn, .call .run, .call .run]) state events ∧
      state.world.timer.time + UInt32.ofNat state.lag = (state.currentPoint - 0).toUInt32 ∧
      ticks seen + 1 ≤ ticks events + earlier.lag := by
  have reached := (machine 0).exec_of_isSome [.expireTimer 2] rfl
  have ran := (machine 0).exec_of_isSome ([.expireTimer 2] ++ .call (.addTimer 1 0 0 0) ::
    [.turn, .call .run, .call .run]) rfl
  have pace := exec_keepsPace (by decide) reached ran
  exact ⟨_, _, _, _, reached, ran, pace.1, pace.2 (by decide)⟩

end

end SimpleBasicComponents.TimeWheel.Clock
