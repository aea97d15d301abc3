import Mathlib.Algebra.Group.Nat.Defs
import Mathlib.Logic.Function.Basic
import SimpleBasicComponents.Semantics.Heap
import SimpleBasicComponents.Semantics.Loop
import SimpleBasicComponents.Semantics.Machine

/-!
The time wheel of `src/timewheel.{h,c}`.

Owns: the slots, `add_node`, `move_list` and `timer_shift` as the source
computes them, and a machine that takes `timer_update` apart where it lets go of
the lock. A slot's list is the list of its nodes in the order of their `next`
pointers. While the nodes of a slot are dispatched the lock is free, and timers
can be added, by their callbacks or by others; otherwise an update holds it.

`current` and `current_point` belong to `expire_timer`, which turns the clock's
ticks into calls of `timer_update`: see `Clock`.
-/

namespace SimpleBasicComponents.TimeWheel

open SimpleBasicComponents.Semantics

def timeNearShift : UInt32 := 8

def timeNear : UInt32 := 1 <<< timeNearShift

def timeLevelShift : UInt32 := 6

def timeLevel : UInt32 := 1 <<< timeLevelShift

def timeNearMask : UInt32 := timeNear - 1

def timeLevelMask : UInt32 := timeLevel - 1

structure TimerNode where
  expire : UInt32
  callback : Nat
  cancel : UInt8
  id : Int
deriving DecidableEq, Repr

/-- `near[idx]` or `t[level][idx]`. -/
inductive Slot where
  | near (idx : Nat)
  | t (level idx : Nat)
deriving DecidableEq, Repr

structure Timer where
  slots : Slot → List Addr
  time : UInt32

def timerCreateTimer : Timer := ⟨fun _ => [], 0⟩

def linkClear (timer : Timer) (slot : Slot) : List Addr × Timer :=
  (timer.slots slot, { timer with slots := Function.update timer.slots slot [] })

def link (timer : Timer) (slot : Slot) (node : Addr) : Timer :=
  { timer with slots := Function.update timer.slots slot (timer.slots slot ++ [node]) }

/-- The list `add_node` links a node with this `expire` to. -/
def slotFor (current expire : UInt32) : Slot :=
  let msec := expire - current
  if msec < timeNear then .near (expire &&& timeNearMask).toNat
  else if msec < 1 <<< (timeNearShift + timeLevelShift) then
    .t 0 ((expire >>> timeNearShift) &&& timeLevelMask).toNat
  else if msec < 1 <<< (timeNearShift + 2 * timeLevelShift) then
    .t 1 ((expire >>> (timeNearShift + timeLevelShift)) &&& timeLevelMask).toNat
  else if msec < 1 <<< (timeNearShift + 3 * timeLevelShift) then
    .t 2 ((expire >>> (timeNearShift + 2 * timeLevelShift)) &&& timeLevelMask).toNat
  else .t 3 ((expire >>> (timeNearShift + 3 * timeLevelShift)) &&& timeLevelMask).toNat

def addNode (heap : Heap TimerNode) (timer : Timer) (addr : Addr) : Option Timer :=
  match heap.load addr with
  | some node => some (link timer (slotFor timer.time node.expire) addr)
  | none => none

/-- The loop of `move_list` over the nodes taken out of the list. -/
def addNodes (heap : Heap TimerNode) : List Addr → Timer → Option Timer
  | [], timer => some timer
  | addr :: rest, timer =>
      match addNode heap timer addr with
      | some timer => addNodes heap rest timer
      | none => none

def moveList (heap : Heap TimerNode) (timer : Timer) (level idx : Nat) : Option Timer :=
  let (current, timer) := linkClear timer (.t level idx)
  addNodes heap current timer

/-- One turn of the loop of `timer_shift`; the state is `mask`, `time`, `i`.
`mask` is an `int`. -/
def timerShiftTurn (ct : UInt32) : Nat × UInt32 × Nat → Turn (Nat × UInt32 × Nat) (Option (Nat × Nat))
  | (mask, time, i) =>
      if ct &&& UInt32.ofNat (mask - 1) = 0 then
        let idx := (time &&& timeLevelMask).toNat
        if idx ≠ 0 then .leave (some (i, idx))
        else if mask * 64 < 2 ^ 31 then .again (mask * 64, time >>> timeLevelShift, i + 1)
        else .fault
      else .leave none

/-- Which `t[i][idx]`, if any, the shift to the time `ct` moves. The loop has
faulted before it is out of turns. -/
def shiftedList (ct : UInt32) : Option (Option (Nat × Nat)) :=
  if ct = 0 then some (some (3, 0)) else loop (timerShiftTurn ct) 5 (256, ct >>> timeNearShift, 0)

def timerShift (heap : Heap TimerNode) (timer : Timer) : Option Timer :=
  let ct := timer.time + 1
  let timer := { timer with time := ct }
  match shiftedList ct with
  | some (some (i, idx)) => moveList heap timer i idx
  | some none => some timer
  | none => none

/-! ### Calls -/

/-- The two `timer_execute`s of an update. -/
inductive Phase where
  | beforeShift
  | afterShift
deriving DecidableEq, Repr

/-- Where `timer_update` is: not called, at the head of the loop of
`timer_execute`, with the lock, or in `dispatch_list`, without. -/
inductive Pc where
  | idle
  | executing (phase : Phase)
  | dispatching (phase : Phase) (current : List Addr)
deriving DecidableEq, Repr

structure World where
  heap : Heap TimerNode
  timer : Timer
  pc : Pc

/-- `cancel` is what `malloc` leaves in a new node. -/
inductive Call where
  | addTimer (time : Int) (callback : Nat) (id : Int) (cancel : UInt8)
  | delTimer (node : Addr)
  | timerUpdate
  | run
deriving DecidableEq, Repr

inductive Event where
  | added (node : Addr) (expire : UInt32)
  | handed (node : Addr) (time : UInt32)
  | called (node : Addr)
  | freed (node : Addr)
  | updated
deriving DecidableEq, Repr

def addTimer (world : World) (time : Int) (callback : Nat) (id : Int) (cancel : UInt8) :
    Option (World × List Event) :=
  let addr := world.heap.length
  let node : TimerNode := ⟨UInt32.ofInt time + world.timer.time, callback, cancel, id⟩
  let heap := world.heap.alloc node
  if time ≤ 0 then
    match heap.free addr with
    | some heap => some ({ world with heap }, [.called addr, .freed addr])
    | none => none
  else
    match addNode heap world.timer addr with
    | some timer => some ({ world with heap, timer }, [.added addr node.expire])
    | none => none

def delTimer (world : World) (addr : Addr) : Option (World × List Event) :=
  match world.heap.load addr with
  | some node =>
      match world.heap.store addr { node with cancel := 1 } with
      | some heap => some ({ world with heap }, [])
      | none => none
  | none => none

/-- One turn of `dispatch_list`. -/
def dispatch (world : World) (addr : Addr) : Option (World × List Event) :=
  match world.heap.load addr, world.heap.free addr with
  | some node, some heap =>
      some ({ world with heap }, if node.cancel = 0 then [.called addr, .freed addr] else [.freed addr])
  | _, _ => none

/-- The next step of `timer_update`. -/
def runUpdate (world : World) : Option (World × List Event) :=
  let idx := (world.timer.time &&& timeNearMask).toNat
  match world.pc with
  | .idle => none
  | .dispatching phase [] => some ({ world with pc := .executing phase }, [])
  | .dispatching phase (addr :: rest) => dispatch { world with pc := .dispatching phase rest } addr
  | .executing phase =>
      if world.timer.slots (.near idx) ≠ [] then
        let (current, timer) := linkClear world.timer (.near idx)
        some ({ world with timer, pc := .dispatching phase current },
          current.map fun addr => .handed addr timer.time)
      else
        match phase with
        | .beforeShift =>
            match timerShift world.heap world.timer with
            | some timer => some ({ world with timer, pc := .executing .afterShift }, [])
            | none => none
        | .afterShift => some ({ world with pc := .idle }, [.updated])

/-- An update that holds the lock keeps everybody else waiting. -/
def Pc.lockFree : Pc → Bool
  | .executing _ => false
  | .idle => true
  | .dispatching _ _ => true

def step (world : World) : Call → Option (World × List Event)
  | .addTimer time callback id cancel =>
      if world.pc.lockFree then addTimer world time callback id cancel else none
  | .delTimer node => delTimer world node
  | .timerUpdate =>
      if world.pc = .idle then some ({ world with pc := .executing .beforeShift }, []) else none
  | .run => runUpdate world

def machine : Machine World Call Event where
  start := ⟨[], timerCreateTimer, .idle⟩
  step := step

end SimpleBasicComponents.TimeWheel
