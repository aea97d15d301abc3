import Mathlib.Algebra.Group.Int.Defs
import Mathlib.Algebra.Group.Nat.Defs
import SimpleBasicComponents.Semantics.Machine
import SimpleBasicComponents.Semantics.SortedSet

/-!
The ordered-set timer of `src/timer.cpp`.

Owns: `operator <` on the nodes, the methods of `Timer` as the source computes
them, and a machine whose labels are the calls and the returns of callbacks.

`std::set` is a list sorted under `operator <`, and an iterator is the node it
points to. A callback is known by a value of the type `Func`; what it does is a
stretch of the run between the call of `check_task` that starts it and its
return. `running` holds the iterators of the `check_task` calls that have not
returned, the innermost first. Erasing an iterator whose node is gone is a fault.
What is printed is left out.
-/

namespace SimpleBasicComponents.SetTimer

open SimpleBasicComponents.Semantics

structure TaskNodeBase where
  id : UInt64
  timeout : Int64
deriving DecidableEq, Repr

structure TaskNode (Func : Type*) extends TaskNodeBase where
  func : Func
deriving DecidableEq, Repr

/-- `operator <`. -/
def less (lhs rhs : TaskNodeBase) : Bool :=
  if lhs.timeout < rhs.timeout then true
  else if lhs.timeout > rhs.timeout then false
  else if lhs.id < rhs.id then true else false

/-- `id` is the static counter. -/
structure Timer (Func : Type*) where
  id : UInt64
  taskSets : List (TaskNode Func)
deriving DecidableEq, Repr

variable {Func : Type*}

abbrev handle (task : TaskNode Func) : TaskNodeBase := task.toTaskNodeBase

/-- `timeout + get_tick()` is a `time_t`. The source has no meaning where it is not. -/
def SumFits (timeout tick : Int64) : Prop :=
  -2 ^ 63 ≤ timeout.toInt + tick.toInt ∧ timeout.toInt + tick.toInt < 2 ^ 63

instance (timeout tick : Int64) : Decidable (SumFits timeout tick) := by
  unfold SumFits
  infer_instance

/-- The timer and the new node; the caller gets its handle. `tick` is `get_tick()`. The sum is
that of the source where `SumFits`. -/
def addTask (timer : Timer Func) (timeout : Int64) (func : Func) (tick : Int64) :
    Timer Func × TaskNode Func :=
  let task : TaskNode Func := { id := timer.id, timeout := timeout + tick, func := func }
  ({ id := timer.id + 1, taskSets := (SortedSet.insert less handle task timer.taskSets).1 }, task)

def delTask (timer : Timer Func) (task : TaskNodeBase) : Timer Func × Bool :=
  match SortedSet.find less handle task timer.taskSets with
  | some it =>
      ({ timer with taskSets := SortedSet.erase less handle (handle it) timer.taskSets }, true)
  | none => (timer, false)

/-- The node whose callback `check_task` calls, if it calls one. -/
def dueTask (timer : Timer Func) (tick : Int64) : Option (TaskNode Func) :=
  match timer.taskSets with
  | [] => none
  | it :: _ => if it.timeout ≤ tick then some it else none

/-- `task_sets.erase(it)`. -/
def eraseTask (timer : Timer Func) (it : TaskNode Func) : Option (Timer Func) :=
  if SortedSet.find less handle (handle it) timer.taskSets = none then none
  else some { timer with taskSets := SortedSet.erase less handle (handle it) timer.taskSets }

/-- `it->timeout` cannot be read when `it` is `end()`. -/
def timeToSleep (timer : Timer Func) (tick : Int64) : Option Int64 :=
  match timer.taskSets with
  | [] => none
  | it :: _ =>
      let err := it.timeout - tick
      some (if err < 0 then -1 else err)

/-! ### Calls -/

structure Session (Func : Type*) where
  timer : Timer Func
  running : List (TaskNode Func)
deriving DecidableEq, Repr

inductive Call (Func : Type*) where
  | add (timeout : Int64) (func : Func) (tick : Int64)
  | del (task : TaskNodeBase)
  | check (tick : Int64)
  /-- The innermost callback returns, and `check_task` goes on. -/
  | finish
deriving DecidableEq, Repr

inductive Event (Func : Type*) where
  | added (timeout : Int64) (func : Func) (tick : Int64) (task : TaskNode Func)
  | deleted (task : TaskNodeBase) (result : Bool)
  | idle (tick : Int64)
  | fired (task : TaskNode Func) (tick : Int64)
  | removed (task : TaskNode Func)
deriving DecidableEq, Repr

def step (session : Session Func) : Call Func → Option (Session Func × List (Event Func))
  | .add timeout func tick =>
      if SumFits timeout tick then
        let (timer, task) := addTask session.timer timeout func tick
        some ({ session with timer := timer }, [.added timeout func tick task])
      else none
  | .del task =>
      let (timer, result) := delTask session.timer task
      some ({ session with timer := timer }, [.deleted task result])
  | .check tick =>
      match dueTask session.timer tick with
      | some it => some ({ session with running := it :: session.running }, [.fired it tick])
      | none => some (session, [.idle tick])
  | .finish =>
      match session.running with
      | [] => none
      | it :: outer =>
          match eraseTask session.timer it with
          | some timer => some (⟨timer, outer⟩, [.removed it])
          | none => none

def machine (Func : Type*) : Machine (Session Func) (Call Func) (Event Func) where
  start := ⟨⟨0, []⟩, []⟩
  step := step

end SimpleBasicComponents.SetTimer
