import Mathlib.Algebra.Group.Nat.Defs
import Mathlib.Data.Nat.Basic
import SimpleBasicComponents.Semantics.Machine

/-!
The array lock-free queue of `util/ArrayLockFreeQueue.{h,cpp}` as a machine.

Owns: `calIndex`, the queue's fields, the control points of `push` and `pop`
between two shared accesses, and one step of any thread. Every load of an
index, every CAS, every slot access and every counter update is one atomic
step, in source order; tests on loaded values belong to the load before them.

The two ghost counters `pushes` and `pops` number the successful CASes. They
are carried by the claiming thread to its slot access and are read by no step.
-/

namespace SimpleBasicComponents.LockFreeQueue

open SimpleBasicComponents.Semantics

/-- `unsigned long`. -/
abbrev QueueInt := UInt64

/-- `index + Q_SIZE` wraps before the remainder is taken. -/
def calIndex (qSize index : QueueInt) : QueueInt := (index + qSize) % qSize

theorem calIndex_toNat (qSize index : QueueInt) :
    (calIndex qSize index).toNat = (index.toNat + qSize.toNat) % 2 ^ 64 % qSize.toNat := by
  simp [calIndex]

/-- Away from the end of the index range the slot is the index modulo `Q_SIZE`. -/
theorem calIndex_toNat_of_lt {qSize index : QueueInt}
    (noWrap : index.toNat + qSize.toNat < 2 ^ 64) :
    (calIndex qSize index).toNat = index.toNat % qSize.toNat := by
  rw [calIndex_toNat, Nat.mod_eq_of_lt noWrap, Nat.add_mod_right]

theorem pred_toNat {qSize : QueueInt} (two : 2 ≤ qSize) : (qSize - 1).toNat = qSize.toNat - 1 := by
  have isTwo : 2 ≤ qSize.toNat := UInt64.le_iff_toNat_le.mp two
  have notZero : 1 ≤ qSize := UInt64.le_iff_toNat_le.mpr (Nat.le_trans (by decide) isTwo)
  rw [UInt64.toNat_sub_of_le _ _ notZero]
  rfl

structure ArrayLockFreeQueue (T : Type*) where
  dataList : QueueInt → T
  mCount : QueueInt
  mReadIndex : QueueInt
  mWriteIndex : QueueInt

namespace ArrayLockFreeQueue

variable {T : Type*}

/-- The constructor; `dataList` is value-initialised. -/
def create [Inhabited T] : ArrayLockFreeQueue T where
  dataList := fun _ => default
  mCount := 0
  mReadIndex := 0
  mWriteIndex := 0

def size (queue : ArrayLockFreeQueue T) : QueueInt := queue.mCount

end ArrayLockFreeQueue

/-- Where a thread stands, with the locals it still needs. -/
inductive Thread (T : Type*) where
  | idle
  | pushLoadRead (item : T)
  | pushLoadWrite (item : T) (curReadIndex : QueueInt)
  | pushCas (item : T) (curReadIndex curWriteIndex : QueueInt)
  | pushStore (item : T) (curWriteIndex : QueueInt) (ticket : Nat)
  | pushAdd
  | popLoadRead
  | popLoadWrite (curReadIndex : QueueInt)
  | popCas (curReadIndex curWriteIndex : QueueInt)
  | popFetch (curReadIndex : QueueInt) (ticket : Nat)
  | popSub (item : T)

/-- A thread enters `push` or `pop`, or takes the next step of its call. -/
inductive Label (Tid T : Type*) where
  | push (tid : Tid) (item : T)
  | pop (tid : Tid)
  | advance (tid : Tid)

/-- What a step shows. A claim is a successful CAS; `ticket` is its ordinal. -/
inductive Event (Tid T : Type*) where
  | pushClaim (tid : Tid) (ticket : Nat) (index : QueueInt) (item : T)
  | pushStore (tid : Tid) (ticket : Nat) (index : QueueInt) (item : T)
  | pushReturn (tid : Tid) (accepted : Bool)
  | popClaim (tid : Tid) (ticket : Nat) (index : QueueInt)
  | popFetch (tid : Tid) (ticket : Nat) (index : QueueInt) (item : T)
  | popReturn (tid : Tid) (item : Option T)
deriving DecidableEq

structure State (Tid T : Type*) where
  queue : ArrayLockFreeQueue T
  threads : Tid → Thread T
  pushes : Nat
  pops : Nat

section Step

variable {Tid T : Type*} [DecidableEq Tid]

namespace State

/-- Move one thread to a control point. -/
def goto (state : State Tid T) (tid : Tid) (point : Thread T) : State Tid T :=
  { state with threads := Function.update state.threads tid point }

@[simp] theorem goto_queue (state : State Tid T) (tid : Tid) (point : Thread T) :
    (state.goto tid point).queue = state.queue := rfl

@[simp] theorem goto_pushes (state : State Tid T) (tid : Tid) (point : Thread T) :
    (state.goto tid point).pushes = state.pushes := rfl

@[simp] theorem goto_pops (state : State Tid T) (tid : Tid) (point : Thread T) :
    (state.goto tid point).pops = state.pops := rfl

theorem goto_threads (state : State Tid T) (tid other : Tid) (point : Thread T) :
    (state.goto tid point).threads other = if other = tid then point else state.threads other := by
  simp [goto, Function.update_apply]

/-- The CAS of `push` went through. -/
def claimWrite (state : State Tid T) (curWriteIndex : QueueInt) : State Tid T :=
  { state with
    queue := { state.queue with mWriteIndex := curWriteIndex + 1 }
    pushes := state.pushes + 1 }

/-- The CAS of `pop` went through. -/
def claimRead (state : State Tid T) (curReadIndex : QueueInt) : State Tid T :=
  { state with
    queue := { state.queue with mReadIndex := curReadIndex + 1 }
    pops := state.pops + 1 }

def storeSlot (state : State Tid T) (slot : QueueInt) (item : T) : State Tid T :=
  { state with
    queue := { state.queue with dataList := Function.update state.queue.dataList slot item } }

def setCount (state : State Tid T) (count : QueueInt) : State Tid T :=
  { state with queue := { state.queue with mCount := count } }

end State

variable (qSize : QueueInt)

/-- The next shared access of thread `tid`, with the local work after it. -/
def advance (state : State Tid T) (tid : Tid) : Option (State Tid T × List (Event Tid T)) :=
  match state.threads tid with
  | .idle => none
  | .pushLoadRead item =>
      some (state.goto tid (.pushLoadWrite item state.queue.mReadIndex), [])
  | .pushLoadWrite item curReadIndex =>
      let curWriteIndex := state.queue.mWriteIndex
      if calIndex qSize curReadIndex = calIndex qSize (curWriteIndex + 1) then
        some (state.goto tid .idle, [.pushReturn tid false])
      else
        some (state.goto tid (.pushCas item curReadIndex curWriteIndex), [])
  | .pushCas item _ curWriteIndex =>
      if state.queue.mWriteIndex = curWriteIndex then
        some ((state.claimWrite curWriteIndex).goto tid
            (.pushStore item curWriteIndex state.pushes),
          [.pushClaim tid state.pushes curWriteIndex item])
      else
        some (state.goto tid (.pushLoadRead item), [])
  | .pushStore item curWriteIndex ticket =>
      some ((state.storeSlot (calIndex qSize curWriteIndex) item).goto tid .pushAdd,
        [.pushStore tid ticket curWriteIndex item])
  | .pushAdd =>
      some ((state.setCount (state.queue.mCount + 1)).goto tid .idle, [.pushReturn tid true])
  | .popLoadRead =>
      some (state.goto tid (.popLoadWrite state.queue.mReadIndex), [])
  | .popLoadWrite curReadIndex =>
      let curWriteIndex := state.queue.mWriteIndex
      if calIndex qSize curReadIndex = calIndex qSize curWriteIndex then
        some (state.goto tid .idle, [.popReturn tid none])
      else
        some (state.goto tid (.popCas curReadIndex curWriteIndex), [])
  | .popCas curReadIndex _ =>
      if state.queue.mReadIndex = curReadIndex then
        some ((state.claimRead curReadIndex).goto tid (.popFetch curReadIndex state.pops),
          [.popClaim tid state.pops curReadIndex])
      else
        some (state.goto tid .popLoadRead, [])
  | .popFetch curReadIndex ticket =>
      let item := state.queue.dataList (calIndex qSize curReadIndex)
      some (state.goto tid (.popSub item), [.popFetch tid ticket curReadIndex item])
  | .popSub item =>
      some ((state.setCount (state.queue.mCount - 1)).goto tid .idle, [.popReturn tid (some item)])

def step (state : State Tid T) : Label Tid T → Option (State Tid T × List (Event Tid T))
  | .push tid item =>
      match state.threads tid with
      | .idle => some (state.goto tid (.pushLoadRead item), [])
      | _ => none
  | .pop tid =>
      match state.threads tid with
      | .idle => some (state.goto tid .popLoadRead, [])
      | _ => none
  | .advance tid => advance qSize state tid

/-- All threads idle over a fresh queue. -/
def machine [Inhabited T] : Machine (State Tid T) (Label Tid T) (Event Tid T) where
  start := ⟨.create, fun _ => .idle, 0, 0⟩
  step := step qSize

/-! ### What a step can do -/

/-- The steps of `step`, one constructor for each way a step can go. -/
inductive Step (state : State Tid T) :
    Label Tid T → State Tid T → List (Event Tid T) → Prop
  | callPush {tid item} (at_ : state.threads tid = .idle) :
      Step state (.push tid item) (state.goto tid (.pushLoadRead item)) []
  | callPop {tid} (at_ : state.threads tid = .idle) :
      Step state (.pop tid) (state.goto tid .popLoadRead) []
  | pushLoadRead {tid item} (at_ : state.threads tid = .pushLoadRead item) :
      Step state (.advance tid)
        (state.goto tid (.pushLoadWrite item state.queue.mReadIndex)) []
  | pushFull {tid item r} (at_ : state.threads tid = .pushLoadWrite item r)
      (full : calIndex qSize r = calIndex qSize (state.queue.mWriteIndex + 1)) :
      Step state (.advance tid) (state.goto tid .idle) [.pushReturn tid false]
  | pushLoadWrite {tid item r} (at_ : state.threads tid = .pushLoadWrite item r)
      (room : calIndex qSize r ≠ calIndex qSize (state.queue.mWriteIndex + 1)) :
      Step state (.advance tid) (state.goto tid (.pushCas item r state.queue.mWriteIndex)) []
  | pushClaim {tid item r} (at_ : state.threads tid = .pushCas item r state.queue.mWriteIndex) :
      Step state (.advance tid)
        ((state.claimWrite state.queue.mWriteIndex).goto tid
          (.pushStore item state.queue.mWriteIndex state.pushes))
        [.pushClaim tid state.pushes state.queue.mWriteIndex item]
  | pushRetry {tid item r w} (at_ : state.threads tid = .pushCas item r w)
      (lost : state.queue.mWriteIndex ≠ w) :
      Step state (.advance tid) (state.goto tid (.pushLoadRead item)) []
  | pushStore {tid item w ticket} (at_ : state.threads tid = .pushStore item w ticket) :
      Step state (.advance tid)
        ((state.storeSlot (calIndex qSize w) item).goto tid .pushAdd)
        [.pushStore tid ticket w item]
  | pushAdd {tid} (at_ : state.threads tid = .pushAdd) :
      Step state (.advance tid) ((state.setCount (state.queue.mCount + 1)).goto tid .idle)
        [.pushReturn tid true]
  | popLoadRead {tid} (at_ : state.threads tid = .popLoadRead) :
      Step state (.advance tid) (state.goto tid (.popLoadWrite state.queue.mReadIndex)) []
  | popEmpty {tid r} (at_ : state.threads tid = .popLoadWrite r)
      (empty : calIndex qSize r = calIndex qSize state.queue.mWriteIndex) :
      Step state (.advance tid) (state.goto tid .idle) [.popReturn tid none]
  | popLoadWrite {tid r} (at_ : state.threads tid = .popLoadWrite r)
      (stored : calIndex qSize r ≠ calIndex qSize state.queue.mWriteIndex) :
      Step state (.advance tid) (state.goto tid (.popCas r state.queue.mWriteIndex)) []
  | popClaim {tid w} (at_ : state.threads tid = .popCas state.queue.mReadIndex w) :
      Step state (.advance tid)
        ((state.claimRead state.queue.mReadIndex).goto tid
          (.popFetch state.queue.mReadIndex state.pops))
        [.popClaim tid state.pops state.queue.mReadIndex]
  | popRetry {tid r w} (at_ : state.threads tid = .popCas r w)
      (lost : state.queue.mReadIndex ≠ r) :
      Step state (.advance tid) (state.goto tid .popLoadRead) []
  | popFetch {tid r ticket} (at_ : state.threads tid = .popFetch r ticket) :
      Step state (.advance tid)
        (state.goto tid (.popSub (state.queue.dataList (calIndex qSize r))))
        [.popFetch tid ticket r (state.queue.dataList (calIndex qSize r))]
  | popSub {tid item} (at_ : state.threads tid = .popSub item) :
      Step state (.advance tid) ((state.setCount (state.queue.mCount - 1)).goto tid .idle)
        [.popReturn tid (some item)]

/-- The inversion of `step`, used by every invariant below. -/
theorem step_cases {state next : State Tid T} {label : Label Tid T}
    {shown : List (Event Tid T)} (taken : step qSize state label = some (next, shown)) :
    Step qSize state label next shown := by
  cases label with
  | push tid item =>
      simp only [step] at taken
      split at taken
      · rename_i at_
        obtain ⟨rfl, rfl⟩ := by simpa using taken
        exact .callPush at_
      · contradiction
  | pop tid =>
      simp only [step] at taken
      split at taken
      · rename_i at_
        obtain ⟨rfl, rfl⟩ := by simpa using taken
        exact .callPop at_
      · contradiction
  | advance tid =>
      cases at_ : state.threads tid <;> simp only [step, advance, at_] at taken
      case idle => contradiction
      case pushLoadWrite item r =>
        split at taken <;> obtain ⟨rfl, rfl⟩ := by simpa using taken
        · exact .pushFull at_ ‹_›
        · exact .pushLoadWrite at_ ‹_›
      case pushCas item r w =>
        split at taken <;> obtain ⟨rfl, rfl⟩ := by simpa using taken
        · subst w
          exact .pushClaim at_
        · exact .pushRetry at_ ‹_›
      case popLoadWrite r =>
        split at taken <;> obtain ⟨rfl, rfl⟩ := by simpa using taken
        · exact .popEmpty at_ ‹_›
        · exact .popLoadWrite at_ ‹_›
      case popCas r w =>
        split at taken <;> obtain ⟨rfl, rfl⟩ := by simpa using taken
        · subst r
          exact .popClaim at_
        · exact .popRetry at_ ‹_›
      all_goals obtain ⟨rfl, rfl⟩ := by simpa using taken
      case pushLoadRead item => exact .pushLoadRead at_
      case pushStore item w ticket => exact .pushStore at_
      case pushAdd => exact .pushAdd at_
      case popLoadRead => exact .popLoadRead at_
      case popFetch r ticket => exact .popFetch at_
      case popSub item => exact .popSub at_

end Step

end SimpleBasicComponents.LockFreeQueue
