import Mathlib.Algebra.Group.Int.Defs
import Mathlib.Data.Fintype.Basic
import SimpleBasicComponents.Semantics.Machine

/-!
The thread pool of `pool/ZeroThreadPool.{h,cpp}` as a machine.

Owns: the pool's fields, the control points of its workers (`thread_routine`
and `get_task`) and of its clients (`exec`, `wait_for_all_done`, `stop`), and
one atomic step of any of them. `_mutex` is held by at most one thread; a wait
on `_condition` gives the mutex back and sleeps until a notification or, where
the source passes a timeout, until that elapses.

`_atomic_int` is only ever incremented and printing is not modelled.
-/

namespace SimpleBasicComponents.ThreadPool

open SimpleBasicComponents.Semantics

/-- The macro `NOW`. -/
def now : Int := 1

def threadNumMin : Nat := 5

/-- `TaskFunc`; the function object is known by a number. -/
structure TaskFunc where
  func : Nat
  expire : Int
deriving DecidableEq, Repr

/-- The deadline `exec` computes from its `timeout`. -/
def taskExpire (timeout : Int) : Int := if timeout = 0 then 0 else now + timeout

/-- A `time_t`. The source has no meaning where `NOW + timeout` is none. -/
def IsTime (value : Int) : Prop := -2 ^ 63 ≤ value ∧ value < 2 ^ 63

instance (value : Int) : Decidable (IsTime value) := by
  unfold IsTime
  infer_instance

/-- `thread_routine` drops an expired task without running it. -/
def TaskFunc.expired (task : TaskFunc) : Bool := task.expire ≠ 0 ∧ task.expire ≤ now

/-- Where a worker stands in `thread_routine` and `get_task`. -/
inductive Worker where
  /-- About to test `isTerminate()`. -/
  | loop
  /-- About to lock `_mutex`. -/
  | lock
  /-- Holding `_mutex`, about to test the queue or the predicate of the wait. -/
  | test
  /-- In `_condition.wait`. -/
  | asleep
  /-- Notified, about to lock `_mutex` again. -/
  | woken
  /-- Holding `_mutex`, past the wait. -/
  | take
  | running (task : TaskFunc)
  | exited
deriving DecidableEq, Repr

/-- Where a client stands. -/
inductive Client where
  | idle
  | execLock (task : TaskFunc)
  | execPush (task : TaskFunc)
  | execNotify (task : TaskFunc)
  | execUnlock (task : TaskFunc)
  | waitLock (millsecond : Int)
  /-- Holding `_mutex`, about to test whether the queue is empty. -/
  | waitTest (millsecond : Int)
  | waitAsleep (millsecond : Int)
  | waitWoken (millsecond : Int)
  /-- The timeout of `wait_for` has elapsed. -/
  | waitExpired
  | stopLock
  | stopSet
  | stopUnlock
  /-- About to join `_threads[i]`. -/
  | stopJoin (i : Nat)
  /-- A null entry of `_threads` was dereferenced. -/
  | crashed
deriving DecidableEq, Repr

/-- The thread that holds `_mutex`. -/
inductive Owner (workers clients : Nat) where
  | worker (w : Fin workers)
  | client (c : Fin clients)
deriving DecidableEq

structure ZeroThreadPool (workers clients : Nat) where
  taskQ : List TaskFunc
  threads : List (Option (Fin workers))
  mutex : Option (Owner workers clients)
  bTerminate : Bool
  worker : Fin workers → Worker
  client : Fin clients → Client

inductive Label (workers clients : Nat) where
  | exec (c : Fin clients) (timeout : Int) (func : Nat)
  | waitForAllDone (c : Fin clients) (millsecond : Int)
  | stop (c : Fin clients)
  /-- The next step of a client; `wake` is the sleeper that a `notify_one` picks. -/
  | client (c : Fin clients) (wake : Option (Owner workers clients))
  | timeout (c : Fin clients)
  | worker (w : Fin workers)
deriving DecidableEq

inductive Event (workers clients : Nat) where
  | execReturn (c : Fin clients) (task : TaskFunc)
  | waitCall (c : Fin clients)
  | waitReturn (c : Fin clients)
  | stopReturn (c : Fin clients)
  | taskStart (w : Fin workers) (task : TaskFunc)
  | taskDone (w : Fin workers) (task : TaskFunc)
  | joined (w : Fin workers)
  | nullDereference (i : Nat)
deriving DecidableEq

variable {workers clients : Nat}

namespace ZeroThreadPool

/-- The constructor: the number of workers is at least `THREAD_NUM_MIN`. -/
def threadCount (num : Nat) : Nat := if num > threadNumMin then num else threadNumMin

/-- The state after the constructor has started the threads. `_threads` is
first resized, to null pointers, and then appended to. -/
def create (workers clients : Nat) : ZeroThreadPool workers clients where
  taskQ := []
  threads := List.replicate workers none ++ (List.finRange workers).map some
  mutex := none
  bTerminate := false
  worker := fun _ => .loop
  client := fun _ => .idle

def setWorker (pool : ZeroThreadPool workers clients) (w : Fin workers) (point : Worker) :
    ZeroThreadPool workers clients :=
  { pool with worker := Function.update pool.worker w point }

def setClient (pool : ZeroThreadPool workers clients) (c : Fin clients) (point : Client) :
    ZeroThreadPool workers clients :=
  { pool with client := Function.update pool.client c point }

def acquire (pool : ZeroThreadPool workers clients) (owner : Owner workers clients) :
    ZeroThreadPool workers clients :=
  { pool with mutex := some owner }

def release (pool : ZeroThreadPool workers clients) : ZeroThreadPool workers clients :=
  { pool with mutex := none }

def push (pool : ZeroThreadPool workers clients) (task : TaskFunc) :
    ZeroThreadPool workers clients :=
  { pool with taskQ := pool.taskQ ++ [task] }

/-- Whether a thread sleeps on `_condition`. -/
def sleeps (pool : ZeroThreadPool workers clients) : Owner workers clients → Bool
  | .worker w => pool.worker w = .asleep
  | .client c =>
      match pool.client c with
      | .waitAsleep _ => true
      | _ => false

def wakeWorker : Worker → Worker
  | .asleep => .woken
  | point => point

def wakeClient : Client → Client
  | .waitAsleep millsecond => .waitWoken millsecond
  | point => point

/-- `_condition.notify_one()`, with the sleeper it picks. -/
def notifyOne (pool : ZeroThreadPool workers clients) :
    Option (Owner workers clients) → Option (ZeroThreadPool workers clients)
  | none =>
      if (∀ w, pool.sleeps (.worker w) = false) ∧ ∀ c, pool.sleeps (.client c) = false then
        some pool
      else none
  | some (.worker w) =>
      if pool.sleeps (.worker w) then some (pool.setWorker w .woken) else none
  | some (.client c) =>
      if pool.sleeps (.client c) then some (pool.setClient c (wakeClient (pool.client c)))
      else none

/-- `_condition.notify_all()`. -/
def notifyAll (pool : ZeroThreadPool workers clients) : ZeroThreadPool workers clients :=
  { pool with
    worker := fun w => wakeWorker (pool.worker w)
    client := fun c => wakeClient (pool.client c) }

/-! ### Workers -/

/-- The next step of a worker. The first test of `get_task` and the predicate
of its wait come to the same test. -/
def workerStep (pool : ZeroThreadPool workers clients) (w : Fin workers) :
    Option (ZeroThreadPool workers clients × List (Event workers clients)) :=
  match pool.worker w with
  | .loop =>
      if pool.bTerminate then some (pool.setWorker w .exited, [])
      else some (pool.setWorker w .lock, [])
  | .lock | .woken =>
      match pool.mutex with
      | none => some ((pool.acquire (.worker w)).setWorker w .test, [])
      | some _ => none
  | .test =>
      if pool.bTerminate || !pool.taskQ.isEmpty then some (pool.setWorker w .take, [])
      else some (pool.release.setWorker w .asleep, [])
  | .take =>
      if pool.bTerminate then some (pool.release.setWorker w .loop, [])
      else
        match pool.taskQ with
        | [] => some (pool.release.setWorker w .loop, [])
        | task :: rest =>
            some (({ pool with taskQ := rest }).release.setWorker w (.running task),
              [.taskStart w task])
  | .running task =>
      if task.expired then some (pool.setWorker w .loop, [])
      else some (pool.setWorker w .loop, [.taskDone w task])
  | .asleep | .exited => none

/-! ### Clients -/

/-- Lock `_mutex` and go on at `point`, if it is free. -/
def clientLock (pool : ZeroThreadPool workers clients) (c : Fin clients) (point : Client) :
    Option (ZeroThreadPool workers clients × List (Event workers clients)) :=
  match pool.mutex with
  | none => some ((pool.acquire (.client c)).setClient c point, [])
  | some _ => none

/-- The next step of a client. -/
def clientStep (pool : ZeroThreadPool workers clients) (c : Fin clients)
    (wake : Option (Owner workers clients)) :
    Option (ZeroThreadPool workers clients × List (Event workers clients)) :=
  match pool.client c with
  | .execLock task => pool.clientLock c (.execPush task)
  | .execPush task => some ((pool.push task).setClient c (.execNotify task), [])
  | .execNotify task =>
      -- 只有任务队列为空的情况再去notify
      if pool.taskQ.isEmpty then
        (pool.notifyOne wake).map fun notified => (notified.setClient c (.execUnlock task), [])
      else some (pool.setClient c (.execUnlock task), [])
  | .execUnlock task => some (pool.release.setClient c .idle, [.execReturn c task])
  | .waitLock millsecond | .waitWoken millsecond => pool.clientLock c (.waitTest millsecond)
  | .waitTest millsecond =>
      if pool.taskQ.isEmpty then some (pool.release.setClient c .idle, [.waitReturn c])
      else some (pool.release.setClient c (.waitAsleep millsecond), [])
  | .waitExpired =>
      match pool.mutex with
      | none => some (pool.setClient c .idle, [.waitReturn c])
      | some _ => none
  | .stopLock => pool.clientLock c .stopSet
  | .stopSet =>
      some (({ pool with bTerminate := true }).notifyAll.setClient c .stopUnlock, [])
  | .stopUnlock => some (pool.release.setClient c (.stopJoin 0), [])
  | .stopJoin i =>
      match pool.threads[i]? with
      | none => some (pool.setClient c .idle, [.stopReturn c])
      | some none => some (pool.setClient c .crashed, [.nullDereference i])
      | some (some w) =>
          if pool.worker w = .exited then
            some (({ pool with threads := pool.threads.set i none }).setClient c
              (.stopJoin (i + 1)), [.joined w])
          else none
  | .idle | .waitAsleep _ | .crashed => none

/-- A call of a client that stands outside the pool. -/
def call (pool : ZeroThreadPool workers clients) (c : Fin clients) (point : Client)
    (shown : List (Event workers clients)) :
    Option (ZeroThreadPool workers clients × List (Event workers clients)) :=
  match pool.client c with
  | .idle => some (pool.setClient c point, shown)
  | _ => none

def step (pool : ZeroThreadPool workers clients) :
    Label workers clients →
      Option (ZeroThreadPool workers clients × List (Event workers clients))
  | .exec c timeout func =>
      if IsTime timeout ∧ IsTime (taskExpire timeout) then
        pool.call c (.execLock ⟨func, taskExpire timeout⟩) []
      else none
  | .waitForAllDone c millsecond => pool.call c (.waitLock millsecond) [.waitCall c]
  | .stop c => pool.call c .stopLock []
  | .client c wake => pool.clientStep c wake
  | .timeout c =>
      match pool.client c with
      | .waitAsleep millsecond =>
          if 0 ≤ millsecond then some (pool.setClient c .waitExpired, []) else none
      | _ => none
  | .worker w => pool.workerStep w

def machine (workers clients : Nat) :
    Machine (ZeroThreadPool workers clients) (Label workers clients) (Event workers clients) where
  start := create workers clients
  step := step

end ZeroThreadPool

end SimpleBasicComponents.ThreadPool
