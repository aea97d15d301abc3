import SimpleBasicComponents.Semantics.History
import SimpleBasicComponents.ThreadPool.Steps

/-!
The order in which the pool runs its tasks.

Owns: the tasks in the order in which `exec` has returned and in the order in which
workers have started them, and the law that ties the two to the queue: every task is
started at most once, in the order of the pushes, and brought to an end only by the
worker that has started it, before that worker starts another one.
-/

namespace SimpleBasicComponents.ThreadPool

open SimpleBasicComponents.Semantics

variable {workers clients : Nat}

def Event.returnedTask : Event workers clients → Option TaskFunc
  | .execReturn _ task => some task
  | _ => none

def Event.startedTask : Event workers clients → Option TaskFunc
  | .taskStart _ task => some task
  | _ => none

/-- The task that the worker starts or ends, and which of the two it does. -/
def Event.workOf (w : Fin workers) : Event workers clients → Option (TaskFunc × Bool)
  | .taskStart other task => if other = w then some (task, true) else none
  | .taskDone other task => if other = w then some (task, false) else none
  | _ => none

/-- What the worker has done last. -/
def lastWork (w : Fin workers) (events : List (Event workers clients)) :
    Option (TaskFunc × Bool) :=
  events.reverse.findSome? (Event.workOf w)

theorem lastWork_snoc (w : Fin workers) (events : List (Event workers clients))
    (event : Event workers clients) :
    lastWork w (events ++ [event]) = (event.workOf w).or (lastWork w events) := by
  rw [lastWork, List.reverse_append, List.findSome?_append]
  cases isWork : event.workOf w <;> simp [isWork, lastWork]

def returnedTasks (events : List (Event workers clients)) : List TaskFunc :=
  events.filterMap Event.returnedTask

def startedTasks (events : List (Event workers clients)) : List TaskFunc :=
  events.filterMap Event.startedTask

theorem returnedTasks_append (events shown : List (Event workers clients)) :
    returnedTasks (events ++ shown) = returnedTasks events ++ returnedTasks shown := List.filterMap_append

theorem startedTasks_append (events shown : List (Event workers clients)) :
    startedTasks (events ++ shown) = startedTasks events ++ startedTasks shown := List.filterMap_append

/-- The task that stands in the queue while `exec` has not returned. -/
def Client.pushed : Client → List TaskFunc
  | .execNotify task | .execUnlock task => [task]
  | _ => []

namespace ZeroThreadPool

/-- What the holder of `_mutex` has pushed. -/
def pushing (pool : ZeroThreadPool workers clients) : List TaskFunc :=
  match pool.mutex with
  | some (.client c) => (pool.client c).pushed
  | some (.worker _) | none => []

/-- A worker ends what it has started last. -/
def EndsOwn (earlier : List (Event workers clients)) (event : Event workers clients) : Prop :=
  ∀ w task, event = .taskDone w task → lastWork w earlier = some (task, true)

structure InOrder (pool : ZeroThreadPool workers clients) (events : List (Event workers clients)) :
    Prop where
  fifo : returnedTasks events ++ pool.pushing = startedTasks events ++ pool.taskQ
  running : ∀ w task, pool.worker w = .running task → lastWork w events = some (task, true)
  ends : Historically EndsOwn events

variable {pool next : ZeroThreadPool workers clients} {events shown : List (Event workers clients)}
  {w : Fin workers} {c : Fin clients}

/-! ### Who pushes -/

theorem pushing_of_client (owned : pool.mutex = some (.client c)) :
    pool.pushing = (pool.client c).pushed := by
  rw [pushing, owned]

theorem pushing_of_none (free : pool.mutex = none) : pool.pushing = [] := by
  rw [pushing, free]

theorem pushing_of_worker (exclusive : pool.Exclusive) (inside : (pool.worker w).holds = true) :
    pool.pushing = [] := by
  rw [pushing, exclusive (.worker w) inside]

theorem pushing_congr (mutex : next.mutex = pool.mutex)
    (clients : ∀ c, (next.client c).pushed = (pool.client c).pushed) : next.pushing = pool.pushing := by
  rw [pushing, pushing, mutex]
  split
  · exact clients _
  · rfl
  · rfl

theorem pushed_setClient {point : Client} (same : point.pushed = (pool.client c).pushed)
    (other : Fin clients) :
    ((pool.setClient c point).client other).pushed = (pool.client other).pushed := by
  rw [setClient_client]
  split
  · rename_i isSame
    rw [isSame, same]
  · rfl

theorem pushing_setClient {point : Client} (same : point.pushed = (pool.client c).pushed) :
    (pool.setClient c point).pushing = pool.pushing :=
  pushing_congr (setClient_mutex ..) (pushed_setClient same)

theorem pushing_lock {point : Client} (free : pool.mutex = none) (nothing : point.pushed = []) :
    ((pool.acquire (.client c)).setClient c point).pushing = pool.pushing := by
  rw [pushing_of_none free, @pushing_of_client _ _ _ c rfl, setClient_client, if_pos rfl, nothing]

theorem pushing_unlock {point : Client} (exclusive : pool.Exclusive)
    (inside : (pool.client c).holds = true) (nothing : (pool.client c).pushed = []) :
    (pool.release.setClient c point).pushing = pool.pushing := by
  rw [pushing_of_client (exclusive (.client c) inside), nothing]
  rfl

theorem wakeClient_pushed (point : Client) : (wakeClient point).pushed = point.pushed := by
  cases point <;> rfl

/-- A worker that goes to a point outside of tasks. -/
private theorem running_of_setWorker {point : Worker} (outside : ∀ task, point ≠ .running task)
    (other : Fin workers) (task : TaskFunc) (isRunning : (pool.setWorker w point).worker other = .running task) :
    pool.worker other = .running task := by
  rw [setWorker_worker] at isRunning
  split at isRunning
  · exact absurd isRunning (outside task)
  · exact isRunning

/-- `notify_one` moves no task. -/
theorem notifyOne_still {wake : Option (Owner workers clients)}
    (notifies : pool.notifyOne wake = some next) :
    next.mutex = pool.mutex ∧ next.taskQ = pool.taskQ ∧
      (∀ c, (next.client c).pushed = (pool.client c).pushed) ∧
      ∀ w task, next.worker w = .running task → pool.worker w = .running task := by
  rcases notifyOne_cases notifies with rfl | ⟨w, -, rfl⟩ | ⟨c, rfl⟩
  · exact ⟨rfl, rfl, fun _ => rfl, fun _ _ => id⟩
  · exact ⟨rfl, rfl, fun _ => rfl, running_of_setWorker (by simp)⟩
  · exact ⟨rfl, rfl, pushed_setClient (wakeClient_pushed _), fun _ _ => id⟩

/-! ### Steps -/

/-- A step that neither moves a task nor shows work. -/
private theorem InOrder.quiet (inOrder : InOrder pool events) (pushing : next.pushing = pool.pushing)
    (taskQ : next.taskQ = pool.taskQ)
    (running : ∀ w task, next.worker w = .running task → pool.worker w = .running task)
    (silent : ∀ event ∈ shown, event.returnedTask = none ∧ event.startedTask = none ∧
      ∀ w, event.workOf w = none) : InOrder next (events ++ shown) := by
  have noReturn : returnedTasks shown = [] :=
    List.filterMap_eq_nil_iff.mpr fun event member => (silent event member).1
  have noStart : startedTasks shown = [] :=
    List.filterMap_eq_nil_iff.mpr fun event member => (silent event member).2.1
  refine ⟨?_, ?_, ?_⟩
  · rw [returnedTasks_append, startedTasks_append, noReturn, noStart, List.append_nil,
      List.append_nil, pushing, taskQ]
    exact inOrder.fifo
  · intro w task isRunning
    have noWork : shown.reverse.findSome? (Event.workOf w) = none :=
      List.findSome?_eq_none_iff.mpr fun event member => (silent event (List.mem_reverse.mp member)).2.2 w
    rw [lastWork, List.reverse_append, List.findSome?_append, noWork, Option.none_or]
    exact inOrder.running w task (running w task isRunning)
  · apply inOrder.ends.append
    intro earlier event member w task isDone
    have noWork := (silent event member).2.2 w
    rw [isDone, Event.workOf, if_pos rfl] at noWork
    contradiction

/-- The events of a step outside of tasks. -/
private theorem silent_of_eq {event : Event workers clients} (nothing : event.returnedTask = none)
    (noStart : event.startedTask = none) (noWork : ∀ w, event.workOf w = none) :
    ∀ other ∈ [event], other.returnedTask = none ∧ other.startedTask = none ∧ ∀ w, other.workOf w = none := by
  intro other member
  rw [List.mem_singleton.mp member]
  exact ⟨nothing, noStart, noWork⟩

private theorem InOrder.push (inOrder : InOrder pool events) {task : TaskFunc} (exclusive : pool.Exclusive)
    (at_ : pool.client c = .execPush task) :
    InOrder ((pool.push task).setClient c (.execNotify task)) events := by
  have owned : pool.mutex = some (.client c) := exclusive (.client c) (by simp [holds, at_, Client.holds])
  have before : pool.pushing = [] := by
    rw [pushing_of_client owned, at_]
    rfl
  have after : ((pool.push task).setClient c (.execNotify task)).pushing = [task] := by
    have ownedNext : ((pool.push task).setClient c (.execNotify task)).mutex = some (.client c) := owned
    rw [pushing_of_client ownedNext, setClient_client, if_pos rfl]
    rfl
  refine ⟨?_, inOrder.running, inOrder.ends⟩
  have fifo := inOrder.fifo
  rw [before, List.append_nil] at fifo
  rw [after, fifo, setClient_taskQ, push_taskQ, List.append_assoc]

private theorem InOrder.unlock (inOrder : InOrder pool events) {task : TaskFunc} (exclusive : pool.Exclusive)
    (at_ : pool.client c = .execUnlock task) :
    InOrder (pool.release.setClient c .idle) (events ++ [.execReturn c task]) := by
  have owned : pool.mutex = some (.client c) := exclusive (.client c) (by simp [holds, at_, Client.holds])
  have before : pool.pushing = [task] := by
    rw [pushing_of_client owned, at_]
    rfl
  refine ⟨?_, ?_, historically_snoc_iff.mpr ⟨inOrder.ends, fun _ _ isDone => by contradiction⟩⟩
  · have fifo := inOrder.fifo
    rw [before] at fifo
    rw [returnedTasks_append, startedTasks_append, pushing_of_none rfl, List.append_nil]
    show _ = startedTasks events ++ [] ++ pool.taskQ
    rw [List.append_nil]
    exact fifo
  · intro w started isRunning
    rw [lastWork_snoc]
    exact inOrder.running w started isRunning

private theorem InOrder.take (inOrder : InOrder pool events) {task : TaskFunc} {rest : List TaskFunc}
    (exclusive : pool.Exclusive) (at_ : pool.worker w = .take) (front : pool.taskQ = task :: rest) :
    InOrder (({ pool with taskQ := rest }).release.setWorker w (.running task))
      (events ++ [.taskStart w task]) := by
  have before : pool.pushing = [] := pushing_of_worker exclusive (congrArg Worker.holds at_)
  refine ⟨?_, ?_, historically_snoc_iff.mpr ⟨inOrder.ends, fun _ _ isDone => by contradiction⟩⟩
  · have fifo := inOrder.fifo
    rw [before, List.append_nil, front] at fifo
    rw [returnedTasks_append, startedTasks_append, pushing_of_none rfl, List.append_nil]
    show returnedTasks events ++ [] = startedTasks events ++ [task] ++ rest
    rw [List.append_nil, fifo, List.append_assoc]
    rfl
  · intro other started isRunning
    rw [setWorker_worker] at isRunning
    rw [lastWork_snoc, Event.workOf]
    split at isRunning
    · rename_i same
      rw [if_pos same.symm, ← Worker.running.inj isRunning]
      rfl
    · rename_i different
      rw [if_neg (Ne.symm different)]
      exact inOrder.running other started isRunning

private theorem InOrder.finish (inOrder : InOrder pool events) {task : TaskFunc}
    (at_ : pool.worker w = .running task) :
    InOrder (pool.setWorker w .loop) (events ++ [.taskDone w task]) := by
  refine ⟨?_, ?_, historically_snoc_iff.mpr ⟨inOrder.ends, ?_⟩⟩
  · rw [returnedTasks_append, startedTasks_append]
    show returnedTasks events ++ [] ++ pool.pushing = startedTasks events ++ [] ++ pool.taskQ
    rw [List.append_nil, List.append_nil]
    exact inOrder.fifo
  · intro other started isRunning
    rw [setWorker_worker] at isRunning
    rw [lastWork_snoc, Event.workOf]
    split at isRunning
    · contradiction
    · rename_i different
      rw [if_neg (Ne.symm different)]
      exact inOrder.running other started isRunning
  · intro ender ended isDone
    obtain ⟨rfl, rfl⟩ := by simpa using isDone
    exact inOrder.running w task at_

theorem Step.inOrder {label : Label workers clients} (taken : Step pool label next shown)
    (exclusive : pool.Exclusive) (inOrder : InOrder pool events) : InOrder next (events ++ shown) := by
  cases taken with
  | exec at_ _ | stop at_ =>
      exact inOrder.quiet (pushing_setClient (by rw [at_]; rfl)) rfl (fun _ _ => id) (by simp)
  | waitForAllDone at_ =>
      exact inOrder.quiet (pushing_setClient (by rw [at_]; rfl)) rfl (fun _ _ => id)
        (silent_of_eq rfl rfl fun _ => rfl)
  | workerExit | workerEnter | workerPass | taskExpired =>
      exact inOrder.quiet rfl rfl (running_of_setWorker (by simp)) (by simp)
  | workerLock at_ free =>
      exact inOrder.quiet (pushing_of_none free).symm rfl (running_of_setWorker (by simp)) (by simp)
  | workerSleep at_ _ _ | takeNothing at_ _ =>
      have before := pushing_of_worker exclusive (congrArg Worker.holds at_)
      exact inOrder.quiet before.symm rfl (running_of_setWorker (by simp)) (by simp)
  | takeTask at_ _ front => exact inOrder.take exclusive at_ front
  | taskDone at_ _ => exact inOrder.finish at_
  | execLock _ free | waitLock _ free | stopLock _ free =>
      exact inOrder.quiet (pushing_lock free rfl) rfl (fun _ _ => id) (by simp)
  | execPush at_ => exact (List.append_nil events).symm ▸ inOrder.push exclusive at_
  | execNotify at_ _ notifies =>
      have ⟨mutex, taskQ, pushed, running⟩ := notifyOne_still notifies
      have still : Client.pushed (.execUnlock _) = _ := ((pushed _).trans (congrArg Client.pushed at_)).symm
      exact inOrder.quiet ((pushing_setClient still).trans (pushing_congr mutex pushed)) taskQ running (by simp)
  | execSkip at_ _ =>
      exact inOrder.quiet (pushing_setClient (by rw [at_]; rfl)) rfl (fun _ _ => id) (by simp)
  | execUnlock at_ => exact inOrder.unlock exclusive at_
  | waitDone at_ _ =>
      exact inOrder.quiet (pushing_unlock exclusive (by rw [at_]; rfl) (by rw [at_]; rfl)) rfl (fun _ _ => id)
        (silent_of_eq rfl rfl fun _ => rfl)
  | waitSleep at_ _ | stopUnlock at_ =>
      exact inOrder.quiet (pushing_unlock exclusive (by rw [at_]; rfl) (by rw [at_]; rfl)) rfl (fun _ _ => id)
        (by simp)
  | waitTimeout at_ _ =>
      exact inOrder.quiet (pushing_setClient (by rw [at_]; rfl)) rfl (fun _ _ => id) (by simp)
  | waitExpired at_ _ | stopReturn at_ _ | stopCrash at_ _ =>
      exact inOrder.quiet (pushing_setClient (by rw [at_]; rfl)) rfl (fun _ _ => id)
        (silent_of_eq rfl rfl fun _ => rfl)
  | stopJoin at_ _ _ =>
      exact inOrder.quiet (pushing_setClient (by rw [at_]; rfl)) rfl (fun _ _ => id)
        (silent_of_eq rfl rfl fun _ => rfl)
  | stopSet at_ =>
      refine inOrder.quiet ?_ rfl ?_ (by simp)
      · have still := (wakeClient_pushed (pool.client _)).trans (congrArg Client.pushed at_)
        exact (pushing_setClient still.symm).trans (pushing_congr rfl fun _ => wakeClient_pushed _)
      · intro w task isRunning
        cases at_ : pool.worker w <;> simp_all [notifyAll, wakeWorker]

/-! ### Whole runs -/

theorem exec_inOrder {labels : List (Label workers clients)}
    (exec : (machine workers clients).Exec labels pool events) : InOrder pool events := by
  induction exec with
  | start =>
      refine ⟨rfl, ?_, historically_nil⟩
      intro w task isRunning
      contradiction
  | step before taken inductionHypothesis =>
      exact (step_cases taken).inOrder (exec_exclusive before) inductionHypothesis

/-- One task is pushed, started and ended, a second one pushed. -/
def twoTasks (c : Fin clients) (w : Fin workers) : List (Label workers clients) :=
  .exec c 0 7 :: List.replicate 4 (.client c none) ++ List.replicate 4 (.worker w) ++
    [.exec c 0 8, .client c none, .worker w, .client c none]

theorem twoTasks_inOrder : ∃ pool events, (machine 5 1).Exec (twoTasks 0 3) pool events ∧
    InOrder pool events ∧ startedTasks events = [⟨7, 0⟩] ∧ pool.pushing = [⟨8, 0⟩] := by
  have ran := (machine 5 1).exec_of_isSome (twoTasks 0 3) (by decide +kernel)
  exact ⟨_, _, ran, exec_inOrder ran, by decide +kernel, by decide +kernel⟩

end ZeroThreadPool

end SimpleBasicComponents.ThreadPool
