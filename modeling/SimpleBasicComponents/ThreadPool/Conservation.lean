import SimpleBasicComponents.Semantics.Tally
import SimpleBasicComponents.ThreadPool.Steps

/-!
What becomes of a task of the thread pool.

Owns: the tallies of the places a task can be in, and the two conservation laws
of every run: what was handed to `exec` is on its way into the queue or `exec`
has returned, and what has reached the queue is there, is run or was run to its
end. An expired task is never run.
-/

namespace SimpleBasicComponents.ThreadPool

open SimpleBasicComponents.Semantics

variable {workers clients : Nat}

/-- In `exec` with the task, before the push. -/
def Client.issues (task : TaskFunc) : Client → Bool
  | .execLock issued | .execPush issued => issued = task
  | _ => false

/-- In `exec` with the task, after the push. -/
def Client.leaves (task : TaskFunc) : Client → Bool
  | .execNotify pushed | .execUnlock pushed => pushed = task
  | _ => false

def Worker.runs (task : TaskFunc) : Worker → Bool
  | .running taken => taken = task
  | _ => false

def Label.issues (task : TaskFunc) : Label workers clients → Bool
  | .exec _ deadline func => (⟨func, taskExpire deadline⟩ : TaskFunc) = task
  | _ => false

def Event.returns (task : TaskFunc) : Event workers clients → Bool
  | .execReturn _ pushed => pushed = task
  | _ => false

def Event.finishes (task : TaskFunc) : Event workers clients → Bool
  | .taskDone _ ended => ended = task
  | _ => false

/-- How often the task was handed to `exec`, how often `exec` has returned, and
how often it was run to its end. -/
def issued (task : TaskFunc) (labels : List (Label workers clients)) : Nat :=
  labels.countP (Label.issues task)

def returned (task : TaskFunc) (events : List (Event workers clients)) : Nat :=
  events.countP (Event.returns task)

def finished (task : TaskFunc) (events : List (Event workers clients)) : Nat :=
  events.countP (Event.finishes task)

private theorem countP_decide {α : Type*} (holds : α → Bool) (item : α) :
    [item].countP holds = (holds item).toNat := by
  cases isHeld : holds item <;> simp [isHeld]

namespace ZeroThreadPool

structure Accounts (task : TaskFunc) (labels : List (Label workers clients))
    (pool : ZeroThreadPool workers clients) (events : List (Event workers clients)) : Prop where
  asked : tally (Client.issues task) pool.client + tally (Client.leaves task) pool.client +
    returned task events = issued task labels
  kept : task.expired = false →
    pool.taskQ.count task + tally (Worker.runs task) pool.worker + finished task events =
      tally (Client.leaves task) pool.client + returned task events
  dropped : task.expired = true → finished task events = 0

variable {pool next : ZeroThreadPool workers clients} {label : Label workers clients}
  {labels : List (Label workers clients)} {events shown : List (Event workers clients)}
  {task : TaskFunc}

theorem tally_setClient (pool : ZeroThreadPool workers clients) (holds : Client → Bool) (c : Fin clients)
    (point : Client) :
    tally holds (pool.setClient c point).client + (holds (pool.client c)).toNat =
      tally holds pool.client + (holds point).toNat := tally_update pool.client c point

theorem tally_setWorker (pool : ZeroThreadPool workers clients) (holds : Worker → Bool) (w : Fin workers)
    (point : Worker) :
    tally holds (pool.setWorker w point).worker + (holds (pool.worker w)).toNat =
      tally holds pool.worker + (holds point).toNat := tally_update pool.worker w point

/-- A step that balances keeps the accounts. -/
private theorem Accounts.snoc (accounts : Accounts task labels pool events)
    (asked : tally (Client.issues task) next.client + tally (Client.leaves task) next.client +
        returned task shown =
      tally (Client.issues task) pool.client + tally (Client.leaves task) pool.client +
        issued task [label])
    (kept : task.expired = false →
      next.taskQ.count task + tally (Worker.runs task) next.worker + finished task shown +
          tally (Client.leaves task) pool.client =
        pool.taskQ.count task + tally (Worker.runs task) pool.worker +
          tally (Client.leaves task) next.client + returned task shown)
    (dropped : task.expired = true → finished task shown = 0) :
    Accounts task (labels ++ [label]) next (events ++ shown) := by
  have askedBefore := accounts.asked
  constructor
  · simp only [returned, issued, List.countP_append] at *
    omega
  · intro live
    have keptBefore := accounts.kept live
    have keptStep := kept live
    simp only [returned, finished, List.countP_append] at *
    omega
  · intro expired
    have droppedBefore := accounts.dropped expired
    have droppedStep := dropped expired
    simp only [finished, List.countP_append] at *
    omega

/-- A client that moves outside `exec` or between two points of the same kind. -/
private theorem Accounts.setClient (accounts : Accounts task labels pool events) {c : Fin clients}
    {point : Client} (client : next.client = Function.update pool.client c point)
    (worker : next.worker = pool.worker) (taskQ : next.taskQ = pool.taskQ)
    (issues : point.issues task = (pool.client c).issues task)
    (leaves : point.leaves task = (pool.client c).leaves task)
    (silent : returned task shown = 0 ∧ finished task shown = 0) (noExec : issued task [label] = 0) :
    Accounts task (labels ++ [label]) next (events ++ shown) := by
  have issuing := @tally_update _ _ _ _ (Client.issues task) pool.client c point
  have leaving := @tally_update _ _ _ _ (Client.leaves task) pool.client c point
  rw [← client, issues] at issuing
  rw [← client, leaves] at leaving
  apply accounts.snoc
  · omega
  · rw [worker, taskQ]
    omega
  · exact fun _ => silent.2

/-- A worker that moves outside of tasks. -/
private theorem Accounts.setWorker (accounts : Accounts task labels pool events) {w : Fin workers}
    {point : Worker} (client : next.client = pool.client)
    (worker : next.worker = Function.update pool.worker w point) (taskQ : next.taskQ = pool.taskQ)
    (runs : point.runs task = (pool.worker w).runs task) (noExec : issued task [label] = 0) :
    Accounts task (labels ++ [label]) next (events ++ []) := by
  have running := @tally_update _ _ _ _ (Worker.runs task) pool.worker w point
  rw [← worker, runs] at running
  apply accounts.snoc
  · rw [client, noExec]
    rfl
  · rw [client, taskQ]
    simp only [returned, finished, List.countP_nil]
    omega
  · exact fun _ => rfl

/-- A change that moves no task. -/
private theorem Accounts.congr (accounts : Accounts task labels pool events)
    (issues : ∀ c, (next.client c).issues task = (pool.client c).issues task)
    (leaves : ∀ c, (next.client c).leaves task = (pool.client c).leaves task)
    (runs : ∀ w, (next.worker w).runs task = (pool.worker w).runs task)
    (taskQ : next.taskQ = pool.taskQ) : Accounts task labels next events := by
  obtain ⟨asked, kept, dropped⟩ := accounts
  rw [← tally_congr issues, ← tally_congr leaves] at asked
  rw [← tally_congr runs, ← tally_congr leaves, ← taskQ] at kept
  exact ⟨asked, kept, dropped⟩

private theorem Accounts.notifyAll (accounts : Accounts task labels pool events) :
    Accounts task labels pool.notifyAll events := by
  refine accounts.congr ?_ ?_ ?_ rfl
  · intro c
    show (wakeClient (pool.client c)).issues task = _
    cases pool.client c <;> rfl
  · intro c
    show (wakeClient (pool.client c)).leaves task = _
    cases pool.client c <;> rfl
  · intro w
    show (wakeWorker (pool.worker w)).runs task = _
    cases pool.worker w <;> rfl

private theorem Accounts.notifyOne (accounts : Accounts task labels pool events)
    {wake : Option (Owner workers clients)} (notifies : pool.notifyOne wake = some next) :
    Accounts task labels next events := by
  rcases notifyOne_cases notifies with rfl | ⟨w, asleep, rfl⟩ | ⟨c, rfl⟩
  · exact accounts
  · refine accounts.congr (fun _ => rfl) (fun _ => rfl) ?_ rfl
    intro other
    by_cases same : other = w
    · simp [same, asleep, Worker.runs]
    · simp [same]
  · refine accounts.congr ?_ ?_ (fun _ => rfl) rfl
    all_goals
      intro other
      by_cases same : other = c
      · rw [setClient_client, if_pos same, same]
        cases pool.client c <;> rfl
      · rw [setClient_client, if_neg same]

/-- `notify_one` leaves a client alone that is not waiting. -/
private theorem notifyOne_client {wake : Option (Owner workers clients)} {c : Fin clients} {point : Client}
    (notifies : pool.notifyOne wake = some next) (at_ : pool.client c = point)
    (awake : wakeClient point = point) : next.client c = point := by
  rcases notifyOne_cases notifies with rfl | ⟨w, -, rfl⟩ | ⟨other, rfl⟩
  · exact at_
  · exact at_
  · rw [setClient_client]
    split
    · rename_i same
      rw [← same, at_, awake]
    · exact at_

/-! ### The steps of a task -/

private theorem Accounts.exec (accounts : Accounts task labels pool events) {c : Fin clients}
    {deadline : Int} {func : Nat} (at_ : pool.client c = .idle) :
    Accounts task (labels ++ [.exec c deadline func])
      (pool.setClient c (.execLock ⟨func, taskExpire deadline⟩)) (events ++ []) := by
  have issuing := pool.tally_setClient (Client.issues task) c (.execLock ⟨func, taskExpire deadline⟩)
  have leaving := pool.tally_setClient (Client.leaves task) c (.execLock ⟨func, taskExpire deadline⟩)
  rw [at_] at issuing leaving
  simp only [Client.issues, Client.leaves, Bool.toNat_false, Nat.add_zero] at issuing leaving
  have isIssued : issued task [(.exec c deadline func : Label workers clients)] =
      (decide ((⟨func, taskExpire deadline⟩ : TaskFunc) = task)).toNat := countP_decide _ _
  apply accounts.snoc
  · rw [isIssued, issuing, leaving]
    simp only [returned, List.countP_nil]
    omega
  · simp only [leaving, setClient_taskQ, setClient_worker, returned, finished, List.countP_nil]
    omega
  · exact fun _ => rfl

private theorem Accounts.push (accounts : Accounts task labels pool events) {c : Fin clients}
    {wake : Option (Owner workers clients)} {pushed : TaskFunc} (at_ : pool.client c = .execPush pushed) :
    Accounts task (labels ++ [.client c wake]) ((pool.push pushed).setClient c (.execNotify pushed))
      (events ++ []) := by
  have issuing := (pool.push pushed).tally_setClient (Client.issues task) c (.execNotify pushed)
  have leaving := (pool.push pushed).tally_setClient (Client.leaves task) c (.execNotify pushed)
  rw [push_client, at_] at issuing leaving
  simp only [Client.issues, Client.leaves, Bool.toNat_false, Nat.add_zero] at issuing leaving
  have stored : [pushed].count task = (decide (pushed = task)).toNat := by
    by_cases same : pushed = task <;> simp [same]
  apply accounts.snoc
  · simp only [returned, issued, List.countP_nil, List.countP_singleton, Label.issues,
      Bool.false_eq_true, if_false]
    omega
  · simp only [setClient_taskQ, setClient_worker, push_taskQ, push_worker, List.count_append, stored,
      returned, finished, List.countP_nil]
    omega
  · exact fun _ => rfl

private theorem Accounts.unlock (accounts : Accounts task labels pool events) {c : Fin clients}
    {wake : Option (Owner workers clients)} {pushed : TaskFunc} (at_ : pool.client c = .execUnlock pushed) :
    Accounts task (labels ++ [.client c wake]) (pool.release.setClient c .idle)
      (events ++ [.execReturn c pushed]) := by
  have issuing := pool.release.tally_setClient (Client.issues task) c .idle
  have leaving := pool.release.tally_setClient (Client.leaves task) c .idle
  rw [release_client, at_] at issuing leaving
  simp only [Client.issues, Client.leaves, Bool.toNat_false, Nat.add_zero] at issuing leaving
  have isReturned : returned task [(.execReturn c pushed : Event workers clients)] =
      (decide (pushed = task)).toNat := countP_decide _ _
  apply accounts.snoc
  · rw [isReturned]
    simp only [issued, List.countP_singleton, Label.issues, Bool.false_eq_true, if_false]
    omega
  · rw [isReturned]
    simp only [setClient_taskQ, setClient_worker, release_taskQ, release_worker, finished,
      List.countP_singleton, Event.finishes, Bool.false_eq_true, if_false]
    omega
  · exact fun _ => rfl

private theorem Accounts.take (accounts : Accounts task labels pool events) {w : Fin workers}
    {front : TaskFunc} {rest : List TaskFunc} (at_ : pool.worker w = .take)
    (isFront : pool.taskQ = front :: rest) :
    Accounts task (labels ++ [.worker w])
      (({ pool with taskQ := rest }).release.setWorker w (.running front))
      (events ++ [.taskStart w front]) := by
  have running := ({ pool with taskQ := rest }).release.tally_setWorker (Worker.runs task) w (.running front)
  rw [release_worker, at_] at running
  simp only [Worker.runs, Bool.toNat_false, Nat.add_zero] at running
  have stored : pool.taskQ.count task = rest.count task + (decide (front = task)).toNat := by
    rw [isFront, List.count_cons]
    by_cases same : front = task <;> simp [same]
  apply accounts.snoc
  · rfl
  · rw [running, stored]
    simp only [setWorker_taskQ, setWorker_client, release_taskQ, release_client, returned, finished,
      List.countP_singleton, Event.finishes, Event.returns, Bool.false_eq_true, if_false]
    omega
  · exact fun _ => rfl

private theorem Accounts.drop (accounts : Accounts task labels pool events) {w : Fin workers}
    {ended : TaskFunc} (at_ : pool.worker w = .running ended) (expired : ended.expired = true) :
    Accounts task (labels ++ [.worker w]) (pool.setWorker w .loop) (events ++ []) := by
  have running := pool.tally_setWorker (Worker.runs task) w .loop
  rw [at_] at running
  simp only [Worker.runs, Bool.toNat_false, Nat.add_zero] at running
  apply accounts.snoc
  · rfl
  · intro live
    have different : ended ≠ task := by
      rintro rfl
      rw [expired] at live
      contradiction
    rw [decide_eq_false different, Bool.toNat_false, Nat.add_zero] at running
    simp only [setWorker_taskQ, setWorker_client, running, returned, finished, List.countP_nil, Nat.add_zero]
  · exact fun _ => rfl

private theorem Accounts.finish (accounts : Accounts task labels pool events) {w : Fin workers}
    {ended : TaskFunc} (at_ : pool.worker w = .running ended) (live : ended.expired = false) :
    Accounts task (labels ++ [.worker w]) (pool.setWorker w .loop) (events ++ [.taskDone w ended]) := by
  have running := pool.tally_setWorker (Worker.runs task) w .loop
  rw [at_] at running
  simp only [Worker.runs, Bool.toNat_false, Nat.add_zero] at running
  have isFinished : finished task [(.taskDone w ended : Event workers clients)] =
      (decide (ended = task)).toNat := countP_decide _ _
  apply accounts.snoc
  · rfl
  · rw [isFinished]
    simp only [setWorker_taskQ, setWorker_client, returned, List.countP_singleton, Event.returns,
      Bool.false_eq_true, if_false]
    omega
  · intro expired
    have different : ended ≠ task := by
      rintro rfl
      rw [expired] at live
      contradiction
    rw [isFinished, decide_eq_false different]
    rfl

theorem Step.accounts (taken : Step pool label next shown)
    (accounts : Accounts task labels pool events) :
    Accounts task (labels ++ [label]) next (events ++ shown) := by
  cases taken with
  | exec at_ _ => exact accounts.exec at_
  | waitForAllDone at_ | stop at_ =>
      exact accounts.setClient rfl rfl rfl (by rw [at_]; rfl) (by rw [at_]; rfl) ⟨rfl, rfl⟩ rfl
  | workerExit at_ _ | workerEnter at_ _ | workerPass at_ _ | workerSleep at_ _ _ | takeNothing at_ _ =>
      exact accounts.setWorker rfl rfl rfl (by rw [at_]; rfl) rfl
  | @workerLock w at_ _ =>
      refine accounts.setWorker rfl rfl rfl ?_ rfl
      rcases at_ with at_ | at_ <;> rw [at_] <;> rfl
  | takeTask at_ _ isFront => exact accounts.take at_ isFront
  | taskExpired at_ expired => exact accounts.drop at_ expired
  | taskDone at_ live => exact accounts.finish at_ live
  | execLock at_ _ =>
      exact accounts.setClient rfl rfl rfl (by rw [at_]; rfl) (by rw [at_]; rfl) ⟨rfl, rfl⟩ rfl
  | execPush at_ => exact accounts.push at_
  | @execNotify c wake pushed notified at_ empty notifies =>
      have still := notifyOne_client notifies at_ rfl
      exact (accounts.notifyOne notifies).setClient rfl rfl rfl (by rw [still]; rfl) (by rw [still]; rfl)
        ⟨rfl, rfl⟩ rfl
  | execSkip at_ _ =>
      exact accounts.setClient rfl rfl rfl (by rw [at_]; rfl) (by rw [at_]; rfl) ⟨rfl, rfl⟩ rfl
  | execUnlock at_ => exact accounts.unlock at_
  | @waitLock c wake millsecond at_ _ =>
      refine accounts.setClient rfl rfl rfl ?_ ?_ ⟨rfl, rfl⟩ rfl
      · rcases at_ with at_ | at_ <;> rw [at_] <;> rfl
      · rcases at_ with at_ | at_ <;> rw [at_] <;> rfl
  | waitDone at_ _ | waitSleep at_ _ | waitTimeout at_ _ | waitExpired at_ _ | stopLock at_ _
  | stopUnlock at_ | stopReturn at_ _ | stopCrash at_ _ | stopJoin at_ _ _ =>
      exact accounts.setClient rfl rfl rfl (by rw [at_]; rfl) (by rw [at_]; rfl) ⟨rfl, rfl⟩ rfl
  | @stopSet c wake at_ =>
      have stays : (({ pool with bTerminate := true }).notifyAll).client c = .stopSet := by
        show wakeClient (pool.client c) = _
        rw [at_]
        rfl
      have same : Accounts task labels ({ pool with bTerminate := true }).notifyAll events :=
        accounts.notifyAll.congr (fun _ => rfl) (fun _ => rfl) (fun _ => rfl) rfl
      exact same.setClient rfl rfl rfl (by rw [stays]; rfl) (by rw [stays]; rfl) ⟨rfl, rfl⟩ rfl

/-! ### Whole runs -/

theorem exec_accounts (task : TaskFunc) (exec : (machine workers clients).Exec labels pool events) :
    Accounts task labels pool events := by
  induction exec with
  | start =>
      have issuing : tally (Client.issues task) (create workers clients).client = 0 :=
        tally_eq_zero_iff.mpr fun _ => rfl
      have leaving : tally (Client.leaves task) (create workers clients).client = 0 :=
        tally_eq_zero_iff.mpr fun _ => rfl
      have running : tally (Worker.runs task) (create workers clients).worker = 0 :=
        tally_eq_zero_iff.mpr fun _ => rfl
      exact ⟨by rw [machine, issuing, leaving]; rfl, fun _ => by rw [machine, running, leaving]; rfl,
        fun _ => rfl⟩
  | step _ taken accounts => exact (step_cases taken).accounts accounts

/-- Not in the queue, with no worker, and not too late to be run. -/
structure Past (pool : ZeroThreadPool workers clients) (task : TaskFunc) : Prop where
  notQueued : task ∉ pool.taskQ
  notRunning : ∀ w, pool.worker w ≠ .running task
  live : task.expired = false

theorem Accounts.finished_iff (accounts : Accounts task labels pool events)
    (once : issued task labels ≤ 1) {caller : Fin clients} (asked : .execReturn caller task ∈ events) :
    (∃ w, .taskDone w task ∈ events) ↔ pool.Past task := by
  have isReturned : 0 < returned task events :=
    List.countP_pos_iff.mpr ⟨_, asked, by simp [Event.returns]⟩
  have balance := accounts.asked
  have isFinished : (∃ w, .taskDone w task ∈ events) ↔ 0 < finished task events := by
    rw [finished, List.countP_pos_iff]
    constructor
    · rintro ⟨w, member⟩
      exact ⟨_, member, by simp [Event.finishes]⟩
    · rintro ⟨event, member, finishes⟩
      cases event with
      | taskDone w ended =>
          obtain rfl : ended = task := by simpa [Event.finishes] using finishes
          exact ⟨w, member⟩
      | _ => contradiction
  have isRunning : tally (Worker.runs task) pool.worker = 0 ↔ ∀ w, pool.worker w ≠ .running task := by
    rw [tally_eq_zero_iff]
    refine forall_congr' fun w => ?_
    cases pool.worker w <;> simp [Worker.runs]
  rw [isFinished]
  constructor
  · intro positive
    have live : task.expired = false := by
      by_contra expired
      have none := accounts.dropped (Bool.eq_true_of_not_eq_false expired)
      omega
    have kept := accounts.kept live
    exact ⟨List.count_eq_zero.mp (by omega), isRunning.mp (by omega), live⟩
  · rintro ⟨notQueued, notRunning, live⟩
    have kept := accounts.kept live
    have queued := List.count_eq_zero.mpr notQueued
    have running := isRunning.mpr notRunning
    omega

end ZeroThreadPool

end SimpleBasicComponents.ThreadPool
