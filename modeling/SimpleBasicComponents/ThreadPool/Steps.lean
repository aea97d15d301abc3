import SimpleBasicComponents.ThreadPool.Model

/-!
What a step of the thread pool can do.

Owns: the inversion of `ZeroThreadPool.step`, one constructor for each way a
step can go, and mutual exclusion: the thread that `_mutex` records is the one
whose control point lies between a lock and the matching unlock.
-/

namespace SimpleBasicComponents.ThreadPool

open SimpleBasicComponents.Semantics

variable {workers clients : Nat}

namespace ZeroThreadPool

/-! ### Fields after an update -/

section Updates

variable (pool : ZeroThreadPool workers clients)

@[simp] theorem setWorker_worker (w other : Fin workers) (point : Worker) :
    (pool.setWorker w point).worker other = if other = w then point else pool.worker other := by
  simp [setWorker, Function.update_apply]

@[simp] theorem setWorker_client (w : Fin workers) (point : Worker) :
    (pool.setWorker w point).client = pool.client := rfl

@[simp] theorem setWorker_mutex (w : Fin workers) (point : Worker) :
    (pool.setWorker w point).mutex = pool.mutex := rfl

@[simp] theorem setWorker_taskQ (w : Fin workers) (point : Worker) :
    (pool.setWorker w point).taskQ = pool.taskQ := rfl

@[simp] theorem setWorker_bTerminate (w : Fin workers) (point : Worker) :
    (pool.setWorker w point).bTerminate = pool.bTerminate := rfl

@[simp] theorem setClient_client (c other : Fin clients) (point : Client) :
    (pool.setClient c point).client other = if other = c then point else pool.client other := by
  simp [setClient, Function.update_apply]

@[simp] theorem setClient_worker (c : Fin clients) (point : Client) :
    (pool.setClient c point).worker = pool.worker := rfl

@[simp] theorem setClient_mutex (c : Fin clients) (point : Client) :
    (pool.setClient c point).mutex = pool.mutex := rfl

@[simp] theorem setClient_taskQ (c : Fin clients) (point : Client) :
    (pool.setClient c point).taskQ = pool.taskQ := rfl

@[simp] theorem setClient_bTerminate (c : Fin clients) (point : Client) :
    (pool.setClient c point).bTerminate = pool.bTerminate := rfl

@[simp] theorem acquire_worker (owner : Owner workers clients) :
    (pool.acquire owner).worker = pool.worker := rfl

@[simp] theorem acquire_client (owner : Owner workers clients) :
    (pool.acquire owner).client = pool.client := rfl

@[simp] theorem acquire_mutex (owner : Owner workers clients) :
    (pool.acquire owner).mutex = some owner := rfl

@[simp] theorem acquire_taskQ (owner : Owner workers clients) :
    (pool.acquire owner).taskQ = pool.taskQ := rfl

@[simp] theorem acquire_bTerminate (owner : Owner workers clients) :
    (pool.acquire owner).bTerminate = pool.bTerminate := rfl

@[simp] theorem release_worker : pool.release.worker = pool.worker := rfl

@[simp] theorem release_client : pool.release.client = pool.client := rfl

@[simp] theorem release_mutex : pool.release.mutex = none := rfl

@[simp] theorem release_taskQ : pool.release.taskQ = pool.taskQ := rfl

@[simp] theorem release_bTerminate : pool.release.bTerminate = pool.bTerminate := rfl

@[simp] theorem push_worker (task : TaskFunc) : (pool.push task).worker = pool.worker := rfl

@[simp] theorem push_client (task : TaskFunc) : (pool.push task).client = pool.client := rfl

@[simp] theorem push_mutex (task : TaskFunc) : (pool.push task).mutex = pool.mutex := rfl

@[simp] theorem push_taskQ (task : TaskFunc) : (pool.push task).taskQ = pool.taskQ ++ [task] := rfl

@[simp] theorem push_bTerminate (task : TaskFunc) :
    (pool.push task).bTerminate = pool.bTerminate := rfl

end Updates

/-! ### Inversion -/

/-- The ways a step can go. -/
inductive Step (pool : ZeroThreadPool workers clients) :
    Label workers clients → ZeroThreadPool workers clients → List (Event workers clients) → Prop
  | exec {c timeout func} (at_ : pool.client c = .idle)
      (fits : IsTime timeout ∧ IsTime (taskExpire timeout)) :
      Step pool (.exec c timeout func) (pool.setClient c (.execLock ⟨func, taskExpire timeout⟩)) []
  | waitForAllDone {c millsecond} (at_ : pool.client c = .idle) :
      Step pool (.waitForAllDone c millsecond) (pool.setClient c (.waitLock millsecond))
        [.waitCall c]
  | stop {c} (at_ : pool.client c = .idle) :
      Step pool (.stop c) (pool.setClient c .stopLock) []
  | workerExit {w} (at_ : pool.worker w = .loop) (terminated : pool.bTerminate = true) :
      Step pool (.worker w) (pool.setWorker w .exited) []
  | workerEnter {w} (at_ : pool.worker w = .loop) (running : pool.bTerminate = false) :
      Step pool (.worker w) (pool.setWorker w .lock) []
  | workerLock {w} (at_ : pool.worker w = .lock ∨ pool.worker w = .woken)
      (free : pool.mutex = none) :
      Step pool (.worker w) ((pool.acquire (.worker w)).setWorker w .test) []
  | workerPass {w} (at_ : pool.worker w = .test)
      (ready : pool.bTerminate = true ∨ pool.taskQ ≠ []) :
      Step pool (.worker w) (pool.setWorker w .take) []
  | workerSleep {w} (at_ : pool.worker w = .test) (running : pool.bTerminate = false)
      (empty : pool.taskQ = []) :
      Step pool (.worker w) (pool.release.setWorker w .asleep) []
  | takeNothing {w} (at_ : pool.worker w = .take)
      (nothing : pool.bTerminate = true ∨ pool.taskQ = []) :
      Step pool (.worker w) (pool.release.setWorker w .loop) []
  | takeTask {w task rest} (at_ : pool.worker w = .take) (running : pool.bTerminate = false)
      (front : pool.taskQ = task :: rest) :
      Step pool (.worker w) (({ pool with taskQ := rest }).release.setWorker w (.running task))
        [.taskStart w task]
  | taskExpired {w task} (at_ : pool.worker w = .running task) (expired : task.expired = true) :
      Step pool (.worker w) (pool.setWorker w .loop) []
  | taskDone {w task} (at_ : pool.worker w = .running task) (live : task.expired = false) :
      Step pool (.worker w) (pool.setWorker w .loop) [.taskDone w task]
  | execLock {c wake task} (at_ : pool.client c = .execLock task) (free : pool.mutex = none) :
      Step pool (.client c wake) ((pool.acquire (.client c)).setClient c (.execPush task)) []
  | execPush {c wake task} (at_ : pool.client c = .execPush task) :
      Step pool (.client c wake) ((pool.push task).setClient c (.execNotify task)) []
  | execNotify {c wake task notified} (at_ : pool.client c = .execNotify task)
      (empty : pool.taskQ = []) (notifies : pool.notifyOne wake = some notified) :
      Step pool (.client c wake) (notified.setClient c (.execUnlock task)) []
  | execSkip {c wake task} (at_ : pool.client c = .execNotify task) (stored : pool.taskQ ≠ []) :
      Step pool (.client c wake) (pool.setClient c (.execUnlock task)) []
  | execUnlock {c wake task} (at_ : pool.client c = .execUnlock task) :
      Step pool (.client c wake) (pool.release.setClient c .idle) [.execReturn c task]
  | waitLock {c wake millsecond}
      (at_ : pool.client c = .waitLock millsecond ∨ pool.client c = .waitWoken millsecond)
      (free : pool.mutex = none) :
      Step pool (.client c wake) ((pool.acquire (.client c)).setClient c (.waitTest millsecond)) []
  | waitDone {c wake millsecond} (at_ : pool.client c = .waitTest millsecond)
      (empty : pool.taskQ = []) :
      Step pool (.client c wake) (pool.release.setClient c .idle) [.waitReturn c]
  | waitSleep {c wake millsecond} (at_ : pool.client c = .waitTest millsecond)
      (stored : pool.taskQ ≠ []) :
      Step pool (.client c wake) (pool.release.setClient c (.waitAsleep millsecond)) []
  | waitTimeout {c millsecond} (at_ : pool.client c = .waitAsleep millsecond)
      (timed : 0 ≤ millsecond) :
      Step pool (.timeout c) (pool.setClient c .waitExpired) []
  | waitExpired {c wake} (at_ : pool.client c = .waitExpired) (free : pool.mutex = none) :
      Step pool (.client c wake) (pool.setClient c .idle) [.waitReturn c]
  | stopLock {c wake} (at_ : pool.client c = .stopLock) (free : pool.mutex = none) :
      Step pool (.client c wake) ((pool.acquire (.client c)).setClient c .stopSet) []
  | stopSet {c wake} (at_ : pool.client c = .stopSet) :
      Step pool (.client c wake)
        (({ pool with bTerminate := true }).notifyAll.setClient c .stopUnlock) []
  | stopUnlock {c wake} (at_ : pool.client c = .stopUnlock) :
      Step pool (.client c wake) (pool.release.setClient c (.stopJoin 0)) []
  | stopReturn {c wake i} (at_ : pool.client c = .stopJoin i) (past : pool.threads[i]? = none) :
      Step pool (.client c wake) (pool.setClient c .idle) [.stopReturn c]
  | stopCrash {c wake i} (at_ : pool.client c = .stopJoin i)
      (null : pool.threads[i]? = some none) :
      Step pool (.client c wake) (pool.setClient c .crashed) [.nullDereference i]
  | stopJoin {c wake i w} (at_ : pool.client c = .stopJoin i)
      (thread : pool.threads[i]? = some (some w)) (ended : pool.worker w = .exited) :
      Step pool (.client c wake)
        (({ pool with threads := pool.threads.set i none }).setClient c (.stopJoin (i + 1)))
        [.joined w]

private theorem call_cases {pool next : ZeroThreadPool workers clients} {c : Fin clients}
    {point : Client} {shown shownAll : List (Event workers clients)}
    (taken : pool.call c point shown = some (next, shownAll)) :
    pool.client c = .idle ∧ next = pool.setClient c point ∧ shownAll = shown := by
  unfold call at taken
  split at taken
  · rename_i at_
    simp only [Option.some.injEq, Prod.mk.injEq] at taken
    exact ⟨at_, taken.1.symm, taken.2.symm⟩
  · contradiction

private theorem clientLock_cases {pool next : ZeroThreadPool workers clients} {c : Fin clients}
    {point : Client} {shown : List (Event workers clients)}
    (taken : pool.clientLock c point = some (next, shown)) :
    pool.mutex = none ∧ next = (pool.acquire (.client c)).setClient c point ∧ shown = [] := by
  unfold clientLock at taken
  split at taken
  · rename_i free
    simp only [Option.some.injEq, Prod.mk.injEq] at taken
    exact ⟨free, taken.1.symm, taken.2.symm⟩
  · contradiction

private theorem workerStep_cases {pool next : ZeroThreadPool workers clients} {w : Fin workers}
    {shown : List (Event workers clients)} (taken : pool.workerStep w = some (next, shown)) :
    Step pool (.worker w) next shown := by
  cases at_ : pool.worker w <;> simp only [workerStep, at_] at taken
  case asleep => contradiction
  case exited => contradiction
  case loop =>
    split at taken <;> rename_i tested <;> obtain ⟨rfl, rfl⟩ := by simpa using taken
    · exact .workerExit at_ tested
    · exact .workerEnter at_ (Bool.eq_false_iff.mpr tested)
  case lock =>
    split at taken
    · obtain ⟨rfl, rfl⟩ := by simpa using taken
      exact .workerLock (.inl at_) ‹_›
    · contradiction
  case woken =>
    split at taken
    · obtain ⟨rfl, rfl⟩ := by simpa using taken
      exact .workerLock (.inr at_) ‹_›
    · contradiction
  case test =>
    split at taken <;> rename_i tested <;> obtain ⟨rfl, rfl⟩ := by simpa using taken
    · exact .workerPass at_ (by simpa using tested)
    · simp only [Bool.or_eq_true, Bool.not_eq_true', not_or, Bool.not_eq_true,
        Bool.not_eq_false, List.isEmpty_iff] at tested
      exact .workerSleep at_ tested.1 tested.2
  case take =>
    split at taken
    · obtain ⟨rfl, rfl⟩ := by simpa using taken
      exact .takeNothing at_ (.inl ‹_›)
    · rename_i running
      split at taken <;> rename_i front <;> obtain ⟨rfl, rfl⟩ := by simpa using taken
      · exact .takeNothing at_ (.inr front)
      · exact .takeTask at_ (by simpa using running) front
  case running task =>
    split at taken <;> rename_i tested <;> obtain ⟨rfl, rfl⟩ := by simpa using taken
    · exact .taskExpired at_ tested
    · exact .taskDone at_ (Bool.eq_false_iff.mpr tested)

private theorem clientStep_cases {pool next : ZeroThreadPool workers clients} {c : Fin clients}
    {wake : Option (Owner workers clients)} {shown : List (Event workers clients)}
    (taken : pool.clientStep c wake = some (next, shown)) :
    Step pool (.client c wake) next shown := by
  cases at_ : pool.client c <;> simp only [clientStep, at_] at taken
  case idle => contradiction
  case waitAsleep => contradiction
  case crashed => contradiction
  case execLock task =>
    obtain ⟨free, rfl, rfl⟩ := clientLock_cases taken
    exact .execLock at_ free
  case execPush task =>
    obtain ⟨rfl, rfl⟩ := by simpa using taken
    exact .execPush at_
  case execNotify task =>
    split at taken <;> rename_i tested
    · obtain ⟨notified, notifies, same⟩ := Option.map_eq_some_iff.mp taken
      obtain ⟨rfl, rfl⟩ := by simpa using same
      exact .execNotify at_ (List.isEmpty_iff.mp tested) notifies
    · obtain ⟨rfl, rfl⟩ := by simpa using taken
      exact .execSkip at_ (by simpa using tested)
  case execUnlock task =>
    obtain ⟨rfl, rfl⟩ := by simpa using taken
    exact .execUnlock at_
  case waitLock millsecond =>
    obtain ⟨free, rfl, rfl⟩ := clientLock_cases taken
    exact .waitLock (.inl at_) free
  case waitWoken millsecond =>
    obtain ⟨free, rfl, rfl⟩ := clientLock_cases taken
    exact .waitLock (.inr at_) free
  case waitTest millsecond =>
    split at taken <;> rename_i tested <;> obtain ⟨rfl, rfl⟩ := by simpa using taken
    · exact .waitDone at_ (List.isEmpty_iff.mp tested)
    · exact .waitSleep at_ (by simpa using tested)
  case waitExpired =>
    split at taken
    · obtain ⟨rfl, rfl⟩ := by simpa using taken
      exact .waitExpired at_ ‹_›
    · contradiction
  case stopLock =>
    obtain ⟨free, rfl, rfl⟩ := clientLock_cases taken
    exact .stopLock at_ free
  case stopSet =>
    obtain ⟨rfl, rfl⟩ := by simpa using taken
    exact .stopSet at_
  case stopUnlock =>
    obtain ⟨rfl, rfl⟩ := by simpa using taken
    exact .stopUnlock at_
  case stopJoin i =>
    split at taken
    · obtain ⟨rfl, rfl⟩ := by simpa using taken
      exact .stopReturn at_ ‹_›
    · obtain ⟨rfl, rfl⟩ := by simpa using taken
      exact .stopCrash at_ ‹_›
    · split at taken
      · obtain ⟨rfl, rfl⟩ := by simpa using taken
        exact .stopJoin at_ ‹_› ‹_›
      · contradiction

theorem step_cases {pool next : ZeroThreadPool workers clients} {label : Label workers clients}
    {shown : List (Event workers clients)} (taken : pool.step label = some (next, shown)) :
    Step pool label next shown := by
  cases label with
  | exec c timeout func =>
      simp only [step] at taken
      split at taken
      · rename_i fits
        obtain ⟨at_, rfl, rfl⟩ := call_cases taken
        exact .exec at_ fits
      · contradiction
  | waitForAllDone c millsecond =>
      obtain ⟨at_, rfl, rfl⟩ := call_cases taken
      exact .waitForAllDone at_
  | stop c =>
      obtain ⟨at_, rfl, rfl⟩ := call_cases taken
      exact .stop at_
  | client c wake => exact clientStep_cases taken
  | timeout c =>
      simp only [step] at taken
      split at taken
      · rename_i millsecond at_
        split at taken
        · obtain ⟨rfl, rfl⟩ := by simpa using taken
          exact .waitTimeout at_ ‹_›
        · contradiction
      · contradiction
  | worker w => exact workerStep_cases taken

/-! ### Mutual exclusion -/

end ZeroThreadPool

/-- The control points of a worker between a lock and the next unlock or wait. -/
def Worker.holds : Worker → Bool
  | .test | .take => true
  | _ => false

/-- The control points of a client between a lock and the next unlock or wait. -/
def Client.holds : Client → Bool
  | .execPush _ | .execNotify _ | .execUnlock _ | .waitTest _ | .stopSet | .stopUnlock => true
  | _ => false

@[simp] theorem wakeWorker_holds (point : Worker) :
    (ZeroThreadPool.wakeWorker point).holds = point.holds := by
  cases point <;> rfl

@[simp] theorem wakeClient_holds (point : Client) :
    (ZeroThreadPool.wakeClient point).holds = point.holds := by
  cases point <;> rfl

namespace ZeroThreadPool

/-- Whether the thread stands between a lock and the matching unlock. -/
def holds (pool : ZeroThreadPool workers clients) : Owner workers clients → Bool
  | .worker w => (pool.worker w).holds
  | .client c => (pool.client c).holds

/-- The threads inside a critical section are those `_mutex` records. -/
def Exclusive (pool : ZeroThreadPool workers clients) : Prop :=
  ∀ owner, pool.holds owner = true → pool.mutex = some owner

variable {pool next : ZeroThreadPool workers clients}

private theorem Exclusive.congr (exclusive : pool.Exclusive) (mutex : next.mutex = pool.mutex)
    (same : ∀ owner, next.holds owner = pool.holds owner) : next.Exclusive := by
  intro owner inside
  rw [mutex]
  exact exclusive owner (by rwa [same] at inside)

private theorem Exclusive.setWorker (exclusive : pool.Exclusive) {w : Fin workers} {point : Worker}
    (same : point.holds = (pool.worker w).holds) : (pool.setWorker w point).Exclusive := by
  refine exclusive.congr rfl ?_
  rintro (other | c)
  · by_cases isSame : other = w
    · simp [holds, isSame, same]
    · simp [holds, isSame]
  · rfl

private theorem Exclusive.setClient (exclusive : pool.Exclusive) {c : Fin clients} {point : Client}
    (same : point.holds = (pool.client c).holds) : (pool.setClient c point).Exclusive := by
  refine exclusive.congr rfl ?_
  rintro (w | other)
  · rfl
  · by_cases isSame : other = c
    · simp [holds, isSame, same]
    · simp [holds, isSame]

private theorem Exclusive.lockWorker (exclusive : pool.Exclusive) (free : pool.mutex = none)
    (w : Fin workers) (point : Worker) :
    ((pool.acquire (.worker w)).setWorker w point).Exclusive := by
  rintro (other | c) inside
  · by_cases isSame : other = w
    · simp [isSame]
    · simp only [holds, setWorker_worker, if_neg isSame, acquire_worker] at inside
      have owned := exclusive (.worker other) inside
      rw [free] at owned
      contradiction
  · have owned := exclusive (.client c) inside
    rw [free] at owned
    contradiction

private theorem Exclusive.lockClient (exclusive : pool.Exclusive) (free : pool.mutex = none)
    (c : Fin clients) (point : Client) :
    ((pool.acquire (.client c)).setClient c point).Exclusive := by
  rintro (w | other) inside
  · have owned := exclusive (.worker w) inside
    rw [free] at owned
    contradiction
  · by_cases isSame : other = c
    · simp [isSame]
    · simp only [holds, setClient_client, if_neg isSame, acquire_client] at inside
      have owned := exclusive (.client other) inside
      rw [free] at owned
      contradiction

private theorem Exclusive.unlockWorker (exclusive : pool.Exclusive) {w : Fin workers}
    (inside : (pool.worker w).holds = true) {point : Worker} (outside : point.holds = false) :
    (pool.release.setWorker w point).Exclusive := by
  have owned : pool.mutex = some (.worker w) := exclusive (.worker w) inside
  rintro (other | c) holdsOther
  · by_cases isSame : other = w
    · simp [holds, isSame, outside] at holdsOther
    · simp only [holds, setWorker_worker, if_neg isSame, release_worker] at holdsOther
      have ownedOther := exclusive (.worker other) holdsOther
      rw [owned, Option.some.injEq, Owner.worker.injEq] at ownedOther
      exact absurd ownedOther.symm isSame
  · have ownedOther := exclusive (.client c) holdsOther
    rw [owned] at ownedOther
    simp at ownedOther

private theorem Exclusive.unlockClient (exclusive : pool.Exclusive) {c : Fin clients}
    (inside : (pool.client c).holds = true) {point : Client} (outside : point.holds = false) :
    (pool.release.setClient c point).Exclusive := by
  have owned : pool.mutex = some (.client c) := exclusive (.client c) inside
  rintro (w | other) holdsOther
  · have ownedOther := exclusive (.worker w) holdsOther
    rw [owned] at ownedOther
    simp at ownedOther
  · by_cases isSame : other = c
    · simp [holds, isSame, outside] at holdsOther
    · simp only [holds, setClient_client, if_neg isSame, release_client] at holdsOther
      have ownedOther := exclusive (.client other) holdsOther
      rw [owned, Option.some.injEq, Owner.client.injEq] at ownedOther
      exact absurd ownedOther.symm isSame

/-- A `notify_one` moves one sleeper, or nobody, and touches nothing else. -/
theorem notifyOne_cases {wake : Option (Owner workers clients)}
    (notifies : pool.notifyOne wake = some next) :
    next = pool ∨
      (∃ w, pool.worker w = .asleep ∧ next = pool.setWorker w .woken) ∨
      ∃ c, next = pool.setClient c (wakeClient (pool.client c)) := by
  unfold notifyOne at notifies
  split at notifies <;> split at notifies
  · exact .inl (Option.some.inj notifies).symm
  · contradiction
  · rename_i w asleep
    refine .inr (.inl ⟨w, ?_, (Option.some.inj notifies).symm⟩)
    simpa [sleeps] using asleep
  · contradiction
  · rename_i c _
    exact .inr (.inr ⟨c, (Option.some.inj notifies).symm⟩)
  · contradiction

private theorem Exclusive.notifyOne (exclusive : pool.Exclusive)
    {wake : Option (Owner workers clients)} (notifies : pool.notifyOne wake = some next) :
    next.Exclusive := by
  rcases notifyOne_cases notifies with rfl | ⟨w, asleep, rfl⟩ | ⟨c, rfl⟩
  · exact exclusive
  · exact exclusive.setWorker (by simp [asleep, Worker.holds])
  · exact exclusive.setClient (wakeClient_holds _)

theorem Step.exclusive {label : Label workers clients} {shown : List (Event workers clients)}
    (taken : Step pool label next shown) (exclusive : pool.Exclusive) : next.Exclusive := by
  cases taken with
  | exec at_ _ | waitForAllDone at_ | stop at_ =>
      exact exclusive.setClient (by simp [at_, Client.holds])
  | workerExit at_ _ | workerEnter at_ _ | workerPass at_ _ | taskExpired at_ _ | taskDone at_ _ =>
      exact exclusive.setWorker (by simp [at_, Worker.holds])
  | workerLock at_ free => exact exclusive.lockWorker free _ _
  | workerSleep at_ _ _ | takeNothing at_ _ =>
      exact exclusive.unlockWorker (by simp [at_, Worker.holds]) rfl
  | @takeTask w task rest at_ running front =>
      have same : Exclusive { pool with taskQ := rest } := exclusive
      exact same.unlockWorker (by simp [at_, Worker.holds]) rfl
  | execLock at_ free | waitLock at_ free | stopLock at_ free => exact exclusive.lockClient free _ _
  | @execPush c wake task at_ =>
      have same : (pool.push task).Exclusive := exclusive
      exact same.setClient (by simp [at_, Client.holds])
  | @execNotify c wake task notified at_ empty notifies =>
      have moved := exclusive.notifyOne notifies
      refine moved.setClient ?_
      rcases notifyOne_cases notifies with rfl | ⟨w, -, rfl⟩ | ⟨other, rfl⟩
      · simp [at_, Client.holds]
      · simp [at_, Client.holds]
      · simp only [setClient_client]
        split
        · rename_i isSame
          rw [wakeClient_holds, ← isSame, at_]
          rfl
        · simp [at_, Client.holds]
  | execSkip at_ _ | stopReturn at_ _ | stopCrash at_ _ | waitTimeout at_ _ | waitExpired at_ _ =>
      exact exclusive.setClient (by simp [at_, Client.holds])
  | execUnlock at_ | waitDone at_ _ | waitSleep at_ _ | stopUnlock at_ =>
      exact exclusive.unlockClient (by simp [at_, Client.holds]) rfl
  | @stopSet c wake at_ =>
      have same : Exclusive ({ pool with bTerminate := true } : ZeroThreadPool _ _).notifyAll := by
        refine exclusive.congr rfl ?_
        rintro (w | c) <;> simp [holds, notifyAll]
      refine same.setClient ?_
      simp only [notifyAll, wakeClient_holds, at_]
      rfl
  | @stopJoin c wake i w at_ thread ended =>
      have same : Exclusive { pool with threads := pool.threads.set i none } := exclusive
      exact same.setClient (by simp [at_, Client.holds])

theorem exec_exclusive {labels : List (Label workers clients)}
    {events : List (Event workers clients)}
    (exec : (machine workers clients).Exec labels pool events) : pool.Exclusive := by
  induction exec with
  | start =>
      rintro (w | c) inside <;> simp [holds, machine, create, Worker.holds, Client.holds] at inside
  | step before taken inductionHypothesis => exact (step_cases taken).exclusive inductionHypothesis

end ZeroThreadPool

end SimpleBasicComponents.ThreadPool
