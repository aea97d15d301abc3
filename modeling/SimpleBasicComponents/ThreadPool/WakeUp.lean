import SimpleBasicComponents.ThreadPool.Steps

/-!
Wake-ups of the thread pool.

Owns: the state with stored tasks and every worker asleep, and the exact
schedules of `exec` that lead there. `exec` tests `_taskQ.empty()` after its
push, so it never notifies: a worker that sleeps stays asleep, and a task is
served only if some worker is still on its way when `exec` takes the mutex.
-/

namespace SimpleBasicComponents.ThreadPool

open SimpleBasicComponents.Semantics

variable {workers clients : Nat}

/-- Between the lock and the unlock of `exec`. -/
def Client.inExec : Client → Bool
  | .execPush _ | .execNotify _ | .execUnlock _ => true
  | _ => false

/-- Between the push and the unlock of `exec`. -/
def Client.hasPushed : Client → Bool
  | .execNotify _ | .execUnlock _ => true
  | _ => false

/-- Inside `stop`. -/
def Client.inStop : Client → Bool
  | .stopLock | .stopSet | .stopUnlock | .stopJoin _ | .crashed => true
  | _ => false

theorem Client.holds_of_inExec {point : Client} (inside : point.inExec = true) :
    point.holds = true := by
  cases point <;> simp_all [Client.inExec, Client.holds]

theorem Client.inExec_of_hasPushed {point : Client} (pushed : point.hasPushed = true) :
    point.inExec = true := by
  cases point <;> simp_all [Client.inExec, Client.hasPushed]

namespace ZeroThreadPool

/-- Some worker is not asleep in `_condition.wait`. -/
def Awake (pool : ZeroThreadPool workers clients) : Prop := ∃ w, pool.worker w ≠ .asleep

/-- Tasks are stored, every worker sleeps, and no `exec` is inside its critical
section. -/
def LostWakeUp (pool : ZeroThreadPool workers clients) : Prop :=
  pool.taskQ ≠ [] ∧ (∀ w, pool.worker w = .asleep) ∧ ∀ c, (pool.client c).inExec = false

instance (pool : ZeroThreadPool workers clients) : Decidable pool.LostWakeUp := by
  unfold LostWakeUp
  infer_instance

/-- An `exec` that takes the mutex does so while some worker is awake. -/
def ExecAwake (pool : ZeroThreadPool workers clients) : Label workers clients → Prop
  | .client c _ => ∀ task, pool.client c = .execLock task → pool.Awake
  | _ => True

variable {pool next : ZeroThreadPool workers clients} {label : Label workers clients}
  {shown : List (Event workers clients)}

/-! ### Runs without `stop` -/

/-- What holds while nobody calls `stop`. -/
structure Serving (pool : ZeroThreadPool workers clients) : Prop where
  running : pool.bTerminate = false
  noStop : ∀ c, (pool.client c).inStop = false
  pushed : ∀ c, (pool.client c).hasPushed = true → pool.taskQ ≠ []

/-- Moving one client keeps it if the new control point respects it. -/
private theorem Serving.setClient (serving : pool.Serving) {c : Fin clients} {point : Client}
    (noStop : point.inStop = false) (pushed : point.hasPushed = true → pool.taskQ ≠ []) :
    (pool.setClient c point).Serving := by
  refine ⟨serving.running, ?_, ?_⟩
  · intro other
    rw [setClient_client]
    split
    · exact noStop
    · exact serving.noStop other
  · intro other
    rw [setClient_client]
    split
    · exact pushed
    · exact serving.pushed other

private theorem Serving.congr (serving : pool.Serving) (terminate : next.bTerminate = pool.bTerminate)
    (client : next.client = pool.client) (taskQ : next.taskQ = pool.taskQ) : next.Serving := by
  refine ⟨terminate.trans serving.running, ?_, ?_⟩
  · rw [client]
    exact serving.noStop
  · rw [client, taskQ]
    exact serving.pushed

/-- A worker that pops holds the mutex, so no `exec` has pushed and not unlocked. -/
private theorem Exclusive.no_exec_of_worker (exclusive : pool.Exclusive) {w : Fin workers}
    (inside : (pool.worker w).holds = true) (c : Fin clients) :
    (pool.client c).inExec = false := by
  by_contra inExec
  have ownedClient := exclusive (.client c)
    (Client.holds_of_inExec (Bool.eq_true_of_not_eq_false inExec))
  have ownedWorker := exclusive (.worker w) inside
  rw [ownedWorker] at ownedClient
  simp at ownedClient

theorem Step.serving (taken : Step pool label next shown) (exclusive : pool.Exclusive)
    (noStop : ∀ c, label ≠ .stop c) (serving : pool.Serving) : next.Serving := by
  cases taken with
  | stop at_ => exact absurd rfl (noStop _)
  | exec at_ _ | waitForAllDone at_ | waitTimeout at_ _ | waitExpired at_ _ =>
      exact serving.setClient rfl (by simp [Client.hasPushed])
  | execUnlock at_ | waitDone at_ _ | waitSleep at_ _ =>
      have same : pool.release.Serving := serving.congr rfl rfl rfl
      exact same.setClient rfl (by simp [Client.hasPushed])
  | @execLock c _ _ at_ _ | @waitLock c _ _ at_ _ =>
      have same : (pool.acquire (.client c)).Serving := serving.congr rfl rfl rfl
      exact same.setClient rfl (by simp [Client.hasPushed])
  | workerExit at_ _ | workerEnter at_ _ | workerLock at_ _ | workerPass at_ _
  | workerSleep at_ _ _ | takeNothing at_ _ | taskExpired at_ _ | taskDone at_ _ =>
      exact serving.congr rfl rfl rfl
  | @takeTask w task rest at_ running front =>
      refine ⟨serving.running, serving.noStop, ?_⟩
      intro c pushed
      have outside := exclusive.no_exec_of_worker (w := w) (by rw [at_]; rfl) c
      have inside : (pool.client c).inExec = true := Client.inExec_of_hasPushed pushed
      rw [inside] at outside
      contradiction
  | @execPush c wake task at_ =>
      have stored : (pool.push task).taskQ ≠ [] := by simp
      have pushed : (pool.push task).Serving :=
        ⟨serving.running, serving.noStop, fun _ _ => stored⟩
      exact pushed.setClient rfl (fun _ => stored)
  | @execNotify c wake task notified at_ empty notifies =>
      exact absurd empty (serving.pushed c (by rw [at_]; rfl))
  | execSkip at_ stored => exact serving.setClient rfl (fun _ => stored)
  | @stopLock c wake at_ _ | @stopSet c wake at_ | @stopUnlock c wake at_
  | @stopReturn c wake i at_ _ | @stopCrash c wake i at_ _ | @stopJoin c wake i w at_ _ _ =>
      have outside := serving.noStop c
      rw [at_] at outside
      contradiction

theorem exec_serving {labels : List (Label workers clients)}
    {events : List (Event workers clients)}
    (exec : (machine workers clients).Exec labels pool events)
    (noStop : ∀ c, .stop c ∉ labels) : pool.Serving := by
  induction exec with
  | start =>
      exact ⟨rfl, fun c => rfl, fun c pushed => absurd pushed (by simp [machine, create, Client.hasPushed])⟩
  | @step labels pool next events shown label before taken inductionHypothesis =>
      have serving := inductionHypothesis fun c member =>
        noStop c (List.mem_append_left _ member)
      refine (step_cases taken).serving (exec_exclusive before) ?_ serving
      rintro c rfl
      exact noStop c (List.mem_append_right _ (List.mem_singleton_self _))

/-! ### A worker stays awake for every stored task -/

/-- Wherever a task is stored, or about to be, some worker is awake. -/
def Attended (pool : ZeroThreadPool workers clients) : Prop :=
  (pool.taskQ ≠ [] ∨ ∃ c, (pool.client c).inExec = true) → pool.Awake

theorem Attended.not_lostWakeUp (attended : pool.Attended) : ¬ pool.LostWakeUp := by
  rintro ⟨stored, asleep, -⟩
  obtain ⟨w, awake⟩ := attended (.inl stored)
  exact awake (asleep w)

private theorem awake_setWorker {w : Fin workers} {point : Worker} (awake : point ≠ .asleep) :
    (pool.setWorker w point).Awake := by
  refine ⟨w, ?_⟩
  simpa using awake

/-- A client that moves without entering `exec` leaves the workers as they are. -/
private theorem Attended.setClient (attended : pool.Attended) {c : Fin clients} {point : Client}
    (inside : point.inExec = true → (pool.client c).inExec = true) :
    (pool.setClient c point).Attended := by
  rintro (stored | ⟨other, inExec⟩)
  · exact attended (.inl stored)
  · rw [setClient_client] at inExec
    split at inExec
    · exact attended (.inr ⟨c, inside inExec⟩)
    · exact attended (.inr ⟨other, inExec⟩)

theorem Step.attended (taken : Step pool label next shown) (exclusive : pool.Exclusive)
    (serving : pool.Serving) (noStop : ∀ c, label ≠ .stop c) (execAwake : pool.ExecAwake label)
    (attended : pool.Attended) : next.Attended := by
  cases taken with
  | stop at_ => exact absurd rfl (noStop _)
  | workerExit | workerEnter | workerLock | workerPass | takeNothing | takeTask | taskExpired
  | taskDone => exact fun _ => awake_setWorker (by simp)
  | @workerSleep w at_ running empty =>
      rintro (stored | ⟨c, inExec⟩)
      · exact absurd empty stored
      · have outside := exclusive.no_exec_of_worker (w := w) (by rw [at_]; rfl) c
        rw [setWorker_client, release_client, outside] at inExec
        contradiction
  | @execLock c wake task at_ free => exact fun _ => execAwake task at_
  | @execPush c wake task at_ =>
      have awake : pool.Awake := attended (.inr ⟨c, by rw [at_]; rfl⟩)
      exact fun _ => awake
  | @execNotify c wake task notified at_ empty notifies =>
      exact absurd empty (serving.pushed c (by rw [at_]; rfl))
  | @execSkip c wake task at_ stored =>
      exact attended.setClient fun _ => by rw [at_]; rfl
  | exec at_ _ | waitForAllDone at_ | waitTimeout at_ _ | waitExpired at_ _ =>
      exact attended.setClient (by simp [Client.inExec])
  | execUnlock at_ | waitDone at_ _ | waitSleep at_ _ =>
      have same : pool.release.Attended := attended
      exact same.setClient (by simp [Client.inExec])
  | @waitLock c _ _ at_ _ =>
      have same : (pool.acquire (.client c)).Attended := attended
      exact same.setClient (by simp [Client.inExec])
  | @stopLock c wake at_ _ | @stopSet c wake at_ | @stopUnlock c wake at_
  | @stopReturn c wake i at_ _ | @stopCrash c wake i at_ _ | @stopJoin c wake i w at_ _ _ =>
      have outside := serving.noStop c
      rw [at_] at outside
      contradiction

/-! ### An idle pool stays idle -/

/-- An `exec` is inside its critical section while every worker sleeps. -/
def Abandoned (pool : ZeroThreadPool workers clients) : Prop :=
  (∀ w, pool.worker w = .asleep) ∧ ∃ c, (pool.client c).inExec = true

private theorem Abandoned.setClient (pool : ZeroThreadPool workers clients) {c caller : Fin clients} {point : Client}
    (asleep : ∀ w, pool.worker w = .asleep) (inExec : (pool.client caller).inExec = true)
    (inside : caller = c → point.inExec = true) : (pool.setClient c point).Abandoned := by
  refine ⟨asleep, caller, ?_⟩
  rw [setClient_client]
  split
  · exact inside ‹_›
  · exact inExec

/-- Only an `exec` that takes the mutex while all workers sleep breaks the guard. -/
theorem Step.abandons (taken : Step pool label next shown) (unguarded : ¬ pool.ExecAwake label) :
    next.Abandoned := by
  cases label with
  | client c wake =>
      simp only [ExecAwake, not_forall] at unguarded
      obtain ⟨task, lockPoint, notAwake⟩ := unguarded
      have asleep : ∀ w, pool.worker w = .asleep := by
        intro w
        by_contra awake
        exact notAwake ⟨w, awake⟩
      cases taken with
      | execLock at_ free => exact ⟨asleep, c, by simp [Client.inExec]⟩
      | waitLock at_ free => simp [lockPoint] at at_
      | execPush at_ | execNotify at_ _ _ | execSkip at_ _ | execUnlock at_ | waitDone at_ _
      | waitSleep at_ _ | waitExpired at_ _ | stopLock at_ _ | stopSet at_ | stopUnlock at_
      | stopReturn at_ _ | stopCrash at_ _ | stopJoin at_ _ _ =>
          rw [lockPoint] at at_
          contradiction
  | _ => exact absurd trivial unguarded

/-- Only the end of that `exec` leaves the situation, and it leaves the tasks to
sleeping workers. -/
theorem Step.abandoned (taken : Step pool label next shown) (exclusive : pool.Exclusive)
    (serving : pool.Serving) (noStop : ∀ c, label ≠ .stop c) (abandoned : pool.Abandoned) :
    next.Abandoned ∨ next.LostWakeUp := by
  obtain ⟨asleep, caller, inExec⟩ := abandoned
  have owned := exclusive (.client caller) (Client.holds_of_inExec inExec)
  have notAt : ∀ {c : Fin clients} {point : Client}, pool.client c = point →
      point.inExec = false → caller ≠ c := by
    rintro c point at_ outside rfl
    rw [at_, outside] at inExec
    contradiction
  have isCaller : ∀ {c : Fin clients} {point : Client}, pool.client c = point →
      point.holds = true → c = caller := by
    intro c point at_ holdsPoint
    have ownedOther := exclusive (.client c) (by simpa [holds, at_] using holdsPoint)
    rw [owned, Option.some.injEq, Owner.client.injEq] at ownedOther
    exact ownedOther.symm
  cases taken with
  | stop at_ => exact absurd rfl (noStop _)
  | @workerExit w at_ _ | @workerEnter w at_ _ | @workerPass w at_ _ | @workerSleep w at_ _ _
  | @takeNothing w at_ _ | @takeTask w task rest at_ _ _ | @taskExpired w task at_ _
  | @taskDone w task at_ _ =>
      rw [asleep w] at at_
      contradiction
  | workerLock at_ free | execLock at_ free | waitLock at_ free | waitExpired at_ free
  | stopLock at_ free =>
      rw [free] at owned
      contradiction
  | exec at_ _ | waitForAllDone at_ | waitTimeout at_ _ =>
      exact .inl (Abandoned.setClient pool asleep inExec fun same => absurd same (notAt at_ rfl))
  | @waitDone c wake millsecond at_ _ | @waitSleep c wake millsecond at_ _ =>
      exact absurd (isCaller at_ rfl).symm (notAt at_ rfl)
  | @execPush c wake task at_ =>
      exact .inl (Abandoned.setClient (pool.push task) asleep inExec fun _ => rfl)
  | @execNotify c wake task notified at_ empty notifies =>
      exact absurd empty (serving.pushed c (by rw [at_]; rfl))
  | execSkip at_ stored => exact .inl (Abandoned.setClient pool asleep inExec fun _ => rfl)
  | @execUnlock c wake task at_ =>
      refine .inr ⟨serving.pushed c (by rw [at_]; rfl), asleep, ?_⟩
      intro other
      rw [setClient_client]
      split
      · rfl
      · rename_i isOther
        by_contra inside
        have ownedOther := exclusive (.client other)
          (Client.holds_of_inExec (Bool.eq_true_of_not_eq_false inside))
        rw [owned, Option.some.injEq, Owner.client.injEq] at ownedOther
        exact isOther (ownedOther.symm.trans (isCaller at_ rfl).symm)
  | @stopSet c wake at_ | @stopUnlock c wake at_
  | @stopReturn c wake i at_ _ | @stopCrash c wake i at_ _ | @stopJoin c wake i w at_ _ _ =>
      have outside := serving.noStop c
      rw [at_] at outside
      contradiction

/-! ### Whole runs -/

variable {labels : List (Label workers clients)} {events : List (Event workers clients)}

theorem exec_attended (exec : (machine workers clients).Exec labels pool events)
    (noStop : ∀ c, .stop c ∉ labels) (guarded : (machine workers clients).Guarded ExecAwake labels) :
    pool.Attended := by
  induction exec with
  | start =>
      rintro (stored | ⟨c, inExec⟩)
      · exact absurd rfl stored
      · simp [machine, create, Client.inExec] at inExec
  | @step labels pool next events shown label before taken inductionHypothesis =>
      obtain ⟨earlier, atEnd⟩ := Machine.guarded_snoc_iff.mp guarded
      have noStopBefore : ∀ c, .stop c ∉ labels :=
        fun c member => noStop c (List.mem_append_left _ member)
      refine (step_cases taken).attended (exec_exclusive before) (exec_serving before noStopBefore)
        ?_ (atEnd _ _ before) (inductionHypothesis noStopBefore earlier)
      rintro c rfl
      exact noStop c (List.mem_append_right _ (List.mem_singleton_self _))

/-- A run without lost wake-ups in which some `exec` found all workers asleep is
still inside that `exec`. -/
private theorem guarded_or_abandoned (exec : (machine workers clients).Exec labels pool events)
    (noStop : ∀ c, .stop c ∉ labels)
    (always : (machine workers clients).Always (fun pool _ => ¬ pool.LostWakeUp) labels) :
    (machine workers clients).Guarded ExecAwake labels ∨ pool.Abandoned := by
  induction exec with
  | start => exact .inl Machine.guarded_nil
  | @step labels pool next events shown label before taken inductionHypothesis =>
      have exec := before.step taken
      obtain ⟨earlier, atEnd⟩ := Machine.always_snoc_iff.mp always
      have noStopBefore : ∀ c, .stop c ∉ labels :=
        fun c member => noStop c (List.mem_append_left _ member)
      have notStop : ∀ c, label ≠ .stop c := by
        rintro c rfl
        exact noStop c (List.mem_append_right _ (List.mem_singleton_self _))
      have taken := step_cases taken
      have exclusive := exec_exclusive before
      have serving := exec_serving before noStopBefore
      rcases inductionHypothesis noStopBefore earlier with guarded | abandoned
      · by_cases meets : pool.ExecAwake label
        · refine .inl (Machine.guarded_snoc_iff.mpr ⟨guarded, ?_⟩)
          intro other seen ran
          obtain ⟨rfl, -⟩ := before.functional ran
          exact meets
        · exact .inr (taken.abandons meets)
      · rcases taken.abandoned exclusive serving notStop abandoned with still | lost
        · exact .inr still
        · exact absurd lost (atEnd _ _ exec)

/-- No lost wake-up, exactly: without `stop`, a run in which every `exec` takes
the mutex while a worker is awake never leaves stored tasks to sleeping workers;
and a run that never does so, and has left every `exec`, is such a run. -/
theorem lostWakeUp_free_iff_execAwake (exec : (machine workers clients).Exec labels pool events)
    (noStop : ∀ c, .stop c ∉ labels) :
    ((machine workers clients).Guarded ExecAwake labels →
        (machine workers clients).Always (fun pool _ => ¬ pool.LostWakeUp) labels) ∧
      ((∀ c, (pool.client c).inExec = false) →
        ((machine workers clients).Always (fun pool _ => ¬ pool.LostWakeUp) labels ↔
          (machine workers clients).Guarded ExecAwake labels)) := by
  have enough : (machine workers clients).Guarded ExecAwake labels →
      (machine workers clients).Always (fun pool _ => ¬ pool.LostWakeUp) labels := by
    intro guarded before earlier seen isPrefix execBefore
    have noStopBefore : ∀ c, .stop c ∉ before :=
      fun c member => noStop c (isPrefix.subset member)
    have guardedBefore : (machine workers clients).Guarded ExecAwake before :=
      fun prior label state events within ran =>
        guarded prior label state events (within.trans isPrefix) ran
    exact (exec_attended execBefore noStopBefore guardedBefore).not_lostWakeUp
  refine ⟨enough, fun left => ⟨fun always => ?_, enough⟩⟩
  rcases guarded_or_abandoned exec noStop always with guarded | ⟨-, c, inExec⟩
  · exact guarded
  · rw [left c] at inExec
    contradiction

/-! ### The idle pool -/

/-- The five workers of the default pool fall asleep, then one `exec` is called. -/
def execOnIdlePool : List (Label 5 1) :=
  (List.finRange 5).flatMap (fun w => List.replicate 3 (.worker w)) ++
    .exec 0 0 1 :: List.replicate 4 (.client 0 none)

private theorem execOnIdlePool_exec :
    ∃ pool events, (machine 5 1).Exec execOnIdlePool pool events ∧
      (∀ c, .stop c ∉ execOnIdlePool) ∧ pool.LostWakeUp := by
  have exec := (machine 5 1).exec_of_isSome execOnIdlePool (by decide +kernel)
  exact ⟨_, _, exec, by decide, by decide +kernel⟩

/-- The task is queued and nobody is woken for it. -/
theorem execOnIdlePool_loses_wakeUp :
    ∃ pool events, (machine 5 1).Exec execOnIdlePool pool events ∧
      (∀ c, .stop c ∉ execOnIdlePool) ∧ pool.LostWakeUp :=
  execOnIdlePool_exec

theorem execOnIdlePool_not_execAwake : ¬ (machine 5 1).Guarded ExecAwake execOnIdlePool := by
  obtain ⟨pool, events, exec, noStop, lost⟩ := execOnIdlePool_exec
  intro guarded
  exact ((lostWakeUp_free_iff_execAwake exec noStop).1 guarded).last exec lost

end ZeroThreadPool

end SimpleBasicComponents.ThreadPool
