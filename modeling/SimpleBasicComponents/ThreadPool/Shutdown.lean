import SimpleBasicComponents.Semantics.History
import SimpleBasicComponents.ThreadPool.Steps

/-!
Shutting the thread pool down.

Owns: what `stop` owes to the pool, and the theorem that a run keeps to it
exactly as long as no `stop` enters its loop over `_threads`. The constructor
resizes `_threads` to the number of its workers and then appends them, so the
loop starts at a null pointer, whatever the number of workers.
-/

namespace SimpleBasicComponents.ThreadPool

open SimpleBasicComponents.Semantics

variable {workers clients : Nat}

/-- No null pointer is dereferenced; when `stop` returns, every worker was joined
once; and no task is started any more. -/
structure ShutsDown (events : List (Event workers clients)) : Prop where
  noNull : ∀ i, .nullDereference i ∉ events
  joined : Historically (fun earlier event =>
    ∀ c, event = .stopReturn c → ∀ w, earlier.count (.joined w) = 1) events
  noStart : Historically (fun earlier event =>
    ∀ w task, event = .taskStart w task → ∀ c, .stopReturn c ∉ earlier) events

namespace ZeroThreadPool

/-- A client takes a step of the loop over `_threads`. -/
def InLoop (pool : ZeroThreadPool workers clients) : Label workers clients → Prop
  | .client c _ => ∃ i, pool.client c = .stopJoin i
  | _ => False

/-- Nothing has come of any `stop` so far. -/
structure Unjoined (pool : ZeroThreadPool workers clients) (events : List (Event workers clients)) :
    Prop where
  threads : pool.threads = (create workers clients).threads
  first : ∀ c i, pool.client c = .stopJoin i → i = 0
  noReturn : ∀ c, .stopReturn c ∉ events

variable {pool next : ZeroThreadPool workers clients} {label : Label workers clients}
  {labels : List (Label workers clients)} {events shown : List (Event workers clients)}

private theorem wakeClient_stopJoin {point : Client} {i : Nat} :
    wakeClient point = .stopJoin i ↔ point = .stopJoin i := by
  cases point <;> simp [wakeClient]

/-- No step but those of the loop touches `_threads`. -/
private theorem Step.threads (taken : Step pool label next shown) (outside : ¬ pool.InLoop label) :
    next.threads = pool.threads := by
  cases taken with
  | @stopReturn c wake i at_ _ | @stopCrash c wake i at_ _ | @stopJoin c wake i w at_ _ _ =>
      exact absurd ⟨i, at_⟩ outside
  | execNotify _ _ notifies =>
      rcases notifyOne_cases notifies with rfl | ⟨w, -, rfl⟩ | ⟨c, rfl⟩ <;> rfl
  | _ => rfl

/-- A client comes to the loop at its first turn. -/
private theorem Step.first (taken : Step pool label next shown) (outside : ¬ pool.InLoop label)
    {c : Fin clients} {i : Nat} (joins : next.client c = .stopJoin i) :
    i = 0 ∨ pool.client c = .stopJoin i := by
  cases taken with
  | @stopReturn c wake i at_ _ | @stopCrash c wake i at_ _ | @stopJoin c wake i w at_ _ _ =>
      exact absurd ⟨i, at_⟩ outside
  | workerExit | workerEnter | workerLock | workerPass | workerSleep | takeNothing | takeTask
  | taskExpired | taskDone => exact .inr joins
  | @execNotify caller wake task notified at_ empty notifies =>
      rw [setClient_client] at joins
      split at joins
      · contradiction
      · rcases notifyOne_cases notifies with rfl | ⟨w, -, rfl⟩ | ⟨other, rfl⟩
        · exact .inr joins
        · exact .inr joins
        · rw [setClient_client] at joins
          split at joins
          · rename_i same
            exact .inr (same ▸ wakeClient_stopJoin.mp joins)
          · exact .inr joins
  | @stopSet caller wake at_ =>
      rw [setClient_client] at joins
      split at joins
      · contradiction
      · exact .inr (wakeClient_stopJoin.mp joins)
  | stopUnlock at_ =>
      rw [setClient_client] at joins
      split at joins
      · exact .inl (Client.stopJoin.inj joins).symm
      · exact .inr joins
  | exec | waitForAllDone | stop | execLock | execPush | execSkip | execUnlock | waitLock | waitDone
  | waitSleep | waitTimeout | waitExpired | stopLock =>
      rw [setClient_client] at joins
      split at joins
      · contradiction
      · exact .inr joins

private theorem Step.quiet (taken : Step pool label next shown) (outside : ¬ pool.InLoop label) :
    (∀ c, .stopReturn c ∉ shown) ∧ ∀ i, .nullDereference i ∉ shown := by
  cases taken with
  | @stopReturn c wake i at_ _ | @stopCrash c wake i at_ _ | @stopJoin c wake i w at_ _ _ =>
      exact absurd ⟨i, at_⟩ outside
  | _ => simp

/-- The first step of the loop finds the null pointer. -/
private theorem Step.crashes (taken : Step pool label next shown) (positive : 0 < workers)
    (unjoined : Unjoined pool events) (inside : pool.InLoop label) : shown = [.nullDereference 0] := by
  have null : pool.threads[0]? = some none := by
    rw [unjoined.threads, create, List.getElem?_append_left (by simpa using positive)]
    simp [positive]
  cases taken with
  | @stopReturn c wake i at_ past =>
      rw [unjoined.first c i at_, null] at past
      contradiction
  | @stopJoin c wake i w at_ thread ended =>
      rw [unjoined.first c i at_, null] at thread
      simp at thread
  | @stopCrash c wake i at_ _ => rw [unjoined.first c i at_]
  | exec | waitForAllDone | stop | workerExit | workerEnter | workerLock | workerPass | workerSleep
  | takeNothing | takeTask | taskExpired | taskDone | waitTimeout => exact inside.elim
  | @waitLock c wake millsecond at_ free =>
      obtain ⟨i, joins⟩ := inside
      rw [joins] at at_
      simp at at_
  | execLock at_ _ | execPush at_ | execNotify at_ _ _ | execSkip at_ _ | execUnlock at_
  | waitDone at_ _ | waitSleep at_ _ | waitExpired at_ _ | stopLock at_ _ | stopSet at_
  | stopUnlock at_ =>
      obtain ⟨i, joins⟩ := inside
      rw [joins] at at_
      contradiction

theorem Step.unjoined (taken : Step pool label next shown) (outside : ¬ pool.InLoop label)
    (unjoined : Unjoined pool events) : Unjoined next (events ++ shown) where
  threads := (taken.threads outside).trans unjoined.threads
  first c i joins := (taken.first outside joins).elim id (unjoined.first c i)
  noReturn c returned := (List.mem_append.mp returned).elim (unjoined.noReturn c)
    ((taken.quiet outside).1 c)

/-! ### Whole runs -/

/-- Where no null pointer was dereferenced, no `stop` has got anywhere. -/
private theorem exec_unjoined (positive : 0 < workers)
    (exec : (machine workers clients).Exec labels pool events)
    (noNull : ∀ i, .nullDereference i ∉ events) : Unjoined pool events := by
  induction exec with
  | start => exact ⟨rfl, fun c i joins => by simp [machine, create] at joins, fun c => List.not_mem_nil⟩
  | @step labels pool next events shown label before taken inductionHypothesis =>
      have noNullBefore : ∀ i, .nullDereference i ∉ events :=
        fun i earlier => noNull i (List.mem_append_left _ earlier)
      have unjoined := inductionHypothesis noNullBefore
      have taken := step_cases taken
      by_cases inside : pool.InLoop label
      · have shows := taken.crashes positive unjoined inside
        exact absurd (by rw [shows]; simp) (noNull 0)
      · exact taken.unjoined inside unjoined

theorem Unjoined.shutsDown (unjoined : Unjoined pool events) (noNull : ∀ i, .nullDereference i ∉ events) :
    ShutsDown events := by
  refine ⟨noNull, ?_, ?_⟩
  · rintro earlier event later split c rfl
    exact absurd (by rw [split]; simp) (unjoined.noReturn c)
  · rintro earlier event later split w task rfl c returned
    exact absurd (by rw [split]; exact List.mem_append_left _ returned) (unjoined.noReturn c)

/-- For every argument of the constructor: a run shuts the pool down as it should
exactly as long as no `stop` enters its loop. -/
theorem shutsDown_iff_notInLoop (num : Nat) {labels : List (Label (threadCount num) clients)}
    {pool : ZeroThreadPool (threadCount num) clients} {events : List (Event (threadCount num) clients)}
    (exec : (machine (threadCount num) clients).Exec labels pool events) :
    (machine (threadCount num) clients).Always (fun _ events => ShutsDown events) labels ↔
      (machine (threadCount num) clients).Guarded (fun pool label => ¬ pool.InLoop label) labels := by
  have positive : 0 < threadCount num := by
    unfold threadCount threadNumMin
    split <;> omega
  apply exec.always_iff_guarded
  · exact ⟨fun i => List.not_mem_nil, historically_nil, historically_nil⟩
  · intro before label pool seen next shown _ ran shutsDown taken
    have unjoined := exec_unjoined positive ran shutsDown.noNull
    have taken := step_cases taken
    constructor
    · intro still inside
      have shows := taken.crashes positive unjoined inside
      exact still.noNull 0 (by rw [shows]; simp)
    · intro outside
      apply (taken.unjoined outside unjoined).shutsDown
      intro i null
      rcases List.mem_append.mp null with earlier | now
      · exact shutsDown.noNull i earlier
      · exact (taken.quiet outside).2 i now

/-- A client calls `stop` on the new pool and goes through to the loop. -/
def stopAtOnce (c : Fin clients) : List (Label workers clients) :=
  .stop c :: List.replicate 4 (.client c none)

/-- No `stop` gets through, whatever the argument of the constructor. -/
theorem stopAtOnce_crashes (num : Nat) (c : Fin clients) :
    ∃ pool events, (machine (threadCount num) clients).Exec (stopAtOnce c) pool events ∧
      .nullDereference 0 ∈ events := by
  have positive : 0 < threadCount num := by
    unfold threadCount threadNumMin
    split <;> omega
  generalize threadCount num = workers at positive
  have null : (create workers clients).threads[0]? = some none := by
    rw [create, List.getElem?_append_left (by simpa using positive)]
    simp [positive]
  generalize isLocked : (((create workers clients).setClient c .stopLock).acquire (.client c)).setClient c
    .stopSet = locked
  generalize isSet : (({ locked with bTerminate := true }).notifyAll).setClient c .stopUnlock = set
  generalize isFree : set.release.setClient c (.stopJoin 0) = free
  have calls : (machine workers clients).step (create workers clients) (.stop c) =
      some ((create workers clients).setClient c .stopLock, []) := rfl
  have locks : (machine workers clients).step ((create workers clients).setClient c .stopLock)
      (.client c none) = some (locked, []) := by
    simp [machine, step, clientStep, clientLock, create, ← isLocked]
  have sets : (machine workers clients).step locked (.client c none) = some (set, []) := by
    have at_ : locked.client c = .stopSet := by simp [← isLocked]
    simp [machine, step, clientStep, at_, isSet]
  have frees : (machine workers clients).step set (.client c none) = some (free, []) := by
    have at_ : set.client c = .stopUnlock := by simp [← isSet]
    simp [machine, step, clientStep, at_, isFree]
  have crashes : (machine workers clients).step free (.client c none) =
      some (free.setClient c .crashed, [.nullDereference 0]) := by
    have at_ : free.client c = .stopJoin 0 := by simp [← isFree]
    have threads : free.threads[0]? = some none := by
      rw [← isFree, ← isSet, ← isLocked]
      exact null
    simp [machine, step, clientStep, at_, threads]
  have ran := ((((Machine.Exec.start.step calls).step locks).step sets).step frees).step crashes
  exact ⟨_, _, ran, by simp⟩

theorem stopAtOnce_not_shutsDown :
    ∃ pool events, (machine (threadCount 5) 1).Exec (stopAtOnce 0) pool events ∧ ¬ ShutsDown events := by
  obtain ⟨pool, events, ran, null⟩ := stopAtOnce_crashes 5 (0 : Fin 1)
  exact ⟨pool, events, ran, fun shutsDown => shutsDown.noNull 0 null⟩

theorem stopAtOnce_inLoop :
    ¬ (machine (threadCount 5) 1).Guarded (fun pool label => ¬ pool.InLoop label) (stopAtOnce 0) := by
  obtain ⟨pool, events, ran, null⟩ := stopAtOnce_crashes 5 (0 : Fin 1)
  intro outside
  exact (((shutsDown_iff_notInLoop 5 ran).mpr outside).last ran).noNull 0 null

end ZeroThreadPool

end SimpleBasicComponents.ThreadPool
