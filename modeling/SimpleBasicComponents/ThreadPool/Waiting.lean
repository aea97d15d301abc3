import SimpleBasicComponents.Semantics.History
import SimpleBasicComponents.ThreadPool.Conservation

/-!
What `wait_for_all_done` waits for.

Owns: the promise of its name on the history of a run, and the theorem that a
run keeps it where no return is too early. It returns when it finds the queue
empty, whatever the workers do, and when its timeout has passed, whatever the
queue holds: what it does not look at is the workers, and what `wait_for` says.
-/

namespace SimpleBasicComponents.ThreadPool

open SimpleBasicComponents.Semantics

variable {workers clients : Nat}

/-- `exec` had returned for the task when the client called `wait_for_all_done`
the last time. -/
def Asked (events : List (Event workers clients)) (c : Fin clients) (task : TaskFunc) : Prop :=
  ∃ before between caller, events = before ++ .waitCall c :: between ∧ .waitCall c ∉ between ∧
    .execReturn caller task ∈ before

/-- When `wait_for_all_done` returns, these tasks have been run to their end. -/
def AllDone (earlier : List (Event workers clients)) : Event workers clients → Prop
  | .waitReturn c => ∀ task, Asked earlier c task → ∃ w, .taskDone w task ∈ earlier
  | _ => True

/-! ### Numbers for tasks -/

/-- Every call of `exec` makes a task of its own; it gets the number of the call. -/
def numberedFrom (first : Nat) : List (Label workers clients) → List (Label workers clients)
  | [] => []
  | .exec c timeout _ :: rest => .exec c timeout first :: numberedFrom (first + 1) rest
  | label :: rest => label :: numberedFrom first rest

def numbered (labels : List (Label workers clients)) : List (Label workers clients) :=
  numberedFrom 0 labels

section

variable {task : TaskFunc} {first : Nat} {labels : List (Label workers clients)}

private theorem issued_cons (label : Label workers clients) (rest : List (Label workers clients)) :
    issued task (label :: rest) = issued task rest + (label.issues task).toNat := by
  rw [issued, issued, List.countP_cons]
  cases label.issues task <;> rfl

private theorem issued_numberedFrom_of_lt (below : task.func < first) :
    issued task (numberedFrom first labels) = 0 := by
  induction labels generalizing first with
  | nil => rfl
  | cons label rest inductionHypothesis =>
      cases label with
      | exec c timeout func =>
          have different : (⟨first, taskExpire timeout⟩ : TaskFunc) ≠ task := by
            rintro rfl
            exact Nat.lt_irrefl _ below
          rw [numberedFrom, issued_cons, inductionHypothesis (Nat.lt_succ_of_lt below), Label.issues,
            decide_eq_false different]
          rfl
      | waitForAllDone | stop | client | timeout | worker =>
          rw [numberedFrom, issued_cons, inductionHypothesis below]
          · rfl
          · simp

theorem issued_numbered (task : TaskFunc) (labels : List (Label workers clients)) :
    issued task (numbered labels) ≤ 1 := by
  have atMostOne : ∀ first, issued task (numberedFrom first labels) ≤ 1 := by
    intro first
    induction labels generalizing first with
    | nil => exact Nat.zero_le _
    | cons label rest inductionHypothesis =>
        cases label with
        | exec c timeout func =>
            rw [numberedFrom, issued_cons, Label.issues]
            by_cases isTask : (⟨first, taskExpire timeout⟩ : TaskFunc) = task
            · have below : task.func < first + 1 := by
                rw [← isTask]
                exact Nat.lt_succ_self _
              rw [issued_numberedFrom_of_lt below, isTask]
              simp
            · rw [decide_eq_false isTask]
              exact inductionHypothesis (first + 1)
        | waitForAllDone | stop | client | timeout | worker =>
            rw [numberedFrom, issued_cons]
            · exact inductionHypothesis first
            · simp
  exact atMostOne 0

end

namespace ZeroThreadPool

/-! ### Returns -/

/-- What a return must find beyond what `wait_for_all_done` itself tests. -/
structure Settled (pool : ZeroThreadPool workers clients) (events : List (Event workers clients))
    (c : Fin clients) : Prop where
  /-- The result of `wait_for`, which is thrown away, is true. -/
  drained : pool.client c = .waitExpired → pool.taskQ = []
  /-- No worker is between `get_task` and the end of `_func` with an earlier task. -/
  notInHand : ∀ task, Asked events c task → ∀ w, pool.worker w ≠ .running task
  /-- No earlier task had a deadline that was over from the first. -/
  live : ∀ task, Asked events c task → task.expired = false

/-- Every return of the run comes at such a moment. -/
def ReturnsSettled (labels : List (Label workers clients)) : Prop :=
  ∀ before label pool next events c, before ++ [label] <+: labels →
    (machine workers clients).Exec before pool events →
    pool.step label = some (next, [.waitReturn c]) → pool.Settled events c

variable {pool next : ZeroThreadPool workers clients} {label : Label workers clients}
  {labels : List (Label workers clients)} {events shown : List (Event workers clients)}

theorem ReturnsSettled.earlier {later : List (Label workers clients)}
    (settled : ReturnsSettled (labels ++ later)) : ReturnsSettled labels :=
  fun before label pool next events c isPrefix =>
    settled before label pool next events c (isPrefix.trans (List.prefix_append _ _))

/-- Without a return there is nothing to ask for. -/
theorem returnsSettled_of_silent (exec : (machine workers clients).Exec labels pool events)
    (silent : ∀ c, .waitReturn c ∉ events) : ReturnsSettled labels := by
  intro before label state other seen c isPrefix ran taken
  have ⟨last, all, ranAll, isFront⟩ := exec.earlier isPrefix
  have isAll := ((ran.step taken).functional ranAll).2
  have member : .waitReturn c ∈ seen ++ [Event.waitReturn c] := by simp
  rw [isAll] at member
  exact absurd (isFront.subset member) (silent c)

theorem returnsSettled_snoc (exec : (machine workers clients).Exec labels pool events)
    (settled : ReturnsSettled labels)
    (atEnd : ∀ c next, pool.step label = some (next, [.waitReturn c]) → pool.Settled events c) :
    ReturnsSettled (labels ++ [label]) := by
  intro before other state next seen c isPrefix ran taken
  rcases List.prefix_concat_iff.mp isPrefix with same | shorter
  · have ⟨isBefore, isLabel⟩ := List.append_inj' same rfl
    have sameLabel : other = label := by simpa using isLabel
    rw [isBefore] at ran
    have ⟨samePool, sameEvents⟩ := exec.functional ran
    rw [sameLabel, ← samePool] at taken
    rw [← samePool, ← sameEvents]
    exact atEnd c next taken
  · exact settled before other state next seen c shorter ran taken

/-- A return that finds the queue empty, at a settled moment. -/
private theorem allDone_of_settled (exec : (machine workers clients).Exec labels pool events)
    (once : ∀ task, issued task labels ≤ 1) {c : Fin clients} (empty : pool.taskQ = [])
    (settled : pool.Settled events c) : AllDone events (.waitReturn c) := by
  intro task asked
  have ⟨first, between, caller, whole, _, returned⟩ := id asked
  have member : .execReturn caller task ∈ events := by
    rw [whole]
    exact List.mem_append_left _ returned
  apply ((exec_accounts task exec).finished_iff (once task) member).mpr
  constructor
  · rw [empty]
    exact List.not_mem_nil
  · exact settled.notInHand task asked
  · exact settled.live task asked

private theorem exec_allDone (exec : (machine workers clients).Exec labels pool events)
    (once : ∀ task, issued task labels ≤ 1) (settled : ReturnsSettled labels) :
    Historically AllDone events := by
  induction exec with
  | start => exact historically_nil
  | @step labels pool next events shown label before taken inductionHypothesis =>
      have onceBefore : ∀ task, issued task labels ≤ 1 := fun task =>
        Nat.le_trans (List.Sublist.countP_le (List.sublist_append_left _ _)) (once task)
      have past := inductionHypothesis onceBefore settled.earlier
      have atEnd := fun c (returns : shown = [.waitReturn c]) =>
        settled labels label pool next events c List.prefix_rfl before (returns ▸ taken)
      cases step_cases taken with
      | waitDone at_ empty =>
          exact historically_snoc_iff.mpr
            ⟨past, allDone_of_settled before onceBefore empty (atEnd _ rfl)⟩
      | waitExpired at_ _ =>
          have isSettled := atEnd _ rfl
          exact historically_snoc_iff.mpr
            ⟨past, allDone_of_settled before onceBefore (isSettled.drained at_) isSettled⟩
      | _ =>
          first
          | exact historically_snoc_iff.mpr ⟨past, trivial⟩
          | simpa using past

/-- Every return of `wait_for_all_done` finds the tasks of earlier calls of `exec` done, where no
worker has one of them in hand, the time has not run out over a queue that holds something, and none
of them was handed in with a deadline that is over. -/
theorem allDone_of_returnsSettled {labels : List (Label workers clients)}
    (exec : (machine workers clients).Exec (numbered labels) pool events)
    (settled : ReturnsSettled (numbered labels)) : Historically AllDone events :=
  exec_allDone exec (fun task => issued_numbered task labels) settled

/-! ### A task that is still run -/

/-- One task is handed in and taken by a worker, then the client waits. -/
def taskInHand (c : Fin clients) (w : Fin workers) : List (Label workers clients) :=
  .exec c 0 0 :: List.replicate 4 (.client c none) ++ List.replicate 4 (.worker w) ++
    [.waitForAllDone c (-1), .client c none, .client c none]

private theorem taskInHand_exec :
    ∃ pool events, (machine 5 1).Exec (numbered (taskInHand 0 0)) pool events ∧
      ¬ Historically AllDone events := by
  have exec := (machine 5 1).exec_of_isSome (numbered (taskInHand 0 0)) (by decide +kernel)
  refine ⟨_, _, exec, ?_⟩
  have isEvents : (((machine 5 1).run (numbered (taskInHand 0 0))).get (by decide +kernel)).2 =
      [.execReturn 0 ⟨0, 0⟩, .taskStart 0 ⟨0, 0⟩, .waitCall 0] ++ [.waitReturn 0] := by decide +kernel
  rw [isEvents, historically_snoc_iff]
  rintro ⟨-, done⟩
  obtain ⟨w, member⟩ := done ⟨0, 0⟩
    ⟨[.execReturn 0 ⟨0, 0⟩, .taskStart 0 ⟨0, 0⟩], [], 0, rfl, by simp, by simp⟩
  simp at member

/-- The queue is empty, so the wait is over before the task is. -/
theorem taskInHand_not_allDone :
    ∃ pool events, (machine 5 1).Exec (numbered (taskInHand 0 0)) pool events ∧
      ¬ Historically AllDone events :=
  taskInHand_exec

/-- The task is run to its end before the client waits. -/
def taskRunFirst (c : Fin clients) (w : Fin workers) : List (Label workers clients) :=
  .exec c 0 0 :: List.replicate 4 (.client c none) ++ List.replicate 5 (.worker w) ++
    [.waitForAllDone c (-1), .client c none, .client c none]

theorem taskRunFirst_allDone :
    ∃ pool events, (machine 5 1).Exec (numbered (taskRunFirst 0 0)) pool events ∧
      .waitReturn 0 ∈ events ∧ Historically AllDone events := by
  have exec := (machine 5 1).exec_of_isSome (numbered (taskRunFirst 0 0)) (by decide +kernel)
  refine ⟨_, _, exec, by decide +kernel, allDone_of_returnsSettled exec ?_⟩
  have split : numbered (taskRunFirst (0 : Fin 1) (0 : Fin 5)) =
      (numbered (taskRunFirst 0 0)).dropLast ++ [.client 0 none] := rfl
  have ran := (machine 5 1).exec_of_isSome (numbered (taskRunFirst 0 0)).dropLast (by decide +kernel)
  rw [split]
  apply returnsSettled_snoc ran (returnsSettled_of_silent ran (by decide +kernel))
  intro c next _
  have isEvents : (((machine 5 1).run (numbered (taskRunFirst 0 0)).dropLast).get (by decide +kernel)).2 =
      [.execReturn 0 ⟨0, 0⟩, .taskStart 0 ⟨0, 0⟩, .taskDone 0 ⟨0, 0⟩, .waitCall 0] := by decide +kernel
  have waits : ∀ c, (((machine 5 1).run (numbered (taskRunFirst 0 0)).dropLast).get (by decide +kernel)).1.client c =
      .waitTest (-1) := by decide +kernel
  have atLoop : ∀ w, (((machine 5 1).run (numbered (taskRunFirst 0 0)).dropLast).get (by decide +kernel)).1.worker w =
      .loop := by decide +kernel
  constructor
  · intro expired
    rw [waits c] at expired
    contradiction
  · intro task _ w running
    rw [atLoop w] at running
    contradiction
  · intro task asked
    obtain ⟨before, between, caller, whole, _, returned⟩ := asked
    have member : .execReturn caller task ∈ before ++ .waitCall c :: between :=
      List.mem_append_left _ returned
    rw [← whole, isEvents] at member
    simp only [List.mem_cons, Event.execReturn.injEq, reduceCtorEq, or_false, List.not_mem_nil] at member
    rw [member.2]
    rfl

end ZeroThreadPool

end SimpleBasicComponents.ThreadPool
