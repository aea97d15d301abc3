import SimpleBasicComponents.SetTimer.Serving

/-!
The loop of `main` in `src/timer.cpp`.

Owns: the loop over `time_to_sleep`, `sleep` and `check_task`, whose callbacks do no more
than print, and what every run of it does, whatever the clock shows at each call. `main`
itself adds three tasks; here it is any number of them.
-/

namespace SimpleBasicComponents.SetTimer

open SimpleBasicComponents.Semantics

variable {Func : Type*}

/-- A call of `add_task`: the timeout, the callback, and the clock at the call. -/
structure Addition (Func : Type*) where
  timeout : Int64
  func : Func
  tick : Int64
deriving DecidableEq, Repr

/-- The timer after the calls of `add_task`. -/
def setUp (additions : List (Addition Func)) : Timer Func :=
  additions.foldl (fun timer addition => (addTask timer addition.timeout addition.func addition.tick).1) ⟨0, []⟩

/-- The outer loop starts with `time_to_sleep`, the inner one is over `check_task`. -/
inductive Phase where
  | outer
  | inner
deriving DecidableEq, Repr

structure Main (Func : Type*) where
  timer : Timer Func
  phase : Phase
deriving DecidableEq, Repr

inductive Shown (Func : Type*) where
  | slept (tick : Int64) (seconds : UInt32)
  | fired (task : TaskNode Func) (tick : Int64)
  | idle (tick : Int64)
deriving DecidableEq, Repr

/-- `sleep(time/1000)`; `sleep` takes an `unsigned int`. -/
def sleepSeconds (time : Int64) : UInt32 := (time / 1000).toUInt64.toUInt32

/-- The next call of a method of the timer, with the clock that it reads. -/
def mainStep (main : Main Func) (tick : Int64) : Option (Main Func × List (Shown Func)) :=
  match main.phase with
  | .outer =>
      match timeToSleep main.timer tick with
      | some time => some ({ main with phase := .inner }, [.slept tick (sleepSeconds time)])
      | none => none
  | .inner =>
      match dueTask main.timer tick with
      | some it =>
          match eraseTask main.timer it with
          | some timer => some ({ main with timer := timer }, [.fired it tick])
          | none => none
      | none => some ({ main with phase := .outer }, [.idle tick])

def mainMachine (additions : List (Addition Func)) : Machine (Main Func) Int64 (Shown Func) where
  start := ⟨setUp additions, .outer⟩
  step := mainStep

/-! ### What a run does -/

def Shown.task : Shown Func → Option (TaskNode Func)
  | .fired task _ => some task
  | _ => none

/-- The tasks fired, in their order. -/
def firedTasks (events : List (Shown Func)) : List (TaskNode Func) := events.filterMap Shown.task

/-- The tasks are fired in the order of the set, none early; when the inner loop ends, no
task is due; and no sleep goes past a task that is not yet due. The loop comes to a halt
only by looking for the first of no tasks. -/
structure KeepsTime (timer : Timer Func) (main : Main Func) (events : List (Shown Func)) : Prop where
  sorted : SortedSet.Sorted less handle timer.taskSets
  order : timer.taskSets = firedTasks events ++ main.timer.taskSets
  notEarly : ∀ task tick, .fired task tick ∈ events → task.timeout ≤ tick
  drained : ∀ tick, .idle tick ∈ events → ∀ task ∈ main.timer.taskSets, tick < task.timeout
  notLate : (∀ task ∈ timer.taskSets, 0 ≤ task.timeout) →
    ∀ tick seconds, .slept tick seconds ∈ events → 0 ≤ tick → ∀ task ∈ main.timer.taskSets,
      tick.toInt + 1000 * seconds.toNat ≤ max tick.toInt task.timeout.toInt
  halts : ∀ tick, mainStep main tick = none ↔ main.phase = .outer ∧ main.timer.taskSets = []

section

variable {timer : Timer Func} {main next : Main Func} {events shown : List (Shown Func)} {tick : Int64}
  {it : TaskNode Func} {rest : List (TaskNode Func)} {additions : List (Addition Func)}

theorem sorted_setUp (additions : List (Addition Func)) :
    SortedSet.Sorted less handle (setUp additions).taskSets := by
  have keeps : ∀ (additions : List (Addition Func)) (timer : Timer Func),
      SortedSet.Sorted less handle timer.taskSets →
        SortedSet.Sorted less handle (additions.foldl
          (fun timer addition => (addTask timer addition.timeout addition.func addition.tick).1) timer).taskSets := by
    intro additions
    induction additions with
    | nil => exact fun _ sorted => sorted
    | cons addition rest inductionHypothesis =>
        intro timer sorted
        exact inductionHypothesis _ (sorted.insert strict_less)
  exact keeps additions ⟨0, []⟩ List.Pairwise.nil

/-- The first task is erased, and no other. -/
theorem eraseTask_head (isSet : timer.taskSets = it :: rest) :
    eraseTask timer it = some { timer with taskSets := rest } := by
  have isSame : SortedSet.same less (handle it) (handle it) = true := (SortedSet.same_iff strict_less).mpr rfl
  have found : SortedSet.find less handle (handle it) timer.taskSets = some it := by
    rw [isSet, SortedSet.find, List.find?_cons]
    simp only [isSame]
  have erased : SortedSet.erase less handle (handle it) timer.taskSets = rest := by
    rw [isSet, SortedSet.erase, List.eraseP_cons]
    simp only [isSame, cond_true]
  rw [eraseTask, found, erased, if_neg (by simp)]

/-! ### One step -/

/-- The ways a step can go. -/
inductive Takes (main : Main Func) (tick : Int64) : Main Func → List (Shown Func) → Prop where
  | sleeps (it : TaskNode Func) (rest : List (TaskNode Func)) (isOuter : main.phase = .outer)
      (isSet : main.timer.taskSets = it :: rest) :
      Takes main tick { main with phase := .inner }
        [.slept tick (sleepSeconds (if it.timeout - tick < 0 then -1 else it.timeout - tick))]
  | fires (it : TaskNode Func) (rest : List (TaskNode Func)) (isInner : main.phase = .inner)
      (isSet : main.timer.taskSets = it :: rest) (isDue : it.timeout ≤ tick) :
      Takes main tick ⟨{ main.timer with taskSets := rest }, .inner⟩ [.fired it tick]
  | leaves (isInner : main.phase = .inner) (notDue : ∀ it rest, main.timer.taskSets = it :: rest → tick < it.timeout) :
      Takes main tick { main with phase := .outer } [.idle tick]

theorem mainStep_takes (taken : mainStep main tick = some (next, shown)) : Takes main tick next shown := by
  unfold mainStep at taken
  cases isPhase : main.phase with
  | outer =>
      simp only [isPhase] at taken
      cases isSet : main.timer.taskSets with
      | nil =>
          simp only [timeToSleep, isSet] at taken
          cases taken
      | cons it rest =>
          simp only [timeToSleep, isSet] at taken
          rw [← (Prod.mk.inj (Option.some.inj taken)).1, ← (Prod.mk.inj (Option.some.inj taken)).2]
          exact .sleeps it rest isPhase isSet
  | inner =>
      simp only [isPhase] at taken
      cases isSet : main.timer.taskSets with
      | nil =>
          simp only [dueTask, isSet] at taken
          rw [← (Prod.mk.inj (Option.some.inj taken)).1, ← (Prod.mk.inj (Option.some.inj taken)).2]
          exact .leaves isPhase fun it rest isCons => by rw [isSet] at isCons; cases isCons
      | cons it rest =>
          by_cases isDue : it.timeout ≤ tick
          · simp only [dueTask, isSet, if_pos isDue, eraseTask_head isSet] at taken
            rw [← (Prod.mk.inj (Option.some.inj taken)).1, ← (Prod.mk.inj (Option.some.inj taken)).2]
            exact .fires it rest isPhase isSet isDue
          · simp only [dueTask, isSet, if_neg isDue] at taken
            rw [← (Prod.mk.inj (Option.some.inj taken)).1, ← (Prod.mk.inj (Option.some.inj taken)).2]
            refine .leaves isPhase fun other others isCons => ?_
            rw [isSet] at isCons
            rw [← (List.cons.inj isCons).1]
            exact Int64.not_le.mp isDue

theorem mainStep_eq_none_iff (main : Main Func) (tick : Int64) :
    mainStep main tick = none ↔ main.phase = .outer ∧ main.timer.taskSets = [] := by
  unfold mainStep
  cases isPhase : main.phase with
  | outer => cases isSet : main.timer.taskSets <;> simp [timeToSleep, isSet]
  | inner =>
      cases isSet : main.timer.taskSets with
      | nil => simp [dueTask, isSet]
      | cons it rest =>
          by_cases isDue : it.timeout ≤ tick
          · simp [dueTask, isSet, if_pos isDue, eraseTask_head isSet]
          · simp [dueTask, isSet, if_neg isDue]

/-! ### Sleeping -/

theorem sleepSeconds_le {time : Int64} (notNegative : 0 ≤ time.toInt) :
    1000 * ((sleepSeconds time).toNat : Int) ≤ time.toInt := by
  have isQuotient : (time / 1000).toInt = time.toInt / 1000 := by
    rw [Int64.toInt_div_of_ne_right _ _ (by decide)]
    exact Int.tdiv_eq_ediv_of_nonneg notNegative
  have quotientNotNegative : 0 ≤ time / 1000 := by
    rw [Int64.le_iff_toInt_le, isQuotient]
    exact Int.ediv_nonneg notNegative (by decide)
  have isNat : ((time / 1000).toUInt64.toNat : Int) = time.toInt / 1000 := by
    rw [Int64.toNat_toUInt64_of_le quotientNotNegative, ← isQuotient]
    exact Int.toNat_of_nonneg (Int64.le_iff_toInt_le.mp quotientNotNegative)
  have cut : (sleepSeconds time).toNat ≤ (time / 1000).toUInt64.toNat := by
    rw [sleepSeconds, UInt64.toNat_toUInt32]
    exact Nat.mod_le _ _
  omega

/-- The sleep ends before the task is due, if it is not due yet. -/
theorem sleepSeconds_before {timeout : Int64} (deadline : 0 ≤ timeout) (clock : 0 ≤ tick) :
    tick.toInt + 1000 * (sleepSeconds (if timeout - tick < 0 then -1 else timeout - tick)).toNat ≤
      max tick.toInt timeout.toInt := by
  have deadlineInt : 0 ≤ timeout.toInt := Int64.le_iff_toInt_le.mp deadline
  have clockInt : 0 ≤ tick.toInt := Int64.le_iff_toInt_le.mp clock
  have below := timeout.toInt_lt
  have belowTick := tick.toInt_lt
  have isDifference : (timeout - tick).toInt = timeout.toInt - tick.toInt := by
    rw [Int64.toInt_sub]
    exact Int.bmod_eq_of_le (by omega) (by omega)
  by_cases isDue : timeout - tick < 0
  · rw [if_pos isDue]
    have noSleep : (sleepSeconds (-1)).toNat = 0 := by decide
    rw [noSleep]
    omega
  · rw [if_neg isDue]
    have notNegative : 0 ≤ (timeout - tick).toInt := Int64.le_iff_toInt_le.mp (Int64.not_lt.mp isDue)
    have within := sleepSeconds_le notNegative
    omega

/-! ### Whole runs -/

theorem timeout_le_of_sorted (sorted : SortedSet.Sorted less handle (it :: rest)) {task : TaskNode Func}
    (member : task ∈ it :: rest) : it.timeout.toInt ≤ task.timeout.toInt := by
  cases List.mem_cons.mp member with
  | inl same => exact Int.le_of_eq (congrArg (fun other => other.timeout.toInt) same.symm)
  | inr later =>
      have before : it.timeout.toInt < task.timeout.toInt ∨ (it.timeout.toInt = task.timeout.toInt ∧ _) :=
        less_iff.mp (sorted.head_less later)
      omega

theorem firedTasks_snoc (events : List (Shown Func)) (event : Shown Func) :
    firedTasks (events ++ [event]) = firedTasks events ++ event.task.toList := by
  rw [firedTasks, List.filterMap_append]
  cases event <;> rfl

theorem KeepsTime.step (keeps : KeepsTime timer main events) (takes : Takes main tick next shown) :
    KeepsTime timer next (events ++ shown) := by
  have sortedRest : SortedSet.Sorted less handle main.timer.taskSets := by
    have sorted := keeps.sorted
    rw [keeps.order] at sorted
    exact List.Pairwise.sublist (List.sublist_append_right _ _) sorted
  cases takes with
  | sleeps it rest isOuter isSet =>
      refine ⟨keeps.sorted, ?_, ?_, ?_, ?_, mainStep_eq_none_iff _⟩
      · rw [firedTasks_snoc]
        simpa [Shown.task] using keeps.order
      · intro task other member
        exact keeps.notEarly task other (by simpa using member)
      · intro other member
        exact keeps.drained other (by simpa using member)
      · intro deadlines other seconds member clock task isIn
        cases List.mem_append.mp member with
        | inl earlier => exact keeps.notLate deadlines other seconds earlier clock task isIn
        | inr now =>
            obtain ⟨isTick, isSeconds⟩ := Shown.slept.inj (List.mem_singleton.mp now)
            have isIn : task ∈ main.timer.taskSets := isIn
            have itIn : it ∈ timer.taskSets := by
              rw [keeps.order, isSet]
              exact List.mem_append_right _ List.mem_cons_self
            rw [isTick] at clock
            have before := sleepSeconds_before (deadlines it itIn) clock
            rw [isSet] at isIn sortedRest
            have least := timeout_le_of_sorted sortedRest isIn
            rw [isTick, isSeconds]
            omega
  | fires it rest isInner isSet isDue =>
      have stays : ∀ task ∈ rest, task ∈ main.timer.taskSets := by
        intro task member
        rw [isSet]
        exact List.mem_cons_of_mem _ member
      refine ⟨keeps.sorted, ?_, ?_, ?_, ?_, mainStep_eq_none_iff _⟩
      · rw [firedTasks_snoc, keeps.order, isSet]
        simp [Shown.task]
      · intro task other member
        cases List.mem_append.mp member with
        | inl earlier => exact keeps.notEarly task other earlier
        | inr now =>
            obtain ⟨isTask, isTick⟩ := Shown.fired.inj (List.mem_singleton.mp now)
            rw [isTask, isTick]
            exact isDue
      · intro other member task isIn
        exact keeps.drained other (by simpa using member) task (stays task isIn)
      · intro deadlines other seconds member clock task isIn
        exact keeps.notLate deadlines other seconds (by simpa using member) clock task (stays task isIn)
  | leaves isInner notDue =>
      refine ⟨keeps.sorted, ?_, ?_, ?_, ?_, mainStep_eq_none_iff _⟩
      · rw [firedTasks_snoc]
        simpa [Shown.task] using keeps.order
      · intro task other member
        exact keeps.notEarly task other (by simpa using member)
      · intro other member task isIn
        cases List.mem_append.mp member with
        | inl earlier => exact keeps.drained other earlier task isIn
        | inr now =>
            rw [Shown.idle.inj (List.mem_singleton.mp now), Int64.lt_iff_toInt_lt]
            have isIn : task ∈ main.timer.taskSets := isIn
            cases isSet : main.timer.taskSets with
            | nil =>
                rw [isSet] at isIn
                cases isIn
            | cons it rest =>
                rw [isSet] at isIn sortedRest
                have least := timeout_le_of_sorted sortedRest isIn
                have first := Int64.lt_iff_toInt_lt.mp (notDue it rest isSet)
                omega
      · intro deadlines other seconds member clock task isIn
        exact keeps.notLate deadlines other seconds (by simpa using member) clock task isIn

/-- In every run of the loop. -/
theorem exec_keepsTime {ticks : List Int64} (exec : (mainMachine additions).Exec ticks main events) :
    KeepsTime (setUp additions) main events := by
  induction exec with
  | start =>
      exact ⟨sorted_setUp additions, rfl, fun _ _ member => absurd member List.not_mem_nil,
        fun _ member => absurd member List.not_mem_nil, fun _ _ _ member => absurd member List.not_mem_nil,
        mainStep_eq_none_iff _⟩
  | step before taken inductionHypothesis => exact inductionHypothesis.step (mainStep_takes taken)

/-- The three tasks of `main`. After the last one the loop reads behind the end of the set. -/
theorem threeTasks_keepTime :
    ∃ main events, (mainMachine [⟨1000, (), 5⟩, ⟨1000, (), 6⟩, ⟨10000, (), 7⟩]).Exec
        [8, 1008, 1008, 1009, 1010, 11008, 11009] main events ∧
      KeepsTime (setUp [⟨1000, (), 5⟩, ⟨1000, (), 6⟩, ⟨10000, (), 7⟩]) main events := by
  have ran := (mainMachine [⟨1000, (), 5⟩, ⟨1000, (), 6⟩, ⟨10000, (), 7⟩]).exec_of_isSome
    [8, 1008, 1008, 1009, 1010, 11008, 11009] (by decide +kernel)
  exact ⟨_, _, ran, exec_keepsTime ran⟩

end

end SimpleBasicComponents.SetTimer
