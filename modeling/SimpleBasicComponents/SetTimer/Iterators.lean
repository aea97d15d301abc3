import Mathlib.Data.List.Nodup
import SimpleBasicComponents.Semantics.Heap
import SimpleBasicComponents.SetTimer.Serving

/-!
The iterators that `check_task` holds while a callback runs.

Owns: a machine in which every node of the set has an address of its own, so
that an iterator whose node was erased is told from one to a node that is equal
to it, and the theorem that no call touches such an iterator or `end()` exactly
if the calls are careful.
-/

namespace SimpleBasicComponents.SetTimer

open SimpleBasicComponents.Semantics

/-! ### Nodes with addresses -/

/-- A callback and the address of the node it was copied into. -/
structure Stored (Func : Type*) where
  addr : Addr
  func : Func
deriving DecidableEq, Repr

abbrev Node (Func : Type*) := TaskNode (Stored Func)

variable {Func : Type*}

def addrs (timer : Timer (Stored Func)) : List Addr := timer.taskSets.map fun node => node.func.addr

/-- `task_sets.erase(it)`, where `it` has to point to a node of the set. -/
def eraseNode (timer : Timer (Stored Func)) (it : Addr) : Option (Timer (Stored Func)) :=
  if it ∈ addrs timer then
    some { timer with taskSets := timer.taskSets.filter fun node => node.func.addr ≠ it }
  else none

/-- `running` holds the iterators of the `check_task` calls that have not
returned, the innermost first. -/
structure Program (Func : Type*) where
  timer : Timer (Stored Func)
  running : List Addr
  allocated : Nat
deriving DecidableEq, Repr

inductive Method (Func : Type*) where
  | addTask (timeout : Int64) (func : Func) (tick : Int64)
  | delTask (task : TaskNodeBase)
  | checkTask (tick : Int64)
  | timeToSleep (tick : Int64)
  /-- The innermost callback returns, and `check_task` goes on. -/
  | callbackReturns
deriving DecidableEq, Repr

/-- What the methods return. -/
inductive Answer where
  | added (task : TaskNodeBase)
  | deleted (result : Bool)
  | checked (result : Bool)
  | sleeps (time : Int64)
deriving DecidableEq, Repr

def call (program : Program Func) : Method Func → Option (Program Func × List Answer)
  | .addTask timeout func tick =>
      let (timer, task) := addTask program.timer timeout ⟨program.allocated, func⟩ tick
      some ({ program with timer, allocated := program.allocated + 1 }, [.added (handle task)])
  | .delTask task =>
      let (timer, result) := delTask program.timer task
      some ({ program with timer }, [.deleted result])
  | .checkTask tick =>
      match dueTask program.timer tick with
      | some it => some ({ program with running := it.func.addr :: program.running }, [])
      | none => some (program, [.checked false])
  | .timeToSleep tick =>
      match timeToSleep program.timer tick with
      | some time => some (program, [.sleeps time])
      | none => none
  | .callbackReturns =>
      match program.running with
      | [] => none
      | it :: outer =>
          match eraseNode program.timer it with
          | some timer => some ({ program with timer, running := outer }, [.checked true])
          | none => none

def methods (Func : Type*) : Machine (Program Func) (Method Func) Answer where
  start := ⟨⟨0, []⟩, [], 0⟩
  step := call

/-- The calls, followed by the returns of the callbacks that still run, never
touch `end()` or an iterator whose node is gone. -/
def RunsThrough (calls : List (Method Func)) : Prop :=
  ∃ count program answers, program.running = [] ∧
    (methods Func).Exec (calls ++ List.replicate count .callbackReturns) program answers

/-- What a call must not do: delete a task whose callback runs, check the timer
while the first task is due and its callback runs, or ask an empty set for the
time to sleep. Only a callback that runs can return. -/
def Careful (program : Program Func) : Method Func → Prop
  | .addTask _ _ _ => True
  | .delTask task =>
      ∀ node ∈ program.timer.taskSets, handle node = task → node.func.addr ∉ program.running
  | .checkTask tick => ∀ it, dueTask program.timer tick = some it → it.func.addr ∉ program.running
  | .timeToSleep _ => program.timer.taskSets ≠ []
  | .callbackReturns => program.running ≠ []

/-! ### The invariant -/

/-- No two nodes of the set are equal or in one place, and addresses are not used again. -/
structure Arranged (program : Program Func) : Prop where
  sorted : SortedSet.Sorted less handle program.timer.taskSets
  distinct : (addrs program.timer).Nodup
  allocated : ∀ addr ∈ addrs program.timer, addr < program.allocated
  begun : ∀ it ∈ program.running, it < program.allocated

/-- Every iterator points to a node of the set, each to its own. -/
structure Valid (program : Program Func) : Prop where
  distinct : program.running.Nodup
  present : ∀ it ∈ program.running, it ∈ addrs program.timer

/-- What a call does to the nodes and the iterators. -/
inductive Moves (program next : Program Func) : Method Func → Prop where
  | adds {timeout : Int64} {func : Func} {tick : Int64} (sameRunning : next.running = program.running)
      (allocates : next.allocated = program.allocated + 1)
      (placed : (addrs next.timer).Perm (program.allocated :: addrs program.timer) ∨
        addrs next.timer = addrs program.timer)
      (sorted : SortedSet.Sorted less handle next.timer.taskSets) :
      Moves program next (.addTask timeout func tick)
  | stays {method : Method Func} (same : next = program) (notReturn : method ≠ .callbackReturns) :
      Moves program next method
  | deletes {task : TaskNodeBase} {node : Node Func} (member : node ∈ program.timer.taskSets)
      (isHandle : handle node = task) (sameRunning : next.running = program.running)
      (sameAllocated : next.allocated = program.allocated)
      (erased : addrs next.timer = (addrs program.timer).erase node.func.addr)
      (shrinks : next.timer.taskSets.Sublist program.timer.taskSets) :
      Moves program next (.delTask task)
  | begins {tick : Int64} {node : Node Func} (due : dueTask program.timer tick = some node)
      (same : next = { program with running := node.func.addr :: program.running }) :
      Moves program next (.checkTask tick)
  | returns {it : Addr} (member : it ∈ addrs program.timer)
      (isRunning : program.running = it :: next.running)
      (sameAllocated : next.allocated = program.allocated)
      (erased : addrs next.timer = (addrs program.timer).erase it)
      (shrinks : next.timer.taskSets.Sublist program.timer.taskSets) :
      Moves program next .callbackReturns

section

variable {program next : Program Func} {method : Method Func} {answers : List Answer}

private theorem dueTask_mem {timer : Timer Func} {tick : Int64} {it : TaskNode Func}
    (due : dueTask timer tick = some it) : it ∈ timer.taskSets := by
  unfold dueTask at due
  split at due
  · contradiction
  · rename_i first rest isSet
    split at due
    · obtain rfl := Option.some.inj due
      rw [isSet]
      exact List.mem_cons_self ..
    · contradiction

/-- Erasing the node with a handle erases the node at its address. -/
private theorem addrs_erase {nodes : List (Node Func)} {node : Node Func}
    (sorted : SortedSet.Sorted less handle nodes)
    (distinct : (nodes.map fun node => node.func.addr).Nodup) (member : node ∈ nodes) :
    (SortedSet.erase less handle (handle node) nodes).map (fun node => node.func.addr) =
      (nodes.map fun node => node.func.addr).erase node.func.addr := by
  induction nodes with
  | nil => contradiction
  | cons head rest inductionHypothesis =>
      rw [List.map_cons, List.nodup_cons] at distinct
      unfold SortedSet.erase at inductionHypothesis ⊢
      by_cases isHead : handle head = handle node
      · obtain rfl := sorted.key_injective strict_less (List.mem_cons_self ..) member isHead
        have isSame := (SortedSet.same_iff strict_less).mpr isHead
        rw [List.eraseP_cons_of_pos (by simpa using isSame), List.map_cons, List.erase_cons_head]
      · have inRest : node ∈ rest := by
          rcases List.mem_cons.mp member with rfl | later
          · exact absurd rfl isHead
          · exact later
        have apart : head.func.addr ≠ node.func.addr := by
          intro same
          exact distinct.1 (same ▸ List.mem_map_of_mem inRest)
        have notSame := mt (SortedSet.same_iff strict_less).mp isHead
        rw [List.eraseP_cons_of_neg (by simpa using notSame), List.map_cons, List.map_cons,
          List.erase_cons_tail (by simpa using apart),
          inductionHypothesis (List.pairwise_cons.mp sorted).2 distinct.2 inRest]

private theorem eraseNode_eq_some {timer : Timer (Stored Func)} {it : Addr}
    (distinct : (addrs timer).Nodup) (member : it ∈ addrs timer) :
    ∃ next, eraseNode timer it = some next ∧ addrs next = (addrs timer).erase it ∧
      next.taskSets.Sublist timer.taskSets := by
  refine ⟨_, if_pos member, ?_, List.filter_sublist⟩
  rw [distinct.erase_eq_filter, addrs, addrs, List.filter_map]
  refine congrArg _ (List.filter_congr ?_)
  intro node _
  by_cases same : node.func.addr = it <;> simp [same]

private theorem addrs_addTask (timer : Timer (Stored Func)) (timeout : Int64) (stored : Stored Func)
    (tick : Int64) :
    (addrs (addTask timer timeout stored tick).1).Perm (stored.addr :: addrs timer) ∨
      addrs (addTask timer timeout stored tick).1 = addrs timer := by
  generalize isTask : (addTask timer timeout stored tick).2 = task
  have isStored : task.func = stored := by rw [← isTask, addTask]
  have isSet : (addTask timer timeout stored tick).1.taskSets =
      (SortedSet.insert less handle task timer.taskSets).1 := by rw [← isTask, addTask]
  rw [addrs, addrs, isSet]
  rcases @SortedSet.insert_perm_or_eq _ _ less handle task timer.taskSets with put | same
  · have placed := put.map fun node => node.func.addr
    rw [List.map_cons, isStored] at placed
    exact .inl placed
  · exact .inr (congrArg _ same)

theorem call_moves (arranged : Arranged program) (taken : call program method = some (next, answers)) :
    Moves program next method := by
  cases method with
  | addTask timeout func tick =>
      simp only [call, Option.some.injEq, Prod.mk.injEq] at taken
      obtain ⟨rfl, -⟩ := taken
      exact .adds rfl rfl (addrs_addTask _ timeout ⟨program.allocated, func⟩ tick)
        (arranged.sorted.insert strict_less)
  | delTask task =>
      simp only [call, delTask] at taken
      cases found : SortedSet.find less handle task program.timer.taskSets with
      | none =>
          simp only [found, Option.some.injEq, Prod.mk.injEq] at taken
          obtain ⟨rfl, -⟩ := taken
          exact .stays rfl (by simp)
      | some node =>
          simp only [found, Option.some.injEq, Prod.mk.injEq] at taken
          obtain ⟨rfl, -⟩ := taken
          obtain ⟨member, isHandle⟩ :=
            (SortedSet.find_eq_some_iff strict_less arranged.sorted).mp found
          exact .deletes member isHandle rfl rfl (addrs_erase arranged.sorted arranged.distinct member)
            List.eraseP_sublist
  | checkTask tick =>
      simp only [call] at taken
      cases due : dueTask program.timer tick with
      | none =>
          simp only [due, Option.some.injEq, Prod.mk.injEq] at taken
          obtain ⟨rfl, -⟩ := taken
          exact .stays rfl (by simp)
      | some node =>
          simp only [due, Option.some.injEq, Prod.mk.injEq] at taken
          obtain ⟨rfl, -⟩ := taken
          exact .begins due rfl
  | timeToSleep tick =>
      simp only [call] at taken
      split at taken
      · simp only [Option.some.injEq, Prod.mk.injEq] at taken
        obtain ⟨rfl, -⟩ := taken
        exact .stays rfl (by simp)
      · contradiction
  | callbackReturns =>
      simp only [call] at taken
      cases isRunning : program.running with
      | nil => simp [isRunning] at taken
      | cons it outer =>
          simp only [isRunning] at taken
          by_cases member : it ∈ addrs program.timer
          · obtain ⟨timer, erases, erased, shrinks⟩ := eraseNode_eq_some arranged.distinct member
            simp only [erases, Option.some.injEq, Prod.mk.injEq] at taken
            obtain ⟨rfl, -⟩ := taken
            exact .returns member isRunning rfl erased shrinks
          · simp [eraseNode, member] at taken

/-- One task less, and no callback more. -/
theorem Arranged.erase (arranged : Arranged program) {addr : Addr}
    (erased : addrs next.timer = (addrs program.timer).erase addr)
    (shrinks : next.timer.taskSets.Sublist program.timer.taskSets)
    (sameAllocated : next.allocated = program.allocated)
    (outer : ∀ it ∈ next.running, it ∈ program.running) : Arranged next := by
  refine ⟨arranged.sorted.sublist shrinks, ?_, ?_, ?_⟩
  · rw [erased]
    exact arranged.distinct.erase _
  · rw [erased, sameAllocated]
    exact fun other member => arranged.allocated other (List.mem_of_mem_erase member)
  · rw [sameAllocated]
    exact fun it isRunning => arranged.begun it (outer it isRunning)

theorem Moves.arranged (moves : Moves program next method) (arranged : Arranged program) :
    Arranged next := by
  cases moves with
  | adds sameRunning allocates placed sorted =>
      have within : ∀ addr ∈ addrs next.timer, addr < next.allocated := by
        intro addr member
        rw [allocates]
        rcases placed with put | same
        · rcases List.mem_cons.mp (put.mem_iff.mp member) with rfl | old
          · exact Nat.lt_succ_self _
          · exact Nat.lt_succ_of_lt (arranged.allocated addr old)
        · rw [same] at member
          exact Nat.lt_succ_of_lt (arranged.allocated addr member)
      refine ⟨sorted, ?_, within, ?_⟩
      · rcases placed with put | same
        · have fresh : program.allocated ∉ addrs program.timer :=
            fun member => Nat.lt_irrefl _ (arranged.allocated _ member)
          exact put.nodup_iff.mpr (List.nodup_cons.mpr ⟨fresh, arranged.distinct⟩)
        · rw [same]
          exact arranged.distinct
      · rw [sameRunning, allocates]
        exact fun it isRunning => Nat.lt_succ_of_lt (arranged.begun it isRunning)
  | stays same => exact same ▸ arranged
  | deletes _ _ sameRunning sameAllocated erased shrinks =>
      apply arranged.erase erased shrinks sameAllocated
      rw [sameRunning]
      exact fun it isRunning => isRunning
  | @begins tick node due same =>
      subst same
      refine ⟨arranged.sorted, arranged.distinct, arranged.allocated, ?_⟩
      intro it isRunning
      rcases List.mem_cons.mp isRunning with rfl | outer
      · exact arranged.allocated _ (List.mem_map_of_mem (dueTask_mem due))
      · exact arranged.begun it outer
  | returns _ isRunning sameAllocated erased shrinks =>
      apply arranged.erase erased shrinks sameAllocated
      rw [isRunning]
      exact fun it outer => List.mem_cons_of_mem _ outer

/-- An iterator that is lost stays lost: no call makes it valid again. -/
theorem Moves.valid_before (moves : Moves program next method) (arranged : Arranged program)
    (valid : Valid next) : Valid program := by
  cases moves with
  | adds sameRunning _ placed _ =>
      refine ⟨sameRunning ▸ valid.distinct, ?_⟩
      intro it isRunning
      have present := valid.present it (sameRunning ▸ isRunning)
      rcases placed with put | same
      · rcases List.mem_cons.mp (put.mem_iff.mp present) with rfl | old
        · exact absurd (arranged.begun _ isRunning) (Nat.lt_irrefl _)
        · exact old
      · exact same ▸ present
  | stays same => exact same ▸ valid
  | deletes _ _ sameRunning _ erased =>
      refine ⟨sameRunning ▸ valid.distinct, ?_⟩
      intro it isRunning
      have present := valid.present it (sameRunning ▸ isRunning)
      rw [erased] at present
      exact List.mem_of_mem_erase present
  | begins _ same =>
      subst same
      exact ⟨(List.nodup_cons.mp valid.distinct).2,
        fun it isRunning => valid.present it (List.mem_cons_of_mem _ isRunning)⟩
  | @returns it member isRunning _ erased =>
      have others : ∀ outer ∈ next.running, outer ≠ it ∧ outer ∈ addrs program.timer := by
        intro outer isOuter
        have present := valid.present outer isOuter
        rw [erased] at present
        exact arranged.distinct.mem_erase_iff.mp present
      constructor
      · rw [isRunning, List.nodup_cons]
        exact ⟨fun isOuter => (others it isOuter).1 rfl, valid.distinct⟩
      · intro outer isOuter
        rw [isRunning] at isOuter
        rcases List.mem_cons.mp isOuter with rfl | later
        · exact member
        · exact (others outer later).2

/-! ### Careful calls -/

theorem Valid.callbackReturns (valid : Valid program) (arranged : Arranged program) {it : Addr}
    {outer : List Addr} (isRunning : program.running = it :: outer) :
    ∃ next, call program .callbackReturns = some (next, [.checked true]) ∧ next.running = outer ∧
      Valid next := by
  have present := valid.present it (isRunning ▸ List.mem_cons_self ..)
  obtain ⟨timer, erases, erased, -⟩ := eraseNode_eq_some arranged.distinct present
  refine ⟨{ program with timer, running := outer }, by simp only [call, isRunning, erases], rfl, ?_⟩
  have distinct := valid.distinct
  rw [isRunning, List.nodup_cons] at distinct
  refine ⟨distinct.2, fun other isOuter => ?_⟩
  have was := valid.present other (isRunning ▸ List.mem_cons_of_mem _ isOuter)
  show other ∈ addrs timer
  rw [erased, arranged.distinct.mem_erase_iff]
  refine ⟨?_, was⟩
  rintro rfl
  exact distinct.1 isOuter

private theorem Valid.delTask_iff (valid : Valid program) (arranged : Arranged program)
    (task : TaskNodeBase) :
    (∃ next answers, call program (.delTask task) = some (next, answers) ∧ Valid next) ↔
      Careful program (.delTask task) := by
  cases found : SortedSet.find less handle task program.timer.taskSets with
  | none =>
      refine iff_of_true ⟨program, [.deleted false], by simp only [call, delTask, found], valid⟩ ?_
      intro node member isHandle
      have there := (SortedSet.find_eq_some_iff strict_less arranged.sorted).mpr ⟨member, isHandle⟩
      rw [found] at there
      contradiction
  | some node =>
      obtain ⟨member, isHandle⟩ := (SortedSet.find_eq_some_iff strict_less arranged.sorted).mp found
      have erased := addrs_erase arranged.sorted arranged.distinct member
      have taken : call program (.delTask task) = some ({ program with timer := { program.timer with
          taskSets := SortedSet.erase less handle (handle node) program.timer.taskSets } },
          [.deleted true]) := by simp only [call, delTask, found]
      constructor
      · rintro ⟨next, answers, takenToo, validNext⟩ other memberToo isHandleToo isRunning
        obtain ⟨rfl, -⟩ := Prod.mk.inj (Option.some.inj (taken.symm.trans takenToo))
        obtain rfl := arranged.sorted.key_injective strict_less member memberToo
          (isHandle.trans isHandleToo.symm)
        have present := validNext.present _ isRunning
        rw [addrs, erased] at present
        exact (arranged.distinct.mem_erase_iff.mp present).1 rfl
      · intro careful
        refine ⟨_, _, taken, valid.distinct, fun it isRunning => ?_⟩
        rw [addrs, erased]
        refine arranged.distinct.mem_erase_iff.mpr ⟨?_, valid.present it isRunning⟩
        rintro rfl
        exact careful node member isHandle isRunning

private theorem Valid.checkTask_iff (valid : Valid program) (tick : Int64) :
    (∃ next answers, call program (.checkTask tick) = some (next, answers) ∧ Valid next) ↔
      Careful program (.checkTask tick) := by
  cases due : dueTask program.timer tick with
  | none =>
      refine iff_of_true ⟨program, [.checked false], by simp only [call, due], valid⟩ ?_
      intro it isDue
      rw [due] at isDue
      contradiction
  | some node =>
      have taken : call program (.checkTask tick) =
          some ({ program with running := node.func.addr :: program.running }, []) := by
        simp only [call, due]
      constructor
      · rintro ⟨next, answers, takenToo, validNext⟩ it isDue
        obtain ⟨rfl, -⟩ := Prod.mk.inj (Option.some.inj (taken.symm.trans takenToo))
        obtain rfl := Option.some.inj (due.symm.trans isDue)
        exact (List.nodup_cons.mp validNext.distinct).1
      · intro careful
        refine ⟨_, _, taken, List.nodup_cons.mpr ⟨careful node due, valid.distinct⟩, ?_⟩
        intro it isRunning
        rcases List.mem_cons.mp isRunning with rfl | outer
        · exact List.mem_map_of_mem (dueTask_mem due)
        · exact valid.present it outer

/-- From valid iterators a call is taken and leaves them valid exactly if it is careful. -/
theorem Valid.call_iff_careful (valid : Valid program) (arranged : Arranged program)
    (method : Method Func) :
    (∃ next answers, call program method = some (next, answers) ∧ Valid next) ↔
      Careful program method := by
  cases method with
  | addTask timeout func tick =>
      refine iff_of_true ⟨_, _, rfl, valid.distinct, ?_⟩ trivial
      intro it isRunning
      have was := valid.present it isRunning
      rcases addrs_addTask program.timer timeout ⟨program.allocated, func⟩ tick with put | same
      · exact put.mem_iff.mpr (List.mem_cons_of_mem _ was)
      · exact same.symm ▸ was
  | delTask task => exact valid.delTask_iff arranged task
  | checkTask tick => exact valid.checkTask_iff tick
  | timeToSleep tick =>
      cases isSet : program.timer.taskSets with
      | nil => simp [call, timeToSleep, Careful, isSet]
      | cons it rest => simp [call, timeToSleep, Careful, isSet, valid]
  | callbackReturns =>
      cases isRunning : program.running with
      | nil => simp [call, Careful, isRunning]
      | cons it outer =>
          obtain ⟨next, taken, -, validNext⟩ := valid.callbackReturns arranged isRunning
          refine iff_of_true ⟨next, _, taken, validNext⟩ ?_
          rw [Careful, isRunning]
          exact List.cons_ne_nil it outer

end

/-! ### Whole runs -/

section

variable {calls : List (Method Func)} {program : Program Func} {answers : List Answer}

theorem arranged_start : Arranged (methods Func).start :=
  ⟨List.Pairwise.nil, List.nodup_nil, by simp [methods, addrs], by simp [methods]⟩

theorem exec_arranged (exec : (methods Func).Exec calls program answers) : Arranged program := by
  induction exec with
  | start => exact arranged_start
  | step _ taken arranged => exact (call_moves arranged taken).arranged arranged

/-- From valid iterators all callbacks can return. -/
theorem exec_returns (exec : (methods Func).Exec calls program answers) (valid : Valid program) :
    RunsThrough calls := by
  generalize isRunning : program.running = running
  induction running generalizing calls program answers with
  | nil => exact ⟨0, program, answers, isRunning, by simpa using exec⟩
  | cons it outer inductionHypothesis =>
      obtain ⟨next, taken, isOuter, validNext⟩ := valid.callbackReturns (exec_arranged exec) isRunning
      have grown : (methods Func).Exec (calls ++ [.callbackReturns]) next (answers ++ [.checked true]) :=
        exec.step taken
      obtain ⟨count, last, all, stopped, ran⟩ := inductionHypothesis grown validNext isOuter
      refine ⟨count + 1, last, all, stopped, ?_⟩
      rw [List.replicate_succ, ← List.singleton_append, ← List.append_assoc]
      exact ran

/-- Where all callbacks have returned, the iterators were valid all the time. -/
theorem valid_of_runsThrough (runs : RunsThrough calls) :
    (methods Func).Completes (fun program _ => Valid program) calls := by
  obtain ⟨count, last, all, stopped, ran⟩ := runs
  obtain ⟨program, answers, exec, -⟩ := ran.earlier (List.prefix_append _ _)
  refine ⟨⟨program, answers, exec⟩, ?_⟩
  intro before middle seen isPrefix execBefore
  obtain ⟨rest, isRest⟩ := isPrefix.trans (List.prefix_append calls _)
  rw [← isRest] at ran
  by_contra lost
  have lostAtEnd : ¬ Valid last := by
    apply execBefore.since (fun _ state _ => ¬ Valid state) lost ?_ ran
    intro later method state _ next _ _ reached invalid taken validNext
    have arranged := exec_arranged reached
    exact invalid ((call_moves arranged taken).valid_before arranged validNext)
  apply lostAtEnd
  constructor <;> simp [stopped]

/-- No call of any sequence, nor the return of a callback, touches `end()` or an
iterator whose node is gone, if and only if all its calls are careful. -/
theorem runsThrough_iff_careful (calls : List (Method Func)) :
    RunsThrough calls ↔ (methods Func).Guarded Careful calls := by
  have exact_iff := @Machine.completes_iff_guarded _ _ _ (methods Func)
    (fun program _ => Arranged program) (fun program _ => Valid program) Careful calls
    ⟨arranged_start, List.nodup_nil, by simp [methods]⟩
    (fun _ _ method arranged valid => valid.call_iff_careful arranged method)
    (fun _ _ _ _ _ arranged _ _ taken => (call_moves arranged taken).arranged arranged)
  rw [← exact_iff]
  constructor
  · exact valid_of_runsThrough
  · rintro ⟨⟨program, answers, exec⟩, valid⟩
    exact exec_returns exec (valid.last exec)

end

/-- `main` with one task: it fires, the timer is found empty, and the loop begins again. -/
def oneTask : List (Method Unit) :=
  [.addTask 1000 () 0, .timeToSleep 0, .checkTask 1000, .callbackReturns, .checkTask 1000, .timeToSleep 1000]

/-- The same, with a callback that deletes its own task. -/
def ownTask : List (Method Unit) :=
  [.addTask 1000 () 0, .timeToSleep 0, .checkTask 1000, .delTask ⟨0, 1000⟩, .callbackReturns]

private theorem not_runsThrough_of_stuck {calls : List (Method Unit)}
    (stuck : (methods Unit).run calls = none) : ¬ RunsThrough calls := by
  rintro ⟨count, last, all, -, ran⟩
  obtain ⟨program, answers, exec, -⟩ := ran.earlier (List.prefix_append _ _)
  have runs := exec.run_eq
  rw [stuck] at runs
  contradiction

theorem oneTask_fails : ¬ RunsThrough oneTask ∧ ¬ RunsThrough ownTask :=
  ⟨not_runsThrough_of_stuck (by decide), not_runsThrough_of_stuck (by decide)⟩

end SimpleBasicComponents.SetTimer
