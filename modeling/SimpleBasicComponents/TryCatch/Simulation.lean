import Mathlib.Tactic.Common
import SimpleBasicComponents.TryCatch.Phases

/-!
The macros implement structured exceptions.

Owns: what it means that a thread does a structured run, the rules for putting
such runs together, and the simulation of programs by the statements they expand
to, in the machine that observes the blocks. A statement that ends normally leaves the exception
stack as it found it; one that raises goes on in the environment saved by the
innermost active `Try`, with that `Try` popped. In both cases the locals of all
other blocks that were there before are unchanged.
-/

namespace SimpleBasicComponents.TryCatch

open SimpleBasicComponents.Semantics

/-! ### Steps that show and mark -/

def Event.shown : Event → Option Shown
  | .action name => some (.action name)
  | .report exception cause site => some (.report exception cause site)
  | .endTry _ _ => none

section

variable {whole : Program} {thread middle next : Thread} {marks later : List Mark}
  {shown more : List Shown}

variable (whole) in
/-- Some steps lead from one thread to the other, show the given things and mark
the given phases, and every `EndTry` passed finds the stack of its `Try`. -/
def Moves (thread : Thread) (shown : List Shown) (marks : List Mark) (next : Thread) : Prop :=
  ∃ seen, (observedMachine whole).Steps thread seen next ∧ seen.filterMap Sum.getLeft? = marks ∧
    (seen.filterMap Sum.getRight?).filterMap Event.shown = shown ∧
    ∀ atTry now, .endTry atTry now ∈ seen.filterMap Sum.getRight? → now = atTry

theorem Moves.refl : Moves whole thread [] [] thread := ⟨[], .refl thread, rfl, rfl, by simp⟩

theorem Moves.trans (one : Moves whole thread shown marks middle)
    (two : Moves whole middle more later next) :
    Moves whole thread (shown ++ more) (marks ++ later) next := by
  have ⟨first, steps, isMarks, isShown, balanced⟩ := one
  have ⟨second, stepsLater, isLater, isMore, balancedLater⟩ := two
  refine ⟨first ++ second, steps.trans stepsLater, ?_, ?_, ?_⟩
  · rw [List.filterMap_append, isMarks, isLater]
  · rw [List.filterMap_append, List.filterMap_append, isShown, isMore]
  · intro atTry now member
    rw [List.filterMap_append] at member
    rcases List.mem_append.mp member with before | after
    · exact balanced atTry now before
    · exact balancedLater atTry now after

/-- One step of the machine, with what is observed before it. -/
theorem Moves.one {events : List Event} (taken : step thread = some (next, events))
    (isMarks : observe thread = marks) (isShown : events.filterMap Event.shown = shown)
    (balanced : ∀ atTry now, .endTry atTry now ∈ events → now = atTry) :
    Moves whole thread shown marks next := by
  have isEvents : ((observe thread).map Sum.inl ++ events.map Sum.inr).filterMap Sum.getRight? =
      events := by
    simp [List.filterMap_append, List.filterMap_map, Function.comp_def]
  have stepped : (machine whole).step thread () = some (next, events) := taken
  refine ⟨_, .one () (Machine.observed_step stepped), ?_, ?_, ?_⟩
  · rw [← isMarks]
    simp [List.filterMap_append, List.filterMap_map, Function.comp_def]
  · rw [isEvents]
    exact isShown
  · rw [isEvents]
    exact balanced

/-- One step that shows nothing. -/
theorem Moves.quiet (taken : step thread = some (next, [])) (isMarks : observe thread = marks) :
    Moves whole thread [] marks next :=
  .one taken isMarks rfl (by simp)

end

/-! ### Locals -/

/-- The locals of the blocks below `bound` are the same. -/
structure Same (bound : Nat) (before after : Heap Frame) : Prop where
  le : bound ≤ after.length
  load : ∀ addr < bound, after.load addr = before.load addr

theorem Same.refl {bound : Nat} {heap : Heap Frame} (le : bound ≤ heap.length) :
    Same bound heap heap := ⟨le, fun _ _ => rfl⟩

theorem Same.trans {bound : Nat} {first second third : Heap Frame} (one : Same bound first second)
    (two : Same bound second third) : Same bound first third :=
  ⟨two.le, fun addr below => (two.load addr below).trans (one.load addr below)⟩

theorem Same.mono {bound lower : Nat} {before after : Heap Frame} (same : Same bound before after)
    (le : lower ≤ bound) : Same lower before after :=
  ⟨le.trans same.le, fun addr below => same.load addr (Nat.lt_of_lt_of_le below le)⟩

/-- The innermost active `Try`, if any, stands in a block below `bound` and has
saved its environment. -/
def Ready (bound : Nat) (heap : Heap Frame) (stack : Option Addr) : Prop :=
  ∀ top, stack = some top → top < bound ∧ ∃ frame left, heap.load top = some frame ∧
    frame.env = some left

theorem Ready.of_same {bound : Nat} {before after : Heap Frame} {stack : Option Addr}
    (ready : Ready bound before stack) (same : Same bound before after) :
    Ready bound after stack := by
  intro top isTop
  obtain ⟨below, frame, left, found, saved⟩ := ready top isTop
  exact ⟨below, frame, left, (same.load top below).trans found, saved⟩

theorem Ready.mono {bound upper : Nat} {heap : Heap Frame} {stack : Option Addr}
    (ready : Ready bound heap stack) (le : bound ≤ upper) : Ready upper heap stack := by
  intro top isTop
  obtain ⟨below, saved⟩ := ready top isTop
  exact ⟨Nat.lt_of_lt_of_le below le, saved⟩

/-! ### Runs with a behaviour -/

variable {whole : Program}

variable (whole) in
/-- The thread does what is left to do up to `rest` in this run. -/
def Lands (bound : Nat) (thread : Thread) (rest : List Item) (post : Heap Frame → Prop) (run : Run) :
    Prop :=
  match run.outcome with
  | .done =>
      ∃ heap, Moves whole thread run.shown run.marks ⟨rest, heap, thread.exceptionStack⟩ ∧
        heap.length = run.blocks ∧ Same bound thread.heap heap ∧ post heap
  | .raised exception site =>
      ∃ top frame left heap, thread.exceptionStack = some top ∧ top < bound ∧
        thread.heap.load top = some frame ∧ frame.env = some left ∧
        Moves whole thread run.shown run.marks ⟨left, heap, frame.prev⟩ ∧
        heap.length = run.blocks ∧ bound ≤ heap.length ∧
        (∀ addr < bound, addr ≠ top → heap.load addr = thread.heap.load addr) ∧
        heap.load top = some { frame with
          flag := some .exceptionThrown, exception := some exception, site }

section

variable {bound : Nat} {thread next : Thread} {rest middle : List Item}
  {post after : Heap Frame → Prop} {run first : Run} {second : Nat → Run}

/-- Steps that leave the stack and the older blocks alone may come first. -/
theorem Lands.prepend {shown : List Shown} {marks : List Mark}
    (moves : Moves whole thread shown marks next)
    (stack : next.exceptionStack = thread.exceptionStack) (same : Same bound thread.heap next.heap)
    (lands : Lands whole bound next rest post run) :
    Lands whole bound thread rest post
      ⟨shown ++ run.shown, marks ++ run.marks, run.blocks, run.outcome⟩ := by
  obtain ⟨more, later, blocks, outcome⟩ := run
  cases outcome with
  | done =>
      have ⟨heap, ran, length, sameLater, holds⟩ := lands
      rw [stack] at ran
      exact ⟨heap, moves.trans ran, length, same.trans sameLater, holds⟩
  | raised exception site =>
      have ⟨top, frame, left, heap, isTop, below, found, saved, ran, length, le, others, thrown⟩ := lands
      refine ⟨top, frame, left, heap, stack.symm.trans isTop, below,
        (same.load top below).symm.trans found, saved, moves.trans ran, length, le, ?_, thrown⟩
      intro addr less notTop
      exact (others addr less notTop).trans (same.load addr less)

/-- The same for steps that show and mark nothing. -/
theorem Lands.silent (moves : Moves whole thread [] [] next)
    (stack : next.exceptionStack = thread.exceptionStack) (same : Same bound thread.heap next.heap)
    (lands : Lands whole bound next rest post run) : Lands whole bound thread rest post run :=
  Lands.prepend moves stack same lands

/-- The same for steps that mark one phase. -/
theorem Lands.marked {block : Addr} {phase : Phase} {blocks : Nat}
    (moves : Moves whole thread [] [⟨block, phase⟩] next)
    (stack : next.exceptionStack = thread.exceptionStack) (same : Same bound thread.heap next.heap)
    (lands : Lands whole bound next rest post (second blocks)) :
    Lands whole bound thread rest post ((Run.ofMark block phase blocks).andThen second) :=
  Lands.prepend moves stack same lands

theorem Lands.andThen (one : Lands whole bound thread middle post first)
    (two : ∀ heap, Same bound thread.heap heap → post heap →
      Lands whole bound ⟨middle, heap, thread.exceptionStack⟩ rest after (second heap.length)) :
    Lands whole bound thread rest after (first.andThen second) := by
  obtain ⟨shown, marks, blocks, outcome⟩ := first
  cases outcome with
  | done =>
      have ⟨heap, ran, length, same, holds⟩ := one
      have later := two heap same holds
      rw [length] at later
      exact Lands.prepend ran rfl same later
  | raised exception site => exact one

theorem Lands.mono {lower : Nat} (lands : Lands whole bound thread rest post run)
    (le : lower ≤ bound) (below : ∀ top, thread.exceptionStack = some top → top < lower)
    (implies : ∀ heap, Same bound thread.heap heap → post heap → after heap) :
    Lands whole lower thread rest after run := by
  obtain ⟨shown, marks, blocks, outcome⟩ := run
  cases outcome with
  | done =>
      have ⟨heap, ran, length, same, holds⟩ := lands
      exact ⟨heap, ran, length, same.mono le, implies heap same holds⟩
  | raised exception site =>
      have ⟨top, frame, left, heap, isTop, _, found, saved, ran, length, leHeap, others, thrown⟩ := lands
      exact ⟨top, frame, left, heap, isTop, below top isTop, found, saved, ran, length,
        le.trans leHeap, fun addr less => others addr (Nat.lt_of_lt_of_le less le), thrown⟩

theorem lands_refl (le : bound ≤ thread.heap.length) (holds : post thread.heap)
    (isLeft : thread.left = rest) :
    Lands whole bound thread rest post (.ofBehaviour ([], .done) thread.heap.length) := by
  subst isLeft
  exact ⟨thread.heap, .refl, rfl, .refl le, holds⟩

/-- Steps that mark one phase and change nothing else. -/
theorem lands_mark {heap : Heap Frame} {stack : Option Addr} {left : List Item} {block : Addr}
    {phase : Phase} (moves : Moves whole ⟨left, heap, stack⟩ [] [⟨block, phase⟩] ⟨rest, heap, stack⟩)
    (le : bound ≤ heap.length) (holds : post heap) :
    Lands whole bound ⟨left, heap, stack⟩ rest post (.ofMark block phase heap.length) :=
  ⟨heap, moves, rfl, .refl le, holds⟩

end

/-! ### Single statements -/

section

variable {bound : Nat} {rest : List Item} {heap : Heap Frame} {stack block : Option Addr}
  {addr : Addr} {frame : Frame}

theorem moves_seq (first second : Stmt) :
    Moves whole ⟨.stmt (.seq first second) block :: rest, heap, stack⟩ [] []
      ⟨.stmt first block :: .stmt second block :: rest, heap, stack⟩ :=
  .quiet rfl (observe_stmt rfl (by simp))

theorem moves_skip :
    Moves whole ⟨.stmt .skip block :: rest, heap, stack⟩ [] [] ⟨rest, heap, stack⟩ :=
  .quiet rfl (observe_stmt rfl (by simp))

private theorem step_ite {cond : Cond} {result : Bool} (yes no : Stmt)
    (found : heap.load addr = some frame) (tests : cond.test frame = some result) :
    step ⟨.stmt (.ite cond yes no) (some addr) :: rest, heap, stack⟩ =
      some (⟨.stmt (if result then yes else no) (some addr) :: rest, heap, stack⟩, []) := by
  cases result <;> simp [step, runStmt, found, tests]

/-- An `if` that is not one of those that are observed. -/
theorem moves_ite {cond : Cond} {result : Bool} (yes no : Stmt)
    (found : heap.load addr = some frame) (tests : cond.test frame = some result)
    (unseen : (Stmt.ite cond yes no).phase = none) :
    Moves whole ⟨.stmt (.ite cond yes no) (some addr) :: rest, heap, stack⟩ [] []
      ⟨.stmt (if result then yes else no) (some addr) :: rest, heap, stack⟩ := by
  apply Moves.quiet (step_ite yes no found tests)
  simp [observe, unseen]

/-- An `if` that is. -/
theorem moves_markedIte {cond : Cond} {result : Bool} {phase : Phase} (yes no : Stmt)
    (found : heap.load addr = some frame) (tests : cond.test frame = some result)
    (marks : (Stmt.ite cond yes no).phase = some phase) :
    Moves whole ⟨.stmt (.ite cond yes no) (some addr) :: rest, heap, stack⟩ [] [⟨addr, phase⟩]
      ⟨.stmt (if result then yes else no) (some addr) :: rest, heap, stack⟩ := by
  apply Moves.quiet (step_ite yes no found tests)
  simp [observe, marks]

theorem test_flagIs {now : Flag} (isNow : frame.flag = some now) (flag : Flag) :
    (Cond.flagIs flag).test frame = some (decide (now = flag)) := by
  simp [Cond.test, isNow]

theorem step_setFlag (stack : Option Addr) (rest : List Item)
    (found : heap.load addr = some frame) (flag : Flag) :
    ∃ after, step ⟨.stmt (.setFlag flag) (some addr) :: rest, heap, stack⟩ =
        some (⟨rest, after, stack⟩, []) ∧
      Same addr heap after ∧ after.length = heap.length ∧
      after.load addr = some { frame with flag := some flag } := by
  obtain ⟨after, stores, length, here, others⟩ :=
    Heap.store_eq_some found { frame with flag := some flag }
  refine ⟨after, ?_, ⟨?_, ?_⟩, length, here⟩
  · simp [step, runStmt, setFrame, found, stores]
  · rw [length]
    exact Nat.le_of_lt (Heap.lt_length_of_load found)
  · exact fun other below => others other (Nat.ne_of_lt below)

/-- A call of `ntyExceptionThrow` raises the exception. -/
theorem lands_throw {thread : Thread} (le : bound ≤ heap.length) (ready : Ready bound heap stack)
    (exception : NtyException) (cause : Option String) (site : Nat) (isHeap : thread.heap = heap)
    (isStack : thread.exceptionStack = stack) (unseen : observe thread = [])
    (calls : step thread = ntyExceptionThrow ⟨rest, heap, stack⟩ exception cause site) :
    Lands whole bound thread rest (fun after => after = heap)
      (.ofBehaviour (raise stack.isSome exception cause site) heap.length) := by
  subst isHeap
  subst isStack
  cases isTop : thread.exceptionStack with
  | none =>
      rw [isTop] at calls
      refine ⟨thread.heap, ?_, rfl, .refl le, rfl⟩
      rw [isTop]
      exact Moves.one calls unseen rfl (by simp)
  | some top =>
      obtain ⟨below, frame, left, found, saved⟩ := ready top isTop
      obtain ⟨middle, stores, lengthMiddle, here, others⟩ :=
        Heap.store_eq_some found { frame with exception := some exception, site := site }
      obtain ⟨after, jumps, length, thrown, othersAfter⟩ :=
        Heap.store_eq_some here
          { frame with exception := some exception, site := site, flag := some .exceptionThrown }
      have sameLength : after.length = thread.heap.length := length.trans lengthMiddle
      refine ⟨top, frame, left, after, isTop, below, found, saved, Moves.quiet ?_ unseen, sameLength,
        ?_, ?_, thrown⟩
      · rw [isTop] at calls
        simp only [calls, ntyExceptionThrow, found, stores, longjmp, here, jumps]
        simp only [saved]
      · rw [sameLength]
        exact le
      · intro addr _ notTop
        rw [othersAfter addr notTop, others addr notTop]

end

/-! ### Blocks -/

section

variable {rest : List Item} {heap : Heap Frame} {stack block : Option Addr}

/-- Leaving a block whose `Try` was entered with the stack of now. -/
theorem lands_leave {addr : Addr} {frame : Frame} (found : heap.load addr = some frame) :
    Lands whole addr ⟨.leave addr stack :: rest, heap, stack⟩ rest (fun _ => True)
      (.ofMark addr .left heap.length) := by
  have below := Heap.lt_length_of_load found
  obtain ⟨after, frees, length, others⟩ := Heap.free_eq_some found
  have leaves : step ⟨.leave addr stack :: rest, heap, stack⟩ =
      some (⟨rest, after, stack⟩, [.endTry stack stack]) := by
    simp [step, frees]
  refine ⟨after, .one leaves rfl rfl (by simp), length, ⟨?_, ?_⟩, trivial⟩
  · rw [length]
    exact Nat.le_of_lt below
  · exact fun other less => others other (Nat.ne_of_lt less)

/-- What is left to do when `setjmp` returns. -/
def afterSetjmp (body : Program) (handlers : Handlers) : Stmt :=
  .seq (.ite (.flagIs .exceptionEntered) (closeBranch body.expand) handlers.expandCatches)
    (.seq handlers.expandFinally (.ite (.flagIs .exceptionThrown) .rethrow .skip))

/-- The locals of a block after `Try`. -/
def entered (body : Program) (handlers : Handlers) (addr : Addr) (stack : Option Addr)
    (rest : List Item) : Frame :=
  ⟨some .exceptionEntered, none, 0, stack,
    some (.stmt (afterSetjmp body handlers) (some addr) :: .leave addr stack :: rest)⟩

/-- A block is observed to have a `Finally` if it has one. -/
theorem hasFinally_expand (push save branches last : Stmt) (handlers : Handlers) :
    (Stmt.seq push (.seq save (.seq branches (.seq handlers.expandFinally last)))).hasFinally =
      handlers.hasFinally := by
  fun_induction Handlers.hasFinally handlers with
  | case1 => rfl
  | case2 final => rfl
  | case3 exception handler rest inductionHypothesis => exact inductionHypothesis

theorem moves_try (whole body : Program) (handlers : Handlers) (heap : Heap Frame)
    (stack block : Option Addr) (rest : List Item) :
    ∃ after, Moves whole
        ⟨.stmt (Program.tryBlock body handlers).expand block :: rest, heap, stack⟩ []
        [⟨heap.length, .entered handlers.hasFinally⟩]
        ⟨.stmt (afterSetjmp body handlers) (some heap.length) :: .leave heap.length stack :: rest,
          after, some heap.length⟩ ∧
      Same heap.length heap after ∧ after.length = heap.length + 1 ∧
      after.load heap.length = some (entered body handlers heap.length stack rest) := by
  generalize isFresh : (⟨none, none, 0, none, none⟩ : Frame) = fresh
  have allocated : (heap.alloc fresh).load heap.length = some fresh := Heap.load_alloc_self
  obtain ⟨pushed, pushes, lengthPushed, herePushed, othersPushed⟩ :=
    Heap.store_eq_some allocated { fresh with prev := stack }
  obtain ⟨after, saves, length, here, others⟩ :=
    Heap.store_eq_some herePushed (entered body handlers heap.length stack rest)
  have inner : Moves whole
      ⟨.stmt (Program.tryBlock body handlers).expand block :: rest, heap, stack⟩ []
      [⟨heap.length, .entered handlers.hasFinally⟩]
      ⟨.stmt (.seq .pushFrame (.seq .setjmpFlag (afterSetjmp body handlers))) (some heap.length) ::
        .leave heap.length stack :: rest, heap.alloc fresh, stack⟩ := by
    rw [← isFresh]
    apply Moves.quiet rfl
    simp only [Program.expand, observe, hasFinally_expand]
  have push : Moves whole
      ⟨.stmt .pushFrame (some heap.length) ::
        .stmt (.seq .setjmpFlag (afterSetjmp body handlers)) (some heap.length) ::
        .leave heap.length stack :: rest, heap.alloc fresh, stack⟩ [] []
      ⟨.stmt (.seq .setjmpFlag (afterSetjmp body handlers)) (some heap.length) ::
        .leave heap.length stack :: rest, pushed, some heap.length⟩ := by
    apply Moves.quiet _ rfl
    simp only [step, runStmt, setFrame, allocated, pushes]
  have save : Moves whole
      ⟨.stmt .setjmpFlag (some heap.length) ::
        .stmt (afterSetjmp body handlers) (some heap.length) ::
        .leave heap.length stack :: rest, pushed, some heap.length⟩ [] []
      ⟨.stmt (afterSetjmp body handlers) (some heap.length) ::
        .leave heap.length stack :: rest, after, some heap.length⟩ := by
    apply Moves.quiet _ rfl
    subst isFresh
    simp only [entered] at saves
    simp only [step, runStmt, setFrame, herePushed, saves]
  refine ⟨after, ?_, ⟨?_, ?_⟩, ?_, here⟩
  · exact inner.trans ((moves_seq _ _).trans (push.trans ((moves_seq _ _).trans save)))
  · rw [length, lengthPushed, Heap.length_alloc]
    exact Nat.le_succ _
  · intro addr below
    have different : addr ≠ heap.length := Nat.ne_of_lt below
    rw [others addr different, othersPushed addr different, Heap.load_alloc_other different]
  · rw [length, lengthPushed, Heap.length_alloc]

end

/-! ### The parts of a block -/

section

variable {bound : Nat} {rest : List Item} {heap : Heap Frame} {stack : Option Addr} {addr : Addr}
  {frame : Frame} {post : Heap Frame → Prop} {run : Run} {handlers : Handlers}

/-- A branch whose block is no longer merely entered closes without popping. -/
theorem lands_closeBranch {branch : Stmt} (le : bound ≤ addr)
    (lands : Lands whole bound
      ⟨.stmt branch (some addr) ::
        .stmt (.ite (.flagIs .exceptionEntered) .popStack .skip) (some addr) :: rest, heap, stack⟩
      (.stmt (.ite (.flagIs .exceptionEntered) .popStack .skip) (some addr) :: rest) post run)
    (left : ∀ after, post after → ∃ now flag, after.load addr = some now ∧ now.flag = some flag ∧
      flag ≠ .exceptionEntered) (within : bound ≤ heap.length) :
    Lands whole bound ⟨.stmt (closeBranch branch) (some addr) :: rest, heap, stack⟩ rest post
      (run.andThen (Run.ofMark addr .branchClosed)) := by
  apply Lands.silent (moves_seq _ _) rfl (.refl within)
  apply lands.andThen
  intro after _ holds
  obtain ⟨now, flag, found, isFlag, notEntered⟩ := left after holds
  have below : bound ≤ after.length := le.trans (Nat.le_of_lt (Heap.lt_length_of_load found))
  have tests := test_flagIs isFlag .exceptionEntered
  rw [decide_eq_false notEntered] at tests
  exact lands_mark ((moves_markedIte _ _ found tests rfl).trans moves_skip) below holds

/-- What the block between `Finally` and `EndTry` keeps of the locals. -/
def Kept (addr : Addr) (frame : Frame) (flag : Flag) (after : Heap Frame) : Prop :=
  ∃ now flagNow, after.load addr = some now ∧ now.flag = some flagNow ∧
    (flagNow = .exceptionThrown ↔ flag = .exceptionThrown) ∧ now.exception = frame.exception ∧
    now.site = frame.site

/-- The last `if` of the expansion. -/
def rethrowIfThrown : Stmt := .ite (.flagIs .exceptionThrown) .rethrow .skip

variable {flag : Flag}

private theorem lands_finish (found : heap.load addr = some frame) (isFlag : frame.flag = some flag)
    (notThrown : flag ≠ .exceptionThrown) :
    Lands whole addr ⟨.stmt rethrowIfThrown (some addr) :: .leave addr stack :: rest, heap, stack⟩
      rest (fun _ => True) (.ofMark addr .left heap.length) := by
  have below := Nat.le_of_lt (Heap.lt_length_of_load found)
  have tests := test_flagIs isFlag .exceptionThrown
  rw [decide_eq_false notThrown] at tests
  apply Lands.silent (moves_ite _ _ found tests rfl) rfl (.refl below)
  exact Lands.silent moves_skip rfl (.refl below) (lands_leave found)

private theorem lands_rethrow (ready : Ready addr heap stack) (found : heap.load addr = some frame)
    (isFlag : frame.flag = some .exceptionThrown) {exception : NtyException}
    (isException : frame.exception = some exception) :
    Lands whole addr ⟨.stmt rethrowIfThrown (some addr) :: .leave addr stack :: rest, heap, stack⟩
      rest (fun _ => True)
      ((Run.ofBehaviour (raise stack.isSome exception none frame.site) heap.length).andThen
        (Run.ofMark addr .left)) := by
  have below := Nat.le_of_lt (Heap.lt_length_of_load found)
  have tests := test_flagIs isFlag .exceptionThrown
  rw [decide_eq_true rfl] at tests
  apply Lands.silent (moves_ite _ _ found tests rfl) rfl (.refl below)
  have throws : Lands whole addr
      ⟨.stmt .rethrow (some addr) :: .leave addr stack :: rest, heap, stack⟩
      (.leave addr stack :: rest) (fun after => after = heap)
      (.ofBehaviour (raise stack.isSome exception none frame.site) heap.length) := by
    apply lands_throw below ready exception none frame.site rfl rfl rfl
    simp only [step, runStmt, found, isException]
  apply throws.andThen
  rintro after _ rfl
  exact lands_leave found

/-- From `Finally` on, with nothing to throw again. -/
private theorem lands_end
    (final : ∀ rest, Lands whole addr ⟨.stmt handlers.expandFinally (some addr) :: rest, heap, stack⟩
      rest (Kept addr frame flag) (handlers.finalRun stack.isSome addr heap.length))
    (below : addr ≤ heap.length) (notThrown : flag ≠ .exceptionThrown) :
    Lands whole addr
      ⟨.stmt (.seq handlers.expandFinally rethrowIfThrown) (some addr) :: .leave addr stack :: rest,
        heap, stack⟩
      rest (fun _ => True)
      ((handlers.finalRun stack.isSome addr heap.length).andThen (Run.ofMark addr .left)) := by
  apply Lands.silent (moves_seq _ _) rfl (.refl below)
  apply (final _).andThen
  rintro after _ ⟨now, flagNow, found, isFlag, thrown, -⟩
  exact lands_finish found isFlag fun isThrown => notThrown (thrown.mp isThrown)

/-- From `Finally` on, with an exception no `Catch` names. -/
private theorem lands_unhandled
    (final : ∀ rest, Lands whole addr ⟨.stmt handlers.expandFinally (some addr) :: rest, heap, stack⟩
      rest (Kept addr frame .exceptionThrown) (handlers.finalRun stack.isSome addr heap.length))
    (below : addr ≤ heap.length) (ready : Ready addr heap stack) {exception : NtyException}
    (isException : frame.exception = some exception) :
    Lands whole addr
      ⟨.stmt (.seq handlers.expandFinally rethrowIfThrown) (some addr) :: .leave addr stack :: rest,
        heap, stack⟩
      rest (fun _ => True)
      ((handlers.finalRun stack.isSome addr heap.length).andThen fun later =>
        (Run.ofBehaviour (raise stack.isSome exception none frame.site) later).andThen
          (Run.ofMark addr .left)) := by
  apply Lands.silent (moves_seq _ _) rfl (.refl below)
  apply (final _).andThen
  rintro after same ⟨now, flagNow, found, isFlag, thrown, sameException, sameSite⟩
  rw [thrown.mpr rfl] at isFlag
  rw [← sameSite]
  exact lands_rethrow (ready.of_same same) found isFlag (sameException.trans isException)

end

/-! ### The simulation -/

variable (whole) in
/-- The expansion of the program behaves as the program, wherever it stands. -/
def ProgramLands (program : Program) : Prop :=
  ∀ {bound : Nat} {heap : Heap Frame} {stack block : Option Addr} {rest : List Item},
    bound ≤ heap.length → Ready bound heap stack →
    Lands whole bound ⟨.stmt program.expand block :: rest, heap, stack⟩ rest (fun _ => True)
      (program.run stack.isSome heap.length)

variable (whole) in
/-- The `else if` branches do what the first `Catch` naming the exception does. -/
def CatchesLand (handlers : Handlers) : Prop :=
  ∀ {addr : Addr} {heap : Heap Frame} {stack : Option Addr} {rest : List Item} {frame : Frame}
    {exception : NtyException}, Ready addr heap stack → heap.load addr = some frame →
    frame.exception = some exception →
    match handlers.catchRun stack.isSome addr exception heap.length with
    | none =>
        Moves whole ⟨.stmt handlers.expandCatches (some addr) :: rest, heap, stack⟩ [] []
          ⟨rest, heap, stack⟩
    | some handled =>
        Lands whole addr ⟨.stmt handlers.expandCatches (some addr) :: rest, heap, stack⟩ rest
          (fun after => ∃ now, after.load addr = some now ∧ now.flag = some .exceptionHandled)
          handled

variable (whole) in
def FinallyLands (handlers : Handlers) : Prop :=
  ∀ {addr : Addr} {heap : Heap Frame} {stack : Option Addr} {rest : List Item} {frame : Frame}
    {flag : Flag}, Ready addr heap stack → heap.load addr = some frame → frame.flag = some flag →
    Lands whole addr ⟨.stmt handlers.expandFinally (some addr) :: rest, heap, stack⟩ rest
      (Kept addr frame flag) (handlers.finalRun stack.isSome addr heap.length)

/-- A program run inside a block leaves the block's locals alone. -/
private theorem ProgramLands.inside {program : Program} (lands : ProgramLands whole program)
    {addr : Addr} {heap : Heap Frame} {stack block : Option Addr} {rest : List Item} {frame : Frame}
    (ready : Ready addr heap stack) (found : heap.load addr = some frame) :
    Lands whole addr ⟨.stmt program.expand block :: rest, heap, stack⟩ rest
      (fun after => after.load addr = some frame) (program.run stack.isSome heap.length) := by
  have below : addr + 1 ≤ heap.length := Heap.lt_length_of_load found
  apply (lands below (ready.mono (Nat.le_succ addr))).mono (Nat.le_succ addr)
  · exact fun top isTop => (ready top isTop).1
  · intro after same _
    exact (same.load addr (Nat.lt_succ_self addr)).trans found

private theorem tryBlock_lands {body : Program} {handlers : Handlers}
    (bodyLands : ProgramLands whole body) (catchesLand : CatchesLand whole handlers)
    (finallyLands : FinallyLands whole handlers) :
    ProgramLands whole (.tryBlock body handlers) := by
  intro bound heap stack block rest le ready
  obtain ⟨heapTry, enters, sameTry, lengthTry, found⟩ :=
    moves_try whole body handlers heap stack block rest
  have readyHere : Ready (heap.length + 1) heapTry (some heap.length) := by
    rintro top isTop
    obtain rfl := Option.some.inj isTop
    exact ⟨Nat.lt_succ_self _, _, _, found, rfl⟩
  have readyTop : Ready heap.length heap stack := ready.mono le
  let after := Item.stmt (.seq handlers.expandFinally rethrowIfThrown) (some heap.length)
  let close := Item.stmt (.ite (.flagIs .exceptionEntered) .popStack .skip) (some heap.length)
  have toBody : Moves whole
      ⟨.stmt (Program.tryBlock body handlers).expand block :: rest, heap, stack⟩ []
      [⟨heap.length, .entered handlers.hasFinally⟩]
      ⟨.stmt body.expand (some heap.length) :: close :: after :: .leave heap.length stack :: rest,
        heapTry, some heap.length⟩ :=
    enters.trans ((moves_seq _ _).trans ((moves_ite _ _ found rfl rfl).trans (moves_seq _ _)))
  have run : Lands whole (heap.length + 1)
      ⟨.stmt body.expand (some heap.length) :: close :: after :: .leave heap.length stack :: rest,
        heapTry, some heap.length⟩ (close :: after :: .leave heap.length stack :: rest)
      (fun _ => True) (body.run true (heap.length + 1)) := by
    have lands := @bodyLands _ heapTry _ (some heap.length)
      (close :: after :: .leave heap.length stack :: rest) (Nat.le_of_eq lengthTry.symm) readyHere
    rw [lengthTry] at lands
    exact lands
  suffices lands : Lands whole heap.length
      ⟨.stmt (Program.tryBlock body handlers).expand block :: rest, heap, stack⟩ rest (fun _ => True)
      ((Program.tryBlock body handlers).run stack.isSome heap.length) from
    lands.mono le (fun top isTop => (ready top isTop).1) fun _ _ _ => trivial
  rw [Program.run]
  simp only [Run.ofMark_andThen]
  generalize body.run true (heap.length + 1) = bodyRun at run ⊢
  obtain ⟨shown, marks, later, outcome⟩ := bodyRun
  cases outcome with
  | done =>
      obtain ⟨heapBody, ran, rfl, same, -⟩ := run
      have here := (same.load heap.length (Nat.lt_succ_self _)).trans found
      have closes : Moves whole
          ⟨close :: after :: .leave heap.length stack :: rest, heapBody, some heap.length⟩ []
          [⟨heap.length, .branchClosed⟩]
          ⟨.stmt .popStack (some heap.length) :: after :: .leave heap.length stack :: rest, heapBody,
            some heap.length⟩ :=
        moves_markedIte .popStack .skip here
          (show Cond.test _ (.flagIs .exceptionEntered) = some true from rfl) rfl
      have pops : Moves whole
          ⟨.stmt .popStack (some heap.length) :: after :: .leave heap.length stack :: rest, heapBody,
            some heap.length⟩ [] []
          ⟨after :: .leave heap.length stack :: rest, heapBody, stack⟩ := by
        apply Moves.quiet _ rfl
        simp [step, runStmt, here, entered]
      have steps := toBody.trans (ran.trans (closes.trans pops))
      rw [List.append_nil, List.append_nil, List.nil_append, List.append_nil] at steps
      have sameBody := sameTry.trans (same.mono (Nat.le_succ _))
      have lands := Lands.prepend steps rfl sameBody
        (lands_end (fun rest => @finallyLands _ _ _ rest _ _ (readyTop.of_same sameBody) here rfl)
          sameBody.le (by decide))
      rw [List.append_assoc, List.append_assoc] at lands
      exact lands
  | raised exception site =>
      obtain ⟨top, frame, left, heapBody, isTop, -, foundTop, saved, ran, rfl, leBody, others,
        thrown⟩ := run
      obtain rfl : heap.length = top := Option.some.inj isTop
      obtain rfl := Option.some.inj (found.symm.trans foundTop)
      obtain rfl := Option.some.inj saved
      have sameBody : Same heap.length heap heapBody := by
        refine ⟨Nat.le_of_succ_le leBody, fun addr below => ?_⟩
        rw [others addr (Nat.lt_succ_of_lt below) (Nat.ne_of_lt below), sameTry.load addr below]
      have readyBody := readyTop.of_same sameBody
      have steps := toBody.trans (ran.trans ((moves_seq _ _).trans (moves_ite _ _ thrown rfl rfl)))
      rw [List.append_nil, List.append_nil, List.nil_append, List.append_nil, List.append_nil] at steps
      apply Lands.prepend steps rfl sameBody
      have caught := @catchesLand _ _ _ (after :: .leave heap.length stack :: rest) _ _ readyBody
        thrown rfl
      simp only [Run.caught, Run.afterBody]
      cases isCaught : handlers.catchRun stack.isSome heap.length exception heapBody.length with
      | none =>
          rw [isCaught] at caught
          apply Lands.silent caught rfl (.refl sameBody.le)
          exact lands_unhandled (fun rest => finallyLands readyBody thrown rfl) sameBody.le readyBody
            rfl
      | some handled =>
          rw [isCaught] at caught
          apply Lands.andThen caught
          rintro heapNow same ⟨now, foundNow, isHandled⟩
          exact lands_end (fun rest => finallyLands (readyBody.of_same same) foundNow isHandled)
            same.le (by decide)

private theorem catch_lands {exception : NtyException} {handler : Program} {handlers : Handlers}
    (handlerLands : ProgramLands whole handler) (catchesLand : CatchesLand whole handlers) :
    CatchesLand whole (.catch exception handler handlers) := by
  intro addr heap stack rest frame raised ready found isRaised
  have below := Nat.le_of_lt (Heap.lt_length_of_load found)
  have tests : (Cond.exceptionIs exception).test frame = some (decide (raised = exception)) := by
    simp [Cond.test, isRaised]
  have chooses : Moves whole
      ⟨.stmt (Handlers.catch exception handler handlers).expandCatches (some addr) :: rest, heap,
        stack⟩ [] [] _ := moves_ite _ _ found tests rfl
  by_cases names : raised = exception
  · rw [decide_eq_true names, if_pos rfl] at chooses
    rw [Handlers.catchRun, if_pos names]
    apply Lands.silent chooses rfl (.refl below)
    apply lands_closeBranch le_rfl _ _ below
    · apply Lands.silent (moves_seq _ _) rfl (.refl below)
      obtain ⟨after, sets, same, length, here⟩ := step_setFlag stack
        (.stmt handler.expand (some addr) ::
          .stmt (.ite (.flagIs .exceptionEntered) .popStack .skip) (some addr) :: rest)
        found .exceptionHandled
      apply Lands.marked (Moves.quiet sets rfl) rfl same
      rw [← length]
      apply (handlerLands.inside (ready.of_same same) here).mono le_rfl
      · exact fun top isTop => (ready top isTop).1
      · exact fun last _ kept => ⟨_, kept, rfl⟩
    · rintro after ⟨now, kept, isHandled⟩
      exact ⟨now, .exceptionHandled, kept, isHandled, by decide⟩
  · rw [decide_eq_false names, if_neg (by decide)] at chooses
    have later := @catchesLand _ _ _ rest _ _ ready found isRaised
    rw [Handlers.catchRun, if_neg names]
    cases runs : handlers.catchRun stack.isSome addr raised heap.length with
    | none =>
        rw [runs] at later
        exact chooses.trans later
    | some handled =>
        rw [runs] at later
        exact Lands.silent chooses rfl (.refl below) later

private theorem finallyEndTry_lands {final : Program} (finalLands : ProgramLands whole final) :
    FinallyLands whole (.finallyEndTry final) := by
  intro addr heap stack rest frame flag ready found isFlag
  have below := Nat.le_of_lt (Heap.lt_length_of_load found)
  have tests := test_flagIs isFlag .exceptionEntered
  let close := Item.stmt (.ite (.flagIs .exceptionEntered) .popStack .skip) (some addr)
  -- An entered block is marked finalized, so that the closing test does not pop again.
  obtain ⟨heapMark, flagMark, begins, same, length, here, notEntered, thrown⟩ :
      ∃ heapMark flagMark, Moves whole
        ⟨.stmt (.ite (.flagIs .exceptionEntered) (.setFlag .exceptionFinalized) .skip) (some addr) ::
          .stmt final.expand (some addr) :: close :: rest, heap, stack⟩ [] [⟨addr, .finallyBegun⟩]
        ⟨.stmt final.expand (some addr) :: close :: rest, heapMark, stack⟩ ∧
      Same addr heap heapMark ∧ heapMark.length = heap.length ∧
      heapMark.load addr = some { frame with flag := some flagMark } ∧
      flagMark ≠ .exceptionEntered ∧ (flagMark = .exceptionThrown ↔ flag = .exceptionThrown) := by
    have chooses : Moves whole
        ⟨.stmt (.ite (.flagIs .exceptionEntered) (.setFlag .exceptionFinalized) .skip) (some addr) ::
          .stmt final.expand (some addr) :: close :: rest, heap, stack⟩ [] [⟨addr, .finallyBegun⟩] _ :=
      moves_markedIte (.setFlag .exceptionFinalized) .skip found tests rfl
    by_cases isEntered : flag = .exceptionEntered
    · rw [decide_eq_true isEntered, if_pos rfl] at chooses
      obtain ⟨heapMark, sets, same, length, here⟩ := step_setFlag stack
        (.stmt final.expand (some addr) :: close :: rest) found .exceptionFinalized
      exact ⟨heapMark, .exceptionFinalized, chooses.trans (Moves.quiet sets rfl), same, length, here,
        by decide, by simp [isEntered]⟩
    · rw [decide_eq_false isEntered, if_neg (by decide)] at chooses
      exact ⟨heap, flag, chooses.trans moves_skip, .refl below, rfl, by rw [found, ← isFlag],
        isEntered, Iff.rfl⟩
  have closes : Lands whole addr
      ⟨.stmt (Handlers.finallyEndTry final).expandFinally (some addr) :: rest, heap, stack⟩ rest
      (fun after => after.load addr = some { frame with flag := some flagMark })
      ((Handlers.finallyEndTry final).finalRun stack.isSome addr heap.length) := by
    apply lands_closeBranch le_rfl _ _ below
    · apply Lands.silent (moves_seq _ _) rfl (.refl below)
      apply Lands.marked begins rfl same
      rw [← length]
      exact finalLands.inside (ready.of_same same) here
    · exact fun after kept => ⟨_, flagMark, kept, rfl, notEntered⟩
  apply closes.mono le_rfl (fun top isTop => (ready top isTop).1)
  exact fun after _ kept => ⟨_, flagMark, kept, rfl, thrown, rfl, rfl⟩

mutual

theorem programLands : ∀ program : Program, ProgramLands whole program
  | .skip => fun le _ => Lands.silent moves_skip rfl (.refl le) (lands_refl le trivial rfl)
  | .action name => fun le _ =>
      ⟨_, .one rfl (observe_stmt rfl (by simp [Program.expand])) rfl (by simp), rfl, .refl le, trivial⟩
  | .throw exception cause site => fun le ready =>
      (lands_throw le ready exception cause site rfl rfl
        (observe_stmt rfl (by simp [Program.expand])) rfl).mono le_rfl
        (fun top isTop => (ready top isTop).1) fun _ _ _ => trivial
  | .seq first second => fun le ready => by
      apply Lands.silent (moves_seq _ _) rfl (.refl le)
      rw [Program.run]
      apply (programLands first le ready).andThen
      intro after same _
      exact programLands second same.le (ready.of_same same)
  | .tryBlock body handlers =>
      tryBlock_lands (programLands body) (catchesLand handlers) (finallyLands handlers)

theorem catchesLand : ∀ handlers : Handlers, CatchesLand whole handlers
  | .endTry => fun _ _ _ => moves_skip
  | .finallyEndTry _ => fun _ _ _ => moves_skip
  | .catch _ handler rest => catch_lands (programLands handler) (catchesLand rest)

theorem finallyLands : ∀ handlers : Handlers, FinallyLands whole handlers
  | .endTry => fun _ found isFlag => by
      have below := Nat.le_of_lt (Heap.lt_length_of_load found)
      apply Lands.silent moves_skip rfl (.refl below)
      exact lands_refl below ⟨_, _, found, isFlag, Iff.rfl, rfl, rfl⟩ rfl
  | .finallyEndTry final => finallyEndTry_lands (programLands final)
  | .catch _ _ rest => finallyLands rest

end

/-- The observed run of a whole program: it ends with the stack empty, and shows
and marks what the structured run does. -/
theorem observedMachine_run (program : Program) :
    (program.run false 0).outcome = .done ∧
      ∃ labels heap seen, (observedMachine program).Exec labels ⟨[], heap, none⟩ seen ∧
        seen.filterMap Sum.getLeft? = (program.run false 0).marks ∧
        (seen.filterMap Sum.getRight?).filterMap Event.shown = (program.run false 0).shown ∧
        ∀ atTry now, .endTry atTry now ∈ seen.filterMap Sum.getRight? → now = atTry := by
  have lands : Lands program 0 (machine program).start [] (fun _ => True) (program.run false 0) := by
    apply programLands program (Nat.zero_le _)
    intro top isTop
    contradiction
  generalize program.run false 0 = run at lands ⊢
  obtain ⟨shown, marks, blocks, outcome⟩ := run
  cases outcome with
  | done =>
      have ⟨heap, ⟨seen, steps, isMarks, isShown, balanced⟩, _⟩ := lands
      have begins : (observedMachine program).Exec [] (machine program).start [] := .start
      have ⟨labels, exec⟩ := begins.steps steps
      rw [List.nil_append, List.nil_append] at exec
      exact ⟨rfl, labels, heap, seen, exec, isMarks, isShown, balanced⟩
  | raised exception site =>
      have ⟨top, _, _, _, isTop, _⟩ := lands
      contradiction

/-- Every program ends, shows what the structured program shows, finds the
exception stack of the `Try` at every `EndTry` it passes, and leaves the stack
empty. -/
theorem macros_refine_structured_exceptions (program : Program) :
    ∃ shown labels heap events, program.behaviour false = (shown, .done) ∧
      (machine program).Exec labels ⟨[], heap, none⟩ events ∧
      events.filterMap Event.shown = shown ∧
      ∀ atTry now, .endTry atTry now ∈ events → now = atTry := by
  have ⟨ends, labels, heap, seen, exec, _, isShown, balanced⟩ := observedMachine_run program
  refine ⟨_, labels, heap, _, ?_, exec.erase, isShown, balanced⟩
  rw [← behaviour_run false 0 program, Run.behaviour, ends]

end SimpleBasicComponents.TryCatch
