import SimpleBasicComponents.Semantics.Observed
import SimpleBasicComponents.TryCatch.Reference

/-!
The phases that the blocks of a program go through.

Owns: what is observed of a thread when it enters or leaves a block, begins a
`Catch` or `Finally` of one, or ends one of its branches; and the structured run
of a program, which is its behaviour together with these marks in the order in
which they are observed. A block is known by the address of its locals.
-/

namespace SimpleBasicComponents.TryCatch

open SimpleBasicComponents.Semantics

/-! ### What is observed -/

/-- `branchClosed` is the end of the body, of a `Catch` or of the `Finally`. -/
inductive Phase where
  | entered (hasFinally : Bool)
  | catchBegun
  | finallyBegun
  | branchClosed
  | left
deriving DecidableEq, Repr

structure Mark where
  block : Addr
  phase : Phase
deriving DecidableEq, Repr

/-- The statements that only the macros expand to. -/
def Stmt.phase : Stmt → Option Phase
  | .setFlag .exceptionHandled => some .catchBegun
  | .ite (.flagIs .exceptionEntered) (.setFlag .exceptionFinalized) .skip => some .finallyBegun
  | .ite (.flagIs .exceptionEntered) .popStack .skip => some .branchClosed
  | _ => none

/-- Whether anything stands between the `Catch`es of a block and its last `if`. -/
def Stmt.hasFinally : Stmt → Bool
  | .seq _ (.seq _ (.seq _ (.seq .skip _))) => false
  | _ => true

/-- What the next step does to a block. -/
def observe (thread : Thread) : List Mark :=
  match thread.left with
  | [] => []
  | .leave block _ :: _ => [⟨block, .left⟩]
  | .stmt (.block inner) _ :: _ => [⟨thread.heap.length, .entered inner.hasFinally⟩]
  | .stmt stmt (some block) :: _ => (stmt.phase.map (Mark.mk block)).toList
  | .stmt _ none :: _ => []

/-- Of most statements there is nothing to see. -/
theorem observe_stmt {stmt : Stmt} {block stack : Option Addr} {rest : List Item} {heap : Heap Frame}
    (plain : stmt.phase = none) (noBlock : ∀ inner, stmt ≠ .block inner) :
    observe ⟨.stmt stmt block :: rest, heap, stack⟩ = [] := by
  unfold observe
  split
  · rfl
  · rename_i isLeft
    simp at isLeft
  · rename_i isBlock
    simp only [List.cons.injEq, Item.stmt.injEq] at isBlock
    exact absurd isBlock.1.1 (noBlock _)
  · rename_i isStmt
    simp only [List.cons.injEq, Item.stmt.injEq] at isStmt
    rw [← isStmt.1.1, plain]
    rfl
  · rfl

/-- The machine of a program with its blocks observed. -/
def observedMachine (program : Program) : Machine Thread Unit (Mark ⊕ Event) :=
  (machine program).observed observe

/-- The phases that a run has shown of a block. -/
def phases (block : Addr) (marks : List Mark) : List Phase :=
  marks.filterMap fun mark => if mark.block = block then some mark.phase else none

def Handlers.hasFinally : Handlers → Bool
  | .endTry => false
  | .finallyEndTry _ => true
  | .catch _ _ rest => rest.hasFinally

/-! ### Structured runs -/

/-- A behaviour with its marks, and the number of blocks that have been entered
from the start on, which is the address of the next one. -/
structure Run where
  shown : List Shown
  marks : List Mark
  blocks : Nat
  outcome : Outcome

def Run.ofBehaviour (behaviour : Behaviour) (blocks : Nat) : Run :=
  ⟨behaviour.1, [], blocks, behaviour.2⟩

def Run.ofMark (block : Addr) (phase : Phase) (blocks : Nat) : Run := ⟨[], [⟨block, phase⟩], blocks, .done⟩

def Run.behaviour (run : Run) : Behaviour := (run.shown, run.outcome)

def Run.andThen (first : Run) (second : Nat → Run) : Run :=
  match first.outcome with
  | .done =>
      let later := second first.blocks
      ⟨first.shown ++ later.shown, first.marks ++ later.marks, later.blocks, later.outcome⟩
  | .raised _ _ => first

/-- What the body has shown and marked. -/
def Run.caught (body : Run) : Run := { body with outcome := .done }

/-- How a block goes on once its body has ended with the outcome. -/
def Run.afterBody (active : Bool) (block : Addr) (caught : NtyException → Nat → Option Run)
    (final : Nat → Run) (outcome : Outcome) (blocks : Nat) : Run :=
  match outcome with
  | .done =>
      (Run.ofMark block .branchClosed blocks).andThen fun later =>
        (final later).andThen (Run.ofMark block .left)
  | .raised exception site =>
      match caught exception blocks with
      | some handled => handled.andThen fun later => (final later).andThen (Run.ofMark block .left)
      | none =>
          (final blocks).andThen fun later =>
            (Run.ofBehaviour (raise active exception none site) later).andThen (Run.ofMark block .left)

mutual

def Program.run (active : Bool) (blocks : Nat) : Program → Run
  | .skip => .ofBehaviour ([], .done) blocks
  | .action name => .ofBehaviour ([.action name], .done) blocks
  | .throw exception cause site => .ofBehaviour (raise active exception cause site) blocks
  | .seq first second => (first.run active blocks).andThen fun later => second.run active later
  | .tryBlock body handlers =>
      (Run.ofMark blocks (.entered handlers.hasFinally) (blocks + 1)).andThen fun inner =>
        let bodyRun := body.run true inner
        bodyRun.caught.andThen (Run.afterBody active blocks
          (fun exception later => handlers.catchRun active blocks exception later)
          (fun later => handlers.finalRun active blocks later) bodyRun.outcome)

def Handlers.catchRun (active : Bool) (block : Addr) (raised : NtyException) (blocks : Nat) :
    Handlers → Option Run
  | .endTry => none
  | .finallyEndTry _ => none
  | .catch exception handler rest =>
      if raised = exception then
        some (((Run.ofMark block .catchBegun blocks).andThen fun inner =>
          handler.run active inner).andThen (Run.ofMark block .branchClosed))
      else rest.catchRun active block raised blocks

def Handlers.finalRun (active : Bool) (block : Addr) (blocks : Nat) : Handlers → Run
  | .endTry => .ofBehaviour ([], .done) blocks
  | .finallyEndTry final =>
      ((Run.ofMark block .finallyBegun blocks).andThen fun inner =>
        final.run active inner).andThen (Run.ofMark block .branchClosed)
  | .catch _ _ rest => rest.finalRun active block blocks

end

/-! ### Behaviours of runs -/

theorem Run.behaviour_mk (shown : List Shown) (marks : List Mark) (blocks : Nat) (outcome : Outcome) :
    (Run.mk shown marks blocks outcome).behaviour = (shown, outcome) := rfl

/-- A mark goes before whatever follows it. -/
theorem Run.ofMark_andThen (block : Addr) (phase : Phase) (blocks : Nat) (second : Nat → Run) :
    (Run.ofMark block phase blocks).andThen second =
      { second blocks with marks := ⟨block, phase⟩ :: (second blocks).marks } := rfl

theorem behaviour_andThen (first : Run) (second : Nat → Run) :
    (first.andThen second).behaviour = first.behaviour.andThen (second first.blocks).behaviour := by
  obtain ⟨shown, marks, blocks, outcome⟩ := first
  cases outcome <;> rfl

theorem andThen_done (behaviour : Behaviour) : behaviour.andThen ([], .done) = behaviour := by
  obtain ⟨shown, outcome⟩ := behaviour
  cases outcome with
  | done => simp [Behaviour.andThen]
  | raised exception site => rfl

theorem done_andThen (behaviour : Behaviour) : Behaviour.andThen ([], .done) behaviour = behaviour := rfl

theorem behaviour_ofMark (block : Addr) (phase : Phase) (blocks : Nat) :
    (Run.ofMark block phase blocks).behaviour = ([], .done) := rfl

theorem behaviour_ofMark_andThen (block : Addr) (phase : Phase) (blocks : Nat)
    (second : Nat → Run) :
    ((Run.ofMark block phase blocks).andThen second).behaviour = (second blocks).behaviour := rfl

theorem behaviour_ofBehaviour (behaviour : Behaviour) (blocks : Nat) :
    (Run.ofBehaviour behaviour blocks).behaviour = behaviour := rfl

mutual

/-- The run of a program without its marks is its behaviour. -/
theorem behaviour_run (active : Bool) (blocks : Nat) :
    ∀ program : Program, (program.run active blocks).behaviour = program.behaviour active
  | .skip => rfl
  | .action _ => rfl
  | .throw _ _ _ => rfl
  | .seq first second => by
      rw [Program.run, behaviour_andThen, behaviour_run, behaviour_run, Program.behaviour]
  | .tryBlock body handlers => by
      rw [Program.run, behaviour_ofMark_andThen, behaviour_andThen, Program.behaviour,
        ← behaviour_run true (blocks + 1) body]
      obtain ⟨shown, marks, later, outcome⟩ := body.run true (blocks + 1)
      cases outcome with
      | done =>
          simp only [Run.caught, Run.afterBody, Run.behaviour_mk, behaviour_andThen,
            behaviour_ofMark, andThen_done, done_andThen, behaviour_finalRun]
      | raised exception site =>
          simp only [Run.caught, Run.afterBody, Run.behaviour_mk,
            ← behaviour_catchRun active blocks exception later]
          cases handlers.catchRun active blocks exception later with
          | none =>
              simp only [Option.map_none, behaviour_andThen, behaviour_ofMark, behaviour_ofBehaviour,
                andThen_done, behaviour_finalRun]
          | some handled =>
              simp only [Option.map_some, behaviour_andThen, behaviour_ofMark, andThen_done,
                behaviour_finalRun]

theorem behaviour_catchRun (active : Bool) (block : Addr) (raised : NtyException) (blocks : Nat) :
    ∀ handlers : Handlers, (handlers.catchRun active block raised blocks).map Run.behaviour =
      handlers.catchBehaviour active raised
  | .endTry => rfl
  | .finallyEndTry _ => rfl
  | .catch exception handler rest => by
      rw [Handlers.catchRun, Handlers.catchBehaviour]
      split
      · simp only [Option.map_some, behaviour_andThen, behaviour_ofMark, andThen_done, done_andThen,
          behaviour_run]
      · exact behaviour_catchRun active block raised blocks rest

theorem behaviour_finalRun (active : Bool) (block : Addr) (blocks : Nat) :
    ∀ handlers : Handlers,
      (handlers.finalRun active block blocks).behaviour = handlers.finalBehaviour active
  | .endTry => rfl
  | .finallyEndTry final => by
      simp only [Handlers.finalRun, Handlers.finalBehaviour, behaviour_andThen, behaviour_ofMark,
        andThen_done, done_andThen, behaviour_run]
  | .catch _ _ rest => behaviour_finalRun active block blocks rest

end

end SimpleBasicComponents.TryCatch
