import SimpleBasicComponents.Semantics.Heap
import SimpleBasicComponents.Semantics.Machine

/-!
The exception macros of `src/trycatch.c`.

Owns: programs written with the macros, the C statements the macros expand to,
and a machine that runs these statements one at a time with the exception stack
of one thread. `setjmp` saves what is left to do, and `longjmp` goes on with it.
A block's `frame` and `Exception_flag` live in one heap cell that is freed when
the block is left; using a cell after that is a fault.

`frame.message` is written and never read, and is left out. `func`, `file` and
`line` are one `site`.
-/

namespace SimpleBasicComponents.TryCatch

open SimpleBasicComponents.Semantics

/-- The address of an exception object. -/
abbrev NtyException := Nat

/-! ### Programs -/

mutual

/-- Programs without `return`, `break` or `goto` out of a block. -/
inductive Program where
  | skip
  | action (name : Nat)
  | throw (exception : NtyException) (cause : Option String) (site : Nat)
  | seq (first second : Program)
  | tryBlock (body : Program) (handlers : Handlers)

/-- What follows the body of a `Try`. -/
inductive Handlers where
  | endTry
  | finallyEndTry (final : Program)
  | catch (exception : NtyException) (handler : Program) (rest : Handlers)

end

/-! ### The expansion -/

inductive Flag where
  | exceptionEntered
  | exceptionThrown
  | exceptionHandled
  | exceptionFinalized
deriving DecidableEq, Repr

/-- The conditions of the macros' `if`s. -/
inductive Cond where
  | flagIs (flag : Flag)
  | exceptionIs (exception : NtyException)
deriving DecidableEq, Repr

/-- C statements. `block` is `do { int Exception_flag; frame; .. } while (0)`;
the others that use `frame` or `Exception_flag` use the ones of the innermost
block around them. -/
inductive Stmt where
  | skip
  | action (name : Nat)
  | throw (exception : NtyException) (cause : Option String) (site : Nat)
  | seq (first second : Stmt)
  | ite (cond : Cond) (yes no : Stmt)
  | block (inner : Stmt)
  | pushFrame
  | setjmpFlag
  | setFlag (flag : Flag)
  | popStack
  | rethrow
deriving DecidableEq, Repr

/-- `Catch`, `Finally` and `EndTry` all end the open branch with this test. -/
def closeBranch (branch : Stmt) : Stmt :=
  .seq branch (.ite (.flagIs .exceptionEntered) .popStack .skip)

mutual

def Program.expand : Program → Stmt
  | .skip => .skip
  | .action name => .action name
  | .throw exception cause site => .throw exception cause site
  | .seq first second => .seq first.expand second.expand
  | .tryBlock body handlers =>
      .block (.seq .pushFrame (.seq .setjmpFlag (.seq
        (.ite (.flagIs .exceptionEntered) (closeBranch body.expand) handlers.expandCatches)
        (.seq handlers.expandFinally (.ite (.flagIs .exceptionThrown) .rethrow .skip)))))

/-- The `else if` branches. -/
def Handlers.expandCatches : Handlers → Stmt
  | .endTry => .skip
  | .finallyEndTry _ => .skip
  | .catch exception handler rest =>
      .ite (.exceptionIs exception)
        (closeBranch (.seq (.setFlag .exceptionHandled) handler.expand)) rest.expandCatches

/-- The block between `Finally` and `EndTry`. -/
def Handlers.expandFinally : Handlers → Stmt
  | .endTry => .skip
  | .finallyEndTry final =>
      closeBranch (.seq
        (.ite (.flagIs .exceptionEntered) (.setFlag .exceptionFinalized) .skip) final.expand)
  | .catch _ _ rest => rest.expandFinally

end

/-! ### Running the expansion -/

/-- Something left to do: a statement and the block it stands in, or the end of
a block. `atTry` keeps the `ExceptionStack` the block was entered with. -/
inductive Item where
  | stmt (stmt : Stmt) (block : Option Addr)
  | leave (block : Addr) (atTry : Option Addr)
deriving DecidableEq, Repr

/-- The locals of a block; a field is `none` until it is set. -/
structure Frame where
  flag : Option Flag
  exception : Option NtyException
  site : Nat
  prev : Option Addr
  env : Option (List Item)
deriving DecidableEq, Repr

inductive Event where
  | action (name : Nat)
  | report (exception : NtyException) (cause : Option String) (site : Nat)
  | endTry (atTry now : Option Addr)
deriving DecidableEq, Repr

structure Thread where
  left : List Item
  heap : Heap Frame
  exceptionStack : Option Addr
deriving DecidableEq, Repr

/-- Reading a local that was not set has no result. -/
def Cond.test (frame : Frame) : Cond → Option Bool
  | .flagIs flag =>
      match frame.flag with
      | some now => some (now = flag)
      | none => none
  | .exceptionIs exception =>
      match frame.exception with
      | some now => some (now = exception)
      | none => none

/-- `longjmp(frame->env, value)`: `setjmp` returns once more. -/
def longjmp (heap : Heap Frame) (addr : Addr) (value : Flag) : Option (List Item × Heap Frame) :=
  match heap.load addr with
  | some frame =>
      match frame.env, heap.store addr { frame with flag := some value } with
      | some left, some heap => some (left, heap)
      | _, _ => none
  | none => none

/-- `left` is what is left to do if the call returns. -/
def ntyExceptionThrow (thread : Thread) (exception : NtyException) (cause : Option String)
    (site : Nat) : Option (Thread × List Event) :=
  match thread.exceptionStack with
  | some top =>
      match thread.heap.load top with
      | some frame =>
          match thread.heap.store top { frame with exception := some exception, site } with
          | some heap =>
              match longjmp heap top .exceptionThrown with
              | some (left, heap) => some (⟨left, heap, frame.prev⟩, [])
              | none => none
          | none => none
      | none => none
  | none => some (thread, [.report exception cause site])

/-- Update the locals of the innermost block. -/
def setFrame (thread : Thread) (block : Option Addr) (change : Frame → Frame) :
    Option (Thread × List Event) :=
  match block with
  | some addr =>
      match thread.heap.load addr with
      | some frame =>
          match thread.heap.store addr (change frame) with
          | some heap => some ({ thread with heap }, [])
          | none => none
      | none => none
  | none => none

/-- `thread.left` is what is left to do after the statement. -/
def runStmt (thread : Thread) (block : Option Addr) : Stmt → Option (Thread × List Event)
  | .skip => some (thread, [])
  | .action name => some (thread, [.action name])
  | .throw exception cause site => ntyExceptionThrow thread exception cause site
  | .seq first second =>
      some ({ thread with left := .stmt first block :: .stmt second block :: thread.left }, [])
  | .ite cond yes no =>
      match block with
      | some addr =>
          match thread.heap.load addr with
          | some frame =>
              match cond.test frame with
              | some true => some ({ thread with left := .stmt yes block :: thread.left }, [])
              | some false => some ({ thread with left := .stmt no block :: thread.left }, [])
              | none => none
          | none => none
      | none => none
  | .block inner =>
      let addr := thread.heap.length
      some ({ thread with
        heap := thread.heap.alloc ⟨none, none, 0, none, none⟩
        left := .stmt inner (some addr) :: .leave addr thread.exceptionStack :: thread.left }, [])
  | .pushFrame =>
      match setFrame thread block fun frame => { frame with prev := thread.exceptionStack } with
      | some (thread, events) => some ({ thread with exceptionStack := block }, events)
      | none => none
  | .setjmpFlag =>
      setFrame thread block fun frame =>
        { frame with env := some thread.left, flag := some .exceptionEntered }
  | .setFlag flag => setFrame thread block fun frame => { frame with flag := some flag }
  | .popStack =>
      match thread.exceptionStack with
      | some top =>
          match thread.heap.load top with
          | some frame => some ({ thread with exceptionStack := frame.prev }, [])
          | none => none
      | none => none
  | .rethrow =>
      match block with
      | some addr =>
          match thread.heap.load addr with
          | some frame =>
              match frame.exception with
              | some exception => ntyExceptionThrow thread exception none frame.site
              | none => none
          | none => none
      | none => none

/-- A thread with nothing left to do has ended. -/
def step (thread : Thread) : Option (Thread × List Event) :=
  match thread.left with
  | [] => none
  | .stmt stmt block :: left => runStmt { thread with left } block stmt
  | .leave block atTry :: left =>
      match thread.heap.free block with
      | some heap =>
          some ({ thread with left, heap }, [.endTry atTry thread.exceptionStack])
      | none => none

def machine (program : Program) : Machine Thread Unit Event where
  start := ⟨[.stmt program.expand none], [], none⟩
  step thread _ := step thread

end SimpleBasicComponents.TryCatch
