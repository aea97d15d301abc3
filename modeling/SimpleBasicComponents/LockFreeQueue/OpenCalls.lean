import SimpleBasicComponents.LockFreeQueue.Tickets

/-!
Calls that have claimed an index and not returned yet.

Owns: the ticket that a history gives to the call a thread is in, from its CAS up to
its return, and the proof that it is the one the thread works on. At most one call
of each side has a ticket.
-/

namespace SimpleBasicComponents.LockFreeQueue

open SimpleBasicComponents.Semantics

variable {Tid T : Type*} [DecidableEq Tid]

def notePush (tid : Tid) (found : Option Nat) : Event Tid T → Option Nat
  | .pushClaim claimer ticket _ _ => if claimer = tid then some ticket else found
  | .pushReturn returner _ => if returner = tid then none else found
  | _ => found

/-- The ticket of the push that the thread is in, once it has one. -/
def openPush (tid : Tid) (events : List (Event Tid T)) : Option Nat :=
  events.foldl (notePush tid) none

def notePop (tid : Tid) (found : Option (Nat × QueueInt)) : Event Tid T → Option (Nat × QueueInt)
  | .popClaim claimer ticket index => if claimer = tid then some (ticket, index) else found
  | .popReturn returner _ => if returner = tid then none else found
  | _ => found

/-- The ticket and the index of the pop that the thread is in, once it has them. -/
def openPop (tid : Tid) (events : List (Event Tid T)) : Option (Nat × QueueInt) :=
  events.foldl (notePop tid) none

/-- The ticket of the push that stands at this point. -/
def HoldsPush : Thread T → Option Nat → Prop
  | .pushStore _ _ ticket, held => held = some ticket
  | .pushAdd, held => held.isSome
  | _, held => held = none

/-- The ticket and the index of the pop that stands at this point. -/
def HoldsPop : Thread T → Option (Nat × QueueInt) → Prop
  | .popFetch curReadIndex ticket, held => held = some (ticket, curReadIndex)
  | .popSub _, held => held.isSome
  | _, held => held = none

structure Open (state : State Tid T) (events : List (Event Tid T)) : Prop where
  push : ∀ tid, HoldsPush (state.threads tid) (openPush tid events)
  pop : ∀ tid, HoldsPop (state.threads tid) (openPop tid events)
  pushBelow : ∀ tid ticket, openPush tid events = some ticket → ticket < state.pushes
  popBelow : ∀ tid ticket index, openPop tid events = some (ticket, index) → ticket < state.pops
  pushApart : ∀ tid other ticket, openPush tid events = some ticket →
    openPush other events = some ticket → tid = other
  popApart : ∀ tid other ticket index otherIndex, openPop tid events = some (ticket, index) →
    openPop other events = some (ticket, otherIndex) → tid = other

theorem openPush_snoc (tid : Tid) (events : List (Event Tid T)) (event : Event Tid T) :
    openPush tid (events ++ [event]) = notePush tid (openPush tid events) event :=
  List.foldl_concat _ _ _ _

theorem openPop_snoc (tid : Tid) (events : List (Event Tid T)) (event : Event Tid T) :
    openPop tid (events ++ [event]) = notePop tid (openPop tid events) event :=
  List.foldl_concat _ _ _ _

section Runs

variable {qSize : QueueInt} {state next : State Tid T} {label : Label Tid T}
  {events shown : List (Event Tid T)}

theorem Step.open (taken : Step qSize state label next shown) (before : Open state events) :
    Open next (events ++ shown) := by
  have ⟨push, pop, pushBelow, popBelow, pushApart, popApart⟩ := before
  cases taken with
  | @callPush tid _ at_ | @callPop tid at_ | @pushLoadRead tid _ at_ | @pushLoadWrite tid _ _ at_ _
  | @pushRetry tid _ _ _ at_ _ | @popLoadRead tid at_ | @popLoadWrite tid _ at_ _
  | @popRetry tid _ _ at_ _ =>
      have heldPush := push tid
      have heldPop := pop tid
      rw [at_] at heldPush heldPop
      rw [List.append_nil]
      refine ⟨?_, ?_, pushBelow, popBelow, pushApart, popApart⟩ <;> intro other <;>
        rw [State.goto_threads] <;> split
      · rename_i same
        rwa [same]
      · exact push other
      · rename_i same
        rwa [same]
      · exact pop other
  | @pushClaim tid _ _ at_ | @pushStore tid _ _ _ at_ | @pushAdd tid at_ | @pushFull tid _ _ at_ _
  | @popClaim tid _ at_ | @popFetch tid _ _ at_ | @popSub tid _ at_ | @popEmpty tid _ at_ _ =>
      have heldPush := push tid
      have heldPop := pop tid
      rw [at_] at heldPush heldPop
      constructor <;> simp only [State.goto_threads, openPush_snoc, openPop_snoc, notePush, notePop,
        State.claimWrite, State.claimRead, State.storeSlot, State.setCount, State.goto_pushes,
        State.goto_pops] <;>
      grind [HoldsPush, HoldsPop]

variable [Inhabited T] {labels : List (Label Tid T)}

/-- In every run the open calls are those of the threads that stand behind a CAS. -/
theorem exec_open (exec : (machine qSize).Exec labels state events) : Open state events := by
  induction exec with
  | start => exact ⟨fun _ => rfl, fun _ => rfl, by simp [openPush], by simp [openPop],
      by simp [openPush], by simp [openPop]⟩
  | step before taken inductionHypothesis => exact (step_cases qSize taken).open inductionHypothesis

end Runs

end SimpleBasicComponents.LockFreeQueue
