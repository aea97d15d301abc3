import Mathlib.Order.Basic

/-!
Loops that need not end.

A loop is given by what one turn does: fault, leave with a result, or go round
again in a new state. `loop` runs it with a bound on the number of turns; it
gives a result exactly when the loop leaves within the bound. A fault and a
loop that goes on are alike in that no bound gives a result.
-/

namespace SimpleBasicComponents.Semantics

variable {State Result : Type*}

/-- One turn of a loop. -/
inductive Turn (State Result : Type*) where
  | fault
  | leave (result : Result)
  | again (state : State)

/-- A turn that may fault on its way. -/
def Turn.orFault : Option (Turn State Result) → Turn State Result
  | some turn => turn
  | none => .fault

/-- Run a loop for at most `fuel` turns. -/
def loop (turn : State → Turn State Result) : Nat → State → Option Result
  | 0, _ => none
  | fuel + 1, state =>
      match turn state with
      | .fault => none
      | .leave result => some result
      | .again next => loop turn fuel next

variable {turn : State → Turn State Result} {state next : State} {result : Result} {fuel : Nat}

theorem loop_leave (leaves : turn state = .leave result) :
    loop turn (fuel + 1) state = some result := by
  simp [loop, leaves]

theorem loop_again (goesOn : turn state = .again next) :
    loop turn (fuel + 1) state = loop turn fuel next := by
  simp [loop, goesOn]

theorem loop_fault (faults : turn state = .fault) : loop turn fuel state = none := by
  cases fuel <;> simp [loop, faults]

/-- A loop that decreases a measure, or leaves well, leaves well within any fuel
above the measure. -/
theorem loop_of_measure {invariant : State → Prop} {post : Result → Prop} (measure : State → Nat)
    (progress : ∀ state, invariant state →
      (∃ result, turn state = .leave result ∧ post result) ∨
        ∃ next, turn state = .again next ∧ invariant next ∧ measure next < measure state)
    (holds : invariant state) (enough : measure state < fuel) :
    ∃ result, loop turn fuel state = some result ∧ post result := by
  induction fuel generalizing state with
  | zero => omega
  | succ fuel inductionHypothesis =>
      rcases progress state holds with ⟨result, leaves, good⟩ | ⟨next, goesOn, holdsNext, less⟩
      · exact ⟨result, loop_leave leaves, good⟩
      · rw [loop_again goesOn]
        exact inductionHypothesis holdsNext (by omega)

/-- A loop that can only fault or stay within the invariant never leaves. -/
theorem loop_eq_none_of_invariant {invariant : State → Prop}
    (stuck : ∀ state, invariant state →
      turn state = .fault ∨ ∃ next, turn state = .again next ∧ invariant next)
    (holds : invariant state) : loop turn fuel state = none := by
  induction fuel generalizing state with
  | zero => rfl
  | succ fuel inductionHypothesis =>
      rcases stuck state holds with faults | ⟨next, goesOn, holdsNext⟩
      · exact loop_fault faults
      · rw [loop_again goesOn]
        exact inductionHypothesis holdsNext

/-! ### The states passed through -/

/-- The states in which the turns of a loop begin, up to the bound. -/
def visited (turn : State → Turn State Result) : Nat → State → List State
  | 0, _ => []
  | fuel + 1, state =>
      state ::
        match turn state with
        | .again next => visited turn fuel next
        | _ => []

theorem visited_of_invariant {invariant : State → Prop}
    (keeps : ∀ state next, invariant state → turn state = .again next → invariant next)
    (holds : invariant state) : ∀ passed ∈ visited turn fuel state, invariant passed := by
  induction fuel generalizing state with
  | zero => simp [visited]
  | succ fuel inductionHypothesis =>
      intro passed member
      rcases List.mem_cons.mp member with rfl | later
      · exact holds
      · split at later
        · rename_i next goesOn
          exact inductionHypothesis (keeps state next holds goesOn) passed later
        · simp at later

end SimpleBasicComponents.Semantics
