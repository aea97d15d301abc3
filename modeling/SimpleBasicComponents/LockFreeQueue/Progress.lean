import SimpleBasicComponents.LockFreeQueue.Model
import SimpleBasicComponents.Semantics.Potential
import SimpleBasicComponents.Semantics.Tally

/-!
Lock freedom of the queue.

Owns: how many steps the threads take for the calls they make. A CAS of `push`
or `pop` fails only when another thread's CAS went through since the index was
loaded, so every retry is paid for by a claim: a claim makes the loaded index of
each other thread stale at most once, and a thread with a stale index pays three
steps for its extra turn of the loop. Nothing here depends on `Q_SIZE`.
-/

namespace SimpleBasicComponents.LockFreeQueue

open SimpleBasicComponents.Semantics

variable {Tid T : Type*}

/-! ### What is counted -/

/-- A step taken inside a call. -/
def Label.access : Label Tid T → Nat
  | .advance _ => 1
  | _ => 0

/-- A call of `push` or `pop`. -/
def Label.call : Label Tid T → Nat
  | .advance _ => 0
  | _ => 1

def Event.isReturn : Event Tid T → Bool
  | .pushReturn _ _ => true
  | .popReturn _ _ => true
  | _ => false

/-- The calls that have come back. -/
def returns (events : List (Event Tid T)) : Nat := events.countP Event.isReturn

def Thread.busy : Thread T → Bool
  | .idle => false
  | _ => true

/-! ### What a thread still has to pay -/

/-- The CAS that the thread is about to make compares with an index that is not the queue's. -/
def Thread.stale (queue : ArrayLockFreeQueue T) : Thread T → Bool
  | .pushCas _ _ curWriteIndex => queue.mWriteIndex != curWriteIndex
  | .popLoadWrite curReadIndex => queue.mReadIndex != curReadIndex
  | .popCas curReadIndex _ => queue.mReadIndex != curReadIndex
  | _ => false

/-- The steps to the end of the call if no CAS fails, with what the claim will cost the other
threads. -/
def Thread.ahead (others : Nat) : Thread T → Nat
  | .idle => 0
  | .pushLoadRead _ => 3 + (2 + 3 * others)
  | .pushLoadWrite _ _ => 2 + (2 + 3 * others)
  | .pushCas _ _ _ => 1 + (2 + 3 * others)
  | .pushStore _ _ _ => 2
  | .pushAdd => 1
  | .popLoadRead => 3 + (2 + 3 * others)
  | .popLoadWrite _ => 2 + (2 + 3 * others)
  | .popCas _ _ => 1 + (2 + 3 * others)
  | .popFetch _ _ => 2
  | .popSub _ => 1

/-- What the thread has to pay, a turn of the loop more if its index is stale. -/
def Thread.due (others : Nat) (queue : ArrayLockFreeQueue T) (point : Thread T) : Nat :=
  point.ahead others + 3 * (point.stale queue).toNat

variable [Fintype Tid] [DecidableEq Tid]

def State.due (state : State Tid T) : Nat :=
  ∑ tid, (state.threads tid).due (Fintype.card Tid - 1) state.queue

/-- The threads inside a call. -/
def State.inCall (state : State Tid T) : Nat := tally Thread.busy state.threads

/-- What a call is granted: its own five steps, and three for each thread it can set back. -/
def grant (Tid : Type*) [Fintype Tid] : Nat := 5 + 3 * (Fintype.card Tid - 1)

theorem Thread.due_le {others : Nat} {queue : ArrayLockFreeQueue T} {point : Thread T} :
    point.due others queue ≤ 8 + 3 * others := by
  have turn : (point.stale queue).toNat ≤ 1 := Bool.toNat_le _
  have straight : point.ahead others ≤ 5 + 3 * others := by
    cases point <;> simp only [Thread.ahead] <;> omega
  unfold Thread.due
  omega

omit [DecidableEq Tid] in
theorem State.due_le {state : State Tid T} :
    state.due ≤ Fintype.card Tid * (8 + 3 * (Fintype.card Tid - 1)) := by
  have each := Finset.sum_le_card_nsmul Finset.univ
    (fun tid => (state.threads tid).due (Fintype.card Tid - 1) state.queue)
    (8 + 3 * (Fintype.card Tid - 1)) (fun tid _ => Thread.due_le)
  simpa [State.due] using each

/-! ### One step -/

section Step

variable {qSize : QueueInt} {state next : State Tid T} {label : Label Tid T}
  {shown : List (Event Tid T)} {cost allowance : Nat}

omit [Fintype Tid] [DecidableEq Tid] in
/-- A move that leaves both indices alone makes nobody else pay. -/
theorem due_of_same (others : Nat) (point : Thread T)
    (sameWrite : next.queue.mWriteIndex = state.queue.mWriteIndex)
    (sameRead : next.queue.mReadIndex = state.queue.mReadIndex) :
    point.due others next.queue ≤ point.due others state.queue + 0 := by
  cases point <;> simp only [Thread.due, Thread.stale, sameWrite, sameRead] <;> omega

omit [Fintype Tid] [DecidableEq Tid] in
/-- Whatever happens to the indices, a thread pays at most one turn more. -/
theorem due_of_claim (others : Nat) (point : Thread T) :
    point.due others next.queue ≤ point.due others state.queue + 3 := by
  have turn : (point.stale next.queue).toNat ≤ 1 := Bool.toNat_le _
  unfold Thread.due
  omega

/-- A step moves one thread, which pays for the step and for what it makes the others pay; what
it shows of a return is where the thread comes from and goes to. -/
structure Move (others grant : Nat) (state : State Tid T) (label : Label Tid T) (next : State Tid T)
    (shown : List (Event Tid T)) where
  tid : Tid
  point : Thread T
  extra : Nat
  threads : next.threads = Function.update state.threads tid point
  balance : point.busy.toNat + returns shown = (state.threads tid).busy.toNat + label.call
  heavier : ∀ other : Thread T, other.due others next.queue ≤ other.due others state.queue + extra
  paid : point.due others next.queue + extra * others + label.access ≤
    (state.threads tid).due others state.queue + grant * label.call

theorem step_move (taken : step qSize state label = some (next, shown)) :
    Nonempty (Move (Fintype.card Tid - 1) (grant Tid) state label next shown) := by
  cases step_cases qSize taken with
  | callPush at_ | callPop at_ | pushLoadRead at_ | pushFull at_ | pushLoadWrite at_ | pushStore at_
  | pushAdd at_ | popLoadRead at_ | popEmpty at_ | popLoadWrite at_ | popFetch at_ | popSub at_ =>
      refine ⟨⟨_, _, 0, rfl, by rw [at_]; rfl, fun other => due_of_same _ other rfl rfl, ?_⟩⟩
      simp only [at_, Thread.due, Thread.ahead, Thread.stale, Label.access, Label.call, grant,
        State.goto_queue, bne_self_eq_false, Bool.toNat_false]
      omega
  | pushRetry at_ lost | popRetry at_ lost =>
      -- The index was stale: the turn that now begins has been paid for.
      refine ⟨⟨_, _, 0, rfl, by rw [at_]; rfl, fun other => due_of_same _ other rfl rfl, ?_⟩⟩
      simp only [at_, Thread.due, Thread.ahead, Thread.stale, Label.access, Label.call,
        bne_iff_ne.mpr lost, Bool.toNat_true, Bool.toNat_false]
      omega
  | pushClaim at_ | popClaim at_ =>
      refine ⟨⟨_, _, 3, rfl, by rw [at_]; rfl, fun other => due_of_claim _ other, ?_⟩⟩
      simp only [at_, Thread.due, Thread.ahead, Thread.stale, Label.access, Label.call,
        bne_self_eq_false, Bool.toNat_false]
      omega

/-- Every step inside a call is paid for, and a call brings what its steps will cost. -/
theorem step_due (taken : step qSize state label = some (next, shown)) :
    next.due + label.access ≤ state.due + grant Tid * label.call := by
  have ⟨move⟩ := step_move taken
  have sum := sum_update_le _ _ state.threads move.tid move.point move.heavier
  have paid := move.paid
  rw [← move.threads] at sum
  unfold State.due
  omega

/-- A thread is inside a call from the call to its return. -/
theorem step_inCall (taken : step qSize state label = some (next, shown)) :
    next.inCall + returns shown = state.inCall + label.call := by
  have ⟨move⟩ := step_move taken
  have moved := @tally_update _ _ _ _ Thread.busy state.threads move.tid move.point
  have balance := move.balance
  rw [← move.threads] at moved
  unfold State.inCall
  omega

end Step

/-! ### Whole runs -/

section Runs

variable [Inhabited T] {qSize : QueueInt} {before after labels : List (Label Tid T)}
  {state : State Tid T} {events : List (Event Tid T)}

theorem amortised : (machine qSize : Machine (State Tid T) _ _).Amortised State.due Label.access
    (fun label => grant Tid * label.call) :=
  fun _ _ _ _ => step_due

theorem exec_inCall (exec : (machine qSize).Exec labels state events) :
    state.inCall + returns events = Machine.total Label.call labels := by
  induction exec with
  | start => simp [State.inCall, machine, returns, tally_eq_zero_iff, Thread.busy]
  | step _ taken inductionHypothesis =>
      have moved := step_inCall taken
      rw [Machine.total_append, Machine.total_singleton]
      simp only [returns, List.countP_append] at moved inductionHypothesis ⊢
      omega

omit [DecidableEq Tid] [Inhabited T] in
theorem State.inCall_le : state.inCall ≤ Fintype.card Tid := by
  have each := Finset.sum_le_card_nsmul Finset.univ (fun tid => (state.threads tid).busy.toNat) 1
    (fun tid _ => Bool.toNat_le _)
  simpa [State.inCall, tally] using each

/-- From any point of a run on, the threads take no more steps than the calls made there grant,
and those already open there still need. -/
theorem exec_accesses_le {middle : State Tid T} {seen : List (Event Tid T)}
    (reached : (machine qSize).Exec before middle seen)
    (exec : (machine qSize).Exec (before ++ after) state events) :
    Machine.total Label.access after ≤ middle.due + grant Tid * Machine.total Label.call after := by
  have paid := amortised.exec reached exec
  rw [Machine.total_mul] at paid
  omega

/-- The queue is lock-free: whatever the order of the steps, the threads take at most `grant Tid`
steps for each call that has returned and for each of the calls that may be open. From any point
on, the calls open there and those made since bound the steps in the same way. -/
theorem exec_lockFree (exec : (machine qSize).Exec (before ++ after) state events) :
    Machine.total Label.access (before ++ after) ≤ grant Tid * (returns events + Fintype.card Tid) ∧
      Machine.total Label.access after ≤
        Fintype.card Tid * (8 + 3 * (Fintype.card Tid - 1)) +
          grant Tid * Machine.total Label.call after := by
  constructor
  · have paid := @exec_accesses_le _ _ _ _ _ qSize [] (before ++ after) _ _ _ _ .start exec
    have atStart : (machine qSize : Machine (State Tid T) _ _).start.due = 0 := by
      simp [State.due, machine, Thread.due, Thread.ahead, Thread.stale]
    have calls := exec_inCall exec
    have open_ : state.inCall ≤ Fintype.card Tid := State.inCall_le
    have bound : grant Tid * Machine.total Label.call (before ++ after) ≤
        grant Tid * (returns events + Fintype.card Tid) :=
      Nat.mul_le_mul_left _ (by omega)
    omega
  · have ⟨middle, seen, reached, _⟩ := exec.earlier (List.prefix_append before after)
    have paid := exec_accesses_le reached exec
    have most : middle.due ≤ _ := State.due_le
    omega

end Runs

/-- Both threads load the same indices; the first wins the CAS. -/
def contendedPushes (first second : Tid) : List (Label Tid Nat) :=
  [.push first 7, .push second 8, .advance first, .advance second, .advance first, .advance second,
    .advance first]

/-- The second thread fails, starts over, and both finish. -/
def contendedRest (first second : Tid) : List (Label Tid Nat) :=
  List.replicate 6 (.advance second) ++ [.advance first, .advance first]

theorem contendedPushes_lockFree : ∃ state events,
    (machine 4).Exec (contendedPushes (0 : Fin 2) 1 ++ contendedRest 0 1) state events ∧
      returns events = 2 ∧
      Machine.total Label.access (contendedPushes (0 : Fin 2) 1 ++ contendedRest 0 1) ≤
        grant (Fin 2) * (returns events + 2) := by
  have exec := (machine 4).exec_of_isSome (contendedPushes (0 : Fin 2) 1 ++ contendedRest 0 1) (by decide)
  exact ⟨_, _, exec, by decide, (exec_lockFree exec).1⟩

end SimpleBasicComponents.LockFreeQueue
