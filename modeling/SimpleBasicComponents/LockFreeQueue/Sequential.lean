import Mathlib.Data.Nat.ModEq
import SimpleBasicComponents.LockFreeQueue.Model

/-!
The lock-free queue in the hands of one thread.

Owns: `push` and `pop` as one thread runs them from beginning to end, the bounded
queue they stand for, and the refinement for every `Q_SIZE` that is a power of
two. The indices grow and wrap with 64 bits, which such a `Q_SIZE` divides.
-/

namespace SimpleBasicComponents.LockFreeQueue

open SimpleBasicComponents.Semantics

variable {T : Type*}

/-! ### Calls -/

/-- `push` when no other thread is at work: the CAS goes through at once. -/
def push (qSize : QueueInt) (queue : ArrayLockFreeQueue T) (item : T) :
    ArrayLockFreeQueue T × Bool :=
  let curReadIndex := queue.mReadIndex
  let curWriteIndex := queue.mWriteIndex
  if calIndex qSize curReadIndex = calIndex qSize (curWriteIndex + 1) then (queue, false)
  else
    ({ queue with
        dataList := Function.update queue.dataList (calIndex qSize curWriteIndex) item
        mWriteIndex := curWriteIndex + 1
        mCount := queue.mCount + 1 }, true)

def pop (qSize : QueueInt) (queue : ArrayLockFreeQueue T) : ArrayLockFreeQueue T × Option T :=
  let curReadIndex := queue.mReadIndex
  let curWriteIndex := queue.mWriteIndex
  if calIndex qSize curReadIndex = calIndex qSize curWriteIndex then (queue, none)
  else
    ({ queue with mReadIndex := curReadIndex + 1, mCount := queue.mCount - 1 },
      some (queue.dataList (calIndex qSize curReadIndex)))

inductive Call (T : Type*) where
  | push (item : T)
  | pop
deriving DecidableEq

inductive Answer (T : Type*) where
  | pushed (accepted : Bool)
  | popped (item : Option T)
deriving DecidableEq

def callStep (qSize : QueueInt) (queue : ArrayLockFreeQueue T) :
    Call T → ArrayLockFreeQueue T × Answer T
  | .push item => ((push qSize queue item).1, .pushed (push qSize queue item).2)
  | .pop => ((pop qSize queue).1, .popped (pop qSize queue).2)

/-- One thread makes the calls one after the other. -/
def sequential [Inhabited T] (qSize : QueueInt) :
    Machine (ArrayLockFreeQueue T) (Call T) (Answer T) where
  start := .create
  step queue call := some ((callStep qSize queue call).1, [(callStep qSize queue call).2])

/-- A queue of so many items at most. -/
def boundedFifo (T : Type*) (capacity : Nat) : Machine (List T) (Call T) (Answer T) where
  start := []
  step
    | content, .push item =>
        if content.length = capacity then some (content, [.pushed false])
        else some (content ++ [item], [.pushed true])
    | [], .pop => some ([], [.popped none])
    | item :: rest, .pop => some (rest, [.popped (some item)])

/-! ### The calls as steps of a thread -/

section

variable {Tid : Type*} [DecidableEq Tid] {qSize : QueueInt} {state : State Tid T} {tid : Tid}

/-- What a call returns. -/
def Event.answer : Event Tid T → Option (Answer T)
  | .pushReturn _ accepted => some (.pushed accepted)
  | .popReturn _ item => some (.popped item)
  | _ => none

@[simp] private theorem goto_goto (state : State Tid T) (one two : Thread T) :
    (state.goto tid one).goto tid two = state.goto tid two := by
  simp [State.goto]

private theorem goto_threads_self (state : State Tid T) (point : Thread T) :
    (state.goto tid point).threads tid = point := by
  rw [State.goto_threads, if_pos rfl]

private theorem goto_idle (at_ : state.threads tid = .idle) :
    (state.goto tid .idle).threads = state.threads := by
  simp [State.goto, ← at_]

variable [Inhabited T]

private theorem steps_advance {point : Thread T} {next : State Tid T} {shown : List (Event Tid T)}
    (taken : advance qSize (state.goto tid point) tid = some (next, shown)) :
    (machine qSize).Steps (state.goto tid point) shown next :=
  .one (.advance tid) taken

/-- From the loads of the indices on, with nobody else at work. -/
private theorem steps_push (at_ : state.threads tid = .idle) (item : T) :
    ∃ next events, (machine qSize).Steps state events next ∧
      next.queue = (push qSize state.queue item).1 ∧ next.threads = state.threads ∧
      events.filterMap Event.answer = [.pushed (push qSize state.queue item).2] := by
  have calls : (machine qSize).Steps state [] (state.goto tid (.pushLoadRead item)) := by
    apply Machine.Steps.one (.push tid item)
    simp [machine, step, at_]
  have loads : (machine qSize).Steps (state.goto tid (.pushLoadRead item)) []
      (state.goto tid (.pushLoadWrite item state.queue.mReadIndex)) := by
    apply steps_advance
    simp [advance, goto_threads_self]
  have toTest := calls.trans loads
  unfold push
  by_cases full : calIndex qSize state.queue.mReadIndex = calIndex qSize (state.queue.mWriteIndex + 1)
  · have returns : (machine qSize).Steps (state.goto tid (.pushLoadWrite item state.queue.mReadIndex))
        [.pushReturn tid false] (state.goto tid .idle) := by
      apply steps_advance
      simp [advance, goto_threads_self, full]
    simp only [if_pos full]
    exact ⟨_, _, toTest.trans returns, rfl, goto_idle at_, rfl⟩
  · have tests : (machine qSize).Steps (state.goto tid (.pushLoadWrite item state.queue.mReadIndex)) []
        (state.goto tid (.pushCas item state.queue.mReadIndex state.queue.mWriteIndex)) := by
      apply steps_advance
      simp [advance, goto_threads_self, full]
    let claimed := state.claimWrite state.queue.mWriteIndex
    have claims : (machine qSize).Steps
        (state.goto tid (.pushCas item state.queue.mReadIndex state.queue.mWriteIndex))
        [.pushClaim tid state.pushes state.queue.mWriteIndex item]
        (claimed.goto tid (.pushStore item state.queue.mWriteIndex state.pushes)) := by
      apply steps_advance
      simp only [advance, goto_threads_self, State.goto_queue, if_true]
      exact congrArg some (congrArg₂ Prod.mk (goto_goto claimed _ _) rfl)
    let stored := claimed.storeSlot (calIndex qSize state.queue.mWriteIndex) item
    have stores : (machine qSize).Steps
        (claimed.goto tid (.pushStore item state.queue.mWriteIndex state.pushes))
        [.pushStore tid state.pushes state.queue.mWriteIndex item] (stored.goto tid .pushAdd) := by
      apply steps_advance
      simp only [advance, goto_threads_self]
      exact congrArg some (congrArg₂ Prod.mk (goto_goto stored _ _) rfl)
    let counted := stored.setCount (state.queue.mCount + 1)
    have counts : (machine qSize).Steps (stored.goto tid .pushAdd) [.pushReturn tid true]
        (counted.goto tid .idle) := by
      apply steps_advance
      simp only [advance, goto_threads_self]
      exact congrArg some (congrArg₂ Prod.mk (goto_goto counted _ _) rfl)
    simp only [if_neg full]
    have idle : counted.threads tid = .idle := at_
    exact ⟨_, _, toTest.trans (tests.trans (claims.trans (stores.trans counts))), rfl, goto_idle idle, rfl⟩

private theorem steps_pop (at_ : state.threads tid = .idle) :
    ∃ next events, (machine qSize).Steps state events next ∧
      next.queue = (pop qSize state.queue).1 ∧ next.threads = state.threads ∧
      events.filterMap Event.answer = [.popped (pop qSize state.queue).2] := by
  have calls : (machine qSize).Steps state [] (state.goto tid .popLoadRead) := by
    apply Machine.Steps.one (.pop tid)
    simp [machine, step, at_]
  have loads : (machine qSize).Steps (state.goto tid .popLoadRead) []
      (state.goto tid (.popLoadWrite state.queue.mReadIndex)) := by
    apply steps_advance
    simp [advance, goto_threads_self]
  have toTest := calls.trans loads
  unfold pop
  by_cases empty : calIndex qSize state.queue.mReadIndex = calIndex qSize state.queue.mWriteIndex
  · have returns : (machine qSize).Steps (state.goto tid (.popLoadWrite state.queue.mReadIndex))
        [.popReturn tid none] (state.goto tid .idle) := by
      apply steps_advance
      simp [advance, goto_threads_self, empty]
    simp only [if_pos empty]
    exact ⟨_, _, toTest.trans returns, rfl, goto_idle at_, rfl⟩
  · have tests : (machine qSize).Steps (state.goto tid (.popLoadWrite state.queue.mReadIndex)) []
        (state.goto tid (.popCas state.queue.mReadIndex state.queue.mWriteIndex)) := by
      apply steps_advance
      simp [advance, goto_threads_self, empty]
    let claimed := state.claimRead state.queue.mReadIndex
    let item := state.queue.dataList (calIndex qSize state.queue.mReadIndex)
    have claims : (machine qSize).Steps
        (state.goto tid (.popCas state.queue.mReadIndex state.queue.mWriteIndex))
        [.popClaim tid state.pops state.queue.mReadIndex]
        (claimed.goto tid (.popFetch state.queue.mReadIndex state.pops)) := by
      apply steps_advance
      simp only [advance, goto_threads_self, State.goto_queue, if_true]
      exact congrArg some (congrArg₂ Prod.mk (goto_goto claimed _ _) rfl)
    have fetches : (machine qSize).Steps
        (claimed.goto tid (.popFetch state.queue.mReadIndex state.pops))
        [.popFetch tid state.pops state.queue.mReadIndex item] (claimed.goto tid (.popSub item)) := by
      apply steps_advance
      simp only [advance, goto_threads_self]
      exact congrArg some (congrArg₂ Prod.mk (goto_goto claimed _ _) rfl)
    let counted := claimed.setCount (state.queue.mCount - 1)
    have counts : (machine qSize).Steps (claimed.goto tid (.popSub item)) [.popReturn tid (some item)]
        (counted.goto tid .idle) := by
      apply steps_advance
      simp only [advance, goto_threads_self]
      exact congrArg some (congrArg₂ Prod.mk (goto_goto counted _ _) rfl)
    simp only [if_neg empty]
    have idle : counted.threads tid = .idle := at_
    exact ⟨_, _, toTest.trans (tests.trans (claims.trans (fetches.trans counts))), rfl, goto_idle idle, rfl⟩

/-- An idle thread runs a call to its end and comes to what the call gives. -/
theorem steps_call (at_ : state.threads tid = .idle) (call : Call T) :
    ∃ next events, (machine qSize).Steps state events next ∧
      next.queue = (callStep qSize state.queue call).1 ∧ next.threads = state.threads ∧
      events.filterMap Event.answer = [(callStep qSize state.queue call).2] := by
  cases call with
  | push item => exact steps_push at_ item
  | pop => exact steps_pop at_

/-- Every sequence of calls is a run of the machine in which one thread is at work. -/
theorem exec_sequential {calls : List (Call T)} {queue : ArrayLockFreeQueue T} {answers : List (Answer T)}
    (tid : Tid) (exec : (sequential qSize).Exec calls queue answers) :
    ∃ labels state events, (machine qSize).Exec labels state events ∧ state.queue = queue ∧
      (∀ other : Tid, state.threads other = .idle) ∧ events.filterMap Event.answer = answers := by
  induction exec with
  | start => exact ⟨[], _, [], .start, rfl, fun _ => rfl, rfl⟩
  | @step calls queue next answers shown call before taken inductionHypothesis =>
      have ⟨labels, state, events, ran, isQueue, idle, isAnswers⟩ := inductionHypothesis
      have ⟨after, later, steps, isNext, sameThreads, answer⟩ :=
        @steps_call T Tid _ qSize state tid _ (idle tid) call
      have ⟨more, grown⟩ := ran.steps steps
      obtain ⟨rfl, rfl⟩ := Prod.mk.inj (Option.some.inj taken)
      refine ⟨labels ++ more, after, events ++ later, grown, ?_, ?_, ?_⟩
      · rw [isNext, isQueue]
      · rw [sameThreads]
        exact idle
      · rw [List.filterMap_append, isAnswers, answer, isQueue]

end

/-! ### Slots -/

section

variable {exponent : Fin 64} {qSize : QueueInt} {queue : ArrayLockFreeQueue T} {content : List T}

/-- `1 << exponent`. -/
def powerOfTwo (exponent : Fin 64) : QueueInt := UInt64.ofNat (2 ^ exponent.val)

theorem powerOfTwo_toNat (exponent : Fin 64) : (powerOfTwo exponent).toNat = 2 ^ exponent.val := by
  rw [powerOfTwo, UInt64.toNat_ofNat']
  exact Nat.mod_eq_of_lt (Nat.pow_lt_pow_right (by decide) exponent.isLt)

/-- The slot is the index modulo `Q_SIZE`, even where the sum in `calIndex` wraps. -/
theorem calIndex_powerOfTwo (index : QueueInt) :
    (calIndex (powerOfTwo exponent) index).toNat = index.toNat % 2 ^ exponent.val := by
  have divides : 2 ^ exponent.val ∣ 2 ^ 64 := Nat.pow_dvd_pow 2 (Nat.le_of_lt exponent.isLt)
  rw [calIndex_toNat, powerOfTwo_toNat, Nat.mod_mod_of_dvd _ divides, Nat.add_mod_right]

theorem calIndex_add (base : QueueInt) (offset : Nat) :
    (calIndex (powerOfTwo exponent) (base + UInt64.ofNat offset)).toNat =
      (base.toNat + offset) % 2 ^ exponent.val := by
  have divides : 2 ^ exponent.val ∣ 2 ^ 64 := Nat.pow_dvd_pow 2 (Nat.le_of_lt exponent.isLt)
  rw [calIndex_powerOfTwo, UInt64.toNat_add, UInt64.toNat_ofNat', Nat.add_mod_mod,
    Nat.mod_mod_of_dvd _ divides]

/-- Two indices have the same slot exactly if they are congruent. -/
theorem calIndex_eq_iff (base : QueueInt) (one two : Nat) :
    calIndex (powerOfTwo exponent) (base + UInt64.ofNat one) =
        calIndex (powerOfTwo exponent) (base + UInt64.ofNat two) ↔
      one ≡ two [MOD 2 ^ exponent.val] := by
  rw [← UInt64.toNat_inj, calIndex_add, calIndex_add]
  exact ⟨fun same => Nat.ModEq.add_left_cancel' base.toNat same, Nat.ModEq.add_left base.toNat⟩

/-! ### The items stored -/

/-- The queue stores the items, the oldest one at the read index. -/
structure Holds (exponent : Fin 64) (queue : ArrayLockFreeQueue T) (content : List T) : Prop where
  fits : content.length < 2 ^ exponent.val
  write : queue.mWriteIndex = queue.mReadIndex + UInt64.ofNat content.length
  count : queue.mCount = UInt64.ofNat content.length
  slots : ∀ offset (inside : offset < content.length),
    queue.dataList (calIndex (powerOfTwo exponent) (queue.mReadIndex + UInt64.ofNat offset)) =
      content[offset]

private theorem add_ofNat_zero (index : QueueInt) : index + UInt64.ofNat 0 = index := UInt64.add_zero index

private theorem add_ofNat_succ (index : QueueInt) (offset : Nat) :
    index + UInt64.ofNat (offset + 1) = index + UInt64.ofNat offset + 1 := by
  rw [UInt64.ofNat_add, ← UInt64.add_assoc]
  rfl

private theorem add_right_swap (index one two : QueueInt) : index + one + two = index + two + one := by
  rw [UInt64.add_assoc, UInt64.add_comm one two, ← UInt64.add_assoc]

theorem Holds.full_iff (holds : Holds exponent queue content) :
    calIndex (powerOfTwo exponent) queue.mReadIndex =
        calIndex (powerOfTwo exponent) (queue.mWriteIndex + 1) ↔
      content.length = 2 ^ exponent.val - 1 := by
  have fits := holds.fits
  have same := @calIndex_eq_iff exponent queue.mReadIndex 0 (content.length + 1)
  rw [add_ofNat_zero, add_ofNat_succ, ← holds.write] at same
  rw [same]
  constructor
  · intro congruent
    have divides := Nat.modEq_zero_iff_dvd.mp congruent.symm
    have large := Nat.le_of_dvd (Nat.succ_pos _) divides
    omega
  · intro isFull
    rw [isFull, Nat.sub_add_cancel (by omega)]
    exact (Nat.modEq_zero_iff_dvd.mpr (Nat.dvd_refl _)).symm

theorem Holds.empty_iff (holds : Holds exponent queue content) :
    calIndex (powerOfTwo exponent) queue.mReadIndex = calIndex (powerOfTwo exponent) queue.mWriteIndex ↔
      content = [] := by
  have same := @calIndex_eq_iff exponent queue.mReadIndex 0 content.length
  rw [add_ofNat_zero, ← holds.write] at same
  rw [same, ← List.length_eq_zero_iff]
  constructor
  · intro congruent
    exact (Nat.ModEq.eq_of_lt_of_lt congruent (Nat.two_pow_pos _) holds.fits).symm
  · intro isEmpty
    rw [isEmpty]

theorem Holds.push (holds : Holds exponent queue content) (item : T)
    (room : content.length ≠ 2 ^ exponent.val - 1) :
    (LockFreeQueue.push (powerOfTwo exponent) queue item).2 = true ∧
      Holds exponent (LockFreeQueue.push (powerOfTwo exponent) queue item).1 (content ++ [item]) := by
  have fits := holds.fits
  have notFull := mt holds.full_iff.mp room
  unfold LockFreeQueue.push
  simp only [if_neg notFull]
  refine ⟨trivial, ?_, ?_, ?_, ?_⟩
  · rw [List.length_append, List.length_singleton]
    omega
  · rw [List.length_append, List.length_singleton, add_ofNat_succ, ← holds.write]
  · rw [List.length_append, List.length_singleton, UInt64.ofNat_add, ← holds.count]
    rfl
  · intro offset inside
    rw [List.length_append, List.length_singleton] at inside
    simp only [holds.write]
    by_cases isNew : offset = content.length
    · subst isNew
      rw [Function.update_self, List.getElem_append_right (Nat.le_refl _)]
      simp
    · have isOld : offset < content.length := by omega
      rw [List.getElem_append_left isOld, Function.update_of_ne, holds.slots offset isOld]
      intro same
      have congruent := (calIndex_eq_iff _ _ _).mp same
      exact isNew (Nat.ModEq.eq_of_lt_of_lt congruent (isOld.trans fits) fits)

theorem Holds.pop {item : T} (holds : Holds exponent queue (item :: content)) :
    (LockFreeQueue.pop (powerOfTwo exponent) queue).2 = some item ∧
      Holds exponent (LockFreeQueue.pop (powerOfTwo exponent) queue).1 content := by
  have notEmpty := mt holds.empty_iff.mp (by simp)
  have fits := holds.fits
  rw [List.length_cons] at fits
  have oldest := holds.slots 0 (by simp)
  rw [add_ofNat_zero] at oldest
  unfold LockFreeQueue.pop
  simp only [if_neg notEmpty]
  refine ⟨congrArg some oldest, ?_, ?_, ?_, ?_⟩
  · omega
  · rw [holds.write, List.length_cons, add_ofNat_succ]
    exact add_right_swap _ _ _
  · rw [holds.count, List.length_cons, UInt64.ofNat_add]
    simp
  · intro offset inside
    have next := holds.slots (offset + 1) (by simpa using inside)
    rw [add_ofNat_succ] at next
    simp only
    rw [add_right_swap]
    exact next

theorem Holds.create [Inhabited T] : Holds exponent (.create : ArrayLockFreeQueue T) [] where
  fits := Nat.two_pow_pos _
  write := rfl
  count := rfl
  slots _ inside := absurd inside (Nat.not_lt_zero _)

theorem Holds.size_eq (holds : Holds exponent queue content) :
    queue.size.toNat = content.length := by
  have fits := holds.fits.trans (Nat.pow_lt_pow_right (by decide) exponent.isLt)
  rw [ArrayLockFreeQueue.size, holds.count, UInt64.toNat_ofNat']
  exact Nat.mod_eq_of_lt fits

theorem Holds.push_full (holds : Holds exponent queue content) (item : T)
    (isFull : content.length = 2 ^ exponent.val - 1) :
    LockFreeQueue.push (powerOfTwo exponent) queue item = (queue, false) := by
  unfold LockFreeQueue.push
  simp only [if_pos (holds.full_iff.mpr isFull)]

theorem Holds.pop_empty (holds : Holds exponent queue []) :
    LockFreeQueue.pop (powerOfTwo exponent) queue = (queue, none) := by
  unfold LockFreeQueue.pop
  simp only [if_pos (holds.empty_iff.mpr rfl)]

/-- A call does to the queue what the bounded queue does to the items. -/
theorem Holds.call (holds : Holds exponent queue content) (call : Call T) :
    ∃ later, (boundedFifo T (2 ^ exponent.val - 1)).step content call =
        some (later, [(callStep (powerOfTwo exponent) queue call).2]) ∧
      Holds exponent (callStep (powerOfTwo exponent) queue call).1 later := by
  cases call with
  | push item =>
      by_cases isFull : content.length = 2 ^ exponent.val - 1
      · have refused := holds.push_full item isFull
        refine ⟨content, ?_, ?_⟩
        · simp [boundedFifo, callStep, isFull, refused]
        · rw [callStep, refused]
          exact holds
      · have ⟨accepted, stored⟩ := holds.push item isFull
        refine ⟨content ++ [item], ?_, stored⟩
        simp [boundedFifo, callStep, isFull, accepted]
  | pop =>
      cases content with
      | nil =>
          have nothing := holds.pop_empty
          refine ⟨[], ?_, ?_⟩
          · simp [boundedFifo, callStep, nothing]
          · rw [callStep, nothing]
            exact holds
      | cons item rest =>
          have ⟨oldest, remain⟩ := holds.pop
          refine ⟨rest, ?_, remain⟩
          simp [boundedFifo, callStep, oldest]

end

/-! ### Refinement -/

/-- After any calls of one thread, which are also a run of the machine with the
other threads idle, the queue has answered as the bounded queue of `Q_SIZE - 1`
items does, and `size` is the number of items stored. -/
theorem sequential_refines_boundedFifo {T Tid : Type*} [Inhabited T] [DecidableEq Tid]
    (exponent : Fin 64) (tid : Tid) (calls : List (Call T)) :
    ∃ queue content answers, (sequential (powerOfTwo exponent)).Exec calls queue answers ∧
      (boundedFifo T (2 ^ exponent.val - 1)).Exec calls content answers ∧
      queue.size.toNat = content.length ∧
      ∃ (labels : List (Label Tid T)) (state : State Tid T) (events : List (Event Tid T)),
        (machine (powerOfTwo exponent)).Exec labels state events ∧
        state.queue = queue ∧ (∀ other, state.threads other = .idle) ∧
        events.filterMap Event.answer = answers := by
  suffices together : ∃ queue content answers, (sequential (powerOfTwo exponent)).Exec calls queue answers ∧
      (boundedFifo T (2 ^ exponent.val - 1)).Exec calls content answers ∧
      Holds exponent queue content by
    have ⟨queue, content, answers, exec, bounded, holds⟩ := together
    exact ⟨queue, content, answers, exec, bounded, holds.size_eq, exec_sequential tid exec⟩
  induction calls using List.reverseRecOn with
  | nil => exact ⟨_, _, _, .start, .start, .create⟩
  | append_singleton calls call inductionHypothesis =>
      have ⟨queue, content, answers, exec, bounded, holds⟩ := inductionHypothesis
      have ⟨later, stepped, remain⟩ := holds.call call
      exact ⟨_, later, _, exec.step rfl, bounded.step stepped, remain⟩

end SimpleBasicComponents.LockFreeQueue
