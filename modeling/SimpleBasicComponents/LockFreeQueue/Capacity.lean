import Mathlib.Data.Nat.ModEq
import SimpleBasicComponents.LockFreeQueue.Tickets

/-!
Capacity of the lock-free queue.

Owns: the bound `m_writeIndex - m_readIndex ≤ Q_SIZE - 1`, the two ways in
which `push` misjudges it, and the exact condition under which a run keeps it.

`push` tests fullness on two loaded indices and its CAS validates only the
write index. The test is blind to a full queue when the read index it loaded
has been overtaken (`Stale`), and `calIndex` no longer is the index modulo
`Q_SIZE` once `index + Q_SIZE` wraps (`Wraps`).
-/

namespace SimpleBasicComponents.LockFreeQueue

open SimpleBasicComponents.Semantics

variable {Tid T : Type*} (qSize : QueueInt)

/-- The bound, and what it is for: two indices that no pop has claimed yet do
not share a slot. -/
def WithinCapacity (state : State Tid T) : Prop :=
  state.queue.mWriteIndex - state.queue.mReadIndex ≤ qSize - 1 ∧
    ∀ left right, state.queue.mReadIndex ≤ left → left < right →
      right < state.queue.mWriteIndex → calIndex qSize left ≠ calIndex qSize right

/-- `Q_SIZE - 1` indices are claimed by pushes and by no pop. -/
def Full (state : State Tid T) : Prop :=
  state.queue.mWriteIndex - state.queue.mReadIndex = qSize - 1

/-- The loaded read index no longer stands for the current one in the test. -/
def Stale (state : State Tid T) (curReadIndex : QueueInt) : Prop :=
  calIndex qSize curReadIndex ≠ calIndex qSize state.queue.mReadIndex

/-- The sum inside `calIndex` of the next write index leaves 64 bits. -/
def Wraps (state : State Tid T) : Prop :=
  2 ^ 64 ≤ state.queue.mWriteIndex.toNat + 1 + qSize.toNat

/-- Some index that no pop has claimed has the slot of the next write index. -/
def SlotTaken (state : State Tid T) : Prop :=
  ∃ index, state.queue.mReadIndex ≤ index ∧ index < state.queue.mWriteIndex ∧
    calIndex qSize index = calIndex qSize state.queue.mWriteIndex

/-- A push whose CAS is about to go through does so neither on a stale read
index into a full queue, nor at the end of the index range into a full queue or
a taken slot. -/
def JudgedRight (state : State Tid T) : Label Tid T → Prop
  | .advance tid =>
      match state.threads tid with
      | .pushCas _ r w => state.queue.mWriteIndex = w →
          ¬ (Stale qSize state r ∧ Full qSize state) ∧
            ¬ (Wraps qSize state ∧ (Full qSize state ∨ SlotTaken qSize state))
      | _ => True
  | _ => True

instance (state : State Tid T) : Decidable (SlotTaken qSize state) :=
  decidable_of_iff
    (∃ index < state.queue.mWriteIndex.toNat, state.queue.mReadIndex.toNat ≤ index ∧
      calIndex qSize (UInt64.ofNat index) = calIndex qSize state.queue.mWriteIndex) (by
    constructor
    · intro some
      have ⟨index, below, fromRead, same⟩ := some
      have value : (UInt64.ofNat index).toNat = index :=
        UInt64.toNat_ofNat_of_lt' (below.trans (UInt64.toNat_lt _))
      refine ⟨UInt64.ofNat index, ?_, ?_, same⟩
      · rwa [UInt64.le_iff_toNat_le, value]
      · rwa [UInt64.lt_iff_toNat_lt, value]
    · intro taken
      have ⟨index, fromRead, below, same⟩ := taken
      refine ⟨index.toNat, UInt64.lt_iff_toNat_lt.mp below, UInt64.le_iff_toNat_le.mp fromRead, ?_⟩
      rwa [UInt64.ofNat_toNat])

instance (state : State Tid T) (label : Label Tid T) : Decidable (JudgedRight qSize state label) := by
  cases label with
  | push | pop => exact .isTrue trivial
  | advance tid =>
      unfold JudgedRight Stale Full Wraps
      simp only
      split <;> infer_instance

variable {qSize} {state : State Tid T}

/-! ### One claim -/

private theorem distance_toNat {r w : QueueInt} (ordered : r.toNat ≤ w.toNat) :
    (w - r).toNat = w.toNat - r.toNat :=
  UInt64.toNat_sub_of_le w r (UInt64.le_iff_toNat_le.mpr ordered)

theorem distance_le_iff (two : 2 ≤ qSize) {r w : QueueInt} (ordered : r.toNat ≤ w.toNat) :
    w - r ≤ qSize - 1 ↔ w.toNat + 1 ≤ r.toNat + qSize.toNat := by
  rw [UInt64.le_iff_toNat_le, distance_toNat ordered, pred_toNat two]
  have two := UInt64.le_iff_toNat_le.mp two
  simp only [UInt64.reduceToNat] at two
  omega

theorem distance_eq_iff (two : 2 ≤ qSize) {r w : QueueInt} (ordered : r.toNat ≤ w.toNat) :
    w - r = qSize - 1 ↔ w.toNat + 1 = r.toNat + qSize.toNat := by
  rw [← UInt64.toNat_inj, distance_toNat ordered, pred_toNat two]
  have two := UInt64.le_iff_toNat_le.mp two
  simp only [UInt64.reduceToNat] at two
  omega

/-- After the CAS of a push the bound holds exactly when the queue was not full
and the slot was free. -/
theorem withinCapacity_claimWrite_iff (two : 2 ≤ qSize)
    (ordered : state.queue.mReadIndex.toNat ≤ state.queue.mWriteIndex.toNat)
    (few : state.queue.mWriteIndex.toNat + 1 < 2 ^ 64) (within : WithinCapacity qSize state) :
    WithinCapacity qSize (state.claimWrite state.queue.mWriteIndex) ↔
      ¬ Full qSize state ∧ ¬ SlotTaken qSize state := by
  obtain ⟨bound, distinct⟩ := within
  have next : (state.queue.mWriteIndex + 1).toNat = state.queue.mWriteIndex.toNat + 1 := by
    rw [UInt64.toNat_add]
    exact Nat.mod_eq_of_lt few
  have boundNext : state.queue.mWriteIndex + 1 - state.queue.mReadIndex ≤ qSize - 1 ↔
      ¬ Full qSize state := by
    rw [distance_le_iff two (by omega), next, Full, distance_eq_iff two ordered]
    rw [distance_le_iff two ordered] at bound
    omega
  refine and_congr boundNext ?_
  constructor
  · rintro distinctNext ⟨index, fromRead, belowWrite, same⟩
    refine distinctNext index state.queue.mWriteIndex fromRead belowWrite ?_ same
    rw [UInt64.lt_iff_toNat_lt]
    simp only [State.claimWrite, next]
    omega
  · intro free left right fromRead leftRight rightBelow same
    simp only [State.claimWrite] at fromRead rightBelow
    rw [UInt64.lt_iff_toNat_lt, next] at rightBelow
    by_cases isLast : right.toNat = state.queue.mWriteIndex.toNat
    · obtain rfl := UInt64.toNat_inj.mp isLast
      exact free ⟨left, fromRead, leftRight, same⟩
    · refine distinct left right fromRead leftRight ?_ same
      rw [UInt64.lt_iff_toNat_lt]
      omega

/-- Where `calIndex` does not wrap, a passed test on a fresh read index excludes
a full queue. -/
private theorem full_of_test (two : 2 ≤ qSize)
    (ordered : state.queue.mReadIndex.toNat ≤ state.queue.mWriteIndex.toNat)
    (full : Full qSize state) (noWrap : ¬ Wraps qSize state) :
    calIndex qSize state.queue.mReadIndex = calIndex qSize (state.queue.mWriteIndex + 1) := by
  have next : (state.queue.mWriteIndex + 1).toNat = state.queue.mWriteIndex.toNat + 1 := by
    rw [UInt64.toNat_add]
    apply Nat.mod_eq_of_lt
    unfold Wraps at noWrap
    simp only [UInt64.reduceToNat]
    omega
  unfold Wraps at noWrap
  have distance := (distance_eq_iff two ordered).mp full
  apply UInt64.toNat_inj.mp
  rw [calIndex_toNat_of_lt (by omega), calIndex_toNat_of_lt (by omega), next, distance,
    Nat.add_mod_right]

/-- Where `calIndex` does not wrap, the indices within the bound have distinct
slots. -/
private theorem slot_free (two : 2 ≤ qSize)
    (ordered : state.queue.mReadIndex.toNat ≤ state.queue.mWriteIndex.toNat)
    (within : WithinCapacity qSize state) (noWrap : ¬ Wraps qSize state) :
    ¬ SlotTaken qSize state := by
  rintro ⟨index, fromRead, belowWrite, same⟩
  have bound := (distance_le_iff two ordered).mp within.1
  rw [UInt64.le_iff_toNat_le] at fromRead
  rw [UInt64.lt_iff_toNat_lt] at belowWrite
  unfold Wraps at noWrap
  have residues := congrArg UInt64.toNat same
  rw [calIndex_toNat_of_lt (by omega), calIndex_toNat_of_lt (by omega)] at residues
  have divides : qSize.toNat ∣ state.queue.mWriteIndex.toNat - index.toNat :=
    (Nat.modEq_iff_dvd' (by omega)).mp residues
  have atLeast := Nat.le_of_dvd (by omega) divides
  omega

/-! ### Runs -/

section Runs

variable [DecidableEq Tid] {next : State Tid T} {label : Label Tid T}
  {shown : List (Event Tid T)}

/-- A thread about to CAS in `push` has passed the fullness test. -/
def Tested (qSize : QueueInt) (state : State Tid T) : Prop :=
  ∀ tid item r w, state.threads tid = .pushCas item r w →
    calIndex qSize r ≠ calIndex qSize (w + 1)

theorem Step.tested (taken : Step qSize state label next shown) (tested : Tested qSize state) :
    Tested qSize next := by
  intro tid item r w stands
  cases taken with
  | pushLoadWrite at_ room =>
      simp only [State.goto_threads] at stands
      split at stands
      · simp only [Thread.pushCas.injEq] at stands
        obtain ⟨-, rfl, rfl⟩ := stands
        exact room
      · exact tested _ _ _ _ stands
  | _ =>
      simp only [State.goto_threads, State.claimWrite, State.claimRead, State.storeSlot,
        State.setCount] at stands
      split at stands
      · contradiction
      · exact tested _ _ _ _ stands

theorem exec_tested [Inhabited T] {labels : List (Label Tid T)} {events : List (Event Tid T)}
    (exec : (machine qSize).Exec labels state events) : Tested qSize state := by
  induction exec with
  | start =>
      intro tid item r w stands
      contradiction
  | step before taken inductionHypothesis => exact (step_cases qSize taken).tested inductionHypothesis

/-- One step from within the bound stays within it exactly when it is judged
right. -/
theorem Step.withinCapacity_iff (two : 2 ≤ qSize)
    (ordered : state.queue.mReadIndex.toNat ≤ state.queue.mWriteIndex.toNat)
    (orderedNext : next.queue.mReadIndex.toNat ≤ next.queue.mWriteIndex.toNat)
    (grows : state.queue.mWriteIndex.toNat ≤ next.queue.mWriteIndex.toNat)
    (readGrows : state.queue.mReadIndex.toNat ≤ next.queue.mReadIndex.toNat)
    (tested : Tested qSize state) (taken : Step qSize state label next shown)
    (within : WithinCapacity qSize state) :
    WithinCapacity qSize next ↔ JudgedRight qSize state label := by
  cases taken with
  | @pushClaim tid item r at_ =>
      have passed := tested _ _ _ _ at_
      have judged : JudgedRight qSize state (.advance tid) ↔
          ¬ (Stale qSize state r ∧ Full qSize state) ∧
            ¬ (Wraps qSize state ∧ (Full qSize state ∨ SlotTaken qSize state)) := by
        simp only [JudgedRight, at_, forall_const]
      rw [judged]
      have few : state.queue.mWriteIndex.toNat + 1 < 2 ^ 64 := by
        simp only [State.goto_queue, State.claimWrite, UInt64.toNat_add, UInt64.reduceToNat]
          at grows
        have bound := UInt64.toNat_lt state.queue.mWriteIndex
        omega
      refine (withinCapacity_claimWrite_iff two ordered few within).trans ?_
      constructor
      · rintro ⟨notFull, free⟩
        exact ⟨fun bad => notFull bad.2, fun bad => bad.2.elim notFull free⟩
      · rintro ⟨notStale, notWrapped⟩
        have notFull : ¬ Full qSize state := by
          intro full
          have fresh : calIndex qSize r = calIndex qSize state.queue.mReadIndex := by
            by_contra stale
            exact notStale ⟨stale, full⟩
          have noWrap : ¬ Wraps qSize state := fun wraps => notWrapped ⟨wraps, .inl full⟩
          exact passed (fresh.trans (full_of_test two ordered full noWrap))
        refine ⟨notFull, ?_⟩
        by_cases wraps : Wraps qSize state
        · exact fun slotTaken => notWrapped ⟨wraps, .inr slotTaken⟩
        · exact slot_free two ordered within wraps
  | @popClaim tid w at_ =>
      have judged : JudgedRight qSize state (.advance tid) := by
        simp only [JudgedRight, at_]
      refine iff_of_true ?_ judged
      have orderedNext : (state.queue.mReadIndex + 1).toNat ≤ state.queue.mWriteIndex.toNat :=
        orderedNext
      obtain ⟨bound, distinct⟩ := within
      have readGrows : state.queue.mReadIndex.toNat ≤ (state.queue.mReadIndex + 1).toNat :=
        readGrows
      constructor
      · simp only [State.goto_queue, State.claimRead]
        rw [distance_le_iff two orderedNext]
        rw [distance_le_iff two ordered] at bound
        omega
      · intro left right fromRead
        apply distinct
        simp only [State.goto_queue, State.claimRead] at fromRead
        rw [UInt64.le_iff_toNat_le] at *
        omega
  | callPush at_ | callPop at_ => exact iff_of_true within trivial
  | @pushRetry tid item r w at_ lost =>
      refine iff_of_true within ?_
      simp only [JudgedRight, at_]
      exact fun won => absurd won lost
  | pushLoadRead at_ | pushFull at_ full | pushLoadWrite at_ room | pushStore at_ | pushAdd at_
  | popLoadRead at_ | popEmpty at_ empty | popLoadWrite at_ stored | popRetry at_ lost
  | popFetch at_ | popSub at_ =>
      refine iff_of_true within ?_
      simp only [JudgedRight, at_]

variable [Inhabited T] {labels : List (Label Tid T)} {events : List (Event Tid T)}

theorem exec_pushes_le {before : List (Label Tid T)} {seen : List (Event Tid T)}
    (exec : (machine qSize).Exec labels state events) {earlier : State Tid T}
    (isPrefix : before <+: labels) (execBefore : (machine qSize).Exec before earlier seen) :
    earlier.pushes ≤ state.pushes := by
  obtain ⟨middle, seenMiddle, execMiddle, seenPrefix⟩ := exec.earlier isPrefix
  obtain ⟨rfl, rfl⟩ := execBefore.functional execMiddle
  rw [exec_pushes execBefore, exec_pushes exec]
  obtain ⟨later, rfl⟩ := seenPrefix
  simp [writeClaims, List.filterMap_append]

theorem withinCapacity_start :
    WithinCapacity qSize (machine qSize : Machine (State Tid T) _ _).start := by
  constructor
  · have empty : (machine qSize : Machine (State Tid T) _ _).start.queue.mWriteIndex -
        (machine qSize : Machine (State Tid T) _ _).start.queue.mReadIndex = 0 := by
      simp [machine, ArrayLockFreeQueue.create]
    rw [empty, UInt64.le_iff_toNat_le]
    exact Nat.zero_le _
  · intro left right fromRead leftRight rightBelow
    rw [UInt64.lt_iff_toNat_lt] at rightBelow
    exact absurd rightBelow (Nat.not_lt_zero _)

/-- The step that comes after a run of fewer than `2^64` pushes. -/
theorem exec_withinCapacity_iff (two : 2 ≤ qSize)
    (before : (machine qSize).Exec labels state events)
    (taken : (machine qSize).step state label = some (next, shown)) (few : next.pushes < 2 ^ 64)
    (within : WithinCapacity qSize state) :
    WithinCapacity qSize next ↔ JudgedRight qSize state label := by
  have execNext := before.step taken
  have taken := step_cases qSize taken
  have fewBefore := lt_of_le_of_lt taken.pushes_le few
  have values := exec_indices before fewBefore
  have valuesNext := exec_indices execNext few
  have order := (exec_ordered before fewBefore).popsLe
  have orderNext := (exec_ordered execNext few).popsLe
  have grows := taken.pushes_le
  have readGrows := taken.pops_le
  exact taken.withinCapacity_iff two (by omega) (by omega) (by omega) (by omega)
    (exec_tested before) within

/-- Never over-full, exactly: a run of fewer than `2^64` pushes keeps the bound
in every state if and only if every CAS of a push that goes through is judged
right. -/
theorem withinCapacity_iff_judgedRight (two : 2 ≤ qSize)
    (exec : (machine qSize).Exec labels state events)
    (few : (writeClaims events).length < 2 ^ 64) :
    (machine qSize).Always (fun state _ => WithinCapacity qSize state) labels ↔
      (machine qSize).Guarded (JudgedRight qSize) labels := by
  rw [← exec_pushes exec] at few
  apply exec.always_iff_guarded withinCapacity_start
  intro before label earlier seen next shown isPrefix execBefore within taken
  have fewNext := lt_of_le_of_lt (exec_pushes_le exec isPrefix (execBefore.step taken)) few
  exact exec_withinCapacity_iff two execBefore taken fewNext within

end Runs

/-! ### The stale read index -/

attribute [local instance] twoThreads

/-- With `Q_SIZE = 2`: thread 0 loads the read index and is overtaken by a push
and a pop of thread 1, which then fills the queue again; thread 0 goes on. -/
def stalePush : List (Label (Fin 2) Nat) :=
  let push (item : Nat) : List (Label (Fin 2) Nat) :=
    .push 1 item :: List.replicate 5 (.advance 1)
  let pop : List (Label (Fin 2) Nat) := .pop 1 :: List.replicate 5 (.advance 1)
  [.push 0 10, .advance 0] ++ push 20 ++ pop ++ push 30 ++ [.advance 0, .advance 0]

private theorem stalePush_exec :
    ∃ state events, (machine 2).Exec stalePush state events ∧
      (writeClaims events).length < 2 ^ 64 ∧
      state.queue.mWriteIndex = 3 ∧ state.queue.mReadIndex = 1 := by
  have exec := (machine 2).exec_of_isSome stalePush (by decide)
  exact ⟨_, _, exec, by decide, by decide, by decide⟩

/-- The stale push is accepted by a full queue. -/
theorem stalePush_overfills :
    ∃ state events, (machine 2).Exec stalePush state events ∧
      (writeClaims events).length < 2 ^ 64 ∧
      ¬ state.queue.mWriteIndex - state.queue.mReadIndex ≤ 2 - 1 := by
  obtain ⟨state, events, exec, few, write, read⟩ := stalePush_exec
  refine ⟨state, events, exec, few, ?_⟩
  rw [write, read]
  decide

theorem stalePush_not_judgedRight : ¬ (machine 2).Guarded (JudgedRight 2) stalePush := by
  obtain ⟨state, events, exec, few, write, read⟩ := stalePush_exec
  rw [← withinCapacity_iff_judgedRight (by decide) exec few]
  intro always
  have bound := (always.last exec).1
  rw [write, read] at bound
  exact absurd bound (by decide)

end SimpleBasicComponents.LockFreeQueue
