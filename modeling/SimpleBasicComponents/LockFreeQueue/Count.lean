import Mathlib.Data.Finset.Card
import Mathlib.Data.Finset.Image
import SimpleBasicComponents.LockFreeQueue.Capacity
import SimpleBasicComponents.LockFreeQueue.OpenCalls

/-!
The counter of the lock-free queue.

Owns: what `size()` returns in the states of a run, and an order of the steps of
the two sides under which it stays a number of items that the queue can hold. A push
counts its item after it has published the index, and a pop discounts it after it has
released the index, so either can be overtaken by the other side.

The counter is the number of tickets that have been counted less those that have been
discounted. Where no call is overtaken, each ticket is counted before it is discounted,
and not before the one `Q_SIZE - 1` tickets back is discounted.
-/

namespace SimpleBasicComponents.LockFreeQueue

open SimpleBasicComponents.Semantics

variable {Tid T : Type*}

/-- `size()` is a number of items that fits into the queue. -/
def CountsItems (qSize : QueueInt) (state : State Tid T) : Prop :=
  state.queue.size ≤ qSize - 1

variable [DecidableEq Tid]

/-- When a push takes its `AtomicAdd`, the pop that claimed the index `Q_SIZE - 1` places back is
not in front of its `AtomicSub`; when a pop takes its `AtomicSub`, the push that claimed its index
is not in front of its `AtomicAdd`. -/
def NotOvertaken (qSize : QueueInt) (earlier : List (Event Tid T)) : Event Tid T → Prop
  | .pushReturn tid true => ∀ ticket, openPush tid earlier = some ticket →
      ∀ other behind index, openPop other earlier = some (behind, index) →
        behind + (qSize.toNat - 1) ≠ ticket
  | .popReturn tid (some _) => ∀ ticket index, openPop tid earlier = some (ticket, index) →
      ∀ other, openPush other earlier ≠ some ticket
  | _ => True

/-! ### Tickets that are counted -/

/-- The tickets of the pushes that have added, and of the pops that have subtracted. -/
structure Tallied (qSize : QueueInt) (state : State Tid T) (events : List (Event Tid T))
    (added subtracted : Finset Nat) : Prop where
  count : added.card = subtracted.card + state.queue.mCount.toNat
  added_iff : ∀ ticket, ticket ∈ added ↔
    ticket < state.pushes ∧ ∀ tid, openPush tid events ≠ some ticket
  subtracted_iff : ∀ ticket, ticket ∈ subtracted ↔
    ticket < state.pops ∧ ∀ tid index, openPop tid events ≠ some (ticket, index)
  counted : subtracted ⊆ added
  room : ∀ ticket ∈ added, qSize.toNat - 1 ≤ ticket → ticket - (qSize.toNat - 1) ∈ subtracted

section

variable {qSize : QueueInt} {state next : State Tid T} {label : Label Tid T}
  {events shown : List (Event Tid T)} {added subtracted : Finset Nat}

/-- At most `Q_SIZE - 1` tickets are counted that are not discounted. -/
theorem Tallied.card_le (tallied : Tallied qSize state events added subtracted) :
    added.card ≤ qSize.toNat - 1 + subtracted.card := by
  have covers : added ⊆
      Finset.range (qSize.toNat - 1) ∪ subtracted.image (· + (qSize.toNat - 1)) := by
    intro ticket member
    by_cases small : ticket < qSize.toNat - 1
    · exact Finset.mem_union_left _ (Finset.mem_range.mpr small)
    · have large := Nat.le_of_not_lt small
      apply Finset.mem_union_right
      exact Finset.mem_image.mpr
        ⟨_, tallied.room ticket member large, Nat.sub_add_cancel large⟩
  calc added.card
      ≤ (Finset.range (qSize.toNat - 1) ∪ subtracted.image (· + (qSize.toNat - 1))).card :=
        Finset.card_le_card covers
    _ ≤ (Finset.range (qSize.toNat - 1)).card +
          (subtracted.image (· + (qSize.toNat - 1))).card := Finset.card_union_le _ _
    _ ≤ qSize.toNat - 1 + subtracted.card := by
        rw [Finset.card_range]
        exact Nat.add_le_add_left Finset.card_image_le _

theorem Tallied.countsItems (two : 2 ≤ qSize)
    (tallied : Tallied qSize state events added subtracted) : CountsItems qSize state := by
  have few := tallied.card_le
  have count := tallied.count
  rw [CountsItems, ArrayLockFreeQueue.size, UInt64.le_iff_toNat_le, pred_toNat two]
  omega

/-- A step that leaves the tickets and the counter alone. -/
theorem Tallied.unmoved (tallied : Tallied qSize state events added subtracted)
    (sameCount : next.queue.mCount = state.queue.mCount) (samePushes : next.pushes = state.pushes)
    (samePops : next.pops = state.pops)
    (sameOpenPush : ∀ tid, openPush tid (events ++ shown) = openPush tid events)
    (sameOpenPop : ∀ tid, openPop tid (events ++ shown) = openPop tid events) :
    Tallied qSize next (events ++ shown) added subtracted where
  count := by rw [sameCount, tallied.count]
  added_iff ticket := by simp only [samePushes, sameOpenPush, tallied.added_iff]
  subtracted_iff ticket := by simp only [samePops, sameOpenPop, tallied.subtracted_iff]
  counted := tallied.counted
  room := tallied.room

/-- The ticket that a push has just got is not counted yet. -/
theorem Tallied.pushClaim (tallied : Tallied qSize state events added subtracted)
    (opened : Open state events) {tid : Tid} {item : T} {r : QueueInt}
    (at_ : state.threads tid = .pushCas item r state.queue.mWriteIndex) :
    Tallied qSize
      ((state.claimWrite state.queue.mWriteIndex).goto tid
        (.pushStore item state.queue.mWriteIndex state.pushes))
      (events ++ [.pushClaim tid state.pushes state.queue.mWriteIndex item]) added subtracted := by
  have heldPush := opened.push tid
  rw [at_] at heldPush
  have notHeld : openPush tid events = none := heldPush
  refine ⟨tallied.count, ?_, ?_, tallied.counted, tallied.room⟩
  · intro ticket
    rw [tallied.added_iff]
    simp only [openPush_snoc, notePush, State.goto_pushes, State.claimWrite]
    constructor
    · intro both
      refine ⟨Nat.lt_succ_of_lt both.1, ?_⟩
      intro other
      split
      · exact fun same => absurd (Option.some.inj same) (Nat.ne_of_gt both.1)
      · exact both.2 other
    · intro both
      have apart : ticket ≠ state.pushes := by
        intro same
        exact both.2 tid (by rw [if_pos rfl, same])
      refine ⟨Nat.lt_of_le_of_ne (Nat.le_of_lt_succ both.1) apart, ?_⟩
      intro other isOpen
      by_cases same : tid = other
      · rw [← same, notHeld] at isOpen
        contradiction
      · exact both.2 other (by rw [if_neg same, isOpen])
  · intro ticket
    rw [tallied.subtracted_iff]
    simp only [openPop_snoc, notePop, State.goto_pops, State.claimWrite]

theorem Tallied.popClaim (tallied : Tallied qSize state events added subtracted)
    (opened : Open state events) {tid : Tid} {w : QueueInt}
    (at_ : state.threads tid = .popCas state.queue.mReadIndex w) :
    Tallied qSize
      ((state.claimRead state.queue.mReadIndex).goto tid
        (.popFetch state.queue.mReadIndex state.pops))
      (events ++ [.popClaim tid state.pops state.queue.mReadIndex]) added subtracted := by
  have heldPop := opened.pop tid
  rw [at_] at heldPop
  have notHeld : openPop tid events = none := heldPop
  refine ⟨tallied.count, ?_, ?_, tallied.counted, tallied.room⟩
  · intro ticket
    rw [tallied.added_iff]
    simp only [openPush_snoc, notePush, State.goto_pushes, State.claimRead]
  · intro ticket
    rw [tallied.subtracted_iff]
    simp only [openPop_snoc, notePop, State.goto_pops, State.claimRead]
    constructor
    · intro both
      refine ⟨Nat.lt_succ_of_lt both.1, ?_⟩
      intro other index
      split
      · intro same
        have isLast := (Prod.mk.inj (Option.some.inj same)).1
        exact absurd isLast (Nat.ne_of_gt both.1)
      · exact both.2 other index
    · intro both
      have apart : ticket ≠ state.pops := by
        intro same
        exact both.2 tid state.queue.mReadIndex (by rw [if_pos rfl, same])
      refine ⟨Nat.lt_of_le_of_ne (Nat.le_of_lt_succ both.1) apart, ?_⟩
      intro other index isOpen
      by_cases same : tid = other
      · rw [← same, notHeld] at isOpen
        contradiction
      · exact both.2 other index (by rw [if_neg same, isOpen])

/-- The `AtomicAdd` of a push that the pop in front of it does not wait for. -/
theorem Tallied.pushAdd (tallied : Tallied qSize state events added subtracted)
    (opened : Open state events) (within : state.pushes ≤ state.pops + (qSize.toNat - 1))
    {tid : Tid} (at_ : state.threads tid = .pushAdd)
    (inOrder : NotOvertaken qSize events (.pushReturn tid true)) :
    ∃ added, Tallied qSize ((state.setCount (state.queue.mCount + 1)).goto tid .idle)
      (events ++ [.pushReturn tid true]) added subtracted := by
  have heldPush := opened.push tid
  rw [at_] at heldPush
  have ⟨ticket, isOpen⟩ := Option.isSome_iff_exists.mp heldPush
  have isClaimed := opened.pushBelow tid ticket isOpen
  have notCounted : ticket ∉ added := fun member =>
    ((tallied.added_iff ticket).mp member).2 tid isOpen
  have few := tallied.card_le
  have count := tallied.count
  have below := UInt64.toNat_lt qSize
  have noWrap : (state.queue.mCount + 1).toNat = state.queue.mCount.toNat + 1 := by
    rw [UInt64.toNat_add, UInt64.toNat_one]
    omega
  refine ⟨insert ticket added, ?_, ?_, ?_, ?_, ?_⟩
  · rw [Finset.card_insert_of_notMem notCounted, count]
    simp only [State.goto_queue, State.setCount, noWrap]
    omega
  · intro other
    rw [Finset.mem_insert, tallied.added_iff]
    simp only [openPush_snoc, notePush, State.goto_pushes, State.setCount]
    constructor
    · intro either
      rcases either with rfl | ⟨claimed, closed⟩
      · refine ⟨isClaimed, ?_⟩
        intro third
        split
        · intro isSome
          contradiction
        · rename_i apart
          exact fun also => apart (opened.pushApart tid third _ isOpen also)
      · refine ⟨claimed, ?_⟩
        intro third
        split
        · intro isSome
          contradiction
        · exact closed third
    · intro both
      by_cases same : other = ticket
      · exact .inl same
      · refine .inr ⟨both.1, ?_⟩
        intro third also
        by_cases isTid : tid = third
        · rw [← isTid, isOpen] at also
          exact same (Option.some.inj also).symm
        · exact both.2 third (by rw [if_neg isTid, also])
  · intro other
    rw [tallied.subtracted_iff]
    simp only [openPop_snoc, notePop, State.goto_pops, State.setCount]
  · exact tallied.counted.trans (Finset.subset_insert _ _)
  · intro other member large
    rcases Finset.mem_insert.mp member with rfl | old
    · refine (tallied.subtracted_iff _).mpr ⟨by omega, ?_⟩
      intro third index also
      exact inOrder other isOpen third _ index also (Nat.sub_add_cancel large)
    · exact tallied.room other old large

/-- The `AtomicSub` of a pop whose item has been counted. -/
theorem Tallied.popSub (tallied : Tallied qSize state events added subtracted)
    (opened : Open state events) (popsLe : state.pops ≤ state.pushes) {tid : Tid} {item : T}
    (at_ : state.threads tid = .popSub item)
    (inOrder : NotOvertaken qSize events (.popReturn tid (some item))) :
    ∃ subtracted, Tallied qSize ((state.setCount (state.queue.mCount - 1)).goto tid .idle)
      (events ++ [.popReturn tid (some item)]) added subtracted := by
  have heldPop := opened.pop tid
  rw [at_] at heldPop
  have ⟨⟨ticket, index⟩, isOpen⟩ := Option.isSome_iff_exists.mp heldPop
  have isClaimed := opened.popBelow tid ticket index isOpen
  have notDiscounted : ticket ∉ subtracted := fun member =>
    ((tallied.subtracted_iff ticket).mp member).2 tid index isOpen
  have isCounted : ticket ∈ added :=
    (tallied.added_iff ticket).mpr ⟨by omega, inOrder ticket index isOpen⟩
  have covers : insert ticket subtracted ⊆ added :=
    Finset.insert_subset isCounted tallied.counted
  have fewer := Finset.card_le_card covers
  rw [Finset.card_insert_of_notMem notDiscounted] at fewer
  have count := tallied.count
  have one : 1 ≤ state.queue.mCount := UInt64.le_iff_toNat_le.mpr (by rw [UInt64.toNat_one]; omega)
  have noWrap : (state.queue.mCount - 1).toNat = state.queue.mCount.toNat - 1 :=
    UInt64.toNat_sub_of_le _ _ one
  refine ⟨insert ticket subtracted, ?_, ?_, ?_, covers, ?_⟩
  · rw [Finset.card_insert_of_notMem notDiscounted, count]
    simp only [State.goto_queue, State.setCount, noWrap]
    omega
  · intro other
    rw [tallied.added_iff]
    simp only [openPush_snoc, notePush, State.goto_pushes, State.setCount]
  · intro other
    rw [Finset.mem_insert, tallied.subtracted_iff]
    simp only [openPop_snoc, notePop, State.goto_pops, State.setCount]
    constructor
    · intro either
      rcases either with rfl | ⟨claimed, closed⟩
      · refine ⟨isClaimed, ?_⟩
        intro third otherIndex
        split
        · intro isSome
          contradiction
        · rename_i apart
          exact fun also => apart (opened.popApart tid third _ _ _ isOpen also)
      · refine ⟨claimed, ?_⟩
        intro third otherIndex
        split
        · intro isSome
          contradiction
        · exact closed third otherIndex
    · intro both
      by_cases same : other = ticket
      · exact .inl same
      · refine .inr ⟨both.1, ?_⟩
        intro third otherIndex also
        by_cases isTid : tid = third
        · rw [← isTid, isOpen] at also
          exact same (Prod.mk.inj (Option.some.inj also)).1.symm
        · exact both.2 third otherIndex (by rw [if_neg isTid, also])
  · intro other member large
    exact Finset.mem_insert_of_mem (tallied.room other member large)

end

/-! ### Runs -/

section Runs

variable [Inhabited T] {qSize : QueueInt} {labels : List (Label Tid T)} {state next : State Tid T}
  {label : Label Tid T} {events shown : List (Event Tid T)} {added subtracted : Finset Nat}

theorem step_tallied (two : 2 ≤ qSize) (exec : (machine qSize).Exec labels state events)
    (few : state.pushes < 2 ^ 64) (within : WithinCapacity qSize state)
    (taken : Step qSize state label next shown)
    (inOrder : Historically (NotOvertaken qSize) (events ++ shown))
    (tallied : Tallied qSize state events added subtracted) :
    ∃ added subtracted, Tallied qSize next (events ++ shown) added subtracted := by
  have opened := exec_open exec
  have ordered := (exec_ordered exec few).popsLe
  cases taken with
  | pushClaim at_ => exact ⟨added, subtracted, tallied.pushClaim opened at_⟩
  | popClaim at_ => exact ⟨added, subtracted, tallied.popClaim opened at_⟩
  | pushAdd at_ =>
      have values := exec_indices exec few
      have bound := (distance_le_iff two (by omega)).mp within.1
      have isTwo : 2 ≤ qSize.toNat := two
      have ⟨more, holds⟩ := tallied.pushAdd opened (by omega) at_ (historically_snoc_iff.mp inOrder).2
      exact ⟨more, subtracted, holds⟩
  | popSub at_ =>
      have ⟨more, holds⟩ := tallied.popSub opened ordered at_ (historically_snoc_iff.mp inOrder).2
      exact ⟨added, more, holds⟩
  | @pushFull tid _ _ at_ =>
      have heldPush := opened.push tid
      rw [at_] at heldPush
      refine ⟨added, subtracted, tallied.unmoved rfl rfl rfl ?_ ?_⟩
      · intro other
        rw [openPush_snoc, notePush]
        split
        · rename_i same
          rw [← same]
          exact heldPush.symm
        · rfl
      · exact fun other => openPop_snoc other events _
  | @popEmpty tid _ at_ =>
      have heldPop := opened.pop tid
      rw [at_] at heldPop
      refine ⟨added, subtracted, tallied.unmoved rfl rfl rfl ?_ ?_⟩
      · exact fun other => openPush_snoc other events _
      · intro other
        rw [openPop_snoc, notePop]
        split
        · rename_i same
          rw [← same]
          exact heldPop.symm
        · rfl
  | pushStore | popFetch =>
      exact ⟨added, subtracted, tallied.unmoved rfl rfl rfl (fun other => openPush_snoc other events _)
        (fun other => openPop_snoc other events _)⟩
  | _ =>
      rw [List.append_nil]
      exact ⟨added, subtracted, tallied.count, tallied.added_iff, tallied.subtracted_iff,
        tallied.counted, tallied.room⟩

theorem exec_tallied (two : 2 ≤ qSize) (exec : (machine qSize).Exec labels state events)
    (few : state.pushes < 2 ^ 64) (judged : (machine qSize).Guarded (JudgedRight qSize) labels)
    (inOrder : Historically (NotOvertaken qSize) events) :
    WithinCapacity qSize state ∧ ∃ added subtracted, Tallied qSize state events added subtracted := by
  induction exec with
  | start =>
      refine ⟨withinCapacity_start, ∅, ∅, rfl, ?_, ?_, Finset.Subset.refl _, ?_⟩
      · exact fun ticket => iff_of_false (Finset.notMem_empty _) (fun both => Nat.not_lt_zero _ both.1)
      · exact fun ticket => iff_of_false (Finset.notMem_empty _) (fun both => Nat.not_lt_zero _ both.1)
      · exact fun ticket member => absurd member (Finset.notMem_empty _)
  | @step labels state next events shown label before taken inductionHypothesis =>
      have isStep := step_cases qSize taken
      have fewBefore := lt_of_le_of_lt isStep.pushes_le few
      have ⟨judgedBefore, isJudged⟩ := Machine.guarded_snoc_iff.mp judged
      have ⟨within, added, subtracted, tallied⟩ :=
        inductionHypothesis fewBefore judgedBefore inOrder.earlier
      refine ⟨?_, step_tallied two before fewBefore within isStep inOrder tallied⟩
      exact (exec_withinCapacity_iff two before taken few within).mpr (isJudged state events before)

/-- `size()` stays a number of items that fits in every run of fewer than `2^64` pushes whose
pushes judge the queue right and in which no counter update is overtaken. -/
theorem countsItems_of_notOvertaken (two : 2 ≤ qSize)
    (exec : (machine qSize).Exec labels state events)
    (few : (writeClaims events).length < 2 ^ 64)
    (judged : (machine qSize).Guarded (JudgedRight qSize) labels)
    (inOrder : Historically (NotOvertaken qSize) events) :
    (machine qSize).Always (fun state _ => CountsItems qSize state) labels := by
  rw [← exec_pushes exec] at few
  intro before earlier seen isPrefix execBefore
  have fewBefore := lt_of_le_of_lt (exec_pushes_le exec isPrefix execBefore) few
  have judgedBefore : (machine qSize).Guarded (JudgedRight qSize) before :=
    fun front other middle shown isFront => judged front other middle shown (isFront.trans isPrefix)
  have ⟨middle, seenMiddle, execMiddle, seenPrefix⟩ := exec.earlier isPrefix
  have same := (execBefore.functional execMiddle).2
  have ⟨later, whole⟩ := seenPrefix
  rw [← whole, ← same] at inOrder
  have ⟨_, added, subtracted, tallied⟩ :=
    exec_tallied two execBefore fewBefore judgedBefore inOrder.earlier
  exact tallied.countsItems two

end Runs

/-! ### The overtaken counter -/

attribute [local instance] twoThreads

/-- With `Q_SIZE = 2`: thread 0 has stored its item and not counted it yet when thread 1 pops it. -/
def overtakenAdd : List (Label (Fin 2) Nat) :=
  .push 0 7 :: List.replicate 4 (.advance 0) ++ .pop 1 :: List.replicate 5 (.advance 1)

/-- `size()` is `2^64 - 1` then. -/
theorem overtakenAdd_not_countsItems : ∃ state events, (machine 2).Exec overtakenAdd state events ∧
    state.queue.size = 18446744073709551615 ∧ ¬ CountsItems 2 state := by
  refine ⟨_, _, (machine 2).exec_of_isSome overtakenAdd (by decide), ?_, ?_⟩
  · decide
  · unfold CountsItems
    decide

/-- Thread 0 finishes its push before thread 1 pops. -/
def countedInOrder : List (Label (Fin 2) Nat) :=
  .push 0 7 :: List.replicate 5 (.advance 0) ++ .pop 1 :: List.replicate 5 (.advance 1)

theorem countedInOrder_countsItems :
    (machine 2).Always (fun state _ => CountsItems 2 state) countedInOrder := by
  have exec : ∃ state, (machine 2).Exec countedInOrder state
      ([] ++ [.pushClaim 0 0 0 7] ++ [.pushStore 0 0 0 7] ++ [.pushReturn 0 true] ++
        [.popClaim 1 0 0] ++ [.popFetch 1 0 0 7] ++ [.popReturn 1 (some 7)]) :=
    ⟨_, (machine 2).exec_of_run rfl⟩
  have ⟨state, ran⟩ := exec
  apply countsItems_of_notOvertaken (by decide) ran (by decide)
  · exact Machine.guarded_of_meets (by decide +kernel)
  · simp only [historically_snoc_iff, historically_nil, NotOvertaken, true_and, and_true]
    constructor
    · intro ticket isOpen other behind index also
      have noPop : ∀ tid : Fin 2, openPop tid
          ([] ++ [.pushClaim 0 0 0 7] ++ [.pushStore 0 0 0 7] : List (Event (Fin 2) Nat)) = none := by
        decide
      rw [noPop] at also
      contradiction
    · intro ticket index isOpen other also
      have noPush : ∀ tid : Fin 2, openPush tid
          ([] ++ [.pushClaim 0 0 0 7] ++ [.pushStore 0 0 0 7] ++ [.pushReturn 0 true] ++
            [.popClaim 1 0 0] ++ [.popFetch 1 0 0 7] : List (Event (Fin 2) Nat)) = none := by
        decide
      rw [noPush] at also
      contradiction

end SimpleBasicComponents.LockFreeQueue
