import SimpleBasicComponents.LockFreeQueue.OpenCalls

/-!
Delivery by the lock-free queue.

Owns: which item a pop returns. `push` publishes an index before it stores the
item and `pop` releases an index before it fetches the item, so a pop returns
whatever was stored last into the slot. It is the item of the push with the
same ticket if that push is the last one that stored there before the fetch.

Tickets number the successful CASes of each side from zero; while fewer than
`2^64` pushes have claimed, ticket and index are the same number.
-/

namespace SimpleBasicComponents.LockFreeQueue

open SimpleBasicComponents.Semantics

variable {Tid T : Type*}

/-- The last store into the slot: the ticket of the push and its item. -/
def lastStore (qSize slot : QueueInt) (events : List (Event Tid T)) : Option (Nat × T) :=
  events.foldl (fun found event =>
    match event with
    | .pushStore _ ticket index item =>
        if calIndex qSize index = slot then some (ticket, item) else found
    | _ => found) none

/-- A pop that claimed an index returns the item of the push that claimed it: there is such
a push, and no other one has the ticket. -/
def Delivers [DecidableEq Tid] (earlier : List (Event Tid T)) : Event Tid T → Prop
  | .popReturn tid (some item) =>
      ∃ ticket index, openPop tid earlier = some (ticket, index) ∧
        (∃ pusher, .pushClaim pusher ticket index item ∈ earlier) ∧
        ∀ pusher other otherItem, .pushClaim pusher ticket other otherItem ∈ earlier →
          otherItem = item
  | _ => True

/-- The fetch of a pop comes after the store of the push with the same ticket,
and no other push stores into the slot in between. -/
def Timely (qSize : QueueInt) (earlier : List (Event Tid T)) : Event Tid T → Prop
  | .popFetch _ ticket index _ =>
      (lastStore qSize (calIndex qSize index) earlier).map Prod.fst = some ticket
  | _ => True

/-! ### Slots hold the last store -/

theorem lastStore_append {qSize : QueueInt} (slot : QueueInt) (events shown : List (Event Tid T))
    (noStore : ∀ tid ticket index item, .pushStore tid ticket index item ∉ shown) :
    lastStore qSize slot (events ++ shown) = lastStore qSize slot events := by
  unfold lastStore
  rw [List.foldl_append]
  induction shown using List.reverseRecOn with
  | nil => rfl
  | append_singleton shown event inductionHypothesis =>
      rw [List.foldl_append]
      have shorter := inductionHypothesis fun tid ticket index item member =>
        noStore tid ticket index item (List.mem_append_left _ member)
      rw [shorter]
      cases event with
      | pushStore tid ticket index item =>
          exact absurd (List.mem_append_right _ (List.mem_singleton_self _))
            (noStore tid ticket index item)
      | _ => rfl

theorem lastStore_snoc {qSize : QueueInt} (slot : QueueInt) (events : List (Event Tid T)) (tid : Tid)
    (ticket : Nat) (index : QueueInt) (item : T) :
    lastStore qSize slot (events ++ [.pushStore tid ticket index item]) =
      if calIndex qSize index = slot then some (ticket, item)
      else lastStore qSize slot events := by
  unfold lastStore
  rw [List.foldl_append]
  rfl

section Runs

variable [DecidableEq Tid] [Inhabited T] {qSize : QueueInt} {state next : State Tid T}
  {label : Label Tid T} {shown : List (Event Tid T)} {labels : List (Label Tid T)}
  {events : List (Event Tid T)}

theorem exec_slot (exec : (machine qSize).Exec labels state events) (slot : QueueInt) :
    state.queue.dataList slot = ((lastStore qSize slot events).map Prod.snd).getD default := by
  induction exec with
  | start => rfl
  | @step labels state next events shown label before taken inductionHypothesis =>
      have taken := step_cases qSize taken
      cases taken with
      | @pushStore tid item w ticket at_ =>
          rw [lastStore_snoc]
          simp only [State.goto_queue, State.storeSlot, Function.update_apply]
          by_cases same : slot = calIndex qSize w
          · rw [if_pos same, if_pos same.symm]
            rfl
          · rw [if_neg same, if_neg (Ne.symm same)]
            exact inductionHypothesis
      | _ =>
          rw [lastStore_append _ _ _ (by simp)]
          exact inductionHypothesis

/-! ### Stores come from claims -/

theorem exec_pending (exec : (machine qSize).Exec labels state events) :
    ∀ tid item w ticket, state.threads tid = .pushStore item w ticket →
      .pushClaim tid ticket w item ∈ events := by
  induction exec with
  | start =>
      intro tid item w ticket stands
      contradiction
  | @step labels state next events shown label before taken inductionHypothesis =>
      intro tid item w ticket stands
      have taken := step_cases qSize taken
      cases taken with
      | pushClaim at_ =>
          simp only [State.goto_threads, State.claimWrite] at stands
          split at stands
          · rename_i isClaimer
            simp only [Thread.pushStore.injEq] at stands
            obtain ⟨rfl, rfl, rfl⟩ := stands
            simp [isClaimer]
          · exact List.mem_append_left _ (inductionHypothesis _ _ _ _ stands)
      | _ =>
          simp only [State.goto_threads, State.storeSlot, State.setCount, State.claimRead] at stands
          split at stands
          · contradiction
          · exact List.mem_append_left _ (inductionHypothesis _ _ _ _ stands)

/-- What was stored last into a slot was claimed by a push with that slot. -/
theorem exec_lastStore (exec : (machine qSize).Exec labels state events) (slot : QueueInt) :
    ∀ ticket item, lastStore qSize slot events = some (ticket, item) →
      ∃ tid index, .pushClaim tid ticket index item ∈ events ∧ index = UInt64.ofNat ticket := by
  induction exec with
  | start =>
      intro ticket item stored
      contradiction
  | @step labels state next events shown label before taken inductionHypothesis =>
      intro ticket item stored
      have older : lastStore qSize slot events = some (ticket, item) →
          ∃ tid index, .pushClaim tid ticket index item ∈ events ++ shown ∧
            index = UInt64.ofNat ticket := by
        intro found
        obtain ⟨tid, index, member, value⟩ := inductionHypothesis ticket item found
        exact ⟨tid, index, List.mem_append_left _ member, value⟩
      have taken := step_cases qSize taken
      cases taken with
      | @pushStore tid stored_ w storeTicket at_ =>
          rw [lastStore_snoc] at stored
          split at stored
          · simp only [Option.some.injEq, Prod.mk.injEq] at stored
            obtain ⟨rfl, rfl⟩ := stored
            have claimed := exec_pending before _ _ _ _ at_
            have numbered := (exec_numbered before).pushStore _ _ _ _ at_
            exact ⟨tid, w, List.mem_append_left _ claimed, numbered.1⟩
          · exact older stored
      | _ => exact older (by rwa [lastStore_append _ _ _ (by simp)] at stored)

/-- A ticket is claimed by one push. -/
theorem exec_pushTicket (exec : (machine qSize).Exec labels state events) :
    (∀ tid ticket index item, .pushClaim tid ticket index item ∈ events →
        ticket < state.pushes) ∧
      ∀ tid ticket index item otherTid otherIndex otherItem,
        .pushClaim tid ticket index item ∈ events →
        .pushClaim otherTid ticket otherIndex otherItem ∈ events → item = otherItem := by
  induction exec with
  | start => simp
  | @step labels state next events shown label before taken inductionHypothesis =>
      have taken := step_cases qSize taken
      obtain ⟨numbered, unique⟩ := inductionHypothesis
      cases taken with
      | @pushClaim claimer claimed r at_ =>
          have bound : ∀ tid ticket index item,
              .pushClaim tid ticket index item ∈ events ++
                [Event.pushClaim claimer state.pushes state.queue.mWriteIndex claimed] →
              .pushClaim tid ticket index item ∈ events ∧ ticket < state.pushes ∨
                ticket = state.pushes ∧ item = claimed := by
            intro tid ticket index item member
            rcases List.mem_append.mp member with old | new
            · exact .inl ⟨old, numbered _ _ _ _ old⟩
            · simp only [List.mem_singleton, Event.pushClaim.injEq] at new
              exact .inr ⟨new.2.1, new.2.2.2⟩
          constructor
          · intro tid ticket index item member
            simp only [State.goto_pushes, State.claimWrite]
            rcases bound _ _ _ _ member with ⟨-, below⟩ | ⟨last, -⟩ <;> omega
          · intro tid ticket index item otherTid otherIndex otherItem member otherMember
            rcases bound _ _ _ _ member with ⟨old, below⟩ | ⟨last, isClaimed⟩ <;>
              rcases bound _ _ _ _ otherMember with ⟨otherOld, otherBelow⟩ | ⟨otherLast, otherIs⟩
            · exact unique _ _ _ _ _ _ _ old otherOld
            · omega
            · omega
            · rw [isClaimed, otherIs]
      | _ => simpa using ⟨numbered, unique⟩

/-! ### Delivery -/

/-- A thread that has fetched has the item of the push with its ticket. -/
def Fetched (state : State Tid T) (events : List (Event Tid T)) : Prop :=
  ∀ tid item, state.threads tid = .popSub item →
    ∃ pusher ticket index, openPop tid events = some (ticket, index) ∧
      .pushClaim pusher ticket index item ∈ events

theorem exec_fetched (exec : (machine qSize).Exec labels state events)
    (timely : Historically (Timely qSize) events) : Fetched state events := by
  induction exec with
  | start =>
      intro tid item stands
      contradiction
  | @step labels state next events shown label before taken inductionHypothesis =>
      have fetched := inductionHypothesis timely.earlier
      have opened := exec_open before
      have taken := step_cases qSize taken
      intro other found stands
      cases taken with
      | @popFetch tid r ticket at_ =>
          have held := opened.pop tid
          rw [at_] at held
          rw [openPop_snoc]
          rw [State.goto_threads] at stands
          split at stands
          · rename_i same
            have last := (historically_snoc_iff.mp timely).2
            simp only [Timely, Option.map_eq_some_iff, Prod.exists] at last
            obtain ⟨storeTicket, item, stored, rfl⟩ := last
            have holds : state.queue.dataList (calIndex qSize r) = item := by
              rw [exec_slot before, stored]
              rfl
            obtain ⟨pusher, index, member, indexValue⟩ := exec_lastStore before _ _ _ stored
            have indexIs : r = index := by
              rw [indexValue, ((exec_numbered before).popFetch _ _ _ at_).1]
            have itemIs : item = found := by
              rw [← holds]
              exact Thread.popSub.inj stands
            rw [← indexIs, itemIs] at member
            rw [same]
            exact ⟨pusher, storeTicket, r, held, List.mem_append_left _ member⟩
          · obtain ⟨pusher, storeTicket, index, isOpen, member⟩ := fetched other found stands
            exact ⟨pusher, storeTicket, index, isOpen, List.mem_append_left _ member⟩
      | _ =>
          simp only [State.goto_threads, State.claimWrite, State.claimRead, State.storeSlot,
            State.setCount] at stands
          split at stands
          · contradiction
          · rename_i apart
            obtain ⟨pusher, ticket, index, isOpen, member⟩ := fetched other found stands
            refine ⟨pusher, ticket, index, ?_, List.mem_append_left _ member⟩
            -- The call that is open is not the one of the thread that moves.
            first
            | rwa [List.append_nil]
            | rw [openPop_snoc, isOpen]
              simp [notePop, Ne.symm apart]

end Runs

/-! ### The overtaken store -/

attribute [local instance] twoThreads

/-- With `Q_SIZE = 2`: thread 0 claims index 0 for item 7 and is overtaken by a
pop of thread 1 before it stores. -/
def overtakenStore : List (Label (Fin 2) Nat) :=
  [.push 0 7, .advance 0, .advance 0, .advance 0] ++ .pop 1 :: List.replicate 5 (.advance 1)

private theorem overtakenStore_exec :
    ∃ state, (machine 2).Exec overtakenStore state
      [.pushClaim 0 0 0 7, .popClaim 1 0 0, .popFetch 1 0 0 0, .popReturn 1 (some 0)] :=
  ⟨_, (machine 2).exec_of_run rfl⟩

/-- Thread 0 finishes its push before thread 1 pops. -/
def storedInTime : List (Label (Fin 2) Nat) :=
  .push 0 7 :: List.replicate 5 (.advance 0) ++ .pop 1 :: List.replicate 5 (.advance 1)

end SimpleBasicComponents.LockFreeQueue
