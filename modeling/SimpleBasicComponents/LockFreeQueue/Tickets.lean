import Mathlib.Algebra.GroupWithZero.Nat
import Mathlib.Data.List.Range
import Mathlib.Data.List.Nodup
import SimpleBasicComponents.LockFreeQueue.Model
import SimpleBasicComponents.Semantics.History

/-!
Tickets of the lock-free queue.

Owns: the claims a history shows, the fact that both indices count their
successful CASes modulo `2^64`, and the order between them. A stale index only
ever lies below the current one, so the emptiness test of `pop`, made on a
stale write index, together with the CAS on the read index, keeps the read
index at or below the write index, whatever the capacity test did.
-/

namespace SimpleBasicComponents.LockFreeQueue

open SimpleBasicComponents.Semantics

variable {Tid T : Type*}

/-! ### What a history claims -/

def Event.writeClaim? : Event Tid T → Option QueueInt
  | .pushClaim _ _ index _ => some index
  | _ => none

def Event.readClaim? : Event Tid T → Option QueueInt
  | .popClaim _ _ index => some index
  | _ => none

/-- The write indices claimed by pushes, in order. -/
def writeClaims (events : List (Event Tid T)) : List QueueInt :=
  events.filterMap Event.writeClaim?

/-- The read indices claimed by pops, in order. -/
def readClaims (events : List (Event Tid T)) : List QueueInt :=
  events.filterMap Event.readClaim?

/-- The first `count` indices, as the 64-bit counter takes them. -/
def indicesBelow (count : Nat) : List QueueInt := (List.range count).map UInt64.ofNat

theorem indicesBelow_succ (count : Nat) :
    indicesBelow (count + 1) = indicesBelow count ++ [UInt64.ofNat count] := by
  simp [indicesBelow, List.range_succ]

@[simp] theorem indicesBelow_length (count : Nat) : (indicesBelow count).length = count := by
  simp [indicesBelow]

/-- Below `2^64` every index of the range occurs once. -/
theorem count_indicesBelow {count : Nat} (small : count < 2 ^ 64) {index : QueueInt}
    (below : index.toNat < count) : (indicesBelow count).count index = 1 := by
  apply List.count_eq_one_of_mem
  · apply List.Nodup.map_on _ List.nodup_range
    intro left leftMember right rightMember same
    have leftSmall := (List.mem_range.mp leftMember).trans small
    have rightSmall := (List.mem_range.mp rightMember).trans small
    have values := congrArg UInt64.toNat same
    rwa [UInt64.toNat_ofNat_of_lt' leftSmall, UInt64.toNat_ofNat_of_lt' rightSmall] at values
  · exact List.mem_map.mpr ⟨index.toNat, List.mem_range.mpr below, UInt64.ofNat_toNat⟩

/-! ### The indices count the claims -/

/-- The indices, and the indices threads have claimed, are the ghost counters
and tickets modulo `2^64`. -/
structure Numbered (state : State Tid T) : Prop where
  write : state.queue.mWriteIndex = UInt64.ofNat state.pushes
  read : state.queue.mReadIndex = UInt64.ofNat state.pops
  pushStore : ∀ tid item w ticket, state.threads tid = .pushStore item w ticket →
    w = UInt64.ofNat ticket ∧ ticket < state.pushes
  popFetch : ∀ tid r ticket, state.threads tid = .popFetch r ticket →
    r = UInt64.ofNat ticket ∧ ticket < state.pops

section Runs

variable [DecidableEq Tid] {qSize : QueueInt} {state next : State Tid T} {label : Label Tid T}
  {shown : List (Event Tid T)}

theorem Step.numbered (taken : Step qSize state label next shown) (numbered : Numbered state) :
    Numbered next := by
  cases taken with
  | pushClaim at_ =>
      refine ⟨?_, numbered.read, ?_, ?_⟩
      · simp [State.claimWrite, numbered.write]
      · intro tid item w ticket stands
        simp only [State.goto_threads, State.claimWrite] at stands
        split at stands
        · simp only [Thread.pushStore.injEq] at stands
          obtain ⟨-, rfl, rfl⟩ := stands
          exact ⟨numbered.write, Nat.lt_succ_self _⟩
        · have old := numbered.pushStore _ _ _ _ stands
          exact ⟨old.1, Nat.lt_succ_of_lt old.2⟩
      · intro tid r ticket stands
        simp only [State.goto_threads, State.claimWrite] at stands
        split at stands
        · contradiction
        · exact numbered.popFetch _ _ _ stands
  | popClaim at_ =>
      refine ⟨numbered.write, ?_, ?_, ?_⟩
      · simp [State.claimRead, numbered.read]
      · intro tid item w ticket stands
        simp only [State.goto_threads, State.claimRead] at stands
        split at stands
        · contradiction
        · exact numbered.pushStore _ _ _ _ stands
      · intro tid r ticket stands
        simp only [State.goto_threads, State.claimRead] at stands
        split at stands
        · simp only [Thread.popFetch.injEq] at stands
          obtain ⟨rfl, rfl⟩ := stands
          exact ⟨numbered.read, Nat.lt_succ_self _⟩
        · have old := numbered.popFetch _ _ _ stands
          exact ⟨old.1, Nat.lt_succ_of_lt old.2⟩
  | _ =>
      refine ⟨numbered.write, numbered.read, ?_, ?_⟩ <;> intros <;> rename_i stands <;>
        simp only [State.goto_threads, State.storeSlot, State.setCount] at stands <;>
        split at stands
      all_goals first | contradiction | skip
      · exact numbered.pushStore _ _ _ _ stands
      · exact numbered.popFetch _ _ _ stands

theorem step_writeClaims (taken : Step qSize state label next shown) (numbered : Numbered state) :
    indicesBelow state.pushes ++ writeClaims shown = indicesBelow next.pushes := by
  cases taken with
  | pushClaim at_ =>
      have grown := indicesBelow_succ state.pushes
      simp [writeClaims, Event.writeClaim?, State.claimWrite, numbered.write, grown]
  | _ => simp [writeClaims, Event.writeClaim?, State.storeSlot, State.setCount, State.claimRead]

theorem step_readClaims (taken : Step qSize state label next shown) (numbered : Numbered state) :
    indicesBelow state.pops ++ readClaims shown = indicesBelow next.pops := by
  cases taken with
  | popClaim at_ =>
      have grown := indicesBelow_succ state.pops
      simp [readClaims, Event.readClaim?, State.claimRead, numbered.read, grown]
  | _ => simp [readClaims, Event.readClaim?, State.storeSlot, State.setCount, State.claimWrite]

theorem Step.pushes_le (taken : Step qSize state label next shown) :
    state.pushes ≤ next.pushes := by
  cases taken <;> simp [State.claimWrite, State.claimRead, State.storeSlot, State.setCount]

theorem Step.pops_le (taken : Step qSize state label next shown) : state.pops ≤ next.pops := by
  cases taken <;> simp [State.claimWrite, State.claimRead, State.storeSlot, State.setCount]

/-! ### The order of the two indices -/

/-- What the loaded indices of a thread are worth once others have moved on:
they lie at or below the current ones, and a pop about to CAS has loaded a read
index below a write index. -/
def LoadedBelow (pushes pops : Nat) : Thread T → Prop
  | .pushLoadWrite _ r => r.toNat ≤ pops
  | .pushCas _ r w => r.toNat ≤ pops ∧ w.toNat ≤ pushes
  | .popLoadWrite r => r.toNat ≤ pops
  | .popCas r w => r.toNat ≤ pops ∧ r.toNat < w.toNat ∧ w.toNat ≤ pushes
  | _ => True

theorem LoadedBelow.mono {pushes pops morePushes morePops : Nat} {thread : Thread T}
    (loaded : LoadedBelow pushes pops thread) (pushesLe : pushes ≤ morePushes)
    (popsLe : pops ≤ morePops) : LoadedBelow morePushes morePops thread := by
  cases thread <;> simp only [LoadedBelow] at loaded ⊢ <;> omega

structure Ordered (state : State Tid T) : Prop where
  popsLe : state.pops ≤ state.pushes
  loaded : ∀ tid, LoadedBelow state.pushes state.pops (state.threads tid)

/-- Moving one thread keeps the order if the new control point respects it. -/
private theorem loaded_goto (state : State Tid T) {pushes pops : Nat}
    (loaded : ∀ tid, LoadedBelow pushes pops (state.threads tid)) {tid : Tid} {point : Thread T}
    (pointLoaded : LoadedBelow pushes pops point) (other : Tid) :
    LoadedBelow pushes pops ((state.goto tid point).threads other) := by
  rw [State.goto_threads]
  split
  · exact pointLoaded
  · exact loaded other

theorem Step.ordered (taken : Step qSize state label next shown) (numbered : Numbered state)
    (few : next.pushes < 2 ^ 64) (ordered : Ordered state) : Ordered next := by
  have pushesFew : state.pushes < 2 ^ 64 := lt_of_le_of_lt taken.pushes_le few
  have writeValue : state.queue.mWriteIndex.toNat = state.pushes := by
    rw [numbered.write, UInt64.toNat_ofNat_of_lt' pushesFew]
  have readValue : state.queue.mReadIndex.toNat = state.pops := by
    rw [numbered.read, UInt64.toNat_ofNat_of_lt' (lt_of_le_of_lt ordered.popsLe pushesFew)]
  cases taken with
  | pushClaim at_ =>
      refine ⟨Nat.le_succ_of_le ordered.popsLe, ?_⟩
      have grown : ∀ tid, LoadedBelow (state.pushes + 1) state.pops (state.threads tid) :=
        fun tid => (ordered.loaded tid).mono (Nat.le_succ _) le_rfl
      exact loaded_goto (state.claimWrite _) grown trivial
  | @popClaim tid w at_ =>
      have claimed := ordered.loaded tid
      rw [at_] at claimed
      simp only [LoadedBelow, readValue] at claimed
      refine ⟨show state.pops + 1 ≤ state.pushes by omega, ?_⟩
      have grown : ∀ tid, LoadedBelow state.pushes (state.pops + 1) (state.threads tid) :=
        fun tid => (ordered.loaded tid).mono le_rfl (Nat.le_succ _)
      exact loaded_goto (state.claimRead _) grown trivial
  | @pushLoadWrite tid item r at_ room =>
      have read := ordered.loaded tid
      rw [at_] at read
      exact ⟨ordered.popsLe, loaded_goto state ordered.loaded ⟨read, writeValue.le⟩⟩
  | @popLoadWrite tid r at_ stored =>
      have read := ordered.loaded tid
      rw [at_] at read
      have different : r.toNat ≠ state.queue.mWriteIndex.toNat := by
        intro same
        exact stored (congrArg (calIndex qSize) (UInt64.toNat_inj.mp same))
      have popsLe := ordered.popsLe
      simp only [LoadedBelow] at read
      have below : r.toNat < state.queue.mWriteIndex.toNat := by omega
      exact ⟨ordered.popsLe, loaded_goto state ordered.loaded ⟨read, below, writeValue.le⟩⟩
  | pushLoadRead at_ => exact ⟨ordered.popsLe, loaded_goto state ordered.loaded readValue.le⟩
  | popLoadRead at_ => exact ⟨ordered.popsLe, loaded_goto state ordered.loaded readValue.le⟩
  | pushStore at_ =>
      exact ⟨ordered.popsLe, loaded_goto (state.storeSlot _ _) ordered.loaded trivial⟩
  | pushAdd at_ =>
      exact ⟨ordered.popsLe, loaded_goto (state.setCount _) ordered.loaded trivial⟩
  | popSub at_ =>
      exact ⟨ordered.popsLe, loaded_goto (state.setCount _) ordered.loaded trivial⟩
  | _ => exact ⟨ordered.popsLe, loaded_goto state ordered.loaded trivial⟩

/-! ### Whole runs -/

variable [Inhabited T] {labels : List (Label Tid T)} {events : List (Event Tid T)}

theorem exec_numbered (exec : (machine qSize).Exec labels state events) : Numbered state := by
  induction exec with
  | start =>
      refine ⟨rfl, rfl, ?_, ?_⟩
      · intro tid item w ticket stands
        contradiction
      · intro tid r ticket stands
        contradiction
  | step before taken inductionHypothesis => exact (step_cases qSize taken).numbered inductionHypothesis

/-- The pushes of a run claim the indices in order, and so do the pops. -/
theorem exec_claims (exec : (machine qSize).Exec labels state events) :
    writeClaims events = indicesBelow state.pushes ∧
      readClaims events = indicesBelow state.pops := by
  induction exec with
  | start => exact ⟨rfl, rfl⟩
  | @step labels state next events shown label before taken inductionHypothesis =>
      have numbered := exec_numbered before
      have taken := step_cases qSize taken
      have writes : writeClaims (events ++ shown) = writeClaims events ++ writeClaims shown :=
        List.filterMap_append
      have reads : readClaims (events ++ shown) = readClaims events ++ readClaims shown :=
        List.filterMap_append
      rw [writes, reads, inductionHypothesis.1, inductionHypothesis.2]
      exact ⟨step_writeClaims taken numbered, step_readClaims taken numbered⟩

theorem exec_pushes (exec : (machine qSize).Exec labels state events) :
    state.pushes = (writeClaims events).length := by
  rw [(exec_claims exec).1, indicesBelow_length]

theorem exec_ordered (exec : (machine qSize).Exec labels state events)
    (few : state.pushes < 2 ^ 64) : Ordered state := by
  induction exec with
  | start => exact ⟨le_rfl, fun tid => trivial⟩
  | step before taken inductionHypothesis =>
      have taken := step_cases qSize taken
      have earlierFew := lt_of_le_of_lt taken.pushes_le few
      exact taken.ordered (exec_numbered before) few (inductionHypothesis earlierFew)

/-- While fewer than `2^64` pushes have claimed, the indices are the counts. -/
theorem exec_indices (exec : (machine qSize).Exec labels state events)
    (few : state.pushes < 2 ^ 64) :
    state.queue.mWriteIndex.toNat = state.pushes ∧ state.queue.mReadIndex.toNat = state.pops := by
  have numbered := exec_numbered exec
  have ordered := exec_ordered exec few
  rw [numbered.write, numbered.read]
  exact ⟨UInt64.toNat_ofNat_of_lt' few, UInt64.toNat_ofNat_of_lt' (lt_of_le_of_lt ordered.popsLe few)⟩

/-- A pop claims an index some push has claimed before. -/
def ReadAfterWrite (earlier : List (Event Tid T)) : Event Tid T → Prop
  | .popClaim _ _ index => index ∈ writeClaims earlier
  | _ => True

theorem exec_readAfterWrite (exec : (machine qSize).Exec labels state events)
    (few : state.pushes < 2 ^ 64) : Historically ReadAfterWrite events := by
  induction exec with
  | start => exact historically_nil
  | @step labels state next events shown label before taken inductionHypothesis =>
      have taken := step_cases qSize taken
      have earlierFew := lt_of_le_of_lt taken.pushes_le few
      have past := inductionHypothesis earlierFew
      have ordered := exec_ordered before earlierFew
      cases taken with
      | @popClaim tid w at_ =>
          refine historically_snoc_iff.mpr ⟨past, ?_⟩
          have claimed := ordered.loaded tid
          rw [at_] at claimed
          have values := exec_indices before earlierFew
          simp only [LoadedBelow] at claimed
          simp only [ReadAfterWrite, (exec_claims before).1]
          apply List.mem_map.mpr
          exact ⟨_, List.mem_range.mpr (by omega), UInt64.ofNat_toNat⟩
      | _ => first
          | exact historically_snoc_iff.mpr ⟨past, trivial⟩
          | simpa using past

end Runs

/-! ### Tickets -/

/-- Every index below either end was claimed once, by a push and then by a
pop, and the read index never passes the write index. Nothing is assumed of
`Q_SIZE`. -/
theorem tickets_claimed_once [DecidableEq Tid] [Inhabited T] {qSize : QueueInt}
    {labels : List (Label Tid T)} {state : State Tid T} {events : List (Event Tid T)}
    (exec : (machine qSize).Exec labels state events)
    (few : (writeClaims events).length < 2 ^ 64) :
    state.queue.mReadIndex ≤ state.queue.mWriteIndex ∧
      (∀ index < state.queue.mWriteIndex, (writeClaims events).count index = 1) ∧
      (∀ index < state.queue.mReadIndex, (readClaims events).count index = 1) ∧
      (∀ earlier tid ticket index later,
        events = earlier ++ .popClaim tid ticket index :: later →
          index ∈ writeClaims earlier) := by
  rw [← exec_pushes exec] at few
  have values := exec_indices exec few
  have popsLe := (exec_ordered exec few).popsLe
  refine ⟨?_, ?_, ?_, ?_⟩
  · rw [UInt64.le_iff_toNat_le]
    omega
  · intro index below
    rw [UInt64.lt_iff_toNat_lt, values.1] at below
    rw [(exec_claims exec).1]
    exact count_indicesBelow few below
  · intro index below
    rw [UInt64.lt_iff_toNat_lt, values.2] at below
    rw [(exec_claims exec).2]
    exact count_indicesBelow (lt_of_le_of_lt popsLe few) below
  · intro earlier tid ticket index later split
    exact exec_readAfterWrite exec few earlier _ later split

/-- So that `0` and `1` name the two threads of an example. -/
theorem twoThreads : NeZero 2 := ⟨by decide⟩

attribute [local instance] twoThreads

/-- One thread pushes and another pops the pushed index. -/
def pushThenPop : List (Label (Fin 2) Nat) :=
  [.push 0 7, .advance 0, .advance 0, .advance 0, .pop 1, .advance 1, .advance 1, .advance 1]

theorem tickets_claimed_once_pushThenPop :
    ∃ state events, (machine 2).Exec pushThenPop state events ∧
      state.queue.mReadIndex = 1 ∧ (readClaims events).count 0 = 1 := by
  have exec := (machine 2).exec_of_isSome pushThenPop (by decide)
  exact ⟨_, _, exec, by decide, (tickets_claimed_once exec (by decide)).2.2.1 0 (by decide)⟩

end SimpleBasicComponents.LockFreeQueue
