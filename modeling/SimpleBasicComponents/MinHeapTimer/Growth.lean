import SimpleBasicComponents.MinHeapTimer.Heap

/-!
The block of the min-heap timer and what a push touches of it.

Owns: the reads and writes of `list` by `mhp_timer_push` and `adjust_up`, the
requirement that each is inside of the block and that a growth keeps the
entries, and the exact number of pushes for which both are met. `reserve` is
asked for `last + 1`, which is the index of the new entry and not the number of
entries, so the block does not grow when it is full; and where it grows it is
asked for as many bytes as it should have pointers.
-/

namespace SimpleBasicComponents.MinHeapTimer

open SimpleBasicComponents.Semantics

/-! ### Accesses -/

/-- A read or a write of `list[index]` while so many pointers are allocated. -/
structure Access where
  index : Nat
  cells : Nat
deriving DecidableEq, Repr

def Access.Inside (access : Access) : Prop := access.index < access.cells

instance (access : Access) : Decidable access.Inside := inferInstanceAs (Decidable (_ < _))

/-- `list[parent]` and `list[pos]` are read for the test and exchanged after it. -/
def adjustUpTurnAccesses : List (Option TimerEntry) × UInt32 → List Access
  | (list, pos) =>
      if pos > 0 then [⟨((pos - 1) >>> 1).toNat, list.length⟩, ⟨pos.toNat, list.length⟩] else []

def adjustUpAccesses (fuel : Nat) (list : List (Option TimerEntry)) (pos : UInt32) : List Access :=
  (visited adjustUpTurn fuel (list, pos)).flatMap adjustUpTurnAccesses

/-- All accesses of a push, in order, up to `fuel` turns of `adjust_up`. -/
def mhpTimerPushAccesses (fuel : Nat) (timer : MhpTimer) (entry : TimerEntry)
    (memory granted : Bool) : List Access :=
  if memory then
    ⟨0, timer.list.length⟩ ::
      match timer.list[0]? with
      | none => []
      | some none => [⟨0, timer.list.length⟩]
      | some (some _) =>
          match reserve timer (timer.last + 1) granted with
          | none => []
          | some timer =>
              let last := timer.last + 1
              ⟨last.toNat, timer.list.length⟩ ::
                adjustUpAccesses fuel (timer.list.set last.toNat (some entry)) last
  else []

/-- The entries are where they were after the growth, if there is one. -/
def Survives (timer : MhpTimer) (granted : Bool) : Prop :=
  ∀ grown, reserve timer (timer.last + 1) granted = some grown →
    ∀ index ≤ timer.last.toNat, cell grown.list index = cell timer.list index

def PushSafe (fuel : Nat) (session : Session) : Call → Prop
  | .push expire callback arg memory granted =>
      (∀ access ∈ mhpTimerPushAccesses fuel session.timer ⟨session.allocations, expire, callback, arg⟩
        memory granted, access.Inside) ∧ Survives session.timer granted
  | .pop => True

/-! ### Within the capacity -/

private theorem swapPtr_length {list swapped : List (Option TimerEntry)} {left right : UInt32}
    (swaps : swapPtr list left right = some swapped) : swapped.length = list.length := by
  unfold swapPtr at swaps
  split at swaps
  · rw [← Option.some.inj swaps, List.length_set, List.length_set]
  · contradiction

private theorem adjustUpTurn_again {list : List (Option TimerEntry)} {pos : UInt32}
    {next : List (Option TimerEntry) × UInt32} (goesOn : adjustUpTurn (list, pos) = .again next) :
    pos > 0 ∧ next.1.length = list.length ∧ next.2 = (pos - 1) >>> 1 := by
  simp only [adjustUpTurn] at goesOn
  split at goesOn
  · rename_i positive
    split at goesOn
    · split at goesOn
      · split at goesOn
        · rename_i swapped swaps
          rw [← Turn.again.inj goesOn]
          exact ⟨positive, swapPtr_length swaps, rfl⟩
        · contradiction
      · contradiction
    · contradiction
  · contradiction

/-- `adjust_up` stays between the root and the new entry. -/
theorem adjustUpAccesses_inside {fuel : Nat} {list : List (Option TimerEntry)} {pos : UInt32}
    (inside : pos.toNat < list.length) : ∀ access ∈ adjustUpAccesses fuel list pos, access.Inside := by
  intro access member
  have ⟨⟨current, at_⟩, passed, touched⟩ := List.mem_flatMap.mp member
  have stays := @visited_of_invariant _ _ adjustUpTurn (list, pos) fuel
    (fun state => state.2.toNat < state.1.length) ?_ inside _ passed
  · simp only [adjustUpTurnAccesses] at touched
    split at touched
    · rename_i positive
      have notRoot : 0 < at_.toNat := UInt32.lt_iff_toNat_lt.mp positive
      rcases List.mem_cons.mp touched with rfl | touched
      · have isParent := parent_toNat notRoot
        simp only [Access.Inside] at stays ⊢
        omega
      · rw [List.mem_singleton.mp touched]
        exact stays
    · simp at touched
  · intro state next within goesOn
    have ⟨positive, length, isParent⟩ := adjustUpTurn_again goesOn
    have higher := parent_toNat (UInt32.lt_iff_toNat_lt.mp positive)
    rw [length, isParent, higher]
    omega

section

variable {size : UInt32} {fuel : Nat} {calls : List Call} {session : Session} {events : List Event}

/-- No push that the timer has room for grows the block. -/
theorem Filled.reserve_eq (filled : Filled size calls session events) (granted : Bool) :
    reserve session.timer (session.timer.last + 1) granted = some session.timer := by
  by_cases isEmpty : pushes calls = 0
  · have atZero : session.timer.last = 0 := by
      rw [← UInt32.toNat_inj, filled.sound.range.last, isEmpty]
      rfl
    have noGrowth : ¬ session.timer.last + 1 > session.timer.amount := by
      rw [atZero, filled.sound.amount, gt_iff_lt, UInt32.not_lt, UInt32.le_iff_toNat_le]
      exact Nat.le_trans (by decide) (capacity_ge size)
    rw [reserve, if_neg noGrowth]
  · exact filled.sound.reserve_eq isEmpty granted

theorem Filled.survives (filled : Filled size calls session events) (granted : Bool) :
    Survives session.timer granted := by
  intro grown reserved index inside
  rw [filled.reserve_eq] at reserved
  rw [Option.some.inj reserved]

private theorem Filled.length_eq (filled : Filled size calls session events) :
    session.timer.list.length = capacity size := by
  rw [filled.sound.length, filled.sound.amount]
  rfl

/-- What a push that finds memory touches once the timer is not empty. -/
private theorem Filled.accesses_eq (filled : Filled size calls session events) (entry : TimerEntry)
    (granted : Bool) (notEmpty : pushes calls ≠ 0) :
    mhpTimerPushAccesses fuel session.timer entry true granted =
      ⟨0, capacity size⟩ :: ⟨pushes calls, capacity size⟩ ::
        adjustUpAccesses fuel (session.timer.list.set (pushes calls) (some entry))
          (session.timer.last + 1) := by
  have ⟨root, isRoot⟩ := filled.sound.range.full 0 (by omega)
  simp only [mhpTimerPushAccesses, if_true, filled.sound.list_zero, isRoot, filled.reserve_eq,
    filled.sound.last_succ notEmpty, filled.length_eq]

theorem Filled.pushSafe (filled : Filled size calls session events) {call : Call}
    (room : call.adds = true → pushes calls < capacity size) : PushSafe fuel session call := by
  cases call with
  | pop => exact trivial
  | push expire callback arg memory granted =>
      refine ⟨?_, filled.survives granted⟩
      intro access member
      have nonempty := capacity_pos size
      cases memory with
      | false => simp [mhpTimerPushAccesses] at member
      | true =>
          have room := room rfl
          by_cases isEmpty : pushes calls = 0
          · have isNull := filled.sound.range.empty isEmpty
            simp only [mhpTimerPushAccesses, if_true, filled.sound.list_zero, isNull,
              filled.length_eq] at member
            have isRoot : access = ⟨0, capacity size⟩ := by simpa using member
            rw [isRoot]
            exact nonempty
          · rw [filled.accesses_eq _ _ isEmpty] at member
            rcases List.mem_cons.mp member with rfl | member
            · exact nonempty
            · rcases List.mem_cons.mp member with rfl | member
              · exact room
              · apply adjustUpAccesses_inside _ access member
                rw [filled.sound.last_succ isEmpty, List.length_set, filled.length_eq]
                exact room

/-! ### At the capacity -/

/-- The new entry is written right behind the block. -/
theorem Filled.not_pushSafe (filled : Filled size calls session events)
    (isFull : pushes calls = capacity size) {call : Call} (adds : call.adds = true) :
    ¬ PushSafe fuel session call := by
  have nonempty := capacity_pos size
  cases call with
  | pop => contradiction
  | push expire callback arg memory granted =>
      intro ⟨inside, _⟩
      have found : memory = true := adds
      rw [found, filled.accesses_eq _ _ (by omega)] at inside
      have written := inside ⟨pushes calls, capacity size⟩ (by simp)
      rw [isFull] at written
      exact Nat.lt_irrefl _ written

/-- Were the block to grow by one entry, it would be left with fewer than before. -/
theorem reserve_shrinks {timer grown : MhpTimer} (block : timer.list.length = timer.amount.toNat)
    (notNone : timer.amount ≠ 0) (small : timer.amount.toNat + 1 < 2 ^ 32)
    (grows : reserve timer (timer.amount + 1) true = some grown) :
    grown.list.length < timer.list.length := by
  have more := succ_toNat small
  have isMore : timer.amount + 1 > timer.amount := by
    rw [gt_iff_lt, UInt32.lt_iff_toNat_lt, more]
    exact Nat.lt_succ_self _
  have positive : 0 < timer.amount.toNat := by
    apply Nat.pos_of_ne_zero
    exact fun zero => notNone (UInt32.toNat_inj.mp zero)
  have doubled : (timer.amount * 2).toNat ≤ timer.amount.toNat * 2 := by
    rw [UInt32.toNat_mul]
    exact Nat.mod_le _ _
  simp only [reserve, if_pos isMore, if_true, Option.some.injEq] at grows
  rw [← grows]
  simp only [realloc, List.length_append, List.length_take, List.length_replicate, block]
  split <;> omega

/-- Pushes touch nothing outside of the block, and lose no entry, exactly as long
as there are no more of them than the created capacity. -/
theorem pushesSafe_iff (enough : capacity size ≤ fuel) (onlyPushes : ∀ call ∈ calls, call ≠ .pop) :
    (machine fuel size).Guarded (PushSafe fuel) calls ↔ pushes calls ≤ capacity size := by
  induction calls using List.reverseRecOn with
  | nil => exact ⟨fun _ => Nat.zero_le _, fun _ => Machine.guarded_nil⟩
  | append_singleton calls call inductionHypothesis =>
      have before : ∀ other ∈ calls, other ≠ .pop := fun other member =>
        onlyPushes other (List.mem_append_left _ member)
      rw [Machine.guarded_snoc_iff, inductionHypothesis before, pushes_snoc]
      constructor
      · intro ⟨within, atEnd⟩
        by_contra beyond
        have adds : call.adds = true := by
          by_contra fails
          rw [if_neg fails] at beyond
          omega
        rw [if_pos adds] at beyond
        have ⟨session, events, exec⟩ := exec_of_within enough before within
        have filled := filled_of_exec enough exec before
        exact filled.not_pushSafe (by omega) adds (atEnd session events exec)
      · intro within
        refine ⟨by omega, fun session events exec => ?_⟩
        apply (filled_of_exec enough exec before).pushSafe
        intro adds
        rw [if_pos adds] at within
        exact within

end

/-! ### Pushes that fit and pushes that do not -/

theorem fourPushes_safe_iff :
    (machine 9 9).Guarded (PushSafe 9) fourPushes ↔ pushes fourPushes ≤ capacity 9 :=
  pushesSafe_iff (by decide) (by decide)

def ninePushes : List Call := List.replicate 9 (.push 0 0 0 true true)

/-- The tenth push writes `list[9]` of nine pointers. -/
theorem tenPushes_not_safe :
    ¬ (machine 9 9).Guarded (PushSafe 9) (ninePushes ++ [.push 0 0 0 true true]) := by
  intro guarded
  have exec := (machine 9 9).exec_of_isSome ninePushes (by decide)
  have ⟨inside, _⟩ := guarded ninePushes _ _ _ List.prefix_rfl exec
  have written : (⟨9, 9⟩ : Access).Inside := inside ⟨9, 9⟩ (by decide)
  exact absurd written (by decide)

end SimpleBasicComponents.MinHeapTimer
