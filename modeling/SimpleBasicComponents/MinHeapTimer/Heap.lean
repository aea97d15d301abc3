import Mathlib.Data.List.Nodup
import Mathlib.Data.List.ReduceOption
import SimpleBasicComponents.MinHeapTimer.Pending
import SimpleBasicComponents.Semantics.BinaryHeap
import SimpleBasicComponents.Semantics.Ensures

/-!
The heap order of the min-heap timer under `mhp_timer_push`.

Owns: `list[0..last]` as a heap of expiry times, its preservation by `adjust_up`
and by a push, and what every run of pushes within the created capacity leaves
in the timer. Pushes beyond the capacity are refused: the block then has no cell
for the new entry.
-/

namespace SimpleBasicComponents.MinHeapTimer

open SimpleBasicComponents.Semantics
open SimpleBasicComponents.Semantics.BinaryHeap

/-! ### Requirements -/

/-- Each entry of `list[0..last]` expires no earlier than the one at `(index - 1) / 2`. -/
def HeapOrdered (timer : MhpTimer) : Prop :=
  ∀ index ≤ timer.last.toNat, index ≠ 0 → ∃ above entry,
    cell timer.list ((index - 1) / 2) = some above ∧ cell timer.list index = some entry ∧
      above.expire ≤ entry.expire

/-- The entries of `list[0..last]`. -/
def entries (timer : MhpTimer) : List TimerEntry :=
  (timer.list.take (timer.last.toNat + 1)).reduceOption

/-- The entry that a call pushes, if it is this allocation and finds memory. -/
def Call.entry (ordinal : Nat) : Call → Option TimerEntry
  | .push expire callback arg true _ => some ⟨ordinal, expire, callback, arg⟩
  | _ => none

def pushedEntries (calls : List Call) : List TimerEntry :=
  calls.zipIdx.filterMap fun (call, ordinal) => call.entry ordinal

/-- `mhp_timer_top` is one of the entries, none of which expires earlier. -/
def TopMinimum (timer : MhpTimer) (pushed : List TimerEntry) : Prop :=
  ∃ entry, mhpTimerTop timer = some entry ∧ entry ∈ pushed ∧
    ∀ other ∈ pushed, entry.expire ≤ other.expire

/-! ### `adjust_up` -/

/-- The expiry times as keys; a null pointer counts as zero. -/
def expires (list : List (Option TimerEntry)) (index : Nat) : Nat :=
  match cell list index with
  | some entry => entry.expire.toNat
  | none => 0

theorem expires_of_cell {list : List (Option TimerEntry)} {index : Nat} {entry : TimerEntry}
    (found : cell list index = some entry) : expires list index = entry.expire.toNat := by
  rw [expires, found]

/-- The entry rises through a heap, and nothing moves behind `top`. -/
private structure RisingInHeap (list : List (Option TimerEntry)) (top : Nat)
    (state : List (Option TimerEntry) × UInt32) : Prop where
  order : OrderedBut (expires state.1) top state.2.toNat
  inside : state.2.toNat ≤ top
  behind : ∀ index, top < index → cell state.1 index = cell list index

private theorem RisingInHeap.turn {list : List (Option TimerEntry)} {top : Nat}
    (state : List (Option TimerEntry) × UInt32) (rising : RisingInHeap list top state) :
    (adjustUpTurn state).Within (RisingInHeap list top)
      (fun result => Ordered (expires result) top ∧
        ∀ index, top < index → cell result index = cell list index) := by
  obtain ⟨current, pos⟩ := state
  obtain ⟨order, inside, behind⟩ := rising
  simp only at order inside behind
  by_cases positive : pos > 0
  · have notRoot : 0 < pos.toNat := UInt32.lt_iff_toNat_lt.mp positive
    have isParent : ((pos - 1) >>> 1).toNat = parent pos.toNat := parent_toNat notRoot
    simp only [adjustUpTurn, if_pos positive, deref_eq_cell, isParent]
    cases aboveCell : cell current (parent pos.toNat) with
    | none => exact trivial
    | some above =>
        cases entryCell : cell current pos.toNat with
        | none => exact trivial
        | some entry =>
            have aboveKey := expires_of_cell aboveCell
            have entryKey := expires_of_cell entryCell
            by_cases greater : timerEntryGreater above entry = true
            · obtain ⟨swapped, swaps, _, cells⟩ := swapPtr_eq_some ((pos - 1) >>> 1) pos
                (by rw [isParent]; exact lt_length_of_cell aboveCell) (lt_length_of_cell entryCell)
              rw [isParent] at cells
              have higher := parent_lt (Nat.ne_of_gt notRoot)
              simp only [if_pos greater, swaps]
              refine ⟨?_, ?_, ?_⟩
              · have less : expires current pos.toNat < expires current (parent pos.toNat) := by
                  rw [aboveKey, entryKey]
                  exact UInt32.lt_iff_toNat_lt.mp (timerEntryGreater_eq_true.mp greater)
                have keys : expires swapped =
                    fun index => expires current (Equiv.swap (parent pos.toNat) pos.toNat index) := by
                  funext index
                  rw [expires, cells]
                  rfl
                simp only [isParent, keys]
                exact order.raise inside (Nat.ne_of_gt notRoot) less
              · simp only [isParent]
                omega
              · intro index beyond
                simp only
                rw [cells, Equiv.swap_apply_of_ne_of_ne (by omega) (by omega)]
                exact behind index beyond
            · simp only [if_neg greater]
              refine ⟨order.ordered fun _ => ?_, behind⟩
              rw [aboveKey, entryKey, ← UInt32.le_iff_toNat_le, ← UInt32.not_lt]
              exact mt timerEntryGreater_eq_true.mpr greater
  · simp only [adjustUpTurn, if_neg positive]
    refine ⟨order.ordered fun notRoot => absurd ?_ positive, behind⟩
    exact UInt32.lt_iff_toNat_lt.mpr (Nat.pos_of_ne_zero notRoot)

/-- `adjust_up` restores the order that the new entry disturbs. -/
theorem adjustUp_ordered {fuel : Nat} {list : List (Option TimerEntry)} {pos : UInt32}
    (order : OrderedBut (expires list) pos.toNat pos.toNat) :
    Ensures (adjustUp fuel list pos) fun result => Ordered (expires result) pos.toNat ∧
      ∀ index, pos.toNat < index → cell result index = cell list index :=
  .of_turns RisingInHeap.turn ⟨order, Nat.le_refl _, fun _ _ => rfl⟩

/-! ### `mhp_timer_push` -/

section

variable {size : UInt32} {live fuel : Nat} {session : Session} {events : List Event}

theorem Sound.live_le (sound : Sound size live session events) : live ≤ capacity size := by
  by_cases isEmpty : live = 0
  · rw [isEmpty]
    exact Nat.zero_le _
  · have ⟨entry, found⟩ := sound.range.full (live - 1) (by omega)
    have inside := lt_length_of_cell found
    rw [sound.length, sound.amount] at inside
    unfold capacity
    omega

theorem Sound.last_succ (sound : Sound size live session events) (notEmpty : live ≠ 0) :
    (session.timer.last + 1).toNat = live := by
  have last := sound.range.last
  have fits := sound.live_le
  have small : capacity size < 2 ^ 32 := (mhpTimerCreate size).amount.toNat_lt
  rw [succ_toNat (by omega)]
  omega

/-- `reserve` finds the amount large enough up to the last push that fits, and at
the next one, too. -/
theorem Sound.reserve_eq (sound : Sound size live session events) (notEmpty : live ≠ 0)
    (granted : Bool) : reserve session.timer (session.timer.last + 1) granted = some session.timer := by
  have noGrowth : ¬ session.timer.last + 1 > session.timer.amount := by
    rw [gt_iff_lt, UInt32.not_lt, UInt32.le_iff_toNat_le, sound.last_succ notEmpty, sound.amount]
    exact sound.live_le
  rw [reserve, if_neg noGrowth]

/-- The heap order, and null pointers behind it. -/
structure HeapUpTo (timer : MhpTimer) (live : Nat) : Prop where
  ordered : Ordered (expires timer.list) timer.last.toNat
  behind : ∀ index, live ≤ index → cell timer.list index = none

theorem HeapUpTo.heapOrdered (heap : HeapUpTo session.timer live)
    (sound : Sound size live session events) : HeapOrdered session.timer := by
  intro index inside notRoot
  have last := sound.range.last
  have higher := parent_lt notRoot
  have ⟨above, aboveCell⟩ := sound.range.full (parent index) (by omega)
  have ⟨entry, entryCell⟩ := sound.range.full index (by omega)
  have ordered := heap.ordered index inside notRoot
  rw [expires_of_cell aboveCell, expires_of_cell entryCell] at ordered
  exact ⟨above, entry, aboveCell, entryCell, UInt32.le_iff_toNat_le.mpr ordered⟩

/-- A push keeps the heap, on whichever path it goes, and fails for want of memory only. -/
theorem HeapUpTo.push (heap : HeapUpTo session.timer live)
    (sound : Sound size live session events) (entry : TimerEntry) (memory granted : Bool) :
    Ensures (mhpTimerPush fuel session.timer entry memory granted) fun after =>
      HeapUpTo after.1 (live + if memory then 1 else 0) ∧ after.2 = if memory then 0 else -1 := by
  unfold mhpTimerPush
  refine .ite (fun found => ?_) (fun missing => ?_)
  · simp only [found, if_true]
    rw [sound.list_zero]
    cases rootCell : cell session.timer.list 0 with
    | none =>
        -- The first push fills `list[0]` and leaves `last` at 0.
        have isEmpty : live = 0 := by
          by_contra notEmpty
          have ⟨root, isRoot⟩ := sound.range.full 0 (Nat.pos_of_ne_zero notEmpty)
          rw [isRoot] at rootCell
          contradiction
        have atZero : session.timer.last.toNat = 0 := by
          rw [sound.range.last, isEmpty]
        apply Ensures.of_some
        refine ⟨⟨?_, ?_⟩, rfl⟩
        · simp only [atZero]
          exact ordered_zero
        · intro index beyond
          have inside := sound.list_zero
          rw [rootCell] at inside
          rw [cell_set _ _ (List.getElem?_eq_some_iff.mp inside).1, if_neg (by omega)]
          exact heap.behind index (by omega)
    | some root =>
        have notEmpty : live ≠ 0 := by
          intro isEmpty
          rw [sound.range.empty isEmpty] at rootCell
          contradiction
        have last := sound.last_succ notEmpty
        simp only [sound.reserve_eq notEmpty, last]
        refine .ite (fun inside => ?_) (fun _ => .of_none)
        have cells := cell_set session.timer.list entry inside
        have isTop : session.timer.last.toNat + 1 = live := by
          rw [sound.range.last]
          omega
        have order : OrderedBut (expires (session.timer.list.set live (some entry)))
            (session.timer.last + 1).toNat (session.timer.last + 1).toNat := by
          rw [last, ← isTop]
          apply heap.ordered.append
          intro index below
          rw [isTop, expires, cells, if_neg (by omega)]
          rfl
        intro result ran
        split at ran
        · rename_i list rises
          have ⟨ordered, behind⟩ := adjustUp_ordered order list rises
          rw [← Option.some.inj ran]
          refine ⟨⟨ordered, ?_⟩, rfl⟩
          intro index beyond
          rw [behind index (by omega), cells, if_neg (by omega)]
          exact heap.behind index (by omega)
        · contradiction
  · apply Ensures.of_some
    simp only [if_neg missing]
    exact ⟨heap, trivial⟩

/-- At the capacity the write of the new entry is outside of the block. -/
theorem Sound.push_beyond (sound : Sound size (capacity size) session events) (entry : TimerEntry)
    (granted : Bool) : mhpTimerPush fuel session.timer entry true granted = none := by
  have notEmpty : capacity size ≠ 0 := Nat.ne_of_gt (capacity_pos size)
  have ⟨root, isRoot⟩ := sound.range.full 0 (Nat.pos_of_ne_zero notEmpty)
  have outside : ¬ capacity size < session.timer.list.length := by
    rw [sound.length, sound.amount]
    exact Nat.lt_irrefl _
  simp only [mhpTimerPush, if_true, sound.list_zero, isRoot, sound.reserve_eq notEmpty,
    sound.last_succ notEmpty, if_neg outside]

end

/-! ### Runs of pushes -/

theorem pushedEntries_snoc (calls : List Call) (call : Call) :
    pushedEntries (calls ++ [call]) =
      pushedEntries calls ++ (call.entry calls.length).toList := by
  rw [pushedEntries, List.zipIdx_append, List.filterMap_append]
  cases isEntry : call.entry calls.length <;> simp [pushedEntries, isEntry]

theorem pushedEntries_addr_lt {calls : List Call} :
    ∀ entry ∈ pushedEntries calls, entry.addr < calls.length := by
  induction calls using List.reverseRecOn with
  | nil => simp [pushedEntries]
  | append_singleton calls call inductionHypothesis =>
      intro entry member
      rw [pushedEntries_snoc] at member
      rw [List.length_append, List.length_singleton]
      rcases List.mem_append.mp member with before | new
      · exact Nat.lt_succ_of_lt (inductionHypothesis entry before)
      · cases call with
        | push expire callback arg memory granted =>
            cases memory with
            | false => simp [Call.entry] at new
            | true =>
                have isNew : entry = ⟨calls.length, expire, callback, arg⟩ := by
                  simpa [Call.entry] using new
                rw [isNew]
                exact Nat.lt_succ_self _
        | pop => simp [Call.entry] at new

theorem pushedEntries_nodup (calls : List Call) : (pushedEntries calls).Nodup := by
  induction calls using List.reverseRecOn with
  | nil => exact List.nodup_nil
  | append_singleton calls call inductionHypothesis =>
      rw [pushedEntries_snoc]
      cases isEntry : call.entry calls.length with
      | none => simpa using inductionHypothesis
      | some entry =>
          have addr : entry.addr = calls.length := by
            cases call with
            | push expire callback arg memory granted =>
                cases memory with
                | false => simp [Call.entry] at isEntry
                | true =>
                    rw [← Option.some.inj isEntry]
            | pop => simp [Call.entry] at isEntry
          have fresh : entry ∉ pushedEntries calls := by
            intro member
            have below := pushedEntries_addr_lt entry member
            omega
          rw [Option.toList_some, ← List.concat_eq_append]
          exact inductionHypothesis.concat fresh

/-- What a run of pushes leaves. -/
structure Filled (size : UInt32) (calls : List Call) (session : Session) (events : List Event) :
    Prop where
  sound : Sound size (pushes calls) session events
  heap : HeapUpTo session.timer (pushes calls)
  allocations : session.allocations = calls.length
  shown : events = (pushedEntries calls).map .pushed

section

variable {size : UInt32} {fuel : Nat} {calls : List Call} {session : Session} {events : List Event}

theorem filled_start : Filled size [] (machine fuel size).start [] where
  sound := sound_start
  heap :=
    { ordered := ordered_zero
      behind := fun index _ => cell_mhpTimerCreate size index }
  allocations := rfl
  shown := rfl

/-- A push that the machine takes was within the capacity, and it fills the timer. -/
theorem Filled.push (filled : Filled size calls session events) (enough : capacity size ≤ fuel)
    {expire : UInt32} {callback arg : Nat} {memory granted : Bool} {next : Session}
    {shown : List Event}
    (taken : step fuel session (.push expire callback arg memory granted) = some (next, shown)) :
    Filled size (calls ++ [.push expire callback arg memory granted]) next (events ++ shown) := by
  have room : memory = true → pushes calls < capacity size := by
    intro found
    rw [found] at taken
    by_contra full
    have isFull : pushes calls = capacity size := Nat.le_antisymm filled.sound.live_le (by omega)
    have sound := filled.sound
    rw [isFull] at sound
    simp only [step, sound.push_beyond] at taken
    contradiction
  obtain ⟨after, shownAfter, takenAfter, sound, _⟩ :=
    filled.sound.push enough expire callback arg memory granted room
  obtain ⟨rfl, rfl⟩ := Prod.mk.inj (Option.some.inj (takenAfter.symm.trans taken))
  have counted : pushes (calls ++ [.push expire callback arg memory granted]) =
      pushes calls + if memory then 1 else 0 := pushes_snoc calls _
  simp only [step] at taken
  split at taken
  · rename_i timer result pushed
    obtain ⟨isNext, isShown⟩ := Prod.mk.inj (Option.some.inj taken)
    obtain ⟨heap, isResult⟩ := filled.heap.push filled.sound _ memory granted _ pushed
    refine ⟨?_, ?_, ?_, ?_⟩
    · rw [counted]
      exact sound
    · rw [counted, ← isNext]
      exact heap
    · rw [← isNext, List.length_append, filled.allocations]
      rfl
    · rw [pushedEntries_snoc, List.map_append, ← filled.shown, ← isShown, ← filled.allocations]
      apply congrArg
      have isResult : result = if memory then 0 else -1 := isResult
      rw [isResult]
      cases memory <;> rfl
  · contradiction

/-- Every run of pushes fills the timer, so it stays within the capacity. -/
theorem filled_of_exec (enough : capacity size ≤ fuel)
    (exec : (machine fuel size).Exec calls session events)
    (onlyPushes : ∀ call ∈ calls, call ≠ .pop) : Filled size calls session events := by
  induction exec with
  | start => exact filled_start
  | @step calls session next events shown call before taken inductionHypothesis =>
      have filled := inductionHypothesis fun other member =>
        onlyPushes other (List.mem_append_left _ member)
      cases call with
      | push expire callback arg memory granted => exact filled.push enough taken
      | pop => exact absurd rfl (onlyPushes .pop (by simp))

/-- Within the capacity every push returns. -/
theorem exec_of_within (enough : capacity size ≤ fuel) (onlyPushes : ∀ call ∈ calls, call ≠ .pop)
    (within : pushes calls ≤ capacity size) :
    ∃ session events, (machine fuel size).Exec calls session events := by
  induction calls using List.reverseRecOn with
  | nil => exact ⟨_, [], .start⟩
  | append_singleton calls call inductionHypothesis =>
      have before : ∀ other ∈ calls, other ≠ .pop := fun other member =>
        onlyPushes other (List.mem_append_left _ member)
      rw [pushes_snoc] at within
      have ⟨session, events, exec⟩ := inductionHypothesis before (by omega)
      have filled := filled_of_exec enough exec before
      cases call with
      | push expire callback arg memory granted =>
          have ⟨next, shown, taken, _⟩ := filled.sound.push enough expire callback arg memory granted
            (fun found => by
              rw [show Call.adds (.push expire callback arg memory granted) = memory from rfl,
                if_pos found] at within
              exact within)
          exact ⟨next, _, exec.step taken⟩
      | pop => exact absurd rfl (onlyPushes .pop (by simp))

theorem Filled.cell_iff (filled : Filled size calls session events) (entry : TimerEntry) :
    entry ∈ pushedEntries calls ↔
      ∃ index < pushes calls, cell session.timer.list index = some entry := by
  rw [← filled.sound.pending, Pending, filled.shown]
  simp

private theorem Filled.take_nodup (filled : Filled size calls session events) :
    (session.timer.list.take (session.timer.last.toNat + 1)).Nodup := by
  have last := filled.sound.range.last
  rw [List.nodup_iff_getElem?_ne_getElem?]
  intro left right less inside same
  rw [List.length_take] at inside
  rw [List.getElem?_take_of_lt (by omega), List.getElem?_take_of_lt (by omega)] at same
  have ⟨entry, found⟩ := filled.sound.range.full left (by omega)
  have foundRight : cell session.timer.list right = some entry := by
    rw [cell, ← same]
    exact found
  have isSame := filled.sound.range.distinct left right entry (by omega) (by omega) found foundRight
  omega

private theorem Filled.mem_entries_iff (filled : Filled size calls session events)
    (entry : TimerEntry) : entry ∈ entries session.timer ↔ entry ∈ pushedEntries calls := by
  have last := filled.sound.range.last
  rw [filled.cell_iff, entries, List.reduceOption_mem_iff, List.mem_iff_getElem?]
  constructor
  · intro ⟨index, found⟩
    have ⟨inside, _⟩ := List.getElem?_eq_some_iff.mp found
    rw [List.length_take] at inside
    rw [List.getElem?_take_of_lt (by omega), ← cell_eq_some_iff] at found
    refine ⟨index, ?_, found⟩
    by_contra beyond
    rw [filled.heap.behind index (by omega)] at found
    contradiction
  · intro ⟨index, below, found⟩
    refine ⟨index, ?_⟩
    rw [List.getElem?_take_of_lt (by omega), ← cell_eq_some_iff]
    exact found

theorem Filled.entries_perm (filled : Filled size calls session events) :
    (entries session.timer).Perm (pushedEntries calls) := by
  have nodup : (entries session.timer).Nodup := by
    apply filled.take_nodup.filterMap
    intro left right entry isLeft isRight
    exact (Option.mem_def.mp isLeft).trans (Option.mem_def.mp isRight).symm
  rw [List.perm_ext_iff_of_nodup nodup (pushedEntries_nodup calls)]
  exact filled.mem_entries_iff

theorem Filled.topMinimum (filled : Filled size calls session events)
    (notNone : pushedEntries calls ≠ []) : TopMinimum session.timer (pushedEntries calls) := by
  have ⟨first, member⟩ := List.exists_mem_of_ne_nil _ notNone
  have ⟨_, below, _⟩ := (filled.cell_iff first).mp member
  have ⟨root, isRoot⟩ := filled.sound.range.full 0 (by omega)
  have last := filled.sound.range.last
  refine ⟨root, isRoot, (filled.cell_iff root).mpr ⟨0, by omega, isRoot⟩, ?_⟩
  intro other isPushed
  have ⟨index, inside, found⟩ := (filled.cell_iff other).mp isPushed
  have least := filled.heap.ordered.root_le (show index ≤ session.timer.last.toNat by omega)
  rw [expires_of_cell isRoot, expires_of_cell found] at least
  exact UInt32.le_iff_toNat_le.mpr least

/-- After any pushes within the created capacity `list[0..last]` is heap-ordered
and holds exactly the pushed entries, and the top is one that expires first. -/
theorem mhpTimerPush_keeps_heap (enough : capacity size ≤ fuel)
    (onlyPushes : ∀ call ∈ calls, call ≠ .pop) (within : pushes calls ≤ capacity size) :
    ∃ session events, (machine fuel size).Exec calls session events ∧
      HeapOrdered session.timer ∧ (entries session.timer).Perm (pushedEntries calls) ∧
      (pushedEntries calls ≠ [] → TopMinimum session.timer (pushedEntries calls)) := by
  have ⟨session, events, exec⟩ := exec_of_within enough onlyPushes within
  have filled := filled_of_exec enough exec onlyPushes
  exact ⟨session, events, exec, filled.heap.heapOrdered filled.sound, filled.entries_perm,
    filled.topMinimum⟩

end

/-- Equal expiry times, and one push that finds no memory. -/
def fourPushes : List Call :=
  [.push 5 0 0 true true, .push 3 0 0 true true, .push 9 0 0 false true, .push 3 0 0 true true]

theorem fourPushes_keep_heap : ∃ session events, (machine 9 9).Exec fourPushes session events ∧
    HeapOrdered session.timer ∧ (entries session.timer).Perm (pushedEntries fourPushes) ∧
    (pushedEntries fourPushes ≠ [] → TopMinimum session.timer (pushedEntries fourPushes)) :=
  mhpTimerPush_keeps_heap (by decide) (by decide) (by decide)

end SimpleBasicComponents.MinHeapTimer
