import SimpleBasicComponents.MinHeapTimer.Pending

/-!
The min-heap timer as a priority queue.

Owns: the condition under which one pop serves rightly, the two directions of
its exactness, and the theorem that a run of calls serves rightly exactly when
all its pops meet it.
-/

namespace SimpleBasicComponents.MinHeapTimer

open SimpleBasicComponents.Semantics

/-- The entry expires no later than any live entry but the root. -/
def LeastOfRest (timer : MhpTimer) (entry : TimerEntry) : Prop :=
  ∀ index, 1 ≤ index → index ≤ timer.last.toNat → ∀ other, cell timer.list index = some other →
    entry.expire ≤ other.expire

/-- The last entry, moved to the root, is a least one and stays there, or it goes
down past position 1, which holds a least one, and no further. With one entry
left there is no good pop: `list[0]` is not set to `NULL`. -/
def PopFits (timer : MhpTimer) : Prop :=
  1 ≤ timer.last.toNat ∧ ∃ moved, cell timer.list timer.last.toNat = some moved ∧
    ((LeastOfRest timer moved ∧ (timer.last.toNat = 1 → ∀ root, cell timer.list 0 = some root →
        moved.expire ≤ root.expire)) ∨
      3 ≤ timer.last.toNat ∧ ∃ first second, cell timer.list 1 = some first ∧
        cell timer.list 2 = some second ∧ first.expire < moved.expire ∧
        moved.expire ≤ second.expire ∧ LeastOfRest timer first)

section

variable {timer : MhpTimer} {live fuel : Nat} {swapped : List (Option TimerEntry)}

/-- The block with its first and last live cells exchanged. -/
private structure Exchanged (timer : MhpTimer) (swapped : List (Option TimerEntry)) : Prop where
  length : swapped.length = timer.list.length
  cells : ∀ index, cell swapped index = cell timer.list (Equiv.swap 0 timer.last.toNat index)

private theorem Exchanged.first (exchanged : Exchanged timer swapped) :
    cell swapped 0 = cell timer.list timer.last.toNat := by
  rw [exchanged.cells, Equiv.swap_apply_left]

private theorem Exchanged.last (exchanged : Exchanged timer swapped) :
    cell swapped timer.last.toNat = cell timer.list 0 := by
  rw [exchanged.cells, Equiv.swap_apply_right]

private theorem Exchanged.other (exchanged : Exchanged timer swapped) {index : Nat}
    (notFirst : index ≠ 0) (notLast : index ≠ timer.last.toNat) :
    cell swapped index = cell timer.list index := by
  rw [exchanged.cells, Equiv.swap_apply_of_ne_of_ne notFirst notLast]

/-- The entries that stay are in the first `last` cells now. -/
private theorem Exchanged.entries_iff (exchanged : Exchanged timer swapped) (entry : TimerEntry) :
    (∃ index < timer.last.toNat, cell swapped index = some entry) ↔
      ∃ index, 1 ≤ index ∧ index ≤ timer.last.toNat ∧ cell timer.list index = some entry := by
  constructor
  · rintro ⟨index, below, found⟩
    by_cases isRoot : index = 0
    · rw [isRoot, exchanged.first] at found
      exact ⟨timer.last.toNat, by omega, le_rfl, found⟩
    · rw [exchanged.other isRoot (by omega)] at found
      exact ⟨index, by omega, by omega, found⟩
  · rintro ⟨index, positive, le, found⟩
    by_cases isLast : index = timer.last.toNat
    · rw [isLast] at found
      exact ⟨0, by omega, exchanged.first.trans found⟩
    · exact ⟨index, by omega, (exchanged.other (by omega) isLast).trans found⟩

private theorem Exchanged.distinct (exchanged : Exchanged timer swapped) (range : Live timer live)
    {left right : Nat} {entry : TimerEntry} (leftLt : left < timer.last.toNat)
    (rightLt : right < timer.last.toNat) (leftCell : cell swapped left = some entry)
    (rightCell : cell swapped right = some entry) : left = right := by
  have last := range.last
  have inside : ∀ index < timer.last.toNat, Equiv.swap 0 timer.last.toNat index < live := by
    intro index below
    rw [Equiv.swap_apply_def]
    split
    · omega
    · split <;> omega
  rw [exchanged.cells] at leftCell rightCell
  exact (Equiv.swap 0 timer.last.toNat).injective
    (range.distinct _ _ entry (inside left leftLt) (inside right rightLt) leftCell rightCell)

/-- A pop that fits leaves a least entry at the root. -/
private theorem adjustDown_of_popFits (exchanged : Exchanged timer swapped) (range : Live timer live)
    (fits : PopFits timer) :
    ∃ result, adjustDown (fuel + 2) swapped 0 = some result ∧
      Rearranged timer.last.toNat swapped result ∧ RootLeast result (timer.last.toNat - 1) := by
  obtain ⟨two, moved, isMoved, stays | ⟨four, first, second, isFirst, isSecond, late, early, least⟩⟩ :=
    fits
  · obtain ⟨least, onlyTwo⟩ := stays
    have last := range.last
    have root : cell swapped 0 = some moved := exchanged.first.trans isMoved
    have next : ∃ first, cell swapped 1 = some first ∧ moved.expire ≤ first.expire := by
      by_cases isLast : timer.last.toNat = 1
      · obtain ⟨oldRoot, isRoot⟩ := range.full 0 (by omega)
        have atOne := exchanged.last
        rw [isLast] at atOne
        exact ⟨oldRoot, atOne.trans isRoot, onlyTwo isLast oldRoot isRoot⟩
      · obtain ⟨first, isFirst⟩ := range.full 1 (by omega)
        exact ⟨first, (exchanged.other (by omega) (by omega)).trans isFirst,
          least 1 le_rfl two first isFirst⟩
    obtain ⟨first, isFirst, early⟩ := next
    refine ⟨swapped, adjustDown_stays root isFirst early, .refl _ _, moved, root, ?_⟩
    intro index le entry found
    obtain ⟨before, positive, inside, was⟩ :=
      (exchanged.entries_iff entry).mp ⟨index, by omega, found⟩
    exact least before positive inside entry was
  · have root : cell swapped 0 = some moved := exchanged.first.trans isMoved
    have firstNext : cell swapped 1 = some first :=
      (exchanged.other (by omega) (by omega)).trans isFirst
    have secondNext : cell swapped 2 = some second :=
      (exchanged.other (by omega) (by omega)).trans isSecond
    obtain ⟨result, stops, length, cells⟩ :=
      adjustDown_stops_at_one root firstNext late secondNext early
    have rearranged : Rearranged timer.last.toNat swapped result :=
      .of_swap (by omega) (by omega) length cells
    refine ⟨result, stops, rearranged, first, ?_, ?_⟩
    · rw [cells, Equiv.swap_apply_left, firstNext]
    · intro index le entry found
      obtain ⟨before, positive, inside, was⟩ := (exchanged.entries_iff entry).mp
        ((rearranged.entries_iff entry).mp ⟨index, by omega, found⟩)
      exact least before positive inside entry was

/-- A pop that returns and leaves a least entry at the root fits. -/
private theorem popFits_of_adjustDown (exchanged : Exchanged timer swapped) (range : Live timer live)
    (isEmpty : live ≠ 0) (small : timer.list.length < 2 ^ 32) {result : List (Option TimerEntry)}
    (returns : adjustDown (fuel + 2) swapped 0 = some result)
    (top : ∀ entry, cell result 0 = some entry → LeastOfRest timer entry ∧
      ∃ index, 1 ≤ index ∧ index ≤ timer.last.toNat ∧ cell timer.list index = some entry) :
    PopFits timer := by
  have last := range.last
  obtain ⟨moved, isMoved⟩ := range.full timer.last.toNat (by omega)
  obtain ⟨oldRoot, isOldRoot, rootLeast⟩ := range.least isEmpty
  have root : cell swapped 0 = some moved := exchanged.first.trans isMoved
  cases isFirst : cell swapped 1 with
  | none =>
      rw [adjustDown_without_first isFirst] at returns
      contradiction
  | some first =>
      by_cases late : first.expire < moved.expire
      · by_cases stops : ∃ second, cell swapped 2 = some second ∧ moved.expire ≤ second.expire
        · obtain ⟨second, isSecond, early⟩ := stops
          obtain ⟨other, stopped, length, cells⟩ :=
            adjustDown_stops_at_one root isFirst late isSecond early
          obtain rfl := Option.some.inj (stopped.symm.trans returns)
          have atRoot : cell other 0 = some first := by
            rw [cells, Equiv.swap_apply_left, isFirst]
          obtain ⟨least, index, positive, inside, found⟩ := top first atRoot
          have notOne : timer.last.toNat ≠ 1 := by
            intro isOne
            have wasRoot := exchanged.last
            rw [isOne, isFirst] at wasRoot
            have isZero := range.distinct index 0 first (by omega) (by omega) found wasRoot.symm
            omega
          rw [exchanged.other (by decide) (Ne.symm notOne)] at isFirst
          have notTwo : timer.last.toNat ≠ 2 := by
            intro isTwo
            have wasRoot := exchanged.last
            rw [isTwo, isSecond, isOldRoot] at wasRoot
            obtain rfl := Option.some.inj wasRoot
            have notLate := UInt32.le_trans early (rootLeast 1 (by omega) first isFirst)
            exact UInt32.not_lt.mpr notLate late
          rw [exchanged.other (by decide) (Ne.symm notTwo)] at isSecond
          exact ⟨by omega, moved, isMoved,
            .inr ⟨by omega, first, second, isFirst, isSecond, late, early, least⟩⟩
        · have sinks : ∀ entry, cell swapped 2 = some entry → entry.expire < moved.expire := by
            intro entry found
            by_contra notLate
            exact stops ⟨entry, found, UInt32.not_lt.mp notLate⟩
          rw [adjustDown_eq_none (exchanged.length ▸ small) root isFirst late sinks] at returns
          contradiction
      · have stays : adjustDown (fuel + 2) swapped 0 = some swapped :=
          adjustDown_stays root isFirst (UInt32.not_lt.mp late)
        obtain rfl := Option.some.inj (stays.symm.trans returns)
        obtain ⟨least, index, positive, inside, -⟩ := top moved root
        refine ⟨by omega, moved, isMoved, .inl ⟨least, ?_⟩⟩
        intro isOne wasRoot isRoot
        have atOne := exchanged.last
        rw [isOne, isFirst, isRoot] at atOne
        obtain rfl := Option.some.inj atOne
        exact UInt32.not_lt.mp late

/-! ### Pops in a run -/

variable {size : UInt32} {session next : Session} {events shown : List Event}

private theorem Sound.exchanged (sound : Sound size live session events) (isEmpty : live ≠ 0) :
    ∃ root swapped, cell session.timer.list 0 = some root ∧
      session.timer.list[0]? = some (some root) ∧
      swapPtr session.timer.list 0 session.timer.last = some swapped ∧
      Exchanged session.timer swapped := by
  obtain ⟨root, isRoot, -⟩ := sound.range.least isEmpty
  have last := sound.range.last
  obtain ⟨moved, isMoved⟩ := sound.range.full session.timer.last.toNat (by omega)
  obtain ⟨swapped, swaps, length, cells⟩ :=
    swapPtr_eq_some 0 session.timer.last (lt_length_of_cell isRoot) (lt_length_of_cell isMoved)
  exact ⟨root, swapped, isRoot, by rw [sound.list_zero, isRoot], swaps, length, cells⟩

/-- What is pending after the root is handed out: the entries that stay. -/
private theorem Sound.pending_after (sound : Sound size live session events)
    {root : TimerEntry} (isRoot : cell session.timer.list 0 = some root) (entry : TimerEntry) :
    Pending (events ++ [.popped (some root)]) entry ↔
      ∃ index, 1 ≤ index ∧ index ≤ session.timer.last.toNat ∧
        cell session.timer.list index = some entry := by
  have last := sound.range.last
  rw [pending_popped_iff, sound.pending]
  constructor
  · rintro ⟨⟨index, below, found⟩, notRoot⟩
    refine ⟨index, Nat.one_le_iff_ne_zero.mpr ?_, by omega, found⟩
    intro isZero
    rw [isZero, isRoot] at found
    exact notRoot (Option.some.inj found).symm
  · rintro ⟨index, positive, inside, found⟩
    refine ⟨⟨index, by omega, found⟩, ?_⟩
    rintro rfl
    have isZero := sound.range.distinct index 0 entry (by omega) (by omega) found isRoot
    omega

/-- A pop that fits returns, hands out a least entry and keeps the invariant. -/
theorem Sound.pop (sound : Sound size live session events) (isEmpty : live ≠ 0)
    (enough : 2 ≤ fuel) (fits : PopFits session.timer) :
    ∃ next root, step fuel session .pop = some (next, [.popped (some root)]) ∧
      LeastPending events root ∧ Sound size (live - 1) next (events ++ [.popped (some root)]) := by
  obtain ⟨fuel, rfl⟩ := Nat.exists_eq_add_of_le' enough
  obtain ⟨root, swapped, isRoot, top, swaps, exchanged⟩ := sound.exchanged isEmpty
  obtain ⟨list, returns, rearranged, least⟩ : ∃ list, adjustDown (fuel + 2) swapped 0 = some list ∧
      Rearranged session.timer.last.toNat swapped list ∧
      RootLeast list (session.timer.last.toNat - 1) :=
    adjustDown_of_popFits exchanged sound.range fits
  have last := sound.range.last
  have lastNext : (session.timer.last - 1).toNat = session.timer.last.toNat - 1 := by
    have one : (1 : UInt32) ≤ session.timer.last := UInt32.le_iff_toNat_le.mpr fits.1
    rw [UInt32.toNat_sub_of_le _ _ one]
    rfl
  have pendingRoot := sound.root_leastPending isRoot
  have two := fits.1
  refine ⟨⟨{ session.timer with list, last := session.timer.last - 1 }, session.allocations⟩, root,
    ?_, pendingRoot, sound.amount, ?_, ?_, ?_, ?_, ?_⟩
  · simp only [step, nhpTimerPop, top, swaps, returns]
  · rw [rearranged.1, exchanged.length, sound.length]
  · have isLive : live - 1 = session.timer.last.toNat := last.symm
    rw [isLive]
    refine ⟨?_, ?_, lastNext, fun zero => by omega, fun _ => least⟩
    · apply rearranged.full
      intro index below
      by_cases isZero : index = 0
      · rw [isZero, exchanged.first]
        exact sound.range.full _ (by omega)
      · rw [exchanged.other isZero (by omega)]
        exact sound.range.full index (by omega)
    · intro left right entry leftLt rightLt
      apply rearranged.injective _ leftLt rightLt
      intro _ _ _ leftLt rightLt
      exact exchanged.distinct sound.range leftLt rightLt
  · intro entry
    rw [sound.pending_after isRoot, ← exchanged.entries_iff, ← rearranged.entries_iff, last]
  · intro entry pushed
    exact sound.fresh entry (by simpa using pushed)
  · intro entry popped
    apply List.mem_append_left
    rcases List.mem_append.mp popped with before | new
    · exact sound.handed entry before
    · obtain rfl : entry = root := by simpa using new
      exact pendingRoot.1.1

/-- A pop that returns and leaves the right top fits. -/
theorem Sound.popFits (sound : Sound size live session events) (isEmpty : live ≠ 0)
    (enough : 2 ≤ fuel) (taken : step fuel session .pop = some (next, shown))
    (right : TopLeast next (events ++ shown)) : PopFits session.timer := by
  obtain ⟨fuel, rfl⟩ := Nat.exists_eq_add_of_le' enough
  obtain ⟨root, swapped, isRoot, top, swaps, exchanged⟩ := sound.exchanged isEmpty
  have small : session.timer.list.length < 2 ^ 32 := by
    rw [sound.length]
    exact session.timer.amount.toNat_lt
  simp only [step, nhpTimerPop, top, swaps] at taken
  cases returns : adjustDown (fuel + 2) swapped 0 with
  | none =>
      rw [returns] at taken
      contradiction
  | some list =>
      rw [returns] at taken
      obtain ⟨rfl, rfl⟩ := Prod.mk.inj (Option.some.inj taken)
      apply popFits_of_adjustDown exchanged sound.range isEmpty small returns
      intro entry atRoot
      unfold TopLeast at right
      rw [show mhpTimerTop _ = cell list 0 from rfl, atRoot] at right
      obtain ⟨isPending, least⟩ := right
      refine ⟨?_, (sound.pending_after isRoot entry).mp isPending⟩
      intro index positive inside other found
      exact least other ((sound.pending_after isRoot other).mpr
        ⟨index, positive, inside, found⟩)

end

/-! ### Runs -/

/-- Every pop of the run fits the timer it is called on. -/
def PopsFit (session : Session) (call : Call) : Prop := call = .pop → PopFits session.timer

/-- After a run whose pops fit, the invariant holds. -/
private theorem sound_of_guarded {size : UInt32} {fuel : Nat} {calls : List Call}
    (enough : capacity size ≤ fuel) (allowed : Allowed (capacity size) calls)
    (guarded : (machine fuel size).Guarded PopsFit calls) :
    ∃ live session events, (machine fuel size).Exec calls session events ∧
      (machine fuel size).Always TopLeast calls ∧ Historically HandsLeast events ∧
      Sound size live session events ∧ live + pops calls = pushes calls := by
  induction calls using List.reverseRecOn with
  | nil =>
      exact ⟨0, _, [], .start, Machine.always_nil_iff.mpr sound_start.topLeast, historically_nil,
        sound_start, rfl⟩
  | append_singleton calls call inductionHypothesis =>
      obtain ⟨before, allowedCall⟩ := historically_snoc_iff.mp allowed
      obtain ⟨earlier, atEnd⟩ := Machine.guarded_snoc_iff.mp guarded
      obtain ⟨live, session, events, exec, always, hands, sound, balance⟩ :=
        inductionHypothesis before earlier
      have grown : ∀ next shown live, step fuel session call = some (next, shown) →
          Sound size live next (events ++ shown) →
          (machine fuel size).Exec (calls ++ [call]) next (events ++ shown) ∧
            (machine fuel size).Always TopLeast (calls ++ [call]) := by
        intro next shown live taken soundNext
        have execNext := exec.step taken
        refine ⟨execNext, Machine.always_snoc_iff.mpr ⟨always, ?_⟩⟩
        intro other seen ran
        obtain ⟨rfl, rfl⟩ := execNext.functional ran
        exact soundNext.topLeast
      rw [pushes_snoc, pops_snoc]
      cases call with
      | push expire callback arg memory granted =>
          obtain ⟨next, shown, taken, soundNext, handsNext⟩ :=
            sound.push enough expire callback arg memory granted
              (fun found => by have room := allowedCall found; omega)
          obtain ⟨execNext, alwaysNext⟩ := grown next shown _ taken soundNext
          refine ⟨_, next, _, execNext, alwaysNext, ?_, soundNext, ?_⟩
          · exact hands.append handsNext
          · have pushed : Call.adds (.push expire callback arg memory granted) = memory := rfl
            have notPop : Call.push expire callback arg memory granted ≠ .pop := by simp
            rw [pushed, if_neg notPop]
            omega
      | pop =>
          have isEmpty : live ≠ 0 := by
            have more : pops calls < pushes calls := allowedCall
            omega
          have two : 2 ≤ fuel := Nat.le_trans (by decide) ((capacity_ge size).trans enough)
          obtain ⟨next, root, taken, least, soundNext⟩ :=
            sound.pop isEmpty two (atEnd session events exec rfl)
          obtain ⟨execNext, alwaysNext⟩ := grown next _ _ taken soundNext
          refine ⟨_, next, _, execNext, alwaysNext, ?_, soundNext, ?_⟩
          · exact historically_snoc_iff.mpr ⟨hands, root, rfl, least⟩
          · simp only [Call.adds, if_true, Bool.false_eq_true, if_false]
            omega

/-- Calls on a fresh timer are served as a priority queue should exactly when
every pop fits the timer it is called on. -/
theorem servesLeast_iff_popsFit {fuel : Nat} {size : UInt32} {calls : List Call}
    (enough : capacity size ≤ fuel) (allowed : Allowed (capacity size) calls) :
    ServesLeast fuel size calls ↔ (machine fuel size).Guarded PopsFit calls := by
  constructor
  · rintro ⟨session, events, exec, always, -, -⟩
    induction calls using List.reverseRecOn generalizing session events with
    | nil => exact Machine.guarded_nil
    | append_singleton calls call inductionHypothesis =>
        obtain ⟨before, allowedCall⟩ := historically_snoc_iff.mp allowed
        obtain ⟨alwaysBefore, right⟩ := Machine.always_snoc_iff.mp always
        obtain ⟨middle, seen, shown, execBefore, taken, rfl⟩ := exec.unsnoc
        have guarded := inductionHypothesis before middle seen execBefore alwaysBefore
        refine Machine.guarded_snoc_iff.mpr ⟨guarded, ?_⟩
        rintro other events execOther rfl
        obtain ⟨live, session, events, execSound, -, -, sound, balance⟩ :=
          sound_of_guarded enough before guarded
        obtain ⟨rfl, rfl⟩ := execOther.functional execSound
        obtain ⟨rfl, rfl⟩ := execBefore.functional execSound
        have isEmpty : live ≠ 0 := by
          have more : pops calls < pushes calls := allowedCall
          omega
        have two : 2 ≤ fuel := Nat.le_trans (by decide) ((capacity_ge size).trans enough)
        exact sound.popFits isEmpty two taken (right _ _ exec)
  · intro guarded
    obtain ⟨live, session, events, exec, always, hands, -, -⟩ :=
      sound_of_guarded enough allowed guarded
    exact ⟨session, events, exec, always, hands, count_popped_le_one hands⟩

/-! ### Runs that are served and runs that are not -/

/-- The last entry expires between positions 1 and 2. -/
def fourThenPop : List Call :=
  [.push 1 0 0 true true, .push 5 0 0 true true, .push 7 0 0 true true, .push 6 0 0 true true, .pop]

theorem fourThenPop_servesLeast_iff :
    ServesLeast 9 9 fourThenPop ↔ (machine 9 9).Guarded PopsFit fourThenPop :=
  servesLeast_iff_popsFit (by decide) (by decide)

/-- The root of two entries has one child, and `adjust_down` reads two. -/
def twoThenPop : List Call :=
  [.push 1 0 0 true true, .push 2 0 0 true true, .pop]

private theorem twoThenPop_faults (fuel : Nat) : (machine fuel 9).run twoThenPop = none := by
  cases fuel with
  | zero => rfl
  | succ fuel =>
      generalize isFirst : (⟨0, 1, 0, 0⟩ : TimerEntry) = first
      generalize isSecond : (⟨1, 2, 0, 0⟩ : TimerEntry) = second
      have pushFirst : (machine (fuel + 1) 9).step (machine (fuel + 1) 9).start
          (.push 1 0 0 true true) = some (⟨⟨some first :: List.replicate 8 none, 0, 9⟩, 1⟩,
            [.pushed first]) := by
        rw [← isFirst]
        rfl
      have pushSecond : (machine (fuel + 1) 9).step
          ⟨⟨some first :: List.replicate 8 none, 0, 9⟩, 1⟩ (.push 2 0 0 true true) =
            some (⟨⟨some first :: some second :: List.replicate 7 none, 1, 9⟩, 2⟩,
              [.pushed second]) := by
        rw [← isFirst, ← isSecond]
        rfl
      have pop : (machine (fuel + 1) 9).step
          ⟨⟨some first :: some second :: List.replicate 7 none, 1, 9⟩, 2⟩ .pop = none := by
        rw [← isFirst, ← isSecond]
        rfl
      simp only [Machine.run, twoThenPop, Machine.runFrom, pushFirst, pushSecond, pop]

theorem twoThenPop_not_served :
    Allowed (capacity 9) twoThenPop ∧ ¬ ∃ fuel, ServesLeast fuel 9 twoThenPop := by
  refine ⟨by decide, ?_⟩
  rintro ⟨fuel, session, events, exec, -⟩
  have ran := exec.run_eq
  rw [twoThenPop_faults] at ran
  contradiction

end SimpleBasicComponents.MinHeapTimer
