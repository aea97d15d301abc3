import SimpleBasicComponents.MinHeapTimer.Heap

/-!
When a pop of the min-heap timer returns.

Owns: the exact condition under which `adjust_down` leaves its loop at the root
of a heap that pushes have built. Where it returns it has swapped once at most;
otherwise it goes round between positions it has been at, or reads a null
pointer, whatever the number of turns it is given.
-/

namespace SimpleBasicComponents.MinHeapTimer

open SimpleBasicComponents.Semantics
open SimpleBasicComponents.Semantics.BinaryHeap

/-- The pop returns, and `adjust_down` has swapped at most once for each level of
the heap: a turn of its loop swaps or leaves. -/
def PopEnds (timer : MhpTimer) : Prop :=
  ∃ after, nhpTimerPop (levels (timer.last.toNat + 1) + 1) timer = some after

/-- The last entry expires no later than the one it meets below the root, or no
later than the one after that. Of two entries the old root is what it meets. -/
def Settles (timer : MhpTimer) : Prop :=
  ∃ moved first, cell timer.list timer.last.toNat = some moved ∧
    cell timer.list (if timer.last.toNat = 1 then 0 else 1) = some first ∧
    (moved.expire ≤ first.expire ∨
      3 ≤ timer.last.toNat ∧ ∃ second, cell timer.list 2 = some second ∧
        moved.expire ≤ second.expire)

/-- With two turns or any more `adjust_down` returns in the same cases. -/
theorem adjustDown_returns_iff {list : List (Option TimerEntry)} {moved first : TimerEntry}
    {fuel : Nat} (small : list.length < 2 ^ 32) (root : cell list 0 = some moved)
    (isFirst : cell list 1 = some first) :
    (∃ result, adjustDown (fuel + 2) list 0 = some result) ↔
      moved.expire ≤ first.expire ∨
        ∃ second, cell list 2 = some second ∧ moved.expire ≤ second.expire := by
  by_cases early : moved.expire ≤ first.expire
  · constructor
    · intro _
      exact .inl early
    · intro _
      exact ⟨list, adjustDown_stays root isFirst early⟩
  · have late := UInt32.not_le.mp early
    by_cases stops : ∃ second, cell list 2 = some second ∧ moved.expire ≤ second.expire
    · have ⟨second, isSecond, early⟩ := stops
      have ⟨result, returns, _⟩ := @adjustDown_stops_at_one list _ _ _ fuel root isFirst late isSecond early
      constructor
      · intro _
        exact .inr stops
      · intro _
        exact ⟨result, returns⟩
    · have sinks : ∀ entry, cell list 2 = some entry → entry.expire < moved.expire := by
        intro entry found
        rw [← UInt32.not_le]
        exact fun notLate => stops ⟨entry, found, notLate⟩
      constructor
      · intro ⟨result, returns⟩
        rw [adjustDown_eq_none small root isFirst late sinks] at returns
        contradiction
      · rintro (notLate | stopsHere)
        · exact absurd notLate early
        · exact absurd stopsHere stops

section

variable {size : UInt32} {fuel : Nat} {calls : List Call} {session : Session} {events : List Event}

/-- On a heap that pushes have built, the third cell after the exchange is past
the moved entry only if it is not the old root. -/
theorem Filled.pop_returns_iff (filled : Filled size calls session events) (two : 2 ≤ pushes calls) :
    (∃ after, nhpTimerPop (fuel + 2) session.timer = some after) ↔ Settles session.timer := by
  have last := filled.sound.range.last
  have full := filled.sound.range.full
  have small : session.timer.list.length < 2 ^ 32 := by
    rw [filled.sound.length]
    exact session.timer.amount.toNat_lt
  have ⟨root, isRoot⟩ := full 0 (by omega)
  have ⟨moved, isMoved⟩ := full session.timer.last.toNat (by omega)
  have ⟨first, isFirst⟩ := full (if session.timer.last.toNat = 1 then 0 else 1) (by split <;> omega)
  have ⟨swapped, swaps, length, cells⟩ :=
    swapPtr_eq_some 0 session.timer.last (lt_length_of_cell isRoot) (lt_length_of_cell isMoved)
  rw [UInt32.toNat_zero] at cells
  have atRoot : cell swapped 0 = some moved := by
    rw [cells, Equiv.swap_apply_left, isMoved]
  have atFirst : cell swapped 1 = some first := by
    rw [cells, ← isFirst]
    split
    · rename_i isOne
      rw [isOne, Equiv.swap_apply_right]
    · rename_i notOne
      rw [Equiv.swap_apply_of_ne_of_ne (by decide) (Ne.symm notOne)]
  have pops : (∃ after, nhpTimerPop (fuel + 2) session.timer = some after) ↔
      ∃ result, adjustDown (fuel + 2) swapped 0 = some result := by
    simp only [nhpTimerPop, filled.sound.list_zero, swaps]
    cases adjustDown (fuel + 2) swapped 0 <;> simp
  have isSecond : first.expire < moved.expire → ∀ entry, moved.expire ≤ entry.expire →
      (cell swapped 2 = some entry ↔
        3 ≤ session.timer.last.toNat ∧ cell session.timer.list 2 = some entry) := by
    intro late entry notLate
    rw [cells]
    by_cases isOne : session.timer.last.toNat = 1
    · have null := filled.heap.behind 2 (by omega)
      rw [isOne, Equiv.swap_apply_of_ne_of_ne (by decide) (by decide), null]
      simp
    · by_cases isTwo : session.timer.last.toNat = 2
      · -- The old root expires no later than `first`, so it does not stop the moved entry.
        rw [isTwo, Equiv.swap_apply_right, isRoot]
        rw [if_neg isOne] at isFirst
        have least := filled.heap.ordered.root_le (show 1 ≤ session.timer.last.toNat by omega)
        rw [expires_of_cell isRoot, expires_of_cell isFirst] at least
        rw [UInt32.lt_iff_toNat_lt] at late
        rw [UInt32.le_iff_toNat_le] at notLate
        constructor
        · intro same
          rw [Option.some.inj same] at least
          omega
        · intro ⟨three, _⟩
          omega
      · rw [Equiv.swap_apply_of_ne_of_ne (by decide) (Ne.symm isTwo)]
        exact ⟨fun found => ⟨by omega, found⟩, fun found => found.2⟩
  rw [pops, adjustDown_returns_iff (length ▸ small) atRoot atFirst]
  have settles : Settles session.timer ↔ moved.expire ≤ first.expire ∨
      3 ≤ session.timer.last.toNat ∧ ∃ second, cell session.timer.list 2 = some second ∧
        moved.expire ≤ second.expire := by
    constructor
    · intro ⟨other, below, isOther, isBelow, stops⟩
      rw [isMoved] at isOther
      rw [isFirst] at isBelow
      rw [Option.some.inj isOther, Option.some.inj isBelow]
      exact stops
    · intro stops
      exact ⟨moved, first, isMoved, isFirst, stops⟩
  rw [settles]
  by_cases early : moved.expire ≤ first.expire
  · exact ⟨fun _ => .inl early, fun _ => .inl early⟩
  · have meets := isSecond (UInt32.not_le.mp early)
    constructor
    · rintro (notLate | ⟨second, found, notLate⟩)
      · exact absurd notLate early
      · have ⟨three, stays⟩ := (meets second notLate).mp found
        exact .inr ⟨three, second, stays, notLate⟩
    · rintro (notLate | ⟨three, second, stays, notLate⟩)
      · exact absurd notLate early
      · exact .inr ⟨second, (meets second notLate).mpr ⟨three, stays⟩, notLate⟩

/-- A pop of a heap that pushes have built returns, with no more swaps than the
heap has levels, exactly when the moved entry settles at once. -/
theorem nhpTimerPop_ends_iff (enough : capacity size ≤ fuel)
    (exec : (machine fuel size).Exec calls session events)
    (onlyPushes : ∀ call ∈ calls, call ≠ .pop) (two : 2 ≤ pushes calls) :
    PopEnds session.timer ↔ Settles session.timer := by
  have filled := filled_of_exec enough exec onlyPushes
  have last := filled.sound.range.last
  have deep := two_le_levels (show 2 ≤ session.timer.last.toNat + 1 by omega)
  have ⟨more, isMore⟩ :=
    Nat.exists_eq_add_of_le' (show 2 ≤ levels (session.timer.last.toNat + 1) + 1 by omega)
  rw [PopEnds, isMore]
  exact filled.pop_returns_iff two

end

/-! ### A pop that settles and one that does not -/

/-- The last entry expires together with the one at position 2. -/
def fourPushed : List Call :=
  [.push 1 0 0 true true, .push 2 0 0 true true, .push 4 0 0 true true, .push 4 0 0 true true]

def fourQueued : MhpTimer where
  list := [some ⟨0, 1, 0, 0⟩, some ⟨1, 2, 0, 0⟩, some ⟨2, 4, 0, 0⟩, some ⟨3, 4, 0, 0⟩] ++
    List.replicate 5 none
  last := 3
  amount := 9

theorem fourQueued_ends_iff : PopEnds fourQueued ↔ Settles fourQueued :=
  @nhpTimerPop_ends_iff 9 9 fourPushed ⟨fourQueued, 4⟩ _ (by decide)
    ((machine 9 9).exec_of_run rfl) (by decide) (by decide)

/-- Five entries in order. -/
def fivePushed : List Call :=
  [.push 1 0 0 true true, .push 2 0 0 true true, .push 3 0 0 true true, .push 4 0 0 true true,
    .push 5 0 0 true true]

def queued (order : List UInt32) : List (Option TimerEntry) :=
  order.map (fun expire => some ⟨expire.toNat - 1, expire, 0, 0⟩) ++ List.replicate (9 - order.length) none

/-- The state in which the entry that expires at 5 has come down to position 1 or 2. -/
private def Circling (state : List (Option TimerEntry) × UInt32 × UInt32) : Prop :=
  state = (queued [2, 5, 3, 4, 1], 1, 2) ∨ state = (queued [2, 3, 5, 4, 1], 2, 1)

private theorem circling_turn (state : List (Option TimerEntry) × UInt32 × UInt32)
    (circling : Circling state) :
    ∃ next, adjustDownTurn state = .again next ∧ Circling next := by
  rcases circling with atOne | atTwo
  · exact ⟨(queued [2, 3, 5, 4, 1], 2, 1), by rw [atOne]; rfl, .inr rfl⟩
  · exact ⟨(queued [2, 5, 3, 4, 1], 1, 2), by rw [atTwo]; rfl, .inl rfl⟩

private theorem adjustDown_circles (fuel : Nat) :
    adjustDown fuel (queued [5, 2, 3, 4, 1]) 0 = none := by
  have lower : lowerChild (queued [5, 2, 3, 4, 1]) 0 = some 1 := rfl
  have enters : adjustDownTurn (queued [5, 2, 3, 4, 1], 0, 1) =
    .again (queued [2, 5, 3, 4, 1], 1, 2) := rfl
  simp only [adjustDown, lower]
  cases fuel with
  | zero => rfl
  | succ fuel =>
      rw [loop_again enters]
      exact loop_eq_none_of_invariant (fun state circling => .inr (circling_turn state circling))
        (show Circling _ from .inl rfl)

private theorem nhpTimerPop_circles (fuel : Nat) :
    nhpTimerPop fuel ⟨queued [1, 2, 3, 4, 5], 4, 9⟩ = none := by
  have swaps : swapPtr (queued [1, 2, 3, 4, 5]) 0 4 = some (queued [5, 2, 3, 4, 1]) := rfl
  have root : (queued [1, 2, 3, 4, 5])[0]? = some (some ⟨0, 1, 0, 0⟩) := rfl
  simp only [nhpTimerPop, root, swaps, adjustDown_circles]

/-- `adjust_down` goes round between positions 1 and 2 forever. -/
theorem fivePushed_never_ends : 2 ≤ pushes fivePushed ∧
    ∃ session events, (machine 9 9).Exec fivePushed session events ∧
      (∀ fuel, nhpTimerPop fuel session.timer = none) ∧ ¬ PopEnds session.timer := by
  refine ⟨by decide, ⟨⟨queued [1, 2, 3, 4, 5], 4, 9⟩, 5⟩, _, (machine 9 9).exec_of_run rfl, ?_, ?_⟩
  · exact nhpTimerPop_circles
  · intro ⟨after, returns⟩
    rw [nhpTimerPop_circles] at returns
    contradiction

end SimpleBasicComponents.MinHeapTimer
