import Mathlib.Data.List.Perm.Subperm
import Mathlib.Data.List.ReduceOption
import SimpleBasicComponents.MinHeapTimer.Pending
import SimpleBasicComponents.Semantics.Ensures

/-!
The end of a min-heap timer.

Owns: the scan of `mhp_timer_destroy`, what any push or pop that returns does to
the cells of the block, and when the scan frees the entries still queued and
none that was handed out. The scan counts the entries it frees and stops at
`last`, which is an index and so one short of their number; with one entry left
it never stops, and frees what the pops have put behind the live range.
-/

namespace SimpleBasicComponents.MinHeapTimer

open SimpleBasicComponents.Semantics

def intMax : Nat := 2 ^ 31 - 1

/-- The loop of `mhp_timer_destroy`; `freed` holds the arguments of `free` in order. -/
structure Scan where
  i : Nat
  cnt : Nat
  list : List (Option TimerEntry)
  freed : List TimerEntry
deriving DecidableEq, Repr

/-- What is done to one cell. -/
def Scan.freeCell (scan : Scan) : Option Scan :=
  match scan.list[scan.i]? with
  | none => none
  | some none => some scan
  | some (some entry) =>
      some { scan with
        cnt := scan.cnt + 1
        list := scan.list.set scan.i none
        freed := scan.freed ++ [entry] }

/-- One turn; `i` and `cnt` are `int`, and an overflow of one of them is a fault. -/
def destroyTurn (amount last : UInt32) (scan : Scan) : Turn Scan (List TimerEntry) :=
  if scan.i < amount.toNat then
    match scan.freeCell with
    | none => .fault
    | some scan =>
        if intMax < scan.cnt then .fault
        else if scan.cnt = last.toNat then .leave scan.freed
        else if scan.i = intMax then .fault
        else .again { scan with i := scan.i + 1 }
  else .leave scan.freed

/-- The entries `mhp_timer_destroy` frees. -/
def mhpTimerDestroy (fuel : Nat) (timer : MhpTimer) : Option (List TimerEntry) :=
  loop (destroyTurn timer.amount timer.last) fuel ⟨0, 0, timer.list, []⟩

/-- Every entry still queued is freed once, and none that a pop has handed out. -/
def DestroysQueued (timer : MhpTimer) (events : List Event) : Prop :=
  ∃ fuel freed, mhpTimerDestroy fuel timer = some freed ∧
    (∀ entry, Pending events entry → freed.count entry = 1) ∧
      ∀ entry, .popped (some entry) ∈ events → entry ∉ freed

/-- Pushes within the capacity, and pops only while two entries are queued. -/
def CallKeepsOne (capacity : Nat) (earlier : List Call) (call : Call) : Prop :=
  match call with
  | .push _ _ _ memory _ => memory = true → pushes earlier < pops earlier + capacity
  | .pop => pops earlier + 2 ≤ pushes earlier

def KeepsOne (capacity : Nat) (calls : List Call) : Prop := Historically (CallKeepsOne capacity) calls

instance (capacity : Nat) (earlier : List Call) (call : Call) :
    Decidable (CallKeepsOne capacity earlier call) :=
  match call with
  | .push _ _ _ _ _ => inferInstanceAs (Decidable (_ → _))
  | .pop => inferInstanceAs (Decidable (_ ≤ _))

instance (capacity : Nat) (calls : List Call) : Decidable (KeepsOne capacity calls) :=
  inferInstanceAs (Decidable (Historically (CallKeepsOne capacity) calls))

variable {list before after : List (Option TimerEntry)} {timer next : MhpTimer} {entry : TimerEntry}
  {amount last : UInt32} {fuel : Nat} {scan : Scan}

/-! ### The scan -/

theorem freeCell_null (null : scan.list[scan.i]? = some none) : scan.freeCell = some scan := by
  unfold Scan.freeCell
  rw [null]

theorem freeCell_entry (found : scan.list[scan.i]? = some (some entry)) :
    scan.freeCell = some ⟨scan.i, scan.cnt + 1, scan.list.set scan.i none, scan.freed ++ [entry]⟩ := by
  unfold Scan.freeCell
  rw [found]

/-- A block whose first cell is NULL is not scanned any further. -/
theorem mhpTimerDestroy_empty (null : timer.list[0]? = some none) (none : timer.last = 0)
    (positive : 0 < timer.amount.toNat) : mhpTimerDestroy (fuel + 1) timer = some [] := by
  refine loop_leave ?_
  have free : Scan.freeCell ⟨0, 0, timer.list, []⟩ = some ⟨0, 0, timer.list, []⟩ := freeCell_null null
  rw [destroyTurn, if_pos positive, free, none]
  rfl

/-- The cells the scan has not come to are as they were, and what it has freed
are the entries of the others. -/
structure Scanning (list : List (Option TimerEntry)) (scan : Scan) : Prop where
  ahead : ∀ index, scan.i ≤ index → scan.list[index]? = list[index]?
  freed : scan.freed = (list.take scan.i).reduceOption
  counted : scan.cnt = scan.freed.length

theorem scanning_start (list : List (Option TimerEntry)) : Scanning list ⟨0, 0, list, []⟩ where
  ahead := fun _ _ => rfl
  freed := rfl
  counted := rfl

theorem Scanning.cnt_le (scanning : Scanning list scan) : scan.cnt ≤ scan.i := by
  rw [scanning.counted, scanning.freed]
  exact Nat.le_trans (List.reduceOption_length_le _) (List.length_take_le _ _)

/-- One cell further on. -/
theorem Scanning.freeCell (scanning : Scanning list scan) (inside : scan.i < list.length) :
    ∃ freed : Scan, scan.freeCell = some freed ∧ freed.i = scan.i ∧ freed.cnt ≤ scan.cnt + 1 ∧
      Scanning list { freed with i := freed.i + 1 } := by
  have here := scanning.ahead scan.i (Nat.le_refl _)
  have longer : (list.take (scan.i + 1)).reduceOption = scan.freed ++ list[scan.i].toList := by
    rw [List.take_succ_eq_append_getElem inside, List.reduceOption_append, List.reduceOption_singleton,
      scanning.freed]
  have elsewhere {index : Nat} (beyond : scan.i + 1 ≤ index) : scan.list[index]? = list[index]? :=
    scanning.ahead index (Nat.le_of_succ_le beyond)
  rw [List.getElem?_eq_getElem inside] at here
  cases found : list[scan.i] with
  | none =>
      rw [found] at here longer
      refine ⟨scan, freeCell_null here, rfl, Nat.le_succ _, fun _ => elsewhere, ?_, scanning.counted⟩
      rw [longer, Option.toList_none, List.append_nil]
  | some entry =>
      rw [found] at here longer
      refine ⟨_, freeCell_entry here, rfl, Nat.le_refl _, ?_, longer.symm, ?_⟩
      · intro index beyond
        rw [List.getElem?_set_ne (Nat.ne_of_lt beyond)]
        exact elsewhere beyond
      · rw [List.length_append, scanning.counted]
        rfl

/-- A turn that finds a cell to look at. -/
theorem Scanning.turn (scanning : Scanning list scan) (inside : scan.i < amount.toNat)
    (block : list.length = amount.toNat) (last : UInt32) :
    ∃ freed : Scan, freed.i = scan.i ∧ freed.cnt ≤ scan.cnt + 1 ∧
      Scanning list { freed with i := freed.i + 1 } ∧
        destroyTurn amount last scan =
          if intMax < freed.cnt then .fault
          else if freed.cnt = last.toNat then .leave freed.freed
          else if freed.i = intMax then .fault
          else .again { freed with i := freed.i + 1 } := by
  obtain ⟨freed, frees, same, fewer, scanningNext⟩ := scanning.freeCell (block ▸ inside)
  refine ⟨freed, same, fewer, scanningNext, ?_⟩
  rw [destroyTurn, if_pos inside, frees]

/-- The scan stops where it has freed as many entries as `last` says. -/
theorem mhpTimerDestroy_length_le (block : timer.list.length = timer.amount.toNat)
    (positive : 0 < timer.last.toNat) :
    Ensures (mhpTimerDestroy fuel timer) fun freed => freed.length ≤ timer.last.toNat := by
  have turn (scan : Scan) (state : Scanning timer.list scan ∧ scan.cnt < timer.last.toNat) :
      (destroyTurn timer.amount timer.last scan).Within
        (fun scan => Scanning timer.list scan ∧ scan.cnt < timer.last.toNat)
        fun freed => freed.length ≤ timer.last.toNat := by
    obtain ⟨scanning, fewer⟩ := state
    by_cases inside : scan.i < timer.amount.toNat
    · obtain ⟨freed, -, atMostOne, scanningNext, turns⟩ := scanning.turn inside block timer.last
      have counted : freed.cnt = freed.freed.length := scanningNext.counted
      rw [turns]
      split
      · trivial
      · split
        · show freed.freed.length ≤ timer.last.toNat
          omega
        · split
          · trivial
          · refine ⟨scanningNext, ?_⟩
            show freed.cnt < timer.last.toNat
            omega
    · rw [destroyTurn, if_neg inside]
      show scan.freed.length ≤ timer.last.toNat
      rw [← scanning.counted]
      exact Nat.le_of_lt fewer
  exact .of_turns turn ⟨scanning_start _, positive⟩

/-! ### The scan with one entry left -/

theorem Scanning.cnt_pos (scanning : Scanning list scan) (first : list[0]? = some (some entry))
    (started : 0 < scan.i) : 0 < scan.cnt := by
  rw [scanning.counted, scanning.freed]
  apply List.length_pos_of_mem (a := entry)
  rw [List.reduceOption_mem_iff]
  apply List.mem_of_getElem? (i := 0)
  rw [List.getElem?_take_of_lt started]
  exact first

/-- With `last` zero the scan goes on as long as `i` does not overflow. -/
theorem Scanning.sweep (scanning : Scanning list scan) (inside : scan.i < amount.toNat)
    (block : list.length = amount.toNat) (first : list[0]? = some (some entry))
    (reached : scan.i ≤ intMax) :
    ∃ next : Scan, next.i = scan.i + 1 ∧ Scanning list next ∧
      destroyTurn amount 0 scan = if scan.i = intMax then .fault else .again next := by
  obtain ⟨freed, same, -, scanningNext, turns⟩ := scanning.turn inside block 0
  have bound : freed.cnt ≤ freed.i + 1 := scanningNext.cnt_le
  have positive : 0 < freed.cnt := scanningNext.cnt_pos first (Nat.succ_pos _)
  have notZero : freed.cnt ≠ (0 : UInt32).toNat := Nat.ne_of_gt positive
  refine ⟨_, congrArg (· + 1) same, scanningNext, ?_⟩
  rw [turns, if_neg notZero, same]
  by_cases atEnd : scan.i = intMax
  · rw [if_pos atEnd, ite_self]
  · rw [if_neg atEnd, if_neg (by omega)]

/-- With `last` zero every entry of the block is freed. -/
theorem mhpTimerDestroy_sweeps (first : timer.list[0]? = some (some entry)) (isZero : timer.last = 0)
    (block : timer.list.length = timer.amount.toNat) :
    Ensures (mhpTimerDestroy fuel timer) fun freed => freed = timer.list.reduceOption := by
  have turn (scan : Scan) (state : Scanning timer.list scan ∧ scan.i ≤ intMax) :
      (destroyTurn timer.amount 0 scan).Within
        (fun scan => Scanning timer.list scan ∧ scan.i ≤ intMax)
        fun freed => freed = timer.list.reduceOption := by
    obtain ⟨scanning, reached⟩ := state
    by_cases inside : scan.i < timer.amount.toNat
    · obtain ⟨next, isNext, scanningNext, turns⟩ := scanning.sweep inside block first reached
      rw [turns]
      split
      · trivial
      · exact ⟨scanningNext, by omega⟩
    · rw [destroyTurn, if_neg inside]
      show scan.freed = timer.list.reduceOption
      rw [scanning.freed, List.take_of_length_le]
      omega
  unfold mhpTimerDestroy
  rw [isZero]
  exact .of_turns turn ⟨scanning_start _, Nat.zero_le _⟩

/-- It returns exactly if `i` can count up to `amount`. -/
theorem mhpTimerDestroy_returns_iff (first : timer.list[0]? = some (some entry))
    (isZero : timer.last = 0) (block : timer.list.length = timer.amount.toNat) :
    (∃ fuel freed, mhpTimerDestroy fuel timer = some freed) ↔ timer.amount.toNat ≤ intMax := by
  unfold mhpTimerDestroy
  rw [isZero]
  constructor
  · rintro ⟨fuel, freed, returns⟩
    by_contra large
    have stuck (scan : Scan) (state : Scanning timer.list scan ∧ scan.i ≤ intMax) :
        destroyTurn timer.amount 0 scan = .fault ∨
          ∃ next, destroyTurn timer.amount 0 scan = .again next ∧
            Scanning timer.list next ∧ next.i ≤ intMax := by
      obtain ⟨scanning, reached⟩ := state
      obtain ⟨next, isNext, scanningNext, turns⟩ := scanning.sweep (by omega) block first reached
      rw [turns]
      by_cases atEnd : scan.i = intMax
      · exact .inl (if_pos atEnd)
      · exact .inr ⟨next, if_neg atEnd, scanningNext, by omega⟩
    rw [loop_eq_none_of_invariant stuck ⟨scanning_start _, Nat.zero_le _⟩] at returns
    contradiction
  · intro small
    have progress (scan : Scan) (scanning : Scanning timer.list scan) :
        (∃ freed, destroyTurn timer.amount 0 scan = .leave freed ∧ True) ∨
          ∃ next, destroyTurn timer.amount 0 scan = .again next ∧ Scanning timer.list next ∧
            timer.amount.toNat - next.i < timer.amount.toNat - scan.i := by
      by_cases inside : scan.i < timer.amount.toNat
      · obtain ⟨next, isNext, scanningNext, turns⟩ := scanning.sweep inside block first (by omega)
        rw [turns, if_neg (by omega)]
        exact .inr ⟨next, rfl, scanningNext, by omega⟩
      · rw [destroyTurn, if_neg inside]
        exact .inl ⟨_, rfl, trivial⟩
    obtain ⟨freed, returns, -⟩ := loop_of_measure (fun scan : Scan => timer.amount.toNat - scan.i)
      progress (scanning_start timer.list) (Nat.lt_succ_self _)
    exact ⟨_, freed, returns⟩

/-! ### Sifts that return -/

/-- The same cells are NULL, and every entry is still there. -/
structure Shuffled (before after : List (Option TimerEntry)) : Prop where
  length : after.length = before.length
  null : ∀ index, (cell after index).isSome = (cell before index).isSome
  entries : ∀ entry index, cell before index = some entry → ∃ other, cell after other = some entry

theorem Shuffled.refl (list : List (Option TimerEntry)) : Shuffled list list where
  length := rfl
  null := fun _ => rfl
  entries := fun _ index found => ⟨index, found⟩

theorem Shuffled.trans {middle : List (Option TimerEntry)} (first : Shuffled before middle)
    (second : Shuffled middle after) : Shuffled before after where
  length := second.length.trans first.length
  null := fun index => (second.null index).trans (first.null index)
  entries := by
    intro entry index found
    obtain ⟨between, foundBetween⟩ := first.entries entry index found
    exact second.entries entry between foundBetween

theorem swapPtr_shuffled {left right : UInt32} {leftEntry rightEntry : TimerEntry}
    (isLeft : cell list left.toNat = some leftEntry) (isRight : cell list right.toNat = some rightEntry)
    (swaps : swapPtr list left right = some after) : Shuffled list after := by
  obtain ⟨swapped, swapsTo, length, cells⟩ :=
    swapPtr_eq_some left right (lt_length_of_cell isLeft) (lt_length_of_cell isRight)
  obtain rfl := Option.some.inj (swaps.symm.trans swapsTo)
  refine ⟨length, ?_, ?_⟩
  · intro index
    rw [cells, Equiv.swap_apply_def]
    split
    · rename_i same
      rw [same, isLeft, isRight]
      rfl
    · split
      · rename_i same
        rw [same, isLeft, isRight]
        rfl
      · rfl
  · intro entry index found
    refine ⟨Equiv.swap left.toNat right.toNat index, ?_⟩
    rw [cells, Equiv.swap_apply_self]
    exact found

theorem adjustUp_shuffled (pos : UInt32) : Ensures (adjustUp fuel list pos) (Shuffled list) := by
  have turn (state : List (Option TimerEntry) × UInt32) (shuffled : Shuffled list state.1) :
      (adjustUpTurn state).Within (fun state => Shuffled list state.1) (Shuffled list) := by
    obtain ⟨now, pos⟩ := state
    simp only [adjustUpTurn]
    split
    · split
      · rename_i above entry isAbove isEntry
        split
        · split
          · rename_i swapped swaps
            exact shuffled.trans (swapPtr_shuffled isAbove isEntry swaps)
          · trivial
        · exact shuffled
      · trivial
    · exact shuffled
  exact .of_turns turn (.refl list)

theorem adjustDown_shuffled (pos : UInt32) : Ensures (adjustDown fuel list pos) (Shuffled list) := by
  have turn (state : List (Option TimerEntry) × UInt32 × UInt32) (shuffled : Shuffled list state.1) :
      (adjustDownTurn state).Within (fun state => Shuffled list state.1) (Shuffled list) := by
    obtain ⟨now, pos, lower⟩ := state
    simp only [adjustDownTurn]
    split
    · rename_i entry below isEntry isBelow
      split
      · split
        · trivial
        · rename_i swapped swaps
          split
          · exact shuffled.trans (swapPtr_shuffled isEntry isBelow swaps)
          · trivial
      · exact shuffled
    · trivial
  unfold adjustDown
  split
  · exact .of_turns turn (.refl list)
  · exact .of_none

/-! ### Calls that return -/

/-- Entries fill the cells up to `last`. -/
structure Stocked (timer : MhpTimer) : Prop where
  block : timer.list.length = timer.amount.toNat
  full : ∀ index ≤ timer.last.toNat, ∃ entry, cell timer.list index = some entry

theorem Stocked.list_zero (stocked : Stocked timer) : ∃ root, timer.list[0]? = some (some root) := by
  obtain ⟨root, isRoot⟩ := stocked.full 0 (Nat.zero_le _)
  exact ⟨root, cell_eq_some_iff.mp isRoot⟩

theorem Shuffled.full (shuffled : Shuffled before after) {index : Nat} {entry : TimerEntry}
    (found : cell before index = some entry) : ∃ other, cell after index = some other := by
  apply Option.isSome_iff_exists.mp
  rw [shuffled.null, found]
  rfl

/-- A push on a timer that is not empty. -/
theorem Stocked.push (stocked : Stocked timer) (room : timer.last.toNat + 1 < timer.amount.toNat)
    (entry : TimerEntry) (granted : Bool) :
    Ensures (mhpTimerPush fuel timer entry true granted) fun outcome =>
      outcome.2 = 0 ∧ outcome.1.amount = timer.amount ∧
        outcome.1.last.toNat = timer.last.toNat + 1 ∧ Stocked outcome.1 := by
  obtain ⟨root, isRoot⟩ := stocked.list_zero
  have lastNext : (timer.last + 1).toNat = timer.last.toNat + 1 := by
    have small := timer.amount.toNat_lt
    exact succ_toNat (by omega)
  have noGrowth : ¬ timer.last + 1 > timer.amount := by
    rw [gt_iff_lt, UInt32.lt_iff_toNat_lt, lastNext]
    omega
  have inside : timer.last.toNat + 1 < timer.list.length := by
    rw [stocked.block]
    exact room
  simp only [mhpTimerPush, isRoot, if_true, reserve, if_neg noGrowth, lastNext, if_pos inside]
  split
  · rename_i list rises
    have shuffled := adjustUp_shuffled _ list rises
    refine .of_some ⟨rfl, rfl, lastNext, ?_, ?_⟩
    · rw [shuffled.length, List.length_set]
      exact stocked.block
    · intro index le
      have cells := cell_set timer.list entry inside index
      by_cases isNew : index = timer.last.toNat + 1
      · rw [if_pos isNew] at cells
        exact shuffled.full cells
      · have before : index ≤ timer.last.toNat := by
          rw [lastNext] at le
          omega
        obtain ⟨other, found⟩ := stocked.full index before
        rw [if_neg isNew, found] at cells
        exact shuffled.full cells
  · exact .of_none

/-- A pop that is not the last one leaves what it hands out in the block. -/
theorem Stocked.pop (stocked : Stocked timer) (two : 0 < timer.last.toNat) :
    Ensures (nhpTimerPop fuel timer) fun outcome =>
      outcome.1.amount = timer.amount ∧ outcome.1.last.toNat + 1 = timer.last.toNat ∧
        Stocked outcome.1 ∧
          ∃ root index, outcome.2 = some root ∧ cell outcome.1.list index = some root := by
  obtain ⟨root, isRoot⟩ := stocked.list_zero
  obtain ⟨moved, isMoved⟩ := stocked.full timer.last.toNat (Nat.le_refl _)
  have lastNext : (timer.last - 1).toNat + 1 = timer.last.toNat := by
    have one : (1 : UInt32) ≤ timer.last := UInt32.le_iff_toNat_le.mpr two
    have positive : 1 ≤ timer.last.toNat := two
    rw [UInt32.toNat_sub_of_le _ _ one]
    exact Nat.sub_add_cancel positive
  unfold nhpTimerPop
  rw [isRoot]
  split
  · rename_i entry swapped isEntry swaps
    have exchanged := swapPtr_shuffled (cell_eq_some_iff.mpr isRoot) isMoved swaps
    split
    · rename_i list sinks
      have shuffled := exchanged.trans (adjustDown_shuffled 0 list sinks)
      obtain ⟨index, found⟩ := shuffled.entries root 0 (cell_eq_some_iff.mpr isRoot)
      refine .of_some ⟨rfl, lastNext, ⟨shuffled.length.trans stocked.block, ?_⟩, root, index,
        (Option.some.inj isEntry).symm, found⟩
      intro index le
      have before : index ≤ timer.last.toNat := Nat.le_trans le (Nat.le_of_succ_le (Nat.le_of_eq lastNext))
      obtain ⟨other, held⟩ := stocked.full index before
      exact shuffled.full held
    · exact .of_none
  · exact .of_none

/-! ### Runs -/

def pushedEntriesOf (events : List Event) : List TimerEntry :=
  events.filterMap fun
    | .pushed entry => some entry
    | .popped _ => none

def handedOut (events : List Event) : List TimerEntry :=
  events.filterMap fun
    | .pushed _ => none
    | .popped entry => entry

variable {size : UInt32} {calls : List Call} {session : Session} {events : List Event}

theorem mem_pushedEntriesOf : entry ∈ pushedEntriesOf events ↔ .pushed entry ∈ events := by
  simp only [pushedEntriesOf, List.mem_filterMap]
  constructor
  · rintro ⟨event, member, isEntry⟩
    cases event with
    | pushed other =>
        obtain rfl := Option.some.inj isEntry
        exact member
    | popped handed => contradiction
  · intro member
    exact ⟨_, member, rfl⟩

theorem mem_handedOut : entry ∈ handedOut events ↔ .popped (some entry) ∈ events := by
  simp only [handedOut, List.mem_filterMap]
  constructor
  · rintro ⟨event, member, isEntry⟩
    cases event with
    | pushed other => contradiction
    | popped handed =>
        obtain rfl : handed = some entry := isEntry
        exact member
  · intro member
    exact ⟨_, member, rfl⟩

@[simp] theorem pushedEntriesOf_pushed : pushedEntriesOf (events ++ [.pushed entry]) = pushedEntriesOf events ++ [entry] :=
  List.filterMap_append

@[simp] theorem pushedEntriesOf_popped (handed : Option TimerEntry) :
    pushedEntriesOf (events ++ [.popped handed]) = pushedEntriesOf events := by
  simp [pushedEntriesOf]

@[simp] theorem handedOut_pushed : handedOut (events ++ [.pushed entry]) = handedOut events := by
  simp [handedOut]

@[simp] theorem handedOut_popped : handedOut (events ++ [.popped (some entry)]) = handedOut events ++ [entry] :=
  List.filterMap_append

/-- What the calls so far have shown. -/
structure Booked (calls : List Call) (session : Session) (events : List Event) : Prop where
  fresh : ∀ entry, .pushed entry ∈ events → entry.addr < session.allocations
  once : (pushedEntriesOf events).Nodup
  pushed : (pushedEntriesOf events).length = pushes calls
  popped : (handedOut events).length ≤ pops calls

/-- What is freed cannot be less than what is queued. -/
theorem Booked.queued_le (booked : Booked calls session events) {freed : List TimerEntry}
    (frees : ∀ entry, Pending events entry → entry ∈ freed) :
    pushes calls ≤ freed.length + pops calls := by
  have covered : pushedEntriesOf events ⊆ freed ++ handedOut events := by
    intro entry isPushed
    rw [List.mem_append]
    by_cases isPopped : entry ∈ handedOut events
    · exact .inr isPopped
    · exact .inl (frees entry ⟨mem_pushedEntriesOf.mp isPushed, fun popped => isPopped (mem_handedOut.mpr popped)⟩)
  have lengths := (List.subperm_of_subset booked.once covered).length_le
  rw [List.length_append, booked.pushed] at lengths
  exact Nat.le_trans lengths (Nat.add_le_add_left booked.popped _)

/-- A timer with one entry, pushed and never touched since. -/
def holdingOne (size : UInt32) (entry : TimerEntry) : MhpTimer :=
  { mhpTimerCreate size with list := (mhpTimerCreate size).list.set 0 (some entry) }

/-- A run that pops only while two entries are queued. From the second push on,
one entry left over means that a pop has left its own in the block. -/
structure Course (size : UInt32) (calls : List Call) (session : Session) (events : List Event) : Prop where
  amount : session.timer.amount = (mhpTimerCreate size).amount
  untouched : pushes calls = 0 → pops calls = 0 ∧ session.timer = mhpTimerCreate size ∧ events = []
  single : pushes calls = 1 → ∃ entry, pops calls = 0 ∧ session.timer = holdingOne size entry ∧
    events = [.pushed entry]
  last : 0 < pushes calls → session.timer.last.toNat + 1 + pops calls = pushes calls
  stocked : 0 < pushes calls → Stocked session.timer
  behind : 1 < pushes calls → session.timer.last.toNat = 0 →
    ∃ entry index, .popped (some entry) ∈ events ∧ cell session.timer.list index = some entry

theorem course_start : Course size [] ((machine fuel size).start) [] where
  amount := rfl
  untouched := fun _ => ⟨rfl, rfl, rfl⟩
  single := fun one => absurd one (by decide)
  last := fun some => absurd some (by decide)
  stocked := fun some => absurd some (by decide)
  behind := fun several => absurd several (by decide)

theorem holdingOne_zero (size : UInt32) (entry : TimerEntry) :
    (holdingOne size entry).list[0]? = some (some entry) := by
  have inside : 0 < (mhpTimerCreate size).list.length := by
    rw [mhpTimerCreate, List.length_replicate]
    exact capacity_pos size
  exact List.getElem?_set_self inside

theorem holdingOne_stocked (size : UInt32) (entry : TimerEntry) : Stocked (holdingOne size entry) where
  block := by
    unfold holdingOne
    rw [List.length_set]
    exact List.length_replicate
  full := by
    intro index le
    obtain rfl : index = 0 := Nat.le_zero.mp le
    exact ⟨entry, cell_eq_some_iff.mpr (holdingOne_zero size entry)⟩

/-- The first push that finds memory. -/
theorem mhpTimerPush_create (size : UInt32) (entry : TimerEntry) (granted : Bool) :
    mhpTimerPush fuel (mhpTimerCreate size) entry true granted = some (holdingOne size entry, 0) := by
  have inside : 0 < (mhpTimerCreate size).list.length := by
    rw [mhpTimerCreate, List.length_replicate]
    exact capacity_pos size
  have null : (mhpTimerCreate size).list[0]? = some none := by
    have isNone := cell_mhpTimerCreate size 0
    rw [List.getElem?_eq_getElem inside]
    simp [mhpTimerCreate]
  simp only [mhpTimerPush, if_true, null]
  rfl

variable {expire : UInt32} {callback arg : Nat} {memory granted : Bool} {after : Session} {shown : List Event}

theorem step_push_eq (taken : step fuel session (.push expire callback arg memory granted) = some (after, shown)) :
    ∃ timer result, mhpTimerPush fuel session.timer ⟨session.allocations, expire, callback, arg⟩
        memory granted = some (timer, result) ∧ after = ⟨timer, session.allocations + 1⟩ ∧
      shown = if result = 0 then [.pushed ⟨session.allocations, expire, callback, arg⟩] else [] := by
  simp only [step] at taken
  split at taken
  · rename_i timer result pushes
    obtain ⟨rfl, rfl⟩ := Prod.mk.inj (Option.some.inj taken)
    exact ⟨timer, result, pushes, rfl, rfl⟩
  · contradiction

theorem step_pop_eq (taken : step fuel session .pop = some (after, shown)) :
    ∃ timer entry, nhpTimerPop fuel session.timer = some (timer, entry) ∧
      after = ⟨timer, session.allocations⟩ ∧ shown = [.popped entry] := by
  simp only [step] at taken
  split at taken
  · rename_i timer entry pops
    obtain ⟨rfl, rfl⟩ := Prod.mk.inj (Option.some.inj taken)
    exact ⟨timer, entry, pops, rfl, rfl⟩
  · contradiction

/-- A push that finds no memory changes nothing. -/
theorem Course.push_refused (course : Course size calls session events)
    (taken : step fuel session (.push expire callback arg false granted) = some (after, shown)) :
    Course size (calls ++ [.push expire callback arg false granted]) after (events ++ shown) ∧ shown = [] := by
  obtain ⟨timer, result, isPush, rfl, rfl⟩ := step_push_eq taken
  obtain ⟨rfl, rfl⟩ : session.timer = timer ∧ (-1 : Int) = result := by
    simpa [mhpTimerPush] using isPush
  refine ⟨?_, rfl⟩
  have noPush : pushes (calls ++ [.push expire callback arg false granted]) = pushes calls :=
    pushes_snoc _ _
  have noPop : pops (calls ++ [.push expire callback arg false granted]) = pops calls :=
    (pops_snoc _ _).trans (by simp)
  rw [if_neg (by decide), List.append_nil]
  constructor
  all_goals simp only [noPush, noPop]
  · exact course.amount
  · exact course.untouched
  · exact course.single
  · exact course.last
  · exact course.stocked
  · exact course.behind

/-- A push that finds memory, with room left. -/
theorem Course.push (course : Course size calls session events)
    (room : pushes calls < pops calls + capacity size)
    (taken : step fuel session (.push expire callback arg true granted) = some (after, shown)) :
    Course size (calls ++ [.push expire callback arg true granted]) after (events ++ shown) ∧
      shown = [.pushed ⟨session.allocations, expire, callback, arg⟩] := by
  obtain ⟨timer, result, isPush, rfl, rfl⟩ := step_push_eq taken
  generalize isEntry : (⟨session.allocations, expire, callback, arg⟩ : TimerEntry) = entry at isPush
  have onePush : pushes (calls ++ [.push expire callback arg true granted]) = pushes calls + 1 :=
    pushes_snoc _ _
  have noPop : pops (calls ++ [.push expire callback arg true granted]) = pops calls :=
    (pops_snoc _ _).trans (by simp)
  by_cases none : pushes calls = 0
  · obtain ⟨nonePopped, created, nothing⟩ := course.untouched none
    rw [created, mhpTimerPush_create] at isPush
    obtain ⟨rfl, rfl⟩ := Prod.mk.inj (Option.some.inj isPush)
    refine ⟨?_, if_pos rfl⟩
    rw [if_pos rfl, nothing, List.nil_append]
    constructor
    all_goals simp only [onePush, noPop, none, nonePopped]
    · rfl
    · intro absurdity
      contradiction
    · intro _
      exact ⟨entry, trivial, rfl, rfl⟩
    · intro _
      rfl
    · intro _
      exact holdingOne_stocked size entry
    · intro several
      contradiction
  · have positive := Nat.pos_of_ne_zero none
    have last := course.last positive
    have inside : session.timer.last.toNat + 1 < session.timer.amount.toNat := by
      rw [course.amount]
      show _ < capacity size
      omega
    obtain ⟨isZero, amount, lastNext, stocked⟩ : result = 0 ∧ timer.amount = session.timer.amount ∧
        timer.last.toNat = session.timer.last.toNat + 1 ∧ Stocked timer :=
      (course.stocked positive).push inside entry granted (timer, result) isPush
    rw [if_pos isZero]
    refine ⟨?_, rfl⟩
    constructor
    all_goals simp only [onePush, noPop]
    · exact amount.trans course.amount
    · intro absurdity
      contradiction
    · intro one
      omega
    · intro _
      omega
    · intro _
      exact stocked
    · intro _ isEmpty
      omega

/-- A pop with two entries queued. -/
theorem Course.pop (course : Course size calls session events) (two : pops calls + 2 ≤ pushes calls)
    (taken : step fuel session .pop = some (after, shown)) :
    Course size (calls ++ [.pop]) after (events ++ shown) ∧ ∃ root, shown = [.popped (some root)] ∧
      after.allocations = session.allocations := by
  obtain ⟨timer, handed, isPop, rfl, rfl⟩ := step_pop_eq taken
  have noPush : pushes (calls ++ [.pop]) = pushes calls := pushes_snoc _ _
  have onePop : pops (calls ++ [.pop]) = pops calls + 1 := pops_snoc _ _
  have positive : 0 < pushes calls := by omega
  have last := course.last positive
  obtain ⟨amount, lastNext, stocked, root, index, rfl, found⟩ : timer.amount = session.timer.amount ∧
      timer.last.toNat + 1 = session.timer.last.toNat ∧ Stocked timer ∧
        ∃ root index, handed = some root ∧ cell timer.list index = some root :=
    (course.stocked positive).pop (by omega) (timer, handed) isPop
  refine ⟨?_, root, rfl, rfl⟩
  constructor
  all_goals simp only [noPush, onePop]
  · exact amount.trans course.amount
  · intro none
    omega
  · intro one
    omega
  · intro _
    omega
  · intro _
    exact stocked
  · intro _ _
    exact ⟨root, index, by simp, found⟩

theorem booked_start : Booked [] (machine fuel size).start [] where
  fresh := by simp
  once := List.nodup_nil
  pushed := rfl
  popped := Nat.le_refl _

theorem Booked.push_refused (booked : Booked calls session events) :
    Booked (calls ++ [.push expire callback arg false granted]) ⟨timer, session.allocations + 1⟩ events where
  fresh := fun entry isPushed => Nat.lt_succ_of_lt (booked.fresh entry isPushed)
  once := booked.once
  pushed := by
    rw [pushes_snoc]
    exact booked.pushed
  popped := by
    rw [pops_snoc]
    exact booked.popped

theorem Booked.push (booked : Booked calls session events) :
    Booked (calls ++ [.push expire callback arg true granted]) ⟨timer, session.allocations + 1⟩
      (events ++ [.pushed ⟨session.allocations, expire, callback, arg⟩]) where
  fresh := by
    intro entry isPushed
    rcases List.mem_append.mp isPushed with before | new
    · exact Nat.lt_succ_of_lt (booked.fresh entry before)
    · obtain rfl : entry = ⟨session.allocations, expire, callback, arg⟩ := by simpa using new
      exact Nat.lt_succ_self _
  once := by
    rw [pushedEntriesOf_pushed, List.nodup_append]
    refine ⟨booked.once, by simp, ?_⟩
    intro entry before other new same
    have earlier := booked.fresh entry (mem_pushedEntriesOf.mp before)
    rw [same, List.mem_singleton.mp new] at earlier
    exact Nat.lt_irrefl _ earlier
  pushed := by
    rw [pushedEntriesOf_pushed, List.length_append, pushes_snoc]
    exact congrArg (· + 1) booked.pushed
  popped := by
    rw [handedOut_pushed, pops_snoc]
    exact booked.popped

theorem Booked.pop (booked : Booked calls session events) (root : TimerEntry) :
    Booked (calls ++ [.pop]) ⟨timer, session.allocations⟩ (events ++ [.popped (some root)]) where
  fresh := by
    intro entry isPushed
    exact booked.fresh entry (by simpa using isPushed)
  once := by
    rw [pushedEntriesOf_popped]
    exact booked.once
  pushed := by
    rw [pushedEntriesOf_popped, pushes_snoc]
    exact booked.pushed
  popped := by
    rw [handedOut_popped, List.length_append, pops_snoc]
    exact Nat.add_le_add_right booked.popped 1

theorem course_of_exec (exec : (machine fuel size).Exec calls session events)
    (keeps : KeepsOne (capacity size) calls) :
    Course size calls session events ∧ Booked calls session events := by
  induction exec with
  | start => exact ⟨course_start, booked_start⟩
  | @step calls session after events shown call exec taken inductionHypothesis =>
      obtain ⟨earlier, allowed⟩ := historically_snoc_iff.mp keeps
      obtain ⟨course, booked⟩ := inductionHypothesis earlier
      change step fuel session call = some (after, shown) at taken
      cases call with
      | push expire callback arg memory granted =>
          obtain ⟨timer, result, isPush, isAfter, -⟩ := step_push_eq taken
          cases memory with
          | false =>
              obtain ⟨courseNext, rfl⟩ := course.push_refused taken
              rw [List.append_nil] at courseNext ⊢
              rw [isAfter] at courseNext ⊢
              exact ⟨courseNext, booked.push_refused⟩
          | true =>
              obtain ⟨courseNext, rfl⟩ := course.push (allowed rfl) taken
              rw [isAfter] at courseNext ⊢
              exact ⟨courseNext, booked.push⟩
      | pop =>
          obtain ⟨courseNext, root, rfl, same⟩ := course.pop allowed taken
          obtain ⟨timer, -, -, isAfter, -⟩ := step_pop_eq taken
          rw [isAfter] at courseNext ⊢
          exact ⟨courseNext, booked.pop root⟩

/-! ### The end -/

/-- Nothing was queued, and nothing is freed. -/
theorem Course.destroys_untouched (course : Course size calls session events) (none : pushes calls = 0) :
    DestroysQueued session.timer events := by
  obtain ⟨-, created, rfl⟩ := course.untouched none
  have null : (mhpTimerCreate size).list[0]? = some Option.none := by
    have inside : 0 < (mhpTimerCreate size).amount.toNat := capacity_pos size
    simp only [mhpTimerCreate, List.getElem?_replicate] at inside ⊢
    rw [if_pos inside]
  rw [created]
  refine ⟨1, [], mhpTimerDestroy_empty null rfl (capacity_pos size), ?_, ?_⟩
  · rintro entry ⟨isPushed, -⟩
    contradiction
  · intro entry isPopped
    contradiction

theorem reduceOption_holdingOne (size : UInt32) (entry : TimerEntry) :
    (holdingOne size entry).list.reduceOption = [entry] := by
  obtain ⟨count, isCount⟩ := Nat.exists_eq_add_of_le' (capacity_pos size)
  have block : (mhpTimerCreate size).list = List.replicate (count + 1) none := congrArg (List.replicate · none) isCount
  rw [holdingOne, block, List.replicate_succ, List.set_cons_zero, List.reduceOption_cons_of_some,
    List.reduceOption_replicate_none]

/-- The only entry is freed if the scan comes to an end. -/
theorem Course.destroys_single_iff (course : Course size calls session events) (one : pushes calls = 1) :
    DestroysQueued session.timer events ↔ capacity size ≤ intMax := by
  obtain ⟨entry, -, holds, rfl⟩ := course.single one
  have first := holdingOne_zero size entry
  have block := (holdingOne_stocked size entry).block
  have returns : (∃ fuel freed, mhpTimerDestroy fuel (holdingOne size entry) = some freed) ↔
      capacity size ≤ intMax :=
    mhpTimerDestroy_returns_iff first rfl block
  rw [← returns, holds]
  constructor
  · rintro ⟨fuel, freed, destroys, -⟩
    exact ⟨fuel, freed, destroys⟩
  · rintro ⟨fuel, freed, destroys⟩
    have isFreed : freed = (holdingOne size entry).list.reduceOption :=
      mhpTimerDestroy_sweeps first rfl block freed destroys
    rw [reduceOption_holdingOne] at isFreed
    refine ⟨fuel, freed, destroys, ?_, ?_⟩
    · rintro other ⟨isPushed, -⟩
      obtain rfl : other = entry := by simpa using isPushed
      rw [isFreed, List.count_singleton_self]
    · intro other isPopped
      simp at isPopped

/-- Of several entries one is left out, or one handed out is freed. -/
theorem Course.not_destroys_several (course : Course size calls session events)
    (booked : Booked calls session events) (several : 1 < pushes calls) :
    ¬ DestroysQueued session.timer events := by
  rintro ⟨fuel, freed, destroys, once, spared⟩
  have positive : 0 < pushes calls := Nat.lt_of_succ_lt several
  have last := course.last positive
  have stocked := course.stocked positive
  rcases Nat.eq_zero_or_pos session.timer.last.toNat with isZero | more
  · obtain ⟨root, isRoot⟩ := stocked.list_zero
    obtain ⟨entry, index, isPopped, found⟩ := course.behind several isZero
    have lastZero : session.timer.last = 0 := UInt32.toNat_inj.mp isZero
    have isFreed := mhpTimerDestroy_sweeps isRoot lastZero stocked.block freed destroys
    have member : entry ∈ freed := by
      rw [isFreed, List.reduceOption_mem_iff]
      exact List.mem_of_getElem? (cell_eq_some_iff.mp found)
    exact spared entry isPopped member
  · have short := mhpTimerDestroy_length_le stocked.block more freed destroys
    have isFreed (entry : TimerEntry) (isPending : Pending events entry) : entry ∈ freed := by
      apply List.count_pos_iff.mp
      rw [once entry isPending]
      exact Nat.one_pos
    have enough := booked.queued_le isFreed
    omega

/-- After any run that pops only while two entries are queued, `mhp_timer_destroy`
frees what it should exactly if no push has found memory, or one has and the
cells can be counted by an `int`. -/
theorem destroysQueued_iff (exec : (machine fuel size).Exec calls session events)
    (keeps : KeepsOne (capacity size) calls) :
    DestroysQueued session.timer events ↔
      pushes calls = 0 ∨ (pushes calls = 1 ∧ capacity size ≤ intMax) := by
  obtain ⟨course, booked⟩ := course_of_exec exec keeps
  rcases Nat.lt_trichotomy (pushes calls) 1 with none | one | several
  · have isZero : pushes calls = 0 := Nat.lt_one_iff.mp none
    exact ⟨fun _ => .inl isZero, fun _ => course.destroys_untouched isZero⟩
  · rw [course.destroys_single_iff one]
    omega
  · have fails := course.not_destroys_several booked several
    constructor
    · intro destroys
      exact absurd destroys fails
    · intro few
      omega

/-- Two entries go in and one of them out. -/
def popOfTwo : List Call := [.push 5 0 0 true true, .push 5 0 0 true true, .pop]

theorem popOfTwo_destroysQueued_iff :
    DestroysQueued (((machine 9 9).run popOfTwo).get rfl).1.timer (((machine 9 9).run popOfTwo).get rfl).2 ↔
      pushes popOfTwo = 0 ∨ (pushes popOfTwo = 1 ∧ capacity 9 ≤ intMax) :=
  destroysQueued_iff ((machine 9 9).exec_of_isSome popOfTwo rfl) (by decide)

/-- Of two entries the scan frees one. -/
theorem twoQueued_not_destroysQueued :
    ¬ DestroysQueued (((machine 9 9).run [.push 1 0 0 true true, .push 2 0 0 true true]).get rfl).1.timer
      (((machine 9 9).run [.push 1 0 0 true true, .push 2 0 0 true true]).get rfl).2 := by
  rintro ⟨fuel, freed, destroys, once, -⟩
  have isSecond := once ⟨1, 2, 0, 0⟩ (by unfold Pending; decide)
  cases fuel with
  | zero => contradiction
  | succ fuel =>
      have isFreed : [(⟨0, 1, 0, 0⟩ : TimerEntry)] = freed := Option.some.inj destroys
      rw [← isFreed] at isSecond
      exact absurd isSecond (by decide)

end SimpleBasicComponents.MinHeapTimer
