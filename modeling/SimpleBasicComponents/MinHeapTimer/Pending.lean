import SimpleBasicComponents.MinHeapTimer.Sift
import SimpleBasicComponents.Semantics.History

/-!
What a priority queue owes, and the live range of the min-heap timer.

Owns: the entries a history leaves pending, the requirements on the top and on
what is handed out, the invariant of the live range, and its preservation by
`mhp_timer_push`. The invariant is not the heap order but less: the root expires
no later than any other entry. `adjust_up` keeps it, and it is all that a push
or a good pop needs.
-/

namespace SimpleBasicComponents.MinHeapTimer

open SimpleBasicComponents.Semantics

/-! ### What a priority queue owes -/

/-- Pushed and not handed out since. -/
def Pending (events : List Event) (entry : TimerEntry) : Prop :=
  .pushed entry ∈ events ∧ .popped (some entry) ∉ events

def LeastPending (events : List Event) (entry : TimerEntry) : Prop :=
  Pending events entry ∧ ∀ other, Pending events other → entry.expire ≤ other.expire

/-- `mhp_timer_top` is a least pending entry, or `NULL` when none is pending. -/
def TopLeast (session : Session) (events : List Event) : Prop :=
  match mhpTimerTop session.timer with
  | some entry => LeastPending events entry
  | none => ∀ entry, ¬ Pending events entry

def HandsLeast (earlier : List Event) : Event → Prop
  | .pushed _ => True
  | .popped handed => ∃ entry, handed = some entry ∧ LeastPending earlier entry

def Call.adds : Call → Bool
  | .push _ _ _ memory _ => memory
  | .pop => false

def pushes (calls : List Call) : Nat := calls.countP Call.adds

def pops (calls : List Call) : Nat := calls.count .pop

/-- A pop needs an entry to hand out, and a push room for its entry. -/
def CallAllowed (capacity : Nat) (earlier : List Call) (call : Call) : Prop :=
  match call with
  | .push _ _ _ memory _ => memory = true → pushes earlier < pops earlier + capacity
  | .pop => pops earlier < pushes earlier

def Allowed (capacity : Nat) (calls : List Call) : Prop :=
  Historically (CallAllowed capacity) calls

instance (capacity : Nat) (earlier : List Call) (call : Call) :
    Decidable (CallAllowed capacity earlier call) := by
  unfold CallAllowed
  cases call <;> infer_instance

instance (capacity : Nat) (calls : List Call) : Decidable (Allowed capacity calls) :=
  inferInstanceAs (Decidable (Historically (CallAllowed capacity) calls))

/-- All the calls return, and after each of them the top is a least pending
entry; each pop hands out a least pending entry, and no entry is handed out
twice. -/
def ServesLeast (fuel : Nat) (size : UInt32) (calls : List Call) : Prop :=
  ∃ session events, (machine fuel size).Exec calls session events ∧
    (machine fuel size).Always TopLeast calls ∧ Historically HandsLeast events ∧
      ∀ entry, events.count (.popped (some entry)) ≤ 1

/-! ### Histories -/

theorem pending_pushed_iff {events : List Event} {entry other : TimerEntry}
    (unpopped : .popped (some entry) ∉ events) :
    Pending (events ++ [.pushed entry]) other ↔ Pending events other ∨ other = entry := by
  constructor
  · rintro ⟨pushed, notPopped⟩
    simp only [List.mem_append, List.mem_singleton, reduceCtorEq, or_false, Event.pushed.injEq]
      at pushed notPopped
    rcases pushed with before | same
    · exact .inl ⟨before, notPopped⟩
    · exact .inr same
  · rintro (⟨pushed, notPopped⟩ | rfl)
    · exact ⟨List.mem_append_left _ pushed, by simpa using notPopped⟩
    · exact ⟨by simp, by simpa using unpopped⟩

theorem pending_popped_iff {events : List Event} {entry other : TimerEntry} :
    Pending (events ++ [.popped (some entry)]) other ↔ Pending events other ∧ other ≠ entry := by
  simp only [Pending, List.mem_append, List.mem_singleton, reduceCtorEq, or_false, not_or,
    Event.popped.injEq, Option.some.injEq, and_assoc, ne_eq]

/-- What is handed out was pending, so it is handed out once. -/
theorem count_popped_le_one {events : List Event} (hands : Historically HandsLeast events)
    (entry : TimerEntry) : events.count (.popped (some entry)) ≤ 1 := by
  induction events using List.reverseRecOn with
  | nil => simp
  | append_singleton events event inductionHypothesis =>
      obtain ⟨before, atEnd⟩ := historically_snoc_iff.mp hands
      have earlier := inductionHypothesis before
      rw [List.count_append]
      by_cases same : event = .popped (some entry)
      · subst same
        obtain ⟨handed, isHanded, ⟨-, notPopped⟩, -⟩ := atEnd
        obtain rfl := Option.some.inj isHanded
        rw [List.count_eq_zero_of_not_mem notPopped]
        simp
      · rw [List.count_singleton, if_neg (by simpa using same)]
        exact earlier

theorem pushes_snoc (calls : List Call) (call : Call) :
    pushes (calls ++ [call]) = pushes calls + if call.adds then 1 else 0 := by
  rw [pushes, List.countP_append, List.countP_singleton]
  rfl

theorem pops_snoc (calls : List Call) (call : Call) :
    pops (calls ++ [call]) = pops calls + if call = .pop then 1 else 0 := by
  rw [pops, List.count_append, List.count_singleton]
  simp [pops]

/-! ### The live range -/

/-- The cells below `live` hold distinct entries, a least one at the root. -/
structure Live (timer : MhpTimer) (live : Nat) : Prop where
  full : ∀ index < live, ∃ entry, cell timer.list index = some entry
  distinct : ∀ left right entry, left < live → right < live →
    cell timer.list left = some entry → cell timer.list right = some entry → left = right
  last : timer.last.toNat = live - 1
  empty : live = 0 → cell timer.list 0 = none
  least : live ≠ 0 → RootLeast timer.list (live - 1)

structure Sound (size : UInt32) (live : Nat) (session : Session) (events : List Event) : Prop where
  amount : session.timer.amount = (mhpTimerCreate size).amount
  length : session.timer.list.length = session.timer.amount.toNat
  range : Live session.timer live
  pending : ∀ entry, Pending events entry ↔
    ∃ index < live, cell session.timer.list index = some entry
  fresh : ∀ entry, .pushed entry ∈ events → entry.addr < session.allocations
  handed : ∀ entry, .popped (some entry) ∈ events → .pushed entry ∈ events

/-- The number of entries `mhp_timer_create` makes room for. -/
def capacity (size : UInt32) : Nat := (mhpTimerCreate size).amount.toNat

theorem capacity_ge (size : UInt32) : 9 ≤ capacity size := by
  unfold capacity mhpTimerCreate
  simp only
  split
  · rename_i bigger
    exact Nat.le_of_lt (UInt32.lt_iff_toNat_lt.mp bigger)
  · exact Nat.le_refl 9

theorem capacity_pos (size : UInt32) : 0 < capacity size :=
  Nat.lt_of_lt_of_le (by decide) (capacity_ge size)

/-- `calloc` leaves every cell NULL. -/
theorem cell_mhpTimerCreate (size : UInt32) (index : Nat) :
    cell (mhpTimerCreate size).list index = none := by
  simp only [mhpTimerCreate, cell, List.getElem?_replicate]
  rw [apply_ite Option.join]
  exact ite_self none

section

variable {size : UInt32} {live fuel : Nat} {session : Session} {events : List Event}

theorem sound_start : Sound size 0 (machine fuel size).start [] where
  amount := rfl
  length := by simp [machine, mhpTimerCreate]
  range :=
    { full := by intro index below; omega
      distinct := by intro left right entry below; omega
      last := rfl
      empty := fun _ => cell_mhpTimerCreate size 0
      least := fun notZero => absurd rfl notZero }
  pending := by
    intro entry
    simp [Pending]
  fresh := by simp
  handed := by simp

theorem Sound.topLeast (sound : Sound size live session events) : TopLeast session events := by
  unfold TopLeast
  have top : mhpTimerTop session.timer = cell session.timer.list 0 := rfl
  by_cases isEmpty : live = 0
  · rw [top, sound.range.empty isEmpty]
    intro entry isPending
    obtain ⟨index, below, -⟩ := (sound.pending entry).mp isPending
    omega
  · obtain ⟨root, isRoot, least⟩ := sound.range.least isEmpty
    rw [top, isRoot]
    refine ⟨(sound.pending root).mpr ⟨0, by omega, isRoot⟩, ?_⟩
    intro other isPending
    obtain ⟨index, below, found⟩ := (sound.pending other).mp isPending
    exact least index (by omega) other found

/-- The root is what a pop should hand out. -/
theorem Sound.root_leastPending (sound : Sound size live session events) {root : TimerEntry}
    (isRoot : cell session.timer.list 0 = some root) : LeastPending events root := by
  have top := sound.topLeast
  unfold TopLeast at top
  rw [show mhpTimerTop session.timer = cell session.timer.list 0 from rfl, isRoot] at top
  exact top

/-! ### Push -/

theorem Sound.list_zero (sound : Sound size live session events) :
    session.timer.list[0]? = some (cell session.timer.list 0) := by
  have enough := capacity_ge size
  unfold capacity at enough
  rw [← sound.amount, ← sound.length] at enough
  have inside : 0 < session.timer.list.length := by omega
  simp [cell, List.getElem?_eq_getElem inside]

theorem cell_set (list : List (Option TimerEntry)) (entry : TimerEntry) {position : Nat}
    (inside : position < list.length) (index : Nat) :
    cell (list.set position (some entry)) index =
      if index = position then some entry else cell list index := by
  unfold cell
  rw [List.getElem?_set]
  by_cases same : index = position
  · subst same
    simp [inside]
  · simp [same, Ne.symm same]

/-- A push that found memory: one more live entry, the new one among them. -/
structure Added (before after : MhpTimer) (live : Nat) (entry : TimerEntry) : Prop where
  amount : after.amount = before.amount
  length : after.list.length = before.list.length
  range : Live after (live + 1)
  entries : ∀ other, (∃ index < live + 1, cell after.list index = some other) ↔
    (∃ index < live, cell before.list index = some other) ∨ other = entry

/-- The first entry goes to the root. -/
private theorem mhpTimerPush_empty (sound : Sound size 0 session events) (entry : TimerEntry)
    (granted : Bool) :
    ∃ timer, mhpTimerPush fuel session.timer entry true granted = some (timer, 0) ∧
      Added session.timer timer 0 entry := by
  have inside : 0 < session.timer.list.length := by
    rw [sound.length, sound.amount]
    exact Nat.lt_of_lt_of_le (by decide) (capacity_ge size)
  have noRoot := sound.range.empty rfl
  have cells := cell_set session.timer.list entry inside
  refine ⟨{ session.timer with list := session.timer.list.set 0 (some entry) }, ?_, rfl, ?_, ?_, ?_⟩
  · simp only [mhpTimerPush, sound.list_zero, noRoot, if_true]
  · exact List.length_set
  · refine ⟨?_, ?_, sound.range.last, fun zero => by omega, fun _ => ?_⟩
    · intro index below
      exact ⟨entry, by rw [cells, if_pos (by omega)]⟩
    · intro left right other leftLt rightLt _ _
      omega
    · refine ⟨entry, by rw [cells, if_pos rfl], ?_⟩
      intro index le other found
      rw [cells, if_pos (by omega)] at found
      obtain rfl := Option.some.inj found
      exact UInt32.le_refl _
  · intro other
    constructor
    · rintro ⟨index, below, found⟩
      rw [cells, if_pos (by omega)] at found
      exact .inr (Option.some.inj found).symm
    · rintro (⟨index, below, -⟩ | rfl)
      · omega
      · exact ⟨0, by omega, by rw [cells, if_pos rfl]⟩

/-- Any other goes to the end and rises. -/
private theorem mhpTimerPush_rises (sound : Sound size live session events) (entry : TimerEntry)
    (granted : Bool) (isEmpty : live ≠ 0) (room : live < capacity size)
    (enough : capacity size ≤ fuel) (unpending : ¬ Pending events entry) :
    ∃ timer, mhpTimerPush fuel session.timer entry true granted = some (timer, 0) ∧
      Added session.timer timer live entry := by
  have inside : live < session.timer.list.length := by
    rw [sound.length, sound.amount]
    exact room
  obtain ⟨root, isRoot, least⟩ := sound.range.least isEmpty
  have last := sound.range.last
  have noWrap : session.timer.last.toNat + 1 < 2 ^ 32 := by
    have := session.timer.amount.toNat_lt
    rw [sound.length] at inside
    omega
  have lastNext : (session.timer.last + 1).toNat = live := by
    rw [succ_toNat noWrap]
    omega
  have noGrowth : ¬ session.timer.last + 1 > session.timer.amount := by
    rw [gt_iff_lt, UInt32.not_lt, UInt32.le_iff_toNat_le, lastNext, ← sound.length]
    exact Nat.le_of_lt inside
  have cells := cell_set session.timer.list entry inside
  have fullNext : ∀ index ≤ live,
      ∃ other, cell (session.timer.list.set live (some entry)) index = some other := by
    intro index le
    rw [cells]
    by_cases isNew : index = live
    · exact ⟨entry, if_pos isNew⟩
    · rw [if_neg isNew]
      exact sound.range.full index (by omega)
  have leastNext : RootLeast (session.timer.list.set live (some entry)) (live - 1) := by
    refine ⟨root, by rw [cells, if_neg (Ne.symm isEmpty), isRoot], ?_⟩
    intro index le other found
    rw [cells, if_neg (by omega)] at found
    exact least index le other found
  have distinctNext : ∀ left right other, left < live + 1 → right < live + 1 →
      cell (session.timer.list.set live (some entry)) left = some other →
      cell (session.timer.list.set live (some entry)) right = some other → left = right := by
    have notNew : ∀ index < live, cell session.timer.list index ≠ some entry := by
      intro index below found
      exact unpending ((sound.pending entry).mpr ⟨index, below, found⟩)
    intro left right other leftLt rightLt leftCell rightCell
    rw [cells] at leftCell rightCell
    split at leftCell <;> split at rightCell
    · omega
    · obtain rfl := Option.some.inj leftCell
      exact absurd rightCell (notNew right (by omega))
    · obtain rfl := Option.some.inj rightCell
      exact absurd leftCell (notNew left (by omega))
    · exact sound.range.distinct left right other (by omega) (by omega) leftCell rightCell
  obtain ⟨list, rises, rearranged, rootLeast⟩ :=
    adjustUp_spec (session.timer.last + 1) (by omega) (lastNext ▸ fullNext) (lastNext ▸ leastNext)
      (show (session.timer.last + 1).toNat < fuel by omega)
  rw [lastNext] at rises rearranged rootLeast
  refine ⟨{ session.timer with list := list, last := session.timer.last + 1 }, ?_, rfl, ?_, ?_, ?_⟩
  · simp only [mhpTimerPush, sound.list_zero, isRoot, if_true, reserve, if_neg noGrowth, lastNext,
      if_pos inside, rises]
  · rw [rearranged.1]
    exact List.length_set
  · refine ⟨?_, ?_, lastNext, fun zero => by omega, fun _ => rootLeast⟩
    · exact rearranged.full fun index below => fullNext index (Nat.le_of_lt_succ below)
    · intro left right other leftLt rightLt
      exact rearranged.injective distinctNext leftLt rightLt
  · intro other
    rw [rearranged.entries_iff]
    constructor
    · rintro ⟨index, below, found⟩
      rw [cells] at found
      split at found
      · exact .inr (Option.some.inj found).symm
      · exact .inl ⟨index, by omega, found⟩
    · rintro (⟨index, below, found⟩ | rfl)
      · exact ⟨index, by omega, by rw [cells, if_neg (by omega), found]⟩
      · exact ⟨live, by omega, by rw [cells, if_pos rfl]⟩

theorem mhpTimerPush_spec (sound : Sound size live session events) (entry : TimerEntry)
    (granted : Bool) (room : live < capacity size) (enough : capacity size ≤ fuel)
    (unpending : ¬ Pending events entry) :
    ∃ timer, mhpTimerPush fuel session.timer entry true granted = some (timer, 0) ∧
      Added session.timer timer live entry := by
  by_cases isEmpty : live = 0
  · subst isEmpty
    exact mhpTimerPush_empty sound entry granted
  · exact mhpTimerPush_rises sound entry granted isEmpty room enough unpending

theorem Sound.push (sound : Sound size live session events) (enough : capacity size ≤ fuel)
    (expire : UInt32) (callback arg : Nat) (memory granted : Bool)
    (room : memory = true → live < capacity size) :
    ∃ next shown, step fuel session (.push expire callback arg memory granted) = some (next, shown) ∧
      Sound size (live + if memory then 1 else 0) next (events ++ shown) ∧
      ∀ earlier, ∀ event ∈ shown, HandsLeast earlier event := by
  have freshNext : ∀ entry, .pushed entry ∈ events → entry.addr < session.allocations + 1 :=
    fun entry pushed => Nat.lt_succ_of_lt (sound.fresh entry pushed)
  cases memory with
  | false =>
      refine ⟨⟨session.timer, session.allocations + 1⟩, [], by simp [step, mhpTimerPush], ?_, by simp⟩
      rw [List.append_nil]
      exact ⟨sound.amount, sound.length, sound.range, sound.pending, freshNext, sound.handed⟩
  | true =>
      generalize isEntry : (⟨session.allocations, expire, callback, arg⟩ : TimerEntry) = entry
      have unpushed : .pushed entry ∉ events := by
        intro pushed
        have below := sound.fresh entry pushed
        rw [← isEntry] at below
        exact Nat.lt_irrefl _ below
      obtain ⟨timer, pushes, amount, length, range, entries⟩ :=
        mhpTimerPush_spec sound entry granted (room rfl) enough (fun pending => unpushed pending.1)
      refine ⟨⟨timer, session.allocations + 1⟩, [.pushed entry], ?_, ?_, ?_⟩
      · simp [step, isEntry, pushes]
      · refine ⟨amount.trans sound.amount, ?_, range, ?_, ?_, ?_⟩
        · rw [length, sound.length, amount]
        · intro other
          rw [pending_pushed_iff fun popped => unpushed (sound.handed entry popped), sound.pending]
          exact (entries other).symm
        · intro other pushed
          rcases List.mem_append.mp pushed with before | new
          · exact freshNext other before
          · obtain rfl : other = entry := by simpa using new
            rw [← isEntry]
            exact Nat.lt_succ_self _
        · intro other popped
          exact List.mem_append_left _ (sound.handed other (by simpa using popped))
      · intro earlier event member
        obtain rfl := List.mem_singleton.mp member
        exact trivial

end

end SimpleBasicComponents.MinHeapTimer
