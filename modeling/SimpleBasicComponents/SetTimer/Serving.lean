import SimpleBasicComponents.Semantics.History
import SimpleBasicComponents.SetTimer.Model

/-!
What the ordered-set timer does for its tasks.

Owns: the tasks still pending after a history, what each event owes to them, and
the theorem that the allowed runs of calls and callbacks that keep to it are those
whose timeouts fit a `time_t`. The set
always holds exactly the pending tasks; a task whose callback runs stays in it
until the callback has returned, so the iterator of `check_task` stays valid
whatever the callback adds, and whatever other tasks it deletes.
-/

namespace SimpleBasicComponents.SetTimer

open SimpleBasicComponents.Semantics

variable {Func : Type*}

/-! ### Pending tasks -/

def Added (events : List (Event Func)) (task : TaskNode Func) : Prop :=
  ∃ timeout func tick, .added timeout func tick task ∈ events

/-- Added, and neither deleted nor removed since. -/
def Pending (events : List (Event Func)) (task : TaskNode Func) : Prop :=
  Added events task ∧ .deleted (handle task) true ∉ events ∧ .removed task ∉ events

/-- What an event owes to the events before it. -/
def Served (earlier : List (Event Func)) : Event Func → Prop
  | .added timeout func tick task =>
      task.timeout.toInt = timeout.toInt + tick.toInt ∧ task.func = func ∧
        ∀ other, Added earlier other → other.id ≠ task.id
  | .deleted task result => result = true ↔ ∃ pending, Pending earlier pending ∧ handle pending = task
  | .idle tick => ∀ task, Pending earlier task → tick < task.timeout
  | .fired task tick =>
      Pending earlier task ∧ task.timeout ≤ tick ∧
        (∀ other, Pending earlier other → other = task ∨ less (handle task) (handle other) = true) ∧
        ∀ before, .fired task before ∉ earlier
  | .removed task => Pending earlier task ∧ ∃ tick, .fired task tick ∈ earlier

/-- The set holds the pending tasks and no others, and every event was as it should be. -/
structure Faithful (session : Session Func) (events : List (Event Func)) : Prop where
  contents : ∀ task, task ∈ session.timer.taskSets ↔ Pending events task
  served : Historically Served events

/-- What callers and callbacks may do: a callback does not check the timer and
does not delete its own task, and it returns when it is running. -/
def Allowed (session : Session Func) : Call Func → Prop
  | .add _ _ _ => True
  | .del task => ∀ it ∈ session.running, handle it ≠ task
  | .check _ => session.running = []
  | .finish => session.running ≠ []

instance [DecidableEq Func] (session : Session Func) (call : Call Func) :
    Decidable (Allowed session call) := by
  cases call <;> unfold Allowed <;> infer_instance

def adds (calls : List (Call Func)) : Nat :=
  (calls.filter fun
    | .add _ _ _ => true
    | _ => false).length

variable {session next : Session Func} {events shown : List (Event Func)} {calls : List (Call Func)}
  {task other : TaskNode Func}

/-- An event that is no `add_task` adds nothing. -/
theorem added_snoc_iff {event : Event Func}
    (notAdded : ∀ timeout func tick new, event ≠ .added timeout func tick new) :
    Added (events ++ [event]) task ↔ Added events task := by
  unfold Added
  constructor
  · intro added
    have ⟨timeout, func, tick, member⟩ := added
    rcases List.mem_append.mp member with before | now
    · exact ⟨timeout, func, tick, before⟩
    · exact absurd (List.mem_singleton.mp now).symm (notAdded timeout func tick task)
  · intro added
    have ⟨timeout, func, tick, member⟩ := added
    exact ⟨timeout, func, tick, List.mem_append_left _ member⟩

theorem added_snoc_added_iff {timeout tick : Int64} {func : Func} {new : TaskNode Func} :
    Added (events ++ [.added timeout func tick new]) task ↔ Added events task ∨ task = new := by
  unfold Added
  constructor
  · intro added
    have ⟨otherTimeout, otherFunc, otherTick, member⟩ := added
    rcases List.mem_append.mp member with before | now
    · exact .inl ⟨otherTimeout, otherFunc, otherTick, before⟩
    · exact .inr (Event.added.inj (List.mem_singleton.mp now)).2.2.2
  · intro either
    rcases either with added | rfl
    · have ⟨otherTimeout, otherFunc, otherTick, member⟩ := added
      exact ⟨otherTimeout, otherFunc, otherTick, List.mem_append_left _ member⟩
    · exact ⟨timeout, func, tick, List.mem_append_right _ (List.mem_singleton_self _)⟩

@[simp] theorem pending_deleted (sought : TaskNodeBase) :
    Pending (events ++ [.deleted sought true]) task ↔ Pending events task ∧ handle task ≠ sought := by
  rw [Pending, added_snoc_iff (by simp), Pending]
  simp only [List.mem_append, List.mem_singleton, Event.deleted.injEq, and_true, reduceCtorEq,
    or_false, not_or]
  tauto

@[simp] theorem pending_removed (gone : TaskNode Func) :
    Pending (events ++ [.removed gone]) task ↔ Pending events task ∧ task ≠ gone := by
  rw [Pending, added_snoc_iff (by simp), Pending]
  simp only [List.mem_append, List.mem_singleton, Event.removed.injEq, reduceCtorEq, or_false,
    not_or]
  tauto

@[simp] theorem pending_notDeleted (sought : TaskNodeBase) :
    Pending (events ++ [.deleted sought false]) task ↔ Pending events task := by
  rw [Pending, added_snoc_iff (by simp)]
  simp [Pending]

@[simp] theorem pending_idle (tick : Int64) :
    Pending (events ++ [.idle tick]) task ↔ Pending events task := by
  rw [Pending, added_snoc_iff (by simp)]
  simp [Pending]

@[simp] theorem pending_fired (due : TaskNode Func) (tick : Int64) :
    Pending (events ++ [.fired due tick]) task ↔ Pending events task := by
  rw [Pending, added_snoc_iff (by simp)]
  simp [Pending]

/-! ### The order -/

theorem less_iff {lhs rhs : TaskNodeBase} :
    less lhs rhs = true ↔ lhs.timeout.toInt < rhs.timeout.toInt ∨
      (lhs.timeout.toInt = rhs.timeout.toInt ∧ lhs.id.toNat < rhs.id.toNat) := by
  have earlier := @Int64.lt_iff_toInt_lt lhs.timeout rhs.timeout
  have later := @Int64.lt_iff_toInt_lt rhs.timeout lhs.timeout
  have first := @UInt64.lt_iff_toNat_lt lhs.id rhs.id
  unfold less
  by_cases before : lhs.timeout < rhs.timeout
  · simp [before, earlier.mp before]
  · have notBefore := mt earlier.mpr before
    by_cases after : rhs.timeout < lhs.timeout
    · have isAfter := later.mp after
      simp only [before, gt_iff_lt, after, if_true, if_false, Bool.false_eq_true, false_iff]
      omega
    · have notAfter := mt later.mpr after
      by_cases lower : lhs.id < rhs.id
      · have isLower := first.mp lower
        simp only [before, gt_iff_lt, after, lower, if_true, if_false, true_iff]
        omega
      · have notLower := mt first.mpr lower
        simp only [before, gt_iff_lt, after, lower, if_false, Bool.false_eq_true, false_iff]
        omega

theorem strict_less : SortedSet.Strict less := by
  refine ⟨?_, ?_, ?_⟩
  · intro one
    rw [← Bool.not_eq_true, less_iff]
    omega
  · intro one two three
    rw [less_iff, less_iff, less_iff]
    omega
  · intro one two
    rw [← Bool.not_eq_true, ← Bool.not_eq_true, less_iff, less_iff]
    intro notBefore notAfter
    have sameTimeout : one.timeout = two.timeout := Int64.toInt_inj.mp (by omega)
    have sameId : one.id = two.id := UInt64.toNat_inj.mp (by omega)
    cases one
    cases two
    simp_all

/-! ### The invariant -/

/-- After `count` adds an id stands for one task. -/
structure Named (count : Nat) (events : List (Event Func)) : Prop where
  fresh : ∀ task, Added events task → task.id.toNat < count
  unique : ∀ task other, Added events task → Added events other → task.id = other.id → task = other
  deleted : ∀ task, .deleted task true ∈ events → ∃ added, Added events added ∧ handle added = task
  removed : ∀ task, .removed task ∈ events → Added events task

structure Sound (count : Nat) (session : Session Func) (events : List (Event Func)) : Prop
    extends Faithful session events, Named count events where
  sorted : SortedSet.Sorted less handle session.timer.taskSets
  counter : session.timer.id = UInt64.ofNat count
  running : session.running.length ≤ 1
  present : ∀ it ∈ session.running, Pending events it ∧ ∃ tick, .fired it tick ∈ events
  fired : ∀ task tick, .fired task tick ∈ events → task ∈ session.running ∨ .removed task ∈ events

theorem sound_start : Sound 0 (machine Func).start [] := by
  refine ⟨⟨?_, historically_nil⟩, ⟨?_, ?_, ?_, ?_⟩, List.Pairwise.nil, rfl, Nat.zero_le _, ?_, ?_⟩ <;>
    simp [machine, Pending, Added]

theorem Named.added {count : Nat} {timeout tick : Int64} {func : Func} (named : Named count events)
    (isId : task.id.toNat = count) (newId : ∀ other, Added events other → other.id ≠ task.id) :
    Named (count + 1) (events ++ [.added timeout func tick task]) := by
  constructor
  · intro other added
    rcases added_snoc_added_iff.mp added with earlier | rfl
    · exact Nat.lt_succ_of_lt (named.fresh other earlier)
    · rw [isId]
      exact Nat.lt_succ_self _
  · intro one two addedOne addedTwo same
    rcases added_snoc_added_iff.mp addedOne with earlierOne | rfl <;>
      rcases added_snoc_added_iff.mp addedTwo with earlierTwo | rfl
    · exact named.unique one two earlierOne earlierTwo same
    · exact absurd same (newId one earlierOne)
    · exact absurd same.symm (newId two earlierTwo)
    · rfl
  · intro sought deleted
    have ⟨added, isAdded, same⟩ := named.deleted sought (by simpa using deleted)
    exact ⟨added, added_snoc_added_iff.mpr (.inl isAdded), same⟩
  · intro gone removed
    exact added_snoc_added_iff.mpr (.inl (named.removed gone (by simpa using removed)))

/-- Other events add nothing, and delete and remove what was added. -/
theorem Named.snoc {count : Nat} {event : Event Func} (named : Named count events)
    (notAdded : ∀ timeout func tick new, event ≠ .added timeout func tick new)
    (deleted : ∀ sought, event = .deleted sought true →
      ∃ added, Added events added ∧ handle added = sought)
    (removed : ∀ task, event = .removed task → Added events task) :
    Named count (events ++ [event]) := by
  have earlier (task : TaskNode Func) := @added_snoc_iff Func events task event notAdded
  constructor
  · exact fun task added => named.fresh task ((earlier task).mp added)
  · exact fun one two addedOne addedTwo =>
      named.unique one two ((earlier one).mp addedOne) ((earlier two).mp addedTwo)
  · intro sought isDeleted
    have found : ∃ added, Added events added ∧ handle added = sought := by
      rcases List.mem_append.mp isDeleted with before | now
      · exact named.deleted sought before
      · exact deleted sought (List.mem_singleton.mp now).symm
    have ⟨added, isAdded, same⟩ := found
    exact ⟨added, (earlier added).mpr isAdded, same⟩
  · intro task isRemoved
    rw [earlier]
    rcases List.mem_append.mp isRemoved with before | now
    · exact named.removed task before
    · exact removed task (List.mem_singleton.mp now).symm

theorem Sound.handle_injective {count : Nat} (sound : Sound count session events)
    (one : Pending events task) (two : Pending events other) (same : handle task = handle other) :
    task = other :=
  sound.unique task other one.1 two.1 (congrArg TaskNodeBase.id same)

theorem Sound.find_iff {count : Nat} (sound : Sound count session events) {sought : TaskNodeBase} :
    SortedSet.find less handle sought session.timer.taskSets = some task ↔
      Pending events task ∧ handle task = sought := by
  rw [SortedSet.find_eq_some_iff strict_less sound.sorted, sound.contents]

/-- A task with a new id is pending once it is added. -/
theorem Sound.pending_added {count : Nat} {timeout tick : Int64} {func : Func}
    (sound : Sound count session events)
    (newId : ∀ other, Added events other → other.id ≠ task.id) :
    Pending (events ++ [.added timeout func tick task]) other ↔
      other = task ∨ Pending events other := by
  have notDeleted : .deleted (handle task) true ∉ events := by
    intro deleted
    have ⟨added, isAdded, same⟩ := sound.deleted _ deleted
    exact newId added isAdded (congrArg TaskNodeBase.id same)
  have notRemoved : .removed task ∉ events := fun removed => newId task (sound.removed task removed) rfl
  rw [Pending, added_snoc_added_iff]
  simp only [Pending, List.mem_append, List.mem_singleton, reduceCtorEq, or_false]
  constructor
  · intro pending
    rcases pending.1 with added | same
    · exact .inr ⟨added, pending.2⟩
    · exact .inl same
  · intro either
    rcases either with rfl | pending
    · exact ⟨.inr rfl, notDeleted, notRemoved⟩
    · exact ⟨.inl pending.1, pending.2⟩

/-- What has been fired is still running or removed after another event. -/
theorem Sound.fired_snoc {count : Nat} {event : Event Func} (sound : Sound count session events)
    (notFired : ∀ task tick, event ≠ .fired task tick) :
    ∀ task tick, .fired task tick ∈ events ++ [event] →
      task ∈ session.running ∨ .removed task ∈ events ++ [event] := by
  intro task tick fired
  rcases List.mem_append.mp fired with earlier | now
  · rcases sound.fired task tick earlier with isRunning | removed
    · exact .inl isRunning
    · exact .inr (List.mem_append_left _ removed)
  · exact absurd (List.mem_singleton.mp now).symm (notFired task tick)

theorem Sound.add {count : Nat} (sound : Sound count session events) (few : count < 2 ^ 64)
    {timeout tick : Int64} (fits : SumFits timeout tick) (func : Func) :
    ∃ next shown, step session (.add timeout func tick) = some (next, shown) ∧
      Sound (count + 1) next (events ++ shown) := by
  generalize isTask : (addTask session.timer timeout func tick).2 = task
  have isId : task.id.toNat = count := by
    rw [← isTask]
    show session.timer.id.toNat = count
    rw [sound.counter, UInt64.toNat_ofNat', Nat.mod_eq_of_lt few]
  have newId : ∀ other, Added events other → other.id ≠ task.id := by
    intro other added same
    have below := sound.fresh other added
    rw [same, isId] at below
    exact Nat.lt_irrefl _ below
  have newHandle : ∀ other ∈ session.timer.taskSets, handle other ≠ handle task := by
    intro other member same
    exact newId other ((sound.contents other).mp member).1 (congrArg TaskNodeBase.id same)
  have isDue : task.timeout.toInt = timeout.toInt + tick.toInt := by
    rw [← isTask]
    show (timeout + tick).toInt = timeout.toInt + tick.toInt
    rw [Int64.toInt_add]
    exact Int.bmod_eq_of_le fits.1 fits.2
  have isFunc : task.func = func := by rw [← isTask]; rfl
  refine ⟨{ session with timer := (addTask session.timer timeout func tick).1 },
    [.added timeout func tick task], by rw [step, if_pos fits, ← isTask], ?_⟩
  have isSet : (addTask session.timer timeout func tick).1.taskSets =
      (SortedSet.insert less handle task session.timer.taskSets).1 := by
    rw [← isTask]
    rfl
  refine ⟨⟨?_, ?_⟩, sound.toNamed.added isId newId, ?_, ?_, sound.running, ?_, ?_⟩
  · intro other
    rw [isSet, SortedSet.mem_insert strict_less newHandle, sound.pending_added newId, sound.contents]
  · exact historically_snoc_iff.mpr ⟨sound.served, isDue, isFunc, newId⟩
  · rw [isSet]
    exact sound.sorted.insert strict_less
  · show session.timer.id + 1 = UInt64.ofNat (count + 1)
    rw [sound.counter, UInt64.ofNat_add]
    rfl
  · intro it isRunning
    obtain ⟨pending, before, fired⟩ := sound.present it isRunning
    exact ⟨(sound.pending_added newId).mpr (.inr pending), before, List.mem_append_left _ fired⟩
  · exact sound.fired_snoc (by simp)

theorem Sound.del {count : Nat} (sound : Sound count session events) {sought : TaskNodeBase}
    (others : ∀ it ∈ session.running, handle it ≠ sought) :
    ∃ next shown, step session (.del sought) = some (next, shown) ∧ Sound count next (events ++ shown) := by
  cases found : SortedSet.find less handle sought session.timer.taskSets with
  | none =>
      refine ⟨session, [.deleted sought false], by simp only [step, delTask, found], ?_⟩
      have absent : ¬ ∃ pending, Pending events pending ∧ handle pending = sought := by
        rintro ⟨pending, isPending⟩
        have present := sound.find_iff.mpr isPending
        rw [found] at present
        contradiction
      refine ⟨⟨?_, historically_snoc_iff.mpr ⟨sound.served, ?_⟩⟩,
        sound.toNamed.snoc (by simp) (by simp) (by simp), sound.sorted, sound.counter, sound.running, ?_, ?_⟩
      · intro task
        rw [pending_notDeleted, sound.contents]
      · simpa [Served] using absent
      · intro it isRunning
        obtain ⟨pending, tick, fired⟩ := sound.present it isRunning
        exact ⟨(pending_notDeleted sought).mpr pending, tick, List.mem_append_left _ fired⟩
      · exact sound.fired_snoc (by simp)
  | some it =>
      obtain ⟨pending, isHandle⟩ := sound.find_iff.mp found
      refine ⟨{ session with timer := { session.timer with
          taskSets := SortedSet.erase less handle (handle it) session.timer.taskSets } },
        [.deleted sought true], by simp only [step, delTask, found], ?_⟩
      refine ⟨⟨?_, historically_snoc_iff.mpr ⟨sound.served, ?_⟩⟩,
        sound.toNamed.snoc (by simp) ?_ (by simp), sound.sorted.erase _, sound.counter, sound.running, ?_, ?_⟩
      · intro task
        rw [SortedSet.mem_erase strict_less sound.sorted, pending_deleted, sound.contents, isHandle]
      · simpa [Served] using ⟨it, pending, isHandle⟩
      · intro other same
        obtain rfl : sought = other := by simpa using same
        exact ⟨it, pending.1, isHandle⟩
      · intro other isRunning
        obtain ⟨stays, tick, fired⟩ := sound.present other isRunning
        exact ⟨(pending_deleted sought).mpr ⟨stays, others other isRunning⟩, tick,
          List.mem_append_left _ fired⟩
      · exact sound.fired_snoc (by simp)

theorem Sound.idle {count : Nat} (sound : Sound count session events) {tick : Int64}
    (notDue : ∀ task, Pending events task → tick < task.timeout) :
    Sound count session (events ++ [.idle tick]) := by
  refine ⟨⟨?_, historically_snoc_iff.mpr ⟨sound.served, notDue⟩⟩,
    sound.toNamed.snoc (by simp) (by simp) (by simp), sound.sorted, sound.counter, sound.running, ?_, ?_⟩
  · intro task
    rw [pending_idle, sound.contents]
  · intro it isRunning
    obtain ⟨pending, before, fired⟩ := sound.present it isRunning
    exact ⟨(pending_idle tick).mpr pending, before, List.mem_append_left _ fired⟩
  · exact sound.fired_snoc (by simp)

/-- The first task of the set is the least pending one. -/
theorem Sound.head_least {count : Nat} (sound : Sound count session events) {rest : List (TaskNode Func)}
    (isSet : session.timer.taskSets = task :: rest) (pending : Pending events other) :
    other = task ∨ less (handle task) (handle other) = true := by
  have member := (sound.contents other).mpr pending
  have sorted := sound.sorted
  rw [isSet] at member sorted
  rcases List.mem_cons.mp member with rfl | later
  · exact .inl rfl
  · exact .inr (sorted.head_less later)

theorem Sound.check {count : Nat} (sound : Sound count session events) (notRunning : session.running = [])
    (tick : Int64) :
    ∃ next shown, step session (.check tick) = some (next, shown) ∧ Sound count next (events ++ shown) := by
  cases isSet : session.timer.taskSets with
  | nil =>
      refine ⟨session, [.idle tick], by simp only [step, dueTask, isSet], sound.idle ?_⟩
      intro task pending
      have member := (sound.contents task).mpr pending
      rw [isSet] at member
      contradiction
  | cons it rest =>
      have pending : Pending events it := (sound.contents it).mp (isSet ▸ List.mem_cons_self ..)
      by_cases due : it.timeout ≤ tick
      · refine ⟨{ session with running := [it] }, [.fired it tick],
          by simp only [step, dueTask, isSet, due, if_true, notRunning], ?_⟩
        have neverFired : ∀ before, .fired it before ∉ events := by
          intro before fired
          rcases sound.fired it before fired with isRunning | removed
          · rw [notRunning] at isRunning
            contradiction
          · exact pending.2.2 removed
        refine ⟨⟨?_, historically_snoc_iff.mpr
            ⟨sound.served, pending, due, fun other => sound.head_least isSet, neverFired⟩⟩,
          sound.toNamed.snoc (by simp) (by simp) (by simp), sound.sorted, sound.counter, Nat.le_refl _,
          ?_, ?_⟩
        · intro task
          rw [pending_fired, sound.contents]
        · intro other isRunning
          obtain rfl := List.mem_singleton.mp isRunning
          exact ⟨(pending_fired other tick).mpr pending, tick, by simp⟩
        · intro other before fired
          rcases List.mem_append.mp fired with earlier | now
          · rcases sound.fired other before earlier with isRunning | removed
            · rw [notRunning] at isRunning
              contradiction
            · exact .inr (List.mem_append_left _ removed)
          · obtain ⟨rfl, -⟩ := Event.fired.inj (List.mem_singleton.mp now)
            exact .inl (List.mem_singleton_self _)
      · refine ⟨session, [.idle tick], by simp only [step, dueTask, isSet, due, if_false], sound.idle ?_⟩
        intro other pendingOther
        have after : tick.toInt < it.timeout.toInt := by
          rw [Int64.le_iff_toInt_le] at due
          omega
        rw [Int64.lt_iff_toInt_lt]
        rcases sound.head_least isSet pendingOther with rfl | later
        · exact after
        · have laterTimeout : it.timeout.toInt < other.timeout.toInt ∨
              (it.timeout.toInt = other.timeout.toInt ∧ it.id.toNat < other.id.toNat) := less_iff.mp later
          omega

theorem Sound.finish {count : Nat} (sound : Sound count session events) (isRunning : session.running ≠ []) :
    ∃ next shown, step session .finish = some (next, shown) ∧ Sound count next (events ++ shown) := by
  obtain ⟨it, outer, running⟩ := List.exists_cons_of_ne_nil isRunning
  have alone : outer = [] := by
    have atMost := sound.running
    rw [running, List.length_cons] at atMost
    exact List.eq_nil_of_length_eq_zero (by omega)
  obtain ⟨pending, tick, fired⟩ := sound.present it (running ▸ List.mem_cons_self ..)
  have found := sound.find_iff.mpr ⟨pending, rfl⟩
  refine ⟨⟨{ session.timer with
      taskSets := SortedSet.erase less handle (handle it) session.timer.taskSets }, []⟩, [.removed it],
    by simp only [step, running, eraseTask, found, reduceCtorEq, if_false, alone], ?_⟩
  refine ⟨⟨?_, historically_snoc_iff.mpr ⟨sound.served, pending, tick, fired⟩⟩,
    sound.toNamed.snoc (by simp) (by simp) ?_, sound.sorted.erase _, sound.counter, Nat.zero_le _, ?_, ?_⟩
  · intro task
    rw [SortedSet.mem_erase strict_less sound.sorted, pending_removed, sound.contents]
    refine and_congr_right fun pendingTask => not_congr ?_
    exact ⟨sound.handle_injective pendingTask pending, fun same => congrArg handle same⟩
  · intro task same
    obtain rfl : it = task := by simpa using same
    exact pending.1
  · intro other isRunning
    contradiction
  · intro due before isFired
    rcases sound.fired due before (by simpa using isFired) with wasRunning | removed
    · rw [running, alone] at wasRunning
      obtain rfl := List.mem_singleton.mp wasRunning
      exact .inr (by simp)
    · exact .inr (List.mem_append_left _ removed)

/-! ### Whole runs -/

theorem adds_snoc (call : Call Func) : adds calls ≤ adds (calls ++ [call]) := by
  unfold adds
  rw [List.filter_append, List.length_append]
  exact Nat.le_add_right _ _

/-- Every sum of an `add_task` is a `time_t`. -/
def SumsFit (calls : List (Call Func)) : Prop :=
  ∀ timeout func tick, .add timeout func tick ∈ calls → SumFits timeout tick

theorem SumsFit.earlier {later : List (Call Func)} (fit : SumsFit (calls ++ later)) :
    SumsFit calls :=
  fun timeout func tick member => fit timeout func tick (List.mem_append_left _ member)

theorem sound_of_allowed (allowed : (machine Func).Guarded Allowed calls) (few : adds calls < 2 ^ 64)
    (fit : SumsFit calls) :
    ∃ session events, (machine Func).Exec calls session events ∧ Sound (adds calls) session events := by
  induction calls using List.reverseRecOn with
  | nil => exact ⟨_, _, .start, sound_start⟩
  | append_singleton calls call inductionHypothesis =>
      obtain ⟨earlier, atEnd⟩ := Machine.guarded_snoc_iff.mp allowed
      have fewer : adds calls < 2 ^ 64 := Nat.lt_of_le_of_lt (adds_snoc call) few
      obtain ⟨session, events, exec, sound⟩ := inductionHypothesis earlier fewer fit.earlier
      have allowedCall := atEnd session events exec
      have same : (∀ timeout func tick, call ≠ .add timeout func tick) → adds (calls ++ [call]) = adds calls := by
        intro notAdd
        cases call with
        | add timeout func tick => exact absurd rfl (notAdd timeout func tick)
        | del => simp [adds]
        | check => simp [adds]
        | finish => simp [adds]
      have stepped : ∃ next shown, step session call = some (next, shown) ∧
          Sound (adds (calls ++ [call])) next (events ++ shown) := by
        cases call with
        | add timeout func tick =>
            have more : adds (calls ++ [.add timeout func tick]) = adds calls + 1 := by simp [adds]
            rw [more]
            exact sound.add fewer (fit timeout func tick (by simp)) func
        | del sought =>
            rw [same (by simp)]
            exact sound.del allowedCall
        | check tick =>
            rw [same (by simp)]
            exact sound.check allowedCall tick
        | finish =>
            rw [same (by simp)]
            exact sound.finish allowedCall
      obtain ⟨next, shown, taken, soundNext⟩ := stepped
      exact ⟨next, _, exec.step taken, soundNext⟩

/-- A run that goes through has only sums that are a `time_t`. -/
theorem sumsFit_of_exec (exec : (machine Func).Exec calls session events) : SumsFit calls := by
  induction exec with
  | start =>
      intro timeout func tick member
      contradiction
  | @step calls session events call next shown before taken inductionHypothesis =>
      intro timeout func tick member
      rcases List.mem_append.mp member with earlier | last
      · exact inductionHypothesis timeout func tick earlier
      · by_contra misfit
        rw [← List.mem_singleton.mp last] at taken
        have refused : step session (.add timeout func tick) = none := if_neg misfit
        exact absurd (refused.symm.trans taken) (by simp)

/-- An allowed run with fewer than 2^64 adds goes through exactly if every timeout fits a `time_t`,
and throughout it the set holds the pending tasks and every event is as it should be. -/
theorem completes_faithful_iff (allowed : (machine Func).Guarded Allowed calls)
    (few : adds calls < 2 ^ 64) : (machine Func).Completes Faithful calls ↔ SumsFit calls := by
  constructor
  · intro completes
    have ⟨session, events, exec⟩ := completes.1
    exact sumsFit_of_exec exec
  · intro fit
    have ⟨session, events, exec, _⟩ := sound_of_allowed allowed few fit
    refine ⟨⟨session, events, exec⟩, ?_⟩
    intro before middle seen isPrefix execBefore
    have allowedBefore : (machine Func).Guarded Allowed before :=
      fun earlier call state shown isShorter => allowed earlier call state shown (isShorter.trans isPrefix)
    have ⟨rest, whole⟩ := isPrefix
    rw [← whole] at few fit
    have fewer : adds before ≤ adds (before ++ rest) := by
      unfold adds
      rw [List.filter_append, List.length_append]
      exact Nat.le_add_right _ _
    have ⟨other, shown, execSound, sound⟩ :=
      sound_of_allowed allowedBefore (Nat.lt_of_le_of_lt fewer few) fit.earlier
    have same := execBefore.functional execSound
    rw [same.1, same.2]
    exact sound.toFaithful

/-- A callback adds a task that is due before its own, deletes another and returns. -/
def busyCallback : List (Call Nat) :=
  [.add 5 0 0, .add 7 1 0, .check 6, .add (-3) 2 6, .del ⟨1, 7⟩, .del ⟨1, 7⟩, .finish, .check 6, .finish]

theorem busyCallback_completes : (machine Nat).Completes Faithful busyCallback := by
  refine (completes_faithful_iff (Machine.guarded_of_meets (by decide)) (by decide)).mpr ?_
  intro timeout func tick member
  simp only [busyCallback, List.mem_cons, Call.add.injEq, reduceCtorEq, List.not_mem_nil, or_false,
    false_or] at member
  rcases member with ⟨rfl, rfl, rfl⟩ | ⟨rfl, rfl, rfl⟩ | ⟨rfl, rfl, rfl⟩ <;> decide

/-- The clock is not negative, and the delay leaves no room for it. -/
def latestDelay : List (Call Nat) := [.add Int64.maxValue 0 1]

theorem latestDelay_not_completes :
    (machine Nat).Guarded Allowed latestDelay ∧ ¬ (machine Nat).Completes Faithful latestDelay := by
  refine ⟨Machine.guarded_snoc_iff.mpr ⟨Machine.guarded_nil, fun _ _ _ => trivial⟩, ?_⟩
  intro completes
  have ⟨session, events, exec⟩ := completes.1
  have fits := sumsFit_of_exec exec Int64.maxValue 0 1 (List.mem_singleton_self _)
  revert fits
  decide

end SimpleBasicComponents.SetTimer
