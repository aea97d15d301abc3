import Mathlib.Data.List.Infix
import SimpleBasicComponents.TimeWheel.Slots

/-!
Runs of the time wheel.

Owns: readings of the history, the invariant that ties the slots, the update
that is under way and the history together, its preservation by every step, and
the theorem that no node is handed to `dispatch_list` early or twice. The nodes
handed over are those freed followed by those that `dispatch_list` still holds.
-/

namespace SimpleBasicComponents.TimeWheel

open SimpleBasicComponents.Semantics

/-! ### Readings of the history -/

def Event.addedNode : Event → Option Addr
  | .added node _ => some node
  | _ => none

def Event.handedNode : Event → Option Addr
  | .handed node _ => some node
  | _ => none

def Event.calledNode : Event → Option Addr
  | .called node => some node
  | _ => none

def Event.freedNode : Event → Option Addr
  | .freed node => some node
  | _ => none

/-- The nodes added, handed to `dispatch_list`, called back and freed, in order. -/
def addedNodes (events : List Event) : List Addr := events.filterMap Event.addedNode

def handedNodes (events : List Event) : List Addr := events.filterMap Event.handedNode

def calledNodes (events : List Event) : List Addr := events.filterMap Event.calledNode

def freedNodes (events : List Event) : List Addr := events.filterMap Event.freedNode

/-- Added and not handed over yet. -/
def Waiting (events : List Event) (addr : Addr) : Prop :=
  addr ∈ addedNodes events ∧ addr ∉ handedNodes events

section

variable {events shown : List Event} {addr : Addr}

@[simp] theorem addedNodes_append :
    addedNodes (events ++ shown) = addedNodes events ++ addedNodes shown := List.filterMap_append

@[simp] theorem handedNodes_append :
    handedNodes (events ++ shown) = handedNodes events ++ handedNodes shown := List.filterMap_append

@[simp] theorem calledNodes_append :
    calledNodes (events ++ shown) = calledNodes events ++ calledNodes shown := List.filterMap_append

@[simp] theorem freedNodes_append :
    freedNodes (events ++ shown) = freedNodes events ++ freedNodes shown := List.filterMap_append

theorem mem_addedNodes : addr ∈ addedNodes events ↔ ∃ expire, .added addr expire ∈ events := by
  simp only [addedNodes, List.mem_filterMap]
  constructor
  · rintro ⟨event, member, isAdded⟩
    cases event with
    | added node expire =>
        obtain rfl := Option.some.inj isAdded
        exact ⟨expire, member⟩
    | handed | called | freed | updated => contradiction
  · rintro ⟨expire, member⟩
    exact ⟨_, member, rfl⟩

theorem mem_handedNodes : addr ∈ handedNodes events ↔ ∃ time, .handed addr time ∈ events := by
  simp only [handedNodes, List.mem_filterMap]
  constructor
  · rintro ⟨event, member, isHanded⟩
    cases event with
    | handed node time =>
        obtain rfl := Option.some.inj isHanded
        exact ⟨time, member⟩
    | added | called | freed | updated => contradiction
  · rintro ⟨time, member⟩
    exact ⟨_, member, rfl⟩

/-- The events of handing over a list of nodes. -/
def handings (time : UInt32) (nodes : List Addr) : List Event := nodes.map fun node => .handed node time

@[simp] theorem addedNodes_handings (time : UInt32) (nodes : List Addr) :
    addedNodes (handings time nodes) = [] := by
  simp [addedNodes, handings, Event.addedNode]

@[simp] theorem handedNodes_handings (time : UInt32) (nodes : List Addr) :
    handedNodes (handings time nodes) = nodes := by
  rw [handedNodes, handings, List.filterMap_map]
  exact List.filterMap_some

@[simp] theorem calledNodes_handings (time : UInt32) (nodes : List Addr) :
    calledNodes (handings time nodes) = [] := by
  simp [calledNodes, handings, Event.calledNode]

@[simp] theorem freedNodes_handings (time : UInt32) (nodes : List Addr) :
    freedNodes (handings time nodes) = [] := by
  simp [freedNodes, handings, Event.freedNode]

theorem updated_notMem_handings (time : UInt32) (nodes : List Addr) :
    (handings time nodes).count .updated = 0 := by
  simp [List.count_eq_zero, handings]

end

/-! ### The invariant -/

/-- The nodes `dispatch_list` still holds. -/
def Pc.current : Pc → List Addr
  | .idle => []
  | .executing _ => []
  | .dispatching _ current => current

/-- Whether the update that is under way has moved the clock. -/
def Pc.shifted : Pc → Nat
  | .idle => 0
  | .executing .beforeShift => 0
  | .executing .afterShift => 1
  | .dispatching _ _ => 1

structure Ledger (events : List Event) (current : List Addr) : Prop where
  added : (addedNodes events).Nodup
  handed : (handedNodes events).Nodup
  order : handedNodes events = freedNodes events ++ current
  called : (calledNodes events).Sublist (freedNodes events)
  onTime : ∀ addr time, .handed addr time ∈ events → .added addr time ∈ events

theorem Ledger.handed_added {events : List Event} {current : List Addr} (ledger : Ledger events current)
    {addr : Addr} (handed : addr ∈ handedNodes events) : addr ∈ addedNodes events := by
  obtain ⟨time, member⟩ := mem_handedNodes.mp handed
  exact mem_addedNodes.mpr ⟨time, ledger.onTime addr time member⟩

theorem Ledger.added_snoc {events : List Event} {current : List Addr} (ledger : Ledger events current)
    {addr : Addr} (fresh : addr ∉ addedNodes events) (expire : UInt32) :
    Ledger (events ++ [.added addr expire]) current where
  added := by
    rw [addedNodes_append, show addedNodes [.added addr expire] = [addr] from rfl,
      List.nodup_append]
    refine ⟨ledger.added, List.nodup_singleton _, ?_⟩
    rintro other member last isLast rfl
    obtain rfl := List.mem_singleton.mp isLast
    exact fresh member
  handed := by
    rw [handedNodes_append, show handedNodes [.added addr expire] = [] from rfl, List.append_nil]
    exact ledger.handed
  order := by
    rw [handedNodes_append, freedNodes_append, show handedNodes [.added addr expire] = [] from rfl,
      show freedNodes [.added addr expire] = [] from rfl, List.append_nil, List.append_nil]
    exact ledger.order
  called := by
    rw [calledNodes_append, freedNodes_append, show calledNodes [.added addr expire] = [] from rfl,
      show freedNodes [.added addr expire] = [] from rfl, List.append_nil, List.append_nil]
    exact ledger.called
  onTime other time handed := by
    have before : .handed other time ∈ events := by simpa using handed
    exact List.mem_append_left _ (ledger.onTime other time before)

theorem waiting_added_iff {events : List Event} {addr : Addr} (unhanded : addr ∉ handedNodes events)
    (expire : UInt32) (other : Addr) :
    Waiting (events ++ [.added addr expire]) other ↔ Waiting events other ∨ other = addr := by
  have added : addedNodes [.added addr expire] = [addr] := rfl
  have handed : handedNodes [.added addr expire] = [] := rfl
  rw [Waiting, Waiting, addedNodes_append, handedNodes_append, added, handed, List.append_nil,
    List.mem_append, List.mem_singleton]
  constructor
  · rintro ⟨isAdded | rfl, isWaiting⟩
    · exact .inl ⟨isAdded, isWaiting⟩
    · exact .inr rfl
  · rintro (⟨isAdded, isWaiting⟩ | rfl)
    · exact ⟨.inl isAdded, isWaiting⟩
    · exact ⟨.inr rfl, unhanded⟩

structure Wheel (world : World) (events : List Event) : Prop where
  shelved : Shelved world.heap world.timer
  settled : world.pc ≠ .executing .afterShift → Settled world.heap world.timer
  waiting : ∀ addr, Shelf world.timer addr ↔ Waiting events addr
  alive : ∀ addr ∈ addedNodes events, addr ∉ freedNodes events →
    ∃ node, world.heap.load addr = some node ∧ .added addr node.expire ∈ events
  below : ∀ addr ∈ addedNodes events, addr < world.heap.length
  ledger : Ledger events world.pc.current
  phase : ∀ current, world.pc ≠ .dispatching .beforeShift current
  clock : world.timer.time.toNat = (events.count .updated + world.pc.shifted) % 2 ^ 32

/-- A delay `add_timer` is meant for: a positive `int`. -/
def Call.InRange : Call → Prop
  | .addTimer time _ _ _ => 1 ≤ time ∧ time ≤ 2 ^ 31 - 1
  | .delTimer _ => True
  | .timerUpdate => True
  | .run => True

instance (call : Call) : Decidable call.InRange := by
  cases call <;> unfold Call.InRange <;> infer_instance

/-- No step puts an old node into a stuck list or takes it out of one. -/
def SameStuck (events : List Event) (before after : Timer) : Prop :=
  ∀ addr ∈ addedNodes events, StuckIn after addr ↔ StuckIn before addr

theorem ofInt_toNat {time : Int} (positive : 1 ≤ time) (small : time ≤ 2 ^ 31 - 1) :
    (UInt32.ofInt time).toNat = time.toNat := by
  unfold UInt32.ofInt
  rw [UInt32.toNat_ofNat_of_lt']
  · omega
  · show (time % 2 ^ 32).toNat < 2 ^ 32
    omega

theorem distance_of_delay {time : Int} (positive : 1 ≤ time) (small : time ≤ 2 ^ 31 - 1)
    (now : UInt32) : distance (UInt32.ofInt time + now) now = time.toNat := by
  rw [distance, UInt32.add_sub_cancel, ofInt_toNat positive small]

theorem wheel_start : Wheel machine.start [] where
  shelved := shelved_create _
  settled _ _ _ member := absurd member List.not_mem_nil
  waiting addr := by
    constructor
    · rintro ⟨slot, member⟩
      exact absurd member List.not_mem_nil
    · rintro ⟨member, -⟩
      exact absurd member List.not_mem_nil
  alive _ member := absurd member List.not_mem_nil
  below _ member := absurd member List.not_mem_nil
  ledger := ⟨List.nodup_nil, List.nodup_nil, rfl, List.Sublist.refl _, by simp⟩
  phase _ := by simp [machine]
  clock := rfl

section

variable {world : World} {events : List Event}

theorem Wheel.freed_handed (wheel : Wheel world events) {addr : Addr}
    (freed : addr ∈ freedNodes events) : addr ∈ handedNodes events := by
  rw [wheel.ledger.order]
  exact List.mem_append_left _ freed

theorem Wheel.shelf_alive (wheel : Wheel world events) {addr : Addr} (shelf : Shelf world.timer addr) :
    addr ∈ addedNodes events ∧ addr ∉ freedNodes events := by
  obtain ⟨added, notHanded⟩ := (wheel.waiting addr).mp shelf
  exact ⟨added, fun freed => notHanded (wheel.freed_handed freed)⟩

theorem Wheel.addTimer (wheel : Wheel world events) {time : Int} (positive : 1 ≤ time)
    (small : time ≤ 2 ^ 31 - 1) (lockFree : world.pc.lockFree = true) (callback : Nat) (id : Int)
    (cancel : UInt8) :
    ∃ next, step world (.addTimer time callback id cancel) =
        some (next, [.added world.heap.length (UInt32.ofInt time + world.timer.time)]) ∧
      Wheel next (events ++ [.added world.heap.length (UInt32.ofInt time + world.timer.time)]) ∧
      SameStuck events world.timer next.timer ∧ next.pc = world.pc ∧
      (StuckIn next.timer world.heap.length ↔
        Stuck (slotFor world.timer.time (UInt32.ofInt time + world.timer.time))) ∧
      next.timer.time = world.timer.time := by
  generalize isExpire : UInt32.ofInt time + world.timer.time = expire
  generalize isNode : (⟨expire, callback, cancel, id⟩ : TimerNode) = node
  have nodeExpire : node.expire = expire := by rw [← isNode]
  have notAdded : world.heap.length ∉ addedNodes events :=
    fun added => Nat.lt_irrefl _ (wheel.below _ added)
  have free : ¬ Shelf world.timer world.heap.length :=
    fun shelf => notAdded (wheel.shelf_alive shelf).1
  have sameLoad : ∀ addr, addr ≠ world.heap.length →
      (world.heap.alloc node).load addr = world.heap.load addr :=
    fun addr different => Heap.load_alloc_other different
  have sameExpire : ∀ addr, Shelf world.timer addr →
      ((world.heap.alloc node).load addr).map TimerNode.expire =
        (world.heap.load addr).map TimerNode.expire := by
    intro addr shelf
    rw [sameLoad addr]
    rintro rfl
    exact free shelf
  obtain ⟨timer, adds, sameTime, shelved, members⟩ :=
    addNode_eq_some (wheel.shelved.congr sameExpire) Heap.load_alloc_self free
  rw [nodeExpire] at members
  have taken : step world (.addTimer time callback id cancel) =
      some ({ world with heap := world.heap.alloc node, timer },
        [.added world.heap.length expire]) := by
    have notLate : ¬ time ≤ 0 := by omega
    simp only [step, if_pos lockFree, TimeWheel.addTimer, isExpire, isNode, if_neg notLate, adds]
  refine ⟨{ world with heap := world.heap.alloc node, timer }, taken, ?_, ?_, rfl, ?_, sameTime⟩
  · refine ⟨shelved, ?_, ?_, ?_, ?_, ?_, wheel.phase, ?_⟩
    · intro notAfter idx addr member other found
      have settled := (wheel.settled notAfter).congr sameExpire
      simp only at member found
      rcases (members _ addr).mp member with was | ⟨-, rfl⟩
      · rw [sameTime]
        exact settled idx addr was other found
      · obtain rfl := Option.some.inj (Heap.load_alloc_self.symm.trans found)
        rw [sameTime, nodeExpire, ← isExpire, distance_of_delay positive small]
        omega
    · intro addr
      have notHanded : world.heap.length ∉ handedNodes events :=
        fun handed => notAdded (wheel.ledger.handed_added handed)
      rw [waiting_added_iff notHanded, ← wheel.waiting]
      simp only [Shelf, members]
      constructor
      · rintro ⟨slot, was | ⟨-, isNew⟩⟩
        · exact .inl ⟨slot, was⟩
        · exact .inr isNew
      · rintro (⟨slot, was⟩ | isNew)
        · exact ⟨slot, .inl was⟩
        · exact ⟨_, .inr ⟨rfl, isNew⟩⟩
    · intro addr isAdded notFreed
      rw [addedNodes_append, List.mem_append] at isAdded
      rcases isAdded with before | new
      · have different : addr ≠ world.heap.length := Nat.ne_of_lt (wheel.below addr before)
        obtain ⟨other, found, added⟩ := wheel.alive addr before fun freed =>
          notFreed (by rw [freedNodes_append]; exact List.mem_append_left _ freed)
        exact ⟨other, (sameLoad addr different).trans found, List.mem_append_left _ added⟩
      · obtain rfl := List.mem_singleton.mp new
        refine ⟨node, Heap.load_alloc_self, ?_⟩
        rw [nodeExpire]
        exact List.mem_append_right _ (List.mem_singleton_self _)
    · intro addr isAdded
      rw [addedNodes_append, List.mem_append] at isAdded
      rw [Heap.length_alloc]
      rcases isAdded with before | new
      · exact Nat.lt_succ_of_lt (wheel.below addr before)
      · obtain rfl := List.mem_singleton.mp new
        exact Nat.lt_succ_self _
    · exact wheel.ledger.added_snoc notAdded expire
    · simpa [sameTime] using wheel.clock
  · intro addr isAdded
    have different : addr ≠ world.heap.length := Nat.ne_of_lt (wheel.below addr isAdded)
    simp only [StuckIn, members, different, and_false, or_false]
  · simp only [StuckIn, members]
    constructor
    · rintro ⟨slot, stuck, was | ⟨rfl, -⟩⟩
      · exact absurd ⟨slot, was⟩ free
      · exact stuck
    · exact fun stuck => ⟨_, stuck, .inr ⟨rfl, trivial⟩⟩

/-- `del_timer` changes no `expire`. -/
theorem delTimer_keeps {next : World} {shown : List Event} {addr : Addr}
    (taken : TimeWheel.delTimer world addr = some (next, shown)) :
    shown = [] ∧ next.timer = world.timer ∧ next.pc = world.pc ∧ next.heap.length = world.heap.length ∧
      ∀ other, (next.heap.load other).map TimerNode.expire =
        (world.heap.load other).map TimerNode.expire := by
  simp only [TimeWheel.delTimer] at taken
  cases found : world.heap.load addr with
  | none =>
      rw [found] at taken
      contradiction
  | some node =>
      obtain ⟨heap, stores, length, here, others⟩ := Heap.store_eq_some found { node with cancel := 1 }
      simp only [found, stores, Option.some.injEq, Prod.mk.injEq] at taken
      obtain ⟨rfl, rfl⟩ := taken
      refine ⟨rfl, rfl, rfl, length, ?_⟩
      intro other
      by_cases same : other = addr
      · rw [same, here, found]
        rfl
      · rw [others other same]

theorem Wheel.delTimer (wheel : Wheel world events) {addr : Addr} {next : World}
    {shown : List Event} (taken : step world (.delTimer addr) = some (next, shown)) :
    Wheel next (events ++ shown) ∧ SameStuck events world.timer next.timer := by
  obtain ⟨rfl, sameTimer, samePc, length, sameExpire⟩ := delTimer_keeps taken
  obtain ⟨heap, timer, pc⟩ := next
  subst sameTimer samePc
  rw [List.append_nil]
  refine ⟨⟨wheel.shelved.congr fun other _ => sameExpire other,
    fun notAfter => (wheel.settled notAfter).congr fun other _ => sameExpire other,
    wheel.waiting, ?_, ?_, wheel.ledger, wheel.phase, wheel.clock⟩, fun other _ => Iff.rfl⟩
  · intro other isAdded notFreed
    obtain ⟨old, foundOld, added⟩ := wheel.alive other isAdded notFreed
    have kept := sameExpire other
    rw [foundOld, Option.map_some] at kept
    obtain ⟨now, foundNow, expire⟩ := Option.map_eq_some_iff.mp kept
    exact ⟨now, foundNow, expire ▸ added⟩
  · exact fun other isAdded => length ▸ wheel.below other isAdded

theorem Wheel.timerUpdate (wheel : Wheel world events) (isIdle : world.pc = .idle) :
    step world .timerUpdate = some ({ world with pc := .executing .beforeShift }, []) ∧
      Wheel { world with pc := .executing .beforeShift } events := by
  refine ⟨by simp only [step, if_pos isIdle], wheel.shelved, ?_, wheel.waiting, wheel.alive,
    wheel.below, ?_, by simp, ?_⟩
  · exact fun _ => wheel.settled (by rw [isIdle]; simp)
  · have ledger := wheel.ledger
    rw [isIdle] at ledger
    exact ledger
  · have clock := wheel.clock
    rw [isIdle] at clock
    exact clock

/-! ### The steps of an update -/

private theorem Wheel.endDispatch (wheel : Wheel world events) {phase : Phase}
    (isDone : world.pc = .dispatching phase []) :
    Wheel { world with pc := .executing phase } events := by
  have isAfter : phase = .afterShift := by
    cases phase with
    | beforeShift => exact absurd isDone (wheel.phase [])
    | afterShift => rfl
  subst isAfter
  refine ⟨wheel.shelved, fun notAfter => absurd rfl notAfter, wheel.waiting, wheel.alive, wheel.below,
    ?_, by simp, ?_⟩
  · have ledger := wheel.ledger
    rw [isDone] at ledger
    exact ledger
  · have clock := wheel.clock
    rw [isDone] at clock
    exact clock

/-- The events of one turn of `dispatch_list`. -/
def dispatching (node : TimerNode) (addr : Addr) : List Event :=
  if node.cancel = 0 then [.called addr, .freed addr] else [.freed addr]

private theorem dispatching_reads (node : TimerNode) (addr : Addr) :
    addedNodes (dispatching node addr) = [] ∧ handedNodes (dispatching node addr) = [] ∧
      freedNodes (dispatching node addr) = [addr] ∧
      (calledNodes (dispatching node addr)).Sublist [addr] ∧
      (dispatching node addr).count .updated = 0 ∧
      ∀ other time, .handed other time ∉ dispatching node addr := by
  unfold dispatching
  split
  · exact ⟨rfl, rfl, rfl, List.Sublist.refl _, rfl, by simp⟩
  · exact ⟨rfl, rfl, rfl, List.nil_sublist _, rfl, by simp⟩

private theorem Wheel.dispatch (wheel : Wheel world events) {phase : Phase} {addr : Addr}
    {rest : List Addr} (isNext : world.pc = .dispatching phase (addr :: rest)) :
    ∃ node heap, world.heap.load addr = some node ∧ world.heap.free addr = some heap ∧
      Wheel ⟨heap, world.timer, .dispatching phase rest⟩ (events ++ dispatching node addr) := by
  have isAfter : phase = .afterShift := by
    cases phase with
    | beforeShift => exact absurd isNext (wheel.phase _)
    | afterShift => rfl
  subst isAfter
  have order : handedNodes events = freedNodes events ++ addr :: rest := by
    have held := wheel.ledger.order
    rw [isNext] at held
    exact held
  have isHanded : addr ∈ handedNodes events := by
    rw [order]
    exact List.mem_append_right _ (List.mem_cons_self)
  have notFreed : addr ∉ freedNodes events := by
    intro freed
    have distinct := wheel.ledger.handed
    rw [order, List.nodup_append] at distinct
    exact distinct.2.2 addr freed addr (List.mem_cons_self) rfl
  obtain ⟨node, found, -⟩ := wheel.alive addr (wheel.ledger.handed_added isHanded) notFreed
  obtain ⟨heap, frees, length, others⟩ := Heap.free_eq_some found
  obtain ⟨added, handed, freed, called, notUpdated, notHanded⟩ := dispatching_reads node addr
  have sameExpire : ∀ other, Shelf world.timer other →
      (heap.load other).map TimerNode.expire = (world.heap.load other).map TimerNode.expire := by
    intro other shelf
    rw [others other]
    rintro rfl
    exact ((wheel.waiting other).mp shelf).2 isHanded
  refine ⟨node, heap, found, frees, wheel.shelved.congr sameExpire, ?_, ?_, ?_, ?_, ?_, by simp, ?_⟩
  · exact fun _ => (wheel.settled (by rw [isNext]; simp)).congr sameExpire
  · intro other
    rw [Waiting, addedNodes_append, handedNodes_append, added, handed, List.append_nil,
      List.append_nil]
    exact wheel.waiting other
  · intro other isAdded isAlive
    rw [addedNodes_append, added, List.append_nil] at isAdded
    rw [freedNodes_append, freed, List.mem_append, List.mem_singleton, not_or] at isAlive
    obtain ⟨old, foundOld, addedOld⟩ := wheel.alive other isAdded isAlive.1
    exact ⟨old, (others other isAlive.2).trans foundOld, List.mem_append_left _ addedOld⟩
  · intro other isAdded
    rw [addedNodes_append, added, List.append_nil] at isAdded
    exact length ▸ wheel.below other isAdded
  · obtain ⟨nodupAdded, nodupHanded, -, sublist, onTime⟩ := wheel.ledger
    refine ⟨?_, ?_, ?_, ?_, ?_⟩
    · rw [addedNodes_append, added, List.append_nil]
      exact nodupAdded
    · rw [handedNodes_append, handed, List.append_nil]
      exact nodupHanded
    · rw [handedNodes_append, freedNodes_append, handed, freed, List.append_nil, order]
      simp [Pc.current]
    · rw [calledNodes_append, freedNodes_append, freed]
      exact sublist.append called
    · intro other time isHandedNow
      rcases List.mem_append.mp isHandedNow with before | new
      · exact List.mem_append_left _ (onTime other time before)
      · exact absurd new (notHanded other time)
  · have clock := wheel.clock
    rw [isNext] at clock
    rw [List.count_append, notUpdated]
    exact clock

private theorem Wheel.handOver (wheel : Wheel world events) {phase : Phase}
    (isHead : world.pc = .executing phase) {slot : Slot}
    (isSlot : slot = .near (world.timer.time &&& timeNearMask).toNat)
    (some : world.timer.slots slot ≠ []) :
    Wheel ⟨world.heap, (linkClear world.timer slot).2, .dispatching phase (world.timer.slots slot)⟩
      (events ++ handings world.timer.time (world.timer.slots slot)) := by
  have expires : ∀ addr ∈ world.timer.slots slot, ∃ node, world.heap.load addr = .some node ∧
      node.expire = world.timer.time := by
    intro addr member
    obtain ⟨node, found, fits⟩ := wheel.shelved.fits _ addr member
    rw [isSlot] at fits
    exact ⟨node, found, fits.expire_eq⟩
  have isAfter : phase = .afterShift := by
    cases phase with
    | afterShift => rfl
    | beforeShift =>
        obtain ⟨addr, member⟩ := List.exists_mem_of_ne_nil _ some
        obtain ⟨node, found, isNow⟩ := expires addr member
        have settled := wheel.settled (by rw [isHead]; simp)
        rw [isSlot] at member
        exact absurd (distance_eq_zero.mpr isNow) (settled _ addr member node found)
  subst isAfter
  have current : world.pc.current = [] := by rw [isHead, Pc.current]
  obtain ⟨nodupAdded, nodupHanded, order, sublist, onTime⟩ := wheel.ledger
  rw [current, List.append_nil] at order
  refine ⟨wheel.shelved.linkClear slot, ?_, ?_, ?_, ?_, ⟨?_, ?_, ?_, ?_, ?_⟩, by simp, ?_⟩
  · intro _ idx addr member node found isNow
    obtain ⟨was, different⟩ := mem_linkClear.mp member
    obtain ⟨other, foundOther, fits⟩ := wheel.shelved.fits _ addr was
    obtain rfl := Option.some.inj (found.symm.trans foundOther)
    rcases fits.of_distance_eq_zero isNow with stuck | present
    · exact stuck
    · exact different (present.trans isSlot.symm)
  · intro addr
    rw [Waiting, addedNodes_append, handedNodes_append, addedNodes_handings, handedNodes_handings,
      List.append_nil, List.mem_append, not_or, ← and_assoc]
    have waiting := wheel.waiting addr
    rw [Waiting] at waiting
    rw [← waiting]
    constructor
    · rintro ⟨other, member⟩
      obtain ⟨was, different⟩ := mem_linkClear.mp member
      exact ⟨⟨other, was⟩, fun here => different (wheel.shelved.disjoint _ _ addr was here)⟩
    · rintro ⟨⟨other, was⟩, notHere⟩
      refine ⟨other, mem_linkClear.mpr ⟨was, ?_⟩⟩
      rintro rfl
      exact notHere was
  · intro addr isAdded notFreed
    rw [addedNodes_append, addedNodes_handings, List.append_nil] at isAdded
    rw [freedNodes_append, freedNodes_handings, List.append_nil] at notFreed
    obtain ⟨node, found, added⟩ := wheel.alive addr isAdded notFreed
    exact ⟨node, found, List.mem_append_left _ added⟩
  · intro addr isAdded
    rw [addedNodes_append, addedNodes_handings, List.append_nil] at isAdded
    exact wheel.below addr isAdded
  · rw [addedNodes_append, addedNodes_handings, List.append_nil]
    exact nodupAdded
  · rw [handedNodes_append, handedNodes_handings, List.nodup_append]
    refine ⟨nodupHanded, wheel.shelved.nodup slot, ?_⟩
    rintro addr isHanded other member rfl
    exact ((wheel.waiting addr).mp ⟨slot, member⟩).2 isHanded
  · rw [handedNodes_append, handedNodes_handings, freedNodes_append, freedNodes_handings,
      List.append_nil, order]
    rfl
  · rw [calledNodes_append, calledNodes_handings, freedNodes_append, freedNodes_handings,
      List.append_nil, List.append_nil]
    exact sublist
  · intro addr time isHanded
    apply List.mem_append_left
    rcases List.mem_append.mp isHanded with before | new
    · exact onTime addr time before
    · obtain ⟨other, member, same⟩ := List.mem_map.mp new
      obtain ⟨rfl, rfl⟩ := Event.handed.inj same
      obtain ⟨isAdded, notFreed⟩ := wheel.shelf_alive ⟨slot, member⟩
      obtain ⟨node, found, added⟩ := wheel.alive other isAdded notFreed
      obtain ⟨now, foundNow, isNow⟩ := expires other member
      obtain rfl := Option.some.inj (found.symm.trans foundNow)
      exact isNow ▸ added
  · have clock := wheel.clock
    rw [isHead] at clock
    rw [List.count_append, updated_notMem_handings]
    exact clock

private theorem Wheel.shift (wheel : Wheel world events) (isHead : world.pc = .executing .beforeShift) :
    ∃ timer, timerShift world.heap world.timer = some timer ∧
      Wheel { world with timer, pc := .executing .afterShift } events ∧
      SameStuck events world.timer timer := by
  have settled := wheel.settled (by rw [isHead]; simp)
  obtain ⟨timer, shifts, shelved, shifted⟩ := timerShift_eq_some wheel.shelved settled
  refine ⟨timer, shifts, ⟨shelved, fun notAfter => absurd rfl notAfter, ?_, wheel.alive,
    wheel.below, ?_, by simp, ?_⟩, fun addr _ => shifted.stuckIn_iff wheel.shelved addr⟩
  · intro addr
    rw [shifted.shelf_iff wheel.shelved, wheel.waiting]
  · have ledger := wheel.ledger
    rw [isHead] at ledger
    exact ledger
  · have clock := wheel.clock
    rw [isHead] at clock
    simp only [shifted.time, succ_toNat, Pc.shifted] at clock ⊢
    omega

private theorem Wheel.finish (wheel : Wheel world events) (isHead : world.pc = .executing .afterShift)
    (empty : world.timer.slots (.near (world.timer.time &&& timeNearMask).toNat) = []) :
    Wheel { world with pc := .idle } (events ++ [.updated]) := by
  have added : addedNodes [Event.updated] = [] := rfl
  have handed : handedNodes [Event.updated] = [] := rfl
  have freed : freedNodes [Event.updated] = [] := rfl
  have called : calledNodes [Event.updated] = [] := rfl
  obtain ⟨nodupAdded, nodupHanded, order, sublist, onTime⟩ := wheel.ledger
  rw [isHead] at order
  refine ⟨wheel.shelved, fun _ => wheel.shelved.settled_of_empty empty, ?_, ?_, ?_, ⟨?_, ?_, ?_, ?_, ?_⟩,
    by simp, ?_⟩
  · intro addr
    rw [Waiting, addedNodes_append, handedNodes_append, added, handed, List.append_nil,
      List.append_nil]
    exact wheel.waiting addr
  · intro addr isAdded notFreed
    rw [addedNodes_append, added, List.append_nil] at isAdded
    rw [freedNodes_append, freed, List.append_nil] at notFreed
    obtain ⟨node, found, isNode⟩ := wheel.alive addr isAdded notFreed
    exact ⟨node, found, List.mem_append_left _ isNode⟩
  · intro addr isAdded
    rw [addedNodes_append, added, List.append_nil] at isAdded
    exact wheel.below addr isAdded
  · rw [addedNodes_append, added, List.append_nil]
    exact nodupAdded
  · rw [handedNodes_append, handed, List.append_nil]
    exact nodupHanded
  · rw [handedNodes_append, freedNodes_append, handed, freed, List.append_nil, List.append_nil]
    exact order
  · rw [calledNodes_append, freedNodes_append, called, freed, List.append_nil, List.append_nil]
    exact sublist
  · intro addr time isHanded
    apply List.mem_append_left
    exact onTime addr time (by simpa using isHanded)
  · have clock := wheel.clock
    rw [isHead] at clock
    rw [List.count_append]
    exact clock

/-- An update that has begun can always go on. -/
theorem Wheel.run (wheel : Wheel world events) (notIdle : world.pc ≠ .idle) :
    ∃ next shown, step world .run = some (next, shown) ∧ Wheel next (events ++ shown) ∧
      SameStuck events world.timer next.timer := by
  cases isPc : world.pc with
  | idle => exact absurd isPc notIdle
  | dispatching phase current =>
      cases current with
      | nil =>
          refine ⟨{ world with pc := .executing phase }, [], by simp only [step, runUpdate, isPc], ?_,
            fun addr _ => Iff.rfl⟩
          rw [List.append_nil]
          exact wheel.endDispatch isPc
      | cons addr rest =>
          obtain ⟨node, heap, found, frees, kept⟩ := wheel.dispatch isPc
          refine ⟨⟨heap, world.timer, .dispatching phase rest⟩, dispatching node addr, ?_, kept,
            fun other _ => Iff.rfl⟩
          simp only [step, runUpdate, isPc, TimeWheel.dispatch, found, frees, dispatching]
  | executing phase =>
      generalize isSlot : Slot.near (world.timer.time &&& timeNearMask).toNat = slot
      by_cases some : world.timer.slots slot = []
      · cases phase with
        | beforeShift =>
            obtain ⟨timer, shifts, kept, sameStuck⟩ := wheel.shift isPc
            refine ⟨{ world with timer, pc := .executing .afterShift }, [], ?_,
              by rw [List.append_nil]; exact kept, sameStuck⟩
            simp only [step, runUpdate, isPc, isSlot, some, ne_eq, not_true_eq_false, if_false, shifts]
        | afterShift =>
            refine ⟨{ world with pc := .idle }, [.updated], ?_, wheel.finish isPc (isSlot ▸ some),
              fun addr _ => Iff.rfl⟩
            simp only [step, runUpdate, isPc, isSlot, some, ne_eq, not_true_eq_false, if_false]
      · refine ⟨⟨world.heap, (linkClear world.timer slot).2,
            .dispatching phase (world.timer.slots slot)⟩,
          handings world.timer.time (world.timer.slots slot), ?_,
          wheel.handOver isPc isSlot.symm some, ?_⟩
        · simp only [step, runUpdate, isPc, isSlot, ne_eq, some, not_false_eq_true, if_true]
          rfl
        · intro addr _
          constructor
          · rintro ⟨other, stuck, member⟩
            exact ⟨other, stuck, (mem_linkClear.mp member).1⟩
          · rintro ⟨other, stuck, member⟩
            refine ⟨other, stuck, mem_linkClear.mpr ⟨member, ?_⟩⟩
            rintro rfl
            rw [← isSlot] at stuck
            exact stuck

theorem Wheel.addTimer_taken (wheel : Wheel world events) {time : Int} {callback : Nat} {id : Int}
    {cancel : UInt8} (inRange : (Call.addTimer time callback id cancel).InRange) {next : World}
    {shown : List Event} (taken : TimeWheel.step world (.addTimer time callback id cancel) = some (next, shown)) :
    shown = [.added world.heap.length (UInt32.ofInt time + world.timer.time)] ∧ next.pc = world.pc := by
  have lockFree : world.pc.lockFree = true := by
    by_contra locked
    simp only [TimeWheel.step, if_neg locked, reduceCtorEq] at taken
  have ⟨other, isTaken, _, _, samePc, _⟩ :=
    wheel.addTimer inRange.1 inRange.2 lockFree callback id cancel
  obtain ⟨rfl, rfl⟩ := Prod.mk.inj (Option.some.inj (isTaken.symm.trans taken))
  exact ⟨rfl, samePc⟩

theorem Wheel.step (wheel : Wheel world events) {call : Call} (inRange : call.InRange) {next : World}
    {shown : List Event} (taken : step world call = some (next, shown)) :
    Wheel next (events ++ shown) ∧ SameStuck events world.timer next.timer := by
  cases call with
  | addTimer time callback id cancel =>
      have lockFree : world.pc.lockFree = true := by
        by_contra locked
        simp only [TimeWheel.step, if_neg locked, reduceCtorEq] at taken
      obtain ⟨other, isTaken, kept, sameStuck, -⟩ :=
        wheel.addTimer inRange.1 inRange.2 lockFree callback id cancel
      obtain ⟨rfl, rfl⟩ := Prod.mk.inj (Option.some.inj (isTaken.symm.trans taken))
      exact ⟨kept, sameStuck⟩
  | delTimer node => exact wheel.delTimer taken
  | timerUpdate =>
      have isIdle : world.pc = .idle := by
        by_contra busy
        simp only [TimeWheel.step, if_neg busy, reduceCtorEq] at taken
      obtain ⟨isTaken, kept⟩ := wheel.timerUpdate isIdle
      obtain ⟨rfl, rfl⟩ := Prod.mk.inj (Option.some.inj (isTaken.symm.trans taken))
      rw [List.append_nil]
      exact ⟨kept, fun addr _ => Iff.rfl⟩
  | run =>
      have notIdle : world.pc ≠ .idle := by
        intro isIdle
        simp only [TimeWheel.step, runUpdate, isIdle, reduceCtorEq] at taken
      obtain ⟨other, otherShown, isTaken, kept, sameStuck⟩ := wheel.run notIdle
      obtain ⟨rfl, rfl⟩ := Prod.mk.inj (Option.some.inj (isTaken.symm.trans taken))
      exact ⟨kept, sameStuck⟩

end

/-! ### Steps and the heap -/

/-- What a step does to the heap, and the callbacks and frees it shows. -/
inductive Touches (world next : World) : Call → List Event → Prop where
  | nothing {call : Call} {shown : List Event} (updates : call = .timerUpdate ∨ call = .run)
      (same : next.heap = world.heap) (callsNone : calledNodes shown = [])
      (freesNone : freedNodes shown = []) : Touches world next call shown
  | added {time : Int} {callback : Nat} {id : Int} {cancel : UInt8} {shown : List Event}
      (positive : 0 < time) (callsNone : calledNodes shown = []) (freesNone : freedNodes shown = [])
      (allocs : next.heap =
        world.heap.alloc ⟨UInt32.ofInt time + world.timer.time, callback, cancel, id⟩) :
      Touches world next (.addTimer time callback id cancel) shown
  | late {time : Int} {callback : Nat} {id : Int} {cancel : UInt8} {node : TimerNode}
      (notPositive : time ≤ 0)
      (frees : (world.heap.alloc node).free world.heap.length = some next.heap) :
      Touches world next (.addTimer time callback id cancel)
        [.called world.heap.length, .freed world.heap.length]
  | deleted {addr : Addr} {node : TimerNode} (found : world.heap.load addr = some node)
      (stores : world.heap.store addr { node with cancel := 1 } = some next.heap) :
      Touches world next (.delTimer addr) []
  | dispatched {addr : Addr} {node : TimerNode} (found : world.heap.load addr = some node)
      (frees : world.heap.free addr = some next.heap) :
      Touches world next .run (dispatching node addr)

private theorem addTimer_touches {world next : World} {shown : List Event} {time : Int}
    {callback : Nat} {id : Int} {cancel : UInt8}
    (taken : addTimer world time callback id cancel = some (next, shown)) :
    Touches world next (.addTimer time callback id cancel) shown := by
  unfold addTimer at taken
  by_cases notPositive : time ≤ 0
  · simp only [if_pos notPositive] at taken
    split at taken
    · rename_i heap frees
      simp only [Option.some.injEq, Prod.mk.injEq] at taken
      obtain ⟨rfl, rfl⟩ := taken
      exact .late notPositive frees
    · contradiction
  · simp only [if_neg notPositive] at taken
    split at taken
    · simp only [Option.some.injEq, Prod.mk.injEq] at taken
      obtain ⟨rfl, rfl⟩ := taken
      exact .added (Int.not_le.mp notPositive) rfl rfl rfl
    · contradiction

private theorem delTimer_touches {world next : World} {shown : List Event} {addr : Addr}
    (taken : delTimer world addr = some (next, shown)) :
    Touches world next (.delTimer addr) shown := by
  unfold delTimer at taken
  split at taken
  · rename_i node found
    split at taken
    · rename_i heap stores
      simp only [Option.some.injEq, Prod.mk.injEq] at taken
      obtain ⟨rfl, rfl⟩ := taken
      exact .deleted found stores
    · contradiction
  · contradiction

/-- What a step of `timer_update` does. -/
inductive Advances (world : World) : World → List Event → Prop where
  | dispatched {phase : Phase} {addr : Addr} {rest : List Addr} {node : TimerNode} {heap : Heap TimerNode}
      (isPc : world.pc = .dispatching phase (addr :: rest)) (found : world.heap.load addr = some node)
      (frees : world.heap.free addr = some heap) :
      Advances world ⟨heap, world.timer, .dispatching phase rest⟩ (dispatching node addr)
  | emptied {phase : Phase} (isPc : world.pc = .dispatching phase []) :
      Advances world { world with pc := .executing phase } []
  | handedOver {phase : Phase} {slot : Slot} (isPc : world.pc = .executing phase)
      (isSlot : slot = .near (world.timer.time &&& timeNearMask).toNat) (due : world.timer.slots slot ≠ []) :
      Advances world
        ⟨world.heap, (linkClear world.timer slot).2, .dispatching phase (world.timer.slots slot)⟩
        (handings world.timer.time (world.timer.slots slot))
  | shifted {timer : Timer} (isPc : world.pc = .executing .beforeShift)
      (noneDue : world.timer.slots (.near (world.timer.time &&& timeNearMask).toNat) = [])
      (shifts : timerShift world.heap world.timer = some timer) :
      Advances world { world with timer, pc := .executing .afterShift } []
  | finished (isPc : world.pc = .executing .afterShift)
      (noneDue : world.timer.slots (.near (world.timer.time &&& timeNearMask).toNat) = []) :
      Advances world { world with pc := .idle } [.updated]

theorem runUpdate_advances {world next : World} {shown : List Event}
    (taken : runUpdate world = some (next, shown)) : Advances world next shown := by
  unfold runUpdate at taken
  cases isPc : world.pc with
  | idle => simp [isPc] at taken
  | dispatching phase current =>
      cases current with
      | nil =>
          simp only [isPc, Option.some.injEq, Prod.mk.injEq] at taken
          obtain ⟨rfl, rfl⟩ := taken
          exact .emptied isPc
      | cons addr rest =>
          simp only [isPc, dispatch] at taken
          split at taken
          · rename_i node heap found frees
            simp only [Option.some.injEq, Prod.mk.injEq] at taken
            obtain ⟨rfl, rfl⟩ := taken
            exact .dispatched isPc found frees
          · contradiction
  | executing phase =>
      simp only [isPc] at taken
      split at taken
      · rename_i due
        simp only [Option.some.injEq, Prod.mk.injEq] at taken
        obtain ⟨rfl, rfl⟩ := taken
        exact .handedOver isPc rfl due
      · rename_i noneDue
        cases phase with
        | beforeShift =>
            simp only at taken
            split at taken
            · rename_i timer shifts
              simp only [Option.some.injEq, Prod.mk.injEq] at taken
              obtain ⟨rfl, rfl⟩ := taken
              exact .shifted isPc (not_not.mp noneDue) shifts
            · contradiction
        | afterShift =>
            simp only [Option.some.injEq, Prod.mk.injEq] at taken
            obtain ⟨rfl, rfl⟩ := taken
            exact .finished isPc (not_not.mp noneDue)

private theorem runUpdate_touches {world next : World} {shown : List Event}
    (taken : runUpdate world = some (next, shown)) : Touches world next .run shown := by
  cases runUpdate_advances taken with
  | dispatched _ found frees => exact .dispatched found frees
  | emptied => exact .nothing (.inr rfl) rfl rfl rfl
  | handedOver => exact .nothing (.inr rfl) rfl (calledNodes_handings _ _) (freedNodes_handings _ _)
  | shifted => exact .nothing (.inr rfl) rfl rfl rfl
  | finished => exact .nothing (.inr rfl) rfl rfl rfl

theorem step_touches {world next : World} {call : Call} {shown : List Event}
    (taken : step world call = some (next, shown)) : Touches world next call shown := by
  cases call with
  | addTimer time callback id cancel =>
      simp only [TimeWheel.step] at taken
      split at taken
      · exact addTimer_touches taken
      · contradiction
  | delTimer addr => exact delTimer_touches taken
  | timerUpdate =>
      simp only [TimeWheel.step] at taken
      split at taken
      · simp only [Option.some.injEq, Prod.mk.injEq] at taken
        obtain ⟨rfl, rfl⟩ := taken
        exact .nothing (.inl rfl) rfl rfl rfl
      · contradiction
  | run => exact runUpdate_touches taken

/-! ### Whole runs -/

theorem exec_wheel {calls : List Call} {world : World} {events : List Event}
    (inRange : ∀ call ∈ calls, call.InRange) (exec : machine.Exec calls world events) :
    Wheel world events := by
  induction exec with
  | start => exact wheel_start
  | step before taken inductionHypothesis =>
      have wheel := inductionHypothesis fun call member => inRange call (List.mem_append_left _ member)
      exact (wheel.step (inRange _ (by simp)) taken).1

/-- What the wheel owes every node, whatever it has been through. -/
structure HandedOnTime (world : World) (events : List Event) : Prop where
  addedOnce : (addedNodes events).Nodup
  inOneSlot : ∀ addr, Waiting events addr → ∃ slot, (world.timer.slots slot).count addr = 1 ∧
    ∀ other, addr ∈ world.timer.slots other → other = slot
  waiting : ∀ slot, ∀ addr ∈ world.timer.slots slot, Waiting events addr
  handedOnce : (handedNodes events).Nodup
  dispatchedOnce : (freedNodes events).Nodup ∧ (calledNodes events).Nodup
  atExpire : ∀ addr time, .handed addr time ∈ events → .added addr time ∈ events

/-- Nothing fires early or twice. -/
theorem handedOnTime {calls : List Call} {world : World} {events : List Event}
    (inRange : ∀ call ∈ calls, call.InRange) (exec : machine.Exec calls world events) :
    HandedOnTime world events := by
  have wheel := exec_wheel inRange exec
  obtain ⟨added, handed, order, called, onTime⟩ := wheel.ledger
  have freed : (freedNodes events).Nodup := by
    rw [order, List.nodup_append] at handed
    exact handed.1
  refine ⟨added, ?_, ?_, handed, ⟨freed, freed.sublist called⟩, onTime⟩
  · intro addr isWaiting
    obtain ⟨slot, member⟩ := (wheel.waiting addr).mpr isWaiting
    refine ⟨slot, List.count_eq_one_of_mem (wheel.shelved.nodup slot) member, ?_⟩
    exact fun other inOther => wheel.shelved.disjoint other slot addr inOther member
  · exact fun slot addr member => (wheel.waiting addr).mp ⟨slot, member⟩

/-- A timer is added, a second one while the first is dispatched. -/
def addTwo : List Call :=
  [.addTimer 1 0 0 0, .timerUpdate, .run, .run, .addTimer 300 0 0 0, .run, .run, .run]

theorem addTwo_handedOnTime :
    ∃ world events, machine.Exec addTwo world events ∧ HandedOnTime world events := by
  have ran := machine.exec_of_isSome addTwo rfl
  exact ⟨_, _, ran, handedOnTime (by decide) ran⟩

end SimpleBasicComponents.TimeWheel
