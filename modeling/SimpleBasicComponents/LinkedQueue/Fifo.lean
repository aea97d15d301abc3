import SimpleBasicComponents.LinkedQueue.Links

/-!
The linked queue as a first-in-first-out queue.

Owns: what a queue owes its callers, the shapes the links go through, and when
the calls keep to it. `queue_pop` reads a node it has just freed, so no pop that
finds a node is free of an access after `free`
(`completes_fifo_iff_popsFindNothing`). But for that one read, a queue serves
its callers exactly as long as it does not turn round on a single node
(`completes_servesButReads_iff_keepsDirection`).
-/

namespace SimpleBasicComponents.LinkedQueue

open SimpleBasicComponents.Semantics
open Memory

variable {queue next : Queue} {memory : Memory} {events shown : List Event} {calls : List Call}
  {waiting rest : List (Addr × Ptr)} {addr new : Addr} {data : Ptr} {ptr : Ptr}

/-! ### What callers see -/

/-- The nodes pushed, oldest first. -/
def pushedNodes (events : List Event) : List Addr :=
  events.filterMap fun
    | .pushed addr _ => some addr
    | .popped _ => none

def serve (waiting : List (Addr × Ptr)) : Event → List (Addr × Ptr)
  | .pushed addr data => waiting ++ [(addr, data)]
  | .popped _ => waiting.tail

/-- The nodes pushed and not popped yet with their data, oldest first. -/
def pending (events : List Event) : List (Addr × Ptr) := events.foldl serve []

/-- A pop returns the data of the oldest pending node, and NULL if there is none. -/
def AnswersOldest (earlier : List Event) : Event → Prop
  | .pushed _ _ => True
  | .popped answer => answer = (pending earlier).head?.bind Prod.snd

structure Serves (queue : Queue) (events : List Event) : Prop where
  answers : Historically AnswersOldest events
  /-- What was freed is what was popped, in the order of the pushes. -/
  freed : queue.memory.freed ++ (pending events).map Prod.fst = pushedNodes events
  once : queue.memory.freed.Nodup
  empty : (queueIsEmpty queue).map Prod.snd = some (pending events).isEmpty

/-- No node is touched after it was freed. -/
def Fifo (queue : Queue) (events : List Event) : Prop :=
  Serves queue events ∧ queue.memory.touched = []

def PopFindsNothing (queue : Queue) (call : Call) : Prop :=
  call = .pop → (queueIsEmpty queue).map Prod.snd = some true

@[simp] theorem pending_nil : pending [] = [] := rfl

@[simp] theorem pending_snoc (event : Event) :
    pending (events ++ [event]) = serve (pending events) event := by
  simp [pending]

@[simp] theorem pushedNodes_pushed :
    pushedNodes (events ++ [.pushed addr data]) = pushedNodes events ++ [addr] := by
  simp [pushedNodes]

@[simp] theorem pushedNodes_popped (answer : Ptr) :
    pushedNodes (events ++ [.popped answer]) = pushedNodes events := by
  simp [pushedNodes]

/-! ### The shapes -/

/-- The `prev` links lead from the pointer through the nodes to the head. -/
def Linked (memory : Memory) : Ptr → List (Addr × Ptr) → Prop
  | ptr, [] => ptr = some 0
  | ptr, (addr, data) :: rest =>
      ptr = some addr ∧ ∃ node, memory.Live addr node ∧ node.data = data ∧ Linked memory node.prev rest

inductive Shape (memory : Memory) : List (Addr × Ptr) → Prop
  | nothing (head : memory.Live 0 ⟨some 0, some 0, none⟩) : Shape memory []
  /-- One node, just pushed. -/
  | fresh {addr : Addr} {data : Ptr} (head : memory.Live 0 ⟨some addr, some addr, none⟩)
      (node : memory.Live addr ⟨some addr, some addr, data⟩) : Shape memory [(addr, data)]
  /-- One node, left over by a pop. -/
  | left {addr : Addr} {data next : Ptr} (head : memory.Live 0 ⟨some addr, some 0, none⟩)
      (node : memory.Live addr ⟨some 0, next, data⟩) (popped : memory.freed ≠ []) :
      Shape memory [(addr, data)]
  | many {first second last : Addr × Ptr} {rest : List (Addr × Ptr)}
      (head : memory.Live 0 ⟨some first.1, some last.1, none⟩)
      (linked : Linked memory (some first.1) (first :: second :: rest))
      (isLast : (second :: rest).getLast? = some last) : Shape memory (first :: second :: rest)

theorem Linked.live (linked : Linked memory ptr waiting) {item : Addr × Ptr} (member : item ∈ waiting) :
    ∃ node, memory.Live item.1 node ∧ node.data = item.2 := by
  induction waiting generalizing ptr with
  | nil => contradiction
  | cons head rest inductionHypothesis =>
      obtain ⟨-, node, live, holds, linkedRest⟩ := linked
      rcases List.mem_cons.mp member with rfl | later
      · exact ⟨node, live, holds⟩
      · exact inductionHypothesis linkedRest later

/-- Only the nodes on the way matter. -/
theorem Linked.congr {other : Memory} (linked : Linked memory ptr waiting)
    (same : ∀ item ∈ waiting, ∀ node, memory.Live item.1 node → other.Live item.1 node) :
    Linked other ptr waiting := by
  induction waiting generalizing ptr with
  | nil => exact linked
  | cons head rest inductionHypothesis =>
      obtain ⟨isHead, node, live, holds, linkedRest⟩ := linked
      exact ⟨isHead, node, same head (by simp) node live, holds,
        inductionHypothesis linkedRest fun item member => same item (by simp [member])⟩

/-- A queue and the calls it has seen, as long as all goes well. -/
structure Tidy (queue : Queue) (events : List Event) : Prop where
  head : queue.head = some 0
  shape : Shape queue.memory (pending events)
  answers : Historically AnswersOldest events
  freed : queue.memory.freed ++ (pending events).map Prod.fst = pushedNodes events
  /-- The only accesses to freed nodes are the ones of the pops that freed them. -/
  touched : queue.memory.touched = queue.memory.freed
  addrs : pushedNodes events = List.range' 1 (queue.memory.nodes.length - 1)

theorem tidy_create : Tidy queueCreate [] := by
  refine ⟨rfl, .nothing ⟨rfl, by simp [queueCreate]⟩, historically_nil, rfl, rfl, rfl⟩

theorem Tidy.positive (tidy : Tidy queue events) {item : Addr × Ptr} (member : item ∈ pending events) :
    0 ≠ item.1 := by
  have pushed : item.1 ∈ pushedNodes events := by
    rw [← tidy.freed]
    exact List.mem_append_right _ (List.mem_map_of_mem member)
  rw [tidy.addrs, List.mem_range'_1] at pushed
  exact Nat.ne_of_lt pushed.1

theorem Tidy.once (tidy : Tidy queue events) :
    (queue.memory.freed ++ (pending events).map Prod.fst).Nodup := by
  rw [tidy.freed, tidy.addrs]
  exact List.nodup_range'

theorem Tidy.fresh (tidy : Tidy queue events) : queue.memory.nodes.length ∉ queue.memory.freed := by
  intro freed
  have pushed : queue.memory.nodes.length ∈ pushedNodes events := by
    rw [← tidy.freed]
    exact List.mem_append_left _ freed
  rw [tidy.addrs, List.mem_range'_1] at pushed
  omega

theorem Shape.live_head (shape : Shape memory waiting) : ∃ node, memory.Live 0 node := by
  cases shape with
  | nothing head => exact ⟨_, head⟩
  | fresh head node => exact ⟨_, head⟩
  | left head node popped => exact ⟨_, head⟩
  | many head linked isLast => exact ⟨_, head⟩

theorem Shape.empty_iff (shape : Shape memory waiting) (positive : ∀ item ∈ waiting, 0 ≠ item.1)
    {node : Node} (live : memory.Live 0 node) :
    (node.prev = node.next ∧ node.next = some 0) ↔ waiting = [] := by
  have unique : ∀ {other : Node}, memory.Live 0 other → node = other :=
    fun other => Option.some.inj (live.1.symm.trans other.1)
  cases shape with
  | nothing head =>
      rw [unique head]
      simp
  | fresh head _ =>
      rw [unique head]
      have notHead := positive _ (List.mem_singleton_self _)
      simpa using notHead.symm
  | left head _ _ =>
      rw [unique head]
      have notHead := positive _ (List.mem_singleton_self _)
      simpa using notHead.symm
  | @many first second last rest head _ isLast =>
      rw [unique head]
      have notHead := positive last (List.mem_cons_of_mem _ (List.mem_of_getLast? isLast))
      simpa using fun _ => notHead.symm

theorem Tidy.isEmpty (tidy : Tidy queue events) :
    queueIsEmpty queue = some (queue.memory, (pending events).isEmpty) := by
  obtain ⟨node, live⟩ := tidy.shape.live_head
  rw [queueIsEmpty_eq tidy.head live]
  have exact := tidy.shape.empty_iff (fun _ => tidy.positive) live
  cases isPending : pending events with
  | nil => simpa using exact.mpr isPending
  | cons head rest =>
      have nonEmpty := mt exact.mp (by simp [isPending])
      simpa using nonEmpty

theorem Tidy.serves (tidy : Tidy queue events) : Serves queue events := by
  refine ⟨tidy.answers, tidy.freed, (List.nodup_append.mp tidy.once).1, ?_⟩
  rw [tidy.isEmpty]
  rfl

/-! ### Pushes -/

/-- The node pushed goes behind the last one. -/
theorem Linked.snoc {other : Memory} {last : Addr × Ptr} {back : Ptr}
    (linked : Linked memory ptr waiting) (isLast : waiting.getLast? = some last)
    (distinct : (waiting.map Prod.fst).Nodup)
    (kept : ∀ item ∈ waiting, item.1 ≠ last.1 → ∀ node, memory.Live item.1 node → other.Live item.1 node)
    (behind : ∀ node, memory.Live last.1 node → other.Live last.1 { node with prev := some new })
    (node : other.Live new ⟨some 0, back, data⟩) :
    Linked other ptr (waiting ++ [(new, data)]) := by
  induction waiting generalizing ptr with
  | nil => simp at isLast
  | cons head rest inductionHypothesis =>
      obtain ⟨isHead, here, live, holds, linkedRest⟩ := linked
      rw [List.map_cons, List.nodup_cons] at distinct
      cases rest with
      | nil =>
          obtain rfl : head = last := by simpa using isLast
          exact ⟨isHead, _, behind here live, holds, rfl, _, node, rfl, rfl⟩
      | cons second rest =>
          rw [List.getLast?_cons_cons] at isLast
          have notLast : head.1 ≠ last.1 := by
            intro same
            exact distinct.1 (same ▸ List.mem_map_of_mem (List.mem_of_getLast? isLast))
          refine ⟨isHead, here, kept head (by simp) notLast here live, holds, ?_⟩
          exact inductionHypothesis linkedRest isLast distinct.2
            fun item member => kept item (List.mem_cons_of_mem _ member)

/-- `head->next` is the head, but `head->prev` is not: one node is left over. -/
def Turned (queue : Queue) : Prop :=
  ∃ memory node, queue.memory.load queue.head = some (memory, node) ∧
    node.next = queue.head ∧ node.prev ≠ queue.head

theorem Shape.push (shape : Shape memory waiting) (positive : ∀ item ∈ waiting, 0 ≠ item.1)
    (distinct : (waiting.map Prod.fst).Nodup) (fresh : memory.nodes.length ∉ memory.freed)
    (straight : ¬ Turned ⟨memory, some 0⟩) (data : Ptr) :
    ∃ next, queuePush ⟨memory, some 0⟩ data = some ⟨next, some 0⟩ ∧ next.freed = memory.freed ∧
      next.touched = memory.touched ∧ next.nodes.length = memory.nodes.length + 1 ∧
      Shape next (waiting ++ [(memory.nodes.length, data)]) := by
  generalize isNew : memory.nodes.length = new at fresh
  obtain ⟨anyNode, anyLive⟩ := shape.live_head
  have newPositive : 0 ≠ new := isNew ▸ Nat.ne_of_lt anyLive.lt
  have node := live_alloc isNew fresh ⟨none, none, data⟩
  cases shape with
  | nothing head =>
      have pushes := @queuePush_empty new ⟨memory, some 0⟩ data none rfl head isNew fresh
      refine ⟨_, pushes, rfl, rfl, by simp [alloc, put, isNew], .fresh ?_ ?_⟩
      · exact ((head.alloc _).put_self _).put_other newPositive.symm _
      · exact (node.put_other newPositive _).put_self _
  | @fresh addr before head first =>
      have notHead := positive _ (List.mem_singleton_self _)
      have different : new ≠ addr := fun same => absurd first.lt (by rw [isNew, same]; exact Nat.lt_irrefl _)
      have pushes := @queuePush_nonEmpty new _ ⟨memory, some 0⟩ data rfl head
        (by simpa using notHead.symm) isNew
      rw [linkNext_eq (head.alloc _) (first.alloc _) node newPositive notHead different] at pushes
      refine ⟨_, pushes, rfl, rfl, by simp [alloc, put, isNew], @Shape.many _ _ _ (new, data) _ ?_ ?_ rfl⟩
      · exact (((head.alloc _).put_other newPositive.symm _).put_other notHead.symm _).put_self _
      · refine ⟨rfl, _, ((first.alloc _).put_other different _).put_self _ |>.put_other notHead _, rfl,
          rfl, _, (node.put_self _).put_other different.symm _ |>.put_other newPositive _, rfl, rfl⟩
  | left head first popped =>
      exact absurd ⟨_, _, head.load, rfl, by simpa using (positive _ (List.mem_singleton_self _)).symm⟩ straight
  | @many one two last rest head linked isLast =>
      have isLast' : (one :: two :: rest).getLast? = some last := by
        rw [List.getLast?_cons_cons, isLast]
      have member := List.mem_of_getLast? isLast'
      obtain ⟨back, latest, -⟩ := linked.live member
      have notHead := positive last member
      have older : ∀ {place : Addr} {found : Node}, memory.Live place found → new ≠ place := by
        rintro place found live rfl
        exact absurd live.lt (isNew ▸ Nat.lt_irrefl _)
      have pushes := @queuePush_nonEmpty new _ ⟨memory, some 0⟩ data rfl head
        (by simpa using fun _ => notHead.symm) isNew
      rw [linkNext_eq (head.alloc _) (latest.alloc _) node newPositive notHead (older latest)] at pushes
      refine ⟨_, pushes, rfl, rfl, by simp [alloc, put, isNew], ?_⟩
      refine @Shape.many _ one two (new, data) (rest ++ [(new, data)]) ?_ ?_ ?_
      · exact (((head.alloc _).put_other newPositive.symm _).put_other notHead.symm _).put_self _
      · refine linked.snoc isLast' distinct ?_ ?_
          (((node.put_self _).put_other (older latest).symm _).put_other newPositive _)
        · intro item present notLast found live
          exact (((live.alloc _).put_other (older live) _).put_other notLast.symm _).put_other
            (positive item present) _
        · intro found live
          obtain rfl : found = back := Option.some.inj (live.1.symm.trans latest.1)
          exact (((live.alloc _).put_other (older live) _).put_self _).put_other notHead _
      · rw [← List.cons_append, List.getLast?_append]
        rfl

/-! ### Pops -/

theorem Memory.Live.release {other : Addr} {node : Node} (live : memory.Live addr node)
    (different : addr ≠ other) : (memory.release other).Live addr node :=
  ⟨live.1, by simpa [Memory.release] using ⟨live.2, different⟩⟩

/-- The node a pop takes. -/
theorem Shape.front {item : Addr × Ptr} (shape : Shape memory (item :: rest)) :
    ∃ next node, memory.Live 0 ⟨some item.1, next, none⟩ ∧ memory.Live item.1 node ∧ node.data = item.2 := by
  cases shape with
  | fresh head node => exact ⟨_, _, head, node, rfl⟩
  | left head node _ => exact ⟨_, _, head, node, rfl⟩
  | many head linked _ =>
      obtain ⟨node, live, holds⟩ := linked.live (List.mem_cons_self ..)
      exact ⟨_, node, head, live, holds⟩

/-- The only node has just been pushed: it is its own predecessor. -/
def Lone (queue : Queue) : Prop :=
  ∃ memory head after node, queue.memory.load queue.head = some (memory, head) ∧
    head.prev ≠ queue.head ∧ memory.load head.prev = some (after, node) ∧ node.prev = head.prev

/-- A node that the links lead away from is not the only one. -/
theorem Linked.notLone {node : Node} (head : memory.Live 0 node)
    (linked : Linked memory node.prev waiting) (positive : ∀ item ∈ waiting, 0 ≠ item.1)
    (distinct : (waiting.map Prod.fst).Nodup) : ¬ Lone ⟨memory, some 0⟩ := by
  rintro ⟨after, found, last, other, loads, notHead, loadsNode, isSelf⟩
  obtain ⟨rfl, rfl⟩ := Prod.mk.inj (Option.some.inj (head.load.symm.trans loads))
  cases waiting with
  | nil => exact notHead linked
  | cons item rest =>
      obtain ⟨isItem, here, live, -, linkedRest⟩ := linked
      rw [isItem] at loadsNode isSelf
      obtain ⟨rfl, rfl⟩ := Prod.mk.inj (Option.some.inj (live.load.symm.trans loadsNode))
      rw [isSelf] at linkedRest
      cases rest with
      | nil => exact positive item (List.mem_cons_self ..) (Option.some.inj linkedRest).symm
      | cons second rest =>
          have same : item.1 = second.1 := Option.some.inj linkedRest.1
          rw [List.map_cons, List.map_cons, same] at distinct
          exact (List.nodup_cons.mp distinct).1 (List.mem_cons_self ..)

/-- Once its first node is gone, the rest of a longer queue has a shape again. -/
private theorem Linked.shorter {second last : Addr × Ptr} {node : Node} {held : Memory}
    (linked : Linked held node.prev (second :: rest)) (notHead : 0 ≠ last.1) (popped : held.freed ≠ [])
    (distinct : ((second :: rest).map Prod.fst).Nodup)
    (isLast : (second :: rest).getLast? = some last)
    (head : held.Live 0 ⟨node.prev,
      if node.prev = some last.1 ∧ some last.1 ≠ some 0 then some 0 else some last.1, none⟩) :
    Shape held (second :: rest) := by
  obtain ⟨isSecond, after, live, holds, linkedRest⟩ := linked
  rw [isSecond] at head
  cases rest with
  | nil =>
      obtain rfl : second = last := by simpa using isLast
      rw [if_pos ⟨rfl, by simpa using notHead.symm⟩] at head
      obtain ⟨back, next, data⟩ := after
      obtain rfl : data = second.2 := holds
      obtain rfl : back = some 0 := linkedRest
      exact .left head live popped
  | cons third rest =>
      rw [List.getLast?_cons_cons] at isLast
      have notLast : second.1 ≠ last.1 := by
        intro same
        rw [List.map_cons, List.nodup_cons] at distinct
        exact distinct.1 (same ▸ List.mem_map_of_mem (List.mem_of_getLast? isLast))
      rw [if_neg (by simpa using fun same => absurd same notLast)] at head
      exact .many head ⟨rfl, after, live, holds, linkedRest⟩ isLast

theorem Shape.pop {item : Addr × Ptr} (shape : Shape memory (item :: rest))
    (positive : ∀ other ∈ item :: rest, 0 ≠ other.1) (distinct : ((item :: rest).map Prod.fst).Nodup)
    (notLone : ¬ Lone ⟨memory, some 0⟩) :
    ∃ next, queuePop ⟨memory, some 0⟩ = some (⟨next, some 0⟩, item.2) ∧
      next.freed = memory.freed ++ [item.1] ∧ next.touched = memory.touched ++ [item.1] ∧
      next.nodes.length = memory.nodes.length ∧ Shape next rest ∧ ¬ Lone ⟨next, some 0⟩ := by
  have notHead := positive item (by simp)
  have length : ∀ node, ((memory.put 0 node).release item.1).nodes.length = memory.nodes.length := by
    simp [put, Memory.release]
  cases shape with
  | fresh head node => 
      exact absurd ⟨_, _, _, _, head.load, by simpa using notHead.symm, node.load, rfl⟩ notLone
  | left head node popped =>
      have pops := @queuePop_nonEmpty _ _ ⟨memory, some 0⟩ none _ rfl head node notHead
      have after := (head.put_self ⟨some 0, some 0, none⟩).release notHead
      refine ⟨_, pops, rfl, rfl, length _, .nothing ?_,
        @Linked.notLone _ [] ⟨some 0, some 0, none⟩ ?_ rfl (by simp) (by simp)⟩
      · simpa using after
      · simpa using after
  | @many _ second last rest head linked isLast =>
      obtain ⟨-, node, live, holds, linkedRest⟩ := linked
      have pops := @queuePop_nonEmpty _ _ ⟨memory, some 0⟩ none _ rfl head live notHead
      rw [holds] at pops
      rw [List.map_cons, List.nodup_cons] at distinct
      have after := (head.put_self ⟨node.prev,
        if node.prev = some last.1 ∧ some last.1 ≠ some 0 then some 0 else some last.1, none⟩).release notHead
      have isLinked : Linked ((memory.put 0 ⟨node.prev,
          if node.prev = some last.1 ∧ some last.1 ≠ some 0 then some 0 else some last.1, none⟩).release
            item.1) node.prev (second :: rest) := by
        refine linkedRest.congr fun other present found live => ?_
        have different : other.1 ≠ item.1 := by
          intro same
          exact distinct.1 (same ▸ List.mem_map_of_mem present)
        exact (live.put_other (positive other (List.mem_cons_of_mem _ present)) _).release different
      refine ⟨_, pops, rfl, rfl, length _, ?_,
        isLinked.notLone after (fun other present => positive other (List.mem_cons_of_mem _ present)) distinct.2⟩
      have lastPositive := positive last (List.mem_cons_of_mem _ (List.mem_of_getLast? isLast))
      exact isLinked.shorter lastPositive (by simp [Memory.release]) distinct.2 isLast after

/-! ### One call -/

theorem Tidy.push (tidy : Tidy queue events) (straight : ¬ Turned queue) (data : Ptr) :
    ∃ next, step queue (.push data) = some (next, [.pushed queue.memory.nodes.length data]) ∧
      Tidy next (events ++ [.pushed queue.memory.nodes.length data]) ∧
      next.memory.freed = queue.memory.freed := by
  obtain ⟨memory, head⟩ := queue
  obtain rfl : head = some 0 := tidy.head
  obtain ⟨next, pushes, freed, touched, length, shape⟩ :=
    tidy.shape.push (fun _ => tidy.positive) (List.nodup_append.mp tidy.once).2.1 tidy.fresh straight data
  obtain ⟨node, live⟩ := tidy.shape.live_head
  refine ⟨⟨next, some 0⟩, by simp only [step, pushes], ⟨rfl, ?_, ?_, ?_, ?_, ?_⟩, freed⟩
  · rw [pending_snoc]
    exact shape
  · exact historically_snoc_iff.mpr ⟨tidy.answers, trivial⟩
  · rw [pending_snoc, pushedNodes_pushed, ← tidy.freed, freed]
    simp [serve]
  · rw [touched, freed]
    exact tidy.touched
  · have positive : 1 ≤ memory.nodes.length := live.lt
    rw [pushedNodes_pushed, tidy.addrs, length]
    obtain ⟨count, isCount⟩ := Nat.exists_eq_add_of_le' positive
    rw [isCount, Nat.add_sub_cancel, Nat.add_sub_cancel, List.range'_concat, Nat.one_mul,
      Nat.add_comm 1]

theorem Tidy.pop_nothing (tidy : Tidy queue events) (isEmpty : pending events = []) :
    step queue .pop = some (queue, [.popped none]) ∧ Tidy queue (events ++ [.popped none]) := by
  have shape := tidy.shape
  have freed := tidy.freed
  rw [isEmpty] at shape freed
  cases shape with
  | nothing head =>
      refine ⟨by simp only [step, queuePop_empty tidy.head head], tidy.head, ?_, ?_, ?_, tidy.touched, ?_⟩
      · rw [pending_snoc, isEmpty]
        exact .nothing head
      · refine historically_snoc_iff.mpr ⟨tidy.answers, ?_⟩
        simp [AnswersOldest, isEmpty]
      · rw [pending_snoc, isEmpty, pushedNodes_popped]
        exact freed
      · rw [pushedNodes_popped]
        exact tidy.addrs

theorem Tidy.pop (tidy : Tidy queue events) {item : Addr × Ptr} (isPending : pending events = item :: rest)
    (notLone : ¬ Lone queue) :
    ∃ next, step queue .pop = some (next, [.popped item.2]) ∧
      Tidy next (events ++ [.popped item.2]) ∧ ¬ Lone next := by
  obtain ⟨memory, head⟩ := queue
  obtain rfl : head = some 0 := tidy.head
  have shape := tidy.shape
  have isFreed := tidy.freed
  have distinct := (List.nodup_append.mp tidy.once).2.1
  rw [isPending] at shape isFreed distinct
  obtain ⟨next, pops, freed, touched, length, shapeRest, notLoneNext⟩ :=
    shape.pop (fun other member => tidy.positive (by rwa [isPending])) distinct notLone
  refine ⟨⟨next, some 0⟩, by simp only [step, pops], ⟨rfl, ?_, ?_, ?_, ?_, ?_⟩, notLoneNext⟩
  · rw [pending_snoc, isPending]
    exact shapeRest
  · refine historically_snoc_iff.mpr ⟨tidy.answers, ?_⟩
    simp [AnswersOldest, isPending]
  · rw [pending_snoc, isPending, pushedNodes_popped, ← isFreed, freed]
    simp [serve]
  · rw [touched, freed]
    exact congrArg (· ++ [item.1]) tidy.touched
  · rw [pushedNodes_popped, length]
    exact tidy.addrs

/-- A pop that finds a node touches it after freeing it. -/
theorem Tidy.pop_touches (tidy : Tidy queue events) (nonEmpty : pending events ≠ []) :
    ∃ next shown, step queue .pop = some (next, shown) ∧ next.memory.touched ≠ [] := by
  obtain ⟨item, rest, isPending⟩ := List.exists_cons_of_ne_nil nonEmpty
  have shape := tidy.shape
  rw [isPending] at shape
  obtain ⟨next, node, head, live, -⟩ := shape.front
  have pops := queuePop_nonEmpty tidy.head head live (tidy.positive (by simp [isPending]))
  refine ⟨_, [.popped node.data], by simp only [step, pops]; rfl, ?_⟩
  simp [Memory.release]

/-! ### Whole runs -/

theorem Tidy.straight (tidy : Tidy queue events) (unfreed : queue.memory.freed = []) : ¬ Turned queue := by
  obtain ⟨memory, head⟩ := queue
  obtain rfl : head = some 0 := tidy.head
  rintro ⟨after, node, loads, isHead, notHead⟩
  obtain ⟨found, live⟩ := tidy.shape.live_head
  obtain ⟨rfl, rfl⟩ := Prod.mk.inj (Option.some.inj (live.load.symm.trans loads))
  have unique : ∀ {other : Node}, memory.Live 0 other → found = other :=
    fun other => Option.some.inj (live.1.symm.trans other.1)
  have positive := @tidy.positive
  have shape := tidy.shape
  generalize pending events = waiting at shape positive
  cases shape with
  | nothing head =>
      rw [unique head] at notHead
      exact notHead rfl
  | fresh head _ =>
      rw [unique head] at isHead
      exact positive (List.mem_singleton_self _) (Option.some.inj isHead).symm
  | left _ _ popped => exact popped unfreed
  | @many _ _ last _ head _ isLast =>
      rw [unique head] at isHead
      have notHead := @positive last (List.mem_cons_of_mem _ (List.mem_of_getLast? isLast))
      exact notHead (Option.some.inj isHead).symm

/-- The calls on a fresh queue keep the queue's promise exactly when no pop finds a node. -/
theorem completes_fifo_iff_popsFindNothing (calls : List Call) :
    machine.Completes Fifo calls ↔ machine.Guarded PopFindsNothing calls := by
  apply @Machine.completes_iff_guarded _ _ _ machine Tidy
  · exact ⟨tidy_create, tidy_create.serves, rfl⟩
  · rintro queue events call tidy ⟨-, untouched⟩
    have unfreed : queue.memory.freed = [] := tidy.touched.symm.trans untouched
    cases call with
    | push data =>
        obtain ⟨next, steps, tidyNext, freed⟩ := tidy.push (tidy.straight unfreed) data
        refine ⟨fun _ isPop => (by simp at isPop), fun _ => ⟨next, _, steps, tidyNext.serves, ?_⟩⟩
        rw [tidyNext.touched, freed, unfreed]
    | pop =>
        unfold PopFindsNothing
        rw [tidy.isEmpty]
        by_cases isEmpty : pending events = []
        · obtain ⟨steps, tidyNext⟩ := tidy.pop_nothing isEmpty
          rw [isEmpty]
          exact ⟨fun _ _ => rfl, fun _ => ⟨queue, _, steps, tidyNext.serves, untouched⟩⟩
        · obtain ⟨next, shown, steps, touched⟩ := tidy.pop_touches isEmpty
          constructor
          · rintro ⟨other, _, stepsOther, -, untouchedOther⟩
            obtain ⟨rfl, rfl⟩ := Prod.mk.inj (Option.some.inj (steps.symm.trans stepsOther))
            exact absurd untouchedOther touched
          · intro finds
            simp [isEmpty] at finds
  · rintro queue events call next shown tidy ⟨-, untouched⟩ findsNothing steps
    cases call with
    | push data =>
        have unfreed : queue.memory.freed = [] := tidy.touched.symm.trans untouched
        obtain ⟨_, stepsTidy, tidyNext, -⟩ := tidy.push (tidy.straight unfreed) data
        obtain ⟨rfl, rfl⟩ := Prod.mk.inj (Option.some.inj (steps.symm.trans stepsTidy))
        exact tidyNext
    | pop =>
        have isEmpty := findsNothing rfl
        rw [tidy.isEmpty] at isEmpty
        obtain ⟨stepsTidy, tidyNext⟩ := tidy.pop_nothing (by simpa using isEmpty)
        obtain ⟨rfl, rfl⟩ := Prod.mk.inj (Option.some.inj (steps.symm.trans stepsTidy))
        exact tidyNext

/-! ### But for the read of a freed node -/

/-- The node the next pop takes. -/
def frontOf (queue : Queue) : Ptr := (queue.memory.load queue.head).bind fun found => found.2.prev

/-- The promise without its last part: each pop touches the node it has freed,
and nothing else that was freed is touched. -/
def ServesButReads (queue : Queue) (events : List Event) : Prop :=
  Serves queue events ∧ queue.memory.touched = queue.memory.freed ∧
    ∀ item, (pending events).head? = some item → frontOf queue = some item.1

/-- A queue of one node goes on in the direction it came from. -/
def KeepsDirection (queue : Queue) : Call → Prop
  | .push _ => ¬ Turned queue
  | .pop => ¬ Lone queue

theorem Tidy.servesButReads (tidy : Tidy queue events) : ServesButReads queue events := by
  refine ⟨tidy.serves, tidy.touched, ?_⟩
  intro item isFront
  obtain ⟨rest, isPending⟩ := List.head?_eq_some_iff.mp isFront
  have shape := tidy.shape
  rw [isPending] at shape
  obtain ⟨next, node, head, -⟩ := shape.front
  unfold frontOf
  rw [tidy.head, head.load]
  rfl

/-- The node pushed takes the place of the one left over. -/
theorem Tidy.turned_push (tidy : Tidy queue events) (turned : Turned queue) (data : Ptr) :
    ∃ next shown, step queue (.push data) = some (next, shown) ∧
      ¬ ServesButReads next (events ++ shown) := by
  obtain ⟨memory, head⟩ := queue
  obtain rfl : head = some 0 := tidy.head
  obtain ⟨after, found, loads, isHead, notHead⟩ := turned
  have shape := tidy.shape
  have fresh := tidy.fresh
  have positive := @tidy.positive
  generalize isPending : pending events = waiting at shape positive
  generalize isNew : memory.nodes.length = new at fresh
  have same : ∀ {other : Node}, memory.Live 0 other → found = other := by
    intro other live
    exact (Prod.mk.inj (Option.some.inj (live.load.symm.trans loads))).2.symm
  cases shape with
  | nothing head =>
      rw [same head] at notHead
      exact absurd rfl notHead
  | fresh head _ =>
      rw [same head] at isHead
      exact absurd (Option.some.inj isHead).symm (positive (List.mem_singleton_self _))
  | @left addr before next head node popped =>
      have newPositive : 0 ≠ new := isNew ▸ Nat.ne_of_lt head.lt
      have pushes := @queuePush_nonEmpty new _ ⟨memory, some 0⟩ data rfl head
        (by simpa using (positive (List.mem_singleton_self _)).symm) isNew
      have newLive := live_alloc isNew fresh ⟨none, none, data⟩
      rw [linkNext_head (head.alloc _) newLive newPositive] at pushes
      refine ⟨_, [.pushed new data], by simp only [step, pushes, isNew]; rfl, ?_⟩
      rintro ⟨-, -, isFront⟩
      have front := isFront (addr, before) (by simp [isPending, serve])
      have headAfter := ((head.alloc ⟨none, none, data⟩).put_other newPositive.symm
        ⟨some 0, some 0, data⟩).put_self ⟨some new, some new, none⟩
      simp only [frontOf, headAfter.load, Option.bind_some, Option.some.injEq] at front
      exact absurd node.lt (by rw [isNew, front]; exact Nat.lt_irrefl _)
  | @many one _ last _ head _ isLast =>
      rw [same head] at isHead
      have member := List.mem_cons_of_mem one (List.mem_of_getLast? isLast)
      exact absurd (Option.some.inj isHead).symm (positive member)

/-- The only queues of a lone node are the ones it was just pushed on. -/
theorem Tidy.fresh_of_lone (tidy : Tidy queue events) (lone : Lone queue) :
    ∃ addr data, pending events = [(addr, data)] ∧
      queue.memory.Live 0 ⟨some addr, some addr, none⟩ ∧
      queue.memory.Live addr ⟨some addr, some addr, data⟩ := by
  obtain ⟨memory, head⟩ := queue
  obtain rfl : head = some 0 := tidy.head
  have shape := tidy.shape
  have distinct := (List.nodup_append.mp tidy.once).2.1
  have positive := @tidy.positive
  generalize pending events = waiting at shape positive distinct
  have away {node : Node} (head : memory.Live 0 node) (linked : Linked memory node.prev waiting) : False :=
    linked.notLone head (fun _ => positive) distinct lone
  cases shape with
  | nothing head => exact (away head rfl).elim
  | @fresh addr data head first => exact ⟨addr, data, rfl, head, first⟩
  | left head first _ => exact (away head ⟨rfl, _, first, rfl, rfl⟩).elim
  | many head linked _ => exact (away head linked).elim

/-- The pop leaves the freed node in `head->prev`. -/
theorem Tidy.lone_pop (tidy : Tidy queue events) (lone : Lone queue) :
    ∃ next shown, step queue .pop = some (next, shown) ∧ ¬ ServesButReads next (events ++ shown) := by
  obtain ⟨addr, data, isPending, head, first⟩ := tidy.fresh_of_lone lone
  obtain ⟨memory, start⟩ := queue
  obtain rfl : start = some 0 := tidy.head
  have notHead : 0 ≠ addr := @tidy.positive _ _ (addr, data) (by simp [isPending])
  have notEmpty : some addr ≠ some 0 := by simpa using notHead.symm
  have pops := @queuePop_nonEmpty _ _ ⟨memory, some 0⟩ none _ rfl head first notHead
  simp only [ne_eq, notEmpty, not_false_eq_true, and_self, if_true] at pops
  refine ⟨_, [.popped data], by simp only [step, pops]; rfl, ?_⟩
  rintro ⟨serves, -⟩
  have empty := serves.empty
  have headAfter := (head.put_self ⟨some addr, some 0, none⟩).release notHead
  have isEmpty := @queueIsEmpty_eq _
    ⟨(memory.put 0 ⟨some addr, some 0, none⟩).release addr, some 0⟩ rfl headAfter
  rw [isEmpty, pending_snoc, isPending] at empty
  simp [serve, notEmpty] at empty

/-- But for reading the node it has freed, a queue serves its callers exactly as
long as it does not turn round on a single node. -/
theorem completes_servesButReads_iff_keepsDirection (calls : List Call) :
    machine.Completes ServesButReads calls ↔ machine.Guarded KeepsDirection calls := by
  have goesOn : ∀ queue events call, Tidy queue events → KeepsDirection queue call →
      ∃ next shown, step queue call = some (next, shown) ∧ Tidy next (events ++ shown) := by
    intro queue events call tidy keeps
    cases call with
    | push data =>
        obtain ⟨next, steps, tidyNext, -⟩ := tidy.push keeps data
        exact ⟨next, _, steps, tidyNext⟩
    | pop =>
        cases isPending : pending events with
        | nil => exact ⟨queue, _, tidy.pop_nothing isPending⟩
        | cons item rest =>
            obtain ⟨next, steps, tidyNext, -⟩ := tidy.pop isPending keeps
            exact ⟨next, _, steps, tidyNext⟩
  apply @Machine.completes_iff_guarded _ _ _ machine Tidy
  · exact ⟨tidy_create, tidy_create.servesButReads⟩
  · intro queue events call tidy _
    by_cases keeps : KeepsDirection queue call
    · obtain ⟨next, shown, steps, tidyNext⟩ := goesOn queue events call tidy keeps
      exact ⟨fun _ => keeps, fun _ => ⟨next, shown, steps, tidyNext.servesButReads⟩⟩
    · have breaks : ∃ next shown, step queue call = some (next, shown) ∧
          ¬ ServesButReads next (events ++ shown) := by
        cases call with
        | push data => exact tidy.turned_push (Classical.not_not.mp keeps) data
        | pop => exact tidy.lone_pop (Classical.not_not.mp keeps)
      obtain ⟨next, shown, steps, broken⟩ := breaks
      refine ⟨?_, fun meets => absurd meets keeps⟩
      rintro ⟨_, _, stepsOther, serves⟩
      obtain ⟨rfl, rfl⟩ := Prod.mk.inj (Option.some.inj (steps.symm.trans stepsOther))
      exact absurd serves broken
  · intro queue events call next shown tidy _ keeps steps
    obtain ⟨_, _, stepsTidy, tidyNext⟩ := goesOn queue events call tidy keeps
    obtain ⟨rfl, rfl⟩ := Prod.mk.inj (Option.some.inj (steps.symm.trans stepsTidy))
    exact tidyNext

/-- A node goes in and comes out again. -/
theorem pushThenPop_not_fifo : ¬ machine.Completes Fifo [.push (some 7), .pop] := by
  rintro ⟨-, always⟩
  have exec := machine.exec_of_isSome [.push (some 7), .pop] rfl
  have untouched := (always.last exec).2
  exact absurd untouched (by decide)

end SimpleBasicComponents.LinkedQueue
