import SimpleBasicComponents.LinkedQueue.Fifo
import SimpleBasicComponents.Semantics.Loop

/-!
The end of a linked queue.

Owns: the loop of `queue_destroy` and when it frees what was pushed. The first
push links its node to itself, so a queue of that node alone never looks empty
again: the loop frees the node over and over. Any other queue is taken down
node by node.
-/

namespace SimpleBasicComponents.LinkedQueue

open SimpleBasicComponents.Semantics
open Memory

/-- One turn of `while (!queue_is_empty(*queue))`. -/
def destroyTurn (queue : Queue) : Turn Queue Memory :=
  .orFault do
    let (memory, isEmpty) ← queueIsEmpty queue
    if isEmpty then some (.leave memory)
    else do
      let (next, _) ← queuePop ⟨memory, queue.head⟩
      some (.again next)

/-- The memory `queue_destroy` leaves, if its loop ends before the fuel does. The
`struct queue` that is freed after the loop is no node of it. -/
def queueDestroy (fuel : Nat) (queue : Queue) : Option Memory := loop destroyTurn fuel queue

/-- The loop ends after as many pops as nodes were pushed, and each of them has
been freed once. -/
def DestroysAll (queue : Queue) (pushed : List Addr) : Prop :=
  (∀ fuel, (queueDestroy fuel queue).isSome ↔ pushed.length < fuel) ∧
    ∀ fuel memory, queueDestroy fuel queue = some memory → memory.freed.Perm pushed ∧ memory.freed.Nodup

variable {queue next : Queue} {memory : Memory} {events : List Event} {addr : Addr} {node : Node}
  {ptr : Ptr}

/-! ### A lone node -/

/-- What `Lone` says about the nodes, freed or not: `head->prev` leads to a node
that leads to itself. -/
structure Caught (memory : Memory) (head addr : Addr) : Prop where
  notHead : addr ≠ head
  atHead : ∃ first, memory.nodes[head]? = some first ∧ first.prev = some addr
  atAddr : ∃ node, memory.nodes[addr]? = some node ∧ node.prev = some addr

@[simp] theorem Memory.touch_nodes (memory : Memory) (addr : Addr) :
    (memory.touch addr).nodes = memory.nodes := by
  unfold Memory.touch
  split <;> rfl

theorem Memory.load_found (found : memory.nodes[addr]? = some node) :
    memory.load (some addr) = some (memory.touch addr, node) := by
  simp only [Memory.load, found]

theorem Memory.found_of_load {after : Memory} (loads : memory.load ptr = some (after, node)) :
    ∃ addr, ptr = some addr ∧ memory.nodes[addr]? = some node ∧ after = memory.touch addr := by
  cases ptr with
  | none => contradiction
  | some addr =>
      simp only [Memory.load] at loads
      split at loads
      · rename_i found isFound
        obtain ⟨rfl, rfl⟩ := Prod.mk.inj (Option.some.inj loads)
        exact ⟨addr, rfl, isFound, rfl⟩
      · contradiction

theorem Caught.touch {head : Addr} (caught : Caught memory head addr) (place : Addr) :
    Caught (memory.touch place) head addr := by
  refine ⟨caught.notHead, ?_, ?_⟩
  · rw [touch_nodes]
    exact caught.atHead
  · rw [touch_nodes]
    exact caught.atAddr

theorem Caught.load_head {head : Addr} (caught : Caught memory head addr) :
    ∃ after first, memory.load (some head) = some (after, first) ∧ first.prev = some addr ∧
      Caught after head addr := by
  obtain ⟨first, atHead, isAddr⟩ := caught.atHead
  exact ⟨_, first, load_found atHead, isAddr, caught.touch head⟩

theorem Caught.load_addr {head : Addr} (caught : Caught memory head addr) :
    ∃ after node, memory.load (some addr) = some (after, node) ∧ node.prev = some addr ∧
      Caught after head addr := by
  obtain ⟨node, atAddr, isSelf⟩ := caught.atAddr
  exact ⟨_, node, load_found atAddr, isSelf, caught.touch addr⟩

theorem Caught.update_head {head : Addr} (caught : Caught memory head addr) {change : Node → Node}
    (keeps : ∀ first, first.prev = some addr → (change first).prev = some addr) :
    ∃ after, memory.update change (some head) = some after ∧ Caught after head addr := by
  obtain ⟨first, atHead, isAddr⟩ := caught.atHead
  obtain ⟨node, atAddr, isSelf⟩ := caught.atAddr
  have below := (List.getElem?_eq_some_iff.mp atHead).1
  refine ⟨{ memory.touch head with nodes := memory.nodes.set head (change first) }, ?_,
    caught.notHead, ⟨change first, ?_, keeps first isAddr⟩, ⟨node, ?_, isSelf⟩⟩
  · simp only [update, atHead]
  · exact List.getElem?_set_self below
  · rw [List.getElem?_set_ne caught.notHead.symm]
    exact atAddr

theorem Caught.free {head : Addr} (caught : Caught memory head addr) (ptr : Ptr) :
    Caught (memory.free ptr) head addr := by
  cases ptr with
  | none => exact caught
  | some place => exact ⟨caught.notHead, caught.atHead, caught.atAddr⟩

theorem lone_iff_caught : Lone queue ↔ ∃ head addr, queue.head = some head ∧ Caught queue.memory head addr := by
  constructor
  · rintro ⟨memory, first, after, node, loads, notHead, loadsNode, isSelf⟩
    obtain ⟨head, isHead, atHead, rfl⟩ := found_of_load loads
    obtain ⟨addr, isAddr, atAddr, -⟩ := found_of_load loadsNode
    rw [touch_nodes] at atAddr
    rw [isAddr, isHead] at notHead
    exact ⟨head, addr, isHead, fun same => notHead (congrArg some same), ⟨first, atHead, isAddr⟩,
      ⟨node, atAddr, isSelf.trans isAddr⟩⟩
  · rintro ⟨head, addr, isHead, caught⟩
    obtain ⟨memory, first, loads, isAddr, caughtNext⟩ := caught.load_head
    obtain ⟨after, node, loadsNode, isSelf, -⟩ := caughtNext.load_addr
    rw [Lone, isHead]
    refine ⟨memory, first, after, node, loads, ?_, ?_, isSelf.trans isAddr.symm⟩
    · rw [isAddr]
      exact fun same => caught.notHead (Option.some.inj same)
    · rw [isAddr]
      exact loadsNode

theorem Caught.queueIsEmpty {head : Addr} (caught : Caught memory head addr) :
    ∃ after, queueIsEmpty ⟨memory, some head⟩ = some (after, false) ∧ Caught after head addr := by
  obtain ⟨after, first, loads, isAddr, caughtAfter⟩ := caught.load_head
  have notEmpty : (decide (first.prev = first.next) && decide (first.next = some head)) = false := by
    rw [Bool.eq_false_iff, isAddr]
    simp only [ne_eq, Bool.and_eq_true, decide_eq_true_eq, not_and]
    rintro same isHead
    exact caught.notHead (Option.some.inj (same.trans isHead))
  refine ⟨after, ?_, caughtAfter⟩
  simp only [LinkedQueue.queueIsEmpty, loads, Option.bind_eq_bind, Option.bind_some, notEmpty]

/-- The pop finds the node where it was, and leaves it there. -/
theorem Caught.queuePop {head : Addr} (caught : Caught memory head addr) :
    ∃ after answer, queuePop ⟨memory, some head⟩ = some (⟨after, some head⟩, answer) ∧
      Caught after head addr := by
  obtain ⟨tested, isEmpty, caught⟩ := caught.queueIsEmpty
  obtain ⟨second, first, loadsFirst, isAddr, caught⟩ := caught.load_head
  obtain ⟨third, node, loadsNode, isSelf, caught⟩ := caught.load_addr
  obtain ⟨fourth, setsPrev, caught⟩ := @Caught.update_head _ _ _ caught
    (fun first => { first with prev := node.prev }) fun _ _ => isSelf
  obtain ⟨fifth, again, loadsAgain, -, caught⟩ := caught.load_head
  have back : ∃ sixth, (if again.prev = again.next && again.next ≠ some head
      then fifth.setNext (some head) (some head) else some fifth) = some sixth ∧ Caught sixth head addr := by
    split
    · exact caught.update_head fun _ isAddr => isAddr
    · exact ⟨fifth, rfl, caught⟩
  obtain ⟨sixth, setsNext, caught⟩ := back
  obtain ⟨last, gone, loadsGone, -, caught⟩ := (caught.free (some addr)).load_addr
  refine ⟨last, gone.data, ?_, caught⟩
  simp only [LinkedQueue.queuePop, isEmpty, Option.bind_eq_bind, Option.bind_some, Bool.false_eq_true,
    if_false, loadsFirst, isAddr, loadsNode, Memory.setPrev, setsPrev, loadsAgain, setsNext, loadsGone]

theorem Lone.destroyTurn (lone : Lone queue) : ∃ next, destroyTurn queue = .again next ∧ Lone next := by
  obtain ⟨head, addr, isHead, caught⟩ := lone_iff_caught.mp lone
  obtain ⟨memory, start⟩ := queue
  obtain rfl : start = some head := isHead
  obtain ⟨tested, isEmpty, caught⟩ := caught.queueIsEmpty
  obtain ⟨after, answer, pops, caught⟩ := caught.queuePop
  refine ⟨⟨after, some head⟩, ?_, lone_iff_caught.mpr ⟨head, addr, rfl, caught⟩⟩
  simp only [LinkedQueue.destroyTurn, isEmpty, pops, Option.bind_eq_bind, Option.bind_some,
    Bool.false_eq_true, if_false, Turn.orFault]

/-- A queue of a lone node is never taken down. -/
theorem Lone.queueDestroy (lone : Lone queue) (fuel : Nat) : queueDestroy fuel queue = none :=
  loop_eq_none_of_invariant (fun _ lone => .inr lone.destroyTurn) lone

/-! ### Any other queue -/

theorem Tidy.destroyTurn_nothing (tidy : Tidy queue events) (isEmpty : pending events = []) :
    destroyTurn queue = .leave queue.memory := by
  simp only [destroyTurn, tidy.isEmpty, isEmpty, Option.bind_eq_bind, Option.bind_some,
    List.isEmpty_nil, if_true, Turn.orFault]

theorem Tidy.destroyTurn_pop (tidy : Tidy queue events) {item : Addr × Ptr} {rest : List (Addr × Ptr)}
    (isPending : pending events = item :: rest) (notLone : ¬ Lone queue) :
    ∃ next, destroyTurn queue = .again next ∧ Tidy next (events ++ [.popped item.2]) ∧ ¬ Lone next := by
  obtain ⟨next, steps, tidyNext, notLoneNext⟩ := tidy.pop isPending notLone
  have pops : queuePop queue = some (next, item.2) := by
    simp only [step] at steps
    split at steps
    · rename_i found answer pops
      rw [pops]
      simp only [Option.some.injEq, Prod.mk.injEq, List.cons.injEq, Event.popped.injEq, and_true] at steps
      rw [steps.1, steps.2]
    · contradiction
  refine ⟨next, ?_, tidyNext, notLoneNext⟩
  simp only [destroyTurn, tidy.isEmpty, isPending, Option.bind_eq_bind, Option.bind_some,
    List.isEmpty_cons, Bool.false_eq_true, if_false, pops, Turn.orFault]

/-- The induction is on the nodes that wait: each turn takes one of them. -/
theorem Tidy.queueDestroy (tidy : Tidy queue events) (notLone : ¬ Lone queue) :
    ∃ memory, memory.freed = pushedNodes events ∧
      ∀ fuel, queueDestroy fuel queue = if (pending events).length < fuel then some memory else none := by
  generalize isPending : pending events = waiting
  induction waiting generalizing queue events with
  | nil =>
      have freed := tidy.freed
      rw [isPending, List.map_nil, List.append_nil] at freed
      refine ⟨queue.memory, freed, fun fuel => ?_⟩
      cases fuel with
      | zero => rfl
      | succ fuel =>
          rw [List.length_nil, if_pos (Nat.succ_pos fuel)]
          exact loop_leave (tidy.destroyTurn_nothing isPending)
  | cons item rest inductionHypothesis =>
      obtain ⟨next, goesOn, tidyNext, notLoneNext⟩ := tidy.destroyTurn_pop isPending notLone
      have shorter : pending (events ++ [.popped item.2]) = rest := by
        rw [pending_snoc, isPending]
        rfl
      obtain ⟨memory, freed, destroys⟩ := inductionHypothesis tidyNext notLoneNext shorter
      rw [pushedNodes_popped] at freed
      refine ⟨memory, freed, fun fuel => ?_⟩
      cases fuel with
      | zero => rfl
      | succ fuel =>
          have rests := destroys fuel
          unfold LinkedQueue.queueDestroy at rests ⊢
          rw [loop_again goesOn, rests, List.length_cons]
          simp only [Nat.add_lt_add_iff_right]

/-- A queue that has seen no pop is taken down exactly if it is not of a lone node. -/
theorem Tidy.destroysAll_iff (tidy : Tidy queue events) (unfreed : queue.memory.freed = []) :
    DestroysAll queue (pushedNodes events) ↔ ¬ Lone queue := by
  have waits : (pushedNodes events).length = (pending events).length := by
    rw [← tidy.freed, unfreed, List.nil_append, List.length_map]
  constructor
  · rintro ⟨ends, -⟩ lone
    have leaves := (ends _).mpr (Nat.lt_succ_self _)
    rw [lone.queueDestroy] at leaves
    contradiction
  · intro notLone
    obtain ⟨memory, freed, destroys⟩ := tidy.queueDestroy notLone
    refine ⟨fun fuel => ?_, fun fuel last leaves => ?_⟩
    · rw [destroys, waits]
      split <;> simp_all
    · rw [destroys] at leaves
      split at leaves
      · obtain rfl := Option.some.inj leaves
        rw [freed, tidy.addrs]
        exact ⟨.refl _, List.nodup_range'⟩
      · contradiction

/-! ### Pushes alone -/

theorem exec_pushes (datas : List Ptr) : ∃ queue events,
    machine.Exec (datas.map .push) queue events ∧ Tidy queue events ∧ queue.memory.freed = [] ∧
      (pushedNodes events).length = datas.length := by
  induction datas using List.reverseRecOn with
  | nil => exact ⟨_, _, .start, tidy_create, rfl, rfl⟩
  | append_singleton datas data inductionHypothesis =>
      obtain ⟨queue, events, exec, tidy, unfreed, pushed⟩ := inductionHypothesis
      obtain ⟨next, steps, tidyNext, freed⟩ := tidy.push (tidy.straight unfreed) data
      refine ⟨next, _, ?_, tidyNext, freed.trans unfreed, ?_⟩
      · rw [List.map_append]
        exact exec.step steps
      · simp [pushed]

/-- Before any pop a lone node is one push. -/
theorem Tidy.lone_iff (tidy : Tidy queue events) (unfreed : queue.memory.freed = []) :
    Lone queue ↔ (pushedNodes events).length = 1 := by
  have waits := tidy.freed
  rw [unfreed, List.nil_append] at waits
  rw [← waits, List.length_map]
  constructor
  · intro lone
    obtain ⟨addr, data, isPending, -⟩ := tidy.fresh_of_lone lone
    rw [isPending]
    rfl
  · intro single
    obtain ⟨item, isPending⟩ := List.length_eq_one_iff.mp single
    have shape := tidy.shape
    have notHead := @tidy.positive _ _ item (by simp [isPending])
    rw [isPending] at shape
    obtain ⟨memory, head⟩ := queue
    obtain rfl : head = some 0 := tidy.head
    cases shape with
    | fresh head node =>
        exact ⟨_, _, _, _, head.load, fun same => notHead (Option.some.inj same).symm, node.load, rfl⟩
    | left _ _ popped => exact absurd unfreed popped

/-- After any number of pushes `queue_destroy` frees each node once, and ends,
exactly if the number is not one. -/
theorem destroysAll_pushes_iff (datas : List Ptr) : ∃ queue events,
    machine.Exec (datas.map .push) queue events ∧ (pushedNodes events).length = datas.length ∧
      (DestroysAll queue (pushedNodes events) ↔ datas.length ≠ 1) := by
  obtain ⟨queue, events, exec, tidy, unfreed, pushed⟩ := exec_pushes datas
  refine ⟨queue, events, exec, pushed, ?_⟩
  rw [tidy.destroysAll_iff unfreed, tidy.lone_iff unfreed, pushed]

/-- Two nodes are freed by two pops. -/
example : ((queueDestroy 3 ((machine.run [.push none, .push none]).get rfl).1).map Memory.freed) =
    some [1, 2] := by
  decide

/-- The one node of a queue is freed twice by the first two turns. -/
theorem onePush_not_destroysAll :
    ¬ DestroysAll ((machine.run [.push none]).get rfl).1
      (pushedNodes ((machine.run [.push none]).get rfl).2) := by
  rintro ⟨ends, -⟩
  have leaves := (ends 2).mpr (by decide)
  exact absurd leaves (by decide)

end SimpleBasicComponents.LinkedQueue
