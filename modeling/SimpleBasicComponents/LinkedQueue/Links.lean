import Mathlib.Data.List.GetD
import SimpleBasicComponents.LinkedQueue.Model

/-!
What the calls on a linked queue do to the links.

Owns: one lemma for each branch of `queue_push` and `queue_pop` that a queue can
take, in terms of the nodes it finds. The source's first push links the new node
to itself, and a pop that leaves one node takes `head->next` back to the head.
-/

namespace SimpleBasicComponents.LinkedQueue

open SimpleBasicComponents.Semantics

variable {memory : Memory} {addr new : Addr} {node : Node} {queue : Queue} {data held : Ptr}

namespace Memory

/-- A node that is there and was not freed. -/
def Live (memory : Memory) (addr : Addr) (node : Node) : Prop :=
  memory.nodes[addr]? = some node ∧ addr ∉ memory.freed

theorem Live.lt (live : memory.Live addr node) : addr < memory.nodes.length :=
  (List.getElem?_eq_some_iff.mp live.1).1

theorem Live.load (live : memory.Live addr node) : memory.load (some addr) = some (memory, node) := by
  simp only [Memory.load, live.1, touch, if_neg live.2]

/-- A freed node is still there to be read, and the reading is noted down. -/
theorem load_freed (found : memory.nodes[addr]? = some node) (freed : addr ∈ memory.freed) :
    memory.load (some addr) =
      some ({ memory with touched := memory.touched ++ [addr] }, node) := by
  simp only [Memory.load, found, touch, if_pos freed]

/-- The memory with one node replaced. -/
def put (memory : Memory) (addr : Addr) (node : Node) : Memory :=
  { memory with nodes := memory.nodes.set addr node }

theorem Live.setPrev (live : memory.Live addr node) (target : Ptr) :
    memory.setPrev (some addr) target = some (memory.put addr { node with prev := target }) := by
  simp only [Memory.setPrev, update, live.1, touch, if_neg live.2, put]

theorem Live.setNext (live : memory.Live addr node) (target : Ptr) :
    memory.setNext (some addr) target = some (memory.put addr { node with next := target }) := by
  simp only [Memory.setNext, update, live.1, touch, if_neg live.2, put]

theorem Live.put_self (live : memory.Live addr node) (other : Node) :
    (memory.put addr other).Live addr other := by
  refine ⟨?_, live.2⟩
  unfold put
  rw [List.getElem?_set_self live.lt]

theorem Live.put_other {place : Addr} (live : memory.Live addr node) (different : place ≠ addr)
    (other : Node) : (memory.put place other).Live addr node := by
  refine ⟨?_, live.2⟩
  unfold put
  rw [List.getElem?_set_ne different]
  exact live.1

@[simp] theorem put_put (memory : Memory) (addr : Addr) (one two : Node) :
    (memory.put addr one).put addr two = memory.put addr two := by
  simp [put]

theorem Live.put_same (live : memory.Live addr node) : memory.put addr node = memory := by
  obtain ⟨below, same⟩ := List.getElem?_eq_some_iff.mp live.1
  unfold put
  rw [← same, List.set_getElem_self]

theorem put_comm (memory : Memory) {addr place : Addr} (different : addr ≠ place) (one two : Node) :
    (memory.put addr one).put place two = (memory.put place two).put addr one := by
  unfold put
  rw [List.set_comm _ _ different]

theorem Live.alloc (live : memory.Live addr node) (other : Node) : (memory.alloc other).Live addr node := by
  refine ⟨?_, live.2⟩
  unfold Memory.alloc
  rw [List.getElem?_append_left live.lt]
  exact live.1

theorem live_alloc (isNew : memory.nodes.length = new) (fresh : new ∉ memory.freed) (node : Node) :
    (memory.alloc node).Live new node := by
  subst isNew
  refine ⟨?_, fresh⟩
  unfold Memory.alloc
  rw [List.getElem?_append_right (Nat.le_refl _)]
  simp

end Memory

open Memory

theorem queueIsEmpty_eq (isHead : queue.head = some 0) (live : queue.memory.Live 0 node) :
    queueIsEmpty queue = some (queue.memory, node.prev = node.next && node.next = some 0) := by
  unfold queueIsEmpty
  rw [isHead, live.load]
  rfl

/-! ### Linking a node in -/

theorem linkOnly_eq (head : memory.Live 0 ⟨some 0, some 0, held⟩)
    (node : memory.Live new ⟨none, none, data⟩) (positive : 0 ≠ new) :
    linkOnly memory (some 0) (some new) =
      some ((memory.put 0 ⟨some new, some new, held⟩).put new ⟨some 0, some 0, data⟩) := by
  have first := head.put_self ⟨some new, some 0, held⟩
  have second := node.put_other positive ⟨some new, some new, held⟩
  have third := second.put_self ⟨some 0, none, data⟩
  simp only [linkOnly, Option.bind_eq_bind, head.setPrev, Option.bind_some, first.setNext, put_put,
    second.setPrev, third.setNext]

/-- The node that was last before gets the new one as its predecessor. -/
theorem linkNext_eq {last : Addr} {front : Ptr} {back : Node}
    (head : memory.Live 0 ⟨front, some last, held⟩) (latest : memory.Live last back)
    (node : memory.Live new ⟨none, none, data⟩) (positive : 0 ≠ new) (notHead : 0 ≠ last)
    (different : new ≠ last) :
    linkNext memory (some 0) (some new) =
      some (((memory.put new ⟨some 0, some last, data⟩).put last { back with prev := some new }).put 0
        ⟨front, some new, held⟩) := by
  have first := head.put_other positive.symm ⟨some 0, none, data⟩
  have second := node.put_self ⟨some 0, none, data⟩
  have third := latest.put_other different ⟨some 0, some last, data⟩
  have fourth := (head.put_other positive.symm ⟨some 0, some last, data⟩).put_other notHead.symm
    { back with prev := some new }
  simp only [linkNext, Option.bind_eq_bind, node.setPrev, Option.bind_some, first.load,
    second.setNext, put_put, third.setPrev, fourth.setNext]

/-- Where `head->next` is the node itself, `_node->next` is too, and the write
through it takes `_node->prev` off the head. -/
theorem linkNext_self {prev next front : Ptr} (head : memory.Live 0 ⟨front, some new, held⟩)
    (node : memory.Live new ⟨prev, next, data⟩) (positive : 0 ≠ new) :
    linkNext memory (some 0) (some new) =
      some ((memory.put new ⟨some new, some new, data⟩).put 0 ⟨front, some new, held⟩) := by
  have first := head.put_other positive.symm ⟨some 0, next, data⟩
  have second := node.put_self ⟨some 0, next, data⟩
  have third := node.put_self ⟨some 0, some new, data⟩
  have fourth := head.put_other positive.symm ⟨some new, some new, data⟩
  simp only [linkNext, Option.bind_eq_bind, node.setPrev, Option.bind_some, first.load,
    second.setNext, put_put, third.setPrev, fourth.setNext]

/-- Where `head->next` is the head, the write through it overwrites `head->prev`. -/
theorem linkNext_head {front : Ptr} (head : memory.Live 0 ⟨front, some 0, held⟩)
    (node : memory.Live new ⟨none, none, data⟩) (positive : 0 ≠ new) :
    linkNext memory (some 0) (some new) =
      some ((memory.put new ⟨some 0, some 0, data⟩).put 0 ⟨some new, some new, held⟩) := by
  have first := head.put_other positive.symm ⟨some 0, none, data⟩
  have second := node.put_self ⟨some 0, none, data⟩
  have third := head.put_other positive.symm ⟨some 0, some 0, data⟩
  have fourth := third.put_self ⟨some new, some 0, held⟩
  simp only [linkNext, Option.bind_eq_bind, node.setPrev, Option.bind_some, first.load,
    second.setNext, put_put, third.setPrev, fourth.setNext]

/-- The first push: the new node ends as its own successor and predecessor. -/
theorem queuePush_empty (isHead : queue.head = some 0)
    (live : queue.memory.Live 0 ⟨some 0, some 0, held⟩) (isNew : queue.memory.nodes.length = new)
    (fresh : new ∉ queue.memory.freed) :
    queuePush queue data =
      some ⟨((queue.memory.alloc ⟨none, none, data⟩).put 0 ⟨some new, some new, held⟩).put new
        ⟨some new, some new, data⟩, some 0⟩ := by
  have positive : 0 ≠ new := isNew ▸ Nat.ne_of_lt live.lt
  have head := live.alloc ⟨none, none, data⟩
  have node := live_alloc isNew fresh ⟨none, none, data⟩
  have isEmpty := @queueIsEmpty_eq _ ⟨queue.memory.alloc ⟨none, none, data⟩, some 0⟩ rfl head
  have headOnly := (head.put_self ⟨some new, some new, held⟩).put_other positive.symm
    ⟨some 0, some 0, data⟩
  have nodeOnly := (node.put_other positive ⟨some new, some new, held⟩).put_self ⟨some 0, some 0, data⟩
  simp only [queuePush, isHead, isNew, isEmpty, Option.bind_eq_bind, Option.bind_some, decide_true,
    Bool.and_self, if_true, linkOnly_eq head node positive, linkNext_self headOnly nodeOnly positive,
    put_put]
  rw [put_comm _ positive.symm, put_put]

/-- Any later push has the head and the node behind it to change. -/
theorem queuePush_nonEmpty (isHead : queue.head = some 0) (live : queue.memory.Live 0 node)
    (nonEmpty : ¬ (node.prev = node.next ∧ node.next = some 0))
    (isNew : queue.memory.nodes.length = new) :
    queuePush queue data =
      (linkNext (queue.memory.alloc ⟨none, none, data⟩) (some 0) (some new)).map (⟨·, some 0⟩) := by
  have head := live.alloc ⟨none, none, data⟩
  have isEmpty := @queueIsEmpty_eq _ ⟨queue.memory.alloc ⟨none, none, data⟩, some 0⟩ rfl head
  have notEmpty : (decide (node.prev = node.next) && decide (node.next = some 0)) = false := by
    rw [Bool.eq_false_iff]
    simpa using nonEmpty
  simp only [queuePush, isHead, isNew, isEmpty, notEmpty, Option.bind_eq_bind, Option.bind_some,
    Bool.false_eq_true, if_false]
  cases linkNext (queue.memory.alloc ⟨none, none, data⟩) (some 0) (some new) <;> rfl

/-! ### Taking a node out -/

/-- `free(_node)` and the read of `_node->data` after it. -/
def Memory.release (memory : Memory) (addr : Addr) : Memory :=
  { memory with freed := memory.freed ++ [addr], touched := memory.touched ++ [addr] }

theorem Memory.Live.load_free (live : memory.Live addr node) :
    (memory.free (some addr)).load (some addr) = some (memory.release addr, node) := by
  have found : (memory.free (some addr)).nodes[addr]? = some node := live.1
  rw [load_freed found (by simp [Memory.free])]
  rfl

/-- The test on what is left, and what it does to `head->next`. -/
private theorem setNext_back {prev next : Ptr} (head : memory.Live 0 ⟨prev, next, held⟩) :
    (if prev = next && next ≠ some 0 then memory.setNext (some 0) (some 0) else some memory) =
      some (memory.put 0 ⟨prev, if prev = next ∧ next ≠ some 0 then some 0 else next, held⟩) := by
  by_cases back : prev = next ∧ next ≠ some 0
  · rw [if_pos (by simpa using back), if_pos back, head.setNext]
  · rw [if_neg (by simpa using back), if_neg back]
    rw [head.put_same]

theorem queuePop_empty (isHead : queue.head = some 0)
    (live : queue.memory.Live 0 ⟨some 0, some 0, held⟩) : queuePop queue = some (queue, none) := by
  have isEmpty := queueIsEmpty_eq isHead live
  simp only [queuePop, isEmpty, Option.bind_eq_bind, Option.bind_some, decide_true, Bool.and_self,
    if_true]

theorem queuePop_nonEmpty {next : Ptr} (isHead : queue.head = some 0)
    (head : queue.memory.Live 0 ⟨some addr, next, held⟩) (first : queue.memory.Live addr node)
    (notHead : 0 ≠ addr) :
    queuePop queue =
      some (⟨(queue.memory.put 0
        ⟨node.prev, if node.prev = next ∧ next ≠ some 0 then some 0 else next, held⟩).release addr,
          some 0⟩, node.data) := by
  have isEmpty := queueIsEmpty_eq isHead head
  have notEmpty : (decide (some addr = next) && decide (next = some 0)) = false := by
    rw [Bool.eq_false_iff]
    simp only [ne_eq, Bool.and_eq_true, decide_eq_true_eq, not_and]
    rintro rfl same
    exact notHead (Option.some.inj same).symm
  have shorter := head.put_self ⟨node.prev, next, held⟩
  have behind := first.put_other notHead
    ⟨node.prev, if node.prev = next ∧ next ≠ some 0 then some 0 else next, held⟩
  simp only [queuePop, isEmpty, notEmpty, Option.bind_eq_bind, Option.bind_some, Bool.false_eq_true,
    if_false, isHead, head.load, first.load, head.setPrev, shorter.load, setNext_back shorter,
    put_put, behind.load_free]

end SimpleBasicComponents.LinkedQueue
