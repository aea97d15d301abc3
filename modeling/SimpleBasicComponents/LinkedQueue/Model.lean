import Mathlib.Data.List.Nodup
import SimpleBasicComponents.Semantics.Heap
import SimpleBasicComponents.Semantics.History
import SimpleBasicComponents.Semantics.Machine

/-!
The linked queue of `util/queue.{h,c}`.

Owns: the nodes with their links, `queue_create`, `queue_is_empty`,
`queue_push`, `queue_first`, `queue_pop` as the source computes them, and a
machine whose labels are the calls. Every allocation succeeds.

The memory remembers: a node that was freed keeps what it held, and an access to
it is noted down instead of refused, so that what the code does with the links
can be followed beyond the first such access. A null pointer is a fault.
-/

namespace SimpleBasicComponents.LinkedQueue

open SimpleBasicComponents.Semantics

abbrev Ptr := Option Addr

structure Node where
  prev : Ptr
  next : Ptr
  data : Ptr
deriving DecidableEq, Repr

/-- `freed` holds the arguments of `free` in order, `touched` the nodes that
were read or written after they had been freed. -/
structure Memory where
  nodes : List Node
  freed : List Addr
  touched : List Addr
deriving DecidableEq, Repr

namespace Memory

/-- The address of the new node is the number of nodes there were. -/
def alloc (memory : Memory) (node : Node) : Memory :=
  { memory with nodes := memory.nodes ++ [node] }

def touch (memory : Memory) (addr : Addr) : Memory :=
  if addr ∈ memory.freed then { memory with touched := memory.touched ++ [addr] } else memory

def load (memory : Memory) : Ptr → Option (Memory × Node)
  | none => none
  | some addr =>
      match memory.nodes[addr]? with
      | some node => some (memory.touch addr, node)
      | none => none

/-- Write one field of a node. -/
def update (memory : Memory) (change : Node → Node) : Ptr → Option Memory
  | none => none
  | some addr =>
      match memory.nodes[addr]? with
      | some node =>
          some { memory.touch addr with nodes := memory.nodes.set addr (change node) }
      | none => none

def setPrev (memory : Memory) (ptr target : Ptr) : Option Memory :=
  memory.update (fun node => { node with prev := target }) ptr

def setNext (memory : Memory) (ptr target : Ptr) : Option Memory :=
  memory.update (fun node => { node with next := target }) ptr

def free (memory : Memory) : Ptr → Memory
  | none => memory
  | some addr => { memory with freed := memory.freed ++ [addr] }

end Memory

/-- `struct queue`, with the memory its nodes are in. -/
structure Queue where
  memory : Memory
  head : Ptr
deriving DecidableEq, Repr

def queueCreate : Queue :=
  ⟨⟨[⟨some 0, some 0, none⟩], [], []⟩, some 0⟩

def queueIsEmpty (queue : Queue) : Option (Memory × Bool) := do
  let (memory, head) ← queue.memory.load queue.head
  some (memory, head.prev = head.next && head.next = queue.head)

/-- The branch of `queue_push` for an empty queue. -/
def linkOnly (memory : Memory) (head node : Ptr) : Option Memory := do
  let memory ← memory.setPrev head node
  let memory ← memory.setNext head node
  let memory ← memory.setPrev node head
  memory.setNext node head

/-- What `queue_push` does after the branch, which has no `else`: it runs for the
first node too. -/
def linkNext (memory : Memory) (head node : Ptr) : Option Memory := do
  let memory ← memory.setPrev node head
  let (memory, first) ← memory.load head
  let memory ← memory.setNext node first.next
  let memory ← memory.setPrev first.next node
  memory.setNext head node

def queuePush (queue : Queue) (data : Ptr) : Option Queue := do
  let node := some queue.memory.nodes.length
  let memory := queue.memory.alloc ⟨none, none, data⟩
  let (memory, isEmpty) ← queueIsEmpty ⟨memory, queue.head⟩
  let memory ← (if isEmpty then linkOnly memory queue.head node else some memory)
  let memory ← linkNext memory queue.head node
  some ⟨memory, queue.head⟩

/-- The queue and the data returned. -/
def queuePop (queue : Queue) : Option (Queue × Ptr) := do
  let (memory, isEmpty) ← queueIsEmpty queue
  if isEmpty then some (⟨memory, queue.head⟩, none)
  else do
    let head := queue.head
    let (memory, first) ← memory.load head
    let node := first.prev
    let (memory, old) ← memory.load node
    let memory ← memory.setPrev head old.prev
    let (memory, first) ← memory.load head
    let memory ←
      (if first.prev = first.next && first.next ≠ head then memory.setNext head head
      else some memory)
    let memory := memory.free node
    -- `return _node->data`, after `free(_node)`.
    let (memory, gone) ← memory.load node
    some (⟨memory, head⟩, gone.data)

def queueFirst (queue : Queue) : Option (Memory × Ptr) := do
  let (memory, isEmpty) ← queueIsEmpty queue
  if isEmpty then some (memory, none)
  else do
    let (memory, first) ← memory.load queue.head
    let (memory, node) ← memory.load first.prev
    some (memory, node.data)

/-! ### Calls -/

inductive Call where
  | push (data : Ptr)
  | pop
deriving DecidableEq, Repr

inductive Event where
  | pushed (addr : Addr) (data : Ptr)
  | popped (answer : Ptr)
deriving DecidableEq, Repr

def step (queue : Queue) : Call → Option (Queue × List Event)
  | .push data =>
      match queuePush queue data with
      | some next => some (next, [.pushed queue.memory.nodes.length data])
      | none => none
  | .pop =>
      match queuePop queue with
      | some (next, answer) => some (next, [.popped answer])
      | none => none

def machine : Machine Queue Call Event where
  start := queueCreate
  step := step

end SimpleBasicComponents.LinkedQueue
