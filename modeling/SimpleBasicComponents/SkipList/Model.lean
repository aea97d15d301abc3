import Mathlib.Algebra.Group.Int.Defs
import Mathlib.Algebra.Group.Nat.Defs
import SimpleBasicComponents.Semantics.Heap
import SimpleBasicComponents.Semantics.Loop
import SimpleBasicComponents.Semantics.Machine

/-!
The skip list of `util/skiplist.{h,c}`.

Owns: the nodes on the heap, `random_leve`, `skplist_create` and
`skplist_insert` as the source computes them, and a machine whose labels are
the insertions. A node has as many `level` slots as were allocated with it; a
slot beyond them cannot be read or written.
-/

namespace SimpleBasicComponents.SkipList

open SimpleBasicComponents.Semantics

/-- A slot of `level` is the `next` pointer on that level. -/
structure SkpNode where
  timestamp : UInt64
  func : Nat
  level : List (Option Addr)
deriving DecidableEq, Repr

structure Skplist where
  head : Addr
  length : Int
  level : Nat
deriving DecidableEq, Repr

def skiplistLevelMax : Nat := 32

namespace Skplist

/-- `list->length += 1`. The source has no meaning where the `int` is the greatest one. -/
def increment (list : Skplist) : Option Skplist :=
  if list.length < 2 ^ 31 - 1 then some { list with length := list.length + 1 } else none

/-- `list->length -= 1`. -/
def decrement (list : Skplist) : Option Skplist :=
  if -2 ^ 31 < list.length then some { list with length := list.length - 1 } else none

theorem increment_eq_some (list : Skplist) (room : list.length < 2 ^ 31 - 1) :
    list.increment = some { list with length := list.length + 1 } := if_pos room

theorem decrement_eq_some (list : Skplist) (room : -2 ^ 31 < list.length) :
    list.decrement = some { list with length := list.length - 1 } := if_pos room

theorem increment_spec {list next : Skplist} (counts : list.increment = some next) :
    list.length < 2 ^ 31 - 1 ∧ next = { list with length := list.length + 1 } := by
  unfold increment at counts
  split at counts
  · rename_i room
    exact ⟨room, (Option.some.inj counts).symm⟩
  · contradiction

theorem decrement_spec {list next : Skplist} (counts : list.decrement = some next) :
    next = { list with length := list.length - 1 } := by
  unfold decrement at counts
  split at counts
  · exact (Option.some.inj counts).symm
  · contradiction

end Skplist

/-- `calloc` clears the slots. -/
def skpnodeCreate (heap : Heap SkpNode) (ts : UInt64) (func : Nat) (level : Nat) :
    Heap SkpNode × Addr :=
  (heap.alloc ⟨ts, func, List.replicate level none⟩, heap.length)

def defaultFunc : Nat := 0

def skplistCreate (heap : Heap SkpNode) : Heap SkpNode × Skplist :=
  let (heap, head) := skpnodeCreate heap 0 defaultFunc skiplistLevelMax
  (heap, { head, length := 0, level := 0 })

/-- `(rand() & 0xFFFF) < SKIPLIST_P * 0xFFFF` with `SKIPLIST_P` a quarter. -/
def goesUp (rand : Nat) : Bool := 4 * (rand &&& 0xFFFF) < 0xFFFF

/-- `rands` are the values `rand()` returns during the call. -/
def randomLeve (rands : List Nat) : Nat :=
  let level := 1 + (rands.takeWhile goesUp).length
  if level < skiplistLevelMax then level else skiplistLevelMax

/-- `addr->level[i].next`, if there is such a slot. -/
def nextAt (heap : Heap SkpNode) (i : Nat) (addr : Addr) : Option (Option Addr) :=
  match heap.load addr with
  | some node => node.level[i]?
  | none => none

/-- `addr->level[i].next = next`, if there is such a slot. -/
def setNext (heap : Heap SkpNode) (i : Nat) (addr : Addr) (next : Option Addr) :
    Option (Heap SkpNode) :=
  match heap.load addr with
  | some node =>
      if i < node.level.length then heap.store addr { node with level := node.level.set i next }
      else none
  | none => none

/-- One turn of the inner loop; the state is `cur`. -/
def walkTurn (heap : Heap SkpNode) (ts : UInt64) (i : Nat) (cur : Addr) : Turn Addr Addr :=
  match nextAt heap i cur with
  | none => .fault
  | some none => .leave cur
  | some (some next) =>
      match heap.load next with
      | none => .fault
      | some node => if node.timestamp < ts then .again next else .leave cur

def walk (fuel : Nat) (heap : Heap SkpNode) (ts : UInt64) (i : Nat) (cur : Addr) : Option Addr :=
  loop (walkTurn heap ts i) fuel cur

/-- Put `node` behind `cur` on level `i`. -/
def linkBehind (heap : Heap SkpNode) (node : Addr) (i : Nat) (cur : Addr) :
    Option (Heap SkpNode) :=
  match nextAt heap i cur with
  | none => none
  | some next =>
      match setNext heap i node next with
      | none => none
      | some heap => setNext heap i cur (some node)

/-- The loop of `skplist_insert` over the levels below `i + 1`, downwards. -/
def insertLevels (fuel : Nat) (node : Addr) (ts : UInt64) (level : Nat) :
    Nat → Heap SkpNode → Addr → Option (Heap SkpNode)
  | 0, heap, _ => some heap
  | i + 1, heap, cur =>
      match walk fuel heap ts i cur with
      | none => none
      | some cur =>
          if i < level then
            match linkBehind heap node i cur with
            | none => none
            | some heap => insertLevels fuel node ts level i heap cur
          else insertLevels fuel node ts level i heap cur

/-- The list and the return value. `memory` is whether `calloc` succeeds. -/
def skplistInsert (fuel : Nat) (heap : Heap SkpNode) (list : Skplist) (ts : UInt64) (func : Nat)
    (rands : List Nat) (memory : Bool) : Option (Heap SkpNode × Skplist × Int) :=
  let level := randomLeve rands
  let list := { list with level := if level > list.level then level else list.level }
  if memory then
    let (heap, node) := skpnodeCreate heap ts func level
    match insertLevels fuel node ts level list.level heap list.head with
    | some heap => list.increment.map fun list => (heap, list, 0)
    | none => none
  else some (heap, list, -1)

/-- What an insertion that returns makes of `list`. -/
theorem skplistInsert_list {fuel : Nat} {heap next : Heap SkpNode} {list after : Skplist} {ts : UInt64}
    {func : Nat} {rands : List Nat} {memory : Bool} {result : Int}
    (inserts : skplistInsert fuel heap list ts func rands memory = some (next, after, result)) :
    after.level = max list.level (randomLeve rands) ∧
      if memory then list.length < 2 ^ 31 - 1 ∧ after.length = list.length + 1
      else after.length = list.length := by
  have isMax : (if randomLeve rands > list.level then randomLeve rands else list.level) =
      max list.level (randomLeve rands) := by
    split <;> omega
  simp only [skplistInsert, isMax] at inserts
  cases memory with
  | false =>
      simp only [Bool.false_eq_true, if_false, Option.some.injEq, Prod.mk.injEq] at inserts
      rw [← inserts.2.1]
      exact ⟨rfl, rfl⟩
  | true =>
      simp only [if_true] at inserts
      split at inserts
      · obtain ⟨counted, counts, same⟩ := Option.map_eq_some_iff.mp inserts
        obtain ⟨room, isCounted⟩ := Skplist.increment_spec counts
        rw [← (Prod.mk.inj (Prod.mk.inj same).2).1, isCounted]
        exact ⟨rfl, room, rfl⟩
      · contradiction

/-! ### Insertions -/

structure Insertion where
  ts : UInt64
  func : Nat
  rands : List Nat
  memory : Bool
deriving DecidableEq, Repr

/-- A node that was inserted. -/
structure Inserted where
  addr : Addr
  timestamp : UInt64
  height : Nat
deriving DecidableEq, Repr

structure Memory where
  heap : Heap SkpNode
  list : Skplist
deriving DecidableEq, Repr

def step (fuel : Nat) (memory : Memory) (insertion : Insertion) :
    Option (Memory × List Inserted) :=
  match skplistInsert fuel memory.heap memory.list insertion.ts insertion.func insertion.rands
      insertion.memory with
  | some (heap, list, result) =>
      some (⟨heap, list⟩,
        if result = 0 then [⟨memory.heap.length, insertion.ts, randomLeve insertion.rands⟩] else [])
  | none => none

def machine (fuel : Nat) : Machine Memory Insertion Inserted where
  start := ⟨(skplistCreate []).1, (skplistCreate []).2⟩
  step := step fuel

theorem step_list {fuel : Nat} {memory next : Memory} {insertion : Insertion} {shown : List Inserted}
    (taken : step fuel memory insertion = some (next, shown)) :
    next.list.level = max memory.list.level (randomLeve insertion.rands) ∧
      if insertion.memory then
        memory.list.length < 2 ^ 31 - 1 ∧ next.list.length = memory.list.length + 1
      else next.list.length = memory.list.length := by
  unfold step at taken
  split at taken
  · rename_i heap list result inserts
    have isList := skplistInsert_list inserts
    rw [← (Prod.mk.inj (Option.some.inj taken)).1]
    exact isList
  · contradiction

end SimpleBasicComponents.SkipList
