import SimpleBasicComponents.Semantics.Heap
import SimpleBasicComponents.Semantics.Loop
import SimpleBasicComponents.Semantics.Machine

/-!
The block list of `src/util/blk_list.c`.

Owns: `blk_list_create`, `blk_list_add_block` and `blk_list_find` as the source
computes them, and a machine whose labels are the keys looked up.

Whether the n-th `malloc` finds memory is a parameter. Of an array only the size is
kept; what is in it is the caller's. No product of an item size, a `uint16_t`, and a
key in a block leaves the `int`s. `valid_nums` is written once and never read, and
the list is never destroyed here.
-/

namespace SimpleBasicComponents.BlockList

open SimpleBasicComponents.Semantics

def blkArraySizeMax : Nat := 1024
def rightMove : Nat := 10

structure Block where
  next : Option Addr
  shutdown : Bool
  array : Option Addr
deriving DecidableEq, Repr

structure BlkList where
  head : Option Addr
  tail : Option Addr
  /-- A `uint16_t`. -/
  blkNums : Nat
  blkArrayItemSize : Nat
deriving DecidableEq, Repr

/-- The list and the memory it refers to. -/
structure Memory where
  list : BlkList
  blocks : Heap Block
  /-- The sizes in bytes. -/
  arrays : Heap Nat
  mallocs : Nat

/-- An array, or `NULL`, and an offset in bytes. -/
structure Pointer where
  base : Option Addr
  offset : Nat
deriving DecidableEq, Repr

namespace Memory

/-! ### Blocks -/

def blockIsvalid (block : Block) : Bool := !block.shutdown

/-- The block and the return value. -/
def blockAllocMemory (memory : Memory) (grants : Nat → Bool) (block : Block) (itemSize : Nat) :
    Memory × Block × Int :=
  let granted := grants memory.mallocs
  let memory := { memory with mallocs := memory.mallocs + 1 }
  if granted then
    ({ memory with arrays := memory.arrays.alloc (itemSize * blkArraySizeMax) },
      { block with array := some memory.arrays.length, shutdown := false }, 0)
  else (memory, { block with array := none }, -1)

/-- `_block_create(item_size, 0)`. -/
def blockCreate (memory : Memory) (grants : Nat → Bool) (itemSize : Nat) : Memory × Option Addr :=
  let granted := grants memory.mallocs
  let memory := { memory with mallocs := memory.mallocs + 1 }
  if granted then
    match memory.blockAllocMemory grants ⟨none, false, none⟩ itemSize with
    | (memory, block, result) =>
        -- A block without an array is freed at once.
        if result = -1 then (memory, none)
        else ({ memory with blocks := memory.blocks.alloc block }, some memory.blocks.length)
  else (memory, none)

def blockFind (block : Block) (itemSize key : Nat) : Pointer :=
  if blockIsvalid block then ⟨block.array, key * itemSize⟩ else ⟨none, 0⟩

/-! ### The list -/

/-- `while (count-- == 0)`. What is left is the memory and the return value. -/
def addBlockTurn (grants : Nat → Bool) (state : Memory × Int) : Turn (Memory × Int) (Memory × Int) :=
  let (memory, count) := state
  if count = 0 then
    match memory.list.tail with
    | none => .fault
    | some tail =>
        match memory.blockCreate grants memory.list.blkArrayItemSize with
        | (memory, created) =>
            match memory.blocks.load tail with
            | none => .fault
            | some last =>
                match memory.blocks.store tail { last with next := created } with
                | none => .fault
                | some blocks =>
                    let memory := { memory with blocks := blocks, list := { memory.list with tail := created } }
                    if created = none then .leave (memory, -1) else .again (memory, count - 1)
  else .leave (memory, count - 1)

def blkListAddBlock (memory : Memory) (grants : Nat → Bool) (fuel : Nat) (count : Int) : Option (Memory × Int) :=
  if count < 0 then some (memory, -1)
  else if count = 0 then some (memory, 0)
  else
    match memory.list.tail with
    | none =>
        match memory.blockCreate grants memory.list.blkArrayItemSize with
        | (memory, created) =>
            loop (addBlockTurn grants) fuel
              ({ memory with list := { memory.list with head := created, tail := created } }, count - 1)
    | some _ => loop (addBlockTurn grants) fuel (memory, count)

/-- `for (ui16 = 1; ui16 <= blk_no; ui16++) curblk = curblk->next`, where `ui16` is a
`uint16_t`. -/
def walkTurn (blocks : Heap Block) (blkNo : Nat) (state : Nat × Option Addr) :
    Turn (Nat × Option Addr) (Option Addr) :=
  let (ui16, curblk) := state
  if ui16 ≤ blkNo then
    match curblk with
    | none => .fault
    | some addr =>
        match blocks.load addr with
        | none => .fault
        | some block => .again ((ui16 + 1) % 65536, block.next)
  else .leave curblk

/-- `key >> RIGHT_MOVE`, as a `uint16_t`. -/
def blkNo (key : Nat) : Nat := (key >>> rightMove) % 65536

def blkKey (key : Nat) : Nat := key % blkArraySizeMax

/-- What is done with the block of the key. -/
def element (memory : Memory) (grants : Nat → Bool) (curblk : Option Addr) (key : Nat) :
    Option (Memory × Pointer) :=
  match curblk with
  | none => none
  | some addr =>
      match memory.blocks.load addr with
      | none => none
      | some block =>
          let itemSize := memory.list.blkArrayItemSize
          if blockIsvalid block then some (memory, blockFind block itemSize (blkKey key))
          else
            match memory.blockAllocMemory grants block itemSize with
            | (memory, block, _) =>
                match memory.blocks.store addr block with
                | none => none
                | some blocks => some ({ memory with blocks := blocks }, blockFind block itemSize (blkKey key))

/-- There is no result if a null pointer is followed or a loop does not end in time. -/
def blkListFind (memory : Memory) (grants : Nat → Bool) (fuel : Nat) (key : Nat) : Option (Memory × Pointer) :=
  let added :=
    if memory.list.blkNums ≤ blkNo key then
      memory.blkListAddBlock grants fuel ((blkNo key + 1 : Nat) - (memory.list.blkNums : Int))
    else some (memory, 0)
  match added with
  | none => none
  | some (memory, _) =>
      match loop (walkTurn memory.blocks (blkNo key)) fuel (1, memory.list.head) with
      | none => none
      | some curblk => memory.element grants curblk key

end Memory

/-- The result is `NULL` for items of no size. -/
def blkListCreate (grants : Nat → Bool) (itemSize : Nat) : Option Memory :=
  if itemSize = 0 then none
  else if grants 0 then some ⟨⟨none, none, 0, itemSize⟩, [], [], 1⟩
  else none

/-- The keys looked up, and the addresses returned. -/
def machine (grants : Nat → Bool) (fuel : Nat) (start : Memory) : Machine Memory Nat (Nat × Pointer) where
  start := start
  step memory key := (memory.blkListFind grants fuel key).map fun found => (found.1, [(key, found.2)])

end SimpleBasicComponents.BlockList
