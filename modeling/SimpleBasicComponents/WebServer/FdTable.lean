import SimpleBasicComponents.Semantics.Heap
import SimpleBasicComponents.Semantics.Loop
import SimpleBasicComponents.WebServer.Model

/-!
The descriptor table of `src/webserver.c`.

Owns: `ntyreactor_init`, `ntyreactor_alloc` and `ntyreactor_idx` as the source
computes them, and a machine whose labels are calls of `ntyreactor_idx` and
writes to slots.

Whether the n-th `malloc` finds memory is a parameter. A pointer to a slot is the
address of its array and an offset. `blkcnt` is an `int`; an `int` descriptor
never takes it beyond `2 ^ 21`.
-/

namespace SimpleBasicComponents.WebServer

open SimpleBasicComponents.Semantics

def maxEpollEvents : Nat := 1024

structure Eventblock where
  next : Option Addr
  events : Addr
deriving DecidableEq, Repr

structure Ntyreactor where
  epfd : Int
  blkcnt : Int
  evblk : Option Addr
deriving DecidableEq, Repr

/-- The reactor and the memory it refers to. -/
structure Table where
  reactor : Ntyreactor
  blocks : Heap Eventblock
  arrays : Heap (List Ntyevent)
  mallocs : Nat

abbrev EventAddr := Addr × Int

namespace Table

/-- The two `malloc`s for a block, the array first. Both are zeroed. -/
def newBlock (table : Table) (grants : Nat → Bool) : Table × Option Addr :=
  if grants table.mallocs then
    let evs := table.arrays.length
    let arrays := table.arrays.alloc (List.replicate maxEpollEvents {})
    if grants (table.mallocs + 1) then
      let block := table.blocks.length
      ({ table with
          arrays := arrays
          blocks := table.blocks.alloc ⟨none, evs⟩
          mallocs := table.mallocs + 2 }, some block)
    else ({ table with arrays := arrays, mallocs := table.mallocs + 2 }, none)
  else ({ table with mallocs := table.mallocs + 1 }, none)

/-- The table and the return value. `epfd` is what `epoll_create` returns. -/
def ntyreactorInit (grants : Nat → Bool) (epfd : Int) : Table × Int :=
  let table : Table := ⟨⟨epfd, 0, none⟩, [], [], 0⟩
  if epfd ≤ 0 then (table, -2)
  else
    match table.newBlock grants with
    | (table, none) => (table, -2)
    | (table, some block) =>
        ({ table with reactor := { table.reactor with evblk := some block, blkcnt := 1 } }, 0)

/-- `while (blk->next != NULL) blk = blk->next`. -/
def lastBlockTurn (blocks : Heap Eventblock) (blk : Addr) : Turn Addr Addr :=
  match blocks.load blk with
  | none => .fault
  | some block =>
      match block.next with
      | some next => .again next
      | none => .leave blk

/-- The table and the return value. -/
def ntyreactorAlloc (table : Table) (grants : Nat → Bool) (fuel : Nat) : Option (Table × Int) :=
  match table.reactor.evblk with
  | none => some (table, -1)
  | some first =>
      match loop (lastBlockTurn table.blocks) fuel first with
      | none => none
      | some blk =>
          match table.newBlock grants with
          | (table, none) => some (table, -2)
          | (table, some block) =>
              match table.blocks.load blk with
              | none => none
              | some last =>
                  match table.blocks.store blk { last with next := some block } with
                  | none => none
                  | some blocks =>
                      some ({ table with
                        blocks := blocks
                        reactor := { table.reactor with blkcnt := table.reactor.blkcnt + 1 } }, 0)

/-- `while (blkidx >= reactor->blkcnt) ntyreactor_alloc(reactor)`. -/
def growTurn (grants : Nat → Bool) (fuel : Nat) (blkidx : Int) (table : Table) : Turn Table Table :=
  if blkidx ≥ table.reactor.blkcnt then
    match table.ntyreactorAlloc grants fuel with
    | some (table, _) => .again table
    | none => .fault
  else .leave table

/-- `while (i ++ < blkidx && blk != NULL) blk = blk->next`, for what is left of
`blkidx`. -/
def follow (blocks : Heap Eventblock) : Nat → Option Addr → Option (Option Addr)
  | 0, blk => some blk
  | _ + 1, none => some none
  | left + 1, some blk =>
      match blocks.load blk with
      | some block => follow blocks left block.next
      | none => none

/-- Division of an `int` rounds towards zero. -/
def ntyreactorIdx (table : Table) (grants : Nat → Bool) (fuel : Nat) (sockfd : Int) :
    Option (Table × EventAddr) :=
  let blkidx := sockfd.tdiv maxEpollEvents
  match loop (growTurn grants fuel blkidx) fuel table with
  | none => none
  | some table =>
      match follow table.blocks blkidx.toNat table.reactor.evblk with
      | none => none
      | some none => none
      | some (some blk) =>
          match table.blocks.load blk with
          | some block => some (table, block.events, sockfd.tmod maxEpollEvents)
          | none => none

/-! ### Calls -/

def read (table : Table) (slot : EventAddr) : Option Ntyevent :=
  match table.arrays.load slot.1 with
  | some events => if 0 ≤ slot.2 then events[slot.2.toNat]? else none
  | none => none

def write (table : Table) (slot : EventAddr) (ev : Ntyevent) : Option Table :=
  match table.arrays.load slot.1 with
  | some events =>
      if 0 ≤ slot.2 ∧ slot.2 < events.length then
        match table.arrays.store slot.1 (events.set slot.2.toNat ev) with
        | some arrays => some { table with arrays := arrays }
        | none => none
      else none
  | none => none

/-- Calls of `ntyreactor_idx`, and writes through the pointers it has returned. -/
inductive Use where
  | idx (sockfd : Int)
  | write (slot : EventAddr) (ev : Ntyevent)

inductive Found where
  | slotOf (sockfd : Int) (slot : EventAddr)
deriving DecidableEq, Repr

def step (grants : Nat → Bool) (fuel : Nat) (table : Table) : Use → Option (Table × List Found)
  | .idx sockfd =>
      match table.ntyreactorIdx grants fuel sockfd with
      | some (table, slot) => some (table, [.slotOf sockfd slot])
      | none => none
  | .write slot ev =>
      match table.write slot ev with
      | some table => some (table, [])
      | none => none

/-- The reactor after `ntyreactor_init`. -/
def machine (grants : Nat → Bool) (epfd : Int) (fuel : Nat) : Machine Table Use Found where
  start := (ntyreactorInit grants epfd).1
  step := step grants fuel

end Table

end SimpleBasicComponents.WebServer
