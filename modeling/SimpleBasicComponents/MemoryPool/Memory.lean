import SimpleBasicComponents.MemoryPool.Placement
import Mathlib.Logic.Function.Basic

/-!
The memory pool as it lies in memory.

Owns: the nodes of the block chain as the memory holds them, with their fields
`next`, the functions of the pool that follow these fields, and a machine whose
labels are the calls together with what is written to the memory handed out.

Nothing is assumed of what the memory holds before it is written. The loops are
bounded by `fuel`, the number of their turns; a loop that the bound cuts off has
no result. Besides what it did, a call tells which nodes it came to through
`next`.
-/

namespace SimpleBasicComponents.MemoryPool

open SimpleBasicComponents.Semantics

/-- `struct mp_node_s` in memory. -/
structure NodeCell where
  last : UInt64
  endPtr : UInt64
  next : UInt64
  failed : UInt64
deriving DecidableEq, Repr

/-- What the memory at each address holds, read as a `struct mp_node_s`. -/
abbrev Nodes := UInt64 → NodeCell

/-- `struct mp_pool_s`; `head` is the address of its node, and `nodes` the memory
with the nodes. `handed` are the ranges that were handed out since the last
`mp_reset_pool` and not given back; no function looks at them. -/
structure Image where
  max : UInt64
  head : UInt64
  current : UInt64
  large : List Large
  nodes : Nodes
  handed : List Range

inductive Trace where
  | did (event : Event)
  /-- A pointer to the node was found in a field `next` and followed. -/
  | visited (node : UInt64)
deriving DecidableEq, Repr

namespace Trace

def event : Trace → Option Event
  | .did event => some event
  | .visited _ => none

end Trace

/-- What was done, without the visits. -/
def doneIn (shown : List Trace) : List Event := shown.filterMap Trace.event

namespace Image

structure Reply where
  image : Image
  pointer : UInt64
  answers : List UInt64
  shown : List Trace

/-- `mp_create_pool(size)` when `posix_memalign` gave `p`: `head->next` stays what the
memory holds. -/
def mpCreatePool (size p : UInt64) (nodes : Nodes) : Image :=
  let head := p + sizeofPool
  let last := p + sizeofPool + sizeofNode
  { max := if size < mpMaxAllocFromPool then size else mpMaxAllocFromPool
    head := head
    current := head
    large := []
    nodes := Function.update nodes head
      { last := last, endPtr := last + size, next := (nodes head).next, failed := 0 }
    handed := [] }

/-! ### Blocks of the chain -/

/-- What the loop of `mp_alloc_block` leaves: the memory, `current`, the node `p` it
ends at, and the nodes it came to. -/
structure Moved where
  nodes : Nodes
  current : UInt64
  p : UInt64
  seen : List UInt64

/-- The loop of `mp_alloc_block` at `p`. -/
def moveCurrent : Nat → Nodes → UInt64 → UInt64 → Option Moved
  | 0, _, _, _ => none
  | fuel + 1, nodes, current, p =>
      let node := nodes p
      if node.next = 0 then some ⟨nodes, current, p, []⟩
      else
        let counted := Function.update nodes p { node with failed := node.failed + 1 }
        let current := if node.failed > 4 then node.next else current
        match moveCurrent fuel counted current node.next with
        | none => none
        | some moved => some { moved with seen := node.next :: moved.seen }

def mpAllocBlock (fuel : Nat) (image : Image) (size : UInt64) : List UInt64 → Option Reply
  | [] => none
  | addr :: answers =>
      let psize := (image.nodes image.head).endPtr - image.head
      if addr = 0 then some ⟨image, 0, answers, []⟩
      else
        let m := mpAlignPtr (addr + sizeofNode)
        let written := Function.update image.nodes addr
          { last := m + size, endPtr := addr + psize, next := 0, failed := 0 }
        match moveCurrent fuel written image.current image.current with
        | none => none
        | some moved =>
            let linked := Function.update moved.nodes moved.p
              { moved.nodes moved.p with next := addr }
            some
              ⟨{ image with
                  nodes := linked
                  current := if moved.current = 0 then addr else moved.current },
                m, answers,
                .did (.block addr psize) :: moved.seen.map .visited ++ [.did (.carved m size)]⟩

/-- The loop of `mp_alloc` (with `place` the rounding) and of `mp_nalloc` (with
none) from the node `p` on: the node that serves the request and where, if one does,
and the nodes it came to. -/
def takeRoom (place : UInt64 → UInt64) (size : UInt64) (nodes : Nodes) :
    Nat → UInt64 → Option (Option (UInt64 × UInt64) × List UInt64)
  | 0, _ => none
  | fuel + 1, p =>
      let node := nodes p
      let m := place node.last
      if node.endPtr - m ≥ size then some (some (p, m), [])
      else if node.next = 0 then some (none, [])
      else
        match takeRoom place size nodes fuel node.next with
        | none => none
        | some (served, seen) => some (served, node.next :: seen)

/-- The branch `size <= pool->max` of `mp_alloc` and of `mp_nalloc`. -/
def allocSmall (fuel : Nat) (place : UInt64 → UInt64) (image : Image) (size : UInt64)
    (answers : List UInt64) : Option Reply :=
  match takeRoom place size image.nodes fuel image.current with
  | none => none
  | some (some (p, m), seen) =>
      let taken := Function.update image.nodes p { image.nodes p with last := m + size }
      some ⟨{ image with nodes := taken }, m, answers, seen.map .visited ++ [.did (.carved m size)]⟩
  | some (none, seen) =>
      match mpAllocBlock fuel image size answers with
      | none => none
      | some reply => some { reply with shown := seen.map .visited ++ reply.shown }

/-! ### Large blocks -/

def pushLarge (alloc : Image → UInt64 → List UInt64 → Option Reply) (image : Image)
    (p size : UInt64) (answers : List UInt64) : Option Reply :=
  match alloc image sizeofLarge answers with
  | none => none
  | some entry =>
      if entry.pointer = 0 then
        some ⟨entry.image, 0, entry.answers,
          .did (.large p size) :: entry.shown ++ [.did (.released p)]⟩
      else
        some
          ⟨{ entry.image with large := ⟨entry.pointer, p⟩ :: entry.image.large }, p, entry.answers,
            .did (.large p size) :: entry.shown⟩

def mpAllocLarge (alloc : Image → UInt64 → List UInt64 → Option Reply) (image : Image)
    (size : UInt64) : List UInt64 → Option Reply
  | [] => none
  | p :: answers =>
      if p = 0 then some ⟨image, 0, answers, []⟩
      else
        match reuseEntry p 0 image.large with
        | some large => some ⟨{ image with large := large }, p, answers, [.did (.large p size)]⟩
        | none => pushLarge alloc image p size answers

/-! ### Requests -/

def mpAlloc (fuel : Nat) : Nat → Image → UInt64 → List UInt64 → Option Reply
  | 0, _, _, _ => none
  | depth + 1, image, size, answers =>
      if size ≤ image.max then allocSmall fuel mpAlignPtr image size answers
      else mpAllocLarge (mpAlloc fuel depth) image size answers

def mpNalloc (fuel depth : Nat) (image : Image) (size : UInt64) (answers : List UInt64) :
    Option Reply :=
  if size ≤ image.max then allocSmall fuel (fun p => p) image size answers
  else mpAllocLarge (mpAlloc fuel depth) image size answers

def mpCalloc (fuel depth : Nat) (image : Image) (size : UInt64) (answers : List UInt64) :
    Option Reply :=
  match mpAlloc fuel depth image size answers with
  | none => none
  | some reply =>
      if reply.pointer = 0 then some reply
      else some { reply with shown := reply.shown ++ [.did (.zeroed reply.pointer size)] }

def mpMemalign (fuel depth : Nat) (image : Image) (size _alignment : UInt64) :
    List UInt64 → Option Reply
  | [] => none
  | p :: answers =>
      if p = 0 then some ⟨image, 0, answers, []⟩
      else pushLarge (mpAlloc fuel depth) image p size answers

/-! ### Releasing -/

def mpFree (image : Image) (p : UInt64) : Image × List Trace :=
  let (large, events) := freeEntry p image.large
  ({ image with large := large }, events.map .did)

/-- The loop over the nodes of `mp_reset_pool`, from the node `h` on. -/
def rewindFrom : Nat → Nodes → UInt64 → Option (Nodes × List UInt64)
  | 0, _, _ => none
  | fuel + 1, nodes, h =>
      let rewound := Function.update nodes h { nodes h with last := h + sizeofNode }
      if (rewound h).next = 0 then some (rewound, [])
      else
        match rewindFrom fuel rewound (rewound h).next with
        | none => none
        | some (nodes, seen) => some (nodes, (rewound h).next :: seen)

def mpResetPool (fuel : Nat) (image : Image) : Option (Image × List Trace) :=
  match rewindFrom fuel image.nodes image.head with
  | none => none
  | some (nodes, seen) =>
      let released := image.large.flatMap fun entry => release entry.alloc
      some ({ image with large := [], nodes := nodes },
        released.map .did ++ seen.map .visited ++ [.did .rewound])

/-- The loop `while (h)` of `mp_destory_pool`. -/
def freeFrom (nodes : Nodes) : Nat → UInt64 → Option (List Trace)
  | 0, h => if h = 0 then some [] else none
  | fuel + 1, h =>
      if h = 0 then some []
      else
        match freeFrom nodes fuel (nodes h).next with
        | none => none
        | some shown => some (.visited h :: .did (.freedBlock h) :: shown)

def mpDestoryPool (fuel : Nat) (image : Image) : Option (List Trace) :=
  match freeFrom image.nodes fuel (image.nodes image.head).next with
  | none => none
  | some shown =>
      let released := image.large.flatMap fun entry => release entry.alloc
      some (released.map .did ++ shown ++ [.did (.freedBlock (image.head - sizeofPool))])

end Image

/-! ### Runs -/

/-- The bytes of a `struct mp_node_s` at the address. -/
def headerAt (addr : UInt64) : Range := ⟨addr.toNat, 32⟩

def noteHanded : List Range → Event → List Range
  | handed, .carved addr size => ⟨addr.toNat, size.toNat⟩ :: handed
  | handed, .large addr size => ⟨addr.toNat, size.toNat⟩ :: handed
  | handed, .released addr => handed.filter (·.start ≠ addr.toNat)
  | _, .rewound => []
  | handed, _ => handed

/-- A call, and what is written to the memory that the pool has handed out: by the
pool, which keeps the list of the large blocks there and clears what `mp_calloc`
returns, and by whoever asked for it. `writes` is what a node becomes whose bytes
meet that memory. -/
structure Use where
  call : Call
  writes : UInt64 → NodeCell → NodeCell

namespace Image

/-- The memory handed out and not given back may hold anything when the call returns. -/
def overwrite (image : Image) (use : Use) (shown : List Trace) : Image :=
  let handed := (doneIn shown).foldl noteHanded image.handed
  { image with
    handed := handed
    nodes := fun addr =>
      if ∀ range ∈ handed, (headerAt addr).Apart range then image.nodes addr
      else use.writes addr (image.nodes addr) }

def left (use : Use) : Option (Image × List Trace) → Option (Option Image × List Trace)
  | none => none
  | some (image, shown) => some (some (image.overwrite use shown), shown)

def answered : Option Reply → Option (Image × List Trace)
  | none => none
  | some reply => some (reply.image, reply.shown ++ [.did (.returned reply.pointer)])

def step (fuel : Nat) (session : Option Image) (use : Use) : Option (Option Image × List Trace) :=
  let answers := use.call.answers
  let depth := answers.length + 1
  match session with
  | none => none
  | some image =>
      match use.call.request with
      | .alloc size => left use (answered (mpAlloc fuel depth image size answers))
      | .nalloc size => left use (answered (mpNalloc fuel depth image size answers))
      | .calloc size => left use (answered (mpCalloc fuel depth image size answers))
      | .memalign size alignment =>
          left use (answered (mpMemalign fuel depth image size alignment answers))
      | .free p => left use (some (mpFree image p))
      | .resetPool => left use (mpResetPool fuel image)
      | .destoryPool =>
          match mpDestoryPool fuel image with
          | none => none
          | some shown => some (none, shown)

/-- Calls on the pool of the size that was created in the block at `base`, with
this in memory. -/
def machine (fuel : Nat) (size base : UInt64) (nodes : Nodes) :
    Machine (Option Image) Use Trace where
  start := some (mpCreatePool size base nodes)
  step := step fuel

end Image

end SimpleBasicComponents.MemoryPool
