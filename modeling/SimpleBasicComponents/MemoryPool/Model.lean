import SimpleBasicComponents.Semantics.Machine

/-!
The memory pool of `src/pool/mmpool.c`.

Owns: the nodes of the block chain, the list of large blocks, the pool, the
functions of the pool as the source computes them, and a machine whose labels
are their calls.

Pointers and sizes are 64-bit words and `NULL` is 0. What `malloc` and
`posix_memalign` answer is not up to the pool: a call takes the answers it will
get, in order, 0 for a failure, and has no result when it needs more of them.
The chain is kept as the nodes before `pool->current`, that node, and the nodes
after it; the fields `next` are the order of the lists. A call also tells what
it did: which blocks it obtained and released, which ranges it carved out of
the chain.
-/

namespace SimpleBasicComponents.MemoryPool

open SimpleBasicComponents.Semantics

/-- `MP_ALIGNMENT`. -/
def mpAlignment : UInt64 := 32

/-- `MP_MAX_ALLOC_FROM_POOL`. -/
def mpMaxAllocFromPool : UInt64 := 4096 - 1

/-- `sizeof(struct mp_pool_s)`; `head` is the flexible array at its end. -/
def sizeofPool : UInt64 := 24

/-- `sizeof(struct mp_node_s)`. -/
def sizeofNode : UInt64 := 32

/-- `sizeof(struct mp_large_s)`. -/
def sizeofLarge : UInt64 := 16

/-- `mp_align_ptr(p, MP_ALIGNMENT)`. -/
def mpAlignPtr (p : UInt64) : UInt64 := (p + (mpAlignment - 1)) &&& ~~~(mpAlignment - 1)

/-- `struct mp_node_s` at the address `addr`; `endPtr` is the field `end`. -/
structure Node where
  addr : UInt64
  last : UInt64
  endPtr : UInt64
  failed : UInt64
deriving DecidableEq, Repr

/-- `struct mp_large_s` at the address `addr`. -/
structure Large where
  addr : UInt64
  alloc : UInt64
deriving DecidableEq, Repr

/-- `struct mp_pool_s`. The chain is `before`, then `*pool->current`, then `after`. -/
structure Pool where
  max : UInt64
  before : List Node
  current : Node
  after : List Node
  large : List Large
deriving DecidableEq, Repr

namespace Pool

/-- The nodes from `pool->head` on. -/
def chain (pool : Pool) : List Node := pool.before ++ pool.current :: pool.after

/-- `pool->head`. -/
def head (pool : Pool) : Node :=
  match pool.before with
  | [] => pool.current
  | node :: _ => node

end Pool

inductive Event where
  /-- `posix_memalign` gave a block for the chain. -/
  | block (addr size : UInt64)
  /-- `malloc` or `posix_memalign` gave a large block. -/
  | large (addr size : UInt64)
  /-- The range was returned for a size of at most `pool->max`. -/
  | carved (addr size : UInt64)
  /-- `memset(addr, 0, size)`. -/
  | zeroed (addr size : UInt64)
  /-- `free` of a large block. -/
  | released (addr : UInt64)
  /-- `free` of a block of the chain. -/
  | freedBlock (addr : UInt64)
  | rewound
  | returned (pointer : UInt64)
deriving DecidableEq, Repr

/-- What a call leaves behind: the pool, its result, the answers it did not need
and what it did. -/
structure Reply where
  pool : Pool
  pointer : UInt64
  answers : List UInt64
  events : List Event
deriving DecidableEq, Repr

/-- The pool that `mp_create_pool(size)` returns when `posix_memalign` gave `p`.
`head->next` is not written: `found` are the nodes it happens to lead to. -/
def mpCreatePool (size p : UInt64) (found : List Node) : Pool :=
  let last := p + sizeofPool + sizeofNode
  { max := if size < mpMaxAllocFromPool then size else mpMaxAllocFromPool
    before := []
    current := { addr := p + sizeofPool, last := last, endPtr := last + size, failed := 0 }
    after := found
    large := [] }

/-- A pool of 16 bytes has room for the header of a large block. -/
theorem sixteen_le_max {size base : UInt64} (enough : 16 ≤ size) :
    sizeofLarge ≤ (mpCreatePool size base []).max := by
  unfold mpCreatePool
  simp only
  split
  · exact enough
  · decide

/-! ### Blocks of the chain -/

/-- The loop of `mp_alloc_block` at `p`, with the nodes `after` behind it. `before`
are the nodes before `current`, `between` those from `current` to `p`. The result
is the chain cut where `current` ends up. -/
def moveCurrent (before between : List Node) (p : Node) : List Node → List Node × List Node
  | [] => (before, between ++ [p])
  | next :: after =>
      let counted := { p with failed := p.failed + 1 }
      if p.failed > 4 then moveCurrent (before ++ (between ++ [counted])) [] next after
      else moveCurrent before (between ++ [counted]) next after

/-- `p->next = new_node` and the new `pool->current`. -/
def Pool.append (pool : Pool) (newNode : Node) : Pool :=
  match moveCurrent pool.before [] pool.current pool.after with
  | (before, []) => { pool with before := before, current := newNode, after := [] }
  | (before, current :: after) =>
      { pool with before := before, current := current, after := after ++ [newNode] }

def mpAllocBlock (pool : Pool) (size : UInt64) : List UInt64 → Option Reply
  | [] => none
  | addr :: answers =>
      let psize := pool.head.endPtr - pool.head.addr
      if addr = 0 then some ⟨pool, 0, answers, []⟩
      else
        let m := mpAlignPtr (addr + sizeofNode)
        let newNode : Node := { addr := addr, last := m + size, endPtr := addr + psize, failed := 0 }
        some ⟨pool.append newNode, m, answers, [.block addr psize, .carved m size]⟩

/-- A block is asked for; what it then serves is its first range. -/
theorem mpAllocBlock_cases {pool : Pool} {size : UInt64} {answers : List UInt64} {reply : Reply}
    (replies : mpAllocBlock pool size answers = some reply) :
    ∃ addr rest, answers = addr :: rest ∧
      ((addr = 0 ∧ reply = ⟨pool, 0, rest, []⟩) ∨
        let psize := pool.head.endPtr - pool.head.addr
        let m := mpAlignPtr (addr + sizeofNode)
        addr ≠ 0 ∧ reply = ⟨pool.append ⟨addr, m + size, addr + psize, 0⟩, m, rest,
          [.block addr psize, .carved m size]⟩) := by
  cases answers with
  | nil => contradiction
  | cons addr rest =>
      refine ⟨addr, rest, rfl, ?_⟩
      simp only [mpAllocBlock] at replies
      split at replies
      · exact .inl ⟨‹_›, (Option.some.inj replies).symm⟩
      · exact .inr ⟨‹_›, (Option.some.inj replies).symm⟩

/-- The loop of `mp_alloc` (with `place` the rounding) and of `mp_nalloc` (with
none) from the node `p` on: the nodes with the request served, and where. -/
def takeRoom (place : UInt64 → UInt64) (size : UInt64) (p : Node) :
    List Node → Option ((Node × List Node) × UInt64)
  | [] =>
      let m := place p.last
      if p.endPtr - m ≥ size then some (({ p with last := m + size }, []), m) else none
  | next :: after =>
      let m := place p.last
      if p.endPtr - m ≥ size then some (({ p with last := m + size }, next :: after), m)
      else
        match takeRoom place size next after with
        | none => none
        | some ((served, rest), m) => some ((p, served :: rest), m)

/-- The branch `size <= pool->max` of `mp_alloc` and of `mp_nalloc`. -/
def allocSmall (place : UInt64 → UInt64) (pool : Pool) (size : UInt64) (answers : List UInt64) :
    Option Reply :=
  match takeRoom place size pool.current pool.after with
  | some ((current, after), m) =>
      some ⟨{ pool with current := current, after := after }, m, answers, [.carved m size]⟩
  | none => mpAllocBlock pool size answers

/-! ### Large blocks -/

/-- The loop of `mp_alloc_large`: the entry it puts `p` into, if it finds one. -/
def reuseEntry (p : UInt64) (n : Nat) : List Large → Option (List Large)
  | [] => none
  | entry :: rest =>
      if entry.alloc = 0 then some ({ entry with alloc := p } :: rest)
      else if n > 3 then none
      else
        match reuseEntry p (n + 1) rest with
        | none => none
        | some rest => some (entry :: rest)

/-- A new entry for the block `p`, in memory that `alloc` gives, at the front of
`pool->large`; without memory for it the block is freed. -/
def pushLarge (alloc : Pool → UInt64 → List UInt64 → Option Reply) (pool : Pool)
    (p size : UInt64) (answers : List UInt64) : Option Reply :=
  match alloc pool sizeofLarge answers with
  | none => none
  | some entry =>
      if entry.pointer = 0 then
        some ⟨entry.pool, 0, entry.answers, .large p size :: entry.events ++ [.released p]⟩
      else
        some
          ⟨{ entry.pool with large := ⟨entry.pointer, p⟩ :: entry.pool.large }, p, entry.answers,
            .large p size :: entry.events⟩

theorem pushLarge_cases {alloc : Pool → UInt64 → List UInt64 → Option Reply} {pool : Pool}
    {p size : UInt64} {answers : List UInt64} {reply : Reply}
    (replies : pushLarge alloc pool p size answers = some reply) :
    ∃ entry, alloc pool sizeofLarge answers = some entry ∧
      ((entry.pointer = 0 ∧
          reply = ⟨entry.pool, 0, entry.answers, .large p size :: entry.events ++ [.released p]⟩) ∨
        (entry.pointer ≠ 0 ∧
          reply = ⟨{ entry.pool with large := ⟨entry.pointer, p⟩ :: entry.pool.large }, p,
            entry.answers, .large p size :: entry.events⟩)) := by
  unfold pushLarge at replies
  split at replies
  · contradiction
  · rename_i entry served
    refine ⟨entry, served, ?_⟩
    split at replies
    · exact .inl ⟨‹_›, (Option.some.inj replies).symm⟩
    · exact .inr ⟨‹_›, (Option.some.inj replies).symm⟩

/-- `alloc` is `mp_alloc`, which asks for the large blocks here. -/
def mpAllocLarge (alloc : Pool → UInt64 → List UInt64 → Option Reply) (pool : Pool)
    (size : UInt64) : List UInt64 → Option Reply
  | [] => none
  | p :: answers =>
      if p = 0 then some ⟨pool, 0, answers, []⟩
      else
        match reuseEntry p 0 pool.large with
        | some large => some ⟨{ pool with large := large }, p, answers, [.large p size]⟩
        | none => pushLarge alloc pool p size answers

/-- The large block is missing, goes into an entry that is free, or needs a new one. -/
theorem mpAllocLarge_cases {alloc : Pool → UInt64 → List UInt64 → Option Reply} {pool : Pool}
    {size : UInt64} {answers : List UInt64} {reply : Reply}
    (replies : mpAllocLarge alloc pool size answers = some reply) :
    ∃ p rest, answers = p :: rest ∧
      ((p = 0 ∧ reply = ⟨pool, 0, rest, []⟩) ∨
        (p ≠ 0 ∧ ∃ large, reuseEntry p 0 pool.large = some large ∧
          reply = ⟨{ pool with large := large }, p, rest, [.large p size]⟩) ∨
        (p ≠ 0 ∧ reuseEntry p 0 pool.large = none ∧ pushLarge alloc pool p size rest = some reply)) := by
  cases answers with
  | nil => contradiction
  | cons p rest =>
      refine ⟨p, rest, rfl, ?_⟩
      simp only [mpAllocLarge] at replies
      split at replies
      · rename_i isNull
        exact .inl ⟨isNull, (Option.some.inj replies).symm⟩
      · rename_i nonNull
        split at replies
        · rename_i large reused
          exact .inr (.inl ⟨nonNull, large, reused, (Option.some.inj replies).symm⟩)
        · rename_i noEntry
          exact .inr (.inr ⟨nonNull, noEntry, replies⟩)

/-! ### Requests -/

/-- `depth` bounds how deep the calls of `mp_alloc` are nested. -/
def mpAlloc : Nat → Pool → UInt64 → List UInt64 → Option Reply
  | 0, _, _, _ => none
  | depth + 1, pool, size, answers =>
      if size ≤ pool.max then allocSmall mpAlignPtr pool size answers
      else mpAllocLarge (mpAlloc depth) pool size answers

def mpNalloc (depth : Nat) (pool : Pool) (size : UInt64) (answers : List UInt64) : Option Reply :=
  if size ≤ pool.max then allocSmall (fun p => p) pool size answers
  else mpAllocLarge (mpAlloc depth) pool size answers

def mpCalloc (depth : Nat) (pool : Pool) (size : UInt64) (answers : List UInt64) : Option Reply :=
  match mpAlloc depth pool size answers with
  | none => none
  | some reply =>
      if reply.pointer = 0 then some reply
      else some { reply with events := reply.events ++ [.zeroed reply.pointer size] }

theorem mpCalloc_cases {depth : Nat} {pool : Pool} {size : UInt64} {answers : List UInt64}
    {reply : Reply} (replies : mpCalloc depth pool size answers = some reply) :
    ∃ first, mpAlloc depth pool size answers = some first ∧
      ((first.pointer = 0 ∧ reply = first) ∨
        (first.pointer ≠ 0 ∧
          reply = { first with events := first.events ++ [.zeroed first.pointer size] })) := by
  unfold mpCalloc at replies
  split at replies
  · contradiction
  · rename_i first served
    refine ⟨first, served, ?_⟩
    split at replies
    · exact .inl ⟨‹_›, (Option.some.inj replies).symm⟩
    · exact .inr ⟨‹_›, (Option.some.inj replies).symm⟩

/-- `posix_memalign` is given the alignment; the pool does not look at it. -/
def mpMemalign (depth : Nat) (pool : Pool) (size _alignment : UInt64) :
    List UInt64 → Option Reply
  | [] => none
  | p :: answers =>
      if p = 0 then some ⟨pool, 0, answers, []⟩
      else pushLarge (mpAlloc depth) pool p size answers

theorem mpMemalign_cases {depth : Nat} {pool : Pool} {size alignment : UInt64}
    {answers : List UInt64} {reply : Reply}
    (replies : mpMemalign depth pool size alignment answers = some reply) :
    ∃ p rest, answers = p :: rest ∧
      ((p = 0 ∧ reply = ⟨pool, 0, rest, []⟩) ∨
        (p ≠ 0 ∧ pushLarge (mpAlloc depth) pool p size rest = some reply)) := by
  cases answers with
  | nil => contradiction
  | cons p rest =>
      refine ⟨p, rest, rfl, ?_⟩
      simp only [mpMemalign] at replies
      split at replies
      · rename_i isNull
        exact .inl ⟨isNull, (Option.some.inj replies).symm⟩
      · rename_i nonNull
        exact .inr ⟨nonNull, replies⟩

/-! ### Releasing -/

/-- `free(p)`, which does nothing for `NULL`. -/
def release (p : UInt64) : List Event := if p = 0 then [] else [.released p]

/-- The loop of `mp_free`. -/
def freeEntry (p : UInt64) : List Large → List Large × List Event
  | [] => ([], [])
  | entry :: rest =>
      if p = entry.alloc then ({ entry with alloc := 0 } :: rest, release entry.alloc)
      else
        let (rest, events) := freeEntry p rest
        (entry :: rest, events)

def mpFree (pool : Pool) (p : UInt64) : Pool × List Event :=
  let (large, events) := freeEntry p pool.large
  ({ pool with large := large }, events)

/-- The loop over `pool->large` of `mp_reset_pool` and of `mp_destory_pool`. -/
def releaseLarge (pool : Pool) : List Event := pool.large.flatMap fun entry => release entry.alloc

def Node.rewind (node : Node) : Node := { node with last := node.addr + sizeofNode }

def mpResetPool (pool : Pool) : Pool × List Event :=
  ({ pool with
      before := pool.before.map Node.rewind
      current := pool.current.rewind
      after := pool.after.map Node.rewind
      large := [] },
    releaseLarge pool ++ [.rewound])

/-- The blocks behind `head->next` are freed, then the pool with its head. -/
def mpDestoryPool (pool : Pool) : List Event :=
  releaseLarge pool ++ pool.chain.tail.map (fun node => Event.freedBlock node.addr) ++
    [.freedBlock (pool.head.addr - sizeofPool)]

/-! ### Runs -/

inductive Request where
  | alloc (size : UInt64)
  | nalloc (size : UInt64)
  | calloc (size : UInt64)
  | memalign (size alignment : UInt64)
  | free (p : UInt64)
  | resetPool
  | destoryPool
deriving DecidableEq, Repr

/-- A request and the answers of `malloc` and `posix_memalign` during it. -/
structure Call where
  request : Request
  answers : List UInt64
deriving DecidableEq, Repr

def answered : Option Reply → Option (Option Pool × List Event)
  | none => none
  | some reply => some (some reply.pool, reply.events ++ [.returned reply.pointer])

theorem answered_eq {outcome : Option Reply} {session : Option Pool} {shown : List Event}
    (answers : answered outcome = some (session, shown)) :
    ∃ reply, outcome = some reply ∧ session = some reply.pool ∧
      shown = reply.events ++ [.returned reply.pointer] := by
  cases outcome with
  | none => contradiction
  | some reply =>
      obtain ⟨rfl, rfl⟩ := Prod.mk.inj (Option.some.inj answers)
      exact ⟨reply, rfl, rfl, rfl⟩

/-- Every nested call uses up an answer, so their number bounds the depth. After
`mp_destory_pool` there is no pool to call. -/
def step (session : Option Pool) (call : Call) : Option (Option Pool × List Event) :=
  let depth := call.answers.length + 1
  match session with
  | none => none
  | some pool =>
      match call.request with
      | .alloc size => answered (mpAlloc depth pool size call.answers)
      | .nalloc size => answered (mpNalloc depth pool size call.answers)
      | .calloc size => answered (mpCalloc depth pool size call.answers)
      | .memalign size alignment => answered (mpMemalign depth pool size alignment call.answers)
      | .free p => let (pool, events) := mpFree pool p; some (some pool, events)
      | .resetPool => let (pool, events) := mpResetPool pool; some (some pool, events)
      | .destoryPool => some (none, mpDestoryPool pool)

/-- Calls on the pool of the size that was created in the block at `base`, where
`head->next` happens to lead to the nodes `found`. -/
def machineFound (size base : UInt64) (found : List Node) : Machine (Option Pool) Call Event where
  start := some (mpCreatePool size base found)
  step := step

/-- Calls on the pool of the size that was created in the block at `base`, with
`head->next` found `NULL`. -/
def machine (size base : UInt64) : Machine (Option Pool) Call Event where
  start := some (mpCreatePool size base [])
  step := step

end SimpleBasicComponents.MemoryPool
