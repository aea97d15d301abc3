import SimpleBasicComponents.MemoryPool.Ownership
import SimpleBasicComponents.MemoryPool.Recursion

/-!
Blocks that are appended to the chain.

Owns: the states that come after `mp_create_pool`, what `mp_alloc_block` promises
in all of them, and the theorem that it keeps this exactly if the size of a block,
that of the pool and a header, is a number of 64 bits.
-/

namespace SimpleBasicComponents.MemoryPool

open SimpleBasicComponents.Semantics

/-! ### Later states -/

section

variable {nodes : Nodes} {chain other : List Node}

/-- There is one way to follow `next` until it is `NULL`. -/
theorem Linked.unique (linked : Linked nodes 0 chain) (linkedOther : Linked nodes 0 other)
    (nonNull : ∀ node ∈ chain, node.addr ≠ 0) (nonNullOther : ∀ node ∈ other, node.addr ≠ 0)
    (same : linkTo 0 chain = linkTo 0 other) : chain.length = other.length := by
  induction chain generalizing other with
  | nil =>
      cases other with
      | nil => rfl
      | cons node rest => exact absurd same.symm (nonNullOther node List.mem_cons_self)
  | cons node rest inductionHypothesis =>
      cases other with
      | nil => exact absurd same (nonNull node List.mem_cons_self)
      | cons otherNode otherRest =>
          have sameAddr : node.addr = otherNode.addr := same
          have next : linkTo 0 rest = linkTo 0 otherRest := by
            rw [← linked.next_eq, ← linkedOther.next_eq, sameAddr]
          rw [List.length_cons, List.length_cons]
          congr 1
          exact inductionHypothesis linked.2 linkedOther.2
            (fun node member => nonNull node (List.mem_cons_of_mem _ member))
            (fun node member => nonNullOther node (List.mem_cons_of_mem _ member)) next

/-- A chain that ends comes to no node twice. -/
theorem Linked.distinct (linked : Linked nodes 0 chain) (nonNull : ∀ node ∈ chain, node.addr ≠ 0) :
    (chain.map Node.addr).Nodup := by
  induction chain with
  | nil => exact List.nodup_nil
  | cons node rest inductionHypothesis =>
      have nonNullRest : ∀ node ∈ rest, node.addr ≠ 0 :=
        fun node member => nonNull node (List.mem_cons_of_mem _ member)
      rw [List.map_cons, List.nodup_cons]
      refine ⟨?_, inductionHypothesis linked.2 nonNullRest⟩
      intro member
      obtain ⟨again, inRest, sameAddr⟩ := List.mem_map.mp member
      obtain ⟨front, back, rfl⟩ := List.append_of_mem inRest
      -- from the second time on the chain would be as long as from the first
      have linkedAgain := (linked_append_iff.mp linked.2).2
      have lengths := linked.unique linkedAgain nonNull
        (fun node member => nonNullRest node (List.mem_append_right _ member)) sameAddr.symm
      rw [List.length_cons, List.length_append] at lengths
      omega

end

/-- What `mp_create_pool` writes and no function changes. -/
structure Pool.MadeBy (size base : UInt64) (pool : Pool) : Prop where
  max : pool.max = limitOf size
  head : pool.head.span = (base + sizeofPool, base + sizeofPool + sizeofNode + size)

/-- The chain from `pool->head` on ends, with `pool->current` on it, and the pool was
created with the size. -/
structure Later (size base : UInt64) (image : Image) (pool : Pool) : Prop where
  made : pool.MadeBy size base
  max : image.max = pool.max
  large : image.large = pool.large
  head : image.head = linkTo 0 pool.chain
  current : image.current = pool.current.addr
  linked : Linked image.nodes 0 pool.chain
  nonNull : ∀ node ∈ pool.chain, node.addr ≠ 0

section

variable {size base : UInt64} {image : Image} {pool next : Pool}

theorem Later.models (later : Later size base image pool) : Models image pool :=
  ⟨later.max, later.head, later.current, later.large, later.linked, later.nonNull,
    later.linked.distinct later.nonNull⟩

theorem Models.later (models : Models image pool) (made : pool.MadeBy size base) :
    Later size base image pool :=
  ⟨made, models.max, models.large, models.head, models.current, models.linked, models.nonNull⟩

theorem Pool.MadeBy.grow {more : List (UInt64 × UInt64)} (made : pool.MadeBy size base)
    (max : next.max = pool.max) (spans : next.chain.map Node.span = pool.chain.map Node.span ++ more) :
    next.MadeBy size base := by
  refine ⟨max.trans made.max, ?_⟩
  have ⟨rest, chain⟩ := chain_eq_head_cons pool
  have ⟨restNext, chainNext⟩ := chain_eq_head_cons next
  rw [chain, chainNext, List.map_cons, List.map_cons, List.cons_append] at spans
  exact (List.cons.inj spans).1.trans made.head

/-- Every run keeps it, wherever the `head->next` leads that was found. -/
theorem exec_madeBy {found : List Node} {calls : List Call} {session : Option Pool} {events : List Event}
    (ran : (machineFound size base found).Exec calls session events) :
    ∀ pool, session = some pool → pool.MadeBy size base := by
  refine Machine.Exec.of_open (fun _ pool _ => pool.MadeBy size base) (fun _ => rfl) ?_ ?_ ran
  · intro pool same
    obtain rfl := Option.some.inj same
    exact ⟨rfl, rfl⟩
  · intro calls earlier events call next shown before made taken
    have limit := (limited_of_exec before earlier rfl).max
    have limitNow := (limited_of_exec (before.step taken) next rfl).max
    have grows := (step_spans taken).1
    exact made.grow (limitNow.trans limit.symm) grows

end

/-! ### The chain with the new block -/

theorem getElem?_countFailures (p : Node) (after : List Node) (i : Nat) :
    (countFailures p after)[i]? =
      (p :: after)[i]?.map fun node =>
        if i < after.length then { node with failed := node.failed + 1 } else node := by
  induction after generalizing p i with
  | nil => cases i <;> rfl
  | cons next after inductionHypothesis =>
      cases i with
      | zero => rfl
      | succ i =>
          rw [countFailures, List.getElem?_cons_succ, List.getElem?_cons_succ, inductionHypothesis,
            List.length_cons]
          simp only [Nat.add_lt_add_iff_right]

/-- `current` moves towards the end only. -/
theorem moveCurrent_forward (before between : List Node) (p : Node) (after : List Node) :
    before.length ≤ (moveCurrent before between p after).1.length := by
  induction after generalizing before between p with
  | nil => exact Nat.le_refl _
  | cons next after inductionHypothesis =>
      unfold moveCurrent
      simp only
      split
      · have further := inductionHypothesis
          (before ++ (between ++ [{ p with failed := p.failed + 1 }])) [] next
        rw [List.length_append] at further
        omega
      · exact inductionHypothesis before _ next

theorem append_forward (pool : Pool) (newNode : Node) :
    pool.before.length ≤ (pool.append newNode).before.length := by
  have forward := moveCurrent_forward pool.before [] pool.current pool.after
  unfold Pool.append
  split
  · rename_i before cut
    rw [cut] at forward
    exact forward
  · rename_i before current after cut
    rw [cut] at forward
    exact forward

theorem append_kept (pool : Pool) (newNode : Node) {i : Nat} {node : Node}
    (here : pool.chain[i]? = some node) :
    (pool.append newNode).chain[i]? = some
      (if pool.before.length ≤ i ∧ i + 1 < pool.chain.length then { node with failed := node.failed + 1 }
        else node) := by
  have within := (List.getElem?_eq_some_iff.mp here).1
  have length : pool.chain.length = pool.before.length + (pool.after.length + 1) := by
    rw [Pool.chain, List.length_append, List.length_cons]
  have inCounted : i < (pool.before ++ countFailures pool.current pool.after).length := by
    rw [List.length_append, length_countFailures, ← length]
    exact within
  rw [append_chain, List.getElem?_append_left inCounted]
  by_cases isBefore : i < pool.before.length
  · rw [if_neg (fun both => Nat.not_lt.mpr both.1 isBefore), List.getElem?_append_left isBefore, ← here,
      Pool.chain, List.getElem?_append_left isBefore]
  · have notBefore := Nat.le_of_not_lt isBefore
    rw [Pool.chain, List.getElem?_append_right notBefore] at here
    rw [List.getElem?_append_right notBefore, getElem?_countFailures, here, Option.map_some]
    have sameTest : i - pool.before.length < pool.after.length ↔
        pool.before.length ≤ i ∧ i + 1 < pool.chain.length := by omega
    simp only [sameTest]

theorem append_last (pool : Pool) (newNode : Node) :
    (pool.append newNode).chain.length = pool.chain.length + 1 ∧
      (pool.append newNode).chain[pool.chain.length]? = some newNode := by
  have length : (pool.before ++ countFailures pool.current pool.after).length = pool.chain.length := by
    rw [List.length_append, length_countFailures, Pool.chain, List.length_append, List.length_cons]
  rw [append_chain]
  constructor
  · rw [List.length_append, length, List.length_singleton]
  · rw [← length, List.getElem?_concat_length]

/-! ### The promise -/

/-- What `posix_memalign` may answer for a new block of the pool: a block that is not
in use. -/
structure Obtainable (pool : Pool) (addr : UInt64) : Prop where
  sound : (Event.block addr (pool.head.endPtr - pool.head.addr)).Sound
  nonNull : addr ≠ 0
  fresh : addr ∉ pool.chain.map Node.addr

/-- One block is behind the chain now, and the nodes from the old `pool->current` up to
the old last one, which is excepted, have one more failure. The new `pool->current` is
at the old one's place or behind it. The request is served at `m`, behind the header of
the new block. -/
structure Appends (pool next : Pool) (addr request m : UInt64) : Prop where
  length : next.chain.length = pool.chain.length + 1
  kept : ∀ i node, pool.chain[i]? = some node → next.chain[i]? = some
    (if pool.before.length ≤ i ∧ i + 1 < pool.chain.length then { node with failed := node.failed + 1 }
      else node)
  forward : pool.before.length ≤ next.before.length
  aligned : 32 ∣ m.toNat
  served : ∃ block, next.chain[pool.chain.length]? = some block ∧ block.addr = addr ∧
    block.endPtr.toNat = addr.toNat + (pool.head.endPtr - pool.head.addr).toNat ∧
    addr.toNat + 32 ≤ m.toNat ∧ m.toNat + request.toNat ≤ block.endPtr.toNat ∧
    block.last.toNat = m.toNat + request.toNat

/-- In every later state of a pool of the size, `mp_alloc_block` returns and appends a
block, if `posix_memalign` gives one. -/
def AlwaysAppends (size : UInt64) : Prop :=
  ∀ base image pool, (created size base).Sound → Later size base image pool →
    ∀ request, request ≤ image.max → ∀ addr, Obtainable pool addr →
      ∀ answers fuel, pool.chain.length ≤ fuel →
        ∃ reply next, Image.mpAllocBlock fuel image request (addr :: answers) = some reply ∧
          Later size base reply.image next ∧ Appends pool next addr request reply.pointer

section

variable {size base addr request : UInt64} {image : Image} {pool : Pool}

theorem Pool.MadeBy.psize_eq (made : pool.MadeBy size base) :
    pool.head.endPtr - pool.head.addr = size + sizeofNode := by
  have ⟨isAddr, isEnd⟩ := Prod.mk.inj made.head
  rw [isAddr, isEnd, UInt64.add_assoc (base + sizeofPool), UInt64.add_comm (base + sizeofPool),
    UInt64.add_sub_cancel, UInt64.add_comm]

/-- Where the new block and what it serves are. -/
theorem freshNode_toNat (made : pool.MadeBy size base) (fits : size.toNat + 32 < 2 ^ 64)
    (small : request ≤ pool.max) (obtainable : Obtainable pool addr) :
    (mpAlignPtr (addr + sizeofNode)).toNat = addr.toNat + 32 ∧
      (freshNode pool addr request).last.toNat = addr.toNat + 32 + request.toNat ∧
      (freshNode pool addr request).endPtr.toNat = addr.toNat + (size.toNat + 32) ∧
      (pool.head.endPtr - pool.head.addr).toNat = size.toNat + 32 ∧ request.toNat ≤ size.toNat := by
  have psize : (pool.head.endPtr - pool.head.addr).toNat = size.toNat + 32 := by
    rw [made.psize_eq, UInt64.toNat_add]
    exact Nat.mod_eq_of_lt fits
  have ⟨multiple, _, ends⟩ := obtainable.sound
  rw [psize] at ends
  have within : request.toNat ≤ size.toNat := by
    have limit : (limitOf size).toNat ≤ size.toNat := @max_le_size size base
    rw [made.max] at small
    exact (UInt64.le_iff_toNat_le.mp small).trans limit
  rw [← psize] at ends
  have ⟨aligned, last, stop⟩ := newBlock_toNat multiple psize ends within
  rw [psize] at stop
  exact ⟨aligned, last, stop, psize, within⟩

theorem append_appends (made : pool.MadeBy size base) (fits : size.toNat + 32 < 2 ^ 64)
    (small : request ≤ pool.max) (obtainable : Obtainable pool addr) :
    Appends pool (pool.append (freshNode pool addr request)) addr request
      (mpAlignPtr (addr + sizeofNode)) := by
  have ⟨aligned, last, ends, psize, within⟩ := freshNode_toNat made fits small obtainable
  have ⟨length, isLast⟩ := append_last pool (freshNode pool addr request)
  refine ⟨length, fun i node here => append_kept pool _ here, append_forward pool _, ?_, ?_⟩
  · rw [aligned]
    have multiple := obtainable.sound.1
    omega
  · refine ⟨_, isLast, rfl, ?_, ?_, ?_, ?_⟩
    · rw [ends, psize]
    · exact Nat.le_of_eq aligned.symm
    · rw [ends, aligned]
      omega
    · rw [last, aligned]

theorem alwaysAppends_of_fits (fits : size.toNat + 32 < 2 ^ 64) : AlwaysAppends size := by
  intro base image pool _ later request small addr obtainable answers fuel enough
  have models := later.models
  rw [later.max] at small
  have replies : mpAllocBlock pool request (addr :: answers) =
      some ⟨pool.append (freshNode pool addr request), mpAlignPtr (addr + sizeofNode), answers,
        [.block addr (pool.head.endPtr - pool.head.addr),
          .carved (mpAlignPtr (addr + sizeofNode)) request]⟩ := by
    simp only [mpAllocBlock, if_neg obtainable.nonNull]
    rfl
  have addrs : (pool.append (freshNode pool addr request)).chain.map Node.addr =
      pool.chain.map Node.addr ++ [addr] := append_chain_map (fun _ => rfl) pool _
  have distinct : ((pool.append (freshNode pool addr request)).chain.map Node.addr).Nodup := by
    rw [addrs, List.nodup_append]
    refine ⟨models.distinct, List.pairwise_singleton _ _, ?_⟩
    intro old member new isNew same
    exact obtainable.fresh (List.mem_singleton.mp isNew ▸ same ▸ member)
  obtain ⟨reply, replied, matched⟩ := mpAllocBlock_matches models enough replies distinct
  have spans : (pool.append (freshNode pool addr request)).chain.map Node.span =
      pool.chain.map Node.span ++ [(freshNode pool addr request).span] :=
    append_chain_map (fun _ => rfl) pool _
  have madeNow := later.made.grow (append_max pool _) spans
  refine ⟨reply, _, replied, matched.models.later madeNow, ?_⟩
  rw [matched.pointer]
  exact append_appends later.made fits small obtainable

/-- A block of fewer bytes than its header has none behind it. -/
theorem not_alwaysAppends_of_wraps (wraps : 2 ^ 64 ≤ size.toNat + 32) : ¬ AlwaysAppends size := by
  intro appends
  have bound := size.toNat_lt
  have atStart : (mpCreatePool size 64 []).MadeBy size 64 := ⟨rfl, rfl⟩
  have psize : ((mpCreatePool size 64 []).head.endPtr - (mpCreatePool size 64 []).head.addr).toNat =
      size.toNat + 32 - 2 ^ 64 := by
    rw [atStart.psize_eq, UInt64.toNat_add]
    show (size.toNat + 32) % 2 ^ 64 = _
    omega
  have whole : (size + sizeofPool + sizeofNode).toNat = size.toNat + 56 - 2 ^ 64 := by
    rw [UInt64.toNat_add, UInt64.toNat_add]
    show ((size.toNat + 24) % 2 ^ 64 + 32) % 2 ^ 64 = _
    omega
  have sound : (created size 64).Sound := by
    refine ⟨by decide, ?_, ?_⟩
    · rw [whole]
      omega
    · rw [whole]
      show 64 + (size.toNat + 56 - 2 ^ 64) < 2 ^ 64
      omega
  have later : Later size 64 (Image.mpCreatePool size 64 fun _ => ⟨0, 0, 0, 0⟩)
      (mpCreatePool size 64 []) :=
    ⟨atStart, rfl, rfl, rfl, rfl, linked_mpCreatePool rfl,
      by simp [mpCreatePool, Pool.chain, sizeofPool]⟩
  have obtainable : Obtainable (mpCreatePool size 64 []) 256 := by
    refine ⟨⟨by decide, ?_, ?_⟩, by decide, by simp [mpCreatePool, Pool.chain, sizeofPool]⟩
    · rw [psize]
      omega
    · rw [psize]
      show 256 + (size.toNat + 32 - 2 ^ 64) < 2 ^ 64
      omega
  obtain ⟨reply, next, _, _, appended⟩ :=
    appends 64 _ _ sound later 0 UInt64.zero_le 256 obtainable [] 1 (Nat.le_refl 1)
  obtain ⟨block, _, _, ends, behind, inside, _⟩ := appended.served
  rw [psize] at ends
  have isAddr : (256 : UInt64).toNat = 256 := rfl
  rw [isAddr] at ends behind
  omega

end

/-- Exactly for the sizes to which the header's can be added. -/
theorem alwaysAppends_iff (size : UInt64) : AlwaysAppends size ↔ size.toNat + 32 < 2 ^ 64 := by
  constructor
  · intro appends
    by_contra wraps
    exact not_alwaysAppends_of_wraps (Nat.le_of_not_lt wraps) appends
  · exact alwaysAppends_of_fits

/-- `mp_create_pool` asks for 24 bytes for it, and every further block is to have 0. -/
theorem wrappingSize_overruns : ¬ ∀ size, AlwaysAppends size :=
  fun always => not_alwaysAppends_of_wraps (by decide) (always 18446744073709551584)

end SimpleBasicComponents.MemoryPool
