import SimpleBasicComponents.MemoryPool.Appending
import SimpleBasicComponents.MemoryPool.InitialContent
import SimpleBasicComponents.MemoryPool.Reuse

/-!
The blocks that a request of at most `pool->max` bytes looks at.

Owns: the exact position of `pool->current` and the exact value of every counter
`failed` in the states of a run. A block is counted once for every block appended
behind its successor, and given up when it has been counted six times: seven blocks
are searched at most, and what is given up is not looked at again, with
`mp_reset_pool` or without. Where the ranges handed out stay in their blocks the
memory holds just this, whatever is written to them.
-/

namespace SimpleBasicComponents.MemoryPool

open SimpleBasicComponents.Semantics

/-! ### What a step does to the chain -/

/-- What a node is apart from its cursor `last`. -/
def Node.fixed (node : Node) : (UInt64 × UInt64) × UInt64 := (node.span, node.failed)

/-- The nodes are where they were, with the counters that they had. -/
structure SameBlocks (pool next : Pool) : Prop where
  before : next.before.map Node.fixed = pool.before.map Node.fixed
  searched : (next.current :: next.after).map Node.fixed = (pool.current :: pool.after).map Node.fixed

/-- What no step can change: cursors may move and large blocks may come and go, and blocks may
be appended. -/
structure Stable (holds : Pool → Prop) : Prop where
  same : ∀ {pool next : Pool}, holds pool → SameBlocks pool next → holds next
  append : ∀ {pool : Pool} (newNode : Node), newNode.failed = 0 → holds pool →
    holds (pool.append newNode)

section

variable {holds : Pool → Prop} {pool : Pool} {size : UInt64} {answers : List UInt64} {reply : Reply}

theorem takeRoom_fixed {place : UInt64 → UInt64} {p served : Node} {after rest : List Node}
    {m : UInt64} (found : takeRoom place size p after = some ((served, rest), m)) :
    (served :: rest).map Node.fixed = (p :: after).map Node.fixed := by
  have spec := takeRoom_spec place size p after
  rw [found] at spec
  have ⟨front, node, back, whole, now, _⟩ := spec
  rw [whole, now, List.map_append, List.map_append, List.map_cons, List.map_cons]
  rfl

theorem allocSmall_stable {place : UInt64 → UInt64} (stable : Stable holds) (kept : holds pool)
    (replies : allocSmall place pool size answers = some reply) : holds reply.pool := by
  unfold allocSmall at replies
  split at replies
  · rename_i found
    obtain rfl := Option.some.inj replies
    exact stable.same kept ⟨rfl, takeRoom_fixed found⟩
  · obtain ⟨addr, rest, _, ⟨_, rfl⟩ | ⟨_, rfl⟩⟩ := mpAllocBlock_cases replies
    · exact kept
    · exact stable.append _ rfl kept

theorem pushLarge_stable {alloc : Pool → UInt64 → List UInt64 → Option Reply} {p : UInt64}
    (stable : Stable holds)
    (inner : ∀ entry, alloc pool sizeofLarge answers = some entry → holds entry.pool)
    (replies : pushLarge alloc pool p size answers = some reply) : holds reply.pool := by
  obtain ⟨entry, served, ⟨_, rfl⟩ | ⟨_, rfl⟩⟩ := pushLarge_cases replies
  · exact inner entry served
  · exact stable.same (inner entry served) ⟨rfl, rfl⟩

theorem mpAllocLarge_stable {alloc : Pool → UInt64 → List UInt64 → Option Reply}
    (stable : Stable holds) (kept : holds pool)
    (inner : ∀ rest entry, alloc pool sizeofLarge rest = some entry → holds entry.pool)
    (replies : mpAllocLarge alloc pool size answers = some reply) : holds reply.pool := by
  obtain ⟨p, rest, _, ⟨_, rfl⟩ | ⟨_, large, _, rfl⟩ | ⟨_, _, pushed⟩⟩ := mpAllocLarge_cases replies
  · exact kept
  · exact stable.same kept ⟨rfl, rfl⟩
  · exact pushLarge_stable stable (inner rest) pushed

theorem mpAlloc_stable {depth : Nat} (stable : Stable holds) (kept : holds pool)
    (replies : mpAlloc depth pool size answers = some reply) : holds reply.pool := by
  induction depth generalizing size answers reply with
  | zero => contradiction
  | succ depth inductionHypothesis =>
      unfold mpAlloc at replies
      split at replies
      · exact allocSmall_stable stable kept replies
      · exact mpAllocLarge_stable stable kept (fun rest entry => inductionHypothesis) replies

/-- Every request keeps it. -/
theorem Stable.step {call : Call} {next : Pool} {shown : List Event} (stable : Stable holds)
    (kept : holds pool) (taken : step (some pool) call = some (some next, shown)) : holds next := by
  obtain ⟨asked, answers⟩ := call
  cases asked with
  | alloc n =>
      have ⟨reply, replies, same, _⟩ := answered_eq taken
      obtain rfl := Option.some.inj same
      exact mpAlloc_stable stable kept replies
  | nalloc n =>
      have ⟨reply, replies, same, _⟩ := answered_eq taken
      obtain rfl := Option.some.inj same
      unfold mpNalloc at replies
      split at replies
      · exact allocSmall_stable stable kept replies
      · exact mpAllocLarge_stable stable kept (fun _ _ => mpAlloc_stable stable kept) replies
  | calloc n =>
      have ⟨reply, replies, same, _⟩ := answered_eq taken
      obtain rfl := Option.some.inj same
      obtain ⟨first, served, ⟨_, rfl⟩ | ⟨_, rfl⟩⟩ := mpCalloc_cases replies
      · exact mpAlloc_stable stable kept served
      · have here := mpAlloc_stable stable kept served
        exact here
  | memalign n alignment =>
      have ⟨reply, replies, same, _⟩ := answered_eq taken
      obtain rfl := Option.some.inj same
      obtain ⟨p, rest, _, ⟨_, rfl⟩ | ⟨_, pushed⟩⟩ := mpMemalign_cases replies
      · exact kept
      · exact pushLarge_stable stable (fun _ => mpAlloc_stable stable kept) pushed
  | free p =>
      have ⟨same, _⟩ := Prod.mk.inj (Option.some.inj taken)
      obtain rfl := Option.some.inj same
      exact stable.same kept ⟨rfl, rfl⟩
  | resetPool =>
      have ⟨same, _⟩ := Prod.mk.inj (Option.some.inj taken)
      obtain rfl := Option.some.inj same
      apply stable.same kept
      constructor
      · show (pool.before.map Node.rewind).map Node.fixed = _
        rw [List.map_map]
        rfl
      · show ((pool.current :: pool.after).map Node.rewind).map Node.fixed = _
        rw [List.map_map]
        rfl
  | destoryPool => exact absurd (Prod.mk.inj (Option.some.inj taken)).1 (by simp)

/-- Every run keeps it from any of its points on. -/
theorem Stable.exec {base : UInt64} {before after : List Call} {middle last : Pool}
    {seen events : List Event} (stable : Stable holds)
    (reached : (machine size base).Exec before (some middle) seen) (kept : holds middle)
    (ran : (machine size base).Exec (before ++ after) (some last) events) : holds last := by
  have throughout := Machine.Exec.since
    (fun _ session _ => ∀ pool, session = some pool → holds pool) reached
    (fun pool same => Option.some.inj same ▸ kept) ?_ ran
  · exact throughout last rfl
  · intro later label session found next shown _ _ earlier taken pool same
    subst same
    cases session with
    | none => contradiction
    | some pool => exact stable.step (earlier pool rfl) taken

end

/-! ### The counters -/

/-- The nodes before `current` have been counted six times, and no others; those from `current`
on have been counted for the blocks that came after their successor, and a node is given up
when there are six blocks behind it. -/
structure Searched (pool : Pool) : Prop where
  few : pool.after.length ≤ 6
  counted : ∀ i node, (pool.current :: pool.after)[i]? = some node →
    node.failed.toNat = pool.after.length - 1 - i
  given : ∀ node ∈ pool.before, node.failed.toNat = 6
  earned : pool.before = [] ∨ pool.after.length = 6

section

variable {pool next : Pool} {p : Node} {after : List Node}

/-- The counters of the nodes from `p` on when a block has been appended. -/
theorem counted_append {newNode : Node} (few : after.length ≤ 6)
    (counted : ∀ i node, (p :: after)[i]? = some node → node.failed.toNat = after.length - 1 - i)
    (zero : newNode.failed = 0) :
    ∀ i node, (countFailures p after ++ [newNode])[i]? = some node →
      node.failed.toNat = after.length + 1 - 1 - i := by
  intro i node here
  by_cases inside : i < after.length + 1
  · rw [List.getElem?_append_left (by rw [length_countFailures]; exact inside),
      getElem?_countFailures] at here
    have ⟨old, was, now⟩ := Option.map_eq_some_iff.mp here
    have before := counted i old was
    split at now
    · obtain rfl := now
      have one : (old.failed + 1).toNat = old.failed.toNat + 1 := by
        rw [UInt64.toNat_add]
        exact Nat.mod_eq_of_lt (by rw [before]; show _ + 1 < _; omega)
      rw [one, before]
      omega
    · obtain rfl := now
      omega
  · have length := (List.getElem?_eq_some_iff.mp here).1
    rw [List.length_append, length_countFailures, List.length_singleton] at length
    have atEnd : i = after.length + 1 := by omega
    rw [atEnd, ← length_countFailures p after, List.getElem?_concat_length] at here
    obtain rfl := Option.some.inj here
    rw [zero]
    show 0 = _
    omega

/-- The counters on a stretch of nodes decide nothing but themselves. -/
theorem counted_congr {nodes others : List Node} {bound : Nat → Nat}
    (same : nodes.map Node.fixed = others.map Node.fixed)
    (counted : ∀ i node, others[i]? = some node → node.failed.toNat = bound i) :
    ∀ i node, nodes[i]? = some node → node.failed.toNat = bound i := by
  intro i node here
  have lookup := congrArg (fun fields => fields[i]?) same
  simp only [List.getElem?_map, here, Option.map_some] at lookup
  have ⟨other, there, fields⟩ := Option.map_eq_some_iff.mp lookup.symm
  have failed : other.failed = node.failed := (Prod.mk.inj fields).2
  rw [← failed]
  exact counted i other there

theorem Searched.same (searched : Searched pool) (blocks : SameBlocks pool next) :
    Searched next := by
  have length : next.after.length = pool.after.length := by
    have lengths := congrArg List.length blocks.searched
    rw [List.length_map, List.length_map, List.length_cons, List.length_cons] at lengths
    omega
  refine ⟨length ▸ searched.few, ?_, ?_, ?_⟩
  · rw [length]
    exact counted_congr blocks.searched searched.counted
  · intro node member
    have ⟨i, here⟩ := List.getElem?_of_mem member
    apply @counted_congr _ _ (fun _ => 6) blocks.before ?_ i node here
    intro _ other there
    exact searched.given other (List.mem_of_getElem? there)
  · rw [length]
    cases searched.earned with
    | inl none =>
        have empty := blocks.before
        rw [none] at empty
        exact .inl (List.map_eq_nil_iff.mp empty)
    | inr six => exact .inr six

/-- The counters of the nodes from `p` on are low when there are at most five behind it. -/
theorem low_of_counted {k : Nat} (few : k ≤ 5) (length : after.length = k)
    (counted : ∀ i node, (p :: after)[i]? = some node → node.failed.toNat = k - 1 - i) :
    ∀ failed ∈ ((p :: after).map Node.failed).dropLast, ¬ failed > 4 := by
  intro failed member high
  have ⟨node, isNode, same⟩ := List.mem_map.mp (List.dropLast_subset _ member)
  have ⟨i, here⟩ := List.getElem?_of_mem isNode
  have exactly := counted i node here
  have above : 4 < node.failed.toNat := same ▸ UInt64.lt_iff_toNat_lt.mp high
  omega

/-- A new block goes behind the nodes that are not given up. -/
theorem Searched.append_of_cut {newNode : Node} {front : List Node} (zero : newNode.failed = 0)
    (cut : moveCurrent pool.before [] pool.current pool.after = (front, countFailures p after))
    (few : after.length ≤ 5)
    (counted : ∀ i node, (p :: after)[i]? = some node → node.failed.toNat = after.length - 1 - i)
    (given : ∀ node ∈ front, node.failed.toNat = 6) (earned : front = [] ∨ after.length = 5) :
    Searched (pool.append newNode) := by
  have length := length_countFailures p after
  have counts := counted_append (by omega) counted zero
  unfold Pool.append
  rw [cut]
  cases whole : countFailures p after with
  | nil =>
      rw [whole] at length
      contradiction
  | cons current rest =>
      rw [whole] at length counts
      have behind : (rest ++ [newNode]).length = after.length + 1 := by
        rw [List.length_append, List.length_singleton]
        exact length
      constructor
      · show (rest ++ [newNode]).length ≤ 6
        omega
      · show ∀ i node, (current :: (rest ++ [newNode]))[i]? = some node →
          node.failed.toNat = (rest ++ [newNode]).length - 1 - i
        rw [behind]
        exact counts
      · exact given
      · show front = [] ∨ (rest ++ [newNode]).length = 6
        rw [behind]
        exact earned.imp id (fun five => by omega)

theorem Searched.append (searched : Searched pool) (newNode : Node) (zero : newNode.failed = 0) :
    Searched (pool.append newNode) := by
  have counted := searched.counted
  by_cases full : pool.after.length = 6
  · cases here : pool.after with
    | nil =>
        rw [here] at full
        contradiction
    | cons next rest =>
        -- `current` has been counted for the five blocks behind its successor
        rw [here, List.length_cons] at full
        rw [here] at counted
        have five : rest.length = 5 := by omega
        have last : pool.current.failed.toNat = 5 := by
          rw [counted 0 pool.current rfl, List.length_cons, five]
        have gone : pool.current.failed > 4 := UInt64.lt_iff_toNat_lt.mpr (by rw [last]; decide)
        have later : ∀ i node, (next :: rest)[i]? = some node →
            node.failed.toNat = rest.length - 1 - i := by
          intro i node there
          rw [counted (i + 1) node there, List.length_cons]
          omega
        apply @append_of_cut pool next rest newNode
          (pool.before ++ [{ pool.current with failed := pool.current.failed + 1 }]) zero ?_
          (Nat.le_of_eq five) later ?_ (.inr five)
        · rw [here, moveCurrent]
          simp only [if_pos gone, List.nil_append]
          exact moveCurrent_stays (low_of_counted (Nat.le_of_eq five) rfl later)
        · intro node member
          cases List.mem_append.mp member with
          | inl before => exact searched.given node before
          | inr counting =>
              rw [List.mem_singleton.mp counting, UInt64.toNat_add, last]
              rfl
  · have few : pool.after.length ≤ 5 := by
      have most := searched.few
      omega
    have none : pool.before = [] := searched.earned.resolve_right full
    exact append_of_cut zero (moveCurrent_stays (low_of_counted few rfl counted)) few counted
      searched.given (.inl none)

theorem searched_stable : Stable Searched :=
  ⟨Searched.same, fun newNode zero searched => searched.append newNode zero⟩

theorem searched_mpCreatePool (size base : UInt64) : Searched (mpCreatePool size base []) := by
  refine ⟨Nat.zero_le _, ?_, fun node member => absurd member List.not_mem_nil, .inl rfl⟩
  intro i node here
  cases i with
  | zero =>
      obtain rfl := Option.some.inj here
      rfl
  | succ i => contradiction

/-- Nodes that are given up stay given up. -/
theorem moveCurrent_prefix (before between : List Node) (p : Node) (after : List Node) :
    before <+: (moveCurrent before between p after).1 := by
  induction after generalizing before between p with
  | nil => exact List.prefix_rfl
  | cons next after inductionHypothesis =>
      unfold moveCurrent
      simp only
      split
      · exact (List.prefix_append _ _).trans (inductionHypothesis _ [] next)
      · exact inductionHypothesis before _ next

theorem append_grows (pool : Pool) (newNode : Node) :
    pool.before <+: (pool.append newNode).before := by
  have isPrefix := moveCurrent_prefix pool.before [] pool.current pool.after
  unfold Pool.append
  split
  · rename_i cut
    rw [cut] at isPrefix
    exact isPrefix
  · rename_i cut
    rw [cut] at isPrefix
    exact isPrefix

theorem given_stable (given : List ((UInt64 × UInt64) × UInt64)) :
    Stable fun pool => given <+: pool.before.map Node.fixed :=
  ⟨fun kept blocks => blocks.before ▸ kept,
    fun newNode _ kept => kept.trans ((append_grows _ newNode).map Node.fixed)⟩

/-- Where `current` is and what has been counted, in terms of the whole chain. -/
theorem Searched.exactly (searched : Searched pool) :
    pool.before.length = pool.chain.length - 7 ∧
      ∀ i node, pool.chain[i]? = some node →
        node.failed.toNat = min 6 (pool.chain.length - 2 - i) := by
  have length : pool.chain.length = pool.before.length + (pool.after.length + 1) := by
    rw [Pool.chain, List.length_append, List.length_cons]
  have few := searched.few
  have earned : pool.before.length = 0 ∨ pool.after.length = 6 :=
    searched.earned.imp (fun none => by rw [none]; rfl) id
  refine ⟨by omega, ?_⟩
  intro i node here
  by_cases passed : i < pool.before.length
  · rw [Pool.chain, List.getElem?_append_left passed] at here
    rw [searched.given node (List.mem_of_getElem? here)]
    omega
  · rw [Pool.chain, List.getElem?_append_right (Nat.le_of_not_lt passed)] at here
    rw [searched.counted _ node here]
    omega

end

/-! ### In memory -/

/-- The nodes lie in the memory field by field. -/
theorem Linked.failed {nodes : Nodes} {stop : UInt64} {chain : List Node}
    (linked : Linked nodes stop chain) : ∀ node ∈ chain, (nodes node.addr).failed = node.failed := by
  induction chain with
  | nil =>
      intro node member
      contradiction
  | cons first rest inductionHypothesis =>
      intro node member
      cases List.mem_cons.mp member with
      | inl isFirst =>
          rw [isFirst, linked.1]
          rfl
      | inr behind => exact inductionHypothesis linked.2 node behind

/-- The memory holds the pool, `pool->current` is the seventh block from the end of the chain, or
the first, and every block has been counted for the blocks behind its successor. -/
structure SearchesSeven (image : Image) (pool : Pool) : Prop where
  models : Models image pool
  seventh : pool.before.length = pool.chain.length - 7
  counted : ∀ i node, pool.chain[i]? = some node →
    (image.nodes node.addr).failed.toNat = min 6 (pool.chain.length - 2 - i)

/-- In a run that rounds no cursor beyond the end of its block, `current` is the seventh block from
the end, or the first, and a block has been counted once for each block appended behind its
successor, six times at most, whatever is written to the memory handed out. What has been given up
is never searched again. -/
theorem exec_searchesSeven {size base : UInt64} {nodes : Nodes} {fuel : Nat} {before after : List Use}
    {middle last : Pool} {seen events : List Event} (accepted : size.toNat + 56 < 2 ^ 64)
    (null : (nodes (base + sizeofPool)).next = 0)
    (reached : (machine size base).Exec (before.map Use.call) (some middle) seen)
    (ran : (machine size base).Exec ((before ++ after).map Use.call) (some last) events)
    (lent : Lent (created size base :: events))
    (guarded : (machine size base).Guarded CallInside ((before ++ after).map Use.call))
    (enough : (before ++ after).length ≤ fuel) :
    ∃ image trace, (Image.machine fuel size base nodes).Exec (before ++ after) (some image) trace ∧
      doneIn trace = events ∧ SearchesSeven image last ∧
      middle.before.map Node.fixed <+: last.before.map Node.fixed := by
  obtain ⟨session, trace, ranImage, beside⟩ :=
    exec_accompanied accepted null (before ++ after) ran lent guarded enough
  obtain ⟨image, isImage, models, -⟩ := beside.models last rfl
  rw [isImage] at ranImage
  rw [List.map_append] at ran
  have searched : Searched last := searched_stable.exec .start (searched_mpCreatePool size base) ran
  have given := (given_stable (middle.before.map Node.fixed)).exec reached List.prefix_rfl ran
  have ⟨seventh, counted⟩ := searched.exactly
  refine ⟨image, trace, ranImage, beside.done, ⟨models, seventh, ?_⟩, given⟩
  intro i node here
  rw [models.linked.failed node (List.mem_of_getElem? here)]
  exact counted i node here

/-- Requests of 64 bytes, for which the first block is too small: each takes a block of its own,
and every byte handed out is set. -/
def eightBlocks : List Use :=
  (List.range 8).map fun i =>
    ⟨⟨.alloc 64, [UInt64.ofNat (4096 + 128 * i)]⟩, fun addr _ => ⟨addr, addr, addr, addr⟩⟩

/-- The blocks stay as they are when the pool is reset. -/
def eightBlocksReset : List Use := eightBlocks ++ [⟨⟨.resetPool, []⟩, fun _ cell => cell⟩]

theorem eightBlocks_searchesSeven : ∃ image trace pool,
    (Image.machine 9 64 32 fun _ => ⟨1, 2, 0, 3⟩).Exec eightBlocksReset (some image) trace ∧
      pool.chain.length = 9 ∧ SearchesSeven image pool := by
  have reached := (machine 64 32).exec_of_isSome (eightBlocks.map Use.call) (by decide)
  have ran := (machine 64 32).exec_of_isSome (eightBlocksReset.map Use.call) (by decide)
  obtain ⟨image, trace, ranImage, -, searches, -⟩ :=
    @exec_searchesSeven 64 32 (fun _ => ⟨1, 2, 0, 3⟩) 9 eightBlocks [⟨⟨.resetPool, []⟩, fun _ cell => cell⟩]
      _ _ _ _ (by decide) rfl reached ran ⟨by decide, by decide⟩ (Machine.guarded_of_meets (by decide))
      (by decide)
  exact ⟨image, trace, _, ranImage, by decide, searches⟩

end SimpleBasicComponents.MemoryPool
