import SimpleBasicComponents.MemoryPool.Overrun
import SimpleBasicComponents.MemoryPool.Refinement
import SimpleBasicComponents.Semantics.History
import Mathlib.Data.List.Forall2

/-!
The blocks that the memory pool visits and frees.

Owns: what a run that ends in `mp_destory_pool` visits through `next` and frees,
and the proof that these are the blocks the pool has obtained, each once, whatever
is written to the memory handed out, if and only if `head->next` was `NULL` in the
memory that `mp_create_pool` obtained.
-/

namespace SimpleBasicComponents.MemoryPool

open SimpleBasicComponents.Semantics

/-! ### Reading the events -/

namespace Event

/-- A block and where its memory ends. -/
def blockSpan : Event → Option (UInt64 × UInt64)
  | .block addr size => some (addr, addr + size)
  | _ => none

def freedAddr : Event → Option UInt64
  | .freedBlock addr => some addr
  | _ => none

end Event

def spansOf (events : List Event) : List (UInt64 × UInt64) := events.filterMap Event.blockSpan

/-- The blocks that `mp_alloc_block` obtained. -/
def createdOf (events : List Event) : List UInt64 := (spansOf events).map Prod.fst

/-- What was freed of the blocks and the pool. -/
def freedOf (events : List Event) : List UInt64 := events.filterMap Event.freedAddr

theorem spansOf_append (events shown : List Event) :
    spansOf (events ++ shown) = spansOf events ++ spansOf shown := List.filterMap_append

theorem createdOf_append (events shown : List Event) :
    createdOf (events ++ shown) = createdOf events ++ createdOf shown := by
  unfold createdOf
  rw [spansOf_append, List.map_append]

theorem freedOf_append (events shown : List Event) :
    freedOf (events ++ shown) = freedOf events ++ freedOf shown := List.filterMap_append

/-- What is visited has been obtained before, and a rewinding has come to all that
has. -/
structure Owned (trace : List Trace) : Prop where
  visits : Historically (fun earlier seen =>
    ∀ node, seen = .visited node → node ∈ createdOf (doneIn earlier)) trace
  resets : Historically (fun earlier seen =>
    seen = .did .rewound → (createdOf (doneIn earlier)).map .visited <:+ earlier) trace

/-- The run visits blocks it has obtained before and no others, all of them in every
`mp_reset_pool`, and frees each of them and the pool once and nothing else. -/
structure OwnBlocks (base : UInt64) (trace : List Trace) : Prop extends Owned trace where
  freed : freedOf (doneIn trace) = createdOf (doneIn trace) ++ [base]
  once : (freedOf (doneIn trace)).Nodup

/-! ### How the chain grows -/

/-- A request adds the blocks it obtained to the chain, one at most, frees none and
does not rewind. -/
structure Extends (pool : Pool) (next : Pool) (shown : List Event) : Prop where
  spans : next.chain.map Node.span = pool.chain.map Node.span ++ spansOf shown
  one : (spansOf shown).length ≤ 1
  none : freedOf shown = []
  steady : Event.rewound ∉ shown

/-- Events that are not about blocks. -/
def Event.Blockless (event : Event) : Prop :=
  event.blockSpan = none ∧ event.freedAddr = none ∧ event ≠ .rewound

section

variable {pool next : Pool} {shown : List Event} {size : UInt64} {depth : Nat}
  {answers : List UInt64} {reply : Reply}

theorem spansOf_blockless (blockless : ∀ event ∈ shown, event.Blockless) : spansOf shown = [] := by
  unfold spansOf
  rw [List.filterMap_eq_nil_iff]
  exact fun event member => (blockless event member).1

theorem freedOf_blockless (blockless : ∀ event ∈ shown, event.Blockless) : freedOf shown = [] := by
  unfold freedOf
  rw [List.filterMap_eq_nil_iff]
  exact fun event member => (blockless event member).2.1

theorem steady_of_blockless (blockless : ∀ event ∈ shown, event.Blockless) :
    Event.rewound ∉ shown :=
  fun member => (blockless _ member).2.2 rfl

/-- A call that leaves the spans of the chain alone. -/
theorem extends_of_blockless (same : next.chain.map Node.span = pool.chain.map Node.span)
    (blockless : ∀ event ∈ shown, event.Blockless) : Extends pool next shown := by
  refine ⟨?_, ?_, freedOf_blockless blockless, steady_of_blockless blockless⟩
  · rw [spansOf_blockless blockless, List.append_nil]
    exact same
  · rw [spansOf_blockless blockless]
    exact Nat.zero_le 1

/-- Events that are not about blocks before and behind. -/
theorem Extends.between {front back : List Event} (grows : Extends pool next shown)
    (frontBlockless : ∀ event ∈ front, event.Blockless) (backBlockless : ∀ event ∈ back, event.Blockless) :
    Extends pool next (front ++ shown ++ back) := by
  have spans : spansOf (front ++ shown ++ back) = spansOf shown := by
    rw [spansOf_append, spansOf_append, spansOf_blockless frontBlockless, spansOf_blockless backBlockless,
      List.nil_append, List.append_nil]
  refine ⟨?_, ?_, ?_, ?_⟩
  · rw [spans]
    exact grows.spans
  · rw [spans]
    exact grows.one
  · rw [freedOf_append, freedOf_append, freedOf_blockless frontBlockless, freedOf_blockless backBlockless,
      grows.none]
    rfl
  · rw [List.mem_append, List.mem_append, not_or, not_or]
    exact ⟨⟨steady_of_blockless frontBlockless, grows.steady⟩, steady_of_blockless backBlockless⟩

theorem Extends.behind {back : List Event} (grows : Extends pool next shown)
    (blockless : ∀ event ∈ back, event.Blockless) : Extends pool next (shown ++ back) := by
  have both := @Extends.between _ _ _ [] back grows (by simp) blockless
  rw [List.nil_append] at both
  exact both

theorem allocSmall_extends {place : UInt64 → UInt64}
    (replies : allocSmall place pool size answers = some reply) :
    Extends pool reply.pool reply.events := by
  unfold allocSmall at replies
  have spec := takeRoom_spec place size pool.current pool.after
  cases found : takeRoom place size pool.current pool.after with
  | some result =>
      obtain ⟨⟨current, after⟩, m⟩ := result
      rw [found] at spec replies
      obtain rfl := Option.some.inj replies
      obtain ⟨front, node, back, before, now, -⟩ := spec
      apply extends_of_blockless
      · unfold Pool.chain
        rw [List.map_append, List.map_append, before, now]
        simp [Node.span]
      · intro event member
        rw [List.mem_singleton.mp member]
        exact ⟨rfl, rfl, by simp⟩
  | none =>
      rw [found] at replies
      obtain ⟨addr, rest, -, ⟨-, rfl⟩ | ⟨-, rfl⟩⟩ := mpAllocBlock_cases replies
      · exact extends_of_blockless rfl (by simp)
      · exact ⟨append_chain_map (fun _ => rfl) pool _, Nat.le_refl 1, rfl, by simp⟩

/-- What a function does to the chain. -/
def AllocExtends (pool : Pool) (alloc : Pool → UInt64 → List UInt64 → Option Reply) : Prop :=
  ∀ size answers reply, alloc pool size answers = some reply → Extends pool reply.pool reply.events

variable {alloc : Pool → UInt64 → List UInt64 → Option Reply}

theorem pushLarge_extends {p : UInt64} (allocs : AllocExtends pool alloc)
    (replies : pushLarge alloc pool p size answers = some reply) :
    Extends pool reply.pool reply.events := by
  have largeBlockless : ∀ event ∈ [Event.large p size], event.Blockless := by
    intro event member
    rw [List.mem_singleton.mp member]
    exact ⟨rfl, rfl, by simp⟩
  have releasedBlockless : ∀ event ∈ [Event.released p], event.Blockless := by
    intro event member
    rw [List.mem_singleton.mp member]
    exact ⟨rfl, rfl, by simp⟩
  obtain ⟨entry, served, ⟨-, rfl⟩ | ⟨-, rfl⟩⟩ := pushLarge_cases replies
  · exact (allocs _ _ _ served).between largeBlockless releasedBlockless
  · have both := @Extends.between _ _ _ _ [] (allocs _ _ _ served) largeBlockless (by simp)
    rw [List.append_nil] at both
    exact ⟨both.spans, both.one, both.none, both.steady⟩

theorem mpAllocLarge_extends (allocs : AllocExtends pool alloc)
    (replies : mpAllocLarge alloc pool size answers = some reply) :
    Extends pool reply.pool reply.events := by
  obtain ⟨p, rest, -, ⟨-, rfl⟩ | ⟨-, large, -, rfl⟩ | ⟨-, -, pushes⟩⟩ := mpAllocLarge_cases replies
  · exact extends_of_blockless rfl (by simp)
  · refine extends_of_blockless rfl ?_
    intro event member
    rw [List.mem_singleton.mp member]
    exact ⟨rfl, rfl, by simp⟩
  · exact pushLarge_extends allocs pushes

theorem mpAlloc_extends : AllocExtends pool (mpAlloc depth) := by
  induction depth with
  | zero =>
      intro size answers reply replies
      contradiction
  | succ depth inductionHypothesis =>
      intro size answers reply replies
      unfold mpAlloc at replies
      split at replies
      · exact allocSmall_extends replies
      · exact mpAllocLarge_extends inductionHypothesis replies

theorem release_blockless (p : UInt64) : ∀ event ∈ release p, event.Blockless := by
  intro event member
  unfold release at member
  split at member
  · contradiction
  · rw [List.mem_singleton.mp member]
    exact ⟨rfl, rfl, by simp⟩

theorem freeEntry_blockless (p : UInt64) (entries : List Large) :
    ∀ event ∈ (freeEntry p entries).2, event.Blockless := by
  induction entries with
  | nil => simp [freeEntry]
  | cons entry rest inductionHypothesis =>
      unfold freeEntry
      split
      · exact release_blockless _
      · exact inductionHypothesis

theorem releaseLarge_blockless (pool : Pool) : ∀ event ∈ releaseLarge pool, event.Blockless := by
  intro event member
  have ⟨entry, _, released⟩ := List.mem_flatMap.mp member
  exact release_blockless entry.alloc event released

theorem step_extends {call : Call} (kept : call.request ≠ .resetPool)
    (taken : step (some pool) call = some (some next, shown)) : Extends pool next shown := by
  obtain ⟨asked, answers⟩ := call
  have request {reply : Reply} (isNext : some next = some reply.pool)
      (isShown : shown = reply.events ++ [.returned reply.pointer])
      (grows : Extends pool reply.pool reply.events) : Extends pool next shown := by
    obtain rfl := Option.some.inj isNext
    rw [isShown]
    apply grows.behind
    intro event member
    rw [List.mem_singleton.mp member]
    exact ⟨rfl, rfl, by simp⟩
  cases asked with
  | alloc n =>
      obtain ⟨reply, replies, isNext, isShown⟩ := answered_eq taken
      exact request isNext isShown (mpAlloc_extends _ _ _ replies)
  | nalloc n =>
      obtain ⟨reply, replies, isNext, isShown⟩ := answered_eq taken
      unfold mpNalloc at replies
      split at replies
      · exact request isNext isShown (allocSmall_extends replies)
      · exact request isNext isShown (mpAllocLarge_extends mpAlloc_extends replies)
  | calloc n =>
      obtain ⟨reply, replies, isNext, isShown⟩ := answered_eq taken
      obtain ⟨first, served, ⟨-, rfl⟩ | ⟨-, rfl⟩⟩ := mpCalloc_cases replies
      · exact request isNext isShown (mpAlloc_extends _ _ _ served)
      · apply request isNext isShown
        apply (mpAlloc_extends _ _ _ served).behind
        intro event member
        rw [List.mem_singleton.mp member]
        exact ⟨rfl, rfl, by simp⟩
  | memalign n alignment =>
      obtain ⟨reply, replies, isNext, isShown⟩ := answered_eq taken
      obtain ⟨p, rest, -, ⟨-, rfl⟩ | ⟨-, pushes⟩⟩ := mpMemalign_cases replies
      · exact request isNext isShown (extends_of_blockless rfl (by simp))
      · exact request isNext isShown (pushLarge_extends mpAlloc_extends pushes)
  | free p =>
      obtain ⟨same, rfl⟩ := Prod.mk.inj (Option.some.inj taken)
      obtain rfl := Option.some.inj same
      exact extends_of_blockless rfl (freeEntry_blockless p pool.large)
  | resetPool => exact absurd rfl kept
  | destoryPool => exact absurd (Prod.mk.inj (Option.some.inj taken)).1 (by simp)

/-- `mp_reset_pool` leaves the blocks where they are. -/
theorem mpResetPool_keeps (pool : Pool) :
    (mpResetPool pool).1.chain.map Node.span = pool.chain.map Node.span ∧
      spansOf (mpResetPool pool).2 = [] ∧ freedOf (mpResetPool pool).2 = [] := by
  have shown : (mpResetPool pool).2 = releaseLarge pool ++ [.rewound] := rfl
  rw [shown, spansOf_append, freedOf_append, spansOf_blockless (releaseLarge_blockless pool),
    freedOf_blockless (releaseLarge_blockless pool), mpResetPool_chain, List.map_map]
  exact ⟨rfl, rfl, rfl⟩

/-- What every call but `mp_destory_pool` does to the chain. -/
theorem step_spans {call : Call} (taken : step (some pool) call = some (some next, shown)) :
    next.chain.map Node.span = pool.chain.map Node.span ++ spansOf shown ∧
      (spansOf shown).length ≤ 1 ∧ freedOf shown = [] := by
  by_cases isReset : call.request = .resetPool
  · obtain ⟨asked, answers⟩ := call
    obtain rfl : asked = .resetPool := isReset
    have ⟨same, isShown⟩ := Prod.mk.inj (Option.some.inj taken)
    have isNext : (mpResetPool pool).1 = next := Option.some.inj same
    obtain ⟨spans, noSpans, noneFreed⟩ := mpResetPool_keeps pool
    have shows : (mpResetPool pool).2 = shown := isShown
    rw [← isNext, ← shows, noSpans, List.append_nil]
    exact ⟨spans, Nat.zero_le 1, noneFreed⟩
  · have grows := step_extends isReset taken
    exact ⟨grows.spans, grows.one, grows.none⟩

end

/-! ### Where the nodes are -/

/-- A node with its bytes. -/
def Node.range (node : Node) : Range := ⟨node.addr.toNat, node.endPtr.toNat - node.addr.toNat⟩

/-- The chain is the head in the block of the pool, and the blocks obtained. -/
structure Built (size base : UInt64) (pool : Pool) (events : List Event) : Prop where
  spans : pool.chain.map Node.span =
    (base + sizeofPool, base + sizeofPool + sizeofNode + size) :: spansOf events

section

variable {size base : UInt64} {pool : Pool} {events : List Event}

theorem Built.tail_addr (built : Built size base pool events) :
    pool.chain.tail.map Node.addr = createdOf events := by
  have tails := congrArg (fun spans => (spans.tail).map Prod.fst) built.spans
  simp only [List.tail_cons, ← List.map_tail, List.map_map] at tails
  exact tails

theorem Built.head_addr (built : Built size base pool events) :
    pool.head.addr = base + sizeofPool := by
  have ⟨rest, chain⟩ := chain_eq_head_cons pool
  have spans := built.spans
  rw [chain] at spans
  exact congrArg Prod.fst (List.cons.inj spans).1

/-- A run keeps the chain built of what it has obtained, and of one block a call at most. -/
theorem built_of_exec {calls : List Call} {session : Option Pool}
    (ran : (machine size base).Exec calls session events) :
    ∀ pool, session = some pool → Built size base pool events ∧
      pool.chain.length ≤ calls.length + 1 ∧ freedOf events = [] := by
  refine Machine.Exec.of_open (fun calls pool events => Built size base pool events ∧
    pool.chain.length ≤ calls.length + 1 ∧ freedOf events = []) (fun _ => rfl) ?_ ?_ ran
  · intro pool same
    obtain rfl := Option.some.inj same
    exact ⟨⟨rfl⟩, Nat.le_refl 1, rfl⟩
  · intro calls earlier events call next shown _ kept taken
    obtain ⟨built, few, noneFreed⟩ := kept
    obtain ⟨grown, one, none⟩ := step_spans taken
    have spans : next.chain.map Node.span =
        (base + sizeofPool, base + sizeofPool + sizeofNode + size) :: spansOf (events ++ shown) := by
      rw [grown, built.spans, spansOf_append, List.cons_append]
    refine ⟨⟨spans⟩, ?_, ?_⟩
    · have lengths := congrArg List.length grown
      rw [List.length_map, List.length_append, List.length_map] at lengths
      rw [List.length_append, List.length_singleton]
      omega
    · rw [freedOf_append, noneFreed, none]
      rfl

/-! ### What the blocks keep apart -/

theorem exists_of_forall₂ {Item Other : Type*} {relation : Item → Other → Prop}
    {items : List Item} {others : List Other} (same : List.Forall₂ relation items others)
    {item : Item} (member : item ∈ items) : ∃ other ∈ others, relation item other := by
  induction same with
  | nil => contradiction
  | @cons first other items others here rest inductionHypothesis =>
      cases List.mem_cons.mp member with
      | inl isFirst => exact ⟨other, List.mem_cons_self, isFirst ▸ here⟩
      | inr behind =>
          have ⟨later, isLater, related⟩ := inductionHypothesis behind
          exact ⟨later, List.mem_cons_of_mem _ isLater, related⟩

/-- Lists that are related item by item inherit what holds of every two items. -/
theorem pairwise_of_forall₂ {Item Other : Type*} {relation : Item → Other → Prop}
    {apart : Item → Item → Prop} {otherApart : Other → Other → Prop}
    (inherit : ∀ item next other nextOther, relation item other → relation next nextOther →
      otherApart other nextOther → apart item next)
    {items : List Item} {others : List Other} (same : List.Forall₂ relation items others)
    (pairwise : others.Pairwise otherApart) : items.Pairwise apart := by
  induction same with
  | nil => exact .nil
  | @cons item other items others here rest inductionHypothesis =>
      have ⟨fromFirst, fromRest⟩ := List.pairwise_cons.mp pairwise
      refine .cons ?_ (inductionHypothesis fromRest)
      intro next member
      have ⟨nextOther, isOther, there⟩ := exists_of_forall₂ rest member
      exact inherit _ _ _ _ here there (fromFirst nextOther isOther)

/-- The span of a block lies in what was obtained for it. -/
def SpanIn (span : UInt64 × UInt64) (range : Range) : Prop :=
  range.start ≤ span.1.toNat ∧ span.2.toNat ≤ range.stop

theorem spansOf_in_blocks (sound : ∀ event ∈ events, event.Sound) :
    List.Forall₂ SpanIn (spansOf events) (blocks events) := by
  induction events with
  | nil => exact .nil
  | cons event events inductionHypothesis =>
      have later := inductionHypothesis fun other member => sound other (List.mem_cons_of_mem _ member)
      have here := sound event List.mem_cons_self
      cases event with
      | block addr psize =>
          have ends : addr.toNat + psize.toNat < 2 ^ 64 := here.2.2
          refine .cons ⟨Nat.le_refl _, ?_⟩ later
          show (addr + psize).toNat ≤ addr.toNat + psize.toNat
          rw [UInt64.toNat_add]
          exact Nat.mod_le _ _
      | large | carved | zeroed | released | freedBlock | rewound | returned => exact later

theorem Built.in_blocks (built : Built size base pool events)
    (granted : BlocksGranted (created size base :: events)) (accepted : size.toNat + 56 < 2 ^ 64) :
    List.Forall₂ (fun node range => SpanIn node.span range) pool.chain
      (blocks (created size base :: events)) := by
  rw [← List.forall₂_map_left_iff, built.spans]
  refine .cons ?_ (spansOf_in_blocks fun event member =>
    granted.sound event (List.mem_cons_of_mem _ member))
  have ⟨whole, header, first, atEnd⟩ := granted.firstBlock accepted
  constructor
  · show base.toNat ≤ (base + sizeofPool).toNat
    omega
  · show (base + sizeofPool + sizeofNode + size).toNat ≤
      base.toNat + (size + sizeofPool + sizeofNode).toNat
    omega

theorem SpanIn.apart {node other : Node} {range otherRange : Range}
    (spanIn : SpanIn node.span range) (otherIn : SpanIn other.span otherRange)
    (apart : range.Apart otherRange) : node.range.Apart other.range := by
  have starts : range.start ≤ node.addr.toNat := spanIn.1
  have ends : node.endPtr.toNat ≤ range.start + range.size := spanIn.2
  have otherStarts : otherRange.start ≤ other.addr.toNat := otherIn.1
  have otherEnds : other.endPtr.toNat ≤ otherRange.start + otherRange.size := otherIn.2
  unfold Range.Apart Range.stop Node.range at *
  simp only at *
  omega

/-- The nodes with their bytes are apart. -/
theorem Built.apart (built : Built size base pool events)
    (granted : BlocksGranted (created size base :: events)) (accepted : size.toNat + 56 < 2 ^ 64) :
    pool.chain.Pairwise fun node other => node.range.Apart other.range := by
  have inherit : ∀ (node other : Node) (range otherRange : Range),
      SpanIn node.span range → SpanIn other.span otherRange → range.Apart otherRange →
      node.range.Apart other.range := fun _ _ _ _ => SpanIn.apart
  exact pairwise_of_forall₂ inherit (built.in_blocks granted accepted) granted.apart

/-- The header of a node is in its bytes. -/
theorem header_within {node : Node} (inside : pool.Inside) (member : node ∈ pool.chain) :
    (headerAt node.addr).Within node.range := by
  have ordered := inside node member
  have starts : node.addr.toNat + 32 ≤ node.last.toNat := ordered.1
  have ends : node.last.toNat ≤ node.endPtr.toNat := ordered.2
  constructor
  · exact Nat.le_refl _
  · show node.addr.toNat + 32 ≤ node.addr.toNat + (node.endPtr.toNat - node.addr.toNat)
    omega

/-- Nodes at one address would have bytes in common. -/
theorem Built.distinct (built : Built size base pool events)
    (granted : BlocksGranted (created size base :: events)) (accepted : size.toNat + 56 < 2 ^ 64)
    (inside : pool.Inside) : (pool.chain.map Node.addr).Nodup := by
  rw [List.Nodup, List.pairwise_map]
  apply (built.apart granted accepted).imp_of_mem
  intro node other isNode isOther apart same
  have orderedNode := inside node isNode
  have orderedOther := inside other isOther
  have starts : node.addr.toNat + 32 ≤ node.last.toNat := orderedNode.1
  have ends : node.last.toNat ≤ node.endPtr.toNat := orderedNode.2
  have otherStarts : other.addr.toNat + 32 ≤ other.last.toNat := orderedOther.1
  have otherEnds : other.last.toNat ≤ other.endPtr.toNat := orderedOther.2
  have sameNat := congrArg UInt64.toNat same
  unfold Range.Apart Range.stop Node.range at apart
  simp only at apart
  omega

/-! ### The memory held -/

def noteHeld : List Range → Event → List Range
  | held, .large addr size => ⟨addr.toNat, size.toNat⟩ :: held
  | held, .released addr => held.filter (·.start ≠ addr.toNat)
  | _, .rewound => []
  | held, _ => held

/-- The large blocks obtained since the last `mp_reset_pool` and not given back. -/
def heldLarge (events : List Event) : List Range := events.foldl noteHeld []

/-- The event obtains no memory that is held: a block of the chain meets neither another one nor a
large block, and a large block meets no block of the chain. -/
def Event.Unheld (earlier : List Event) : Event → Prop
  | .block addr size =>
      ∀ range ∈ blocks earlier ++ heldLarge earlier, range.Apart ⟨addr.toNat, size.toNat⟩
  | .large addr size => ∀ range ∈ blocks earlier, range.Apart ⟨addr.toNat, size.toNat⟩
  | _ => True

instance (earlier : List Event) (event : Event) : Decidable (event.Unheld earlier) := by
  unfold Event.Unheld
  split <;> infer_instance

/-- What is taken of the memory that the system lends: a block of the chain is aligned and has an
end, and nothing is obtained twice at a time. What was given back may be obtained again. -/
structure Lent (events : List Event) : Prop where
  sound : ∀ event ∈ events, event.Sound
  unheld : Historically Event.Unheld events

theorem Lent.earlier {before : List Event} (lent : Lent events) (isPrefix : before <+: events) :
    Lent before := by
  obtain ⟨rest, whole⟩ := isPrefix
  have unheld := lent.unheld
  rw [← whole] at unheld
  refine ⟨fun event member => lent.sound event ?_, unheld.earlier⟩
  rw [← whole]
  exact List.mem_append_left rest member

/-- The blocks of the chain are apart from each other and from the large blocks that are held. -/
theorem unheld_apart (unheld : Historically Event.Unheld events) :
    (blocks events).Pairwise Range.Apart ∧
      ∀ block ∈ blocks events, ∀ range ∈ heldLarge events, block.Apart range := by
  induction events using List.reverseRecOn with
  | nil => exact ⟨.nil, fun block member => absurd member List.not_mem_nil⟩
  | append_singleton events event inductionHypothesis =>
      obtain ⟨before, last⟩ := historically_snoc_iff.mp unheld
      obtain ⟨pairs, apart⟩ := inductionHypothesis before
      rw [blocks, List.filterMap_append, heldLarge, List.foldl_append]
      cases event with
      | block addr size =>
          have fresh : ∀ range ∈ blocks events ++ heldLarge events, range.Apart ⟨addr.toNat, size.toNat⟩ :=
            last
          constructor
          · rw [List.pairwise_append]
            refine ⟨pairs, List.pairwise_singleton _ _, ?_⟩
            intro range member other isNew
            rw [List.mem_singleton.mp isNew]
            exact fresh range (List.mem_append_left _ member)
          · intro range member other isHeld
            cases List.mem_append.mp member with
            | inl earlier => exact apart range earlier other isHeld
            | inr isNew =>
                rw [List.mem_singleton.mp isNew]
                exact (fresh other (List.mem_append_right _ isHeld)).symm
      | large addr size =>
          have fresh : ∀ range ∈ blocks events, range.Apart ⟨addr.toNat, size.toNat⟩ := last
          rw [show [Event.large addr size].filterMap Event.blockRange = [] from rfl, List.append_nil]
          refine ⟨pairs, ?_⟩
          intro range member other isHeld
          cases List.mem_cons.mp isHeld with
          | inl isNew => exact isNew ▸ fresh range member
          | inr earlier => exact apart range member other earlier
      | released addr =>
          rw [show [Event.released addr].filterMap Event.blockRange = [] from rfl, List.append_nil]
          exact ⟨pairs, fun range member other isHeld => apart range member other (List.mem_of_mem_filter isHeld)⟩
      | rewound =>
          rw [show [Event.rewound].filterMap Event.blockRange = [] from rfl, List.append_nil]
          exact ⟨pairs, fun range member other isHeld => absurd isHeld List.not_mem_nil⟩
      | carved | zeroed | freedBlock | returned =>
          rw [List.filterMap_cons_none rfl, List.filterMap_nil, List.append_nil]
          exact ⟨pairs, apart⟩

theorem Lent.blocksGranted (lent : Lent events) : BlocksGranted events :=
  ⟨lent.sound, (unheld_apart lent.unheld).1⟩

/-! ### The memory handed out -/

theorem handed_subset (events : List Event) {handed carvedBefore heldBefore : List Range}
    (before : ∀ range ∈ handed, range ∈ carvedBefore ∨ range ∈ heldBefore) :
    ∀ range ∈ events.foldl noteHanded handed,
      range ∈ events.foldl noteCarved carvedBefore ∨ range ∈ events.foldl noteHeld heldBefore := by
  induction events generalizing handed carvedBefore heldBefore with
  | nil => exact before
  | cons event events inductionHypothesis =>
      apply inductionHypothesis
      intro range member
      cases event with
      | carved addr size =>
          cases List.mem_cons.mp member with
          | inl same => exact .inl (same ▸ List.mem_cons_self)
          | inr earlier => exact (before range earlier).imp_left (List.mem_cons_of_mem _)
      | large addr size =>
          cases List.mem_cons.mp member with
          | inl same => exact .inr (same ▸ List.mem_cons_self)
          | inr earlier => exact (before range earlier).imp_right (List.mem_cons_of_mem _)
      | released addr =>
          have ⟨earlier, different⟩ := List.mem_filter.mp member
          exact (before range earlier).imp_right fun isHeld => List.mem_filter.mpr ⟨isHeld, different⟩
      | rewound => contradiction
      | block | zeroed | freedBlock | returned => exact before range member

/-- Where the ranges lie in their blocks, the headers keep clear of what is handed out. -/
theorem Built.clear (built : Built size base pool events) (laid : Laid size base pool events)
    (lent : Lent (created size base :: events)) (accepted : size.toNat + 56 < 2 ^ 64) :
    Clear pool (events.foldl noteHanded []) := by
  intro node inChain range isHanded
  have granted := lent.blocksGranted
  have within := header_within laid.inside inChain
  have apart := built.apart granted accepted
  cases @handed_subset events [] [] [] (by simp) range isHanded with
  | inl isCarved =>
      obtain ⟨owner, isOwner, starts, stops⟩ := laid.covered range isCarved
      have ordered := laid.inside owner isOwner
      have header : owner.addr.toNat + 32 ≤ owner.last.toNat := ordered.1
      have ends : owner.last.toNat ≤ owner.endPtr.toNat := ordered.2
      by_cases same : node = owner
      · rw [same]
        exact .inr (.inr (.inl starts))
      · have inOwner : range.Within owner.range := by
          constructor
          · exact Nat.le_trans (Nat.le_add_right _ 32) starts
          · show range.stop ≤ owner.addr.toNat + (owner.endPtr.toNat - owner.addr.toNat)
            omega
        have symmetric : Std.Symm fun node other : Node => node.range.Apart other.range :=
          ⟨fun _ _ => Range.Apart.symm⟩
        have separate := apart.forall inChain isOwner same
        exact ((separate.within within).symm.within inOwner).symm
  | inr isHeld =>
      obtain ⟨block, isBlock, spanIn⟩ :=
        exists_of_forall₂ (built.in_blocks granted accepted) inChain
      have apartBlock : block.Apart range := (unheld_apart lent.unheld).2 block isBlock range isHeld
      have ordered := laid.inside node inChain
      have starts : block.start ≤ node.addr.toNat := spanIn.1
      have stops : node.endPtr.toNat ≤ block.stop := spanIn.2
      have header : node.addr.toNat + 32 ≤ node.last.toNat := ordered.1
      have cursor : node.last.toNat ≤ node.endPtr.toNat := ordered.2
      have inBlock : (headerAt node.addr).Within block := by
        constructor
        · exact starts
        · show node.addr.toNat + 32 ≤ block.stop
          omega
      exact (apartBlock.within inBlock)

end

end SimpleBasicComponents.MemoryPool
