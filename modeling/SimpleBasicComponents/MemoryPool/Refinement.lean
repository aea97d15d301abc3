import SimpleBasicComponents.MemoryPool.Memory
import SimpleBasicComponents.MemoryPool.Blocks

/-!
The memory pool in memory does what the pool of lists does.

Owns: when the memory holds the chain of a pool with `NULL` behind it, and for
every function the proof that it then returns what its counterpart on lists
returns, does the same, comes to nodes of the chain only, and leaves the chain of
the counterpart.
-/

namespace SimpleBasicComponents.MemoryPool

open SimpleBasicComponents.Semantics

/-! ### Linked nodes -/

/-- The node as memory holds it when its `next` is the given one. -/
def Node.cell (node : Node) (next : UInt64) : NodeCell :=
  { last := node.last, endPtr := node.endPtr, next := next, failed := node.failed }

/-- The address of the first node, or `stop` if there is none. -/
def linkTo (stop : UInt64) : List Node → UInt64
  | [] => stop
  | node :: _ => node.addr

/-- The memory holds the nodes, each linked to the next one and the last one to `stop`. -/
def Linked (nodes : Nodes) (stop : UInt64) : List Node → Prop
  | [] => True
  | node :: rest => nodes node.addr = node.cell (linkTo stop rest) ∧ Linked nodes stop rest

section

variable {nodes other : Nodes} {stop : UInt64} {node : Node} {front back rest : List Node}

theorem linked_append_iff :
    Linked nodes stop (front ++ back) ↔
      Linked nodes (linkTo stop back) front ∧ Linked nodes stop back := by
  induction front with
  | nil => exact (and_iff_right trivial).symm
  | cons node front inductionHypothesis =>
      have link : linkTo stop (front ++ back) = linkTo (linkTo stop back) front := by
        cases front <;> rfl
      rw [List.cons_append, Linked, Linked, link, inductionHypothesis, and_assoc]

theorem Linked.congr (same : ∀ addr ∈ rest.map Node.addr, other addr = nodes addr)
    (linked : Linked nodes stop rest) : Linked other stop rest := by
  induction rest with
  | nil => trivial
  | cons node rest inductionHypothesis =>
      have first := same node.addr List.mem_cons_self
      exact ⟨first.trans linked.1, inductionHypothesis
        (fun addr member => same addr (List.mem_cons_of_mem _ member)) linked.2⟩

theorem Linked.update {addr : UInt64} {cell : NodeCell} (outside : addr ∉ rest.map Node.addr)
    (linked : Linked nodes stop rest) : Linked (Function.update nodes addr cell) stop rest := by
  apply linked.congr
  intro other member
  apply Function.update_of_ne
  rintro rfl
  exact outside member

/-- Changing the fields of one node but `next`. -/
theorem Linked.replace {changed : Node} (sameAddr : changed.addr = node.addr)
    (linked : Linked nodes stop (front ++ node :: back))
    (distinct : ((front ++ node :: back).map Node.addr).Nodup) :
    Linked (Function.update nodes node.addr (changed.cell (nodes node.addr).next)) stop
      (front ++ changed :: back) := by
  have ⟨inFront, here, inBack⟩ := linked_append_iff.mp linked
  rw [List.map_append, List.map_cons] at distinct
  have ⟨_, distinctBack, apart⟩ := List.nodup_append.mp distinct
  rw [linked_append_iff]
  have link : linkTo stop (changed :: back) = linkTo stop (node :: back) := sameAddr
  refine ⟨?_, ?_, ?_⟩
  · rw [link]
    apply inFront.update
    intro member
    exact apart _ member _ List.mem_cons_self rfl
  · rw [sameAddr, Function.update_self, here]
    rfl
  · apply inBack.update
    exact (List.nodup_cons.mp distinctBack).1

/-- Linking another node behind the last one. -/
theorem Linked.extend {last : Node} {next : UInt64} (linked : Linked nodes stop (front ++ [last]))
    (distinct : ((front ++ [last]).map Node.addr).Nodup) :
    Linked (Function.update nodes last.addr { nodes last.addr with next := next }) next
      (front ++ [last]) := by
  have ⟨inFront, here, _⟩ := linked_append_iff.mp linked
  rw [List.map_append, List.map_singleton] at distinct
  have ⟨_, _, apart⟩ := List.nodup_append.mp distinct
  rw [linked_append_iff]
  refine ⟨?_, ?_, trivial⟩
  · apply inFront.update
    intro member
    exact apart _ member _ List.mem_cons_self rfl
  · rw [Function.update_self, here]
    rfl

end

/-! ### Loops over the chain -/

section

variable {nodes : Nodes} {fuel : Nat} {p : Node} {after : List Node}

/-- The address of the node behind `p`, if there is one, is found in `p->next`. -/
theorem Linked.next_eq (linked : Linked nodes 0 (p :: after)) :
    (nodes p.addr).next = linkTo 0 after := by
  rw [linked.1]
  rfl

theorem takeRoom_linked (place : UInt64 → UInt64) (size : UInt64)
    (linked : Linked nodes 0 (p :: after)) (nonNull : ∀ node ∈ after, node.addr ≠ 0)
    (enough : after.length < fuel) :
    ∃ seen, (∀ addr ∈ seen, addr ∈ after.map Node.addr) ∧
      match MemoryPool.takeRoom place size p after with
      | none => Image.takeRoom place size nodes fuel p.addr = some (none, seen)
      | some ((served, rest), m) =>
          ∃ front node back, p :: after = front ++ node :: back ∧
            served :: rest = front ++ { node with last := m + size } :: back ∧
            Image.takeRoom place size nodes fuel p.addr = some (some (node.addr, m), seen) := by
  induction after generalizing p fuel with
  | nil =>
      obtain ⟨fuel, rfl⟩ := Nat.exists_eq_add_of_lt enough
      unfold Image.takeRoom MemoryPool.takeRoom
      rw [linked.1]
      by_cases fits : p.endPtr - place p.last ≥ size
      · simp only [Node.cell, fits, if_true]
        exact ⟨[], by simp, [], p, [], rfl, rfl, rfl⟩
      · simp only [Node.cell, fits, if_false, linkTo, if_true]
        exact ⟨[], by simp, rfl⟩
  | cons next after inductionHypothesis =>
      obtain ⟨fuel, rfl⟩ : ∃ less, fuel = less + 1 := ⟨fuel - 1, by omega⟩
      have shorter : after.length < fuel := Nat.lt_of_succ_lt_succ enough
      have nonNullNext : next.addr ≠ 0 := nonNull next List.mem_cons_self
      have ⟨seen, within, later⟩ := inductionHypothesis linked.2
        (fun node member => nonNull node (List.mem_cons_of_mem _ member)) shorter
      unfold Image.takeRoom MemoryPool.takeRoom
      rw [linked.1]
      by_cases fits : p.endPtr - place p.last ≥ size
      · simp only [Node.cell, fits, if_true]
        exact ⟨[], by simp, [], p, next :: after, rfl, rfl, rfl⟩
      · simp only [Node.cell, fits, if_false, linkTo, nonNullNext]
        refine ⟨next.addr :: seen, ?_, ?_⟩
        · intro addr member
          cases List.mem_cons.mp member with
          | inl same => exact same ▸ List.mem_cons_self
          | inr behind => exact List.mem_cons_of_mem _ (within addr behind)
        · cases found : MemoryPool.takeRoom place size next after with
          | none =>
              rw [found] at later
              simp only
              rw [later]
          | some result =>
              obtain ⟨⟨served, rest⟩, m⟩ := result
              rw [found] at later
              obtain ⟨front, node, back, before, now, same⟩ := later
              refine ⟨p :: front, node, back, by rw [before]; rfl, by rw [now]; rfl, ?_⟩
              rw [same]

theorem linkTo_countFailures (stop : UInt64) (p : Node) (after : List Node) :
    linkTo stop (countFailures p after) = p.addr := by
  cases after <;> rfl

theorem linkTo_append {node counted : Node} (stop : UInt64) (same : counted.addr = node.addr)
    (between rest : List Node) :
    linkTo stop (between ++ [counted] ++ rest) = linkTo stop (between ++ [node]) := by
  cases between with
  | nil => exact same
  | cons first between => rfl

/-- The loop of `mp_alloc_block`: it counts the failures, ends at the last node, and
`current` ends up where it does on the lists. -/
theorem moveCurrent_linked (before between : List Node)
    (linked : Linked nodes 0 (p :: after)) (distinct : ((p :: after).map Node.addr).Nodup)
    (nonNull : ∀ node ∈ after, node.addr ≠ 0) (enough : after.length < fuel) :
    ∃ moved front last,
      Image.moveCurrent fuel nodes (linkTo 0 (between ++ [p])) p.addr = some moved ∧
      countFailures p after = front ++ [last] ∧ moved.p = last.addr ∧
      Linked moved.nodes 0 (countFailures p after) ∧
      moved.current = linkTo 0 (MemoryPool.moveCurrent before between p after).2 ∧
      (∀ addr, addr ∉ (p :: after).map Node.addr → moved.nodes addr = nodes addr) ∧
      ∀ addr ∈ moved.seen, addr ∈ after.map Node.addr := by
  induction after generalizing p fuel nodes before between with
  | nil =>
      obtain ⟨fuel, rfl⟩ : ∃ less, fuel = less + 1 := ⟨fuel - 1, by omega⟩
      refine ⟨⟨nodes, linkTo 0 (between ++ [p]), p.addr, []⟩, [], p, ?_, rfl, rfl, linked, rfl,
        fun _ _ => rfl, by simp⟩
      exact if_pos linked.next_eq
  | cons next after inductionHypothesis =>
      obtain ⟨fuel, rfl⟩ : ∃ less, fuel = less + 1 := ⟨fuel - 1, by omega⟩
      have shorter : after.length < fuel := Nat.lt_of_succ_lt_succ enough
      have nonNullNext : next.addr ≠ 0 := nonNull next List.mem_cons_self
      have ⟨outside, distinctRest⟩ := List.nodup_cons.mp distinct
      have nonNullRest : ∀ node ∈ after, node.addr ≠ 0 :=
        fun node member => nonNull node (List.mem_cons_of_mem _ member)
      have here : nodes p.addr = p.cell next.addr := linked.1
      have linkedRest : Linked (Function.update nodes p.addr
          (({ p with failed := p.failed + 1 } : Node).cell next.addr)) 0 (next :: after) :=
        linked.2.update outside
      -- the next turn begins with the same `current` on both sides
      have turn : ∃ passed rest, MemoryPool.moveCurrent passed rest next after =
            MemoryPool.moveCurrent before between p (next :: after) ∧
          ((p.failed > 4 ∧ linkTo 0 (rest ++ [next]) = next.addr) ∨
            (¬ p.failed > 4 ∧ linkTo 0 (rest ++ [next]) = linkTo 0 (between ++ [p]))) := by
        rw [MemoryPool.moveCurrent]
        by_cases often : p.failed > 4
        · simp only [often, if_true]
          exact ⟨_, _, rfl, .inl ⟨trivial, rfl⟩⟩
        · simp only [often, if_false]
          exact ⟨_, _, rfl, .inr ⟨not_false, @linkTo_append p { p with failed := p.failed + 1 } 0 rfl between [next]⟩⟩
      obtain ⟨passed, rest, sameLists, sameCurrent⟩ := turn
      obtain ⟨moved, front, last, moves, counted, atLast, linkedMoved, current, others, seen⟩ :=
        inductionHypothesis passed rest linkedRest distinctRest nonNullRest shorter
      refine ⟨{ moved with seen := next.addr :: moved.seen },
        { p with failed := p.failed + 1 } :: front, last, ?_, ?_, atLast, ⟨?_, linkedMoved⟩, ?_, ?_, ?_⟩
      · unfold Image.moveCurrent
        simp only
        rw [here]
        simp only [Node.cell] at moves ⊢
        cases sameCurrent with
        | inl often =>
            rw [often.2] at moves
            simp only [nonNullNext, often.1, if_true, if_false, moves]
        | inr few =>
            rw [few.2] at moves
            simp only [nonNullNext, few.1, if_false, moves]
      · unfold countFailures
        rw [counted]
        rfl
      · show moved.nodes p.addr = _
        rw [others p.addr outside, Function.update_self, linkTo_countFailures]
      · rw [← sameLists]
        exact current
      · intro addr away
        rw [List.map_cons, List.mem_cons, not_or] at away
        rw [others addr away.2, Function.update_of_ne away.1]
      · intro addr member
        cases List.mem_cons.mp member with
        | inl same => exact same ▸ List.mem_cons_self
        | inr behind => exact List.mem_cons_of_mem _ (seen addr behind)

end

/-! ### What is done and what is seen -/

@[simp] theorem doneIn_nil : doneIn [] = [] := rfl

@[simp] theorem doneIn_append (front back : List Trace) :
    doneIn (front ++ back) = doneIn front ++ doneIn back := List.filterMap_append

@[simp] theorem doneIn_cons_did (event : Event) (rest : List Trace) :
    doneIn (.did event :: rest) = event :: doneIn rest := rfl

@[simp] theorem doneIn_cons_visited (node : UInt64) (rest : List Trace) :
    doneIn (.visited node :: rest) = doneIn rest := rfl

@[simp] theorem doneIn_did (events : List Event) : doneIn (events.map .did) = events := by
  induction events with
  | nil => rfl
  | cons event events inductionHypothesis =>
      rw [List.map_cons, doneIn_cons_did, inductionHypothesis]

@[simp] theorem doneIn_visited (seen : List UInt64) : doneIn (seen.map .visited) = [] := by
  induction seen with
  | nil => rfl
  | cons node seen inductionHypothesis =>
      rw [List.map_cons, doneIn_cons_visited, inductionHypothesis]

/-- The nodes come to are nodes of the chain behind the head. -/
def SeenIn (pool : Pool) (shown : List Trace) : Prop :=
  ∀ node, .visited node ∈ shown → node ∈ pool.chain.tail.map Node.addr

section

variable {pool : Pool} {shown more : List Trace}

theorem seenIn_did {events : List Event} : SeenIn pool (events.map .did) := by
  intro node member
  have ⟨_, _, same⟩ := List.mem_map.mp member
  contradiction

theorem seenIn_single {event : Event} : SeenIn pool [.did event] := by
  intro node member
  have same := List.mem_singleton.mp member
  contradiction

theorem seenIn_visited {seen : List UInt64}
    (within : ∀ addr ∈ seen, addr ∈ pool.chain.tail.map Node.addr) :
    SeenIn pool (seen.map .visited) := by
  intro node member
  have ⟨addr, isSeen, same⟩ := List.mem_map.mp member
  obtain rfl := Trace.visited.inj same
  exact within addr isSeen

theorem SeenIn.append (first : SeenIn pool shown) (second : SeenIn pool more) :
    SeenIn pool (shown ++ more) := by
  intro node member
  cases List.mem_append.mp member with
  | inl before => exact first node before
  | inr behind => exact second node behind

theorem SeenIn.cons_did {event : Event} (rest : SeenIn pool shown) :
    SeenIn pool (.did event :: shown) := seenIn_single.append rest

/-- The nodes after `current` are behind the head. -/
theorem mem_tail_of_mem_after {addr : UInt64} (member : addr ∈ pool.after.map Node.addr) :
    addr ∈ pool.chain.tail.map Node.addr := by
  unfold Pool.chain
  cases pool.before with
  | nil => exact member
  | cons head before =>
      show addr ∈ (before ++ pool.current :: pool.after).map Node.addr
      rw [List.map_append, List.map_cons]
      exact List.mem_append_right _ (List.mem_cons_of_mem _ member)

end

/-! ### The pool in memory -/

/-- The memory holds the pool, with `NULL` behind the last node of its chain. -/
structure Models (image : Image) (pool : Pool) : Prop where
  max : image.max = pool.max
  head : image.head = linkTo 0 pool.chain
  current : image.current = pool.current.addr
  large : image.large = pool.large
  linked : Linked image.nodes 0 pool.chain
  nonNull : ∀ node ∈ pool.chain, node.addr ≠ 0
  distinct : (pool.chain.map Node.addr).Nodup

/-- In memory a function returns and does what it does on lists. -/
structure Matches (image : Image) (pool : Pool) (memory : Image.Reply) (reply : Reply) : Prop where
  models : Models memory.image reply.pool
  pointer : memory.pointer = reply.pointer
  answers : memory.answers = reply.answers
  done : doneIn memory.shown = reply.events
  seen : SeenIn pool memory.shown
  handed : memory.image.handed = image.handed

/-- What `mp_create_pool` leaves when the memory it obtains has `NULL` at `head->next`. -/
theorem linked_mpCreatePool {size base : UInt64} {nodes : Nodes}
    (null : (nodes (base + sizeofPool)).next = 0) :
    Linked (Image.mpCreatePool size base nodes).nodes 0 (mpCreatePool size base []).chain := by
  refine ⟨?_, trivial⟩
  show Function.update nodes (base + sizeofPool) _ (base + sizeofPool) = _
  rw [Function.update_self, null]
  rfl

section

variable {image : Image} {pool : Pool} {fuel depth : Nat} {size : UInt64} {answers : List UInt64}
  {reply : Reply}

theorem Models.unchanged (models : Models image pool) (pointer : UInt64) (rest : List UInt64) :
    Matches image pool ⟨image, pointer, rest, []⟩ ⟨pool, pointer, rest, []⟩ :=
  ⟨models, rfl, rfl, rfl, by simp [SeenIn], rfl⟩

theorem chain_eq_head_cons (pool : Pool) : ∃ rest, pool.chain = pool.head :: rest := by
  unfold Pool.chain Pool.head
  cases pool.before with
  | nil => exact ⟨_, rfl⟩
  | cons head before => exact ⟨_, rfl⟩

theorem Models.head_addr (models : Models image pool) : image.head = pool.head.addr := by
  have ⟨rest, chain⟩ := chain_eq_head_cons pool
  rw [models.head, chain]
  rfl

theorem Models.head_endPtr (models : Models image pool) :
    (image.nodes image.head).endPtr = pool.head.endPtr := by
  have ⟨rest, chain⟩ := chain_eq_head_cons pool
  have linked := models.linked
  rw [chain] at linked
  rw [models.head_addr, linked.1]
  rfl

theorem Models.currentLinked (models : Models image pool) :
    Linked image.nodes 0 (pool.current :: pool.after) := (linked_append_iff.mp models.linked).2

theorem after_length_lt (enough : pool.chain.length ≤ fuel) :
    pool.after.length < fuel := by
  unfold Pool.chain at enough
  rw [List.length_append, List.length_cons] at enough
  omega

theorem Models.after_nonNull (models : Models image pool) : ∀ node ∈ pool.after, node.addr ≠ 0 := by
  intro node member
  apply models.nonNull
  exact List.mem_append_right _ (List.mem_cons_of_mem _ member)

theorem append_large (pool : Pool) (newNode : Node) : (pool.append newNode).large = pool.large := by
  unfold Pool.append
  split <;> rfl

/-- Where `current` is after the loop of `mp_alloc_block`. -/
theorem append_current_addr (pool : Pool) (newNode : Node)
    (nonNull : ∀ node ∈ (pool.append newNode).chain, node.addr ≠ 0) :
    (pool.append newNode).current.addr =
      let moved := linkTo 0 (MemoryPool.moveCurrent pool.before [] pool.current pool.after).2
      if moved = 0 then newNode.addr else moved := by
  have isCurrent : (pool.append newNode).current ∈ (pool.append newNode).chain :=
    List.mem_append_right _ List.mem_cons_self
  have currentNonNull := nonNull _ isCurrent
  unfold Pool.append at currentNonNull ⊢
  generalize MemoryPool.moveCurrent pool.before [] pool.current pool.after = moved
    at currentNonNull ⊢
  obtain ⟨before, rest⟩ := moved
  cases rest with
  | nil => rfl
  | cons current after => exact (if_neg currentNonNull).symm

theorem countFailures_addr (p : Node) (after : List Node) :
    (countFailures p after).map Node.addr = (p :: after).map Node.addr :=
  countFailures_map (fun _ => rfl) p after

/-- The new block is linked behind the last node. -/
theorem mpAllocBlock_matches (models : Models image pool) (enough : pool.chain.length ≤ fuel)
    (replies : MemoryPool.mpAllocBlock pool size answers = some reply)
    (distinct : (reply.pool.chain.map Node.addr).Nodup) :
    ∃ memory, Image.mpAllocBlock fuel image size answers = some memory ∧
      Matches image pool memory reply := by
  obtain ⟨addr, rest, rfl, ⟨rfl, rfl⟩ | ⟨nonNull, rfl⟩⟩ := mpAllocBlock_cases replies
  · exact ⟨_, rfl, models.unchanged 0 rest⟩
  · have chain := append_chain pool (freshNode pool addr size)
    have addrs : (pool.append (freshNode pool addr size)).chain.map Node.addr =
        pool.chain.map Node.addr ++ [addr] := append_chain_map (fun _ => rfl) pool _
    have distinctBoth : (pool.chain.map Node.addr ++ [addr]).Nodup := addrs ▸ distinct
    have outside : addr ∉ pool.chain.map Node.addr := by
      intro member
      exact (List.nodup_append.mp distinctBoth).2.2 _ member _ List.mem_cons_self rfl
    have written : Linked (Function.update image.nodes addr ((freshNode pool addr size).cell 0)) 0
        pool.chain :=
      models.linked.update outside
    have ⟨writtenBefore, writtenRest⟩ := linked_append_iff.mp written
    have distinctChain := models.distinct
    unfold Pool.chain at distinctChain
    rw [List.map_append] at distinctChain
    have ⟨_, distinctRest, apartFront⟩ := List.nodup_append.mp distinctChain
    obtain ⟨moved, front, last, moves, counted, atLast, linkedMoved, current, others, seen⟩ :=
      moveCurrent_linked pool.before [] writtenRest distinctRest models.after_nonNull
        (after_length_lt enough)
    have isCell : Function.update image.nodes addr ((freshNode pool addr size).cell 0) =
        Function.update image.nodes addr
          { last := mpAlignPtr (addr + sizeofNode) + size
            endPtr := addr + ((image.nodes image.head).endPtr - image.head), next := 0, failed := 0 } := by
      rw [models.head_endPtr, models.head_addr]
      rfl
    rw [isCell] at moves
    have start : linkTo 0 ([] ++ [pool.current]) = image.current := models.current.symm
    rw [start, ← models.current] at moves
    have away : addr ∉ (pool.current :: pool.after).map Node.addr := by
      intro member
      apply outside
      unfold Pool.chain
      rw [List.map_append]
      exact List.mem_append_right _ member
    have awayFront : addr ∉ pool.before.map Node.addr := by
      intro member
      apply outside
      unfold Pool.chain
      rw [List.map_append]
      exact List.mem_append_left _ member
    have lastIn : last.addr ∈ (pool.current :: pool.after).map Node.addr := by
      rw [← countFailures_addr, counted, List.map_append]
      exact List.mem_append_right _ List.mem_cons_self
    have distinctCounted : ((front ++ [last]).map Node.addr).Nodup := by
      rw [← counted, countFailures_addr]
      exact distinctRest
    have nonNullNow : ∀ node ∈ (pool.append (freshNode pool addr size)).chain, node.addr ≠ 0 := by
      intro node member
      have isAddr := @List.mem_map_of_mem _ _ _ _ Node.addr member
      rw [addrs] at isAddr
      cases List.mem_append.mp isAddr with
      | inl earlier =>
          have ⟨other, inChain, same⟩ := List.mem_map.mp earlier
          rw [← same]
          exact models.nonNull other inChain
      | inr isLast =>
          rw [List.mem_singleton.mp isLast]
          exact nonNull
    refine ⟨⟨{ image with
        nodes := Function.update moved.nodes moved.p { moved.nodes moved.p with next := addr }
        current := if moved.current = 0 then addr else moved.current },
      mpAlignPtr (addr + sizeofNode), rest,
      .did (.block addr ((image.nodes image.head).endPtr - image.head)) ::
        moved.seen.map .visited ++ [.did (.carved (mpAlignPtr (addr + sizeofNode)) size)]⟩, ?_, ?_⟩
    · unfold Image.mpAllocBlock
      simp only
      rw [if_neg nonNull, moves]
    · refine ⟨⟨?_, ?_, ?_, ?_, ?_, nonNullNow, distinct⟩, rfl, rfl, ?_, ?_, rfl⟩
      · exact models.max.trans (append_max pool _).symm
      · show image.head = linkTo 0 (pool.append (freshNode pool addr size)).chain
        rw [models.head, chain]
        unfold Pool.chain
        cases pool.before with
        | cons first before => rfl
        | nil =>
            rw [List.nil_append, List.nil_append, linkTo]
            cases pool.after <;> rfl
      · show (if moved.current = 0 then addr else moved.current) = _
        rw [current]
        exact (append_current_addr pool (freshNode pool addr size) nonNullNow).symm
      · exact models.large.trans (append_large pool _).symm
      · show Linked _ 0 (pool.append (freshNode pool addr size)).chain
        rw [chain, atLast, linked_append_iff, linked_append_iff]
        refine ⟨⟨?_, ?_⟩, ?_, trivial⟩
        · rw [linkTo_countFailures]
          apply Linked.update
          · intro member
            exact apartFront _ member _ lastIn rfl
          · apply writtenBefore.congr
            intro other member
            rw [others other fun inRest => apartFront _ member _ inRest rfl]
        · rw [counted]
          exact (counted ▸ linkedMoved).extend distinctCounted
        · have different : addr ≠ last.addr := by
            rintro rfl
            exact away lastIn
          show Function.update _ _ _ addr = _
          rw [Function.update_of_ne different, others addr away, Function.update_self]
          rfl
      · rw [models.head_endPtr, models.head_addr]
        simp
      · apply SeenIn.append
        · apply SeenIn.cons_did
          apply seenIn_visited
          intro other member
          exact mem_tail_of_mem_after (seen other member)
        · exact seenIn_single

/-- A node with room serves the request. -/
theorem Models.take {front back : List Node} {node : Node} {last : UInt64}
    {current : Node} {after : List Node} (models : Models image pool)
    (before : pool.current :: pool.after = front ++ node :: back)
    (now : current :: after = front ++ { node with last := last } :: back) :
    Models { image with
        nodes := Function.update image.nodes node.addr { image.nodes node.addr with last := last } }
      { pool with current := current, after := after } := by
  have chain : pool.chain = pool.before ++ front ++ node :: back := by
    unfold Pool.chain
    rw [before, List.append_assoc]
  have chainNow : ({ pool with current := current, after := after } : Pool).chain =
      pool.before ++ front ++ { node with last := last } :: back := by
    unfold Pool.chain
    rw [now, List.append_assoc]
  have sameAddrs : ({ pool with current := current, after := after } : Pool).chain.map Node.addr =
      pool.chain.map Node.addr := by
    rw [chain, chainNow]
    simp
  have sameCurrent : current.addr = pool.current.addr := by
    cases front with
    | nil =>
        have first := (List.cons.inj before).1
        have firstNow := (List.cons.inj now).1
        rw [first, firstNow]
    | cons first front =>
        have first := (List.cons.inj before).1
        have firstNow := (List.cons.inj now).1
        rw [first, firstNow]
  have linked := models.linked
  have distinct := models.distinct
  rw [chain] at linked distinct
  have cell : { image.nodes node.addr with last := last } =
      ({ node with last := last } : Node).cell (image.nodes node.addr).next := by
    rw [(linked_append_iff.mp linked).2.1]
    rfl
  refine ⟨models.max, ?_, models.current.trans sameCurrent.symm, models.large, ?_, ?_, ?_⟩
  · have heads := congrArg List.head? sameAddrs
    have ⟨_, isChain⟩ := chain_eq_head_cons pool
    have ⟨_, isChainNow⟩ := chain_eq_head_cons { pool with current := current, after := after }
    rw [isChain, isChainNow] at heads
    show image.head = _
    rw [models.head, isChain, isChainNow]
    exact (Option.some.inj heads).symm
  · rw [chainNow, cell]
    exact linked.replace rfl distinct
  · intro other member
    have isAddr := @List.mem_map_of_mem _ _ _ _ Node.addr member
    rw [sameAddrs] at isAddr
    have ⟨original, inChain, same⟩ := List.mem_map.mp isAddr
    rw [← same]
    exact models.nonNull original inChain
  · rw [sameAddrs]
    exact models.distinct

theorem allocSmall_matches {place : UInt64 → UInt64} (models : Models image pool)
    (enough : pool.chain.length ≤ fuel)
    (replies : MemoryPool.allocSmall place pool size answers = some reply)
    (distinct : (reply.pool.chain.map Node.addr).Nodup) :
    ∃ memory, Image.allocSmall fuel place image size answers = some memory ∧
      Matches image pool memory reply := by
  have ⟨seen, within, found⟩ := takeRoom_linked place size models.currentLinked
    models.after_nonNull (after_length_lt enough)
  rw [← models.current] at found
  have seenIn : SeenIn pool (seen.map .visited) :=
    seenIn_visited fun addr member => mem_tail_of_mem_after (within addr member)
  unfold MemoryPool.allocSmall at replies
  unfold Image.allocSmall
  cases searched : MemoryPool.takeRoom place size pool.current pool.after with
  | none =>
      rw [searched] at found replies
      obtain ⟨memory, blocks, matched⟩ := mpAllocBlock_matches models enough replies distinct
      rw [found]
      simp only
      rw [blocks]
      refine ⟨_, rfl, matched.models, matched.pointer, matched.answers, ?_,
        seenIn.append matched.seen, matched.handed⟩
      rw [doneIn_append, doneIn_visited, List.nil_append]
      exact matched.done
  | some result =>
      obtain ⟨⟨current, after⟩, m⟩ := result
      rw [searched] at found replies
      obtain rfl := Option.some.inj replies
      obtain ⟨front, node, back, before, now, serves⟩ := found
      rw [serves]
      refine ⟨_, rfl, models.take before now, rfl, rfl, ?_, seenIn.append seenIn_single, rfl⟩
      simp

/-! ### Large blocks in memory -/

/-- A function takes what `mp_alloc` takes and matches it on lists. -/
def AllocMatches (image : Image) (pool : Pool)
    (allocIn : Image → UInt64 → List UInt64 → Option Image.Reply)
    (alloc : Pool → UInt64 → List UInt64 → Option Reply) : Prop :=
  ∀ size answers reply, alloc pool size answers = some reply →
    (reply.pool.chain.map Node.addr).Nodup →
      ∃ memory, allocIn image size answers = some memory ∧ Matches image pool memory reply

theorem Models.setLarge (models : Models image pool) (large : List Large) :
    Models { image with large := large } { pool with large := large } :=
  ⟨models.max, models.head, models.current, rfl, models.linked, models.nonNull, models.distinct⟩

variable {allocIn : Image → UInt64 → List UInt64 → Option Image.Reply}
  {alloc : Pool → UInt64 → List UInt64 → Option Reply}

theorem pushLarge_matches {p : UInt64} (allocs : AllocMatches image pool allocIn alloc)
    (replies : MemoryPool.pushLarge alloc pool p size answers = some reply)
    (distinct : (reply.pool.chain.map Node.addr).Nodup) :
    ∃ memory, Image.pushLarge allocIn image p size answers = some memory ∧
      Matches image pool memory reply := by
  obtain ⟨entry, served, ⟨isNull, rfl⟩ | ⟨nonNull, rfl⟩⟩ := pushLarge_cases replies
  · obtain ⟨memory, servedIn, matched⟩ := allocs _ _ entry served distinct
    unfold Image.pushLarge
    rw [servedIn]
    simp only
    rw [if_pos (matched.pointer.trans isNull)]
    refine ⟨_, rfl, matched.models, rfl, matched.answers, ?_, ?_, matched.handed⟩
    · simp [matched.done]
    · exact (matched.seen.cons_did).append seenIn_single
  · obtain ⟨memory, servedIn, matched⟩ := allocs _ _ entry served distinct
    unfold Image.pushLarge
    rw [servedIn]
    simp only
    rw [if_neg (matched.pointer.symm ▸ nonNull), matched.pointer, matched.models.large]
    refine ⟨_, rfl, matched.models.setLarge _, rfl, matched.answers, ?_, matched.seen.cons_did,
      matched.handed⟩
    simp [matched.done]

theorem mpAllocLarge_matches (models : Models image pool)
    (allocs : AllocMatches image pool allocIn alloc)
    (replies : MemoryPool.mpAllocLarge alloc pool size answers = some reply)
    (distinct : (reply.pool.chain.map Node.addr).Nodup) :
    ∃ memory, Image.mpAllocLarge allocIn image size answers = some memory ∧
      Matches image pool memory reply := by
  obtain ⟨p, rest, rfl, ⟨rfl, rfl⟩ | ⟨nonNull, large, reused, rfl⟩ | ⟨nonNull, noEntry, pushes⟩⟩ :=
    mpAllocLarge_cases replies
  · exact ⟨_, rfl, models.unchanged 0 rest⟩
  · unfold Image.mpAllocLarge
    simp only
    rw [if_neg nonNull, models.large, reused]
    exact ⟨_, rfl, models.setLarge large, rfl, rfl, rfl, seenIn_single, rfl⟩
  · unfold Image.mpAllocLarge
    simp only
    rw [if_neg nonNull, models.large, noEntry]
    exact pushLarge_matches allocs pushes distinct

/-! ### Requests in memory -/

theorem mpAlloc_matches (models : Models image pool) (enough : pool.chain.length ≤ fuel) :
    AllocMatches image pool (Image.mpAlloc fuel depth) (MemoryPool.mpAlloc depth) := by
  induction depth with
  | zero =>
      intro size answers reply replies
      contradiction
  | succ depth inductionHypothesis =>
      intro size answers reply replies distinct
      unfold MemoryPool.mpAlloc at replies
      unfold Image.mpAlloc
      rw [models.max]
      split at replies
      · rename_i small
        rw [if_pos small]
        exact allocSmall_matches models enough replies distinct
      · rename_i big
        rw [if_neg big]
        exact mpAllocLarge_matches models inductionHypothesis replies distinct

theorem mpNalloc_matches (models : Models image pool) (enough : pool.chain.length ≤ fuel) :
    AllocMatches image pool (Image.mpNalloc fuel depth) (MemoryPool.mpNalloc depth) := by
  intro size answers reply replies distinct
  unfold MemoryPool.mpNalloc at replies
  unfold Image.mpNalloc
  rw [models.max]
  split at replies
  · rename_i small
    rw [if_pos small]
    exact allocSmall_matches models enough replies distinct
  · rename_i big
    rw [if_neg big]
    exact mpAllocLarge_matches models (mpAlloc_matches models enough) replies distinct

theorem mpCalloc_matches (models : Models image pool) (enough : pool.chain.length ≤ fuel) :
    AllocMatches image pool (Image.mpCalloc fuel depth) (MemoryPool.mpCalloc depth) := by
  intro size answers reply replies distinct
  obtain ⟨first, served, ⟨isNull, rfl⟩ | ⟨nonNull, rfl⟩⟩ := mpCalloc_cases replies
  · obtain ⟨memory, servedIn, matched⟩ := mpAlloc_matches models enough _ _ _ served distinct
    unfold Image.mpCalloc
    rw [servedIn]
    simp only
    rw [if_pos (matched.pointer.trans isNull)]
    exact ⟨_, rfl, matched⟩
  · obtain ⟨memory, servedIn, matched⟩ := mpAlloc_matches models enough _ _ _ served distinct
    unfold Image.mpCalloc
    rw [servedIn]
    simp only
    rw [if_neg (matched.pointer.symm ▸ nonNull)]
    refine ⟨_, rfl, matched.models, matched.pointer, matched.answers, ?_,
      matched.seen.append seenIn_single, matched.handed⟩
    simp [matched.done, matched.pointer]

theorem mpMemalign_matches {alignment : UInt64} (models : Models image pool)
    (enough : pool.chain.length ≤ fuel)
    (replies : MemoryPool.mpMemalign depth pool size alignment answers = some reply)
    (distinct : (reply.pool.chain.map Node.addr).Nodup) :
    ∃ memory, Image.mpMemalign fuel depth image size alignment answers = some memory ∧
      Matches image pool memory reply := by
  obtain ⟨p, rest, rfl, ⟨rfl, rfl⟩ | ⟨nonNull, pushes⟩⟩ := mpMemalign_cases replies
  · exact ⟨_, rfl, models.unchanged 0 rest⟩
  · unfold Image.mpMemalign
    simp only
    rw [if_neg nonNull]
    exact pushLarge_matches (mpAlloc_matches models enough) pushes distinct

/-! ### Releasing in memory -/

theorem linkTo_map_rewind (stop : UInt64) (rest : List Node) :
    linkTo stop (rest.map Node.rewind) = linkTo stop rest := by
  cases rest <;> rfl

/-- The loop over the nodes of `mp_reset_pool`. -/
theorem rewindFrom_linked {nodes : Nodes} {h : Node} {rest : List Node}
    (linked : Linked nodes 0 (h :: rest)) (distinct : ((h :: rest).map Node.addr).Nodup)
    (nonNull : ∀ node ∈ rest, node.addr ≠ 0) (enough : rest.length < fuel) :
    ∃ rewound, Image.rewindFrom fuel nodes h.addr = some (rewound, rest.map Node.addr) ∧
      Linked rewound 0 ((h :: rest).map Node.rewind) ∧
      ∀ addr, addr ∉ (h :: rest).map Node.addr → rewound addr = nodes addr := by
  obtain ⟨fuel, rfl⟩ : ∃ less, fuel = less + 1 := ⟨fuel - 1, by omega⟩
  induction rest generalizing h fuel nodes with
  | nil =>
      refine ⟨Function.update nodes h.addr (h.rewind.cell 0), ?_, ⟨?_, trivial⟩, ?_⟩
      · unfold Image.rewindFrom
        simp only [Function.update_self]
        rw [linked.1]
        rfl
      · exact Function.update_self _ _ _
      · intro addr away
        apply Function.update_of_ne
        rintro rfl
        exact away List.mem_cons_self
  | cons next rest inductionHypothesis =>
      have shorter : rest.length < fuel := Nat.lt_of_succ_lt_succ enough
      have nonNullNext : next.addr ≠ 0 := nonNull next List.mem_cons_self
      have ⟨outside, distinctRest⟩ := List.nodup_cons.mp distinct
      have linkedRest : Linked (Function.update nodes h.addr (h.rewind.cell next.addr)) 0
          (next :: rest) := linked.2.update outside
      obtain ⟨less, rfl⟩ : ∃ less, fuel = less + 1 := ⟨fuel - 1, by omega⟩
      obtain ⟨rewound, rewinds, linkedNow, others⟩ :=
        inductionHypothesis linkedRest distinctRest
          (fun node member => nonNull node (List.mem_cons_of_mem _ member)) _ shorter
      refine ⟨rewound, ?_, ⟨?_, linkedNow⟩, ?_⟩
      · unfold Image.rewindFrom
        simp only [Function.update_self]
        rw [linked.1]
        simp only [Node.cell, Node.rewind, linkTo, nonNullNext, if_false] at rewinds ⊢
        rw [rewinds]
        rfl
      · rw [linkTo_map_rewind]
        show rewound h.addr = _
        rw [others h.addr outside, Function.update_self]
        rfl
      · intro addr away
        rw [List.map_cons, List.mem_cons, not_or] at away
        rw [others addr away.2, Function.update_of_ne away.1]

/-- The loop of `mp_destory_pool` frees the nodes it comes to. -/
theorem freeFrom_linked {nodes : Nodes} {rest : List Node} (linked : Linked nodes 0 rest)
    (nonNull : ∀ node ∈ rest, node.addr ≠ 0) (enough : rest.length ≤ fuel) :
    Image.freeFrom nodes fuel (linkTo 0 rest) =
      some (rest.flatMap fun node => [.visited node.addr, .did (.freedBlock node.addr)]) := by
  induction rest generalizing fuel with
  | nil => cases fuel <;> rfl
  | cons h rest inductionHypothesis =>
      obtain ⟨fuel, rfl⟩ : ∃ less, fuel = less + 1 := ⟨fuel - 1, by
        rw [List.length_cons] at enough
        omega⟩
      have nonNullHere : h.addr ≠ 0 := nonNull h List.mem_cons_self
      have later := inductionHypothesis linked.2
        (fun node member => nonNull node (List.mem_cons_of_mem _ member))
        (Nat.le_of_succ_le_succ enough)
      unfold Image.freeFrom
      rw [linkTo, if_neg nonNullHere, linked.1]
      simp only [Node.cell]
      rw [later]
      rfl

theorem Models.chain_linked (models : Models image pool) {rest : List Node}
    (chain : pool.chain = pool.head :: rest) :
    Linked image.nodes 0 (pool.head :: rest) ∧ ((pool.head :: rest).map Node.addr).Nodup ∧
      ∀ node ∈ rest, node.addr ≠ 0 := by
  have linked := models.linked
  have distinct := models.distinct
  have nonNull := models.nonNull
  rw [chain] at linked distinct nonNull
  exact ⟨linked, distinct, fun node member => nonNull node (List.mem_cons_of_mem _ member)⟩

theorem mpResetPool_matches (models : Models image pool) (enough : pool.chain.length ≤ fuel) :
    ∃ next, Image.mpResetPool fuel image = some (next, (releaseLarge pool).map .did ++
        (pool.chain.tail.map Node.addr).map .visited ++ [.did .rewound]) ∧
      Models next (MemoryPool.mpResetPool pool).1 ∧ next.handed = image.handed := by
  have ⟨rest, chain⟩ := chain_eq_head_cons pool
  have ⟨linked, distinct, nonNull⟩ := models.chain_linked chain
  have shorter : rest.length < fuel := by
    rw [chain, List.length_cons] at enough
    omega
  obtain ⟨rewound, rewinds, linkedNow, -⟩ := rewindFrom_linked linked distinct nonNull shorter
  rw [← models.head_addr] at rewinds
  have chainNow := mpResetPool_chain pool
  have addrs : (MemoryPool.mpResetPool pool).1.chain.map Node.addr = pool.chain.map Node.addr := by
    rw [chainNow, List.map_map]
    rfl
  have shown : image.large.flatMap (fun entry => release entry.alloc) = releaseLarge pool := by
    rw [models.large]
    rfl
  unfold Image.mpResetPool
  rw [rewinds]
  simp only
  rw [shown, chain]
  refine ⟨_, rfl, ⟨models.max, ?_, models.current, rfl, ?_, ?_, ?_⟩, rfl⟩
  · rw [chainNow, linkTo_map_rewind]
    exact models.head
  · rw [chainNow, chain]
    exact linkedNow
  · intro node member
    rw [chainNow] at member
    have ⟨original, inChain, same⟩ := List.mem_map.mp member
    rw [← same]
    exact models.nonNull original inChain
  · rw [addrs]
    exact models.distinct

theorem mpDestoryPool_matches (models : Models image pool) (enough : pool.chain.length ≤ fuel) :
    ∃ shown, Image.mpDestoryPool fuel image = some shown ∧
      doneIn shown = MemoryPool.mpDestoryPool pool ∧ SeenIn pool shown := by
  have ⟨rest, chain⟩ := chain_eq_head_cons pool
  have ⟨linked, _, nonNull⟩ := models.chain_linked chain
  have shorter : rest.length ≤ fuel := by
    rw [chain, List.length_cons] at enough
    omega
  have frees := freeFrom_linked linked.2 nonNull shorter
  have first : (image.nodes image.head).next = linkTo 0 rest := by
    rw [models.head_addr]
    exact linked.next_eq
  have freed (nodes : List Node) :
      doneIn (nodes.flatMap fun node => [.visited node.addr, .did (.freedBlock node.addr)]) =
        nodes.map fun node => .freedBlock node.addr := by
    induction nodes with
    | nil => rfl
    | cons node nodes inductionHypothesis => simp [inductionHypothesis]
  unfold Image.mpDestoryPool
  rw [first, frees]
  refine ⟨_, rfl, ?_, ?_⟩
  · simp [MemoryPool.mpDestoryPool, releaseLarge, models.large, models.head_addr, chain, freed]
  · apply SeenIn.append
    · apply seenIn_did.append
      intro node member
      have ⟨visited, inRest, isOne⟩ := List.mem_flatMap.mp member
      rw [chain]
      simp only [List.mem_cons, Trace.visited.injEq, reduceCtorEq, List.not_mem_nil, or_false] at isOne
      rw [isOne]
      exact List.mem_map_of_mem inRest
    · exact seenIn_single

/-! ### Calls in memory -/

/-- What is written to the memory handed out stays clear of the chain. -/
theorem Models.overwrite (models : Models image pool) (use : Use) {shown : List Trace}
    (apart : ∀ node ∈ pool.chain, ∀ range ∈ (doneIn shown).foldl noteHanded image.handed,
      (headerAt node.addr).Apart range) :
    Models (image.overwrite use shown) pool := by
  refine ⟨models.max, models.head, models.current, models.large, ?_, models.nonNull,
    models.distinct⟩
  apply models.linked.congr
  intro addr member
  obtain ⟨node, inChain, rfl⟩ := List.mem_map.mp member
  exact if_pos (apart node inChain)

/-- A call in memory does what it does on lists. -/
structure Follows (image : Image) (pool : Pool) (next : Option Pool) (events : List Event)
    (session : Option Image) (shown : List Trace) : Prop where
  done : doneIn shown = events
  seen : SeenIn pool shown
  models : ∀ after, next = some after → ∃ left, session = some left ∧ Models left after ∧
    left.handed = events.foldl noteHanded image.handed
  closed : next = none → session = none

/-- The nodes keep clear of the memory handed out. -/
def Clear (pool : Pool) (handed : List Range) : Prop :=
  ∀ node ∈ pool.chain, ∀ range ∈ handed, (headerAt node.addr).Apart range

private theorem left_follows {next : Pool} {left : Image} {events : List Event}
    {shown : List Trace} (use : Use) (models : Models left next) (seen : SeenIn pool shown)
    (done : doneIn shown = events) (handed : left.handed = image.handed)
    (clear : Clear next (events.foldl noteHanded image.handed)) :
    Follows image pool (some next) events (some (left.overwrite use shown)) shown := by
  refine ⟨done, seen, ?_, fun closed => by contradiction⟩
  intro after same
  obtain rfl := Option.some.inj same
  refine ⟨_, rfl, ?_, ?_⟩
  · apply models.overwrite use
    rw [done, handed]
    exact clear
  · show (doneIn shown).foldl noteHanded left.handed = _
    rw [done, handed]

theorem step_follows {use : Use} {next : Option Pool} {events : List Event}
    (models : Models image pool) (enough : pool.chain.length ≤ fuel)
    (taken : MemoryPool.step (some pool) use.call = some (next, events))
    (distinct : ∀ after, next = some after → (after.chain.map Node.addr).Nodup)
    (clear : ∀ after, next = some after →
      Clear after (events.foldl noteHanded image.handed)) :
    ∃ session shown, Image.step fuel (some image) use = some (session, shown) ∧
      Follows image pool next events session shown := by
  obtain ⟨⟨asked, answers⟩, writes⟩ := use
  have request {reply : Reply} {outcome : Option Image.Reply}
      (isNext : next = some reply.pool)
      (isShown : events = reply.events ++ [.returned reply.pointer])
      (matching : ∃ memory, outcome = some memory ∧ Matches image pool memory reply) :
      ∃ session shown, Image.left ⟨⟨asked, answers⟩, writes⟩ (Image.answered outcome) =
          some (session, shown) ∧ Follows image pool next events session shown := by
    obtain ⟨memory, rfl, matched⟩ := matching
    have done : doneIn (memory.shown ++ [.did (.returned memory.pointer)]) = events := by
      rw [doneIn_append, matched.done, matched.pointer, isShown]
      rfl
    have clearNow := clear _ isNext
    subst isNext
    exact ⟨_, _, rfl, left_follows _ matched.models (matched.seen.append seenIn_single) done
      matched.handed clearNow⟩
  cases asked with
  | alloc n =>
      obtain ⟨reply, replies, isNext, isShown⟩ := answered_eq taken
      exact request isNext isShown
        (mpAlloc_matches models enough _ _ _ replies (distinct _ isNext))
  | nalloc n =>
      obtain ⟨reply, replies, isNext, isShown⟩ := answered_eq taken
      exact request isNext isShown
        (mpNalloc_matches models enough _ _ _ replies (distinct _ isNext))
  | calloc n =>
      obtain ⟨reply, replies, isNext, isShown⟩ := answered_eq taken
      exact request isNext isShown
        (mpCalloc_matches models enough _ _ _ replies (distinct _ isNext))
  | memalign n alignment =>
      obtain ⟨reply, replies, isNext, isShown⟩ := answered_eq taken
      exact request isNext isShown
        (mpMemalign_matches models enough replies (distinct _ isNext))
  | free p =>
      obtain ⟨rfl, rfl⟩ := Prod.mk.inj (Option.some.inj taken)
      have freed : Models (Image.mpFree image p).1 (MemoryPool.mpFree pool p).1 := by
        have large : (freeEntry p image.large).1 = (freeEntry p pool.large).1 := by
          rw [models.large]
        show Models { image with large := (freeEntry p image.large).1 }
          { pool with large := (freeEntry p pool.large).1 }
        rw [large]
        exact models.setLarge _
      have done : doneIn (Image.mpFree image p).2 = (MemoryPool.mpFree pool p).2 := by
        show doneIn ((freeEntry p image.large).2.map .did) = (freeEntry p pool.large).2
        rw [doneIn_did, models.large]
      exact ⟨_, _, rfl, left_follows _ freed seenIn_did done rfl (clear _ rfl)⟩
  | resetPool =>
      obtain ⟨rfl, rfl⟩ := Prod.mk.inj (Option.some.inj taken)
      obtain ⟨left, resets, modelsLeft, handed⟩ := mpResetPool_matches models enough
      have done : doneIn ((releaseLarge pool).map .did ++
          (pool.chain.tail.map Node.addr).map .visited ++ [.did .rewound]) =
          (MemoryPool.mpResetPool pool).2 := by
        rw [doneIn_append, doneIn_append, doneIn_did, doneIn_visited, List.append_nil]
        rfl
      have seen : SeenIn pool ((releaseLarge pool).map .did ++
          (pool.chain.tail.map Node.addr).map .visited ++ [.did .rewound]) :=
        (seenIn_did.append (seenIn_visited fun _ member => member)).append seenIn_single
      refine ⟨_, _, ?_, left_follows ⟨⟨.resetPool, answers⟩, writes⟩ modelsLeft seen done handed
        (clear _ rfl)⟩
      show Image.left _ (Image.mpResetPool fuel image) = _
      rw [resets]
      rfl
  | destoryPool =>
      obtain ⟨rfl, rfl⟩ := Prod.mk.inj (Option.some.inj taken)
      obtain ⟨shown, destroys, done, seen⟩ := mpDestoryPool_matches models enough
      refine ⟨none, shown, ?_, done, seen, fun after same => by contradiction, fun _ => rfl⟩
      unfold Image.step
      simp only
      rw [destroys]

end

end SimpleBasicComponents.MemoryPool
