import SimpleBasicComponents.MemoryPool.Reset

/-!
Repeating the requests of a new memory pool.

Owns: the exact condition on a list of requests under which a new pool that has
served it serves it again after every `mp_reset_pool` without another block.
With the seventh block that a pool adds, `pool->current` leaves the head, and
from then on it has just seven blocks from `current` on.
-/

namespace SimpleBasicComponents.MemoryPool

open SimpleBasicComponents.Semantics

/-- `posix_memalign` gives a block each time it is asked, at a multiple of `MP_ALIGNMENT`. -/
def Provided (asks : List Ask) : Prop :=
  ∀ ask ∈ asks, ∀ answer ∈ ask.answers, answer ≠ 0 ∧ 32 ∣ answer.toNat

/-- The head of a pool of the size, emptied, in the place it has in a block. -/
def blankHead (size : UInt64) : Node := (mpCreatePool size 0 []).current

/-- Another block of a pool of the size, emptied. -/
def blank (size : UInt64) : Node :=
  { addr := 0, last := sizeofNode, endPtr := sizeofNode + size, failed := 0 }

/-- The requests fit, each where there is room first, into the head and six
blocks, or into seven blocks. -/
def FitsSeven (size : UInt64) (demands : List Demand) : Prop :=
  (FirstFit.pack Demand.fill demands (blankHead size :: List.replicate 6 (blank size))).isSome ∨
    (FirstFit.pack Demand.fill demands (List.replicate 7 (blank size))).isSome

instance (size : UInt64) (demands : List Demand) : Decidable (FitsSeven size demands) := by
  unfold FitsSeven
  infer_instance

/-! ### Nodes that look the same from inside -/

/-- The nodes are at the same place relative to `MP_ALIGNMENT` and have the same
room taken and left. -/
structure Alike (node other : Node) : Prop where
  skew : node.addr.toNat % 32 = other.addr.toNat % 32
  last : node.last - node.addr = other.last - other.addr
  endPtr : node.endPtr - node.addr = other.endPtr - other.addr

/-- Where a node is relative to `MP_ALIGNMENT`, and its bytes with the header. -/
def Node.extent (node : Node) : Nat × UInt64 := (node.addr.toNat % 32, node.endPtr - node.addr)

section

variable {size base : UInt64} {node other : Node} {demand : Demand}

theorem roundUp_mod (n : Nat) : roundUp (n % 2 ^ 64) % 2 ^ 64 = roundUp n % 2 ^ 64 := by
  unfold roundUp
  omega

theorem roundUp_add (start offset : Nat) :
    roundUp (start + offset) = start - start % 32 + roundUp (start % 32 + offset) := by
  unfold roundUp
  omega

theorem mpAlignPtr_sub_toNat (start offset : UInt64) :
    (mpAlignPtr (start + offset) - start).toNat =
      (roundUp (start.toNat % 32 + offset.toNat) - start.toNat % 32) % 2 ^ 64 := by
  have bound := start.toNat_lt
  have up : start.toNat % 32 ≤ roundUp (start.toNat % 32 + offset.toNat) :=
    Nat.le_trans (Nat.le_add_right _ _) (mpAlignPtr_rounds.up _)
  have skew := Nat.mod_le start.toNat 32
  rw [UInt64.toNat_sub, mpAlignPtr_toNat, UInt64.toNat_add, roundUp_mod, roundUp_add]
  generalize roundUp (start.toNat % 32 + offset.toNat) = rounded at up ⊢
  generalize start.toNat % 32 = rest at up skew ⊢
  omega

/-- Rounding depends on the place relative to `MP_ALIGNMENT` only. -/
theorem Demand.place_sub (demand : Demand) {p q start origin : UInt64}
    (skew : start.toNat % 32 = origin.toNat % 32) (same : p - start = q - origin) :
    demand.place p - start = demand.place q - origin := by
  cases demand with
  | nalloc n => exact same
  | alloc n =>
      have left : p = start + (q - origin) := by
        rw [← same]
        grind
      have right : q = origin + (q - origin) := by grind
      apply UInt64.toNat_inj.mp
      show (mpAlignPtr p - start).toNat = (mpAlignPtr q - origin).toNat
      rw [right, left, mpAlignPtr_sub_toNat, mpAlignPtr_sub_toNat, skew]

theorem Demand.fill_alike (demand : Demand) (node other : Node) (alike : Alike node other) :
    Option.Rel Alike (demand.fill node) (demand.fill other) := by
  have placed := demand.place_sub alike.skew alike.last
  have room : node.endPtr - demand.place node.last = other.endPtr - demand.place other.last := by
    have left : node.endPtr - demand.place node.last =
        (node.endPtr - node.addr) - (demand.place node.last - node.addr) := by grind
    have right : other.endPtr - demand.place other.last =
        (other.endPtr - other.addr) - (demand.place other.last - other.addr) := by grind
    rw [left, right, placed, alike.endPtr]
  unfold Demand.fill
  simp only
  rw [room]
  split
  · refine .some ⟨alike.skew, ?_, alike.endPtr⟩
    show demand.place node.last + demand.size - node.addr =
      demand.place other.last + demand.size - other.addr
    have left : demand.place node.last + demand.size - node.addr =
        (demand.place node.last - node.addr) + demand.size := by grind
    have right : demand.place other.last + demand.size - other.addr =
        (demand.place other.last - other.addr) + demand.size := by grind
    rw [left, right, placed]
  · exact .none

/-- Emptied nodes look the same if their extents are the same. -/
theorem rewind_alike (same : node.extent = other.extent) : Alike node.rewind other.rewind := by
  have ⟨skew, bytes⟩ := Prod.mk.inj same
  refine ⟨skew, ?_, bytes⟩
  show node.addr + sizeofNode - node.addr = other.addr + sizeofNode - other.addr
  grind

theorem rewind_all_alike {nodes others : List Node}
    (same : nodes.map Node.extent = others.map Node.extent) :
    List.Forall₂ Alike (nodes.map Node.rewind) (others.map Node.rewind) := by
  induction nodes generalizing others with
  | nil =>
      obtain rfl := List.map_eq_nil_iff.mp same.symm
      exact .nil
  | cons node nodes inductionHypothesis =>
      cases others with
      | nil => contradiction
      | cons other others =>
          have ⟨first, rest⟩ := List.cons.inj same
          exact .cons (rewind_alike first) (inductionHypothesis rest)

/-! ### A new block -/

/-- An empty block has room for every request of at most its size. -/
theorem blank_fill (small : demand.size ≤ size) :
    demand.fill (blank size) = some { blank size with last := sizeofNode + demand.size } := by
  have placed : demand.place sizeofNode = sizeofNode := by
    cases demand with
    | alloc n => exact (by decide : mpAlignPtr sizeofNode = sizeofNode)
    | nalloc n => rfl
  have room : (blank size).endPtr - sizeofNode = size := by
    show sizeofNode + size - sizeofNode = size
    grind
  unfold Demand.fill
  simp only
  rw [show (blank size).last = sizeofNode from rfl, placed, room, if_pos small]

/-- What a new block looks like when it has served its first request. -/
theorem freshNode_alike {pool : Pool} {addr request : UInt64} (aligned : 32 ∣ addr.toNat)
    (extent : pool.head.endPtr - pool.head.addr = sizeofNode + size) :
    Alike (freshNode pool addr request) { blank size with last := sizeofNode + request } := by
  have skew : addr.toNat % 32 = (0 : UInt64).toNat % 32 := Nat.mod_eq_zero_of_dvd aligned
  have shifted : addr + sizeofNode - addr = sizeofNode - 0 := by grind
  have placed : mpAlignPtr (addr + sizeofNode) - addr = mpAlignPtr sizeofNode - 0 :=
    (Demand.alloc 0).place_sub skew shifted
  have header : mpAlignPtr sizeofNode = sizeofNode := by decide
  rw [header] at placed
  refine ⟨skew, ?_, ?_⟩
  · show mpAlignPtr (addr + sizeofNode) + request - addr = sizeofNode + request - 0
    grind
  · show addr + (pool.head.endPtr - pool.head.addr) - addr = sizeofNode + size - 0
    rw [extent]
    grind

end

/-! ### The failures -/

/-- The failures of `n` nodes from `current` on in a new pool. -/
def failuresOf : Nat → List UInt64
  | 0 => []
  | 1 => [0]
  | n + 2 => UInt64.ofNat n :: failuresOf (n + 1)

/-- A new block adds one to all but the last. -/
theorem countFailures_failuresOf {p : Node} {after : List Node}
    (failures : (p :: after).map Node.failed = failuresOf (after.length + 1)) :
    (countFailures p after).map Node.failed ++ [0] = failuresOf (after.length + 2) := by
  induction after generalizing p with
  | nil =>
      unfold countFailures
      rw [failures]
      rfl
  | cons next after inductionHypothesis =>
      obtain ⟨first, rest⟩ := List.cons.inj failures
      unfold countFailures
      rw [List.map_cons, List.cons_append, inductionHypothesis rest]
      have next : p.failed + 1 = UInt64.ofNat (after.length + 1) := by
        rw [first, UInt64.ofNat_add]
        rfl
      exact congrArg (· :: failuresOf (after.length + 2)) next

/-- The loop of `mp_alloc_block` leaves `current` where it is. -/
theorem moveCurrent_stays {before between : List Node} {p : Node} {after : List Node}
    (few : ∀ failed ∈ ((p :: after).map Node.failed).dropLast, ¬ failed > 4) :
    moveCurrent before between p after = (before, between ++ countFailures p after) := by
  induction after generalizing between p with
  | nil => rfl
  | cons next after inductionHypothesis =>
      have here : ¬ p.failed > 4 := few p.failed List.mem_cons_self
      have later : ∀ failed ∈ ((next :: after).map Node.failed).dropLast, ¬ failed > 4 := by
        intro failed member
        exact few failed (List.mem_cons_of_mem _ member)
      unfold moveCurrent
      simp only
      rw [if_neg here, inductionHypothesis later, List.append_assoc]
      rfl

theorem failuresOf_le (n : Nat) : ∀ failed ∈ failuresOf (n + 2), failed.toNat ≤ n := by
  induction n with
  | zero =>
      intro failed member
      simp only [failuresOf, List.mem_cons, List.not_mem_nil, or_false] at member
      rcases member with rfl | rfl <;> exact Nat.le_refl 0
  | succ n inductionHypothesis =>
      intro failed member
      cases List.mem_cons.mp member with
      | inl same =>
          rw [same, UInt64.toNat_ofNat']
          exact Nat.mod_le _ _
      | inr later => exact Nat.le_succ_of_le (inductionHypothesis failed later)

/-- Six nodes have not failed often enough. -/
theorem failuresOf_few {n : Nat} (few : n < 7) :
    ∀ failed ∈ (failuresOf n).dropLast, ¬ failed > 4 := by
  intro failed member
  match n, few with
  | 0, _ => contradiction
  | 1, _ => contradiction
  | n + 2, few =>
      have bound := failuresOf_le n failed (List.mem_of_mem_dropLast member)
      show ¬ 4 < failed
      rw [UInt64.lt_iff_toNat_lt]
      show ¬ 4 < failed.toNat
      omega

/-- Up to six nodes from `current` on, it stays. -/
theorem append_stays {pool : Pool} {newNode : Node} (few : pool.after.length < 6)
    (failures : (pool.current :: pool.after).map Node.failed = failuresOf (pool.after.length + 1)) :
    (pool.append newNode).before = pool.before ∧
      (pool.append newNode).current :: (pool.append newNode).after =
        countFailures pool.current pool.after ++ [newNode] := by
  have stays : moveCurrent pool.before [] pool.current pool.after =
      (pool.before, countFailures pool.current pool.after) := by
    apply moveCurrent_stays
    rw [failures]
    exact failuresOf_few (by omega)
  unfold Pool.append
  rw [stays]
  have length := length_countFailures pool.current pool.after
  cases counted : countFailures pool.current pool.after with
  | nil =>
      rw [counted] at length
      contradiction
  | cons current after => exact ⟨rfl, rfl⟩

/-- With seven, it moves on by one. -/
theorem append_moves {pool : Pool} {newNode next : Node} {rest : List Node}
    (behind : pool.after = next :: rest)
    (failures : (pool.current :: pool.after).map Node.failed = failuresOf 7) :
    (pool.append newNode).current :: (pool.append newNode).after =
      countFailures next rest ++ [newNode] := by
  rw [behind] at failures
  have ⟨first, others⟩ := List.cons.inj failures
  have often : pool.current.failed > 4 := by
    rw [first]
    decide
  have moves : moveCurrent pool.before [] pool.current (next :: rest) =
      (pool.before ++ [{ pool.current with failed := pool.current.failed + 1 }],
        countFailures next rest) := by
    unfold moveCurrent
    simp only
    rw [if_pos often]
    apply moveCurrent_stays
    rw [others]
    exact failuresOf_few (by decide)
  unfold Pool.append
  rw [behind, moves]
  have length := length_countFailures next rest
  cases counted : countFailures next rest with
  | nil =>
      rw [counted] at length
      contradiction
  | cons current after => rfl

/-! ### What the requests make of a new pool -/

/-- The chain is a head and other blocks, with up to seven nodes from `current` on,
and with less of them only while `current` is the head. -/
structure Grown (size : UInt64) (pool : Pool) : Prop where
  max : pool.max ≤ size
  extents : pool.chain.map Node.extent =
    (blankHead size :: List.replicate (pool.chain.length - 1) (blank size)).map Node.extent
  failures : (pool.current :: pool.after).map Node.failed = failuresOf (pool.after.length + 1)
  searched : pool.after.length ≤ 6
  moved : pool.before = [] ∨ pool.after.length = 6

section

variable {size base : UInt64} {pool next last : Pool} {demand : Demand} {answers : List UInt64}
  {asks : List Ask}

theorem chain_length_pos (pool : Pool) : 1 ≤ pool.chain.length := by
  unfold Pool.chain
  rw [List.length_append, List.length_cons]
  omega

theorem Grown.head (grown : Grown size pool) :
    pool.head.endPtr - pool.head.addr = sizeofNode + size := by
  have atHead : pool.chain.head? = some pool.head := by
    unfold Pool.chain Pool.head
    cases pool.before <;> rfl
  have first := congrArg List.head? grown.extents
  rw [List.head?_map, atHead] at first
  have bytes : pool.head.endPtr - pool.head.addr = (blankHead size).endPtr - (blankHead size).addr :=
    congrArg Prod.snd (Option.some.inj first)
  rw [bytes]
  show 0 + sizeofPool + sizeofNode + size - (0 + sizeofPool) = sizeofNode + size
  grind

theorem Grown.serves (grown : Grown size pool) (serves : Serves pool demand answers next)
    (provided : ∀ answer ∈ answers, answer ≠ 0 ∧ 32 ∣ answer.toNat) : Grown size next := by
  have max : next.max ≤ size := serves.max ▸ grown.max
  cases serves with
  | @here current after taken =>
      have length := chain_length_of_insert taken
      have extents : (current :: after).map Node.extent =
          (pool.current :: pool.after).map Node.extent := insert_see (fun _ _ => rfl) taken
      have failures : (current :: after).map Node.failed =
          (pool.current :: pool.after).map Node.failed := insert_see (fun _ _ => rfl) taken
      have nodes : after.length = pool.after.length := Nat.succ.inj (FirstFit.insert_length taken)
      refine ⟨max, ?_, ?_, ?_, ?_⟩
      · rw [length, ← grown.extents]
        unfold Pool.chain
        rw [List.map_append, List.map_append, extents]
      · rw [failures, grown.failures, nodes]
      · exact nodes ▸ grown.searched
      · exact nodes ▸ grown.moved
  | failed full refused => exact grown
  | @grown addr full obtained nonNull =>
      have aligned : 32 ∣ addr.toNat := (provided addr (List.mem_of_head? obtained)).2
      have extents : (pool.append (freshNode pool addr demand.size)).chain.map Node.extent =
          pool.chain.map Node.extent ++ [(freshNode pool addr demand.size).extent] :=
        append_chain_map (fun _ => rfl) pool _
      have extent : (freshNode pool addr demand.size).extent = (blank size).extent := by
        have alike := @freshNode_alike size pool addr demand.size aligned grown.head
        exact Prod.ext alike.skew alike.endPtr
      have positive := chain_length_pos pool
      have nodes : (pool.append (freshNode pool addr demand.size)).chain.length - 1 =
          (pool.chain.length - 1) + 1 := by
        rw [append_chain_length]
        omega
      have grownExtents : (pool.append (freshNode pool addr demand.size)).chain.map Node.extent =
          (blankHead size ::
            List.replicate ((pool.append (freshNode pool addr demand.size)).chain.length - 1)
              (blank size)).map Node.extent := by
        rw [extents, grown.extents, extent, nodes, List.replicate_succ', List.map_cons, List.map_cons,
          List.map_append]
        rfl
      by_cases few : pool.after.length < 6
      · have ⟨before, nodesNow⟩ :=
          @append_stays pool (freshNode pool addr demand.size) few grown.failures
        have counted := congrArg List.length nodesNow
        rw [List.length_append, length_countFailures] at counted
        have isLength : (pool.append (freshNode pool addr demand.size)).after.length =
            pool.after.length + 1 := Nat.succ.inj counted
        refine ⟨max, grownExtents, ?_, ?_, ?_⟩
        · rw [nodesNow, List.map_append, isLength]
          exact countFailures_failuresOf grown.failures
        · omega
        · left
          rw [before]
          exact grown.moved.resolve_right (by omega)
      · have searched := grown.searched
        have seven : pool.after.length = 6 := by omega
        cases behind : pool.after with
        | nil =>
            rw [behind] at seven
            contradiction
        | cons first rest =>
            have failures := grown.failures
            rw [seven] at failures
            have nodesNow := @append_moves pool (freshNode pool addr demand.size) _ _ behind failures
            rw [behind] at failures seven
            have ⟨_, others⟩ := List.cons.inj failures
            have five : rest.length = 5 := Nat.succ.inj seven
            have counted := congrArg List.length nodesNow
            rw [List.length_append, length_countFailures, five] at counted
            have isLength : (pool.append (freshNode pool addr demand.size)).after.length = 6 :=
              Nat.succ.inj counted
            refine ⟨max, grownExtents, ?_, Nat.le_of_eq isLength, .inr isLength⟩
            rw [nodesNow, List.map_append, isLength]
            have laddered : (first :: rest).map Node.failed = failuresOf (rest.length + 1) := by
              rw [five]
              exact others
            have climbed := countFailures_failuresOf laddered
            rw [five] at climbed
            exact climbed

/-! ### Counting blocks by packing -/

theorem countFailures_alike {p : Node} {after bins : List Node}
    (same : List.Forall₂ Alike (p :: after) bins) :
    List.Forall₂ Alike (countFailures p after) bins := by
  induction after generalizing p bins with
  | nil => exact same
  | cons next after inductionHypothesis =>
      cases same with
      | cons alike rest => exact .cons ⟨alike.skew, alike.last, alike.endPtr⟩ (inductionHypothesis rest)

/-- A pool whose `current` is the head adds no more than `spare` blocks exactly if
its nodes with as many empty ones behind them take the requests. -/
theorem ServesAll.length_le_iff (serves : ServesAll pool asks last) (provided : Provided asks)
    (grown : Grown size pool) (isFirst : pool.before = []) {bins : List Node}
    (same : List.Forall₂ Alike (pool.current :: pool.after) bins) {spare : Nat}
    (seven : pool.chain.length + spare ≤ 7) :
    last.chain.length ≤ pool.chain.length + spare ↔
      (FirstFit.pack Demand.fill (asks.map Ask.demand)
        (bins ++ List.replicate spare (blank size))).isSome := by
  induction serves generalizing bins spare with
  | nil pool => exact iff_of_true (Nat.le_add_right _ _) rfl
  | @cons pool next last ask asks small serves rest inductionHypothesis =>
      have providedRest : Provided asks := fun other member =>
        provided other (List.mem_cons_of_mem _ member)
      have grownNext := grown.serves serves (provided ask List.mem_cons_self)
      have matched := FirstFit.insert_rel ask.demand.fill_alike same
      rw [List.map_cons, FirstFit.pack]
      cases serves with
      | here taken =>
          rw [taken] at matched
          cases here : FirstFit.insert Demand.fill ask.demand bins with
          | none =>
              rw [here] at matched
              cases matched
          | some filled =>
              rw [here] at matched
              cases matched with
              | some kept =>
                  rw [FirstFit.insert_append here]
                  have length := chain_length_of_insert taken
                  rw [← length] at seven ⊢
                  exact inductionHypothesis providedRest grownNext isFirst kept seven
      | failed full refused =>
          have nonNull := (provided ask List.mem_cons_self 0 (List.mem_of_head? refused)).1
          exact absurd rfl nonNull
      | @grown addr full obtained nonNull =>
          have length := append_chain_length pool (freshNode pool addr ask.demand.size)
          have more := rest.length_le
          rw [full] at matched
          have refused : FirstFit.insert Demand.fill ask.demand bins = none := by
            cases here : FirstFit.insert Demand.fill ask.demand bins with
            | none => rfl
            | some filled =>
                rw [here] at matched
                cases matched
          cases spare with
          | zero =>
              rw [List.replicate_zero, List.append_nil, refused]
              refine iff_of_false ?_ Bool.false_ne_true
              omega
          | succ spare =>
              have fits : ask.demand.size ≤ size := UInt64.le_trans small grown.max
              have aligned := (provided ask List.mem_cons_self addr (List.mem_of_head? obtained)).2
              rw [List.replicate_succ, FirstFit.insert_append_cons refused (blank_fill fits)]
              have nodes : pool.chain.length = pool.after.length + 1 := by
                unfold Pool.chain
                rw [isFirst]
                rfl
              have few : pool.after.length < 6 := by omega
              obtain ⟨before, nodesNow⟩ :=
                @append_stays pool (freshNode pool addr ask.demand.size) few grown.failures
              have sameNow : List.Forall₂ Alike
                  ((pool.append (freshNode pool addr ask.demand.size)).current ::
                    (pool.append (freshNode pool addr ask.demand.size)).after)
                  (bins ++ [{ blank size with last := sizeofNode + ask.demand.size }]) := by
                rw [nodesNow]
                exact List.rel_append (countFailures_alike same)
                  (.cons (freshNode_alike aligned grown.head) .nil)
              have sevenNow : (pool.append (freshNode pool addr ask.demand.size)).chain.length +
                  spare ≤ 7 := by omega
              have later := inductionHypothesis providedRest grownNext (before.trans isFirst)
                sameNow sevenNow
              rw [List.append_assoc, length] at later
              have shifted : pool.chain.length + (spare + 1) = pool.chain.length + 1 + spare := by
                omega
              rw [shifted]
              exact later

theorem ServesAll.grown (serves : ServesAll pool asks last) (provided : Provided asks)
    (grown : Grown size pool) : Grown size last := by
  induction serves with
  | nil pool => exact grown
  | @cons pool next last ask asks small serves rest inductionHypothesis =>
      have grownNext := grown.serves serves (provided ask List.mem_cons_self)
      exact inductionHypothesis
        (fun other member => provided other (List.mem_cons_of_mem _ member)) grownNext

/-! ### The same requests after a reset -/

theorem servedFrom_iff_pack {nodes : List Node} (provided : Provided asks) :
    ServedFrom nodes asks ↔ (FirstFit.pack Demand.fill (asks.map Ask.demand) nodes).isSome := by
  induction asks generalizing nodes with
  | nil => exact iff_of_true trivial rfl
  | cons ask asks inductionHypothesis =>
      have providedRest : Provided asks := fun other member =>
        provided other (List.mem_cons_of_mem _ member)
      rw [List.map_cons, FirstFit.pack]
      unfold ServedFrom
      cases FirstFit.insert Demand.fill ask.demand nodes with
      | some filled => exact inductionHypothesis providedRest
      | none =>
          refine iff_of_false ?_ Bool.false_ne_true
          intro served
          exact (provided ask List.mem_cons_self 0 (List.mem_of_head? served.1)).1 rfl

theorem pack_isSome_iff {demands : List Demand} {nodes bins : List Node}
    (same : List.Forall₂ Alike nodes bins) :
    (FirstFit.pack Demand.fill demands nodes).isSome ↔
      (FirstFit.pack Demand.fill demands bins).isSome := by
  have rel := @FirstFit.pack_rel _ _ _ _ demands _ _ Demand.fill_alike _ _ same
  generalize FirstFit.pack Demand.fill demands nodes = left at rel ⊢
  generalize FirstFit.pack Demand.fill demands bins = right at rel ⊢
  cases rel with
  | some kept => exact iff_of_true rfl rfl
  | none => exact Iff.rfl

theorem blankHead_rewind : (blankHead size).rewind = blankHead size := rfl

theorem blank_rewind : (blank size).rewind = blank size := by
  unfold blank Node.rewind
  simp

/-- As long as `current` is the head, a reset leaves all blocks to the requests. -/
theorem Grown.emptied_alike (grown : Grown size pool) (isFirst : pool.before = []) :
    List.Forall₂ Alike (emptied pool)
      (blankHead size :: List.replicate (pool.chain.length - 1) (blank size)) := by
  have chain : pool.chain = pool.current :: pool.after := by
    unfold Pool.chain
    rw [isFirst, List.nil_append]
  have extents := grown.extents
  nth_rewrite 1 [chain] at extents
  have bins (n : Nat) : (blankHead size :: List.replicate n (blank size)).map Node.rewind =
      blankHead size :: List.replicate n (blank size) := by
    rw [List.map_cons, List.map_replicate, blankHead_rewind, blank_rewind]
  rw [← bins]
  exact rewind_all_alike extents

/-- Otherwise it leaves them seven. -/
theorem Grown.emptied_alike_of_moved (grown : Grown size pool) (moved : pool.before ≠ []) :
    List.Forall₂ Alike (emptied pool) (List.replicate 7 (blank size)) := by
  have six : pool.after.length = 6 := grown.moved.resolve_left moved
  obtain ⟨head, before, isBefore⟩ := List.exists_cons_of_ne_nil moved
  have extents := grown.extents
  unfold Pool.chain at extents
  rw [isBefore, List.cons_append, List.map_cons, List.map_cons, List.map_replicate,
    List.map_append] at extents
  have ⟨_, others⟩ := List.cons.inj extents
  have searched : (pool.current :: pool.after).map Node.extent =
      (List.replicate 7 (blank size)).map Node.extent := by
    rw [List.map_replicate]
    refine List.eq_replicate_iff.mpr ⟨?_, ?_⟩
    · rw [List.length_map, List.length_cons, six]
    · intro extent member
      have inChain := List.mem_append_right (before.map Node.extent) member
      rw [others] at inChain
      exact List.eq_of_mem_replicate inChain
  have alike := rewind_all_alike searched
  rw [List.map_replicate, blank_rewind] at alike
  exact alike

theorem Grown.before_eq_nil_iff (grown : Grown size pool) :
    pool.before = [] ↔ pool.chain.length ≤ 7 := by
  have searched := grown.searched
  have length : pool.chain.length = pool.before.length + (pool.after.length + 1) := by
    unfold Pool.chain
    rw [List.length_append, List.length_cons]
  rw [← List.length_eq_zero_iff, length]
  have moved := grown.moved
  rw [← List.length_eq_zero_iff] at moved
  omega

end

section

variable {size base : UInt64} {pool used last : Pool} {first : List Ask} {cycles : List (List Ask)}
  {events later : List Event}

theorem mpCreatePool_grown (aligned : 32 ∣ base.toNat) : Grown size (mpCreatePool size base []) := by
  refine ⟨?_, ?_, rfl, Nat.zero_le _, .inl rfl⟩
  · unfold mpCreatePool
    simp only
    split
    · exact UInt64.le_refl _
    · rename_i big
      exact UInt64.not_lt.mp big
  · have bound := base.toNat_lt
    have skew : (base + sizeofPool).toNat % 32 = (0 + sizeofPool).toNat % 32 := by
      rw [UInt64.toNat_add]
      show (base.toNat + 24) % 2 ^ 64 % 32 = 24
      omega
    have bytes : base + sizeofPool + sizeofNode + size - (base + sizeofPool) =
        0 + sizeofPool + sizeofNode + size - (0 + sizeofPool) := by grind
    show [((base + sizeofPool).toNat % 32, base + sizeofPool + sizeofNode + size - (base + sizeofPool))] =
      [((0 + sizeofPool).toNat % 32, 0 + sizeofPool + sizeofNode + size - (0 + sizeofPool))]
    rw [skew, bytes]

/-- After its first requests a new pool serves them again exactly if they fit
into seven blocks. -/
theorem served_iff_fitsSeven (aligned : 32 ∣ base.toNat) (provided : Provided first)
    (serves : ServesAll (mpCreatePool size base []) first used) :
    (FirstFit.pack Demand.fill (first.map Ask.demand) (emptied used)).isSome ↔
      FitsSeven size (first.map Ask.demand) := by
  have created := @mpCreatePool_grown size base aligned
  have grown := serves.grown provided created
  have extents := created.extents
  have same : List.Forall₂ Alike [(mpCreatePool size base []).current] [blankHead size] :=
    rewind_all_alike extents
  have counts {spare : Nat} (seven : 1 + spare ≤ 7) :
      used.chain.length ≤ 1 + spare ↔
        (FirstFit.pack Demand.fill (first.map Ask.demand)
          (blankHead size :: List.replicate spare (blank size))).isSome :=
    serves.length_le_iff provided created rfl same seven
  have positive := chain_length_pos used
  unfold FitsSeven
  rw [← counts (Nat.le_refl 7)]
  by_cases isFirst : used.before = []
  · have few := grown.before_eq_nil_iff.mp isFirst
    rw [pack_isSome_iff (grown.emptied_alike isFirst), ← counts (by omega)]
    exact iff_of_true (by omega) (.inl few)
  · have many := mt grown.before_eq_nil_iff.mpr isFirst
    rw [pack_isSome_iff (grown.emptied_alike_of_moved isFirst)]
    exact (or_iff_right many).symm

/-- However often the same requests are made again after a reset: the pool keeps
its blocks exactly if its nodes from `current` on, emptied, serve the requests
each time. For a new pool, and with memory for every block it asks for, that is if
the requests fit into seven blocks. -/
theorem length_eq_iff_served (small : ∀ ask ∈ first, ask.demand.size ≤ pool.max)
    (repeats : ∀ cycle ∈ cycles, cycle.map Ask.demand = first.map Ask.demand)
    (ran : (machine size base).runFrom (some pool) (first.map Ask.call) =
      some (some used, events))
    (again : (machine size base).runFrom (some used) (cycles.flatMap cycleCalls) =
      some (some last, later)) :
    (last.chain.length = used.chain.length ↔ ∀ cycle ∈ cycles, ServedFrom (emptied used) cycle) ∧
      (pool = mpCreatePool size base [] → 32 ∣ base.toNat → cycles ≠ [] → Provided first →
        (∀ cycle ∈ cycles, Provided cycle) →
        (last.chain.length = used.chain.length ↔ FitsSeven size (first.map Ask.demand))) := by
  obtain ⟨_, isUsed, serves⟩ := servesAll_of_runFrom small ran
  obtain rfl := Option.some.inj isUsed
  have smallAgain : ∀ cycle ∈ cycles, ∀ ask ∈ cycle, ask.demand.size ≤ used.max := by
    intro cycle isCycle ask isAsk
    have member : ask.demand ∈ first.map Ask.demand := by
      rw [← repeats cycle isCycle]
      exact List.mem_map_of_mem isAsk
    obtain ⟨original, isOriginal, same⟩ := List.mem_map.mp member
    rw [serves.max, ← same]
    exact small original isOriginal
  obtain ⟨_, isLast, _, exact⟩ := cycles_length_eq_iff smallAgain again
  obtain rfl := Option.some.inj isLast
  refine ⟨exact, ?_⟩
  intro isNew aligned repeated provided providedAgain
  subst isNew
  rw [exact, ← served_iff_fitsSeven aligned provided serves]
  have each {cycle : List Ask} (isCycle : cycle ∈ cycles) :
      ServedFrom (emptied used) cycle ↔
        (FirstFit.pack Demand.fill (first.map Ask.demand) (emptied used)).isSome := by
    rw [servedFrom_iff_pack (providedAgain cycle isCycle), repeats cycle isCycle]
  constructor
  · intro served
    obtain ⟨cycle, isCycle⟩ := List.exists_mem_of_ne_nil cycles repeated
    exact (each isCycle).mp (served cycle isCycle)
  · intro packs cycle isCycle
    exact (each isCycle).mpr packs

end

/-- A request that the head serves, and one that needs another block. -/
def pairAsks : List Ask := [⟨.alloc 100, []⟩, ⟨.nalloc 200, [4096]⟩]

/-- The same requests, for which the system is not asked. -/
def pairAgain : List Ask := [⟨.alloc 100, []⟩, ⟨.nalloc 200, []⟩]

def pairPool : Pool := ⟨256, [], ⟨88, 228, 376, 0⟩, [⟨4096, 4328, 4384, 0⟩], []⟩

theorem pairAsks_served :
    (∀ cycle ∈ [pairAgain, pairAgain], ServedFrom (emptied pairPool) cycle) ∧
      FitsSeven 256 (pairAsks.map Ask.demand) := by
  have ran : (machine 256 64).runFrom (some (mpCreatePool 256 64 [])) (pairAsks.map Ask.call) =
      some (some pairPool, [.carved 128 100, .returned 128, .block 4096 288, .carved 4128 200,
        .returned 4128]) := by decide
  have again : (machine 256 64).runFrom (some pairPool)
      ([pairAgain, pairAgain].flatMap cycleCalls) =
      some (some pairPool, [.rewound, .carved 128 100, .returned 128, .carved 4128 200,
        .returned 4128, .rewound, .carved 128 100, .returned 128, .carved 4128 200,
        .returned 4128]) := by decide
  have exact := length_eq_iff_served (by decide) (by decide) ran again
  have provided : Provided pairAsks := by simp [Provided, pairAsks]
  have providedAgain : ∀ cycle ∈ [pairAgain, pairAgain], Provided cycle := by
    simp [Provided, pairAgain]
  exact ⟨exact.1.mp rfl, (exact.2 rfl (by decide) (by decide) provided providedAgain).mp rfl⟩

/-- Eight requests of a block each, in blocks from the address on. -/
def eightAsks (addr : UInt64) : List Ask :=
  (List.range 8).map fun index => ⟨.nalloc 64, [addr + 128 * UInt64.ofNat index]⟩

/-- The eight requests need a ninth block after the reset. -/
theorem eightAsks_grow :
    ∃ used last events later,
      (machine 64 64).runFrom (some (mpCreatePool 64 64 [])) ((eightAsks 4096).map Ask.call) =
        some (some used, events) ∧
      (machine 64 64).runFrom (some used) (cycleCalls (eightAsks 8192)) =
        some (some last, later) ∧
      last.chain.length ≠ used.chain.length := by
  refine ⟨_, _, _, _, rfl, rfl, by decide⟩

end SimpleBasicComponents.MemoryPool
