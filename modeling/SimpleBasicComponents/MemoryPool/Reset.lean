import SimpleBasicComponents.MemoryPool.Blocks
import SimpleBasicComponents.Semantics.FirstFit

/-!
Using the memory pool again after a reset.

Owns: requests served from the chain as first fit into its blocks, and when the
same requests after `mp_reset_pool` get by with the blocks they had before.
`mp_reset_pool` empties every block but leaves `pool->current` where it is, so
the blocks before it are never searched again.
-/

namespace SimpleBasicComponents.MemoryPool

open SimpleBasicComponents.Semantics

/-! ### Requests for the chain -/

/-- A request of `mp_alloc` or of `mp_nalloc`. -/
inductive Demand where
  | alloc (size : UInt64)
  | nalloc (size : UInt64)
deriving DecidableEq, Repr

namespace Demand

def size : Demand → UInt64
  | .alloc size | .nalloc size => size

def place : Demand → UInt64 → UInt64
  | .alloc _ => mpAlignPtr
  | .nalloc _ => fun p => p

def request : Demand → Request
  | .alloc size => .alloc size
  | .nalloc size => .nalloc size

/-- One turn of the loops of `mp_alloc` and of `mp_nalloc`: the node if it serves
the request. -/
def fill (demand : Demand) (node : Node) : Option Node :=
  let m := demand.place node.last
  if node.endPtr - m ≥ demand.size then some { node with last := m + demand.size } else none

end Demand

/-- A request and what the system answers during it. -/
structure Ask where
  demand : Demand
  answers : List UInt64
deriving DecidableEq, Repr

def Ask.call (ask : Ask) : Call := ⟨ask.demand.request, ask.answers⟩

/-- `mp_reset_pool` and the requests. -/
def cycleCalls (asks : List Ask) : List Call := ⟨.resetPool, []⟩ :: asks.map Ask.call

/-- The nodes serve the requests one after the other, the first node with room
each time, unless there is no room and `posix_memalign` has no block either. -/
def ServedFrom (nodes : List Node) : List Ask → Prop
  | [] => True
  | ask :: asks =>
      match FirstFit.insert Demand.fill ask.demand nodes with
      | some filled => ServedFrom filled asks
      | none => ask.answers.head? = some 0 ∧ ServedFrom nodes asks

/-- The nodes from `pool->current` on, emptied. -/
def emptied (pool : Pool) : List Node := (pool.current :: pool.after).map Node.rewind

section

variable {size base : UInt64} {pool next : Pool} {demand : Demand} {answers : List UInt64}
  {reply : Reply}

theorem takeRoom_eq_insert (demand : Demand) (p : Node) (after : List Node) :
    FirstFit.insert Demand.fill demand (p :: after) =
      (takeRoom demand.place demand.size p after).map fun found => found.1.1 :: found.1.2 := by
  induction after generalizing p with
  | nil =>
      unfold takeRoom FirstFit.insert Demand.fill
      by_cases fits : p.endPtr - demand.place p.last ≥ demand.size
      · simp only [fits, if_true]
        rfl
      · simp only [fits, if_false]
        rfl
  | cons next after inductionHypothesis =>
      unfold takeRoom FirstFit.insert
      rw [inductionHypothesis next]
      unfold Demand.fill
      by_cases fits : p.endPtr - demand.place p.last ≥ demand.size
      · simp only [fits, if_true]
        rfl
      · simp only [fits, if_false]
        cases takeRoom demand.place demand.size next after <;> rfl

/-- What a request does to the pool: a node from `current` on serves it, or there
is no room in them and a block is asked for. -/
inductive Serves (pool : Pool) (demand : Demand) (answers : List UInt64) : Pool → Prop
  | here {current : Node} {after : List Node}
      (taken : FirstFit.insert Demand.fill demand (pool.current :: pool.after) =
        some (current :: after)) :
      Serves pool demand answers { pool with current := current, after := after }
  | failed (full : FirstFit.insert Demand.fill demand (pool.current :: pool.after) = none)
      (refused : answers.head? = some 0) : Serves pool demand answers pool
  | grown {addr : UInt64}
      (full : FirstFit.insert Demand.fill demand (pool.current :: pool.after) = none)
      (obtained : answers.head? = some addr) (nonNull : addr ≠ 0) :
      Serves pool demand answers (pool.append (freshNode pool addr demand.size))

theorem allocSmall_serves
    (replies : allocSmall demand.place pool demand.size answers = some reply) :
    Serves pool demand answers reply.pool := by
  have insert := takeRoom_eq_insert demand pool.current pool.after
  unfold allocSmall at replies
  cases found : takeRoom demand.place demand.size pool.current pool.after with
  | some result =>
      rw [found] at insert replies
      obtain rfl := Option.some.inj replies
      exact .here insert
  | none =>
      rw [found] at insert replies
      obtain ⟨addr, rest, rfl, ⟨isNull, rfl⟩ | ⟨nonNull, rfl⟩⟩ := mpAllocBlock_cases replies
      · exact .failed insert (congrArg some isNull)
      · exact .grown insert rfl nonNull

theorem step_serves {ask : Ask} {session : Option Pool} {shown : List Event}
    (small : ask.demand.size ≤ pool.max)
    (taken : step (some pool) ask.call = some (session, shown)) :
    ∃ next, session = some next ∧ Serves pool ask.demand ask.answers next := by
  obtain ⟨demand, answers⟩ := ask
  cases demand with
  | alloc n =>
      have ⟨reply, replies, same, _⟩ := answered_eq taken
      have served : mpAlloc (answers.length + 1) pool n answers =
          allocSmall mpAlignPtr pool n answers := if_pos small
      have serves := @allocSmall_serves pool (.alloc n) answers reply (served.symm.trans replies)
      exact ⟨reply.pool, same, serves⟩
  | nalloc n =>
      have ⟨reply, replies, same, _⟩ := answered_eq taken
      have served : mpNalloc (answers.length + 1) pool n answers =
          allocSmall (fun p => p) pool n answers := if_pos small
      have serves := @allocSmall_serves pool (.nalloc n) answers reply (served.symm.trans replies)
      exact ⟨reply.pool, same, serves⟩

end

/-! ### Runs of requests -/

/-- The requests in turn, with what the system answers during them. -/
inductive ServesAll : Pool → List Ask → Pool → Prop
  | nil (pool : Pool) : ServesAll pool [] pool
  | cons {pool next last : Pool} {ask : Ask} {asks : List Ask}
      (small : ask.demand.size ≤ pool.max)
      (serves : Serves pool ask.demand ask.answers next) (rest : ServesAll next asks last) :
      ServesAll pool (ask :: asks) last

section

variable {size base : UInt64} {pool next last : Pool} {demand : Demand} {answers : List UInt64}
  {asks : List Ask} {events : List Event}

theorem Serves.max (serves : Serves pool demand answers next) : next.max = pool.max := by
  cases serves with
  | here taken => rfl
  | failed full refused => rfl
  | grown full obtained nonNull => exact append_max _ _

theorem ServesAll.max (serves : ServesAll pool asks last) : last.max = pool.max := by
  induction serves with
  | nil pool => rfl
  | cons small serves rest inductionHypothesis => exact inductionHypothesis.trans serves.max

theorem append_chain_length (pool : Pool) (newNode : Node) :
    (pool.append newNode).chain.length = pool.chain.length + 1 := by
  have lengths := congrArg List.length (@append_chain_map _ Node.addr (fun _ => rfl) pool newNode)
  rw [List.length_map, List.length_append, List.length_map] at lengths
  exact lengths

theorem chain_length_of_insert {current : Node} {after : List Node}
    (taken : FirstFit.insert Demand.fill demand (pool.current :: pool.after) =
      some (current :: after)) :
    ({ pool with current := current, after := after } : Pool).chain.length = pool.chain.length := by
  unfold Pool.chain
  rw [List.length_append, List.length_append, FirstFit.insert_length taken]

theorem Serves.length_le (serves : Serves pool demand answers next) :
    pool.chain.length ≤ next.chain.length := by
  cases serves with
  | here taken => exact Nat.le_of_eq (chain_length_of_insert taken).symm
  | failed full refused => exact Nat.le_refl _
  | grown full obtained nonNull =>
      rw [append_chain_length]
      exact Nat.le_succ _

theorem ServesAll.length_le (serves : ServesAll pool asks last) :
    pool.chain.length ≤ last.chain.length := by
  induction serves with
  | nil pool => exact Nat.le_refl _
  | cons small serves rest inductionHypothesis =>
      exact Nat.le_trans serves.length_le inductionHypothesis

theorem servesAll_of_runFrom {session : Option Pool}
    (small : ∀ ask ∈ asks, ask.demand.size ≤ pool.max)
    (ran : (machine size base).runFrom (some pool) (asks.map Ask.call) = some (session, events)) :
    ∃ last, session = some last ∧ ServesAll pool asks last := by
  induction asks generalizing pool events with
  | nil =>
      obtain ⟨rfl, -⟩ := Prod.mk.inj (Option.some.inj ran)
      exact ⟨pool, rfl, .nil pool⟩
  | cons ask asks inductionHypothesis =>
      have smallHere := small ask List.mem_cons_self
      rw [List.map_cons, Machine.runFrom] at ran
      split at ran
      · contradiction
      · rename_i state shown taken
        obtain ⟨next, rfl, serves⟩ := step_serves smallHere taken
        split at ran
        · contradiction
        · rename_i final later ranRest
          obtain ⟨rfl, -⟩ := Prod.mk.inj (Option.some.inj ran)
          have smallRest : ∀ other ∈ asks, other.demand.size ≤ next.max := by
            intro other member
            rw [serves.max]
            exact small other (List.mem_cons_of_mem _ member)
          obtain ⟨last, same, rest⟩ := inductionHypothesis smallRest ranRest
          exact ⟨last, same, .cons smallHere serves rest⟩

/-! ### Requests that need no block -/

/-- Whatever does not look at `last` is the same when a node has served a request. -/
theorem Demand.fill_see {View : Type*} {see : Node → View}
    (blind : ∀ (node : Node) (last : UInt64), see { node with last := last } = see node)
    (node filled : Node) (taken : demand.fill node = some filled) : see filled = see node := by
  unfold Demand.fill at taken
  simp only at taken
  split at taken
  · obtain rfl := Option.some.inj taken
    exact blind _ _
  · contradiction

theorem insert_see {View : Type*} {see : Node → View}
    (blind : ∀ (node : Node) (last : UInt64), see { node with last := last } = see node)
    {nodes filled : List Node} (taken : FirstFit.insert Demand.fill demand nodes = some filled) :
    filled.map see = nodes.map see :=
  FirstFit.insert_map (Demand.fill_see blind) taken

/-- A request served without a new block is forgotten by the reset. -/
theorem Serves.reset_eq (serves : Serves pool demand answers next)
    (same : next.chain.length = pool.chain.length) :
    (mpResetPool next).1 = (mpResetPool pool).1 := by
  cases serves with
  | @here current after taken =>
      have rewound : (current :: after).map Node.rewind =
          (pool.current :: pool.after).map Node.rewind := insert_see (fun _ _ => rfl) taken
      have ⟨first, others⟩ := List.cons.inj rewound
      unfold mpResetPool
      simp only [first, others]
  | failed full refused => rfl
  | grown full obtained nonNull =>
      rw [append_chain_length] at same
      omega

theorem ServesAll.reset_eq (serves : ServesAll pool asks last)
    (same : last.chain.length = pool.chain.length) :
    (mpResetPool last).1 = (mpResetPool pool).1 := by
  induction serves with
  | nil pool => rfl
  | cons small serves rest inductionHypothesis =>
      have first := serves.length_le
      have later := rest.length_le
      rw [inductionHypothesis (by omega), serves.reset_eq (by omega)]

/-- The chain stays as long as it is exactly if its nodes from `current` on serve
the requests. -/
theorem ServesAll.length_eq_iff (serves : ServesAll pool asks last) :
    last.chain.length = pool.chain.length ↔ ServedFrom (pool.current :: pool.after) asks := by
  induction serves with
  | nil pool => exact iff_of_true rfl trivial
  | @cons pool next last ask asks small serves rest inductionHypothesis =>
      unfold ServedFrom
      cases serves with
      | here taken =>
          rw [taken, ← chain_length_of_insert taken]
          exact inductionHypothesis
      | failed full refused =>
          rw [full, inductionHypothesis]
          exact (and_iff_right refused).symm
      | grown full obtained nonNull =>
          have more := rest.length_le
          rw [append_chain_length] at more
          rw [full, obtained]
          constructor
          · intro same
            omega
          · intro served
            exact absurd (Option.some.inj served.1) nonNull

/-! ### Cycles of a reset and requests -/

theorem mpResetPool_idem (pool : Pool) :
    (mpResetPool (mpResetPool pool).1).1 = (mpResetPool pool).1 := by
  simp [mpResetPool, Node.rewind]

theorem mpResetPool_chain_length (pool : Pool) :
    (mpResetPool pool).1.chain.length = pool.chain.length := by
  rw [mpResetPool_chain, List.length_map]

theorem emptied_eq {other : Pool} (same : (mpResetPool pool).1 = (mpResetPool other).1) :
    emptied pool = emptied other := by
  have ⟨first, others⟩ : pool.current.rewind = other.current.rewind ∧
      pool.after.map Node.rewind = other.after.map Node.rewind :=
    ⟨congrArg Pool.current same, congrArg Pool.after same⟩
  unfold emptied
  rw [List.map_cons, List.map_cons, first, others]

variable {cycle : List Ask} {cycles : List (List Ask)} {used : Pool}

/-- What a cycle does to the number of blocks, and what it leaves to the next. -/
theorem cycle_length_eq_iff {session : Option Pool}
    (small : ∀ ask ∈ cycle, ask.demand.size ≤ used.max)
    (ran : (machine size base).runFrom (some used) (cycleCalls cycle) = some (session, events)) :
    ∃ last, session = some last ∧ last.max = used.max ∧ used.chain.length ≤ last.chain.length ∧
      (last.chain.length = used.chain.length ↔ ServedFrom (emptied used) cycle) ∧
      (last.chain.length = used.chain.length → emptied last = emptied used) := by
  unfold cycleCalls Machine.runFrom at ran
  split at ran
  · contradiction
  · rename_i state shown taken
    obtain ⟨rfl, -⟩ := Prod.mk.inj (Option.some.inj taken)
    split at ran
    · contradiction
    · rename_i final later rest
      obtain ⟨rfl, -⟩ := Prod.mk.inj (Option.some.inj ran)
      have smallNow : ∀ ask ∈ cycle, ask.demand.size ≤ (mpResetPool used).1.max := small
      have ⟨last, same, serves⟩ := servesAll_of_runFrom smallNow rest
      have length := mpResetPool_chain_length used
      refine ⟨last, same, serves.max, ?_, ?_, ?_⟩
      · rw [← length]
        exact serves.length_le
      · rw [← length]
        exact serves.length_eq_iff
      · intro unchanged
        apply emptied_eq
        rw [serves.reset_eq (unchanged.trans length.symm), mpResetPool_idem]

theorem cycles_length_eq_iff {session : Option Pool}
    (small : ∀ cycle ∈ cycles, ∀ ask ∈ cycle, ask.demand.size ≤ used.max)
    (ran : (machine size base).runFrom (some used) (cycles.flatMap cycleCalls) =
      some (session, events)) :
    ∃ last, session = some last ∧ used.chain.length ≤ last.chain.length ∧
      (last.chain.length = used.chain.length ↔
        ∀ cycle ∈ cycles, ServedFrom (emptied used) cycle) := by
  induction cycles generalizing used events with
  | nil =>
      obtain ⟨rfl, -⟩ := Prod.mk.inj (Option.some.inj ran)
      exact ⟨used, rfl, Nat.le_refl _, iff_of_true rfl (by simp)⟩
  | cons cycle cycles inductionHypothesis =>
      rw [List.flatMap_cons, Machine.runFrom_append_iff] at ran
      obtain ⟨state, seen, shown, ranCycle, ranRest, -⟩ := ran
      obtain ⟨next, rfl, max, more, exact, kept⟩ :=
        cycle_length_eq_iff (small cycle List.mem_cons_self) ranCycle
      have smallRest : ∀ other ∈ cycles, ∀ ask ∈ other, ask.demand.size ≤ next.max := by
        intro other member
        rw [max]
        exact small other (List.mem_cons_of_mem _ member)
      have ⟨last, same, moreRest, exactRest⟩ := inductionHypothesis smallRest ranRest
      refine ⟨last, same, Nat.le_trans more moreRest, ?_⟩
      rw [List.forall_mem_cons, ← exact]
      constructor
      · intro unchanged
        have here : next.chain.length = used.chain.length := by omega
        rw [← kept here, ← exactRest]
        exact ⟨here, by omega⟩
      · intro served
        rw [← kept served.1, ← exactRest] at served
        omega

end

end SimpleBasicComponents.MemoryPool
