import SimpleBasicComponents.BlockList.Elements

/-!
The end of a block list.

Owns: `blk_list_destroy` with `_block_destroy` and `_block_free_memory` as the source
computes them, runs of `blk_list_add_block` and `blk_list_find` in which any `malloc`
may fail, the shape that such a run keeps, and what the destruction does after it:
every block goes, but `next` runs ahead of `cur` and off the end of the list.
-/

namespace SimpleBasicComponents.BlockList

open SimpleBasicComponents.Semantics

namespace Memory

/-! ### `blk_list_destroy` -/

/-- `free`, also of `NULL`. -/
def freeArray (arrays : Heap Nat) : Option Addr → Option (Heap Nat)
  | none => some arrays
  | some array => arrays.free array

/-- The array of a block that is not marked stays. -/
def blockFreeMemory (memory : Memory) (block : Block) : Option (Memory × Block × Int) :=
  if block.shutdown then
    match freeArray memory.arrays block.array with
    | none => none
    | some arrays => some ({ memory with arrays := arrays }, { block with array := none, shutdown := true }, 0)
  else some (memory, block, -1)

def blockDestroy (memory : Memory) (addr : Addr) : Option (Memory × Int) := do
  let block ← memory.blocks.load addr
  let (memory, block, result) ← memory.blockFreeMemory { block with shutdown := true }
  let blocks ← memory.blocks.store addr block
  if result = -1 then return ({ memory with blocks := blocks }, -1)
  else
    let blocks ← blocks.free addr
    return ({ memory with blocks := blocks }, 0)

/-- The state is the memory, `cur` and `next`. A null pointer that is followed ends the
loop with an error, and with the memory as it is then; a freed block is a fault. -/
def destroyTurn : Memory × Option Addr × Option Addr →
    Turn (Memory × Option Addr × Option Addr) (Except Memory Memory)
  | (memory, none, _) => .leave (.ok memory)
  | (memory, some cur, next) =>
      match memory.blockDestroy cur with
      | none => .fault
      | some (memory, _) =>
          match next with
          | none => .leave (.error memory)
          | some behind =>
              match memory.blocks.load behind with
              | none => .fault
              | some block => .again (memory, some behind, block.next)

/-- After the loop the list itself is freed: `ok` stands for that. -/
def blkListDestroy (memory : Memory) (fuel : Nat) : Option (Except Memory Memory) :=
  match memory.list.head with
  | none => some (.error memory)
  | some head =>
      match memory.blocks.load head with
      | none => none
      | some block => loop destroyTurn fuel (memory, some head, block.next)

end Memory

/-! ### Runs -/

inductive Call where
  | addBlock (count : Int)
  | find (key : Nat)
deriving DecidableEq, Repr

inductive Event where
  | added (count result : Int)
  | found (key : Nat) (pointer : Pointer)
deriving DecidableEq, Repr

def callStep (grants : Nat → Bool) (fuel : Nat) (memory : Memory) : Call → Option (Memory × List Event)
  | .addBlock count =>
      (memory.blkListAddBlock grants fuel count).map fun added => (added.1, [.added count added.2])
  | .find key =>
      (memory.blkListFind grants fuel key).map fun found => (found.1, [.found key found.2])

def callMachine (grants : Nat → Bool) (fuel : Nat) (start : Memory) : Machine Memory Call Event where
  start := start
  step := callStep grants fuel

/-- A list with a block or two, or with none if no memory was found for the first. -/
structure Standing (memory : Memory) (itemSize : Nat) (chain : List (Addr × Block)) : Prop where
  linked : Linked memory.blocks memory.list.head chain
  uncounted : memory.list.blkNums = 0
  width : memory.list.blkArrayItemSize = itemSize
  valid : ∀ entry ∈ chain, entry.2.shutdown = false
  room : ∀ entry ∈ chain, ∃ array, entry.2.array = some array ∧
    memory.arrays.load array = some (itemSize * blkArraySizeMax)
  apart : (chain.map Prod.fst).Nodup
  distinct : (chain.map fun entry => entry.2.array).Nodup
  short : chain.length ≤ 2

section

variable {memory next : Memory} {blocks after : Heap Block} {link : Option Addr} {chain rest : List (Addr × Block)}
  {addr array : Addr} {block : Block} {itemSize fuel key : Nat} {count result : Int} {grants : Nat → Bool}

theorem Linked.congr (linked : Linked blocks link chain)
    (same : ∀ entry ∈ chain, after.load entry.1 = blocks.load entry.1) : Linked after link chain := by
  induction chain generalizing link with
  | nil => exact linked
  | cons head rest inductionHypothesis =>
      have ⟨isHead, loads, linkedRest⟩ := linked
      have sameHead := same head List.mem_cons_self
      exact ⟨isHead, sameHead.trans loads, inductionHypothesis linkedRest
        fun entry member => same entry (List.mem_cons_of_mem _ member)⟩

/-! ### Destroying -/

/-- A block goes with its array. -/
theorem blockDestroy_eq (loads : memory.blocks.load addr = some block) (isArray : block.array = some array)
    (there : (memory.arrays.load array).isSome) :
    ∃ blocks arrays, memory.blocks.free addr = some blocks ∧ memory.arrays.free array = some arrays ∧
      memory.blockDestroy addr = some ({ memory with blocks := blocks, arrays := arrays }, 0) := by
  have ⟨size, isSize⟩ := Option.isSome_iff_exists.mp there
  have frees : memory.blocks.free addr = some (memory.blocks.set addr none) := by
    rw [Heap.free, loads]
  have freesArray : memory.arrays.free array = some (memory.arrays.set array none) := by
    rw [Heap.free, isSize]
  refine ⟨_, _, frees, freesArray, ?_⟩
  have below := Heap.lt_length_of_load loads
  -- what is written to the block before it is freed is gone with it
  have stores : memory.blocks.store addr ⟨block.next, true, none⟩ =
      some (memory.blocks.set addr (some ⟨block.next, true, none⟩)) := by
    rw [Heap.store, loads]
  have freesStored : Heap.free (memory.blocks.set addr (some ⟨block.next, true, none⟩)) addr =
      some (memory.blocks.set addr none) := by
    simp [Heap.free, Heap.load, below]
  simp [Memory.blockDestroy, Memory.blockFreeMemory, Memory.freeArray, loads, isArray, freesArray, stores, freesStored]

/-- Each block is freed with its array, and then the null pointer behind the last one is
followed. -/
theorem destroyLoop_crashes {entry : Addr × Block} (linked : Linked memory.blocks link (entry :: rest))
    (apart : ((entry :: rest).map Prod.fst).Nodup)
    (distinct : ((entry :: rest).map fun entry => entry.2.array).Nodup)
    (room : ∀ other ∈ entry :: rest, ∃ array, other.2.array = some array ∧ (memory.arrays.load array).isSome)
    (enough : rest.length < fuel) :
    ∃ blocks arrays, memory.blocks.freeAll ((entry :: rest).map Prod.fst) = some blocks ∧
      memory.arrays.freeAll ((entry :: rest).filterMap fun entry => entry.2.array) = some arrays ∧
      loop Memory.destroyTurn fuel (memory, some entry.1, entry.2.next) =
        some (.error { memory with blocks := blocks, arrays := arrays }) := by
  induction rest generalizing memory link entry fuel with
  | nil =>
      obtain ⟨array, isArray, there⟩ := room entry List.mem_cons_self
      obtain ⟨_, loads, isLast⟩ := linked
      obtain ⟨blocks, arrays, frees, freesArray, destroys⟩ := blockDestroy_eq loads isArray there
      refine ⟨blocks, arrays, by simp [Heap.freeAll, frees], by simp [Heap.freeAll, isArray, freesArray], ?_⟩
      obtain ⟨fuel, rfl⟩ := Nat.exists_eq_add_of_lt enough
      have noNext : entry.2.next = none := isLast
      apply loop_leave
      simp only [Memory.destroyTurn, destroys, noNext]
  | cons other rest inductionHypothesis =>
      obtain ⟨array, isArray, there⟩ := room entry List.mem_cons_self
      obtain ⟨_, loads, linkedRest⟩ := linked
      obtain ⟨notLater, apartRest⟩ := List.nodup_cons.mp apart
      obtain ⟨notShared, distinctRest⟩ := List.nodup_cons.mp distinct
      obtain ⟨blocks, arrays, frees, freesArray, destroys⟩ := blockDestroy_eq loads isArray there
      obtain ⟨size, isSize⟩ := Option.isSome_iff_exists.mp there
      obtain ⟨blocks', freesAgain, _, sameBlocks⟩ := Heap.free_eq_some loads
      obtain ⟨arrays', freesArrayAgain, _, sameArrays⟩ := Heap.free_eq_some isSize
      obtain rfl := Option.some.inj (frees.symm.trans freesAgain)
      obtain rfl := Option.some.inj (freesArray.symm.trans freesArrayAgain)
      have linkedAfter : Linked blocks entry.2.next (other :: rest) := by
        apply linkedRest.congr
        intro later member
        exact sameBlocks later.1 fun same => notLater (same ▸ List.mem_map_of_mem member)
      have roomAfter : ∀ later ∈ other :: rest, ∃ array, later.2.array = some array ∧
          (arrays.load array).isSome := by
        intro later member
        obtain ⟨array', isArray', there'⟩ := room later (List.mem_cons_of_mem _ member)
        have different : array' ≠ array := by
          intro same
          have shares : later.2.array = entry.2.array := by rw [isArray', isArray, same]
          exact notShared (List.mem_map.mpr ⟨later, member, shares⟩)
        exact ⟨array', isArray', by rw [sameArrays array' different]; exact there'⟩
      rw [List.length_cons] at enough
      obtain ⟨fuel, rfl⟩ := Nat.exists_eq_succ_of_ne_zero (Nat.ne_of_gt (Nat.zero_lt_of_lt enough))
      obtain ⟨lastBlocks, lastArrays, freesRest, freesArraysRest, crashes⟩ :=
        @inductionHypothesis { memory with blocks := blocks, arrays := arrays } entry.2.next fuel other linkedAfter
          apartRest distinctRest roomAfter (Nat.lt_of_succ_lt_succ enough)
      refine ⟨lastBlocks, lastArrays, ?_, ?_, ?_⟩
      · rw [List.map_cons, Heap.freeAll, frees]
        exact freesRest
      · rw [List.filterMap_cons, isArray]
        simp only [Heap.freeAll, freesArray]
        exact freesArraysRest
      · have goesOn : Memory.destroyTurn (memory, some entry.1, entry.2.next) =
            .again ({ memory with blocks := blocks, arrays := arrays }, some other.1, other.2.next) := by
          simp only [Memory.destroyTurn, destroys, linkedAfter.1, linkedAfter.2.1]
        rw [loop_again goesOn]
        exact crashes

theorem Standing.crashes (standing : Standing memory itemSize chain) (enough : 2 < fuel) :
    ∃ blocks arrays, memory.blocks.freeAll (chain.map Prod.fst) = some blocks ∧
      memory.arrays.freeAll (chain.filterMap fun entry => entry.2.array) = some arrays ∧
      memory.blkListDestroy fuel = some (.error { memory with blocks := blocks, arrays := arrays }) := by
  have ⟨linked, _, _, _, room, apart, distinct, short⟩ := standing
  cases chain with
  | nil =>
      have isNull : memory.list.head = none := linked
      exact ⟨memory.blocks, memory.arrays, rfl, rfl, by rw [Memory.blkListDestroy, isNull]⟩
  | cons entry rest =>
      have there : ∀ other ∈ entry :: rest, ∃ array, other.2.array = some array ∧
          (memory.arrays.load array).isSome := by
        intro other member
        have ⟨array, isArray, isSize⟩ := room other member
        exact ⟨array, isArray, by rw [isSize]; rfl⟩
      rw [List.length_cons] at short
      have within : rest.length < fuel := by omega
      have ⟨blocks, arrays, frees, freesArrays, ends⟩ := destroyLoop_crashes linked apart distinct there within
      refine ⟨blocks, arrays, frees, freesArrays, ?_⟩
      simp only [Memory.blkListDestroy, linked.1, linked.2.1]
      exact ends

/-! ### Adding -/

/-- There is a new block with an array of its own, or nothing has changed. -/
theorem blockCreate_cases (memory : Memory) (grants : Nat → Bool) (itemSize : Nat) :
    (∃ mallocs, memory.blockCreate grants itemSize = ({ memory with mallocs := mallocs }, none)) ∨
      ∃ mallocs, memory.blockCreate grants itemSize =
        (⟨memory.list, memory.blocks.alloc ⟨none, false, some memory.arrays.length⟩,
          memory.arrays.alloc (itemSize * blkArraySizeMax), mallocs⟩, some memory.blocks.length) := by
  unfold Memory.blockCreate Memory.blockAllocMemory
  by_cases granted : grants memory.mallocs = true
  · rw [if_pos granted]
    by_cases grantedArray : grants (memory.mallocs + 1) = true
    · exact .inr ⟨memory.mallocs + 2, by simp [grantedArray]⟩
    · exact .inl ⟨memory.mallocs + 2, by simp [grantedArray]⟩
  · exact .inl ⟨memory.mallocs + 1, by rw [if_neg granted]⟩

theorem standing_none (uncounted : memory.list.blkNums = 0) (width : memory.list.blkArrayItemSize = itemSize)
    (head : memory.list.head = none) : Standing memory itemSize [] where
  linked := head
  uncounted := uncounted
  width := width
  valid := by simp
  room := by simp
  apart := List.nodup_nil
  distinct := List.nodup_nil
  short := Nat.zero_le 2

theorem standing_one (uncounted : memory.list.blkNums = 0) (width : memory.list.blkArrayItemSize = itemSize)
    (head : memory.list.head = some addr) (loads : memory.blocks.load addr = some ⟨none, false, some array⟩)
    (size : memory.arrays.load array = some (itemSize * blkArraySizeMax)) :
    Standing memory itemSize [(addr, ⟨none, false, some array⟩)] where
  linked := ⟨head, loads, rfl⟩
  uncounted := uncounted
  width := width
  valid := by simp
  room := by simp [size]
  apart := List.nodup_singleton _
  distinct := List.nodup_singleton _
  short := Nat.le_succ 1

theorem standing_two {behind other : Addr} (uncounted : memory.list.blkNums = 0)
    (width : memory.list.blkArrayItemSize = itemSize) (head : memory.list.head = some addr)
    (loads : memory.blocks.load addr = some ⟨some behind, false, some array⟩)
    (loadsBehind : memory.blocks.load behind = some ⟨none, false, some other⟩)
    (size : memory.arrays.load array = some (itemSize * blkArraySizeMax))
    (sizeBehind : memory.arrays.load other = some (itemSize * blkArraySizeMax))
    (apart : addr ≠ behind) (distinct : array ≠ other) :
    Standing memory itemSize
      [(addr, ⟨some behind, false, some array⟩), (behind, ⟨none, false, some other⟩)] where
  linked := ⟨head, loads, rfl, loadsBehind, rfl⟩
  uncounted := uncounted
  width := width
  valid := by simp
  room := by simp [size, sizeBehind]
  apart := by simp [apart]
  distinct := by simp [distinct]
  short := Nat.le_refl 2

/-- What the loop does to a list of one new block: it goes round once at most. -/
theorem Standing.addLoop (standing : Standing memory itemSize [(addr, ⟨none, false, some array⟩)])
    (isTail : memory.list.tail = some addr)
    (adds : loop (Memory.addBlockTurn grants) fuel (memory, count) = some (next, result)) :
    ∃ after, Standing next itemSize after := by
  have linked := standing.linked
  have uncounted := standing.uncounted
  have width := standing.width
  obtain ⟨array', isArray, size⟩ := standing.room _ List.mem_cons_self
  obtain rfl := Option.some.inj isArray
  have loads : memory.blocks.load addr = some ⟨none, false, some array⟩ := linked.2.1
  obtain ⟨fuel, rfl⟩ : ∃ more, fuel = more + 1 := by
    cases fuel with
    | zero => cases adds
    | succ more => exact ⟨more, rfl⟩
  by_cases asked : count = 0
  · cases blockCreate_cases memory grants memory.list.blkArrayItemSize with
    | inl refused =>
        obtain ⟨mallocs, created⟩ := refused
        obtain ⟨blocks, stores, _, here, _⟩ := Heap.store_eq_some loads ⟨none, false, some array⟩
        have leaves : Memory.addBlockTurn grants (memory, count) =
            .leave (⟨{ memory.list with tail := none }, blocks, memory.arrays, mallocs⟩, -1) := by
          simp only [Memory.addBlockTurn, asked, isTail, created, loads, stores, if_true]
        rw [loop_leave leaves] at adds
        obtain ⟨rfl, -⟩ := Prod.mk.inj (Option.some.inj adds)
        exact ⟨_, standing_one uncounted width linked.1 here size⟩
    | inr made =>
        obtain ⟨mallocs, created⟩ := made
        rw [width] at created
        have below := (Heap.lt_length_of_load loads).ne
        have loadsAfter := @Heap.load_alloc_of_load _ _ _ ⟨none, false, some memory.arrays.length⟩ _ loads
        obtain ⟨blocks, stores, _, here, others⟩ :=
          Heap.store_eq_some loadsAfter ⟨some memory.blocks.length, false, some array⟩
        have goesOn : Memory.addBlockTurn grants (memory, count) =
            .again (⟨{ memory.list with tail := some memory.blocks.length }, blocks,
              memory.arrays.alloc (itemSize * blkArraySizeMax), mallocs⟩, -1) := by
          simp [Memory.addBlockTurn, asked, isTail, width, created, loadsAfter, stores]
        rw [loop_again goesOn] at adds
        cases fuel with
        | zero => cases adds
        | succ fuel =>
            -- `count--` has made it -1
            rw [loop_leave (by simp [Memory.addBlockTurn]; rfl)] at adds
            obtain ⟨rfl, -⟩ := Prod.mk.inj (Option.some.inj adds)
            refine ⟨_, standing_two uncounted width linked.1 here ?_ (Heap.load_alloc_of_load size)
              Heap.load_alloc_self below (Heap.lt_length_of_load size).ne⟩
            rw [others _ below.symm]
            exact Heap.load_alloc_self
  · rw [loop_leave (by simp [Memory.addBlockTurn, asked]; rfl)] at adds
    obtain ⟨rfl, -⟩ := Prod.mk.inj (Option.some.inj adds)
    exact ⟨_, standing⟩

theorem Standing.addBlock (standing : Standing memory itemSize chain)
    (adds : memory.blkListAddBlock grants fuel count = some (next, result)) :
    ∃ after, Standing next itemSize after := by
  have uncounted := standing.uncounted
  have width := standing.width
  unfold Memory.blkListAddBlock at adds
  split at adds
  · obtain ⟨rfl, -⟩ := Prod.mk.inj (Option.some.inj adds)
    exact ⟨_, standing⟩
  · split at adds
    · obtain ⟨rfl, -⟩ := Prod.mk.inj (Option.some.inj adds)
      exact ⟨_, standing⟩
    · rename_i notNegative notZero
      split at adds
      · cases blockCreate_cases memory grants memory.list.blkArrayItemSize with
        | inl refused =>
            obtain ⟨mallocs, created⟩ := refused
            rw [created] at adds
            simp only at adds
            cases fuel with
            | zero => cases adds
            | succ fuel =>
                by_cases asked : count - 1 = 0
                · rw [loop_fault (by simp [Memory.addBlockTurn, asked])] at adds
                  cases adds
                · rw [loop_leave (by simp [Memory.addBlockTurn, asked]; rfl)] at adds
                  obtain ⟨rfl, -⟩ := Prod.mk.inj (Option.some.inj adds)
                  exact ⟨_, standing_none uncounted width rfl⟩
        | inr made =>
            obtain ⟨mallocs, created⟩ := made
            rw [width] at created
            rw [width, created] at adds
            have one : Standing ⟨⟨some memory.blocks.length, some memory.blocks.length, memory.list.blkNums,
                memory.list.blkArrayItemSize⟩, memory.blocks.alloc ⟨none, false, some memory.arrays.length⟩,
                memory.arrays.alloc (itemSize * blkArraySizeMax), mallocs⟩ itemSize
                [(memory.blocks.length, ⟨none, false, some memory.arrays.length⟩)] :=
              standing_one uncounted width rfl Heap.load_alloc_self Heap.load_alloc_self
            exact one.addLoop rfl adds
      · cases fuel with
        | zero => cases adds
        | succ fuel =>
            rw [loop_leave (by simp [Memory.addBlockTurn, notZero]; rfl)] at adds
            obtain ⟨rfl, -⟩ := Prod.mk.inj (Option.some.inj adds)
            exact ⟨_, standing⟩

/-! ### Looking up -/

/-- Only what is in the first two blocks is found. -/
theorem Standing.find {pointer : Pointer} (standing : Standing memory itemSize chain) (enough : 2 < fuel)
    (finds : memory.blkListFind grants fuel key = some (next, pointer)) :
    Memory.blkNo key < 2 ∧ ∃ after, Standing next itemSize after := by
  unfold Memory.blkListFind at finds
  rw [standing.uncounted, if_pos (Nat.zero_le _)] at finds
  cases added : memory.blkListAddBlock grants fuel ((Memory.blkNo key + 1 : Nat) - ((0 : Nat) : Int)) with
  | none =>
      rw [added] at finds
      cases finds
  | some outcome =>
      have ⟨after, standingAfter⟩ := @Standing.addBlock _ outcome.1 _ _ _ _ outcome.2 _ standing added
      have short := standingAfter.short
      rw [added] at finds
      simp only at finds
      by_cases within : Memory.blkNo key ≤ after.length
      · rw [walk_found standingAfter.linked (by omega) (Nat.add_comm 1 _) within (by omega)] at finds
        simp only at finds
        cases found : after[Memory.blkNo key]? with
        | none =>
            rw [found] at finds
            cases finds
        | some entry =>
            have member := List.mem_of_getElem? found
            have inside := (List.getElem?_eq_some_iff.mp found).1
            rw [found] at finds
            simp only [Option.map_some, Memory.element, standingAfter.linked.load_of_mem member,
              Memory.blockIsvalid, standingAfter.valid entry member, Bool.not_false, if_true] at finds
            obtain ⟨rfl, -⟩ := Prod.mk.inj (Option.some.inj finds)
            exact ⟨by omega, after, standingAfter⟩
      · rw [walk_fault standingAfter.linked (blkNo_le key) (Nat.add_comm 1 _) (by omega)] at finds
        cases finds

theorem blkListCreate_standing {start : Memory} (isCreated : blkListCreate grants itemSize = some start) :
    Standing start itemSize [] := by
  unfold blkListCreate at isCreated
  split at isCreated
  · cases isCreated
  · split at isCreated
    · rw [← Option.some.inj isCreated]
      exact standing_none rfl rfl rfl
    · cases isCreated

/-! ### Whole runs -/

theorem exec_standing {start : Memory} {calls : List Call} {events : List Event}
    (isCreated : blkListCreate grants itemSize = some start) (enough : 2 < fuel)
    (exec : (callMachine grants fuel start).Exec calls memory events) :
    (∃ chain, Standing memory itemSize chain) ∧
      ∀ key pointer, .found key pointer ∈ events → Memory.blkNo key < 2 := by
  induction exec with
  | start => exact ⟨⟨[], blkListCreate_standing isCreated⟩, by simp⟩
  | step ran taken inductionHypothesis =>
      rename_i before state next seen shown call
      have ⟨⟨chain, standing⟩, near⟩ := inductionHypothesis
      cases call with
      | addBlock count =>
          have ⟨added, isAdded, isShown⟩ := Option.map_eq_some_iff.mp taken
          obtain ⟨rfl, rfl⟩ := Prod.mk.inj isShown
          refine ⟨@Standing.addBlock _ _ _ _ _ _ added.2 _ standing isAdded, ?_⟩
          intro key pointer member
          cases List.mem_append.mp member with
          | inl earlier => exact near key pointer earlier
          | inr new => cases List.mem_singleton.mp new
      | find key =>
          have ⟨found, isFound, isShown⟩ := Option.map_eq_some_iff.mp taken
          obtain ⟨rfl, rfl⟩ := Prod.mk.inj isShown
          have ⟨isNear, after⟩ := @Standing.find _ _ _ _ _ _ _ found.2 standing enough isFound
          refine ⟨after, ?_⟩
          intro other pointer member
          cases List.mem_append.mp member with
          | inl earlier => exact near other pointer earlier
          | inr new =>
              have ⟨same, _⟩ := Event.found.inj (List.mem_singleton.mp new)
              exact same ▸ isNear

/-- Whatever `malloc` answers, a list never has more than two blocks, nothing beyond them is
found, and its destruction frees each of them once, with its array, and then follows a null
pointer: the list itself is never freed. -/
theorem exec_crashes {start : Memory} {calls : List Call} {events : List Event}
    (isCreated : blkListCreate grants itemSize = some start) (enough : 2 < fuel)
    (exec : (callMachine grants fuel start).Exec calls memory events) :
    ∃ chain, Linked memory.blocks memory.list.head chain ∧ chain.length ≤ 2 ∧
      (∀ entry ∈ chain, entry.2.array.isSome) ∧
      (∀ key pointer, .found key pointer ∈ events → Memory.blkNo key < 2) ∧
      ∃ blocks arrays, memory.blocks.freeAll (chain.map Prod.fst) = some blocks ∧
        memory.arrays.freeAll (chain.filterMap fun entry => entry.2.array) = some arrays ∧
        memory.blkListDestroy fuel = some (.error { memory with blocks := blocks, arrays := arrays }) := by
  have ⟨⟨chain, standing⟩, near⟩ := exec_standing isCreated enough exec
  refine ⟨chain, standing.linked, standing.short, ?_, near, standing.crashes enough⟩
  intro entry member
  have ⟨array, isArray, _⟩ := standing.room entry member
  rw [isArray]
  rfl

end

/-- The fourth `malloc` finds no memory, so the next block takes the place of the first. -/
theorem replaced_crashes : ∃ memory events,
    (callMachine (fun ordinal => ordinal != 3) 3 ⟨⟨none, none, 0, 4⟩, [], [], 1⟩).Exec
      [.addBlock 1, .find 5, .addBlock 1] memory events ∧
    ∃ chain, Linked memory.blocks memory.list.head chain ∧ chain.length ≤ 2 ∧
      (∀ entry ∈ chain, entry.2.array.isSome) ∧
      (∀ key pointer, .found key pointer ∈ events → Memory.blkNo key < 2) ∧
      ∃ blocks arrays, memory.blocks.freeAll (chain.map Prod.fst) = some blocks ∧
        memory.arrays.freeAll (chain.filterMap fun entry => entry.2.array) = some arrays ∧
        memory.blkListDestroy 3 = some (.error { memory with blocks := blocks, arrays := arrays }) :=
  have exec := (callMachine (fun ordinal => ordinal != 3) 3 ⟨⟨none, none, 0, 4⟩, [], [], 1⟩).exec_of_isSome
    [.addBlock 1, .find 5, .addBlock 1] (by decide +kernel)
  ⟨_, _, exec, @exec_crashes _ 4 3 _ _ _ _ rfl (by decide) exec⟩

end SimpleBasicComponents.BlockList
