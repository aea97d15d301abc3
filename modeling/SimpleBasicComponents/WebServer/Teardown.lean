import Mathlib.Data.List.Nodup
import Mathlib.Data.List.Perm.Subperm
import SimpleBasicComponents.Semantics.Ensures
import SimpleBasicComponents.WebServer.Growth

/-!
`ntyreactor_destory`.

Owns: the loop over the blocks, and what it gives back after any run, whichever
`malloc`s fail. A block is in the table exactly if both `malloc`s for it succeed. If
only the second one fails, the array is in no block, and nothing frees it.
-/

namespace SimpleBasicComponents.WebServer

open SimpleBasicComponents.Semantics

namespace Table

/-- One turn of the loop; the state is the memory and `blk`. -/
def destoryTurn : Heap Eventblock × Heap (List Ntyevent) × Option Addr →
    Turn (Heap Eventblock × Heap (List Ntyevent) × Option Addr) (Heap Eventblock × Heap (List Ntyevent))
  | (blocks, arrays, none) => .leave (blocks, arrays)
  | (blocks, arrays, some blk) =>
      match blocks.load blk with
      | none => .fault
      | some block =>
          match arrays.free block.events with
          | none => .fault
          | some arrays =>
              match blocks.free blk with
              | none => .fault
              | some blocks => .again (blocks, arrays, block.next)

/-- What is left of the memory. The reactor is not changed, and `epfd` is closed. -/
def ntyreactorDestory (table : Table) (fuel : Nat) : Option (Heap Eventblock × Heap (List Ntyevent)) :=
  loop destoryTurn fuel (table.blocks, table.arrays, table.reactor.evblk)

/-! ### What there is to free -/

/-- What the first calls of `malloc` made: blocks with their arrays, and arrays that never
got a block. -/
inductive Made (grants : Nat → Bool) : Nat → Nat → Nat → Prop where
  | nothing : Made grants 0 0 0
  | noArray {mallocs made lost : Nat} (before : Made grants mallocs made lost)
      (refused : grants mallocs = false) : Made grants (mallocs + 1) made lost
  | noBlock {mallocs made lost : Nat} (before : Made grants mallocs made lost)
      (granted : grants mallocs = true) (refused : grants (mallocs + 1) = false) :
      Made grants (mallocs + 2) made (lost + 1)
  | block {mallocs made lost : Nat} (before : Made grants mallocs made lost)
      (granted : grants mallocs = true) (grantedToo : grants (mallocs + 1) = true) :
      Made grants (mallocs + 2) (made + 1) lost

/-- The blocks are those of the chain, each with an array of its own. -/
structure Stocked (grants : Nat → Bool) (table : Table) (chain : List (Addr × Addr)) : Prop where
  linked : Linked table.blocks table.reactor.evblk chain
  counted : table.reactor.blkcnt = chain.length
  only : ∀ addr, (table.blocks.load addr).isSome → addr ∈ chain.map Prod.fst
  apart : (chain.map Prod.fst).Nodup
  distinct : (chain.map Prod.snd).Nodup
  arrays : ∀ addr < table.arrays.length, (table.arrays.load addr).isSome
  within : ∀ entry ∈ chain, entry.2 < table.arrays.length
  made : ∃ lost, Made grants table.mallocs chain.length lost ∧ table.arrays.length = chain.length + lost

section

variable {table next : Table} {blocks after : Heap Eventblock} {arrays : Heap (List Ntyevent)}
  {link : Option Addr} {chain before : List (Addr × Addr)} {first blk block events evs : Addr}
  {grants : Nat → Bool} {fuel : Nat} {epfd sockfd result : Int} {slot : EventAddr} {ev : Ntyevent}

theorem Linked.congr (linked : Linked blocks link chain)
    (same : ∀ entry ∈ chain, after.load entry.1 = blocks.load entry.1) : Linked after link chain := by
  induction chain generalizing link with
  | nil => exact linked
  | cons entry rest inductionHypothesis =>
      have isHead := linked.1
      obtain ⟨further, loads, linkedRest⟩ := linked.2
      have sameHead := same entry List.mem_cons_self
      exact ⟨isHead, further, sameHead.trans loads, inductionHypothesis linkedRest
        fun other member => same other (List.mem_cons_of_mem _ member)⟩

theorem Linked.load (linked : Linked blocks link chain) {entry : Addr × Addr} (member : entry ∈ chain) :
    ∃ further, blocks.load entry.1 = some ⟨further, entry.2⟩ := by
  induction chain generalizing link with
  | nil => cases member
  | cons head rest inductionHypothesis =>
      obtain ⟨further, loads, linkedRest⟩ := linked.2
      cases List.mem_cons.mp member with
      | inl isHead =>
          rw [isHead]
          exact ⟨further, loads⟩
      | inr later => exact inductionHypothesis linkedRest later

/-- A new block behind the last one. -/
theorem Linked.snoc (linked : Linked blocks link (before ++ [(blk, events)]))
    (same : ∀ entry ∈ before, after.load entry.1 = blocks.load entry.1)
    (relinked : after.load blk = some ⟨some block, events⟩) (isNew : after.load block = some ⟨none, evs⟩) :
    Linked after link (before ++ [(blk, events), (block, evs)]) := by
  induction before generalizing link with
  | nil => exact ⟨linked.1, some block, relinked, rfl, none, isNew, rfl⟩
  | cons entry rest inductionHypothesis =>
      have isHead := linked.1
      obtain ⟨further, loads, linkedRest⟩ := linked.2
      have sameHead := same entry List.mem_cons_self
      exact ⟨isHead, further, sameHead.trans loads, inductionHypothesis linkedRest
        fun other member => same other (List.mem_cons_of_mem _ member)⟩

theorem lastBlock_eq (linked : Linked blocks (some first) chain)
    (walks : loop (lastBlockTurn blocks) fuel first = some blk) :
    ∃ before events, chain = before ++ [(blk, events)] ∧ blocks.load blk = some ⟨none, events⟩ := by
  induction chain generalizing first fuel with
  | nil => cases linked
  | cons entry rest inductionHypothesis =>
      have isHead : first = entry.1 := Option.some.inj linked.1
      obtain ⟨further, loads, linkedRest⟩ := linked.2
      rw [isHead] at walks
      cases fuel with
      | zero => cases walks
      | succ fuel =>
          cases further with
          | none =>
              have turn : lastBlockTurn blocks entry.1 = .leave entry.1 := by simp only [lastBlockTurn, loads]
              rw [loop_leave turn] at walks
              rw [← Option.some.inj walks]
              cases rest with
              | nil => exact ⟨[], entry.2, rfl, loads⟩
              | cons other rest => cases linkedRest.1
          | some other =>
              have turn : lastBlockTurn blocks entry.1 = .again other := by simp only [lastBlockTurn, loads]
              rw [loop_again turn] at walks
              obtain ⟨earlier, events, isRest, isLast⟩ := inductionHypothesis linkedRest walks
              exact ⟨entry :: earlier, events, by rw [isRest, List.cons_append], isLast⟩

/-! ### What the calls keep -/

theorem isSome_alloc (all : ∀ addr < arrays.length, (arrays.load addr).isSome) (cell : List Ntyevent) :
    ∀ addr < (arrays.alloc cell).length, ((arrays.alloc cell).load addr).isSome := by
  intro addr below
  by_cases isNew : addr = arrays.length
  · rw [isNew, Heap.load_alloc_self]
    rfl
  · rw [Heap.load_alloc_other isNew]
    rw [Heap.length_alloc] at below
    exact all addr (by omega)

/-- An array without a block. -/
theorem Stocked.lose (stocked : Stocked grants table chain) (granted : grants table.mallocs = true)
    (refused : grants (table.mallocs + 1) = false) (cell : List Ntyevent) :
    Stocked grants { table with arrays := table.arrays.alloc cell, mallocs := table.mallocs + 2 } chain := by
  obtain ⟨lost, made, total⟩ := stocked.made
  refine ⟨stocked.linked, stocked.counted, stocked.only, stocked.apart, stocked.distinct,
    isSome_alloc stocked.arrays cell, ?_, lost + 1, made.noBlock granted refused, ?_⟩
  · intro entry member
    rw [Heap.length_alloc]
    exact Nat.lt_succ_of_lt (stocked.within entry member)
  · rw [Heap.length_alloc, total, Nat.add_assoc]

theorem Stocked.refuse (stocked : Stocked grants table chain) (refused : grants table.mallocs = false) :
    Stocked grants { table with mallocs := table.mallocs + 1 } chain := by
  obtain ⟨lost, made, total⟩ := stocked.made
  exact ⟨stocked.linked, stocked.counted, stocked.only, stocked.apart, stocked.distinct, stocked.arrays,
    stocked.within, lost, made.noArray refused, total⟩

/-- A block with its array, wherever it is linked in. -/
theorem Stocked.extend (stocked : Stocked grants table chain) (granted : grants table.mallocs = true)
    (grantedToo : grants (table.mallocs + 1) = true) (cell : List Ntyevent)
    (linked : Linked blocks link (chain ++ [(table.blocks.length, table.arrays.length)]))
    (only : ∀ addr, (blocks.load addr).isSome → (table.blocks.load addr).isSome ∨ addr = table.blocks.length) :
    Stocked grants ⟨⟨table.reactor.epfd, table.reactor.blkcnt + 1, link⟩, blocks, table.arrays.alloc cell,
      table.mallocs + 2⟩ (chain ++ [(table.blocks.length, table.arrays.length)]) := by
  obtain ⟨lost, made, total⟩ := stocked.made
  refine ⟨linked, ?_, ?_, ?_, ?_, isSome_alloc stocked.arrays cell, ?_, lost, ?_, ?_⟩
  · rw [stocked.counted, List.length_append, List.length_singleton]
    rfl
  · intro addr found
    rw [List.map_append, List.mem_append]
    cases only addr found with
    | inl wasThere => exact .inl (stocked.only addr wasThere)
    | inr isNew => exact .inr (by rw [isNew]; exact List.mem_singleton_self _)
  · rw [List.map_append]
    refine List.nodup_append.mpr ⟨stocked.apart, List.nodup_singleton _, ?_⟩
    intro addr member other isNew same
    obtain ⟨entry, inChain, isAddr⟩ := List.mem_map.mp member
    obtain ⟨further, loads⟩ := stocked.linked.load inChain
    have below := Heap.lt_length_of_load loads
    rw [isAddr, same, List.mem_singleton.mp isNew] at below
    exact Nat.lt_irrefl _ below
  · rw [List.map_append]
    refine List.nodup_append.mpr ⟨stocked.distinct, List.nodup_singleton _, ?_⟩
    intro addr member other isNew same
    obtain ⟨entry, inChain, isAddr⟩ := List.mem_map.mp member
    have below := stocked.within entry inChain
    rw [isAddr, same, List.mem_singleton.mp isNew] at below
    exact Nat.lt_irrefl _ below
  · intro entry member
    rw [Heap.length_alloc]
    cases List.mem_append.mp member with
    | inl earlier => exact Nat.lt_succ_of_lt (stocked.within entry earlier)
    | inr isNew =>
        rw [List.mem_singleton.mp isNew]
        exact Nat.lt_succ_self _
  · rw [List.length_append, List.length_singleton]
    exact made.block granted grantedToo
  · rw [Heap.length_alloc, total, List.length_append, List.length_singleton]
    omega

theorem Stocked.alloc (stocked : Stocked grants table chain)
    (allocs : table.ntyreactorAlloc grants fuel = some (next, result)) : ∃ longer, Stocked grants next longer := by
  unfold ntyreactorAlloc at allocs
  split at allocs
  · rw [← (Prod.mk.inj (Option.some.inj allocs)).1]
    exact ⟨chain, stocked⟩
  · rename_i first isFirst
    split at allocs
    · cases allocs
    · rename_i blk walks
      have linked := stocked.linked
      rw [isFirst] at linked
      obtain ⟨before, events, isChain, isLast⟩ := lastBlock_eq linked walks
      cases granted : grants table.mallocs with
      | false =>
          simp only [newBlock, granted, Bool.false_eq_true, if_false] at allocs
          rw [← (Prod.mk.inj (Option.some.inj allocs)).1]
          exact ⟨chain, stocked.refuse granted⟩
      | true =>
          cases grantedToo : grants (table.mallocs + 1) with
          | false =>
              simp only [newBlock, granted, grantedToo, Bool.false_eq_true, if_true, if_false] at allocs
              rw [← (Prod.mk.inj (Option.some.inj allocs)).1]
              exact ⟨chain, stocked.lose granted grantedToo _⟩
          | true =>
              have stillLast : (table.blocks.alloc ⟨none, table.arrays.length⟩).load blk = some ⟨none, events⟩ :=
                Heap.load_alloc_of_load isLast
              obtain ⟨relinked, stores, _, here, others⟩ :=
                Heap.store_eq_some stillLast ⟨some table.blocks.length, events⟩
              simp only [newBlock, granted, grantedToo, if_true, stillLast, stores] at allocs
              rw [← (Prod.mk.inj (Option.some.inj allocs)).1]
              have isOld : ∀ entry ∈ chain, entry.1 ≠ table.blocks.length := by
                intro entry member
                obtain ⟨further, loads⟩ := stocked.linked.load member
                exact Nat.ne_of_lt (Heap.lt_length_of_load loads)
              have blkOld : blk ≠ table.blocks.length := Nat.ne_of_lt (Heap.lt_length_of_load isLast)
              have apart := stocked.apart
              rw [isChain] at linked apart isOld
              rw [List.map_append, List.nodup_append] at apart
              have longer : Linked relinked (some first)
                  (before ++ [(blk, events), (table.blocks.length, table.arrays.length)]) := by
                apply linked.snoc _ here
                · rw [others _ blkOld.symm, Heap.load_alloc_self]
                · intro entry member
                  have notLast : entry.1 ≠ blk :=
                    apart.2.2 entry.1 (List.mem_map_of_mem member) blk (List.mem_singleton_self _)
                  rw [others _ notLast, Heap.load_alloc_other (isOld entry (List.mem_append_left _ member))]
              have isLonger : before ++ [(blk, events), (table.blocks.length, table.arrays.length)] =
                  chain ++ [(table.blocks.length, table.arrays.length)] := by
                rw [isChain, List.append_assoc]
                rfl
              rw [isLonger] at longer
              rw [isFirst]
              refine ⟨_, stocked.extend granted grantedToo _ longer ?_⟩
              intro addr found
              by_cases isNew : addr = table.blocks.length
              · exact .inr isNew
              · left
                by_cases isBlk : addr = blk
                · rw [isBlk, isLast]
                  rfl
                · rw [others addr isBlk, Heap.load_alloc_other isNew] at found
                  exact found

theorem Stocked.idx (stocked : Stocked grants table chain)
    (finds : table.ntyreactorIdx grants fuel sockfd = some (next, slot)) : ∃ longer, Stocked grants next longer := by
  have keeps : ∀ state, (∃ longer, Stocked grants state longer) →
      (growTurn grants fuel (sockfd.tdiv maxEpollEvents) state).Within
        (fun grown => ∃ longer, Stocked grants grown longer) fun grown => ∃ longer, Stocked grants grown longer := by
    intro state holds
    unfold growTurn
    split
    · split
      · rename_i grown result allocs
        obtain ⟨longer, stockedState⟩ := holds
        exact stockedState.alloc allocs
      · trivial
    · exact holds
  unfold ntyreactorIdx at finds
  simp only at finds
  split at finds
  · cases finds
  · rename_i grown looped
    split at finds
    · cases finds
    · cases finds
    · split at finds
      · rw [← (Prod.mk.inj (Option.some.inj finds)).1]
        exact Ensures.of_turns keeps ⟨chain, stocked⟩ grown looped
      · cases finds

theorem Stocked.write (stocked : Stocked grants table chain) (writes : table.write slot ev = some next) :
    Stocked grants next chain := by
  unfold Table.write at writes
  split at writes
  · rename_i found loads
    split at writes
    · obtain ⟨stored, stores, length, here, others⟩ := Heap.store_eq_some loads (found.set slot.2.toNat ev)
      simp only [stores] at writes
      rw [← Option.some.inj writes]
      refine ⟨stocked.linked, stocked.counted, stocked.only, stocked.apart, stocked.distinct, ?_, ?_, ?_⟩
      · intro addr below
        by_cases same : addr = slot.1
        · rw [same, here]
          rfl
        · rw [others addr same]
          rw [length] at below
          exact stocked.arrays addr below
      · intro entry member
        rw [length]
        exact stocked.within entry member
      · rw [length]
        exact stocked.made
    · cases writes
  · cases writes

theorem stocked_empty (grants : Nat → Bool) (epfd : Int) : Stocked grants ⟨⟨epfd, 0, none⟩, [], [], 0⟩ [] where
  linked := rfl
  counted := rfl
  only := fun addr found => by simp [Heap.load] at found
  apart := List.nodup_nil
  distinct := List.nodup_nil
  arrays := fun _ below => absurd below (Nat.not_lt_zero _)
  within := fun _ member => absurd member List.not_mem_nil
  made := ⟨0, .nothing, rfl⟩

theorem stocked_init (grants : Nat → Bool) (epfd : Int) :
    ∃ chain, Stocked grants (ntyreactorInit grants epfd).1 chain := by
  have empty := stocked_empty grants epfd
  unfold ntyreactorInit
  by_cases failed : epfd ≤ 0
  · simp only [if_pos failed]
    exact ⟨[], empty⟩
  · simp only [if_neg failed]
    cases granted : grants 0 with
    | false =>
        simp only [newBlock, granted, Bool.false_eq_true, if_false]
        exact ⟨[], empty.refuse granted⟩
    | true =>
        cases grantedToo : grants 1 with
        | false =>
            simp only [newBlock, granted, Nat.zero_add, grantedToo, Bool.false_eq_true, if_true, if_false]
            exact ⟨[], empty.lose granted grantedToo _⟩
        | true =>
            simp only [newBlock, granted, Nat.zero_add, grantedToo, if_true]
            refine ⟨_, @Stocked.extend _ _ _ _ _ empty granted grantedToo _ ⟨rfl, none, rfl, rfl⟩ ?_⟩
            intro addr found
            by_cases isNew : addr = 0
            · exact .inr isNew
            · rw [Heap.load_alloc_other isNew] at found
              exact .inl found

theorem exec_stocked {uses : List Use} {found : List Found}
    (exec : (machine grants epfd fuel).Exec uses table found) : ∃ chain, Stocked grants table chain := by
  induction exec with
  | start => exact stocked_init grants epfd
  | step before taken inductionHypothesis =>
      rename_i earlier state next seen shown use
      obtain ⟨chain, stocked⟩ := inductionHypothesis
      cases use with
      | idx sockfd =>
          have taken : step grants fuel state (.idx sockfd) = some (next, shown) := taken
          rw [step] at taken
          split at taken
          · rename_i grown slot finds
            rw [← (Prod.mk.inj (Option.some.inj taken)).1]
            exact stocked.idx finds
          · cases taken
      | write slot ev =>
          have taken : step grants fuel state (.write slot ev) = some (next, shown) := taken
          rw [step] at taken
          split at taken
          · rename_i written writes
            rw [← (Prod.mk.inj (Option.some.inj taken)).1]
            exact ⟨chain, stocked.write writes⟩
          · cases taken

/-! ### What is given back -/

/-- Each block goes with its array. -/
theorem destoryLoop_eq (linked : Linked blocks link chain) (apart : (chain.map Prod.fst).Nodup)
    (distinct : (chain.map Prod.snd).Nodup) (there : ∀ entry ∈ chain, (arrays.load entry.2).isSome)
    (enough : chain.length < fuel) :
    ∃ lastBlocks lastArrays, blocks.freeAll (chain.map Prod.fst) = some lastBlocks ∧
      arrays.freeAll (chain.map Prod.snd) = some lastArrays ∧
      loop destoryTurn fuel (blocks, arrays, link) = some (lastBlocks, lastArrays) := by
  induction chain generalizing blocks arrays link fuel with
  | nil =>
      have isNull : link = none := linked
      rw [isNull]
      cases fuel with
      | zero => exact absurd enough (Nat.lt_irrefl _)
      | succ fuel =>
          have turn : destoryTurn (blocks, arrays, none) = .leave (blocks, arrays) := rfl
          exact ⟨blocks, arrays, rfl, rfl, loop_leave turn⟩
  | cons entry rest inductionHypothesis =>
      have isHead := linked.1
      obtain ⟨further, loads, linkedRest⟩ := linked.2
      obtain ⟨cell, isCell⟩ := Option.isSome_iff_exists.mp (there entry List.mem_cons_self)
      obtain ⟨blocksNext, frees, _, sameBlocks⟩ := Heap.free_eq_some loads
      obtain ⟨arraysNext, freesArray, _, sameArrays⟩ := Heap.free_eq_some isCell
      rw [List.map_cons, List.nodup_cons] at apart distinct
      have linkedNext : Linked blocksNext further rest := by
        apply linkedRest.congr
        intro other member
        exact sameBlocks other.1 fun same => apart.1 (same ▸ List.mem_map_of_mem member)
      have thereNext : ∀ other ∈ rest, (arraysNext.load other.2).isSome := by
        intro other member
        rw [sameArrays other.2 fun same => distinct.1 (same ▸ List.mem_map_of_mem member)]
        exact there other (List.mem_cons_of_mem _ member)
      cases fuel with
      | zero => exact absurd enough (Nat.not_lt_zero _)
      | succ fuel =>
          obtain ⟨lastBlocks, lastArrays, freesRest, freesArraysRest, runs⟩ :=
            inductionHypothesis linkedNext apart.2 distinct.2 thereNext (Nat.lt_of_succ_lt_succ enough)
          have turn : destoryTurn (blocks, arrays, link) = .again (blocksNext, arraysNext, further) := by
            simp only [isHead, destoryTurn, loads, freesArray, frees]
          refine ⟨lastBlocks, lastArrays, ?_, ?_, by rw [loop_again turn, runs]⟩
          · rw [List.map_cons, Heap.freeAll, frees]
            exact freesRest
          · rw [List.map_cons, Heap.freeAll, freesArray]
            exact freesArraysRest

/-- What `ntyreactor_destory` frees: every block and its array, once. What is left are the
arrays that never got a block. -/
structure GivenBack (grants : Nat → Bool) (table : Table) (chain : List (Addr × Addr))
    (blocks : Heap Eventblock) (arrays : Heap (List Ntyevent)) : Prop where
  linked : Linked table.blocks table.reactor.evblk chain
  counted : table.reactor.blkcnt = chain.length
  destroys : ∀ fuel, chain.length < fuel → table.ntyreactorDestory fuel = some (blocks, arrays)
  freesBlocks : table.blocks.freeAll (chain.map Prod.fst) = some blocks
  freesArrays : table.arrays.freeAll (chain.map Prod.snd) = some arrays
  noBlock : ∀ addr, blocks.load addr = none
  left : ∀ addr, (arrays.load addr).isSome ↔ addr < table.arrays.length ∧ addr ∉ chain.map Prod.snd
  lost : ∃ lost, Made grants table.mallocs chain.length lost ∧ table.arrays.length = chain.length + lost
  whole : (∀ n, grants n = true) → ∀ addr, arrays.load addr = none

theorem Made.lost_eq_zero {mallocs made lost : Nat} (parts : Made grants mallocs made lost)
    (granted : ∀ n, grants n = true) : lost = 0 := by
  induction parts with
  | nothing => rfl
  | noArray before refused inductionHypothesis => exact inductionHypothesis
  | noBlock before isGranted refused inductionHypothesis =>
      rw [granted] at refused
      cases refused
  | block before isGranted grantedToo inductionHypothesis => exact inductionHypothesis

/-- With memory for all of them every array is in a block. -/
theorem Stocked.mem_of_granted (stocked : Stocked grants table chain) (granted : ∀ n, grants n = true)
    {addr : Addr} (below : addr < table.arrays.length) : addr ∈ chain.map Prod.snd := by
  obtain ⟨lost, made, total⟩ := stocked.made
  rw [made.lost_eq_zero granted, Nat.add_zero] at total
  have inRange : chain.map Prod.snd ⊆ List.range table.arrays.length := by
    intro other member
    obtain ⟨entry, inChain, isAddr⟩ := List.mem_map.mp member
    rw [← isAddr, List.mem_range]
    exact stocked.within entry inChain
  have few : (List.range table.arrays.length).length ≤ (chain.map Prod.snd).length := by
    rw [List.length_range, List.length_map, total]
  have same := (List.subperm_of_subset stocked.distinct inRange).perm_of_length_le few
  exact same.mem_iff.mpr (List.mem_range.mpr below)

theorem Stocked.givesBack (stocked : Stocked grants table chain) :
    ∃ blocks arrays, GivenBack grants table chain blocks arrays := by
  have there : ∀ entry ∈ chain, (table.arrays.load entry.2).isSome := fun entry member =>
    stocked.arrays entry.2 (stocked.within entry member)
  have live : ∀ addr ∈ chain.map Prod.fst, (table.blocks.load addr).isSome := by
    intro addr member
    obtain ⟨entry, inChain, isAddr⟩ := List.mem_map.mp member
    obtain ⟨further, loads⟩ := stocked.linked.load inChain
    rw [← isAddr, loads]
    rfl
  have liveArrays : ∀ addr ∈ chain.map Prod.snd, (table.arrays.load addr).isSome := by
    intro addr member
    obtain ⟨entry, inChain, isAddr⟩ := List.mem_map.mp member
    rw [← isAddr]
    exact there entry inChain
  obtain ⟨blocks, freesBlocks, _, gone, kept⟩ := Heap.freeAll_eq_some stocked.apart live
  obtain ⟨arrays, freesArrays, _, goneArrays, keptArrays⟩ := Heap.freeAll_eq_some stocked.distinct liveArrays
  refine ⟨blocks, arrays, stocked.linked, stocked.counted, ?_, freesBlocks, freesArrays, ?_, ?_, stocked.made, ?_⟩
  · intro fuel enough
    obtain ⟨lastBlocks, lastArrays, frees, freesToo, runs⟩ :=
      destoryLoop_eq stocked.linked stocked.apart stocked.distinct there enough
    rw [freesBlocks] at frees
    rw [freesArrays] at freesToo
    rw [ntyreactorDestory, runs, Option.some.inj frees, Option.some.inj freesToo]
  · intro addr
    by_cases member : addr ∈ chain.map Prod.fst
    · exact gone addr member
    · rw [kept addr member]
      by_contra isThere
      exact member (stocked.only addr (Option.isSome_iff_ne_none.mpr isThere))
  · intro addr
    by_cases member : addr ∈ chain.map Prod.snd
    · rw [goneArrays addr member]
      constructor
      · intro isThere
        cases isThere
      · intro both
        exact absurd member both.2
    · rw [keptArrays addr member]
      constructor
      · intro isThere
        obtain ⟨cell, loads⟩ := Option.isSome_iff_exists.mp isThere
        exact ⟨Heap.lt_length_of_load loads, member⟩
      · intro both
        exact stocked.arrays addr both.1
  · intro granted addr
    by_cases below : addr < table.arrays.length
    · exact goneArrays addr (stocked.mem_of_granted granted below)
    · by_cases member : addr ∈ chain.map Prod.snd
      · exact goneArrays addr member
      · rw [keptArrays addr member]
        by_contra isThere
        obtain ⟨cell, loads⟩ := Option.ne_none_iff_exists'.mp isThere
        exact below (Heap.lt_length_of_load loads)

/-- After any run, whichever `malloc`s fail. -/
theorem exec_givesBack {uses : List Use} {found : List Found}
    (exec : (machine grants epfd fuel).Exec uses table found) :
    ∃ chain blocks arrays, GivenBack grants table chain blocks arrays := by
  obtain ⟨chain, stocked⟩ := exec_stocked exec
  obtain ⟨blocks, arrays, givenBack⟩ := stocked.givesBack
  exact ⟨chain, blocks, arrays, givenBack⟩

/-- The second block was refused once, and its first array is lost. -/
theorem secondBlock_givenBack :
    ∃ table found chain blocks arrays, (machine (fun n => n != 3) 3 10).Exec [.idx 1500] table found ∧
      GivenBack (fun n => n != 3) table chain blocks arrays := by
  have ran := (machine (fun n => n != 3) 3 10).exec_of_isSome [.idx 1500] rfl
  obtain ⟨chain, blocks, arrays, givenBack⟩ := exec_givesBack ran
  exact ⟨_, _, chain, blocks, arrays, ran, givenBack⟩

end

end Table

end SimpleBasicComponents.WebServer
