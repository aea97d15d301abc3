import Mathlib.Algebra.Group.Nat.Defs
import Mathlib.Algebra.Order.Group.Unbundled.Int
import SimpleBasicComponents.WebServer.FdTable

/-!
How the descriptor table grows.

Owns: the shape the table has after every call, what growing leaves as it was,
and the theorem that `ntyreactor_idx` always returns the slot of its descriptor,
each descriptor having one slot of its own.
-/

namespace SimpleBasicComponents.WebServer

open SimpleBasicComponents.Semantics

namespace Table

/-! ### What a caller sees -/

/-- The chain that begins at a link: its blocks and their arrays. -/
def Linked (blocks : Heap Eventblock) : Option Addr → List (Addr × Addr) → Prop
  | link, [] => link = none
  | link, (block, events) :: rest =>
      link = some block ∧ ∃ next, blocks.load block = some ⟨next, events⟩ ∧ Linked blocks next rest

/-- The blocks stay in their places, the slots keep their contents, and new slots
are zeroed. -/
structure Extends (table next : Table) : Prop where
  chain : ∀ chain, Linked table.blocks table.reactor.evblk chain →
    ∃ more, Linked next.blocks next.reactor.evblk (chain ++ more)
  kept : ∀ slot ev, table.read slot = some ev → next.read slot = some ev
  zeroed : ∀ slot ev, next.read slot = some ev →
    table.read slot = some ev ∨ (table.read slot = none ∧ ev = {})

/-- The count is right, and every descriptor looked up has its slot, its own one. -/
structure Tabled (table : Table) (found : List Found) : Prop where
  counted : ∃ chain, Linked table.blocks table.reactor.evblk chain ∧
    table.reactor.blkcnt = chain.length ∧
    ∀ sockfd slot, .slotOf sockfd slot ∈ found →
      ∃ block, chain[(sockfd / 1024).toNat]? = some (block, slot.1) ∧ slot.2 = sockfd % 1024
  same : ∀ sockfd slot other, .slotOf sockfd slot ∈ found → .slotOf sockfd other ∈ found →
    slot = other
  apart : ∀ sockfd other slot, .slotOf sockfd slot ∈ found → .slotOf other slot ∈ found →
    sockfd = other

variable {table next final : Table} {count more : Nat} {slot : EventAddr} {ev : Ntyevent}

/-! ### The shape of the table -/

/-- The k-th block of the chain was allocated k-th, and so was its array. -/
structure Lined (table : Table) (count : Nat) : Prop where
  head : table.reactor.evblk = some 0
  counted : table.reactor.blkcnt = count
  positive : 0 < count
  blocks : table.blocks.length = count
  linked : ∀ k, k < count →
    table.blocks.load k = some ⟨if k + 1 < count then some (k + 1) else none, k⟩
  arrays : table.arrays.length = count
  slots : ∀ k, k < count → ∃ events, table.arrays.load k = some events ∧ events.length = maxEpollEvents

theorem Linked.unique {blocks : Heap Eventblock} {link : Option Addr} {chain other : List (Addr × Addr)}
    (left : Linked blocks link chain) (right : Linked blocks link other) : chain = other := by
  induction chain generalizing link other with
  | nil =>
      cases other with
      | nil => rfl
      | cons head rest => exact absurd (right.1.symm.trans left) (by simp)
  | cons head rest inductionHypothesis =>
      cases other with
      | nil => exact absurd (left.1.symm.trans right) (by simp)
      | cons otherHead otherRest =>
          obtain ⟨isBlock, next, found, linked⟩ := left
          obtain ⟨isOther, otherNext, foundOther, linkedOther⟩ := right
          obtain ⟨block, events⟩ := head
          obtain ⟨otherBlock, otherEvents⟩ := otherHead
          obtain rfl := Option.some.inj (isBlock.symm.trans isOther)
          have same := Option.some.inj (found.symm.trans foundOther)
          obtain ⟨rfl, rfl⟩ := Eventblock.mk.inj same
          rw [inductionHypothesis linked linkedOther]

/-- The blocks from the k-th on. -/
def chainFrom (k left : Nat) : List (Addr × Addr) := (List.range' k left).map fun block => (block, block)

theorem Lined.linkedFrom (lined : Lined table count) (k left : Nat) (total : k + left = count) :
    Linked table.blocks (if k < count then some k else none) (chainFrom k left) := by
  induction left generalizing k with
  | zero =>
      rw [if_neg (by omega)]
      rfl
  | succ left inductionHypothesis =>
      rw [if_pos (by omega)]
      exact ⟨rfl, _, lined.linked k (by omega), inductionHypothesis (k + 1) (by omega)⟩

theorem Lined.chain (lined : Lined table count) :
    Linked table.blocks table.reactor.evblk (chainFrom 0 count) := by
  have linked := lined.linkedFrom 0 count (Nat.zero_add _)
  rw [if_pos lined.positive] at linked
  rw [lined.head]
  exact linked

theorem Lined.grown (lined : Lined table count) (linedNext : Lined next (count + more)) :
    ∀ chain, Linked table.blocks table.reactor.evblk chain →
      ∃ others, Linked next.blocks next.reactor.evblk (chain ++ others) := by
  intro chain linked
  obtain rfl := lined.chain.unique linked
  refine ⟨chainFrom (0 + 1 * count) more, ?_⟩
  rw [chainFrom, chainFrom, ← List.map_append, List.range'_append]
  exact linedNext.chain

/-! ### Growing -/

theorem Extends.refl (table : Table) : Extends table table :=
  ⟨fun chain linked => ⟨[], by simpa using linked⟩, fun _ _ same => same, fun _ _ same => .inl same⟩

theorem Extends.trans (first : Extends table next) (second : Extends next final) :
    Extends table final where
  chain chain linked := by
    obtain ⟨more, linkedNext⟩ := first.chain chain linked
    obtain ⟨others, linkedFinal⟩ := second.chain _ linkedNext
    exact ⟨more ++ others, by rwa [← List.append_assoc]⟩
  kept slot ev found := second.kept slot ev (first.kept slot ev found)
  zeroed slot ev found := by
    rcases second.zeroed slot ev found with earlier | ⟨absent, isZero⟩
    · exact first.zeroed slot ev earlier
    · refine .inr ⟨?_, isZero⟩
      cases before : table.read slot with
      | none => rfl
      | some old => exact absurd ((first.kept slot old before).symm.trans absent) (by simp)

/-- The walk ends at the last block. -/
private theorem Lined.last (lined : Lined table count) {fuel : Nat} (enough : count ≤ fuel) :
    loop (lastBlockTurn table.blocks) fuel 0 = some (count - 1) := by
  have progress : ∀ k : Nat, k < count →
      (∃ blk : Nat, lastBlockTurn table.blocks k = .leave blk ∧ blk = count - 1) ∨
        ∃ next : Nat, lastBlockTurn table.blocks k = .again next ∧ next < count ∧
          count - 1 - next < count - 1 - k := by
    intro k below
    have found := lined.linked k below
    by_cases more : k + 1 < count
    · rw [if_pos more] at found
      exact .inr ⟨k + 1, by simp [lastBlockTurn, found], more, by omega⟩
    · rw [if_neg more] at found
      exact .inl ⟨k, by simp [lastBlockTurn, found], by omega⟩
  have positive := lined.positive
  have less : count - 1 - 0 < fuel := by omega
  obtain ⟨blk, isLast, rfl⟩ := loop_of_measure (fun k => count - 1 - k) progress positive less
  exact isLast

/-- A new array of zeroed slots. -/
private theorem read_alloc (arrays : next.arrays = table.arrays.alloc (List.replicate maxEpollEvents {})) :
    (∀ slot ev, table.read slot = some ev → next.read slot = some ev) ∧
      ∀ slot ev, next.read slot = some ev →
        table.read slot = some ev ∨ (table.read slot = none ∧ ev = {}) := by
  have others : ∀ slot : EventAddr, slot.1 ≠ table.arrays.length → next.read slot = table.read slot := by
    intro slot old
    rw [read, read, arrays, Heap.load_alloc_other old]
  constructor
  · intro slot ev found
    rw [others slot ?_, found]
    intro isNew
    have absent : table.arrays.load table.arrays.length = none := by simp [Heap.load]
    rw [read, isNew, absent] at found
    contradiction
  · intro slot ev found
    by_cases isNew : slot.1 = table.arrays.length
    · right
      constructor
      · rw [read, isNew]
        simp [Heap.load]
      · rw [read, arrays, isNew, Heap.load_alloc_self] at found
        simp only at found
        split at found
        · exact List.eq_of_mem_replicate (List.mem_of_getElem? found)
        · contradiction
    · exact .inl ((others slot isNew).symm.trans found)

theorem Lined.alloc (lined : Lined table count) {grants : Nat → Bool} (granted : ∀ n, grants n = true)
    {fuel : Nat} (enough : count ≤ fuel) :
    ∃ next, table.ntyreactorAlloc grants fuel = some (next, 0) ∧ Lined next (count + 1) ∧
      Extends table next := by
  have positive := lined.positive
  have isLast := lined.linked (count - 1) (by omega)
  rw [if_neg (by omega)] at isLast
  have there : (table.blocks.alloc ⟨none, count⟩).load (count - 1) = some ⟨none, count - 1⟩ :=
    Heap.load_alloc_of_load isLast
  obtain ⟨blocks, stores, length, relinked, others⟩ :=
    Heap.store_eq_some there (Eventblock.mk (some count) (count - 1))
  rw [Heap.length_alloc, lined.blocks] at length
  generalize isNext : (⟨{ table.reactor with blkcnt := table.reactor.blkcnt + 1 }, blocks,
    table.arrays.alloc (List.replicate maxEpollEvents {}), table.mallocs + 2⟩ : Table) = next
  have linedNext : Lined next (count + 1) := by
    subst isNext
    refine ⟨lined.head, by simp [lined.counted], Nat.succ_pos _, length, ?_, by simp [lined.arrays], ?_⟩
    · intro k below
      by_cases isNew : k = count
      · have notLast : k ≠ count - 1 := by omega
        rw [others k notLast, isNew, ← lined.blocks, Heap.load_alloc_self, if_neg (Nat.lt_irrefl _),
          lined.blocks]
      · rw [if_pos (by omega)]
        by_cases wasLast : k = count - 1
        · rw [wasLast, relinked, Nat.sub_add_cancel positive]
        · rw [others k wasLast, Heap.load_alloc_other (by rw [lined.blocks]; exact isNew),
            lined.linked k (by omega), if_pos (by omega)]
    · intro k below
      by_cases isNew : k = count
      · refine ⟨List.replicate maxEpollEvents {}, ?_, List.length_replicate⟩
        rw [isNew, ← lined.arrays, Heap.load_alloc_self]
      · obtain ⟨events, found, full⟩ := lined.slots k (by omega)
        exact ⟨events, Heap.load_alloc_of_load found, full⟩
  refine ⟨next, ?_, linedNext, lined.grown linedNext, ?_, ?_⟩
  · rw [← isNext]
    simp only [ntyreactorAlloc, lined.head, lined.last enough, newBlock, granted, if_true, lined.blocks,
      lined.arrays, there, stores]
  · exact (read_alloc (by rw [← isNext])).1
  · exact (read_alloc (by rw [← isNext])).2

theorem Lined.grow (lined : Lined table count) {grants : Nat → Bool} (granted : ∀ n, grants n = true)
    {index fuel : Nat} (below : index < 2 ^ 21) (few : count ≤ 2 ^ 21) (enough : 2 ^ 21 < fuel) :
    ∃ next total, loop (growTurn grants fuel index) fuel table = some next ∧ Lined next total ∧
      index < total ∧ count ≤ total ∧ total ≤ 2 ^ 21 ∧ Extends table next := by
  have progress : ∀ state, (∃ n, Lined state n ∧ count ≤ n ∧ n ≤ 2 ^ 21 ∧ Extends table state) →
      (∃ next, growTurn grants fuel index state = .leave next ∧
        ∃ total, Lined next total ∧ index < total ∧ count ≤ total ∧ total ≤ 2 ^ 21 ∧ Extends table next) ∨
      ∃ next, growTurn grants fuel index state = .again next ∧
        (∃ n, Lined next n ∧ count ≤ n ∧ n ≤ 2 ^ 21 ∧ Extends table next) ∧
        (index + 1 - next.reactor.blkcnt).toNat < (index + 1 - state.reactor.blkcnt).toNat := by
    rintro state ⟨n, linedState, more, small, extended⟩
    by_cases short : n ≤ index
    · obtain ⟨next, allocs, linedNext, grows⟩ := linedState.alloc granted (Nat.le_trans small (Nat.le_of_lt enough))
      have isShort : (index : Int) ≥ state.reactor.blkcnt := by
        rw [linedState.counted]
        exact Int.ofNat_le.mpr short
      refine .inr ⟨next, by simp only [growTurn, if_pos isShort, allocs],
        ⟨n + 1, linedNext, Nat.le_succ_of_le more, by omega, extended.trans grows⟩, ?_⟩
      rw [linedNext.counted, linedState.counted]
      omega
    · have isLong : ¬ (index : Int) ≥ state.reactor.blkcnt := by
        rw [linedState.counted]
        omega
      exact .inl ⟨state, by simp only [growTurn, if_neg isLong], n, linedState, by omega, more, small, extended⟩
  have less : (index + 1 - table.reactor.blkcnt).toNat < fuel := by
    rw [lined.counted]
    omega
  obtain ⟨next, leaves, total, facts⟩ := loop_of_measure
    (fun state : Table => (index + 1 - state.reactor.blkcnt).toNat) progress
    ⟨count, lined, Nat.le_refl _, few, .refl table⟩ less
  exact ⟨next, total, leaves, facts⟩

private theorem Lined.follow (lined : Lined table count) (k left : Nat) (below : k + left < count) :
    follow table.blocks left (some k) = some (some (k + left)) := by
  induction left generalizing k with
  | zero => rfl
  | succ left inductionHypothesis =>
      have found := lined.linked k (by omega)
      rw [if_pos (by omega)] at found
      simp only [Table.follow, found]
      rw [inductionHypothesis (k + 1) (by omega)]
      congr 2
      omega

/-- Where the slot of a descriptor is. -/
def homeOf (sockfd : Int) : EventAddr := ((sockfd / 1024).toNat, sockfd % 1024)

theorem Lined.idx (lined : Lined table count) {grants : Nat → Bool} (granted : ∀ n, grants n = true)
    {sockfd : Int} (positive : 0 ≤ sockfd) (small : sockfd < 2 ^ 31) (few : count ≤ 2 ^ 21) {fuel : Nat}
    (enough : 2 ^ 21 < fuel) :
    ∃ next total, table.ntyreactorIdx grants fuel sockfd = some (next, homeOf sockfd) ∧
      Lined next total ∧ (sockfd / 1024).toNat < total ∧ count ≤ total ∧ total ≤ 2 ^ 21 ∧
      Extends table next := by
  generalize isIndex : (sockfd / 1024).toNat = index
  have quotient : sockfd.tdiv maxEpollEvents = index := by
    rw [Int.tdiv_eq_ediv_of_nonneg positive, ← isIndex]
    show sockfd / 1024 = _
    omega
  have remainder : sockfd.tmod maxEpollEvents = sockfd % 1024 := Int.tmod_eq_emod_of_nonneg positive
  obtain ⟨next, total, grows, linedNext, inside, facts⟩ :=
    lined.grow granted (show index < 2 ^ 21 by omega) few enough
  refine ⟨next, total, ?_, linedNext, inside, facts⟩
  have walks := linedNext.follow 0 index (by omega)
  rw [Nat.zero_add] at walks
  simp only [ntyreactorIdx, quotient, remainder, grows, Int.toNat_natCast, linedNext.head, walks,
    linedNext.linked index inside, homeOf, isIndex]

/-! ### Runs -/

theorem Lined.write (lined : Lined table count) {slot : EventAddr} {ev : Ntyevent}
    (writes : table.write slot ev = some next) : Lined next count := by
  unfold Table.write at writes
  split at writes
  · rename_i events found
    split at writes
    · obtain ⟨arrays, stores, length, here, others⟩ :=
        Heap.store_eq_some found (events.set slot.2.toNat ev)
      simp only [stores, Option.some.injEq] at writes
      obtain rfl := writes
      refine ⟨lined.head, lined.counted, lined.positive, lined.blocks, lined.linked,
        length.trans lined.arrays, fun k below => ?_⟩
      obtain ⟨old, foundOld, full⟩ := lined.slots k below
      by_cases same : k = slot.1
      · subst same
        obtain rfl := Option.some.inj (found.symm.trans foundOld)
        exact ⟨_, here, by rw [List.length_set, full]⟩
      · exact ⟨old, (others k same).trans foundOld, full⟩
    · contradiction
  · contradiction

theorem lined_init {grants : Nat → Bool} (granted : ∀ n, grants n = true) {epfd : Int} (opened : 0 < epfd) :
    Lined (ntyreactorInit grants epfd).1 1 := by
  have isTable : ntyreactorInit grants epfd = (⟨⟨epfd, 1, some 0⟩, [some ⟨none, 0⟩],
      [some (List.replicate maxEpollEvents {})], 2⟩, 0) := by
    simp [ntyreactorInit, newBlock, granted, Int.not_le.mpr opened, Heap.alloc]
  rw [isTable]
  refine ⟨rfl, rfl, Nat.one_pos, rfl, ?_, rfl, ?_⟩
  · intro k below
    obtain rfl := Nat.lt_one_iff.mp below
    rfl
  · intro k below
    obtain rfl := Nat.lt_one_iff.mp below
    exact ⟨_, rfl, List.length_replicate⟩

/-- What the calls of a run have found. -/
structure Known (table : Table) (count : Nat) (found : List Found) : Prop where
  lined : Lined table count
  few : count ≤ 2 ^ 21
  home : ∀ sockfd slot, .slotOf sockfd slot ∈ found →
    0 ≤ sockfd ∧ (sockfd / 1024).toNat < count ∧ slot = homeOf sockfd

/-- Descriptors are not negative. -/
def Use.InRange : Use → Prop
  | .idx sockfd => 0 ≤ sockfd ∧ sockfd < 2 ^ 31
  | .write _ _ => True

theorem exec_known {grants : Nat → Bool} (granted : ∀ n, grants n = true) {epfd : Int} (opened : 0 < epfd)
    {fuel : Nat} (enough : 2 ^ 21 < fuel) {uses : List Use} {found : List Found}
    (exec : (machine grants epfd fuel).Exec uses table found) (inRange : ∀ use ∈ uses, use.InRange) :
    ∃ count, Known table count found := by
  induction exec with
  | start => exact ⟨1, lined_init granted opened, by decide, by simp⟩
  | @step uses table next found shown use before taken inductionHypothesis =>
      obtain ⟨count, known⟩ := inductionHypothesis fun other member =>
        inRange other (List.mem_append_left _ member)
      have allowed := inRange use (by simp)
      cases use with
      | idx sockfd =>
          obtain ⟨other, total, looks, lined, inside, more, few, -⟩ :=
            known.lined.idx granted allowed.1 allowed.2 known.few enough
          have isTaken : (machine grants epfd fuel).step table (.idx sockfd) =
              some (other, [.slotOf sockfd (homeOf sockfd)]) := by
            simp only [machine, step, looks]
          obtain ⟨rfl, rfl⟩ := Prod.mk.inj (Option.some.inj (isTaken.symm.trans taken))
          refine ⟨total, lined, few, fun fd slot member => ?_⟩
          rcases List.mem_append.mp member with earlier | now
          · obtain ⟨positive, below, isHome⟩ := known.home fd slot earlier
            exact ⟨positive, Nat.lt_of_lt_of_le below more, isHome⟩
          · obtain ⟨rfl, rfl⟩ := Found.slotOf.inj (List.mem_singleton.mp now)
            exact ⟨allowed.1, inside, rfl⟩
      | write slot ev =>
          simp only [machine, step] at taken
          split at taken
          · rename_i other writes
            simp only [Option.some.injEq, Prod.mk.injEq] at taken
            obtain ⟨rfl, rfl⟩ := taken
            rw [List.append_nil]
            exact ⟨count, known.lined.write writes, known.few, known.home⟩
          · contradiction

theorem Known.tabled {found : List Found} (known : Known table count found) : Tabled table found where
  counted := by
    refine ⟨chainFrom 0 count, known.lined.chain, ?_, ?_⟩
    · rw [known.lined.counted, chainFrom, List.length_map, List.length_range']
    · intro sockfd slot member
      obtain ⟨-, below, rfl⟩ := known.home sockfd slot member
      refine ⟨(sockfd / 1024).toNat, ?_, rfl⟩
      rw [chainFrom, List.getElem?_map, List.getElem?_range' below]
      simp [homeOf]
  same sockfd slot other first second := by
    rw [(known.home sockfd slot first).2.2, (known.home sockfd other second).2.2]
  apart sockfd other slot first second := by
    obtain ⟨positive, -, rfl⟩ := known.home sockfd slot first
    obtain ⟨positiveOther, -, isSame⟩ := known.home other _ second
    have quotients : (sockfd / 1024).toNat = (other / 1024).toNat := congrArg Prod.fst isSame
    have remainders : sockfd % 1024 = other % 1024 := congrArg Prod.snd isSame
    omega

/-- With memory, in every state that calls of `ntyreactor_idx` and writes to slots
lead to: the count of blocks is right, every descriptor was given its slot, always
the same one and no other descriptor's; and a call for any descriptor returns,
with a slot that can be read, and changes nothing but to add zeroed slots. -/
theorem idx_serves {grants : Nat → Bool} (granted : ∀ n, grants n = true) {epfd : Int} (opened : 0 < epfd)
    {fuel : Nat} (enough : 2 ^ 21 < fuel) {uses : List Use} {found : List Found}
    (inRange : ∀ use ∈ uses, use.InRange) (exec : (machine grants epfd fuel).Exec uses table found) :
    Tabled table found ∧
      ∀ sockfd : Int, 0 ≤ sockfd → sockfd < 2 ^ 31 →
        ∃ next slot, (machine grants epfd fuel).step table (.idx sockfd) =
            some (next, [.slotOf sockfd slot]) ∧
          (next.read slot).isSome ∧ Extends table next := by
  obtain ⟨count, known⟩ := exec_known granted opened enough exec inRange
  refine ⟨known.tabled, fun sockfd positive small => ?_⟩
  obtain ⟨next, total, looks, lined, inside, -, -, extended⟩ :=
    known.lined.idx granted positive small known.few enough
  refine ⟨next, homeOf sockfd, by simp only [machine, step, looks], ?_, extended⟩
  obtain ⟨events, found, full⟩ := lined.slots _ inside
  have notNegative : 0 ≤ sockfd % 1024 := by omega
  have below : (sockfd % 1024).toNat < events.length := by
    rw [full, maxEpollEvents]
    omega
  rw [read, homeOf, found]
  simp only [if_pos notNegative, List.getElem?_eq_getElem below, Option.isSome_some]

/-- The first call is for a descriptor of the fifth block. -/
theorem fifthBlock_tabled :
    ∃ table found, (machine (fun _ => true) 3 (2 ^ 21 + 1)).Exec [.idx 5000] table found ∧
      Tabled table found := by
  have granted : ∀ n : Nat, (fun _ => true) n = true := fun _ => rfl
  have opened : (0 : Int) < 3 := by decide
  have enough : 2 ^ 21 < 2 ^ 21 + 1 := Nat.lt_succ_self _
  obtain ⟨next, slot, taken, -, -⟩ :=
    (idx_serves granted opened enough (by simp) .start).2 5000 (by decide) (by decide)
  have ran := Machine.Exec.start.step taken
  exact ⟨_, _, ran, (idx_serves granted opened enough (by simp [Use.InRange]) ran).1⟩

end Table

end SimpleBasicComponents.WebServer
