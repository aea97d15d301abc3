import Mathlib.Data.List.Nodup
import SimpleBasicComponents.BlockList.Model

/-!
The elements that lookups return.

Owns: what an array that grows on demand promises, the shape a list has after its
first lookup, and what a lookup does in a list of that shape. The counter stays 0,
so every lookup asks for more blocks, and a list that has a block gets no other.
-/

namespace SimpleBasicComponents.BlockList

open SimpleBasicComponents.Semantics

/-! ### What a caller sees -/

/-- The blocks of the chain that begins at a link. -/
def Linked (blocks : Heap Block) : Option Addr → List (Addr × Block) → Prop
  | link, [] => link = none
  | link, (addr, block) :: rest => link = some addr ∧ blocks.load addr = some block ∧ Linked blocks block.next rest

namespace Memory

/-- The pointer is the address of the element, and the element is inside its array. -/
def IsElement (memory : Memory) (key : Nat) (pointer : Pointer) : Prop :=
  ∃ chain entry array size, Linked memory.blocks memory.list.head chain ∧
    chain[key / blkArraySizeMax]? = some entry ∧ entry.2.array = some array ∧
    memory.arrays.load array = some size ∧
    pointer = ⟨some array, key % blkArraySizeMax * memory.list.blkArrayItemSize⟩ ∧
    pointer.offset + memory.list.blkArrayItemSize ≤ size

/-- Two elements do not overlap. -/
def Apart (memory : Memory) (left right : Pointer) : Prop :=
  left.base ≠ right.base ∨ left.offset + memory.list.blkArrayItemSize ≤ right.offset ∨
    right.offset + memory.list.blkArrayItemSize ≤ left.offset

/-- Each key has been given the address of its element, an element of its own. -/
structure Addressed (memory : Memory) (found : List (Nat × Pointer)) : Prop where
  element : ∀ key pointer, (key, pointer) ∈ found → memory.IsElement key pointer
  same : ∀ key pointer other, (key, pointer) ∈ found → (key, other) ∈ found → pointer = other
  apart : ∀ key other left right, (key, left) ∈ found → (other, right) ∈ found → key ≠ other →
    memory.Apart left right

/-- `blk_nums` is the number of blocks. -/
def Counted (memory : Memory) : Prop :=
  ∃ chain, Linked memory.blocks memory.list.head chain ∧ memory.list.blkNums = chain.length

end Memory

variable {blocks : Heap Block} {link : Option Addr} {chain rest : List (Addr × Block)} {memory next : Memory}
  {grants : Nat → Bool} {fuel key itemSize : Nat} {pointer : Pointer}

theorem Linked.unique {other : List (Addr × Block)} (left : Linked blocks link chain)
    (right : Linked blocks link other) : chain = other := by
  induction chain generalizing link other with
  | nil =>
      cases other with
      | nil => rfl
      | cons head tail =>
          have isNull : link = none := left
          rw [isNull] at right
          exact absurd right.1 (by simp)
  | cons head tail inductionHypothesis =>
      cases other with
      | nil =>
          have isNull : link = none := right
          rw [isNull] at left
          exact absurd left.1 (by simp)
      | cons otherHead otherTail =>
          obtain ⟨isHead, loads, linked⟩ := left
          obtain ⟨isOther, loadsOther, linkedOther⟩ := right
          have sameAddr := Option.some.inj (isHead.symm.trans isOther)
          rw [← sameAddr, loads] at loadsOther
          have sameBlock := Option.some.inj loadsOther
          rw [← sameBlock] at linkedOther
          rw [inductionHypothesis linked linkedOther, Prod.ext sameAddr sameBlock]

theorem Linked.load_of_mem {entry : Addr × Block} (linked : Linked blocks link chain) (member : entry ∈ chain) :
    blocks.load entry.1 = some entry.2 := by
  induction chain generalizing link with
  | nil => exact absurd member List.not_mem_nil
  | cons head rest inductionHypothesis =>
      cases List.mem_cons.mp member with
      | inl same => exact same ▸ linked.2.1
      | inr later => exact inductionHypothesis linked.2.2 later

/-! ### The walk -/

theorem walkTurn_again {entry : Addr × Block} {blkNo ui16 : Nat}
    (linked : Linked blocks link (entry :: rest)) (goesOn : ui16 ≤ blkNo) (small : ui16 < 65535) :
    Memory.walkTurn blocks blkNo (ui16, link) = .again (ui16 + 1, entry.2.next) := by
  have noWrap : (ui16 + 1) % 65536 = ui16 + 1 := Nat.mod_eq_of_lt (Nat.succ_lt_succ small)
  simp [Memory.walkTurn, linked.1, linked.2.1, goesOn, noWrap]

/-- The walk finds the block of the number, or the link behind the last block. -/
theorem walk_found {blkNo ui16 left : Nat} (linked : Linked blocks link chain) (small : blkNo < 65535)
    (total : ui16 + left = blkNo + 1) (within : left ≤ chain.length) (enough : left < fuel) :
    loop (Memory.walkTurn blocks blkNo) fuel (ui16, link) = some (chain[left]?.map Prod.fst) := by
  induction left generalizing ui16 link chain fuel with
  | zero =>
      have leaves : Memory.walkTurn blocks blkNo (ui16, link) = .leave link := by
        simp [Memory.walkTurn, show ¬ ui16 ≤ blkNo by omega]
      obtain ⟨fuel, rfl⟩ := Nat.exists_eq_succ_of_ne_zero (Nat.ne_of_gt enough)
      rw [loop_leave leaves]
      cases chain with
      | nil => exact congrArg some linked
      | cons entry rest => exact congrArg some linked.1
  | succ left inductionHypothesis =>
      cases chain with
      | nil => exact absurd within (by simp)
      | cons entry rest =>
          have goesOn := @walkTurn_again _ _ _ _ blkNo ui16 linked (by omega) (by omega)
          obtain ⟨fuel, rfl⟩ := Nat.exists_eq_succ_of_ne_zero (Nat.ne_of_gt (Nat.zero_lt_of_lt enough))
          rw [loop_again goesOn, List.getElem?_cons_succ]
          exact inductionHypothesis linked.2.2 (by omega) (Nat.le_of_succ_le_succ within) (by omega)

/-- A chain that is too short is walked over its end. -/
theorem walk_fault {blkNo ui16 left : Nat} (linked : Linked blocks link chain) (small : blkNo ≤ 65535)
    (total : ui16 + left = blkNo + 1) (beyond : chain.length < left) :
    loop (Memory.walkTurn blocks blkNo) fuel (ui16, link) = none := by
  induction chain generalizing ui16 left link fuel with
  | nil =>
      apply loop_fault
      have isNull : link = none := linked
      simp [Memory.walkTurn, isNull, show ui16 ≤ blkNo by simp at beyond; omega]
  | cons entry rest inductionHypothesis =>
      rw [List.length_cons] at beyond
      have goesOn := @walkTurn_again _ _ _ _ blkNo ui16 linked (by omega) (by omega)
      cases fuel with
      | zero => rfl
      | succ fuel =>
          rw [loop_again goesOn]
          exact @inductionHypothesis _ fuel (ui16 + 1) (left - 1) linked.2.2 (by omega) (by omega)

/-! ### A list with blocks -/

/-- What the first lookup leaves behind, and every later one as it is. -/
structure Shaped (memory : Memory) (itemSize : Nat) (chain : List (Addr × Block)) : Prop where
  linked : Linked memory.blocks memory.list.head chain
  uncounted : memory.list.blkNums = 0
  tail : memory.list.tail.isSome
  width : memory.list.blkArrayItemSize = itemSize
  valid : ∀ entry ∈ chain, entry.2.shutdown = false
  room : ∀ entry ∈ chain, ∃ array, entry.2.array = some array ∧
    memory.arrays.load array = some (itemSize * blkArraySizeMax)
  distinct : (chain.map fun entry => entry.2.array).Nodup
  short : chain.length ≤ 2

theorem blkNo_le (key : Nat) : Memory.blkNo key ≤ 65535 := by
  unfold Memory.blkNo
  omega

/-- The count that is asked for is never 0, so nothing is added. -/
theorem Shaped.addBlock (shaped : Shaped memory itemSize chain) {count : Int} (positive : 0 < count)
    (enough : 0 < fuel) : memory.blkListAddBlock grants fuel count = some (memory, count - 1) := by
  obtain ⟨tail, isTail⟩ := Option.isSome_iff_exists.mp shaped.tail
  obtain ⟨fuel, rfl⟩ := Nat.exists_eq_succ_of_ne_zero (Nat.ne_of_gt enough)
  have leaves : Memory.addBlockTurn grants (memory, count) = .leave (memory, count - 1) := by
    simp [Memory.addBlockTurn, show count ≠ 0 by omega]
  unfold Memory.blkListAddBlock
  rw [if_neg (by omega), if_neg (by omega), isTail]
  exact loop_leave leaves

/-- A lookup in the list that adding has left behind. -/
theorem Shaped.find (shaped : Shaped next itemSize chain) {result : Int} (uncounted : memory.list.blkNums = 0)
    (added : memory.blkListAddBlock grants fuel (Memory.blkNo key + 1) = some (next, result)) (enough : 2 < fuel) :
    memory.blkListFind grants fuel key =
      chain[Memory.blkNo key]?.map fun entry => (next, ⟨entry.2.array, Memory.blkKey key * itemSize⟩) := by
  have small := shaped.short
  have least := blkNo_le key
  unfold Memory.blkListFind
  rw [uncounted, if_pos (Nat.zero_le _)]
  have count : ((Memory.blkNo key + 1 : Nat) : Int) - ((0 : Nat) : Int) = Memory.blkNo key + 1 := by omega
  rw [count, added]
  simp only
  by_cases within : Memory.blkNo key ≤ chain.length
  · rw [walk_found shaped.linked (by omega) (Nat.add_comm 1 _) within (by omega)]
    simp only
    cases found : chain[Memory.blkNo key]? with
    | none => rfl
    | some entry =>
        have member := List.mem_of_getElem? found
        have loads := shaped.linked.load_of_mem member
        simp [Memory.element, loads, Memory.blockIsvalid, Memory.blockFind, shaped.valid entry member, shaped.width]
  · rw [walk_fault shaped.linked least (Nat.add_comm 1 _) (by omega),
      List.getElem?_eq_none (Nat.le_of_not_le within)]
    rfl

/-! ### The first lookup -/

def created (itemSize : Nat) : Memory := ⟨⟨none, none, 0, itemSize⟩, [], [], 1⟩

def oneBlock (itemSize : Nat) : Memory :=
  ⟨⟨some 0, some 0, 0, itemSize⟩, [some ⟨none, false, some 0⟩], [some (itemSize * blkArraySizeMax)], 3⟩

def twoBlocks (itemSize : Nat) : Memory :=
  ⟨⟨some 0, some 1, 0, itemSize⟩, [some ⟨some 1, false, some 0⟩, some ⟨none, false, some 1⟩],
    [some (itemSize * blkArraySizeMax), some (itemSize * blkArraySizeMax)], 5⟩

theorem shaped_oneBlock (itemSize : Nat) : Shaped (oneBlock itemSize) itemSize [(0, ⟨none, false, some 0⟩)] where
  linked := ⟨rfl, rfl, rfl⟩
  uncounted := rfl
  tail := rfl
  width := rfl
  valid := by simp
  room := by simp [oneBlock, Heap.load]
  distinct := by simp
  short := by simp

theorem shaped_twoBlocks (itemSize : Nat) :
    Shaped (twoBlocks itemSize) itemSize [(0, ⟨some 1, false, some 0⟩), (1, ⟨none, false, some 1⟩)] where
  linked := ⟨rfl, rfl, rfl, rfl, rfl⟩
  uncounted := rfl
  tail := rfl
  width := rfl
  valid := by simp
  room := by simp [twoBlocks, Heap.load]
  distinct := by simp
  short := by simp

/-- `count--` comes once more than `while (count-- == 0)` was meant to see. -/
theorem created_addBlock_one (enough : 2 < fuel) :
    (created itemSize).blkListAddBlock (fun _ => true) fuel 1 = some (twoBlocks itemSize, -2) := by
  obtain ⟨fuel, rfl⟩ := Nat.exists_eq_add_of_lt enough
  rw [show 2 + fuel + 1 = fuel + 1 + 1 + 1 by omega]
  rfl

theorem created_addBlock_more {count : Int} (more : 1 < count) (enough : 2 < fuel) :
    (created itemSize).blkListAddBlock (fun _ => true) fuel count = some (oneBlock itemSize, count - 2) := by
  have leaves : Memory.addBlockTurn (fun _ => true) (oneBlock itemSize, count - 1) =
      .leave (oneBlock itemSize, count - 1 - 1) := by
    simp [Memory.addBlockTurn, show count - 1 ≠ 0 by omega]
  obtain ⟨fuel, rfl⟩ := Nat.exists_eq_succ_of_ne_zero (show fuel ≠ 0 by omega)
  unfold Memory.blkListAddBlock
  rw [if_neg (by omega), if_neg (by omega)]
  refine (loop_leave leaves).trans ?_
  rw [show count - 1 - 1 = count - 2 by omega]

theorem find_created (enough : 2 < fuel) (key : Nat) :
    (created itemSize).blkListFind (fun _ => true) fuel key =
      if Memory.blkNo key = 0 then some (twoBlocks itemSize, ⟨some 0, Memory.blkKey key * itemSize⟩) else none := by
  by_cases first : Memory.blkNo key = 0
  · have added : (created itemSize).blkListAddBlock (fun _ => true) fuel (Memory.blkNo key + 1) =
        some (twoBlocks itemSize, -2) := by
      rw [first]
      exact created_addBlock_one enough
    rw [if_pos first, (shaped_twoBlocks itemSize).find rfl added enough, first]
    rfl
  · have more : (1 : Int) < Memory.blkNo key + 1 := by omega
    rw [if_neg first, (shaped_oneBlock itemSize).find rfl (created_addBlock_more more enough) enough,
      List.getElem?_eq_none (by simp; omega)]
    rfl

theorem find_twoBlocks (enough : 2 < fuel) (key : Nat) :
    (twoBlocks itemSize).blkListFind grants fuel key =
      if Memory.blkNo key ≤ 1 then
        some (twoBlocks itemSize, ⟨some (Memory.blkNo key), Memory.blkKey key * itemSize⟩)
      else none := by
  have shaped := shaped_twoBlocks itemSize
  have positive : (0 : Int) < Memory.blkNo key + 1 := by omega
  have added : (twoBlocks itemSize).blkListAddBlock grants fuel (Memory.blkNo key + 1) = _ :=
    shaped.addBlock positive (by omega)
  rw [shaped.find rfl added enough]
  by_cases within : Memory.blkNo key ≤ 1
  · rw [if_pos within]
    rcases Nat.le_one_iff_eq_zero_or_eq_one.mp within with isFirst | isSecond
    · rw [isFirst]
      rfl
    · rw [isSecond]
      rfl
  · rw [if_neg within, List.getElem?_eq_none (by simp; omega)]
    rfl

/-! ### Runs of lookups -/

/-- The first key is in the first block, the others are there or in the second. -/
def InFirstBlocks (keys : List Nat) : Prop :=
  (∀ key ∈ keys.head?, key < blkArraySizeMax) ∧ ∀ key ∈ keys, key < 2 * blkArraySizeMax

instance (keys : List Nat) : Decidable (InFirstBlocks keys) := by
  unfold InFirstBlocks
  infer_instance

/-- How many blocks the lookup after these ones finds. -/
def reach (keys : List Nat) : Nat := if keys = [] then 1 else 2

theorem reach_le (keys : List Nat) : reach keys ≤ 2 := by
  unfold reach
  split <;> omega

theorem inFirstBlocks_snoc_iff {keys : List Nat} {key : Nat} :
    InFirstBlocks (keys ++ [key]) ↔
      InFirstBlocks keys ∧ key < reach keys * blkArraySizeMax := by
  unfold InFirstBlocks reach
  rw [List.forall_mem_append, List.forall_mem_singleton, ← and_assoc]
  cases keys with
  | nil =>
      simp [blkArraySizeMax]
      omega
  | cons head rest =>
      rw [if_neg (by simp)]
      exact Iff.rfl

/-- The pointer that a lookup in two blocks gives for a key in them. -/
def Placed (itemSize key : Nat) (pointer : Pointer) : Prop :=
  key < 2 * blkArraySizeMax ∧
    pointer = ⟨some (key / blkArraySizeMax), key % blkArraySizeMax * itemSize⟩

theorem shift_eq (key : Nat) : key >>> rightMove = key / blkArraySizeMax :=
  Nat.shiftRight_eq_div_pow key rightMove

theorem blkNo_lt_iff {count : Nat} (below : key < 2 * blkArraySizeMax) (few : count ≤ 2) :
    Memory.blkNo key < count ↔ key < count * blkArraySizeMax := by
  unfold Memory.blkNo
  rw [shift_eq]
  unfold blkArraySizeMax at below ⊢
  omega

theorem placed_iff :
    Placed itemSize key pointer ↔
      key < 2 * blkArraySizeMax ∧ pointer = ⟨some (Memory.blkNo key), Memory.blkKey key * itemSize⟩ := by
  unfold Placed Memory.blkNo Memory.blkKey
  apply and_congr_right
  intro below
  have small : key / blkArraySizeMax < 65536 := by
    unfold blkArraySizeMax at below ⊢
    omega
  rw [shift_eq, Nat.mod_eq_of_lt small]

/-- An element lies in a block that is there. -/
theorem Shaped.lt_of_isElement (shaped : Shaped memory itemSize chain) (isElement : memory.IsElement key pointer) :
    key < chain.length * blkArraySizeMax := by
  obtain ⟨other, entry, array, size, linked, found, -⟩ := isElement
  rw [← shaped.linked.unique linked] at found
  have below := (List.getElem?_eq_some_iff.mp found).1
  unfold blkArraySizeMax at below ⊢
  omega

theorem Placed.isElement (placed : Placed itemSize key pointer) :
    (twoBlocks itemSize).IsElement key pointer := by
  obtain ⟨below, isPointer⟩ := placed
  have shaped := shaped_twoBlocks itemSize
  have within : key / blkArraySizeMax < 2 := by
    unfold blkArraySizeMax at below ⊢
    omega
  have room : key % blkArraySizeMax * itemSize + itemSize ≤ itemSize * blkArraySizeMax := by
    rw [← Nat.succ_mul, Nat.mul_comm itemSize]
    exact Nat.mul_le_mul_right _ (Nat.mod_lt _ (by decide))
  rcases Nat.le_one_iff_eq_zero_or_eq_one.mp (Nat.le_of_lt_succ within) with number | number
  all_goals
    rw [number] at isPointer
    refine ⟨_, _, _, _, shaped.linked, by rw [number]; rfl, rfl, rfl, isPointer, ?_⟩
    rw [isPointer]
    exact room

theorem Placed.apart {other : Nat} {left right : Pointer} (placed : Placed itemSize key left)
    (placedOther : Placed itemSize other right) (different : key ≠ other) :
    (twoBlocks itemSize).Apart left right := by
  rw [placed.2, placedOther.2]
  by_cases sameBlock : key / blkArraySizeMax = other / blkArraySizeMax
  · refine .inr ?_
    change key % blkArraySizeMax * itemSize + itemSize ≤ other % blkArraySizeMax * itemSize ∨
      other % blkArraySizeMax * itemSize + itemSize ≤ key % blkArraySizeMax * itemSize
    rw [← Nat.succ_mul, ← Nat.succ_mul]
    unfold blkArraySizeMax at sameBlock ⊢
    rcases Nat.lt_or_gt_of_ne (show key % 1024 ≠ other % 1024 by omega) with before | after
    · exact .inl (Nat.mul_le_mul_right _ before)
    · exact .inr (Nat.mul_le_mul_right _ after)
  · exact .inl fun same => sameBlock (Option.some.inj same)

theorem addressed_of_placed {found : List (Nat × Pointer)}
    (placed : ∀ key pointer, (key, pointer) ∈ found → Placed itemSize key pointer) :
    (twoBlocks itemSize).Addressed found where
  element key pointer member := (placed key pointer member).isElement
  same key pointer other member memberOther :=
    (placed key pointer member).2.trans (placed key other memberOther).2.symm
  apart key other left right member memberOther different :=
    (placed key left member).apart (placed other right memberOther) different

/-- What the lookups so far have left and returned, if they were all in the first blocks. -/
structure Stage (itemSize : Nat) (keys : List Nat) (memory : Memory) (found : List (Nat × Pointer)) : Prop where
  placed : ∀ key pointer, (key, pointer) ∈ found → Placed itemSize key pointer
  memory : memory = if keys = [] then created itemSize else twoBlocks itemSize

theorem step_eq_some_iff {start : Memory} {shown : List (Nat × Pointer)} :
    (machine grants fuel start).step memory key = some (next, shown) ↔
      ∃ pointer, memory.blkListFind grants fuel key = some (next, pointer) ∧ shown = [(key, pointer)] := by
  change (memory.blkListFind grants fuel key).map (fun found => (found.1, [(key, found.2)])) = _ ↔ _
  rw [Option.map_eq_some_iff]
  constructor
  · rintro ⟨found, isFound, same⟩
    obtain ⟨rfl, rfl⟩ := Prod.mk.inj same
    exact ⟨found.2, isFound, rfl⟩
  · rintro ⟨pointer, isFound, rfl⟩
    exact ⟨(next, pointer), isFound, rfl⟩

/-- What a lookup in a stage returns. -/
theorem Stage.find {keys : List Nat} {found : List (Nat × Pointer)} (stage : Stage itemSize keys memory found)
    (enough : 2 < fuel) (key : Nat) :
    memory.blkListFind (fun _ => true) fuel key =
      if Memory.blkNo key < reach keys then
        some (twoBlocks itemSize, ⟨some (Memory.blkNo key), Memory.blkKey key * itemSize⟩)
      else none := by
  rw [stage.memory]
  unfold reach
  by_cases first : keys = []
  · rw [if_pos first, if_pos first, find_created enough]
    by_cases isFirst : Memory.blkNo key = 0
    · rw [if_pos isFirst, if_pos (by omega), isFirst]
    · rw [if_neg isFirst, if_neg (by omega)]
  · rw [if_neg first, if_neg first, find_twoBlocks enough]
    simp only [Nat.lt_succ_iff]

/-- One more lookup in the first two blocks. -/
theorem Stage.placed_snoc {keys : List Nat} {found : List (Nat × Pointer)}
    (stage : Stage itemSize keys memory found) (below : key < 2 * blkArraySizeMax) :
    ∀ other pointer,
      (other, pointer) ∈ found ++ [(key, ⟨some (Memory.blkNo key), Memory.blkKey key * itemSize⟩)] →
      Placed itemSize other pointer := by
  intro other pointer member
  cases List.mem_append.mp member with
  | inl earlier => exact stage.placed other pointer earlier
  | inr last =>
      obtain ⟨rfl, rfl⟩ := Prod.mk.inj (List.mem_singleton.mp last)
      exact placed_iff.mpr ⟨below, rfl⟩

/-- A lookup returns the address of its element exactly if that is in the first
block, or, later, in the first two. -/
theorem Stage.next_iff {keys : List Nat} {found : List (Nat × Pointer)} (stage : Stage itemSize keys memory found)
    (enough : 2 < fuel) :
    (∃ next shown, (machine (fun _ => true) fuel (created itemSize)).step memory key = some (next, shown) ∧
        next.Addressed (found ++ shown)) ↔
      key < reach keys * blkArraySizeMax := by
  have few := reach_le keys
  constructor
  · rintro ⟨next, shown, taken, addressed⟩
    obtain ⟨pointer, isFound, rfl⟩ := step_eq_some_iff.mp taken
    rw [stage.find enough] at isFound
    split at isFound
    · next within =>
        obtain ⟨rfl, rfl⟩ := Prod.mk.inj (Option.some.inj isFound)
        have member := List.mem_append_right found (List.mem_singleton_self
          (key, (⟨some (Memory.blkNo key), Memory.blkKey key * itemSize⟩ : Pointer)))
        have below := (shaped_twoBlocks itemSize).lt_of_isElement (addressed.element _ _ member)
        rw [← blkNo_lt_iff below few]
        exact within
    · contradiction
  · intro below
    have within : Memory.blkNo key < reach keys := by
      rw [blkNo_lt_iff ?_ few]
      · exact below
      · exact Nat.lt_of_lt_of_le below (Nat.mul_le_mul_right _ few)
    have isFound := stage.find enough key
    rw [if_pos within] at isFound
    have placed := stage.placed_snoc (Nat.lt_of_lt_of_le below (Nat.mul_le_mul_right _ few))
    exact ⟨_, _, step_eq_some_iff.mpr ⟨_, isFound, rfl⟩, addressed_of_placed placed⟩

theorem exec_stage {keys : List Nat} {found : List (Nat × Pointer)} (enough : 2 < fuel)
    (inFirst : InFirstBlocks keys)
    (exec : (machine (fun _ => true) fuel (created itemSize)).Exec keys memory found) :
    Stage itemSize keys memory found := by
  induction exec with
  | start => exact ⟨by simp, rfl⟩
  | @step keys memory next found shown key before taken inductionHypothesis =>
      obtain ⟨earlier, below⟩ := inFirstBlocks_snoc_iff.mp inFirst
      have stage := inductionHypothesis earlier
      obtain ⟨other, more, takenAgain, addressed⟩ := (stage.next_iff enough).mpr below
      obtain ⟨rfl, rfl⟩ := Prod.mk.inj (Option.some.inj (takenAgain.symm.trans taken))
      obtain ⟨pointer, isFound, rfl⟩ := step_eq_some_iff.mp taken
      rw [stage.find enough] at isFound
      split at isFound
      · obtain ⟨rfl, rfl⟩ := Prod.mk.inj (Option.some.inj isFound)
        have placed := stage.placed_snoc (Nat.lt_of_lt_of_le below (Nat.mul_le_mul_right _ (reach_le keys)))
        exact ⟨placed, (if_neg (by simp)).symm⟩
      · contradiction

theorem completes_addressed_iff (enough : 2 < fuel) (keys : List Nat) :
    (machine (fun _ => true) fuel (created itemSize)).Completes Memory.Addressed keys ↔ InFirstBlocks keys := by
  induction keys using List.reverseRecOn with
  | nil =>
      have atStart : (created itemSize).Addressed [] := ⟨by simp, by simp, by simp⟩
      exact iff_of_true ⟨⟨_, _, .start⟩, Machine.always_nil_iff.mpr atStart⟩ (by simp [InFirstBlocks])
  | append_singleton keys key inductionHypothesis =>
      rw [Machine.completes_snoc_iff, inFirstBlocks_snoc_iff, inductionHypothesis]
      apply and_congr_right
      intro inFirst
      obtain ⟨memory, found, exec⟩ := (inductionHypothesis.mpr inFirst).1
      have stage := exec_stage enough inFirst exec
      constructor
      · intro serves
        exact (stage.next_iff enough).mp (serves memory found exec)
      · intro below other seen execOther
        obtain ⟨rfl, rfl⟩ := exec.functional execOther
        exact (stage.next_iff enough).mpr below

theorem blkListCreate_eq {start : Memory} (isCreated : blkListCreate (fun _ => true) itemSize = some start) :
    start = created itemSize := by
  unfold blkListCreate at isCreated
  split at isCreated
  · contradiction
  · exact (Option.some.inj isCreated).symm

/-- With all allocations granted, lookups and the counter are right together only
until the first lookup. The addresses alone are right exactly as long as the keys
are in the blocks that the first lookup makes. -/
theorem find_serves_iff {start : Memory} (isCreated : blkListCreate (fun _ => true) itemSize = some start)
    (enough : 2 < fuel) (keys : List Nat) :
    ((machine (fun _ => true) fuel start).Completes
        (fun memory found => memory.Addressed found ∧ memory.Counted) keys ↔ keys = []) ∧
      ((machine (fun _ => true) fuel start).Completes Memory.Addressed keys ↔ InFirstBlocks keys) := by
  rw [blkListCreate_eq isCreated]
  have addressed := @completes_addressed_iff fuel itemSize enough
  refine ⟨⟨?_, ?_⟩, addressed keys⟩
  · rintro ⟨⟨memory, found, exec⟩, always⟩
    by_contra some
    have inFirst := (addressed keys).mp
      ⟨⟨memory, found, exec⟩, fun before state seen isPrefix ran => (always before state seen isPrefix ran).1⟩
    have stage := (exec_stage enough inFirst exec).memory
    rw [if_neg some] at stage
    obtain ⟨chain, linked, counted⟩ := (always.last exec).2
    rw [stage] at linked counted
    rw [← (shaped_twoBlocks itemSize).linked.unique linked] at counted
    exact absurd counted (by simp [twoBlocks])
  · rintro rfl
    have atStart := ((addressed []).mpr (by simp [InFirstBlocks])).2.last .start
    exact ⟨⟨_, _, .start⟩, Machine.always_nil_iff.mpr ⟨atStart, [], rfl, rfl⟩⟩

/-- The first two lookups of a list of ints that is filled from the start. -/
theorem firstKeys_addressed :
    (machine (fun _ => true) 3 ⟨⟨none, none, 0, 4⟩, [], [], 1⟩).Completes Memory.Addressed [0, 1] :=
  (@find_serves_iff 3 4 _ rfl (by decide) [0, 1]).2.mpr (by decide)

/-- The only key asked for is the first of the second block. -/
theorem secondBlock_fails : ¬ ∀ (itemSize fuel : Nat) (start : Memory),
    blkListCreate (fun _ => true) itemSize = some start → 2 < fuel → ∀ keys : List Nat,
      (machine (fun _ => true) fuel start).Completes
        (fun memory found => memory.Addressed found ∧ memory.Counted) keys := by
  intro claimed
  obtain ⟨⟨memory, found, exec⟩, -⟩ := claimed 4 3 _ rfl (by decide) [1024]
  have ran := exec.run_eq
  have fails : ((machine (fun _ => true) 3 ⟨⟨none, none, 0, 4⟩, [], [], 1⟩).run [1024]).isNone := by
    decide +kernel
  rw [ran] at fails
  contradiction

end SimpleBasicComponents.BlockList
