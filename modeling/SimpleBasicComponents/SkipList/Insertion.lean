import Mathlib.Data.List.TakeWhile
import SimpleBasicComponents.SkipList.Levels

/-!
Insertion into the skip list.

Owns: the loop over the levels, the invariant of a list and the nodes inserted
into it, and the theorem that every run of insertions returns and leaves a well
linked list. The invariant is carried by one list of nodes, in the order of
level 0: the chain of level `i` is what it leaves when the nodes of height at
most `i` are dropped.
-/

namespace SimpleBasicComponents.SkipList

open SimpleBasicComponents.Semantics

/-! ### The loop over the levels -/

/-- Where a new node goes: `before` it, nodes with earlier timestamps, `after`
it, the others. -/
structure Place (head : Addr) (before : List Inserted) (entry : Inserted)
    (after : List Inserted) : Prop where
  early : ∀ other ∈ before, other.timestamp < entry.timestamp
  late : ∀ other ∈ after, ¬ other.timestamp < entry.timestamp
  distinct : (head :: (before ++ after).map (·.addr)).Nodup
  fresh : entry.addr ∉ head :: (before ++ after).map (·.addr)

/-- Linking the new node in on level `i`. -/
private theorem Place.link {head : Addr} {before after : List Inserted} {entry : Inserted}
    (place : Place head before entry after) {heap : Heap SkpNode} {i : Nat}
    (path : Path (nextAt heap i) head (chain i (before ++ after)) none)
    (stored : Stored heap entry) (reaches : i < entry.height) :
    ∃ next, linkBehind heap entry.addr i (pathEnd head (chain i before)) = some next ∧
      SameNodes heap next ∧
      Path (nextAt next i) head (chain i (before ++ entry :: after)) none ∧
      ∀ j, j ≠ i → ∀ other, nextAt next j other = nextAt heap j other := by
  have onPath : ∀ addr ∈ head :: chain i (before ++ after), addr ∈ head :: (before ++ after).map (·.addr) :=
    fun addr member => (List.Sublist.cons_cons head (chain_sublist i (before ++ after))).subset member
  have notNew : entry.addr ∉ head :: chain i (before ++ after) :=
    fun member => place.fresh (onPath _ member)
  have distinct : (head :: chain i (before ++ after)).Nodup :=
    place.distinct.sublist (List.Sublist.cons_cons head (chain_sublist i (before ++ after)))
  rw [chain_append] at path notNew distinct
  have different : pathEnd head (chain i before) ≠ entry.addr := by
    intro same
    apply notNew
    rw [← same, ← List.cons_append]
    exact List.mem_append_left _ pathEnd_mem
  obtain ⟨old, slot⟩ := nextAt_of_stored stored reaches
  have curSlot := (path_append_iff.mp path).1
  obtain ⟨next, links, same, nodeSlot, curNext, others, levels⟩ :=
    linkBehind_eq_some slot (path_end curSlot) different
  refine ⟨next, links, same, ?_, levels⟩
  rw [chain_append, chain_cons, if_pos reaches]
  apply Path.insert path distinct notNew
  · rw [nodeSlot, path_end curSlot]
  · exact curNext
  · exact others

/-- The loop leaves every level with the new node in its place. -/
theorem insertLevels_eq_some {head : Addr} {before after : List Inserted} {entry : Inserted}
    (place : Place head before entry after) {fuel i : Nat} {heap : Heap SkpNode} {cur : Addr}
    (enough : before.length < fuel) (small : i ≤ skiplistLevelMax)
    (stored : ∀ other ∈ before ++ entry :: after, Stored heap other)
    (above : ∀ j, i ≤ j → j < skiplistLevelMax →
      Path (nextAt heap j) head (chain j (before ++ entry :: after)) none)
    (below : ∀ j < i, Path (nextAt heap j) head (chain j (before ++ after)) none)
    (isBefore : cur = head ∨ ∃ other ∈ before, other.addr = cur ∧ i ≤ other.height) :
    ∃ next, insertLevels fuel entry.addr entry.timestamp entry.height i heap cur = some next ∧
      SameNodes heap next ∧ ∀ j < skiplistLevelMax,
        Path (nextAt next j) head (chain j (before ++ entry :: after)) none := by
  induction i generalizing heap cur with
  | zero => exact ⟨heap, rfl, .refl heap, fun j small => above j (Nat.zero_le j) small⟩
  | succ i inductionHypothesis =>
      have path := below i (Nat.lt_succ_self i)
      have storedOld : ∀ other ∈ before ++ after, Stored heap other := by
        intro other member
        apply stored
        rw [List.mem_append, List.mem_cons]
        exact (List.mem_append.mp member).imp id .inr
      have walks := walk_eq_some path storedOld place.early place.late enough
        (isBefore.imp id fun ⟨other, member, isCur, reaches⟩ => ⟨other, member, isCur, reaches⟩)
      have endsBefore : pathEnd head (chain i before) = head ∨
          ∃ other ∈ before, other.addr = pathEnd head (chain i before) ∧ i ≤ other.height := by
        have member : pathEnd head (chain i before) ∈ head :: chain i before := pathEnd_mem
        rcases List.mem_cons.mp member with isHead | onChain
        · exact .inl isHead
        · obtain ⟨other, member, isEnd⟩ := List.mem_map.mp onChain
          obtain ⟨member, reaches⟩ := mem_onLevel.mp member
          exact .inr ⟨other, member, isEnd, Nat.le_of_lt reaches⟩
      simp only [insertLevels, walks]
      by_cases reaches : i < entry.height
      · obtain ⟨next, links, same, linked, levels⟩ :=
          place.link path (stored entry (by simp)) reaches
        rw [if_pos reaches, links]
        have aboveNext : ∀ j, i ≤ j → j < skiplistLevelMax →
            Path (nextAt next j) head (chain j (before ++ entry :: after)) none := by
          intro j le smaller
          by_cases isLevel : j = i
          · exact isLevel ▸ linked
          · exact (above j (by omega) smaller).congr fun cell _ => levels j isLevel cell
        have belowNext : ∀ j < i, Path (nextAt next j) head (chain j (before ++ after)) none :=
          fun j less => (below j (by omega)).congr fun cell _ => levels j (Nat.ne_of_lt less) cell
        obtain ⟨last, inserts, sameLast, paths⟩ := inductionHypothesis (by omega)
          (fun other member => same.stored (stored other member)) aboveNext belowNext endsBefore
        exact ⟨last, inserts, same.trans sameLast, paths⟩
      · rw [if_neg reaches]
        apply inductionHypothesis (by omega) stored _ _ endsBefore
        · intro j le smaller
          by_cases isLevel : j = i
          · rw [isLevel, chain_append, chain_cons, if_neg reaches, ← chain_append]
            exact path
          · exact above j (by omega) smaller
        · exact fun j less => below j (by omega)

/-! ### The invariant -/

/-- The list holds exactly `entries`, in this order. -/
structure Holds (memory : Memory) (entries : List Inserted) : Prop where
  paths : ∀ i < skiplistLevelMax, Path (nextAt memory.heap i) memory.list.head (chain i entries) none
  stored : ∀ entry ∈ entries, Stored memory.heap entry
  distinct : (memory.list.head :: entries.map (·.addr)).Nodup
  sorted : entries.Pairwise fun left right => left.timestamp ≤ right.timestamp
  heights : ∀ entry ∈ entries, 1 ≤ entry.height ∧ entry.height ≤ memory.list.level
  level : memory.list.level ≤ skiplistLevelMax
  length : memory.list.length = entries.length

/-- A new node goes before the first one that is not earlier. -/
def placed (entry : Inserted) (entries : List Inserted) : List Inserted :=
  entries.takeWhile (·.timestamp < entry.timestamp) ++
    entry :: entries.dropWhile (·.timestamp < entry.timestamp)

theorem early_append_late (ts : UInt64) (entries : List Inserted) :
    entries.takeWhile (·.timestamp < ts) ++ entries.dropWhile (·.timestamp < ts) = entries :=
  List.takeWhile_append_dropWhile

theorem placed_perm (entry : Inserted) (entries : List Inserted) :
    (placed entry entries).Perm (entry :: entries) := by
  have split := early_append_late entry.timestamp entries
  conv_rhs => rw [← split]
  exact List.perm_middle

theorem takeWhile_early {ts : UInt64} {entries : List Inserted} {entry : Inserted}
    (member : entry ∈ entries.takeWhile (·.timestamp < ts)) : entry.timestamp < ts := by
  simpa using List.mem_takeWhile_imp member

theorem dropWhile_late {ts : UInt64} {entries : List Inserted}
    (sorted : entries.Pairwise fun left right => left.timestamp ≤ right.timestamp)
    {entry : Inserted} (member : entry ∈ entries.dropWhile (·.timestamp < ts)) :
    ts ≤ entry.timestamp := by
  induction entries with
  | nil => simp at member
  | cons first rest inductionHypothesis =>
      obtain ⟨least, sortedRest⟩ := List.pairwise_cons.mp sorted
      by_cases early : first.timestamp < ts
      · rw [List.dropWhile_cons_of_pos (by simpa using early)] at member
        exact inductionHypothesis sortedRest member
      · rw [List.dropWhile_cons_of_neg (by simpa using early)] at member
        have first_late : ts ≤ first.timestamp := UInt64.not_lt.mp early
        rcases List.mem_cons.mp member with rfl | inRest
        · exact first_late
        · exact UInt64.le_trans first_late (least entry inRest)

theorem placed_sorted {entry : Inserted} {entries : List Inserted}
    (sorted : entries.Pairwise fun left right => left.timestamp ≤ right.timestamp) :
    (placed entry entries).Pairwise fun left right => left.timestamp ≤ right.timestamp := by
  have split := early_append_late entry.timestamp entries
  rw [← split, List.pairwise_append] at sorted
  rw [placed, List.pairwise_append, List.pairwise_cons]
  refine ⟨sorted.1, ⟨?_, sorted.2.1⟩, ?_⟩
  · intro other member
    exact dropWhile_late (split ▸ List.pairwise_append.mpr sorted) member
  · intro left isEarly right member
    have early : left.timestamp < entry.timestamp := takeWhile_early isEarly
    rcases List.mem_cons.mp member with rfl | isLate
    · exact UInt64.le_of_lt early
    · exact sorted.2.2 left isEarly right isLate

/-- Among equal timestamps the new node comes first. -/
theorem placed_filter (entry : Inserted) (entries : List Inserted) (ts : UInt64) :
    (placed entry entries).filter (·.timestamp = ts) =
      ([entry].filter (·.timestamp = ts)) ++ entries.filter (·.timestamp = ts) := by
  have split := early_append_late entry.timestamp entries
  rw [placed, ← List.singleton_append, List.filter_append, List.filter_append]
  conv_rhs => rw [← split, List.filter_append]
  by_cases equal : entry.timestamp = ts
  · have noneEarly : (entries.takeWhile (·.timestamp < entry.timestamp)).filter (·.timestamp = ts) = [] := by
      rw [List.filter_eq_nil_iff]
      intro other member
      have early : other.timestamp < entry.timestamp := takeWhile_early member
      rw [decide_eq_true_iff]
      rintro same
      rw [same, equal] at early
      exact UInt64.lt_irrefl ts early
    rw [noneEarly]
    rfl
  · have notEqual : [entry].filter (·.timestamp = ts) = [] := by simp [equal]
    rw [notEqual]
    rfl

/-! ### One insertion -/

theorem nextAt_alloc {heap : Heap SkpNode} {node : SkpNode} {i : Nat} {addr : Addr}
    {next : Option Addr} (slot : nextAt heap i addr = some next) :
    nextAt (heap.alloc node) i addr = some next := by
  unfold nextAt at slot ⊢
  split at slot
  · rename_i old found
    rw [Heap.load_alloc_of_load found]
    exact slot
  · contradiction

section

variable {memory : Memory} {entries : List Inserted}

/-- The next address to be allocated is not in use. -/
theorem Holds.fresh (holds : Holds memory entries) :
    memory.heap.length ∉ memory.list.head :: entries.map (·.addr) := by
  intro member
  rcases List.mem_cons.mp member with isHead | isEntry
  · obtain ⟨link, slot⟩ := (holds.paths 0 (by decide)).exists_link
    unfold nextAt at slot
    split at slot
    · rename_i node found
      exact absurd isHead.symm (Nat.ne_of_lt (Heap.lt_length_of_load found))
    · contradiction
  · obtain ⟨entry, inList, isLength⟩ := List.mem_map.mp isEntry
    obtain ⟨node, found, -⟩ := holds.stored entry inList
    exact absurd isLength (Nat.ne_of_lt (Heap.lt_length_of_load found))

/-- A longer list of levels changes no chain. -/
theorem Holds.raise (holds : Holds memory entries) (level : Nat)
    (le : memory.list.level ≤ level) (small : level ≤ skiplistLevelMax) :
    Holds { memory with list := { memory.list with level } } entries where
  paths := holds.paths
  stored := holds.stored
  distinct := holds.distinct
  sorted := holds.sorted
  heights entry member := ⟨(holds.heights entry member).1, (holds.heights entry member).2.trans le⟩
  level := small
  length := holds.length

/-- Levels that no node reaches have empty chains. -/
theorem chain_eq_nil {i : Nat} {entries : List Inserted}
    (short : ∀ entry ∈ entries, entry.height ≤ i) : chain i entries = [] := by
  rw [chain, List.map_eq_nil_iff, onLevel, List.filter_eq_nil_iff]
  intro entry member
  simpa using short entry member

theorem Holds.insert (holds : Holds memory entries) {fuel : Nat} (enough : entries.length < fuel)
    {level : Nat} (positive : 1 ≤ level) (le : level ≤ memory.list.level) (ts : UInt64)
    (func : Nat) :
    ∃ heap, insertLevels fuel memory.heap.length ts level memory.list.level
        (skpnodeCreate memory.heap ts func level).1 memory.list.head = some heap ∧
      Holds ⟨heap, { memory.list with length := memory.list.length + 1 }⟩
        (placed ⟨memory.heap.length, ts, level⟩ entries) := by
  generalize isEntry : (⟨memory.heap.length, ts, level⟩ : Inserted) = entry
  have split := early_append_late ts entries
  generalize isEarly : entries.takeWhile (·.timestamp < ts) = before at split
  generalize isLate : entries.dropWhile (·.timestamp < ts) = after at split
  have isPlaced : placed entry entries = before ++ entry :: after := by
    rw [← isEarly, ← isLate, ← isEntry, placed]
  have perm := placed_perm entry entries
  rw [isPlaced] at perm
  have storedNext : ∀ other ∈ before ++ entry :: after,
      Stored (skpnodeCreate memory.heap ts func level).1 other := by
    intro other member
    rcases List.mem_cons.mp (perm.mem_iff.mp member) with rfl | inList
    · rw [← isEntry]
      exact ⟨_, Heap.load_alloc_self, rfl, List.length_replicate⟩
    · obtain ⟨node, found, fields⟩ := holds.stored other inList
      exact ⟨node, Heap.load_alloc_of_load found, fields⟩
  have pathsNext : ∀ j < skiplistLevelMax,
      Path (nextAt (skpnodeCreate memory.heap ts func level).1 j) memory.list.head
        (chain j (before ++ after)) none := by
    intro j small
    rw [split]
    exact (holds.paths j small).mono fun _ _ slot => nextAt_alloc slot
  have heightsNext : ∀ other ∈ before ++ entry :: after,
      1 ≤ other.height ∧ other.height ≤ memory.list.level := by
    intro other member
    rcases List.mem_cons.mp (perm.mem_iff.mp member) with rfl | inList
    · rw [← isEntry]
      exact ⟨positive, le⟩
    · exact holds.heights other inList
  have place : Place memory.list.head before entry after := by
    refine ⟨?_, ?_, split.symm ▸ holds.distinct, ?_⟩
    · intro other member
      rw [← isEntry]
      exact takeWhile_early (isEarly ▸ member)
    · intro other member
      rw [← isEntry, UInt64.not_lt]
      exact dropWhile_late holds.sorted (isLate ▸ member)
    · rw [split, ← isEntry]
      exact holds.fresh
  have aboveNext : ∀ j, memory.list.level ≤ j → j < skiplistLevelMax →
      Path (nextAt (skpnodeCreate memory.heap ts func level).1 j) memory.list.head
        (chain j (before ++ entry :: after)) none := by
    intro j beyond small
    have noneNew : chain j (before ++ entry :: after) = [] :=
      chain_eq_nil fun other member => (heightsNext other member).2.trans beyond
    have noneOld : chain j (before ++ after) = [] := by
      rw [split]
      exact chain_eq_nil fun other member => (holds.heights other member).2.trans beyond
    rw [noneNew, ← noneOld]
    exact pathsNext j small
  have short : before.length < fuel := by
    have total := congrArg List.length split
    rw [List.length_append] at total
    omega
  obtain ⟨heap, inserts, same, paths⟩ := insertLevels_eq_some place short holds.level storedNext
    aboveNext (fun j less => pathsNext j (Nat.lt_of_lt_of_le less holds.level)) (.inl rfl)
  refine ⟨heap, by rw [← isEntry] at inserts; exact inserts, ?_⟩
  rw [isPlaced]
  refine ⟨paths, fun other member => same.stored (storedNext other member), ?_, ?_, heightsNext,
    holds.level, ?_⟩
  · have permAddrs : ((before ++ entry :: after).map (·.addr)).Perm ((entry :: entries).map (·.addr)) :=
      perm.map _
    rw [(permAddrs.cons memory.list.head).nodup_iff, List.map_cons, (List.Perm.swap _ _ _).nodup_iff,
      List.nodup_cons, ← isEntry]
    exact ⟨holds.fresh, holds.distinct⟩
  · rw [← isPlaced]
    exact placed_sorted holds.sorted
  · simp [holds.length, perm.length_eq]

end

/-! ### Runs of insertions -/

/-- What a reader of the list finds after the nodes `inserted` went in, in this
order. -/
structure WellLinked (memory : Memory) (inserted : List Inserted)
    (chains : Nat → List Inserted) : Prop where
  paths : ∀ i < skiplistLevelMax,
    Path (nextAt memory.heap i) memory.list.head ((chains i).map (·.addr)) none
  sorted : ∀ i < skiplistLevelMax,
    (chains i).Pairwise fun left right => left.timestamp ≤ right.timestamp
  nested : ∀ i < skiplistLevelMax, (chains (i + 1)).Sublist (chains i)
  stored : ∀ entry ∈ inserted, Stored memory.heap entry
  heights : ∀ entry ∈ inserted, 1 ≤ entry.height ∧ entry.height ≤ skiplistLevelMax
  once : ∀ entry ∈ inserted, ∀ i < skiplistLevelMax,
    (chains i).count entry = if i < entry.height then 1 else 0
  unused : ∀ i, memory.list.level ≤ i → chains i = []
  all : (chains 0).Perm inserted
  stable : ∀ ts, (chains 0).filter (·.timestamp = ts) =
    (inserted.filter (·.timestamp = ts)).reverse
  addresses : (inserted.map (·.addr)).Nodup
  length : memory.list.length = inserted.length

/-- The list holds the inserted nodes, equal timestamps in reverse order. -/
structure Grown (memory : Memory) (inserted entries : List Inserted) : Prop where
  holds : Holds memory entries
  perm : entries.Perm inserted
  stable : ∀ ts, entries.filter (·.timestamp = ts) = (inserted.filter (·.timestamp = ts)).reverse

theorem Grown.wellLinked {memory : Memory} {inserted entries : List Inserted}
    (grown : Grown memory inserted entries) :
    WellLinked memory inserted fun i => onLevel i entries := by
  obtain ⟨holds, perm, stable⟩ := grown
  have inList : ∀ entry ∈ inserted, entry ∈ entries := fun entry => perm.mem_iff.mpr
  have onZero : onLevel 0 entries = entries := by
    rw [onLevel, List.filter_eq_self]
    intro entry member
    exact decide_eq_true (holds.heights entry member).1
  have distinct : (entries.map (·.addr)).Nodup := (List.nodup_cons.mp holds.distinct).2
  refine ⟨holds.paths, ?_, ?_, ?_, ?_, ?_, ?_, ?_, ?_, ?_, ?_⟩
  · intro i _
    exact holds.sorted.sublist List.filter_sublist
  · intro i _
    apply List.monotone_filter_right
    intro entry reaches
    simp only [decide_eq_true_eq] at reaches ⊢
    omega
  · exact fun entry member => holds.stored entry (inList entry member)
  · intro entry member
    obtain ⟨positive, le⟩ := holds.heights entry (inList entry member)
    exact ⟨positive, le.trans holds.level⟩
  · intro entry member i _
    have nodup : (onLevel i entries).Nodup := (List.Nodup.of_map _ distinct).filter _
    by_cases reaches : i < entry.height
    · rw [if_pos reaches]
      exact List.count_eq_one_of_mem nodup (mem_onLevel.mpr ⟨inList entry member, reaches⟩)
    · rw [if_neg reaches]
      exact List.count_eq_zero_of_not_mem fun isOn => reaches (mem_onLevel.mp isOn).2
  · intro i unused
    rw [onLevel, List.filter_eq_nil_iff]
    intro entry member
    have le := (holds.heights entry member).2
    simp only [decide_eq_true_eq, Nat.not_lt]
    exact le.trans unused
  · rw [onZero]
    exact perm
  · rw [onZero]
    exact stable
  · exact (perm.map _).nodup_iff.mp distinct
  · rw [holds.length, perm.length_eq]

theorem grown_start (fuel : Nat) : Grown (machine fuel).start [] [] where
  holds :=
    { paths := by
        intro i small
        show (List.replicate skiplistLevelMax none)[i]? = some none
        rw [List.getElem?_replicate, if_pos small]
      stored := by simp
      distinct := by simp
      sorted := List.Pairwise.nil
      heights := by simp
      level := Nat.zero_le _
      length := rfl }
  perm := .refl _
  stable := by simp

/-- A call of `skplist_insert` puts the node in its place, or raises the level and
finds no memory for it. -/
theorem Holds.step {memory : Memory} {entries : List Inserted} {fuel : Nat} (holds : Holds memory entries)
    (enough : entries.length < fuel) (insertion : Insertion)
    (room : insertion.memory = true → memory.list.length < 2 ^ 31 - 1) :
    ∃ next, step fuel memory insertion =
        some (next, if insertion.memory then
          [⟨memory.heap.length, insertion.ts, randomLeve insertion.rands⟩] else []) ∧
      Holds next (if insertion.memory then
        placed ⟨memory.heap.length, insertion.ts, randomLeve insertion.rands⟩ entries else entries) := by
  obtain ⟨ts, func, rands, granted⟩ := insertion
  have positive := one_le_randomLeve rands
  have small := randomLeve_le rands
  generalize isLevel : randomLeve rands = level at positive small
  have leMax : memory.list.level ≤ skiplistLevelMax := holds.level
  generalize isRaised : (if level > memory.list.level then level else memory.list.level) = top
  have le : memory.list.level ≤ top := by
    rw [← isRaised]
    split <;> omega
  have reaches : level ≤ top := by
    rw [← isRaised]
    split <;> omega
  have raised := holds.raise top le (by rw [← isRaised]; split <;> omega)
  cases granted with
  | false =>
      refine ⟨⟨memory.heap, { memory.list with level := top }⟩, ?_, raised⟩
      rw [← isRaised, ← isLevel]
      rfl
  | true =>
      obtain ⟨heap, inserts, holdsNext⟩ := raised.insert enough positive reaches ts func
      refine ⟨_, ?_, by simpa [isLevel] using holdsNext⟩
      simp only [SkipList.step, skplistInsert, isLevel, isRaised, if_true]
      simp only at inserts
      simp only [skpnodeCreate] at inserts ⊢
      have counts := Skplist.increment_eq_some ⟨memory.list.head, memory.list.length, top⟩ (room rfl)
      simp only [inserts, counts, Option.map_some, if_true]

theorem Grown.step {memory : Memory} {inserted entries : List Inserted} {fuel : Nat}
    (grown : Grown memory inserted entries) (enough : inserted.length < fuel)
    (insertion : Insertion) (room : insertion.memory = true → inserted.length < 2 ^ 31 - 1) :
    ∃ next shown entries, (machine fuel).step memory insertion = some (next, shown) ∧
      shown.map (fun entry => (entry.timestamp, entry.height)) =
        ([insertion].filter (·.memory)).map (fun insertion =>
          (insertion.ts, randomLeve insertion.rands)) ∧
      Grown next (inserted ++ shown) entries := by
  obtain ⟨holds, perm, stable⟩ := grown
  obtain ⟨next, steps, holdsNext⟩ := holds.step (perm.length_eq ▸ enough) insertion fun granted => by
    have few := room granted
    have same := perm.length_eq
    rw [holds.length]
    omega
  refine ⟨next, _, _, steps, ?_, ⟨holdsNext, ?_, ?_⟩⟩
  · cases granted : insertion.memory <;> simp [granted]
  · cases granted : insertion.memory with
    | false => simpa using perm
    | true =>
        have permNext := (placed_perm ⟨memory.heap.length, insertion.ts, randomLeve insertion.rands⟩
          entries).trans (perm.cons _)
        exact permNext.trans (List.perm_append_singleton _ _).symm
  · intro other
    cases granted : insertion.memory with
    | false => simpa using stable other
    | true =>
        simp only [if_true]
        rw [placed_filter, stable, List.filter_append, List.reverse_append]
        congr 1
        by_cases equal : insertion.ts = other <;> simp [equal]

/-- Fewer nodes than an `int` can count. -/
def Countable (insertions : List Insertion) : Prop := (insertions.filter (·.memory)).length < 2 ^ 31

instance (insertions : List Insertion) : Decidable (Countable insertions) := by
  unfold Countable
  infer_instance

theorem insertions_grown {fuel : Nat} (insertions : List Insertion)
    (enough : insertions.length ≤ fuel) (few : Countable insertions) :
    ∃ memory inserted entries, (machine fuel).Exec insertions memory inserted ∧
      inserted.map (fun entry => (entry.timestamp, entry.height)) =
        (insertions.filter (·.memory)).map (fun insertion =>
          (insertion.ts, randomLeve insertion.rands)) ∧
      Grown memory inserted entries := by
  induction insertions using List.reverseRecOn with
  | nil => exact ⟨_, [], [], .start, rfl, grown_start fuel⟩
  | append_singleton insertions insertion inductionHypothesis =>
      rw [List.length_append, List.length_singleton] at enough
      rw [Countable, List.filter_append, List.length_append] at few
      obtain ⟨memory, inserted, entries, exec, drawn, grown⟩ :=
        inductionHypothesis (by omega) (Nat.lt_of_le_of_lt (Nat.le_add_right _ _) few)
      have lengths := congrArg List.length drawn
      simp only [List.length_map] at lengths
      have short : inserted.length < fuel := by
        have le := List.length_filter_le (fun insertion : Insertion => insertion.memory) insertions
        omega
      have room : insertion.memory = true → inserted.length < 2 ^ 31 - 1 := by
        intro granted
        rw [List.filter_cons_of_pos granted, List.filter_nil, List.length_singleton] at few
        omega
      obtain ⟨next, shown, entriesNext, taken, drawnNext, grownNext⟩ := grown.step short insertion room
      refine ⟨next, _, entriesNext, exec.step taken, ?_, grownNext⟩
      rw [List.map_append, drawn, drawnNext, List.filter_append, List.map_append]

/-- Each call that goes through and makes a node has counted it in the `int`. -/
theorem exec_length {fuel : Nat} {insertions : List Insertion} {memory : Memory}
    {inserted : List Inserted} (exec : (machine fuel).Exec insertions memory inserted) :
    memory.list.length = (insertions.filter (·.memory)).length ∧ Countable insertions := by
  induction exec with
  | start => exact ⟨rfl, by decide⟩
  | @step insertions memory next inserted shown insertion before taken inductionHypothesis =>
      obtain ⟨counted, few⟩ := inductionHypothesis
      have isList := (step_list taken).2
      unfold Countable at few ⊢
      rw [List.filter_append, List.length_append]
      cases granted : insertion.memory with
      | false =>
          rw [granted] at isList
          rw [List.filter_cons_of_neg (by simp [granted]), List.filter_nil, List.length_nil, Nat.add_zero]
          exact ⟨isList.trans counted, few⟩
      | true =>
          rw [granted] at isList
          obtain ⟨room, grows⟩ := isList
          rw [List.filter_cons_of_pos granted, List.filter_nil, List.length_singleton]
          omega

/-- A run of insertions returns and leaves a well linked list exactly if its nodes can be counted
in an `int`. -/
theorem insertions_wellLinked_iff {fuel : Nat} (insertions : List Insertion)
    (enough : insertions.length ≤ fuel) :
    (∃ memory inserted chains, (machine fuel).Exec insertions memory inserted ∧
      inserted.map (fun entry => (entry.timestamp, entry.height)) =
        (insertions.filter (·.memory)).map (fun insertion =>
          (insertion.ts, randomLeve insertion.rands)) ∧
      WellLinked memory inserted chains) ↔ Countable insertions := by
  constructor
  · intro wellLinked
    have ⟨memory, inserted, chains, exec, _⟩ := wellLinked
    exact (exec_length exec).2
  · intro few
    have ⟨memory, inserted, entries, exec, drawn, grown⟩ := insertions_grown insertions enough few
    exact ⟨memory, inserted, _, exec, drawn, grown.wellLinked⟩

/-- Two equal timestamps and an earlier one, on one, three and two levels. -/
def threeInsertions : List Insertion :=
  [⟨7, 0, [], true⟩, ⟨7, 0, [0, 1, 0xFFFF], true⟩, ⟨3, 0, [5], true⟩]

theorem threeInsertions_wellLinked :
    ∃ memory inserted chains, (machine 3).Exec threeInsertions memory inserted ∧
      inserted.map (fun entry => (entry.timestamp, entry.height)) = [(7, 1), (7, 3), (3, 2)] ∧
      WellLinked memory inserted chains :=
  (insertions_wellLinked_iff threeInsertions (by decide)).mpr (by decide)

/-- One node more than an `int` can count. -/
def tooMany : List Insertion := List.replicate (2 ^ 31) ⟨7, 0, [], true⟩

theorem tooMany_not_exec : ¬ ∃ fuel memory inserted, (machine fuel).Exec tooMany memory inserted := by
  intro ran
  have ⟨fuel, memory, inserted, exec⟩ := ran
  have few := (exec_length exec).2
  rw [Countable, tooMany, List.filter_replicate_of_pos rfl, List.length_replicate] at few
  exact Nat.lt_irrefl _ few

end SimpleBasicComponents.SkipList
