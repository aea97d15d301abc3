import SimpleBasicComponents.SkipList.Insertion

/-!
Search in the skip list.

Owns: `skplist_find` and the exact condition under which it answers. On every
level the walk may stop at the end of the chain, and the timestamp behind it is
read all the same: the search gets through only if the top level goes on to a
node that is not earlier than what is looked for.
-/

namespace SimpleBasicComponents.SkipList

open SimpleBasicComponents.Semantics

/-- The loop of `skplist_find` over the levels below `i`, downwards. A null
`cur->level[i].next` is read through. -/
def findLevels (fuel : Nat) (heap : Heap SkpNode) (ts : UInt64) : Nat → Addr → Option Int
  | 0, _ => some (-1)
  | i + 1, cur =>
      match walk fuel heap ts i cur with
      | none => none
      | some cur =>
          match nextAt heap i cur with
          | some (some next) =>
              match heap.load next with
              | some node => if node.timestamp = ts then some 0 else findLevels fuel heap ts i cur
              | none => none
          | _ => none

/-- The assignment to the parameter `node` is not seen by the caller. -/
def skplistFind (fuel : Nat) (heap : Heap SkpNode) (list : Skplist) (ts : UInt64) : Option Int :=
  if list.length = 0 then some (-1) else findLevels fuel heap ts list.level list.head

/-- The search returns 0 or -1 as there is a node with the timestamp or not. -/
def FindsRight (fuel : Nat) (memory : Memory) (inserted : List Inserted) (ts : UInt64) : Prop :=
  skplistFind fuel memory.heap memory.list ts =
    some (if ∃ entry ∈ inserted, entry.timestamp = ts then 0 else -1)

/-- The list is empty, or its top level has a node that is not earlier. -/
def ReachedFromTop (memory : Memory) (inserted : List Inserted) (ts : UInt64) : Prop :=
  inserted = [] ∨ ∃ entry ∈ inserted, memory.list.level ≤ entry.height ∧ ts ≤ entry.timestamp

/-! ### A sorted list around a timestamp -/

/-- The nodes `before` are earlier than the timestamp, the nodes `after` are not. -/
structure Around (ts : UInt64) (before after : List Inserted) : Prop where
  early : ∀ entry ∈ before, entry.timestamp < ts
  late : ∀ entry ∈ after, ts ≤ entry.timestamp
  sorted : after.Pairwise fun left right => left.timestamp ≤ right.timestamp

theorem exists_around (ts : UInt64) {entries : List Inserted}
    (sorted : entries.Pairwise fun left right => left.timestamp ≤ right.timestamp) :
    ∃ before after, before ++ after = entries ∧ Around ts before after := by
  refine ⟨_, _, early_append_late ts entries, fun _ => takeWhile_early, fun _ => dropWhile_late sorted, ?_⟩
  exact sorted.sublist (List.dropWhile_sublist _)

variable {memory : Memory} {heap : Heap SkpNode} {head cur : Addr} {entries before after : List Inserted}
  {ts : UInt64} {i fuel : Nat}

/-- The first node of level `i` that is not early. -/
def firstLate (i : Nat) (after : List Inserted) : Option Inserted := (onLevel i after).head?

theorem firstLate_eq_none : firstLate i after = none ↔ ∀ entry ∈ after, entry.height ≤ i := by
  rw [firstLate, List.head?_eq_none_iff, onLevel, List.filter_eq_nil_iff]
  simp

theorem firstLate_mem {first : Inserted} (isFirst : firstLate i after = some first) :
    first ∈ after ∧ i < first.height :=
  mem_onLevel.mp (List.mem_of_head? isFirst)

/-- A level with a node of the timestamp shows it first. -/
theorem Around.firstLate_timestamp (around : Around ts before after) {entry first : Inserted}
    (member : entry ∈ after) (equal : entry.timestamp = ts) (reaches : i < entry.height)
    (isFirst : firstLate i after = some first) : first.timestamp = ts := by
  have atLeast := around.late first (firstLate_mem isFirst).1
  have onChain : entry ∈ onLevel i after := mem_onLevel.mpr ⟨member, reaches⟩
  have sortedOn := around.sorted.sublist (List.filter_sublist (p := fun entry => i < entry.height))
  obtain ⟨rest, split⟩ := List.head?_eq_some_iff.mp isFirst
  change (onLevel i after).Pairwise _ at sortedOn
  rw [split] at onChain sortedOn
  rcases List.mem_cons.mp onChain with same | later
  · exact same ▸ equal
  · have atMost := (List.pairwise_cons.mp sortedOn).1 entry later
    rw [equal] at atMost
    exact UInt64.le_antisymm atMost atLeast

/-! ### One level -/

/-- Where a walk on level `i` may start. -/
def Behind (i : Nat) (head : Addr) (before : List Inserted) (cur : Addr) : Prop :=
  cur = head ∨ ∃ entry ∈ before, entry.addr = cur ∧ i ≤ entry.height

theorem behind_pathEnd : Behind i head before (pathEnd head (chain i before)) := by
  have member : pathEnd head (chain i before) ∈ head :: chain i before := pathEnd_mem
  rcases List.mem_cons.mp member with isHead | onChain
  · exact .inl isHead
  · obtain ⟨entry, member, isEnd⟩ := List.mem_map.mp onChain
    obtain ⟨member, reaches⟩ := mem_onLevel.mp member
    exact .inr ⟨entry, member, isEnd, Nat.le_of_lt reaches⟩

/-- The link that stands before the first late node. -/
theorem nextAt_place (path : Path (nextAt heap i) head (chain i (before ++ after)) none) :
    nextAt heap i (pathEnd head (chain i before)) = some ((firstLate i after).map (·.addr)) := by
  rw [chain_append] at path
  have slot := path_end (path_append_iff.mp path).1
  rw [slot, Option.or_none, firstLate, chain, List.head?_map]

/-- The walk on level `i` stops before the first late node. -/
theorem Around.walk_eq (around : Around ts before after)
    (path : Path (nextAt heap i) head (chain i (before ++ after)) none)
    (stored : ∀ entry ∈ before ++ after, Stored heap entry) (enough : before.length < fuel)
    (behind : Behind (i + 1) head before cur) :
    walk fuel heap ts i cur = some (pathEnd head (chain i before)) ∧
      nextAt heap i (pathEnd head (chain i before)) = some ((firstLate i after).map (·.addr)) := by
  have late : ∀ entry ∈ after, ¬ entry.timestamp < ts :=
    fun entry member => UInt64.not_lt.mpr (around.late entry member)
  exact ⟨walk_eq_some path stored around.early late enough behind, nextAt_place path⟩

/-! ### The loop over the levels -/

/-- The search goes down as long as each level has a late node. -/
theorem Around.findLevels_eq (around : Around ts before after)
    (paths : ∀ j < i, Path (nextAt heap j) head (chain j (before ++ after)) none)
    (stored : ∀ entry ∈ before ++ after, Stored heap entry) (enough : before.length < fuel)
    (behind : Behind i head before cur) (guarded : ∃ entry ∈ after, i ≤ entry.height) :
    (findLevels fuel heap ts i cur = some 0 ∧ ∃ entry ∈ after, entry.timestamp = ts) ∨
      (findLevels fuel heap ts i cur = some (-1) ∧
        ∀ j < i, ∀ first, firstLate j after = some first → first.timestamp ≠ ts) := by
  induction i generalizing cur with
  | zero => exact .inr ⟨rfl, by simp⟩
  | succ i inductionHypothesis =>
      obtain ⟨tall, isTall, reaches⟩ := guarded
      obtain ⟨walks, slot⟩ := around.walk_eq (paths i (Nat.lt_succ_self i)) stored enough behind
      cases isFirst : firstLate i after with
      | none => exact absurd (firstLate_eq_none.mp isFirst tall isTall) (Nat.not_le.mpr reaches)
      | some first =>
          have isLate := (firstLate_mem isFirst).1
          obtain ⟨node, found, timestamp, -⟩ := stored first (List.mem_append_right _ isLate)
          rw [isFirst, Option.map_some] at slot
          simp only [findLevels, walks, slot, found, timestamp]
          by_cases equal : first.timestamp = ts
          · rw [if_pos equal]
            exact .inl ⟨rfl, first, isLate, equal⟩
          · rw [if_neg equal]
            rcases inductionHypothesis (fun j less => paths j (Nat.lt_succ_of_lt less)) behind_pathEnd
              ⟨tall, isTall, Nat.le_of_succ_le reaches⟩ with finds | ⟨misses, noneBelow⟩
            · exact .inl finds
            · refine .inr ⟨misses, fun j less other isOther => ?_⟩
              rcases Nat.lt_succ_iff_lt_or_eq.mp less with below | rfl
              · exact noneBelow j below other isOther
              · rw [isFirst] at isOther
                exact Option.some.inj isOther ▸ equal

/-- A level without a late node is left through a null pointer. -/
theorem Around.findLevels_fault (around : Around ts before after)
    (path : Path (nextAt heap i) head (chain i (before ++ after)) none)
    (stored : ∀ entry ∈ before ++ after, Stored heap entry) (enough : before.length < fuel)
    (short : ∀ entry ∈ after, entry.height ≤ i) : findLevels fuel heap ts (i + 1) head = none := by
  obtain ⟨walks, slot⟩ := around.walk_eq path stored enough (.inl rfl)
  rw [firstLate_eq_none.mpr short, Option.map_none] at slot
  simp only [findLevels, walks, slot]

/-! ### The search -/

theorem Holds.findsRight_iff (holds : Holds memory entries) (enough : entries.length < fuel) (ts : UInt64) :
    FindsRight fuel memory entries ts ↔ ReachedFromTop memory entries ts := by
  unfold FindsRight ReachedFromTop skplistFind
  rw [holds.length]
  cases isEntries : entries with
  | nil => simp
  | cons anyEntry others =>
      rw [← isEntries]
      have notEmpty : entries ≠ [] := by simp [isEntries]
      have someLevel : 1 ≤ memory.list.level := by
        have bounds := holds.heights anyEntry (by simp [isEntries])
        omega
      have counted : ¬ (entries.length : Int) = 0 := by
        simpa using notEmpty
      rw [if_neg counted, or_iff_right notEmpty]
      obtain ⟨level, isLevel⟩ := Nat.exists_eq_add_of_le' someLevel
      obtain ⟨before, after, split, around⟩ := exists_around ts holds.sorted
      have stored := holds.stored
      have paths := holds.paths
      have short : before.length < fuel := by
        have lengths := congrArg List.length split
        rw [List.length_append] at lengths
        omega
      rw [← split] at stored paths
      have onlyLate : ∀ entry ∈ entries, ts ≤ entry.timestamp → entry ∈ after := by
        intro entry member isLate
        rw [← split] at member
        rcases List.mem_append.mp member with isEarly | isAfter
        · exact absurd (around.early entry isEarly) (UInt64.not_lt.mpr isLate)
        · exact isAfter
      by_cases guarded : ∃ entry ∈ entries, memory.list.level ≤ entry.height ∧ ts ≤ entry.timestamp
      · obtain ⟨tall, member, reaches, isLate⟩ := guarded
        have answers := around.findLevels_eq
          (fun j less => paths j (Nat.lt_of_lt_of_le less holds.level)) stored short (.inl rfl)
          ⟨tall, onlyLate tall member isLate, reaches⟩
        refine iff_of_true ?_ ⟨tall, member, reaches, isLate⟩
        rcases answers with ⟨finds, entry, isAfter, equal⟩ | ⟨misses, noneFirst⟩
        · rw [finds, if_pos ⟨entry, split ▸ List.mem_append_right _ isAfter, equal⟩]
        · rw [misses, if_neg]
          rintro ⟨entry, member, equal⟩
          have isAfter := onlyLate entry member (UInt64.le_of_eq equal.symm)
          have positive := (holds.heights entry member).1
          cases isFirst : firstLate 0 after with
          | none => exact absurd (firstLate_eq_none.mp isFirst entry isAfter) (Nat.not_le.mpr positive)
          | some first =>
              exact noneFirst 0 someLevel first isFirst
                (around.firstLate_timestamp isAfter equal positive isFirst)
      · have noneTall : ∀ entry ∈ after, entry.height ≤ level := by
          intro entry isAfter
          by_contra tall
          exact guarded ⟨entry, split ▸ List.mem_append_right _ isAfter, by omega, around.late entry isAfter⟩
        have topLevel : level < skiplistLevelMax := by
          have small := holds.level
          omega
        have faults := around.findLevels_fault (paths level topLevel) stored short noneTall
        rw [isLevel, faults]
        exact iff_of_false (by simp) (isLevel ▸ guarded)

/-- After any insertions a search answers rightly exactly if the list is empty or
its top level has a node that is not earlier than the timestamp. -/
theorem findsRight_iff_reachedFromTop {fuel : Nat} {insertions : List Insertion} {memory : Memory}
    {inserted : List Inserted} (exec : (machine fuel).Exec insertions memory inserted)
    (enough : insertions.length < fuel) (ts : UInt64) :
    FindsRight fuel memory inserted ts ↔ ReachedFromTop memory inserted ts := by
  have ⟨other, shown, entries, execGrown, drawn, grown⟩ :=
    insertions_grown insertions (Nat.le_of_lt enough) (exec_length exec).2
  have ⟨sameMemory, sameInserted⟩ := exec.functional execGrown
  rw [← sameMemory, ← sameInserted] at grown
  rw [← sameInserted] at drawn
  have lengths := congrArg List.length drawn
  simp only [List.length_map] at lengths
  have fewer := List.length_filter_le (fun insertion : Insertion => insertion.memory) insertions
  have same := grown.perm.length_eq
  have exact := grown.holds.findsRight_iff (show entries.length < fuel by omega) ts
  have members : ∀ entry, entry ∈ entries ↔ entry ∈ inserted := fun entry => grown.perm.mem_iff
  unfold FindsRight ReachedFromTop at exact ⊢
  simp only [members] at exact
  rw [exact, ← List.length_eq_zero_iff, ← List.length_eq_zero_iff, same]

theorem threeInsertions_findsRight_iff : ∃ memory inserted,
    (machine 4).Exec threeInsertions memory inserted ∧
      (FindsRight 4 memory inserted 7 ↔ ReachedFromTop memory inserted 7) := by
  have ran := (machine 4).exec_of_isSome threeInsertions (by decide)
  exact ⟨_, _, ran, findsRight_iff_reachedFromTop ran (by decide) 7⟩

/-- A timestamp behind the only node of the list. -/
theorem searchBehind_faults : ¬ FindsRight 2 (((machine 2).run [⟨5, 0, [], true⟩]).get rfl).1
    (((machine 2).run [⟨5, 0, [], true⟩]).get rfl).2 9 := by
  unfold FindsRight
  decide

end SimpleBasicComponents.SkipList
