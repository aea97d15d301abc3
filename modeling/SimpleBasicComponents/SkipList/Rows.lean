import SimpleBasicComponents.SkipList.Destruction

/-!
The rows of the list.

Owns: `skplist_print` as the source computes it, and what it prints after any run of
insertions and removals that do what they should: a row for every level up to the
highest one drawn so far, also where the node was not made or has been removed.
-/

namespace SimpleBasicComponents.SkipList

open SimpleBasicComponents.Semantics

/-! ### `skplist_print` -/

/-- `printf(" %ld ->", cur->timestamp)`. The timestamp is shown as a `long`. -/
def timestampText (timestamp : UInt64) : String := " " ++ toString timestamp.toInt64.toInt ++ " ->"

/-- One turn of the inner loop; the state is `cur` and the texts so far. -/
def printTurn (heap : Heap SkpNode) (i : Nat) :
    Option Addr × List String → Turn (Option Addr × List String) (List String)
  | (none, texts) => .leave texts
  | (some cur, texts) =>
      match heap.load cur with
      | none => .fault
      | some node =>
          match nextAt heap i cur with
          | none => .fault
          | some next => .again (next, texts ++ [timestampText node.timestamp])

/-- The loop over the levels below `i + 1`, downwards. -/
def printLevels (fuel : Nat) (heap : Heap SkpNode) (head : Addr) : Nat → List String → Option (List String)
  | 0, texts => some texts
  | i + 1, texts =>
      match nextAt heap i head with
      | none => none
      | some cur =>
          match loop (printTurn heap i) fuel (cur, texts) with
          | none => none
          | some texts => printLevels fuel heap head i (texts ++ ["\n"])

/-- The texts printed, in their order. -/
def skplistPrint (fuel : Nat) (memory : Memory) : Option (List String) :=
  printLevels fuel memory.heap memory.list.head memory.list.level []

/-! ### What it prints -/

def row (i : Nat) (entries : List Inserted) : List String :=
  (onLevel i entries).map (fun entry => timestampText entry.timestamp) ++ ["\n"]

/-- The rows of the levels below `level`, the top one first. -/
def rows (entries : List Inserted) : Nat → List String
  | 0 => []
  | i + 1 => row i entries ++ rows entries i

/-- `list->level` after a call. It grows also if the node cannot be made, and does not
shrink. -/
def levelAfter (level : Nat) : Call → Nat
  | .insert insertion => max level (randomLeve insertion.rands)
  | .remove _ => level

/-- The highest level drawn. -/
def drawn (calls : List Call) : Nat := calls.foldl levelAfter 0

/-- What is printed: a row for every level drawn, the nodes in order, and each node in
as many rows as it is high. -/
structure Printed (memory : Memory) (calls : List Call) (events : List Event) : Prop where
  prints : skplistPrint (turns memory) memory = some (rows (contents events) (drawn calls))
  sorted : (contents events).Pairwise fun left right => left.timestamp ≤ right.timestamp
  within : ∀ entry ∈ contents events, 1 ≤ entry.height ∧ entry.height ≤ drawn calls

section

variable {heap : Heap SkpNode} {memory next : Memory} {entries : List Inserted} {head cur : Addr}
  {link : Option Addr} {events shown : List Event} {calls : List Call} {i level fuel : Nat}

theorem printLoop_eq (path : Path (nextAt heap i) cur (entries.map (·.addr)) none)
    (slot : nextAt heap i cur = some link) (stored : ∀ entry ∈ entries, Stored heap entry)
    (enough : entries.length < fuel) (texts : List String) :
    loop (printTurn heap i) fuel (link, texts) =
      some (texts ++ entries.map fun entry => timestampText entry.timestamp) := by
  induction entries generalizing cur link texts fuel with
  | nil =>
      have isEnd : nextAt heap i cur = some none := path
      rw [slot] at isEnd
      rw [Option.some.inj isEnd]
      cases fuel with
      | zero => exact absurd enough (Nat.lt_irrefl _)
      | succ fuel =>
          have turn : printTurn heap i (none, texts) = .leave texts := rfl
          rw [loop_leave turn, List.map_nil, List.append_nil]
  | cons first rest inductionHypothesis =>
      have isFirst : nextAt heap i cur = some (some first.addr) := path.1
      rw [slot] at isFirst
      rw [Option.some.inj isFirst]
      cases fuel with
      | zero => exact absurd enough (Nat.not_lt_zero _)
      | succ fuel =>
          obtain ⟨node, found, timestamp, _⟩ := stored first List.mem_cons_self
          obtain ⟨further, slotFirst⟩ := path.2.exists_link
          have turn : printTurn heap i (some first.addr, texts) =
              .again (further, texts ++ [timestampText first.timestamp]) := by
            simp only [printTurn, found, slotFirst, timestamp]
          have later := inductionHypothesis path.2 slotFirst
            (fun entry member => stored entry (List.mem_cons_of_mem _ member))
            (Nat.lt_of_succ_lt_succ enough) (texts ++ [timestampText first.timestamp])
          rw [loop_again turn, later, List.append_assoc, List.singleton_append, List.map_cons]

theorem printLevels_eq (paths : ∀ i < level, Path (nextAt heap i) head (chain i entries) none)
    (stored : ∀ entry ∈ entries, Stored heap entry) (enough : entries.length < fuel) (texts : List String) :
    printLevels fuel heap head level texts = some (texts ++ rows entries level) := by
  induction level generalizing texts with
  | zero => rw [printLevels, rows, List.append_nil]
  | succ i inductionHypothesis =>
      have path := paths i (Nat.lt_succ_self i)
      obtain ⟨first, slot⟩ := path.exists_link
      have short : (onLevel i entries).length < fuel :=
        Nat.lt_of_le_of_lt (List.length_filter_le _ _) enough
      have prints := printLoop_eq path slot
        (fun entry member => stored entry (mem_onLevel.mp member).1) short texts
      have later := inductionHypothesis (fun other below => paths other (Nat.lt_succ_of_lt below))
        ((texts ++ (onLevel i entries).map fun entry => timestampText entry.timestamp) ++ ["\n"])
      rw [printLevels, slot]
      simp only [prints]
      rw [later, rows, row, List.append_assoc, List.append_assoc, List.append_assoc]

theorem Holds.prints (holds : Holds memory entries) :
    skplistPrint (turns memory) memory = some (rows entries memory.list.level) := by
  have enough : entries.length < turns memory := Nat.lt_succ_of_lt holds.length_lt
  exact printLevels_eq (fun i below => holds.paths i (Nat.lt_of_lt_of_le below holds.level)) holds.stored enough []

theorem callStep_level {call : Call} (taken : callStep memory call = some (next, shown)) :
    next.list.level = levelAfter memory.list.level call := by
  cases call with
  | insert insertion =>
      obtain ⟨outcome, steps, isNext⟩ := Option.map_eq_some_iff.mp taken
      rw [← (Prod.mk.inj isNext).1, levelAfter]
      exact (step_list steps).1
  | remove addr =>
      rw [callStep] at taken
      split at taken
      · obtain ⟨outcome, removes, isNext⟩ := Option.map_eq_some_iff.mp taken
        unfold skplistRemove at removes
        split at removes
        · contradiction
        · split at removes
          · contradiction
          · split at removes
            · contradiction
            · obtain ⟨list, counts, same⟩ := Option.map_eq_some_iff.mp removes
              rw [← same] at isNext
              rw [← (Prod.mk.inj isNext).1, Skplist.decrement_spec counts]
              rfl
      · contradiction

theorem exec_level (exec : callMachine.Exec calls memory events) : memory.list.level = drawn calls := by
  induction exec with
  | start => rfl
  | step ran taken inductionHypothesis =>
      rename_i before state next seen shown call
      rw [callStep_level taken, inductionHypothesis, drawn, drawn, List.foldl_append]
      rfl

/-- After any such run the list prints all its nodes, level by level. -/
theorem exec_prints (guarded : callMachine.Guarded Fits calls) (exec : callMachine.Exec calls memory events) :
    Printed memory calls events := by
  have holds := (exec_accounted guarded exec).1
  have isLevel := exec_level exec
  refine ⟨?_, holds.sorted, ?_⟩
  · rw [← isLevel]
    exact holds.prints
  · rw [← isLevel]
    exact holds.heights

/-- The third node could not be made, and its second level is an empty row. -/
theorem emptyRow_prints :
    ∃ memory events,
      callMachine.Exec [.insert ⟨3, 0, [], true⟩, .insert ⟨9, 0, [], true⟩, .remove 1, .insert ⟨5, 0, [0], false⟩]
        memory events ∧
      Printed memory
        [.insert ⟨3, 0, [], true⟩, .insert ⟨9, 0, [], true⟩, .remove 1, .insert ⟨5, 0, [0], false⟩] events := by
  have ran := callMachine.exec_of_isSome
    [.insert ⟨3, 0, [], true⟩, .insert ⟨9, 0, [], true⟩, .remove 1, .insert ⟨5, 0, [0], false⟩] rfl
  exact ⟨_, _, ran, exec_prints (Machine.guarded_of_meets (by decide +kernel)) ran⟩

end

end SimpleBasicComponents.SkipList
