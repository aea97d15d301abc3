import SimpleBasicComponents.SkipList.Removal

/-!
`skplist_destroy`.

Owns: the loop over level 0, and what it frees after any run of insertions and removals
that do what they should: the nodes in the list, each once, but never the head, and
`list` itself only if there was a node.
-/

namespace SimpleBasicComponents.SkipList

open SimpleBasicComponents.Semantics

/-- One turn of the loop; the state is the heap, `cur` and `next`. -/
def destroyTurn : Heap SkpNode × Addr × Option Addr →
    Turn (Heap SkpNode × Addr × Option Addr) (Heap SkpNode × Addr)
  | (heap, cur, none) => .leave (heap, cur)
  | (heap, cur, some next) =>
      match heap.free cur with
      | none => .fault
      | some heap =>
          match nextAt heap 0 next with
          | some link => .again (heap, next, link)
          | none => .fault

/-- The heap, and whether `list` is freed. -/
def skplistDestroy (fuel : Nat) (memory : Memory) : Option (Heap SkpNode × Bool) :=
  match nextAt memory.heap 0 memory.list.head with
  | none => none
  | some none => some (memory.heap, false)
  | some (some cur) =>
      match nextAt memory.heap 0 cur with
      | none => none
      | some next =>
          match loop destroyTurn fuel (memory.heap, cur, next) with
          | none => none
          | some (heap, cur) => (heap.free cur).map fun heap => (heap, true)

/-! ### The loop -/

section

variable {heap next : Heap SkpNode} {cur addr : Addr} {link : Option Addr} {rest : List Addr} {i fuel : Nat}

private theorem exists_load (slot : nextAt heap i cur = some link) : ∃ node, heap.load cur = some node := by
  unfold nextAt at slot
  split at slot
  · rename_i node found
    exact ⟨node, found⟩
  · contradiction

private theorem destroyLoop_eq (path : Path (nextAt heap 0) cur rest none) (distinct : (cur :: rest).Nodup)
    (slot : nextAt heap 0 cur = some link) (enough : rest.length < fuel) :
    ∃ gone last, loop destroyTurn fuel (heap, cur, link) = some (gone, last) ∧
      gone.free last = heap.freeAll (cur :: rest) := by
  induction rest generalizing heap cur link fuel with
  | nil =>
      have isEnd : nextAt heap 0 cur = some none := path
      obtain rfl := Option.some.inj (slot.symm.trans isEnd)
      obtain ⟨fuel, rfl⟩ := Nat.exists_eq_succ_of_ne_zero (Nat.ne_of_gt enough)
      refine ⟨heap, cur, loop_leave rfl, ?_⟩
      rw [Heap.freeAll]
      cases heap.free cur <;> rfl
  | cons next rest inductionHypothesis =>
      obtain rfl := Option.some.inj (slot.symm.trans path.1)
      obtain ⟨fuel, rfl⟩ := Nat.exists_eq_succ_of_ne_zero (Nat.ne_of_gt (Nat.zero_lt_of_lt enough))
      obtain ⟨node, found⟩ := exists_load slot
      obtain ⟨heap', frees, _, others⟩ := Heap.free_eq_some found
      obtain ⟨notLater, distinctRest⟩ := List.nodup_cons.mp distinct
      have same : ∀ cell ∈ next :: rest, nextAt heap' 0 cell = nextAt heap 0 cell := by
        intro cell member
        rw [nextAt, nextAt, others cell fun isCur => notLater (isCur ▸ member)]
      have pathRest := path.2.congr same
      obtain ⟨further, slotNext⟩ := pathRest.exists_link
      obtain ⟨gone, last, runs, freesLast⟩ :=
        inductionHypothesis pathRest distinctRest slotNext (Nat.lt_of_succ_lt_succ enough)
      refine ⟨gone, last, ?_, ?_⟩
      · rw [loop_again, runs]
        simp only [destroyTurn, frees, slotNext]
      · rw [freesLast, Heap.freeAll.eq_def heap]
        simp only [frees]

end

/-! ### The nodes that are there -/

/-- The calls below change no more than links. -/
def SameCells (heap next : Heap SkpNode) : Prop := ∀ addr, (next.load addr).isSome = (heap.load addr).isSome

section

variable {heap next : Heap SkpNode} {cur node : Addr} {link : Option Addr} {ts : UInt64} {i level fuel : Nat}

private theorem setNext_cells (sets : setNext heap i cur link = some next) : SameCells heap next := by
  unfold setNext at sets
  split at sets
  · rename_i node found
    split at sets
    · obtain ⟨after, stores, _, here, others⟩ :=
        Heap.store_eq_some found { node with level := node.level.set i link }
      obtain rfl := Option.some.inj (stores.symm.trans sets)
      intro addr
      by_cases same : addr = cur
      · rw [same, here, found]
        rfl
      · rw [others addr same]
    · contradiction
  · contradiction

private theorem insertLevels_cells {top : Nat} (inserts : insertLevels fuel node ts level top heap cur = some next) :
    SameCells heap next := by
  induction top generalizing heap cur with
  | zero =>
      obtain rfl := Option.some.inj inserts
      exact fun _ => rfl
  | succ top inductionHypothesis =>
      rw [insertLevels] at inserts
      split at inserts
      · contradiction
      · split at inserts
        · split at inserts
          · contradiction
          · rename_i linked links
            have later := inductionHypothesis inserts
            unfold linkBehind at links
            split at links
            · contradiction
            · split at links
              · contradiction
              · rename_i middle sets
                exact fun addr =>
                  (later addr).trans ((setNext_cells links addr).trans (setNext_cells sets addr))
        · exact inductionHypothesis inserts

private theorem removeLevels_cells {top : Nat} (removes : removeLevels fuel node ts top heap cur = some next) :
    SameCells heap next := by
  induction top generalizing heap cur with
  | zero =>
      obtain rfl := Option.some.inj removes
      exact fun _ => rfl
  | succ top inductionHypothesis =>
      rw [removeLevels] at removes
      split at removes
      · contradiction
      · split at removes
        · contradiction
        · rename_i unlinked unlinks
          have later := inductionHypothesis removes
          refine fun addr => (later addr).trans ?_
          unfold unlinkBehind at unlinks
          split at unlinks
          · split at unlinks
            · split at unlinks
              · split at unlinks
                · exact setNext_cells unlinks addr
                · contradiction
              · obtain rfl := Option.some.inj unlinks
                rfl
            · contradiction
          · contradiction

end

/-- What is there is the head or in the list. -/
def Accounted (memory : Memory) (events : List Event) : Prop :=
  ∀ addr, (memory.heap.load addr).isSome → addr = memory.list.head ∨ ∃ entry ∈ contents events, entry.addr = addr

section

variable {memory next : Memory} {events shown : List Event}

private theorem Accounted.insert (accounted : Accounted memory events) {insertion : Insertion}
    (taken : callStep memory (.insert insertion) = some (next, shown)) : Accounted next (events ++ shown) := by
  obtain ⟨ts, func, rands, granted⟩ := insertion
  simp only [callStep, SkipList.step, skplistInsert, skpnodeCreate] at taken
  cases granted with
  | false =>
      simp only [Bool.false_eq_true, if_false, Option.map_some, Option.some.injEq, Prod.mk.injEq] at taken
      obtain ⟨rfl, rfl⟩ := taken
      have failed : ¬ (-1 : Int) = 0 := by decide
      rw [if_neg failed, List.map_nil, List.append_nil]
      exact accounted
  | true =>
      simp only [if_true] at taken
      generalize isNew : SkpNode.mk ts func (List.replicate (randomLeve rands) none) = node at taken
      split at taken
      · rename_i heap list result inserted
        split at inserted
        · rename_i linked inserts
          obtain ⟨counted, counts, same⟩ := Option.map_eq_some_iff.mp inserted
          obtain ⟨rfl, rfl, rfl⟩ := same
          rw [(Skplist.increment_spec counts).2] at taken
          obtain ⟨rfl, rfl⟩ := Prod.mk.inj (Option.some.inj taken)
          intro addr found
          have isThere : ((memory.heap.alloc node).load addr).isSome := insertLevels_cells inserts addr ▸ found
          rw [if_pos rfl, List.map_singleton, contents_snoc]
          have mem_edit : ∀ entry, entry ∈ edit (contents events)
              (.inserted ⟨memory.heap.length, ts, randomLeve rands⟩) ↔
                entry = ⟨memory.heap.length, ts, randomLeve rands⟩ ∨ entry ∈ contents events := fun entry =>
            (placed_perm _ _).mem_iff.trans List.mem_cons
          by_cases same : addr = memory.heap.length
          · exact .inr ⟨_, (mem_edit _).mpr (.inl rfl), same.symm⟩
          · rw [Heap.load_alloc_other same] at isThere
            cases accounted addr isThere with
            | inl isHead => exact .inl isHead
            | inr listed =>
                obtain ⟨entry, member, isAddr⟩ := listed
                exact .inr ⟨entry, (mem_edit entry).mpr (.inr member), isAddr⟩
        · contradiction
      · contradiction

private theorem Accounted.remove (accounted : Accounted memory events) {addr : Addr}
    (taken : callStep memory (.remove addr) = some (next, shown)) : Accounted next (events ++ shown) := by
  rw [callStep] at taken
  split at taken
  · obtain ⟨outcome, removes, isNext⟩ := Option.map_eq_some_iff.mp taken
    obtain ⟨rfl, rfl⟩ := Prod.mk.inj isNext
    unfold skplistRemove at removes
    split at removes
    · contradiction
    · split at removes
      · contradiction
      · rename_i unlinked unlinks
        split at removes
        · contradiction
        · rename_i heap frees
          obtain ⟨list, counts, rfl⟩ := Option.map_eq_some_iff.mp removes
          rw [Skplist.decrement_spec counts]
          intro other found
          have notFreed : other ≠ addr := by
            intro same
            rw [same, Heap.load_free_self frees] at found
            contradiction
          have wasThere : (memory.heap.load other).isSome := by
            obtain ⟨node, isNode⟩ : ∃ node, unlinked.load addr = some node := by
              unfold Heap.free at frees
              split at frees
              · rename_i node isNode
                exact ⟨node, isNode⟩
              · contradiction
            obtain ⟨freed, isFreed, _, others⟩ := Heap.free_eq_some isNode
            obtain rfl := Option.some.inj (isFreed.symm.trans frees)
            rw [others other notFreed, removeLevels_cells unlinks other] at found
            exact found
          cases accounted other wasThere with
          | inl isHead => exact .inl isHead
          | inr listed =>
              obtain ⟨entry, member, isAddr⟩ := listed
              refine .inr ⟨entry, ?_, isAddr⟩
              rw [contents_snoc]
              exact List.mem_filter.mpr ⟨member, by simpa [isAddr] using notFreed⟩
  · contradiction

end

/-! ### After a run -/

/-- What `skplist_destroy` frees: every node of the list, once, and nothing twice. The head is
left, and so is `list` if no node was in it. -/
structure Destroyed (memory : Memory) (events : List Event) (heap : Heap SkpNode) (listFreed : Bool) : Prop where
  destroys : skplistDestroy (turns memory) memory = some (heap, listFreed)
  frees : memory.heap.freeAll ((contents events).map (·.addr)) = some heap
  once : ((contents events).map (·.addr)).Nodup
  left : ∀ addr, (heap.load addr).isSome ↔ addr = memory.list.head
  list : listFreed = true ↔ contents events ≠ []

section

variable {memory : Memory} {events : List Event} {calls : List Call}

/-- The nodes in the list, and no others. -/
def Consistent (memory : Memory) (events : List Event) : Prop :=
  Holds memory (contents events) ∧ Accounted memory events

theorem exec_accounted (guarded : callMachine.Guarded Fits calls)
    (exec : callMachine.Exec calls memory events) : Consistent memory events := by
  have always : callMachine.Always Consistent calls := by
    have atStart : Accounted callMachine.start [] := by
      intro addr found
      cases addr with
      | zero => exact .inl rfl
      | succ addr => exact absurd found (by simp [callMachine, skplistCreate, skpnodeCreate, Heap.alloc, Heap.load])
    refine Machine.Guarded.always ⟨(grown_start 0).holds, atStart⟩ ?_ guarded
    intro before memory events call next shown _ good fits taken
    obtain ⟨holds, accounted⟩ := good
    cases call with
    | insert insertion =>
        obtain ⟨other, seen, isTaken, holdsNext⟩ := holds.callStep_insert (hasRoom_of_callStep taken)
        obtain ⟨rfl, rfl⟩ := Prod.mk.inj (Option.some.inj (isTaken.symm.trans taken))
        exact ⟨holdsNext, accounted.insert taken⟩
    | remove addr =>
        obtain ⟨other, isTaken, holdsNext⟩ := holds.callStep_remove fits
        obtain ⟨rfl, rfl⟩ := Prod.mk.inj (Option.some.inj (isTaken.symm.trans taken))
        exact ⟨holdsNext, accounted.remove taken⟩
  exact always.last exec

theorem exec_destroyed (guarded : callMachine.Guarded Fits calls)
    (exec : callMachine.Exec calls memory events) : ∃ heap listFreed, Destroyed memory events heap listFreed := by
  have ⟨holds, accounted⟩ := exec_accounted guarded exec
  have ⟨headFresh, once⟩ := List.nodup_cons.mp holds.distinct
  have path := holds.paths 0 (by decide)
  rw [chain_zero fun entry member => (holds.heights entry member).1] at path
  have live : ∀ addr ∈ (contents events).map (·.addr), (memory.heap.load addr).isSome := by
    intro addr member
    have ⟨entry, isEntry, isAddr⟩ := List.mem_map.mp member
    have ⟨node, found, _⟩ := holds.stored entry isEntry
    rw [← isAddr, found]
    rfl
  have ⟨heap, frees, _, gone, kept⟩ := Heap.freeAll_eq_some once live
  have left : ∀ addr, (heap.load addr).isSome ↔ addr = memory.list.head := by
    intro addr
    by_cases member : addr ∈ (contents events).map (·.addr)
    · rw [gone addr member]
      constructor
      · intro found
        contradiction
      · intro isHead
        exact absurd (isHead ▸ member) headFresh
    · rw [kept addr member]
      constructor
      · intro found
        refine (accounted addr found).resolve_right fun listed => ?_
        have ⟨entry, isEntry, isAddr⟩ := listed
        exact member (List.mem_map.mpr ⟨entry, isEntry, isAddr⟩)
      · intro isHead
        have ⟨link, slot⟩ := path.exists_link
        have ⟨node, found⟩ := exists_load slot
        rw [isHead, found]
        rfl
  have enough : ((contents events).map (·.addr)).length < turns memory := by
    rw [List.length_map]
    exact Nat.lt_succ_of_lt holds.length_lt
  generalize isAddrs : (contents events).map (·.addr) = addrs at path once frees enough
  cases addrs with
  | nil =>
      have slot : nextAt memory.heap 0 memory.list.head = some none := path
      obtain rfl := Option.some.inj frees
      refine ⟨memory.heap, false, ?_, by rw [isAddrs]; rfl, isAddrs ▸ once, left, ?_⟩
      · rw [skplistDestroy, slot]
      · simpa using isAddrs
  | cons cur rest =>
      have ⟨link, slot⟩ := path.2.exists_link
      have ⟨freed, last, runs, freesLast⟩ :=
        destroyLoop_eq path.2 once slot (Nat.lt_of_succ_lt enough)
      refine ⟨heap, true, ?_, isAddrs ▸ frees, isAddrs ▸ once, left, ?_⟩
      · rw [skplistDestroy, path.1]
        simp only [slot, runs, freesLast, frees, Option.map_some]
      · refine ⟨fun _ empty => ?_, fun _ => rfl⟩
        rw [empty] at isAddrs
        contradiction

instance (level : Nat) (entries : List Inserted) (entry : Inserted) :
    Decidable (Removable level entries entry) :=
  decidable_of_iff
    (narrowed entry.timestamp = entry.timestamp ∧ entries.find? (·.timestamp = entry.timestamp) = some entry ∧
      (∀ other ∈ entries, other.timestamp = entry.timestamp → other.height ≤ entry.height) ∧
      ∃ other ∈ entries, level ≤ other.height ∧ entry.timestamp ≤ other.timestamp)
    ⟨fun parts => ⟨parts.1, parts.2.1, parts.2.2.1, parts.2.2.2⟩,
      fun removable => ⟨removable.fits, removable.first, removable.tallest, removable.guarded⟩⟩

instance (memory : Memory) : (call : Call) → Decidable (Fits memory call)
  | .insert _ => inferInstanceAs (Decidable True)
  | .remove addr => inferInstanceAs (Decidable (∃ entry ∈ listed memory, entry.addr = addr ∧
      Removable memory.list.level (listed memory) entry))

/-- Three nodes, one of them removed before. -/
theorem twoLeft_destroyed :
    ∃ memory events heap listFreed,
      callMachine.Exec [.insert ⟨3, 0, [], true⟩, .insert ⟨5, 0, [], true⟩, .insert ⟨9, 0, [], true⟩, .remove 2]
        memory events ∧ Destroyed memory events heap listFreed := by
  have ran := callMachine.exec_of_isSome
    [.insert ⟨3, 0, [], true⟩, .insert ⟨5, 0, [], true⟩, .insert ⟨9, 0, [], true⟩, .remove 2] rfl
  have ⟨heap, listFreed, destroyed⟩ := exec_destroyed (Machine.guarded_of_meets (by decide +kernel)) ran
  exact ⟨_, _, heap, listFreed, ran, destroyed⟩

end

end SimpleBasicComponents.SkipList
