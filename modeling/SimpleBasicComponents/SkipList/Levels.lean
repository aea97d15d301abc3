import SimpleBasicComponents.Semantics.Chain
import SimpleBasicComponents.SkipList.Model

/-!
The descending walk of `skplist_insert`.

Owns: the chains of a list of inserted nodes, the effect of one link, where the
walk on one level ends, and the loop over the levels. The walk starts on a level
where it ended one level up. That node is on this level, too, since a node on
level `i + 1` is on level `i`, and it is not beyond the place for the new node.
-/

namespace SimpleBasicComponents.SkipList

open SimpleBasicComponents.Semantics

/-! ### `random_leve` -/

theorem one_le_randomLeve (rands : List Nat) : 1 ≤ randomLeve rands := by
  simp only [randomLeve]
  split
  · omega
  · decide

theorem randomLeve_le (rands : List Nat) : randomLeve rands ≤ skiplistLevelMax := by
  simp only [randomLeve]
  split <;> omega

/-- Every height from 1 to 32 is drawn. -/
theorem exists_randomLeve {height : Nat} (positive : 1 ≤ height) (le : height ≤ skiplistLevelMax) :
    ∃ rands, randomLeve rands = height := by
  refine ⟨List.replicate (height - 1) 0, ?_⟩
  have all : (List.replicate (height - 1) 0).takeWhile goesUp = List.replicate (height - 1) 0 := by
    rw [List.takeWhile_replicate]
    rfl
  simp only [randomLeve, all, List.length_replicate]
  split <;> omega

/-! ### Nodes and their slots -/

/-- The heap holds the node as it was inserted. -/
def Stored (heap : Heap SkpNode) (entry : Inserted) : Prop :=
  ∃ node, heap.load entry.addr = some node ∧ node.timestamp = entry.timestamp ∧
    node.level.length = entry.height

/-- Everything but the contents of the slots is the same. -/
def SameNodes (before after : Heap SkpNode) : Prop :=
  after.length = before.length ∧ ∀ addr,
    (after.load addr).map (fun node => (node.timestamp, node.func, node.level.length)) =
      (before.load addr).map fun node => (node.timestamp, node.func, node.level.length)

theorem SameNodes.refl (heap : Heap SkpNode) : SameNodes heap heap := ⟨rfl, fun _ => rfl⟩

theorem SameNodes.trans {first second third : Heap SkpNode} (left : SameNodes first second)
    (right : SameNodes second third) : SameNodes first third :=
  ⟨right.1.trans left.1, fun addr => (right.2 addr).trans (left.2 addr)⟩

theorem SameNodes.stored {before after : Heap SkpNode} (same : SameNodes before after)
    {entry : Inserted} (stored : Stored before entry) : Stored after entry := by
  obtain ⟨node, found, timestamp, height⟩ := stored
  have moved := same.2 entry.addr
  rw [found, Option.map_some] at moved
  obtain ⟨now, foundNow, fields⟩ := Option.map_eq_some_iff.mp moved
  obtain ⟨timestampNow, fields⟩ := Prod.mk.inj fields
  obtain ⟨-, heightNow⟩ := Prod.mk.inj fields
  exact ⟨now, foundNow, timestampNow.trans timestamp, heightNow.trans height⟩

section

variable {heap : Heap SkpNode} {i : Nat} {addr cur : Addr} {next : Option Addr}

theorem nextAt_of_stored {entry : Inserted} (stored : Stored heap entry) (below : i < entry.height) :
    ∃ next, nextAt heap i entry.addr = some next := by
  obtain ⟨node, found, -, height⟩ := stored
  have inside : i < node.level.length := height ▸ below
  exact ⟨node.level[i], by simp [nextAt, found, inside]⟩

/-- Writing a slot that can be read changes that slot and nothing else. -/
theorem setNext_eq_some {old : Option Addr} (slot : nextAt heap i addr = some old)
    (next : Option Addr) :
    ∃ after, setNext heap i addr next = some after ∧ SameNodes heap after ∧
      nextAt after i addr = some next ∧
      ∀ j other, ¬ (j = i ∧ other = addr) → nextAt after j other = nextAt heap j other := by
  unfold nextAt at slot
  split at slot
  · rename_i node found
    have inside : i < node.level.length := by
      by_contra outside
      simp [List.getElem?_eq_none (Nat.le_of_not_lt outside)] at slot
    obtain ⟨after, stores, length, here, elsewhere⟩ :=
      Heap.store_eq_some found { node with level := node.level.set i next }
    refine ⟨after, by simp only [setNext, found, if_pos inside, stores], ⟨length, ?_⟩, ?_, ?_⟩
    · intro other
      by_cases isAddr : other = addr
      · simp [isAddr, here, found]
      · rw [elsewhere other isAddr]
    · simp [nextAt, here, inside]
    · intro j other notSlot
      unfold nextAt
      by_cases isAddr : other = addr
      · subst isAddr
        have notLevel : i ≠ j := fun same => notSlot ⟨same.symm, rfl⟩
        simp [here, found, List.getElem?_set_ne notLevel]
      · rw [elsewhere other isAddr]
  · contradiction

/-- What linking `node` behind `cur` does to the slots. -/
theorem linkBehind_eq_some {node : Addr} {old : Option Addr}
    (slot : nextAt heap i node = some old) (curSlot : nextAt heap i cur = some next)
    (different : cur ≠ node) :
    ∃ after, linkBehind heap node i cur = some after ∧ SameNodes heap after ∧
      nextAt after i node = some next ∧ nextAt after i cur = some (some node) ∧
      (∀ other, other ≠ node → other ≠ cur → nextAt after i other = nextAt heap i other) ∧
      ∀ j, j ≠ i → ∀ other, nextAt after j other = nextAt heap j other := by
  obtain ⟨middle, sets, sameMiddle, nodeSlot, othersMiddle⟩ := setNext_eq_some slot next
  have curMiddle : nextAt middle i cur = some next :=
    (othersMiddle i cur fun both => different both.2).trans curSlot
  obtain ⟨after, relinks, sameAfter, curAfter, othersAfter⟩ :=
    setNext_eq_some curMiddle (some node)
  refine ⟨after, by simp only [linkBehind, curSlot, sets, relinks], sameMiddle.trans sameAfter, ?_,
    curAfter, ?_, ?_⟩
  · rw [othersAfter i node fun both => different both.2.symm, nodeSlot]
  · intro other notNode notCur
    rw [othersAfter i other fun both => notCur both.2, othersMiddle i other fun both => notNode both.2]
  · intro j notLevel other
    rw [othersAfter j other fun both => notLevel both.1, othersMiddle j other fun both => notLevel both.1]

end

/-! ### Chains -/

/-- The nodes that reach level `i`, in order. -/
def onLevel (i : Nat) (entries : List Inserted) : List Inserted :=
  entries.filter fun entry => i < entry.height

def chain (i : Nat) (entries : List Inserted) : List Addr := (onLevel i entries).map (·.addr)

theorem mem_onLevel {i : Nat} {entries : List Inserted} {entry : Inserted} :
    entry ∈ onLevel i entries ↔ entry ∈ entries ∧ i < entry.height := by
  simp [onLevel]

theorem chain_append (i : Nat) (before after : List Inserted) :
    chain i (before ++ after) = chain i before ++ chain i after := by
  simp [chain, onLevel]

theorem chain_cons (i : Nat) (entry : Inserted) (entries : List Inserted) :
    chain i (entry :: entries) =
      if i < entry.height then entry.addr :: chain i entries else chain i entries := by
  by_cases reaches : i < entry.height <;> simp [chain, onLevel, reaches]

theorem chain_sublist (i : Nat) (entries : List Inserted) :
    (chain i entries).Sublist (entries.map (·.addr)) :=
  List.filter_sublist.map _

/-! ### The walk on one level -/

/-- From a node on the path the walk goes to the last node before the place. -/
private theorem walk_from {heap : Heap SkpNode} {ts : UInt64} {i fuel : Nat} {cur : Addr}
    {passed : List Inserted} (rest : List Inserted)
    (path : Path (nextAt heap i) cur ((passed ++ rest).map (·.addr)) none)
    (stored : ∀ entry ∈ passed ++ rest, Stored heap entry)
    (early : ∀ entry ∈ passed, entry.timestamp < ts)
    (late : ∀ entry ∈ rest, ¬ entry.timestamp < ts) (enough : passed.length < fuel) :
    walk fuel heap ts i cur = some (pathEnd cur (passed.map (·.addr))) := by
  obtain ⟨fuel, rfl⟩ := Nat.exists_eq_add_of_le' (Nat.one_le_of_lt enough)
  induction passed generalizing cur fuel with
  | nil =>
      apply loop_leave
      cases rest with
      | nil =>
          have stops : nextAt heap i cur = some none := path
          simp only [walkTurn, stops, List.map_nil, pathEnd_nil]
      | cons first rest =>
          have goesOn : nextAt heap i cur = some (some first.addr) := path.1
          obtain ⟨node, found, timestamp, -⟩ := stored first (by simp)
          have notEarly : ¬ node.timestamp < ts := timestamp ▸ late first (by simp)
          simp only [walkTurn, goesOn, found, if_neg notEarly, List.map_nil, pathEnd_nil]
  | cons first passed inductionHypothesis =>
      have goesOn : nextAt heap i cur = some (some first.addr) := path.1
      obtain ⟨node, found, timestamp, -⟩ := stored first (by simp)
      have isEarly : node.timestamp < ts := timestamp ▸ early first (by simp)
      have turn : walkTurn heap ts i cur = .again first.addr := by
        simp only [walkTurn, goesOn, found, if_pos isEarly]
      have shorter : passed.length < fuel := by
        rw [List.length_cons] at enough
        omega
      obtain ⟨fuel, rfl⟩ := Nat.exists_eq_add_of_le' (Nat.one_le_of_lt shorter)
      rw [List.map_cons, pathEnd_cons, walk, loop_again turn]
      apply inductionHypothesis path.2 _ _ fuel shorter
      · intro entry member
        exact stored entry (List.mem_cons_of_mem _ member)
      · intro entry member
        exact early entry (List.mem_cons_of_mem _ member)

/-- The walk on level `i` ends at the last node of level `i` before the place,
from wherever before the place it starts. -/
theorem walk_eq_some {heap : Heap SkpNode} {ts : UInt64} {i fuel : Nat} {head cur : Addr}
    {before after : List Inserted}
    (path : Path (nextAt heap i) head (chain i (before ++ after)) none)
    (stored : ∀ entry ∈ before ++ after, Stored heap entry)
    (early : ∀ entry ∈ before, entry.timestamp < ts)
    (late : ∀ entry ∈ after, ¬ entry.timestamp < ts) (enough : before.length < fuel)
    (isBefore : cur = head ∨ ∃ entry ∈ before, entry.addr = cur ∧ i < entry.height) :
    walk fuel heap ts i cur = some (pathEnd head (chain i before)) := by
  rw [chain_append] at path
  have storedOn : ∀ entry ∈ onLevel i before ++ onLevel i after, Stored heap entry := by
    intro entry member
    rw [List.mem_append, mem_onLevel, mem_onLevel] at member
    exact stored entry (List.mem_append.mpr (member.imp And.left And.left))
  have earlyOn : ∀ entry ∈ onLevel i before, entry.timestamp < ts :=
    fun entry member => early entry (mem_onLevel.mp member).1
  have lateOn : ∀ entry ∈ onLevel i after, ¬ entry.timestamp < ts :=
    fun entry member => late entry (mem_onLevel.mp member).1
  have short : (onLevel i before).length < fuel :=
    Nat.lt_of_le_of_lt (List.length_filter_le _ _) enough
  rcases isBefore with rfl | ⟨entry, member, rfl, reaches⟩
  · apply walk_from (onLevel i after) _ storedOn earlyOn lateOn short
    rw [List.map_append]
    exact path
  · obtain ⟨passed, ahead, split⟩ := List.append_of_mem (mem_onLevel.mpr ⟨member, reaches⟩)
    have chains : chain i before = passed.map (·.addr) ++ entry.addr :: ahead.map (·.addr) := by
      simp [chain, split]
    rw [chains, List.append_assoc, List.cons_append, path_append_cons] at path
    rw [chains, pathEnd_append_cons]
    rw [split] at storedOn earlyOn short
    apply walk_from (onLevel i after) _ _ _ lateOn
    · simp only [List.length_append, List.length_cons] at short
      omega
    · rw [List.map_append]
      exact path.2
    · intro other isAhead
      apply storedOn
      simp only [List.append_assoc, List.mem_append, List.mem_cons] at isAhead ⊢
      tauto
    · intro other isAhead
      exact earlyOn other (by simp [isAhead])

end SimpleBasicComponents.SkipList
