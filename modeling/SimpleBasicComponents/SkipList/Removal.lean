import Mathlib.Algebra.Group.Nat.Defs
import Mathlib.Data.List.Perm.Subperm
import SimpleBasicComponents.Semantics.Ensures
import SimpleBasicComponents.SkipList.Search

/-!
Removal from the skip list.

Owns: `skplist_remove`, a machine of insertions and removals, and the exact
condition under which a removal takes its node out and leaves the rest as it
was. The node is looked for by its timestamp, which goes through an `int`: on
each level the first node found with it is taken for the one to unlink.
-/

namespace SimpleBasicComponents.SkipList

open SimpleBasicComponents.Semantics

/-- `int ts = node->timestamp`, as it is compared with a `uint64_t` again. -/
def narrowed (ts : UInt64) : UInt64 := ts.toUInt32.toInt32.toInt64.toUInt64

/-- What is done behind `cur` on level `i`. A null `cur->level[i].next` is read
through. -/
def unlinkBehind (heap : Heap SkpNode) (node : Addr) (ts : UInt64) (i : Nat) (cur : Addr) :
    Option (Heap SkpNode) :=
  match nextAt heap i cur with
  | some (some next) =>
      match heap.load next with
      | some found =>
          if found.timestamp = ts then
            match nextAt heap i node with
            | some link => setNext heap i cur link
            | none => none
          else some heap
      | none => none
  | _ => none

/-- The loop of `skplist_remove` over the levels below `i`, downwards. -/
def removeLevels (fuel : Nat) (node : Addr) (ts : UInt64) : Nat → Heap SkpNode → Addr → Option (Heap SkpNode)
  | 0, heap, _ => some heap
  | i + 1, heap, cur =>
      match walk fuel heap ts i cur with
      | none => none
      | some cur =>
          match unlinkBehind heap node ts i cur with
          | none => none
          | some heap => removeLevels fuel node ts i heap cur

/-- The list and the return value. -/
def skplistRemove (fuel : Nat) (heap : Heap SkpNode) (list : Skplist) (node : Addr) :
    Option (Heap SkpNode × Skplist × Int) :=
  match heap.load node with
  | none => none
  | some found =>
      match removeLevels fuel node (narrowed found.timestamp) list.level heap list.head with
      | none => none
      | some heap =>
          match heap.free node with
          | none => none
          | some heap => list.decrement.map fun list => (heap, list, 0)

/-- The `int` keeps the timestamps below `2 ^ 31`, and those that are a negative one. -/
theorem narrowed_eq_self_iff (ts : UInt64) :
    narrowed ts = ts ↔ ts.toNat < 2 ^ 31 ∨ 2 ^ 64 - 2 ^ 31 ≤ ts.toNat := by
  have asInt : (narrowed ts).toBitVec.toInt = (ts.toNat : Int).bmod (2 ^ 32) := by
    unfold narrowed
    rw [Int64.toBitVec_toUInt64, Int32.toBitVec_toInt64, BitVec.toInt_signExtend_of_le (by decide)]
    rw [UInt32.toBitVec_toInt32, UInt64.toBitVec_toUInt32, BitVec.toInt_setWidth]
    rfl
  rw [← UInt64.toBitVec_inj, ← BitVec.toInt_inj, asInt]
  have below := ts.toNat_lt
  rw [BitVec.toInt_eq_toNat_bmod, UInt64.toNat_toBitVec]
  rw [Int.bmod_def, Int.bmod_def]
  split <;> split <;> omega

/-! ### Calls -/

/-- The nodes on level 0, from a link on. -/
def listedFrom (heap : Heap SkpNode) : Nat → Option Addr → List Inserted
  | fuel + 1, some addr =>
      match heap.load addr with
      | some node => ⟨addr, node.timestamp, node.level.length⟩ ::
          listedFrom heap fuel (nextAt heap 0 addr).join
      | none => []
  | _, _ => []

/-- The nodes of the list, as a reader of level 0 finds them. -/
def listed (memory : Memory) : List Inserted :=
  listedFrom memory.heap memory.heap.length (nextAt memory.heap 0 memory.list.head).join

inductive Call where
  | insert (insertion : Insertion)
  | remove (addr : Addr)
deriving DecidableEq, Repr

inductive Event where
  | inserted (entry : Inserted)
  | removed (addr : Addr)
deriving DecidableEq, Repr

/-- As many turns as a walk that visits no node twice can have. -/
def turns (memory : Memory) : Nat := memory.heap.length + 1

/-- `skplist_remove` is called with a node of the list. -/
def callStep (memory : Memory) : Call → Option (Memory × List Event)
  | .insert insertion =>
      (step (turns memory) memory insertion).map fun
        | (next, shown) => (next, shown.map .inserted)
  | .remove addr =>
      if ∃ entry ∈ listed memory, entry.addr = addr then
        (skplistRemove (turns memory) memory.heap memory.list addr).map fun
          | (heap, list, _) => (⟨heap, list⟩, [.removed addr])
      else none

def callMachine : Machine Memory Call Event where
  start := ⟨(skplistCreate []).1, (skplistCreate []).2⟩
  step := callStep

/-! ### What is asked of the calls -/

def edit (entries : List Inserted) : Event → List Inserted
  | .inserted entry => placed entry entries
  | .removed addr => entries.filter (·.addr ≠ addr)

/-- The nodes inserted and not removed since, in order. -/
def contents (events : List Event) : List Inserted := events.foldl edit []

/-- Every level has the nodes that reach it and no other, in order. -/
structure Linked (memory : Memory) (events : List Event) : Prop where
  paths : ∀ i < skiplistLevelMax,
    Path (nextAt memory.heap i) memory.list.head ((onLevel i (contents events)).map (·.addr)) none
  sorted : ∀ i, (onLevel i (contents events)).Pairwise fun left right => left.timestamp ≤ right.timestamp
  nested : ∀ i, (onLevel (i + 1) (contents events)).Sublist (onLevel i (contents events))
  length : memory.list.length = (contents events).length

/-- The timestamp fits, the node is the first and the tallest one with it, and
the top level has a node that is not earlier. -/
structure Removable (level : Nat) (entries : List Inserted) (entry : Inserted) : Prop where
  fits : narrowed entry.timestamp = entry.timestamp
  first : entries.find? (·.timestamp = entry.timestamp) = some entry
  tallest : ∀ other ∈ entries, other.timestamp = entry.timestamp → other.height ≤ entry.height
  guarded : ∃ other ∈ entries, level ≤ other.height ∧ entry.timestamp ≤ other.timestamp

/-- The call can do what it should. -/
def Fits (memory : Memory) : Call → Prop
  | .insert _ => True
  | .remove addr => ∃ entry ∈ listed memory, entry.addr = addr ∧
      Removable memory.list.level (listed memory) entry

/-- A node that is made can be counted in the `int`. -/
def HasRoom (memory : Memory) : Call → Prop
  | .insert insertion => insertion.memory = true → memory.list.length < 2 ^ 31 - 1
  | .remove _ => True

/-- The call can do what it should, and be counted. -/
def FitsCounted (memory : Memory) (call : Call) : Prop := Fits memory call ∧ HasRoom memory call

variable {memory : Memory} {heap next : Heap SkpNode} {head cur : Addr} {entries before after rest : List Inserted}
  {entry first : Inserted} {ts : UInt64} {i fuel : Nat}

/-! ### One level -/

/-- The link that stands before the first late node now leads past `entry`, if
that node has the timestamp; `entry` has a slot on the level then. -/
def Unlinked (entry : Inserted) (ts : UInt64) (head : Addr) (before after : List Inserted) (i : Nat)
    (old new : Addr → Option (Option Addr)) : Prop :=
  ∃ first, firstLate i after = some first ∧
    if first.timestamp = ts then
      i < entry.height ∧ new = Function.update old (pathEnd head (chain i before)) (old entry.addr)
    else new = old

/-- The level can be gone through. -/
def Passes (entry : Inserted) (ts : UInt64) (after : List Inserted) (i : Nat) : Prop :=
  ∃ first, firstLate i after = some first ∧ (first.timestamp = ts → i < entry.height)

theorem nextAt_beyond (stored : Stored heap entry) (beyond : entry.height ≤ i) :
    nextAt heap i entry.addr = none := by
  obtain ⟨node, found, -, height⟩ := stored
  rw [← height] at beyond
  simp only [nextAt, found, List.getElem?_eq_none beyond]

/-- A write into one slot, as functions. -/
theorem setNext_nextAt {old link : Option Addr} (slot : nextAt heap i cur = some old) :
    ∃ next, setNext heap i cur link = some next ∧ SameNodes heap next ∧
      nextAt next i = Function.update (nextAt heap i) cur (some link) ∧
      ∀ j, j ≠ i → nextAt next j = nextAt heap j := by
  obtain ⟨next, sets, same, here, others⟩ := setNext_eq_some slot link
  refine ⟨next, sets, same, funext fun other => ?_, fun j notLevel => funext fun other => ?_⟩
  · by_cases isCur : other = cur
    · rw [isCur, here, Function.update_self]
    · rw [Function.update_of_ne isCur]
      exact others i other fun both => isCur both.2
  · exact others j other fun both => notLevel both.1

/-- The step of one level, where its place has been found. -/
theorem unlinkBehind_spec (stored : ∀ other ∈ before ++ after, Stored heap other)
    (member : entry ∈ before ++ after)
    (slot : nextAt heap i (pathEnd head (chain i before)) = some ((firstLate i after).map (·.addr))) :
    ((unlinkBehind heap entry.addr ts i (pathEnd head (chain i before))).isSome ↔ Passes entry ts after i) ∧
      Ensures (unlinkBehind heap entry.addr ts i (pathEnd head (chain i before))) fun next =>
        SameNodes heap next ∧
          Unlinked entry ts head before after i (nextAt heap i) (nextAt next i) ∧
            ∀ j, j ≠ i → nextAt next j = nextAt heap j := by
  unfold Passes Unlinked
  cases isFirst : firstLate i after with
  | none =>
      rw [isFirst, Option.map_none] at slot
      simp only [unlinkBehind, slot]
      exact ⟨by simp, .of_none⟩
  | some first =>
      obtain ⟨node, found, timestamp, -⟩ := stored first (List.mem_append_right _ (firstLate_mem isFirst).1)
      rw [isFirst, Option.map_some] at slot
      simp only [unlinkBehind, slot, found, timestamp, Option.some.injEq, exists_eq_left']
      by_cases equal : first.timestamp = ts
      · rw [if_pos equal]
        by_cases reaches : i < entry.height
        · obtain ⟨link, own⟩ := nextAt_of_stored (stored entry member) reaches
          obtain ⟨next, sets, same, level, levels⟩ := @setNext_nextAt _ _ _ _ link slot
          simp only [own, sets]
          refine ⟨by simp [reaches], .of_some ⟨same, ?_, levels⟩⟩
          rw [if_pos equal]
          exact ⟨reaches, level⟩
        · simp only [nextAt_beyond (stored entry member) (Nat.le_of_not_lt reaches)]
          exact ⟨by simp [equal, reaches], .of_none⟩
      · rw [if_neg equal]
        refine ⟨by simp [equal], .of_some ⟨.refl heap, ?_, fun _ _ => rfl⟩⟩
        rw [if_neg equal]

/-! ### The loop over the levels -/

/-- The loop goes through the levels that can be gone through, and leaves each of
them with its link changed. -/
theorem Around.removeLevels_spec (around : Around ts before after)
    (paths : ∀ j < i, Path (nextAt heap j) head (chain j (before ++ after)) none)
    (stored : ∀ other ∈ before ++ after, Stored heap other) (member : entry ∈ before ++ after)
    (enough : before.length < fuel) (behind : Behind i head before cur) :
    ((removeLevels fuel entry.addr ts i heap cur).isSome ↔ ∀ j < i, Passes entry ts after j) ∧
      Ensures (removeLevels fuel entry.addr ts i heap cur) fun next =>
        SameNodes heap next ∧
          (∀ j < i, Unlinked entry ts head before after j (nextAt heap j) (nextAt next j)) ∧
            ∀ j, i ≤ j → nextAt next j = nextAt heap j := by
  induction i generalizing heap cur with
  | zero => exact ⟨by simp [removeLevels], .of_some ⟨.refl heap, by simp, fun _ _ => rfl⟩⟩
  | succ i inductionHypothesis =>
      obtain ⟨walks, slot⟩ := around.walk_eq (paths i (Nat.lt_succ_self i)) stored enough behind
      obtain ⟨passes, unlinks⟩ := @unlinkBehind_spec _ _ _ _ entry ts i stored member slot
      simp only [removeLevels, walks]
      cases isMiddle : unlinkBehind heap entry.addr ts i (pathEnd head (chain i before)) with
      | none =>
          rw [isMiddle] at passes
          refine ⟨?_, .of_none⟩
          simp only [Option.isSome_none, Bool.false_eq_true, false_iff] at passes ⊢
          exact fun all => passes (all i (Nat.lt_succ_self i))
      | some middle =>
          rw [isMiddle] at passes
          obtain ⟨same, unlinked, levels⟩ := unlinks middle isMiddle
          have pathsMiddle : ∀ j < i, Path (nextAt middle j) head (chain j (before ++ after)) none := by
            intro j less
            rw [levels j (Nat.ne_of_lt less)]
            exact paths j (Nat.lt_succ_of_lt less)
          obtain ⟨goesOn, ensures⟩ := inductionHypothesis pathsMiddle
            (fun other isOther => same.stored (stored other isOther)) behind_pathEnd
          constructor
          · rw [goesOn]
            constructor
            · intro below j less
              rcases Nat.lt_succ_iff_lt_or_eq.mp less with isBelow | rfl
              · exact below j isBelow
              · exact passes.mp rfl
            · exact fun all j less => all j (Nat.lt_succ_of_lt less)
          · intro last returns
            obtain ⟨sameLast, unlinkedLast, levelsLast⟩ := ensures last returns
            refine ⟨same.trans sameLast, ?_, ?_⟩
            · intro j less
              rcases Nat.lt_succ_iff_lt_or_eq.mp less with isBelow | rfl
              · rw [← levels j (Nat.ne_of_lt isBelow)]
                exact unlinkedLast j isBelow
              · rw [levelsLast j (Nat.le_refl j)]
                exact unlinked
            · intro j beyond
              rw [levelsLast j (Nat.le_of_succ_le beyond), levels j (Nat.ne_of_gt beyond)]

/-! ### The call -/

/-- What a removal that returns has done: `levels` are the links before the node
was freed. -/
structure Removed (memory : Memory) (entries : List Inserted) (entry : Inserted) (ts : UInt64)
    (before after : List Inserted) (next : Memory) (levels : Nat → Addr → Option (Option Addr)) : Prop where
  list : next.list = { memory.list with length := memory.list.length - 1 }
  stored : ∀ other ∈ entries, other.addr ≠ entry.addr → Stored next.heap other
  unlinked : ∀ j < memory.list.level,
    Unlinked entry ts memory.list.head before after j (nextAt memory.heap j) (levels j)
  above : ∀ j, memory.list.level ≤ j → levels j = nextAt memory.heap j
  links : ∀ j cell, cell ≠ entry.addr → nextAt next.heap j cell = levels j cell

theorem Holds.skplistRemove_spec (holds : Holds memory entries) (member : entry ∈ entries)
    (enough : entries.length < fuel) (isTs : narrowed entry.timestamp = ts)
    (split : before ++ after = entries) (around : Around ts before after) :
    ((skplistRemove fuel memory.heap memory.list entry.addr).isSome ↔
        ∀ j < memory.list.level, Passes entry ts after j) ∧
      Ensures (skplistRemove fuel memory.heap memory.list entry.addr) fun outcome =>
        outcome.2.2 = 0 ∧ ∃ levels, Removed memory entries entry ts before after ⟨outcome.1, outcome.2.1⟩ levels := by
  have stored := holds.stored
  have paths : ∀ j < memory.list.level,
      Path (nextAt memory.heap j) memory.list.head (chain j (before ++ after)) none := by
    rw [split]
    exact fun j less => holds.paths j (Nat.lt_of_lt_of_le less holds.level)
  have short : before.length < fuel := by
    have lengths := congrArg List.length split
    rw [List.length_append] at lengths
    omega
  obtain ⟨found, loads, timestamp, -⟩ := stored entry member
  rw [← split] at stored member
  obtain ⟨passes, ensures⟩ := around.removeLevels_spec paths stored member short (.inl rfl)
  unfold skplistRemove
  rw [loads]
  simp only [timestamp, isTs]
  cases returns : removeLevels fuel entry.addr ts memory.list.level memory.heap memory.list.head with
  | none =>
      rw [returns] at passes
      exact ⟨by simpa using passes, .of_none⟩
  | some heap =>
      rw [returns] at passes
      obtain ⟨same, unlinked, above⟩ := ensures heap returns
      obtain ⟨still, stillThere, -⟩ := same.stored (stored entry member)
      obtain ⟨next, frees, -, others⟩ := Heap.free_eq_some stillThere
      have counts := Skplist.decrement_eq_some memory.list (by rw [holds.length]; omega)
      simp only [frees, counts, Option.map_some]
      refine ⟨by simpa using passes, .of_some ⟨rfl, nextAt heap, rfl, ?_, unlinked, above, ?_⟩⟩
      · intro other isOther different
        obtain ⟨node, foundOther, fields⟩ := same.stored (stored other (split ▸ isOther))
        exact ⟨node, (others other.addr different).trans foundOther, fields⟩
      · intro j cell different
        simp only [nextAt, others cell different]

/-! ### A removable node -/

theorem chain_zero (positive : ∀ entry ∈ entries, 1 ≤ entry.height) : chain 0 entries = entries.map (·.addr) := by
  rw [chain, onLevel, List.filter_eq_self.mpr]
  intro entry member
  exact decide_eq_true (positive entry member)

/-- The nodes before and behind a removable one. -/
theorem Holds.split_of_removable (holds : Holds memory entries)
    (removable : Removable memory.list.level entries entry) :
    ∃ before rest, before ++ entry :: rest = entries ∧
      Around entry.timestamp before (entry :: rest) ∧
        ∀ j < memory.list.level, Passes entry entry.timestamp (entry :: rest) j := by
  obtain ⟨-, before, rest, split, others⟩ := List.find?_eq_some_iff_append.mp removable.first
  have sorted := holds.sorted
  rw [split, List.pairwise_append] at sorted
  have around : Around entry.timestamp before (entry :: rest) := by
    refine ⟨?_, ?_, sorted.2.1⟩
    · intro other member
      have notEqual : other.timestamp ≠ entry.timestamp := by simpa using others other member
      exact UInt64.lt_of_le_of_ne (sorted.2.2 other member entry (List.mem_cons_self ..)) notEqual
    · intro other member
      rcases List.mem_cons.mp member with rfl | later
      · exact UInt64.le_refl _
      · exact (List.pairwise_cons.mp sorted.2.1).1 other later
  refine ⟨before, rest, split.symm, around, ?_⟩
  intro j less
  obtain ⟨tall, isTall, reaches, isLate⟩ := removable.guarded
  have isAfter : tall ∈ entry :: rest := by
    rw [split] at isTall
    rcases List.mem_append.mp isTall with isEarly | isAfter
    · exact absurd (around.early tall isEarly) (UInt64.not_lt.mpr isLate)
    · exact isAfter
  unfold Passes
  cases isFirst : firstLate j (entry :: rest) with
  | none => exact absurd (firstLate_eq_none.mp isFirst tall isAfter) (by omega)
  | some first =>
      refine ⟨first, rfl, fun equal => ?_⟩
      obtain ⟨isMember, onLevel⟩ := firstLate_mem isFirst
      have inEntries : first ∈ entries := split ▸ List.mem_append_right _ isMember
      exact Nat.lt_of_lt_of_le onLevel (removable.tallest first inEntries equal)

/-- The links of a level after the removal lead through the other nodes. -/
theorem Removed.path {levels : Nat → Addr → Option (Option Addr)} {after : Memory}
    (removed : Removed memory entries entry entry.timestamp before (entry :: rest) after levels)
    (holds : Holds memory entries) (split : before ++ entry :: rest = entries)
    (small : i < skiplistLevelMax) :
    Path (nextAt after.heap i) after.list.head (chain i (before ++ rest)) none := by
  have path := holds.paths i small
  have onChain := List.Sublist.cons_cons memory.list.head (chain_sublist i entries)
  have distinct := holds.distinct.sublist onChain
  have height := (holds.heights entry (split ▸ List.mem_append_right _ (List.mem_cons_self ..))).2
  have away : entry.addr ∉ memory.list.head :: chain i (before ++ rest) := by
    have apart := holds.distinct
    rw [← split, List.map_append, List.map_cons, ← List.cons_append, List.nodup_middle, List.cons_append,
      ← List.map_append, List.nodup_cons] at apart
    intro member
    exact apart.1 ((List.Sublist.cons_cons _ (chain_sublist i (before ++ rest))).subset member)
  suffices through : Path (levels i) memory.list.head (chain i (before ++ rest)) none by
    rw [removed.list]
    refine through.congr fun cell member => removed.links i cell ?_
    rintro rfl
    exact away member
  rw [← split, chain_append, chain_cons] at path distinct
  by_cases reaches : i < entry.height
  · rw [if_pos reaches] at path distinct
    obtain ⟨first, isFirst, changed⟩ := removed.unlinked i (Nat.lt_of_lt_of_le reaches height)
    have isEntry : first = entry := by
      rw [firstLate, onLevel, List.filter_cons_of_pos (by simpa using reaches)] at isFirst
      exact (Option.some.inj isFirst).symm
    rw [if_pos (congrArg _ isEntry)] at changed
    rw [chain_append, changed.2]
    apply path.remove distinct (Function.update_self ..)
    intro cell notEnd
    exact Function.update_of_ne notEnd ..
  · rw [if_neg reaches, ← chain_append] at path
    have unchanged : levels i = nextAt memory.heap i := by
      by_cases below : i < memory.list.level
      · obtain ⟨first, isFirst, changed⟩ := removed.unlinked i below
        split at changed
        · exact absurd changed.1 reaches
        · exact changed
      · exact removed.above i (Nat.le_of_not_lt below)
    rw [unchanged]
    exact path

theorem Holds.ne_addr (holds : Holds memory entries) (split : before ++ entry :: rest = entries)
    {other : Inserted} (member : other ∈ before ++ rest) : other.addr ≠ entry.addr := by
  have distinct := (List.nodup_cons.mp holds.distinct).2
  rw [← split, List.map_append, List.map_cons, List.nodup_middle, List.nodup_cons, ← List.map_append] at distinct
  intro same
  exact distinct.1 (same ▸ List.mem_map_of_mem member)

theorem Holds.filter_ne (holds : Holds memory entries) (split : before ++ entry :: rest = entries) :
    entries.filter (·.addr ≠ entry.addr) = before ++ rest := by
  have others {part : List Inserted} (within : ∀ other ∈ part, other ∈ before ++ rest) :
      part.filter (·.addr ≠ entry.addr) = part := by
    rw [List.filter_eq_self]
    intro other member
    simpa using holds.ne_addr split (within other member)
  rw [← split, List.filter_append, List.filter_cons_of_neg (by simp),
    others fun other => List.mem_append_left rest, others fun other => List.mem_append_right before]

/-- Removing a removable node keeps the list well linked. -/
theorem Holds.remove (holds : Holds memory entries) (member : entry ∈ entries) (enough : entries.length < fuel)
    (removable : Removable memory.list.level entries entry) :
    ∃ heap list, skplistRemove fuel memory.heap memory.list entry.addr = some (heap, list, 0) ∧
      Holds ⟨heap, list⟩ (entries.filter (·.addr ≠ entry.addr)) := by
  obtain ⟨before, rest, split, around, passes⟩ := holds.split_of_removable removable
  obtain ⟨returns, ensures⟩ := holds.skplistRemove_spec member enough removable.fits split around
  obtain ⟨⟨heap, list, result⟩, removes⟩ := Option.isSome_iff_exists.mp (returns.mpr passes)
  obtain ⟨isZero, levels, removed⟩ := ensures _ removes
  obtain rfl : result = 0 := isZero
  refine ⟨heap, list, removes, ?_⟩
  have sublist : (before ++ rest).Sublist entries := by
    rw [← split]
    exact List.Sublist.append_left (List.sublist_cons_self entry rest) before
  have isList : list = { memory.list with length := memory.list.length - 1 } := removed.list
  rw [holds.filter_ne split]
  refine ⟨?_, ?_, ?_, holds.sorted.sublist sublist, ?_, ?_, ?_⟩
  · intro i small
    exact removed.path holds split small
  · intro other isOther
    exact removed.stored other (sublist.subset isOther) (holds.ne_addr split isOther)
  · rw [isList]
    exact holds.distinct.sublist ((sublist.map _).cons_cons _)
  · intro other isOther
    rw [isList]
    exact holds.heights other (sublist.subset isOther)
  · rw [isList]
    exact holds.level
  · rw [isList]
    show memory.list.length - 1 = _
    rw [holds.length, ← split]
    simp only [List.length_append, List.length_cons]
    omega

/-! ### A node that is not removable -/

theorem Holds.eq_of_addr (holds : Holds memory entries) {one two : Inserted} (isOne : one ∈ entries)
    (isTwo : two ∈ entries) (same : one.addr = two.addr) : one = two :=
  List.inj_on_of_nodup_map (List.nodup_cons.mp holds.distinct).2 isOne isTwo same

/-- A removal that takes its node off level 0 found it there by its timestamp. -/
theorem Removed.firstLate_zero {levels : Nat → Addr → Option (Option Addr)} {next : Memory}
    (removed : Removed memory entries entry ts before after next levels)
    (holds : Holds memory entries) (member : entry ∈ entries) (split : before ++ after = entries)
    (path : Path (nextAt next.heap 0) next.list.head
      ((entries.filter (·.addr ≠ entry.addr)).map (·.addr)) none) :
    firstLate 0 after = some entry ∧ entry.timestamp = ts := by
  obtain ⟨early, late, isSplit⟩ := List.append_of_mem member
  have positive : ∀ other ∈ entries, 1 ≤ other.height := fun other isOther => (holds.heights other isOther).1
  have someLevel : 0 < memory.list.level := by
    have bounds := holds.heights entry member
    omega
  have old := holds.paths 0 (by decide)
  have distinct := holds.distinct
  rw [chain_zero positive, isSplit, List.map_append, List.map_cons] at old
  rw [isSplit, List.map_append, List.map_cons] at distinct
  -- The node before it leads to it, and past it afterwards.
  have slot := path_end (path_append_cons.mp old).1
  have isList : next.list.head = memory.list.head := by
    rw [removed.list]
  rw [isList, holds.filter_ne isSplit.symm, List.map_append] at path
  have slotNext := path_end (path_append_iff.mp path).1
  have notEntry : pathEnd memory.list.head (early.map (·.addr)) ≠ entry.addr :=
    (ne_pathEnd_of_mem distinct (List.mem_cons_self ..)).symm
  rw [removed.links 0 _ notEntry] at slotNext
  have changed : levels 0 (pathEnd memory.list.head (early.map (·.addr))) ≠
      nextAt memory.heap 0 (pathEnd memory.list.head (early.map (·.addr))) := by
    rw [slot, slotNext, Option.or_none]
    intro same
    have isLate : entry.addr ∈ late.map (·.addr) := List.mem_of_head? (Option.some.inj same)
    obtain ⟨other, isOther, sameAddr⟩ := List.mem_map.mp isLate
    exact holds.ne_addr isSplit.symm (List.mem_append_right early isOther) sameAddr
  obtain ⟨first, isFirst, unlinked⟩ := removed.unlinked 0 someLevel
  by_cases equal : first.timestamp = ts
  · rw [if_pos equal] at unlinked
    have atPlace : pathEnd memory.list.head (early.map (·.addr)) =
        pathEnd memory.list.head (chain 0 before) := by
      by_contra elsewhere
      rw [unlinked.2, Function.update_of_ne elsewhere] at changed
      exact changed rfl
    have path := holds.paths 0 (by decide)
    rw [← split] at path
    have found := nextAt_place path
    rw [← atPlace, slot, isFirst, Option.map_some] at found
    have sameAddr : entry.addr = first.addr := Option.some.inj (Option.some.inj found)
    have inEntries : first ∈ entries := split ▸ List.mem_append_right _ (firstLate_mem isFirst).1
    obtain rfl := holds.eq_of_addr member inEntries sameAddr
    exact ⟨isFirst, equal⟩
  · rw [if_neg equal] at unlinked
    exact absurd (congrFun unlinked _) changed

/-- A removal that returns and takes its node off level 0 was of a removable node. -/
theorem Holds.removable_of_removes (holds : Holds memory entries) (member : entry ∈ entries)
    (enough : entries.length < fuel) {list : Skplist} {result : Int}
    (removes : skplistRemove fuel memory.heap memory.list entry.addr = some (heap, list, result))
    (path : Path (nextAt heap 0) list.head ((entries.filter (·.addr ≠ entry.addr)).map (·.addr)) none) :
    Removable memory.list.level entries entry := by
  obtain ⟨before, after, split, around⟩ := exists_around (narrowed entry.timestamp) holds.sorted
  obtain ⟨returns, ensures⟩ := holds.skplistRemove_spec member enough rfl split around
  obtain ⟨-, levels, removed⟩ := ensures _ removes
  have passes := returns.mp (by rw [removes]; rfl)
  obtain ⟨isFirst, equal⟩ := removed.firstLate_zero holds member split path
  rw [← equal] at around passes
  have onlyLate {other : Inserted} (isOther : other ∈ entries) (isLate : entry.timestamp ≤ other.timestamp) :
      other ∈ after := by
    rw [← split] at isOther
    rcases List.mem_append.mp isOther with isEarly | isAfter
    · exact absurd (around.early other isEarly) (UInt64.not_lt.mpr isLate)
    · exact isAfter
  refine ⟨equal.symm, ?_, ?_, ?_⟩
  · have positive : ∀ other ∈ after, 0 < other.height :=
      fun other isAfter => (holds.heights other (split ▸ List.mem_append_right _ isAfter)).1
    have onZero : onLevel 0 after = after :=
      List.filter_eq_self.mpr fun other isAfter => decide_eq_true (positive other isAfter)
    rw [firstLate, onZero] at isFirst
    obtain ⟨rest, isAfter⟩ := List.head?_eq_some_iff.mp isFirst
    rw [List.find?_eq_some_iff_append]
    refine ⟨by simp, before, rest, by rw [← split, isAfter], ?_⟩
    intro other isEarly
    have notEqual := UInt64.ne_of_lt (around.early other isEarly)
    simpa using notEqual
  · intro other isOther same
    by_contra taller
    have reaches : entry.height < other.height := Nat.lt_of_not_le taller
    have below := Nat.lt_of_lt_of_le reaches (holds.heights other isOther).2
    obtain ⟨first, isFirst, ownSlot⟩ := passes entry.height below
    have isLate := onlyLate isOther (UInt64.le_of_eq same.symm)
    exact Nat.lt_irrefl _ (ownSlot (around.firstLate_timestamp isLate same reaches isFirst))
  · have someLevel : 1 ≤ memory.list.level := by
      have bounds := holds.heights entry member
      omega
    obtain ⟨first, isFirst, -⟩ := passes (memory.list.level - 1) (by omega)
    obtain ⟨isAfter, reaches⟩ := firstLate_mem isFirst
    exact ⟨first, split ▸ List.mem_append_right _ isAfter, by omega, around.late first isAfter⟩

/-! ### The nodes of level 0 -/

theorem Holds.length_lt (holds : Holds memory entries) : entries.length < memory.heap.length := by
  have allocated : memory.list.head :: entries.map (·.addr) ⊆ List.range memory.heap.length := by
    intro addr member
    rw [List.mem_range]
    rcases List.mem_cons.mp member with rfl | isEntry
    · obtain ⟨link, slot⟩ := (holds.paths 0 (by decide)).exists_link
      unfold nextAt at slot
      split at slot
      · rename_i node found
        exact Heap.lt_length_of_load found
      · contradiction
    · obtain ⟨entry, inList, rfl⟩ := List.mem_map.mp isEntry
      obtain ⟨node, found, -⟩ := holds.stored entry inList
      exact Heap.lt_length_of_load found
  have lengths := (List.subperm_of_subset holds.distinct allocated).length_le
  rw [List.length_cons, List.length_map, List.length_range] at lengths
  exact lengths

theorem listedFrom_eq {start : Addr} (path : Path (nextAt heap 0) start (entries.map (·.addr)) none)
    (stored : ∀ entry ∈ entries, Stored heap entry) (enough : entries.length ≤ fuel) :
    listedFrom heap fuel (nextAt heap 0 start).join = entries := by
  induction entries generalizing start fuel with
  | nil =>
      have slot : nextAt heap 0 start = some none := path
      rw [slot]
      cases fuel <;> rfl
  | cons first rest inductionHypothesis =>
      have slot : nextAt heap 0 start = some (some first.addr) := path.1
      obtain ⟨node, found, timestamp, height⟩ := stored first (List.mem_cons_self ..)
      obtain ⟨fuel, rfl⟩ := Nat.exists_eq_add_of_le' (Nat.le_trans (Nat.succ_le_succ (Nat.zero_le _)) enough)
      have later := inductionHypothesis path.2 (fun entry member => stored entry (List.mem_cons_of_mem _ member))
        (Nat.le_of_succ_le_succ enough)
      rw [slot, Option.join_some, listedFrom, found]
      simp only [later, timestamp, height]

theorem Holds.listed_eq (holds : Holds memory entries) : listed memory = entries := by
  have path := holds.paths 0 (by decide)
  rw [chain_zero fun entry member => (holds.heights entry member).1] at path
  exact listedFrom_eq path holds.stored (Nat.le_of_lt holds.length_lt)

/-! ### Whole runs -/

variable {events : List Event}

theorem contents_snoc (event : Event) : contents (events ++ [event]) = edit (contents events) event := by
  rw [contents, List.foldl_append]
  rfl

theorem Holds.linked (holds : Holds memory (contents events)) : Linked memory events where
  paths := holds.paths
  sorted := fun _ => holds.sorted.sublist List.filter_sublist
  nested := by
    intro i
    apply List.monotone_filter_right
    intro entry reaches
    simp only [decide_eq_true_eq] at reaches ⊢
    omega
  length := holds.length

/-- An insertion that can be counted goes through and puts its node in its place. -/
theorem Holds.callStep_insert (holds : Holds memory (contents events)) {insertion : Insertion}
    (room : HasRoom memory (.insert insertion)) :
    ∃ next shown, callStep memory (.insert insertion) = some (next, shown) ∧
      Holds next (contents (events ++ shown)) := by
  have enough : (contents events).length < turns memory := Nat.lt_succ_of_lt holds.length_lt
  obtain ⟨next, steps, holdsNext⟩ := holds.step enough insertion room
  refine ⟨next, _, by rw [callStep, steps]; rfl, ?_⟩
  cases granted : insertion.memory with
  | false =>
      rw [granted] at holdsNext
      simpa using holdsNext
  | true =>
      rw [granted] at holdsNext
      rw [if_pos rfl, List.map_singleton, contents_snoc]
      exact holdsNext

theorem hasRoom_of_callStep {call : Call} {next : Memory} {shown : List Event}
    (taken : callStep memory call = some (next, shown)) : HasRoom memory call := by
  cases call with
  | remove addr => trivial
  | insert insertion =>
      intro granted
      obtain ⟨outcome, steps, -⟩ := Option.map_eq_some_iff.mp taken
      have isList := (step_list steps).2
      rw [granted] at isList
      exact isList.1

/-- A removal of a node that fits goes through and takes the node out. -/
theorem Holds.callStep_remove (holds : Holds memory (contents events)) {addr : Addr}
    (fits : Fits memory (.remove addr)) :
    ∃ next, callStep memory (.remove addr) = some (next, [.removed addr]) ∧
      Holds next (contents (events ++ [.removed addr])) := by
  have enough : (contents events).length < turns memory := Nat.lt_succ_of_lt holds.length_lt
  obtain ⟨entry, member, rfl, removable⟩ := fits
  have inList : ∃ other ∈ listed memory, other.addr = entry.addr := ⟨entry, member, rfl⟩
  rw [holds.listed_eq] at member removable
  obtain ⟨heap, list, removes, holdsNext⟩ := holds.remove member enough removable
  refine ⟨⟨heap, list⟩, ?_, ?_⟩
  · rw [callStep, if_pos inList, removes, Option.map_some]
  · rw [contents_snoc]
    exact holdsNext

/-- A removal that goes through as it should was of a node that fits. -/
theorem Holds.fits_of_linked (holds : Holds memory (contents events)) {addr : Addr} {next : Memory}
    {shown : List Event} (taken : callStep memory (.remove addr) = some (next, shown))
    (linked : Linked next (events ++ shown)) : Fits memory (.remove addr) := by
  have enough : (contents events).length < turns memory := Nat.lt_succ_of_lt holds.length_lt
  simp only [callStep] at taken
  split at taken
  · rename_i inList
    obtain ⟨entry, member, rfl⟩ := inList
    obtain ⟨⟨heap, list, result⟩, removes, same⟩ := Option.map_eq_some_iff.mp taken
    obtain ⟨rfl, rfl⟩ := Prod.mk.inj same
    refine ⟨entry, member, rfl, ?_⟩
    rw [holds.listed_eq] at member ⊢
    have path := linked.paths 0 (by decide)
    rw [contents_snoc] at path
    have positive : ∀ other ∈ (contents events).filter (·.addr ≠ entry.addr), 1 ≤ other.height :=
      fun other isOther => (holds.heights other (List.mem_of_mem_filter isOther)).1
    have onZero := chain_zero positive
    unfold chain at onZero
    change Path (nextAt heap 0) list.head ((onLevel 0 ((contents events).filter _)).map _) none at path
    rw [onZero] at path
    exact holds.removable_of_removes member enough removes path
  · contradiction

/-- Insertions and removals keep every level as it should be exactly if each
removal is of a node that fits and each insertion can be counted. -/
theorem completes_linked_iff_fits (calls : List Call) :
    callMachine.Completes Linked calls ↔ callMachine.Guarded FitsCounted calls := by
  apply @Machine.completes_iff_guarded _ _ _ callMachine fun memory events => Holds memory (contents events)
  · have holds : Holds callMachine.start (contents []) := (grown_start 0).holds
    exact ⟨holds, holds.linked⟩
  · intro memory events call holds _
    cases call with
    | insert insertion =>
        constructor
        · intro goesOn
          have ⟨next, shown, taken, _⟩ := goesOn
          exact ⟨trivial, hasRoom_of_callStep taken⟩
        · intro fits
          have ⟨next, shown, taken, holdsNext⟩ := holds.callStep_insert fits.2
          exact ⟨next, shown, taken, holdsNext.linked⟩
    | remove addr =>
        constructor
        · intro goesOn
          have ⟨next, shown, taken, linked⟩ := goesOn
          exact ⟨holds.fits_of_linked taken linked, trivial⟩
        · intro fits
          have ⟨next, taken, holdsNext⟩ := holds.callStep_remove fits.1
          exact ⟨next, _, taken, holdsNext.linked⟩
  · intro memory events call next shown holds _ fits taken
    cases call with
    | insert insertion =>
        obtain ⟨other, shownOther, takenOther, holdsNext⟩ := holds.callStep_insert fits.2
        obtain ⟨rfl, rfl⟩ := Prod.mk.inj (Option.some.inj (taken.symm.trans takenOther))
        exact holdsNext
    | remove addr =>
        obtain ⟨other, takenOther, holdsNext⟩ := holds.callStep_remove fits.1
        obtain ⟨rfl, rfl⟩ := Prod.mk.inj (Option.some.inj (taken.symm.trans takenOther))
        exact holdsNext

/-- Of two nodes with the same timestamp the one inserted first is removed. -/
def olderTwin : List Call := [.insert ⟨7, 0, [], true⟩, .insert ⟨7, 0, [], true⟩, .remove 1]

theorem olderTwin_not_linked : ¬ callMachine.Completes Linked olderTwin := by
  rintro ⟨-, always⟩
  have exec := callMachine.exec_of_isSome olderTwin rfl
  have linked := (always.last exec).paths 0 (by decide)
  have kept : nextAt ((callMachine.run olderTwin).get rfl).1.heap 0 0 = some (some 2) := linked.1
  exact absurd kept (by decide)

end SimpleBasicComponents.SkipList
