import Mathlib.Algebra.Group.Nat.Defs
import Mathlib.Data.List.Dedup
import Mathlib.Data.List.Perm.Basic
import Mathlib.Data.Nat.Log
import SimpleBasicComponents.RbTree.Balance
import SimpleBasicComponents.RbTree.Storage

/-!
Searches after insertions.

Owns: the height of a balanced tree against the number of its nodes, the nodes
that a list of insertions puts into the tree, and the theorem that `rbtree_find`
returns the first node inserted with the key after at most twice as many turns
as the number of nodes has binary digits.
-/

namespace SimpleBasicComponents.RbTree

open SimpleBasicComponents.Semantics

/-! ### Heights -/

section

variable {tree : BinTree Cell} {height : Nat}

/-- Every level of black nodes doubles the number of nodes. -/
theorem pow_le_size (balanced : Balanced tree height) : 2 ^ height ≤ tree.size + 1 := by
  induction tree generalizing height with
  | leaf =>
      obtain rfl : height = 0 := balanced
      exact Nat.le_refl 1
  | node left cell right left_ih right_ih =>
      have ⟨below, isLeft, isRight, isHeight⟩ := balanced
      have lower := left_ih isLeft
      have upper := right_ih isRight
      have oneMore : black cell.color ≤ 1 := by
        unfold black
        split <;> decide
      have doubled : 2 ^ height ≤ 2 ^ (below + 1) := by
        rw [isHeight]
        exact Nat.pow_le_pow_right (by decide) (Nat.add_le_add_left oneMore below)
      rw [Nat.pow_succ] at doubled
      rw [BinTree.size]
      omega

/-- At most every other node on a trail is red. -/
theorem height_le (two : TwoColored tree) (noRedRed : NoRedRed tree) (balanced : Balanced tree height) :
    tree.height ≤ 2 * height + if isRed tree then 1 else 0 := by
  induction tree generalizing height with
  | leaf => exact Nat.zero_le _
  | node left cell right left_ih right_ih =>
      obtain ⟨hue, twoLeft, twoRight⟩ := two
      obtain ⟨here, isLeft, isRight⟩ := noRedRed
      obtain ⟨below, balancedLeft, balancedRight, isHeight⟩ := balanced
      have lower := left_ih twoLeft isLeft balancedLeft
      have upper := right_ih twoRight isRight balancedRight
      rw [BinTree.height]
      by_cases red : cell.color = RED
      · obtain ⟨leftBlack, rightBlack⟩ := here red
        have rootRed : isRed (.node left cell right) := red
        rw [if_neg leftBlack] at lower
        rw [if_neg rightBlack] at upper
        rw [red, black_RED] at isHeight
        rw [if_pos rootRed]
        omega
      · have rootBlack : ¬ isRed (.node left cell right) := red
        have isBlack : black cell.color = 1 := by
          rw [hue.black_of_not_red red]
          rfl
        rw [if_neg rootBlack]
        split at lower <;> split at upper <;> omega

theorem Sound.height_le {nil : Ground} {T : Rbtree} (sound : Sound nil T tree) :
    tree.height ≤ 2 * Nat.log 2 (tree.size + 1) := by
  have ⟨height, balanced⟩ := sound.redBlack.balanced
  have high := RbTree.height_le sound.twoColored sound.redBlack.noRedRed balanced
  rw [if_neg sound.redBlack.colored.1] at high
  have few : height ≤ Nat.log 2 (tree.size + 1) :=
    Nat.le_log_of_pow_le (by decide) (pow_le_size balanced)
  omega

end

/-! ### The nodes inserted -/

/-- One call for each key and value. -/
def inserts (nodes : List (Int32 × Nat)) : List Call :=
  nodes.map fun node => .insert node.1 node.2

/-- The address, the key and the value of the first node with the key: the nodes come from
the addresses from 1 on. -/
def firstNode (nodes : List (Int32 × Nat)) (key : Int32) : Option (Addr × Int32 × Nat) :=
  (nodes.zipIdx 1).findSome? fun node => if node.1.1 = key then some (node.2, node.1) else none

def keys (tree : BinTree Cell) : List Int32 := tree.toList.map Cell.key

def distinctKeys (nodes : List (Int32 × Nat)) : Nat := (nodes.map Prod.fst).dedup.length

section

variable {nodes : List (Int32 × Nat)} {key : Int32} {addr : Addr} {node : Int32 × Nat}
  {record : Addr × Int32 × Nat} {tree : BinTree Cell}

theorem firstNode_snoc : firstNode (nodes ++ [node]) key =
    (firstNode nodes key).or (if node.1 = key then some (nodes.length + 1, node) else none) := by
  unfold firstNode
  rw [List.zipIdx_append, List.findSome?_append, Nat.add_comm]
  congr 1
  simp only [List.zipIdx_singleton, List.findSome?_singleton]

theorem firstNode_eq_none_iff : firstNode nodes key = none ↔ ∀ node ∈ nodes, node.1 ≠ key := by
  induction nodes using List.reverseRecOn with
  | nil => simp [firstNode]
  | append_singleton nodes node inductionHypothesis =>
      rw [firstNode_snoc, Option.or_eq_none_iff, inductionHypothesis]
      simp [or_imp, forall_and]

theorem key_of_firstNode (first : firstNode nodes key = some record) : record.2.1 = key := by
  have ⟨found, _, isFound⟩ := List.exists_of_findSome?_eq_some first
  split at isFound
  · rename_i same
    rw [← Option.some.inj isFound]
    exact same
  · contradiction

/-- The tree holds the first node with each key. -/
def HoldsFirst (tree : BinTree Cell) (nodes : List (Int32 × Nat)) : Prop :=
  ∀ record, record ∈ records tree ↔ firstNode nodes record.2.1 = some record

theorem HoldsFirst.absent_iff (holds : HoldsFirst tree nodes) :
    (∀ cell ∈ tree.toList, cell.key ≠ key) ↔ firstNode nodes key = none := by
  constructor
  · intro absent
    cases first : firstNode nodes key with
    | none => rfl
    | some record =>
        have isKey := key_of_firstNode first
        rw [← isKey] at first
        have ⟨cell, member, isRecord⟩ := List.mem_map.mp ((holds record).mpr first)
        rw [← isRecord] at isKey
        exact absurd isKey (absent cell member)
  · intro isNone cell member same
    have first := (holds cell.record).mp (List.mem_map_of_mem member)
    rw [show cell.record.2.1 = key from same, isNone] at first
    contradiction

/-- A key that is there already changes nothing. -/
theorem HoldsFirst.present (holds : HoldsFirst tree nodes) (isIn : ∃ cell ∈ tree.toList, cell.key = node.1) :
    HoldsFirst tree (nodes ++ [node]) := by
  intro record
  rw [holds record, firstNode_snoc]
  by_cases same : node.1 = record.2.1
  · have ⟨cell, member, isKey⟩ := isIn
    have first := (holds cell.record).mp (List.mem_map_of_mem member)
    rw [show cell.record.2.1 = record.2.1 from isKey.trans same] at first
    rw [first, Option.some_or]
  · rw [if_neg same, Option.or_none]

theorem HoldsFirst.grow {trail : Trail Cell} {grown : BinTree Cell}
    (holds : HoldsFirst (trail.plug .leaf) nodes)
    (absent : ∀ cell ∈ (trail.plug .leaf).toList, cell.key ≠ node.1)
    (isGrown : records grown =
      records (trail.plug (.node .leaf ⟨nodes.length + 1, RED, node.1, node.2⟩ .leaf))) :
    HoldsFirst grown (nodes ++ [node]) := by
  intro record
  have notFirst := holds.absent_iff.mp absent
  have grows : record ∈ records grown ↔
      record ∈ records (trail.plug .leaf) ∨ record = (nodes.length + 1, node) := by
    rw [isGrown]
    unfold records
    rw [Trail.toList_plug, Trail.toList_plug]
    simp only [BinTree.toList, List.nil_append, List.append_nil, List.map_append, List.map_cons,
      List.map_nil, List.mem_append, List.mem_cons, Cell.record]
    tauto
  rw [grows, holds record, firstNode_snoc]
  by_cases same : node.1 = record.2.1
  · rw [← same, notFirst, if_pos rfl, Option.none_or]
    simp [eq_comm]
  · rw [if_neg same, Option.or_none]
    refine or_iff_left fun isNew => same ?_
    rw [isNew]

/-- One node for each key. -/
theorem HoldsFirst.keys_perm (holds : HoldsFirst tree nodes) (ordered : tree.Ordered keyOf) :
    (keys tree).Perm (nodes.map Prod.fst).dedup := by
  have distinct : (keys tree).Nodup := by
    apply List.pairwise_map.mpr
    refine ordered.imp fun less same => ?_
    exact less.ne (congrArg Int32.toInt same)
  rw [List.perm_ext_iff_of_nodup distinct (List.nodup_dedup _)]
  intro key
  rw [List.mem_dedup, ← not_iff_not]
  have notIn : key ∉ keys tree ↔ ∀ cell ∈ tree.toList, cell.key ≠ key := by
    simp [keys, List.mem_map]
  have notInserted : key ∉ nodes.map Prod.fst ↔ ∀ node ∈ nodes, node.1 ≠ key := by
    rw [List.mem_map]
    exact ⟨fun none node member same => none ⟨node, member, same⟩,
      fun all ⟨node, member, same⟩ => all node member same⟩
  rw [notIn, notInserted, holds.absent_iff, firstNode_eq_none_iff]

theorem HoldsFirst.size_eq (holds : HoldsFirst tree nodes) (ordered : tree.Ordered keyOf) :
    tree.size = distinctKeys nodes := by
  have sameLength := (holds.keys_perm ordered).length_eq
  rw [keys, List.length_map, BinTree.length_toList] at sameLength
  exact sameLength

end

/-! ### Searches -/

theorem step_insert_length {T next : Rbtree} {key : Int32} {value : Nat} {shown : List Event}
    (taken : step T (.insert key value) = some (next, shown)) :
    next.heap.length = T.heap.length + 1 := by
  have ensures : Ensures (step T (.insert key value)) fun result =>
      result.1.heap.length = T.heap.length + 1 := by
    unfold step
    refine .bind (rbtreeInsert_keeps _ _) fun next keeps => .of_pure ?_
    rw [keeps.length, Heap.length_alloc]
  exact ensures _ taken

/-- What is there after the insertions. -/
structure Inserted (T : Rbtree) (tree : BinTree Cell) (nodes : List (Int32 × Nat)) : Prop where
  sound : Sound createdNil T tree
  length : T.heap.length = nodes.length + 1
  holds : HoldsFirst tree nodes

theorem Inserted.insert {T : Rbtree} {tree : BinTree Cell} {nodes : List (Int32 × Nat)}
    (inserted : Inserted T tree nodes) (node : Int32 × Nat) :
    ∃ next grown, step T (.insert node.1 node.2) = some (next, [.inserted node.1 node.2]) ∧
      Inserted next grown (nodes ++ [node]) ∧ (grown = tree ∨ ∃ trail, Trail.plug trail .leaf = tree ∧
        grown = settle trail (.node .leaf ⟨nodes.length + 1, RED, node.1, node.2⟩ .leaf)) := by
  obtain ⟨⟨focus, redBlack, two⟩, isLength, holds⟩ := inserted
  have ⟨next, steps, present, absent⟩ :=
    step_insert focus redBlack.ordered redBlack.colored node.1 node.2
  have lengthNext : next.heap.length = (nodes ++ [node]).length + 1 := by
    rw [step_insert_length steps, isLength, List.length_append, List.length_singleton]
  by_cases isIn : ∃ cell ∈ tree.toList, cell.key = node.1
  · exact ⟨next, tree, steps, ⟨⟨present isIn, redBlack, two⟩, lengthNext, holds.present isIn⟩, .inl rfl⟩
  · have isAbsent : ∀ cell ∈ tree.toList, cell.key ≠ node.1 := by
      intro cell member same
      exact isIn ⟨cell, member, same⟩
    have ⟨trail, whole, before, after, focusNext⟩ := absent isAbsent
    rw [isLength] at focusNext
    rw [← whole] at redBlack two holds isAbsent
    have soundNext : Sound createdNil next
        (settle trail (.node .leaf ⟨nodes.length + 1, RED, node.1, node.2⟩ .leaf)) :=
      ⟨focusNext, redBlack_settle redBlack rfl before after,
        twoColored_settle ⟨hue_RED, trivial, trivial⟩ (twoColored_plug.mp two).2⟩
    exact ⟨next, _, steps, ⟨soundNext, lengthNext, holds.grow isAbsent (records_settle _ _)⟩,
      .inr ⟨trail, whole, rfl⟩⟩

/-- `rbtree_insert` may be called with any nodes, and keeps what a new node in the tree keeps. -/
theorem exec_inserts {property : BinTree Cell → Prop} (atStart : property .leaf)
    (grows : ∀ trail addr key value, property (Trail.plug trail .leaf) →
      property (settle trail (.node .leaf ⟨addr, RED, key, value⟩ .leaf)))
    (nodes : List (Int32 × Nat)) :
    ∃ T events tree, machine.Exec (inserts nodes) T events ∧ Inserted T tree nodes ∧ property tree := by
  induction nodes using List.reverseRecOn with
  | nil =>
      refine ⟨rbtreeCreate, [], .leaf, .start, ⟨sound_rbtreeCreate, rfl, ?_⟩, atStart⟩
      intro record
      simp [records, BinTree.toList, firstNode]
  | append_singleton nodes node inductionHypothesis =>
      obtain ⟨T, events, tree, exec, inserted, holds⟩ := inductionHypothesis
      obtain ⟨next, grown, steps, insertedNext, isGrown⟩ := inserted.insert node
      have taken : machine.step T (.insert node.1 node.2) = some (next, [.inserted node.1 node.2]) := steps
      have more := exec.step taken
      have isMore : inserts nodes ++ [.insert node.1 node.2] = inserts (nodes ++ [node]) := by
        rw [inserts, inserts, List.map_append]
        rfl
      rw [isMore] at more
      refine ⟨next, _, grown, more, insertedNext, ?_⟩
      rcases isGrown with same | ⟨trail, whole, isSettled⟩
      · rw [same]
        exact holds
      · rw [isSettled]
        rw [← whole] at holds
        exact grows trail _ _ _ holds

/-- After any insertions `rbtree_find` returns the first node that was inserted with the key,
or a null pointer if there was none. Its loop goes round at most twice the logarithm of the
number of keys times. -/
theorem rbtreeFind_inserts (nodes : List (Int32 × Nat)) (key : Int32) :
    ∃ T events, machine.Exec (inserts nodes) T events ∧
      (match firstNode nodes key with
        | none => rbtreeFind T key = some none
        | some (addr, node) => rbtreeFind T key = some (some addr) ∧ ∃ found,
            T.heap.load addr = some found ∧ found.key = node.1 ∧ found.value = node.2) ∧
      ∃ turns, turns ≤ 2 * Nat.log 2 (distinctKeys nodes + 1) ∧
        ∃ last, loop (fun node => .orFault (findTurn T key node)) (turns + 1) T.root = some last := by
  have ⟨T, events, tree, exec, inserted, _⟩ :=
    @exec_inserts (fun _ => True) trivial (fun _ _ _ _ _ => trivial) nodes
  obtain ⟨sound, _, holds⟩ := inserted
  have ordered := sound.redBlack.ordered
  refine ⟨T, events, exec, ?_, tree.height, ?_, ?_⟩
  · cases first : firstNode nodes key with
    | none => exact rbtreeFind_absent sound.focus ordered (holds.absent_iff.mpr first)
    | some record =>
        have isKey := key_of_firstNode first
        rw [← isKey] at first
        have ⟨cell, member, isRecord⟩ := List.mem_map.mp ((holds record).mpr first)
        have ⟨node, found, isNode⟩ := sound.focus.shape.linked.loaded_cell member
        have finds := rbtreeFind_present sound.focus ordered member
        rw [← isRecord] at isKey ⊢
        rw [show cell.key = key from isKey] at finds
        exact ⟨finds, node, found, isNode⟩
  · rw [← holds.size_eq ordered]
    exact sound.height_le
  · have isRoot : T.root = some (top createdNil tree) := sound.focus.root
    have real : ∀ cell ∈ tree.toList, cell.addr ≠ createdNil.addr :=
      fun cell member => sound.focus.shape.apart.real cell (List.mem_append_left _ member)
    rw [isRoot]
    exact ⟨_, findLoop_eq sound.focus.isNil key _ sound.focus.shape.linked real (Nat.lt_succ_self _) []⟩

end SimpleBasicComponents.RbTree
