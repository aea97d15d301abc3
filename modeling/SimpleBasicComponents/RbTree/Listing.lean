import SimpleBasicComponents.RbTree.Height

/-!
The listing of a tree.

Owns: `rbtree_print` as the source computes it, what every run leaves whether or not
its deletions keep the other nodes, and the theorem that the listing and the search
agree on what is in the tree.
-/

namespace SimpleBasicComponents.RbTree

open SimpleBasicComponents.Semantics

/-! ### `rbtree_print` -/

/-- `printf(" %d ,", node->key)`. -/
def keyText (key : Int32) : String := " " ++ toString key.toInt ++ " ,"

/-- The texts printed, in their order. There is no result if the calls nest deeper than
`depth`, or follow a pointer to no node. -/
def rbtreePrint (T : Rbtree) : Nat → Ptr → Option (List String)
  | 0, _ => none
  | depth + 1, node =>
      if node = none then some []
      else if node = T.nil then some []
      else do
        let here ← T.load node
        let left ← rbtreePrint T depth here.left
        let right ← rbtreePrint T depth here.right
        return left ++ keyText here.key :: right

section

variable {nil : Ground} {parent : Addr} {tree : BinTree Cell} {T : Rbtree}

/-- The calls nest once more than the tree is high. -/
theorem rbtreePrint_eq (isNil : T.nil = some nil.addr) (linked : Rep T.heap.load nil parent tree)
    (real : ∀ cell ∈ tree.toList, cell.addr ≠ nil.addr) (depth : Nat) :
    rbtreePrint T depth (some (top nil tree)) =
      if tree.height < depth then some ((keys tree).map keyText) else none := by
  induction tree generalizing parent depth with
  | leaf =>
      cases depth with
      | zero => rfl
      | succ depth =>
          have fits : (.leaf : BinTree Cell).height < depth + 1 := Nat.succ_pos depth
          rw [if_pos fits, rbtreePrint, if_neg (by simp)]
          exact if_pos isNil.symm
  | node left cell right left_ih right_ih =>
      cases depth with
      | zero => rfl
      | succ depth =>
          have loads : T.load (some cell.addr) = some _ := linked.1
          have notNil : some cell.addr ≠ T.nil := by
            rw [isNil]
            exact fun same => real cell (by simp [BinTree.toList]) (Option.some.inj same)
          have isLeft := left_ih linked.2.1
            (fun other member => real other (by simp [BinTree.toList, member])) depth
          have isRight := right_ih linked.2.2
            (fun other member => real other (by simp [BinTree.toList, member])) depth
          show rbtreePrint T (depth + 1) (some cell.addr) = _
          rw [rbtreePrint, if_neg (by simp), if_neg notNil, loads]
          simp only [Cell.node, Option.bind_eq_bind, Option.bind_some, isLeft, isRight]
          by_cases fits : (BinTree.node left cell right).height < depth + 1
          · rw [BinTree.height] at fits
            rw [if_pos (by omega), if_pos (by omega), if_pos (by rw [BinTree.height]; omega)]
            simp [keys, BinTree.toList]
          · rw [if_neg fits]
            rw [BinTree.height] at fits
            by_cases fitsLeft : left.height < depth
            · rw [if_pos fitsLeft, if_neg (by omega)]
              rfl
            · rw [if_neg fitsLeft]
              rfl

/-! ### What every run leaves -/

/-- The tree is linked, and its keys are in order. -/
structure Searchable (T : Rbtree) (tree : BinTree Cell) : Prop where
  focus : Focus T createdNil [] tree
  search : SearchTree tree

theorem Searchable.insert {next : Rbtree} {shown : List Event} {key : Int32} {value : Nat}
    (searchable : Searchable T tree) (taken : step T (.insert key value) = some (next, shown)) :
    ∃ grown, Searchable next grown := by
  have ⟨focus, ordered, colored⟩ := searchable
  have ⟨other, steps, present, absent⟩ := step_insert focus ordered colored key value
  rw [taken] at steps
  obtain ⟨rfl, -⟩ := Prod.mk.inj (Option.some.inj steps)
  by_cases isIn : ∃ cell ∈ tree.toList, cell.key = key
  · exact ⟨tree, present isIn, ordered, colored⟩
  · have ⟨trail, whole, before, after, focusNext⟩ :=
      absent fun cell member same => isIn ⟨cell, member, same⟩
    rw [← whole] at ordered colored
    exact ⟨_, focusNext, ordered_settle ordered before after, colored_settle_single colored rfl⟩

/-- Also where the other nodes are lost the keys that remain are in order. -/
theorem Searchable.delete {next : Rbtree} {shown : List Event} {key : Int32}
    (searchable : Searchable T tree) (taken : step T (.delete key) = some (next, shown)) :
    ∃ rest, Searchable next rest := by
  have focus := searchable.focus
  obtain ⟨ordered, colored⟩ := searchable.search
  by_cases isIn : ∃ cell ∈ tree.toList, cell.key = key
  · obtain ⟨left, cell, right, trail, isSpot⟩ := spot_isNode ordered isIn
    obtain ⟨few, alike⟩ := spot_alike isSpot
    have deletes := rbtreeDelete_spec focus colored isSpot fun _ => createdNil_null
    cases isRemoved : remove (.node left cell right) trail with
    | none =>
        rw [isRemoved] at deletes
        have faults : rbtreeDelete T key = none := deletes
        simp only [step, faults, Option.bind_eq_bind, Option.bind_none] at taken
        cases taken
    | some after =>
        rw [isRemoved] at deletes
        obtain ⟨other, deleted, focusNext, _⟩ := deletes
        simp only [step, deleted, Option.bind_eq_bind, Option.bind_some] at taken
        obtain ⟨rfl, -⟩ := Prod.mk.inj (Option.some.inj taken)
        have aboveColored := alike.colored colored
        exact ⟨after, focusNext, ordered_remove ordered isSpot aboveColored isRemoved,
          colored_remove aboveColored few isRemoved⟩
  · have deleted := rbtreeDelete_absent focus ordered fun cell member same => isIn ⟨cell, member, same⟩
    simp only [step, deleted, Option.bind_eq_bind, Option.bind_some] at taken
    obtain ⟨rfl, -⟩ := Prod.mk.inj (Option.some.inj taken)
    exact ⟨tree, searchable⟩

theorem exec_searchable {calls : List Call} {events : List Event} (exec : machine.Exec calls T events) :
    ∃ tree, Searchable T tree := by
  induction exec with
  | start => exact ⟨.leaf, focus_rbtreeCreate, List.Pairwise.nil, id, trivial⟩
  | step ran taken inductionHypothesis =>
      rename_i before state next seen shown call
      have ⟨tree, searchable⟩ := inductionHypothesis
      cases call with
      | insert key value => exact searchable.insert taken
      | delete key => exact searchable.delete taken

theorem keys_sorted (ordered : tree.Ordered keyOf) : (keys tree).Pairwise (· < ·) := by
  rw [keys, List.pairwise_map]
  exact ordered.imp fun less => Int32.lt_iff_toInt_lt.mpr less

theorem Searchable.mem_keys_iff (searchable : Searchable T tree) (key : Int32) :
    key ∈ keys tree ↔ ∃ addr, rbtreeFind T key = some (some addr) := by
  have ⟨focus, ordered, _⟩ := searchable
  constructor
  · intro member
    have ⟨cell, inTree, same⟩ := List.mem_map.mp member
    rw [← same]
    exact ⟨cell.addr, rbtreeFind_present focus ordered inTree⟩
  · intro found
    have ⟨addr, finds⟩ := found
    by_contra notIn
    have nothing := rbtreeFind_absent focus ordered fun cell inTree same =>
      notIn (List.mem_map.mpr ⟨cell, inTree, same⟩)
    rw [nothing] at finds
    cases finds

/-- After any run `rbtree_print` writes the keys that `rbtree_find` finds, each once and
in increasing order, in calls nested once deeper than the tree is high; after one whose
deletions keep the other nodes, these are the keys stored. -/
theorem exec_lists {calls : List Call} {events : List Event} (exec : machine.Exec calls T events) :
    ∃ listed : List Int32, listed.Pairwise (· < ·) ∧
      (∀ key, key ∈ listed ↔ ∃ addr, rbtreeFind T key = some (some addr)) ∧
      (∀ depth, rbtreePrint T depth T.root =
        if T.tree.height < depth then some (listed.map keyText) else none) ∧
      (machine.Guarded KeepsRest calls → ∀ key, key ∈ listed ↔ (contentOf events key).isSome) := by
  have ⟨tree, searchable⟩ := exec_searchable exec
  have ⟨focus, ordered, _⟩ := searchable
  refine ⟨keys tree, keys_sorted ordered, searchable.mem_keys_iff, ?_, ?_⟩
  · intro depth
    have isRoot : T.root = some (top createdNil tree) := focus.root
    rw [focus.tree_eq, isRoot]
    exact rbtreePrint_eq focus.isNil focus.shape.linked
      (fun cell member => focus.shape.apart.real cell (List.mem_append_left _ member)) depth
  · intro keeps key
    have refines := ((completes_refinesMap_iff calls).mpr keeps).2.last exec
    have finds := refines.finds key
    rw [searchable.mem_keys_iff key]
    cases isContent : contentOf events key with
    | none =>
        rw [isContent] at finds
        simp [show rbtreeFind T key = some none from finds]
    | some value =>
        rw [isContent] at finds
        have ⟨addr, node, found, _⟩ := finds
        simp [found]

end

/-- Three keys, of which the middle one is in the tree no more. -/
theorem twoKeys_lists : ∃ T events,
    machine.Exec [.insert 2 20, .insert (-1) 10, .insert 3 30, .delete 2] T events ∧
      ∃ listed : List Int32, listed.Pairwise (· < ·) ∧
        (∀ key, key ∈ listed ↔ ∃ addr, rbtreeFind T key = some (some addr)) ∧
        (∀ depth, rbtreePrint T depth T.root =
          if T.tree.height < depth then some (listed.map keyText) else none) ∧
        (machine.Guarded KeepsRest [.insert 2 20, .insert (-1) 10, .insert 3 30, .delete 2] →
          ∀ key, key ∈ listed ↔ (contentOf events key).isSome) :=
  have exec := machine.exec_of_isSome [.insert 2 20, .insert (-1) 10, .insert 3 30, .delete 2] (by decide +kernel)
  ⟨_, _, exec, exec_lists exec⟩

end SimpleBasicComponents.RbTree
