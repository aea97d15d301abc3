import SimpleBasicComponents.RbTree.Insertion
import SimpleBasicComponents.RbTree.Removal
import SimpleBasicComponents.Semantics.History

/-!
The red-black tree as a finite map.

Owns: the map that the calls of a run should leave, what a state shows of it, the
invariant of the states that refine it, and the theorem that a run refines the
map exactly when every deletion keeps the other nodes.
-/

namespace SimpleBasicComponents.RbTree

open SimpleBasicComponents.Semantics

/-! ### The map -/

abbrev Content := Int32 → Option Nat

def Content.after (content : Content) : Event → Content
  | .inserted key value =>
      if (content key).isNone then Function.update content key (some value) else content
  | .deleted key _ => Function.update content key none

/-- What the calls so far have stored. -/
def contentOf (events : List Event) : Content := events.foldl Content.after fun _ => none

/-- A deletion says whether the key was there. -/
def AnswersPresence (earlier : List Event) : Event → Prop
  | .inserted _ _ => True
  | .deleted key result => result = if (contentOf earlier key).isSome then 0 else -1

/-- `rbtree_find` returns a node with the key and the value, or a null pointer. -/
def Finds (T : Rbtree) (content : Content) : Prop :=
  ∀ key, match content key with
    | some value => ∃ addr node, rbtreeFind T key = some (some addr) ∧ T.heap.load addr = some node ∧
        node.key = key ∧ node.value = value
    | none => rbtreeFind T key = some none

structure RefinesMap (T : Rbtree) (events : List Event) : Prop where
  finds : Finds T (contentOf events)
  answers : Historically AnswersPresence events

/-- A deletion in this state keeps the other nodes. -/
def KeepsRest (T : Rbtree) : Call → Prop
  | .insert _ _ => True
  | .delete key => keepsRest (spot T.tree key).1 (spot T.tree key).2 = true

instance (T : Rbtree) (call : Call) : Decidable (KeepsRest T call) := by
  cases call <;> unfold KeepsRest <;> infer_instance

theorem contentOf_snoc (events : List Event) (event : Event) :
    contentOf (events ++ [event]) = (contentOf events).after event := by
  unfold contentOf
  rw [List.foldl_append]
  rfl

/-! ### Trees that hold the map -/

/-- The keys are in order and the colour rule holds. -/
structure SearchTree (tree : BinTree Cell) : Prop where
  ordered : tree.Ordered keyOf
  colored : Colored tree

/-- The entries of the tree are those of the map. -/
def Stores (tree : BinTree Cell) (content : Content) : Prop :=
  ∀ key value, content key = some value ↔ (key, value) ∈ entries tree

section

variable {nil : Ground} {T : Rbtree} {tree : BinTree Cell} {content : Content} {key : Int32}

/-- Where a key stands, it does not stand again. -/
theorem remaining_ne {value : Nat} {smaller greater : List (Int32 × Nat)}
    (ordered : tree.Ordered keyOf) (isTree : entries tree = smaller ++ (key, value) :: greater) :
    ∀ entry ∈ smaller ++ greater, entry.1 ≠ key := by
  rw [ordered_iff_entries, isTree, List.pairwise_append, List.pairwise_cons] at ordered
  obtain ⟨-, ⟨below, -⟩, above⟩ := ordered
  intro entry member same
  rcases List.mem_append.mp member with isSmaller | isGreater
  · have less := above entry isSmaller (key, value) List.mem_cons_self
    rw [same] at less
    exact lt_irrefl _ less
  · have less := below entry isGreater
    rw [same] at less
    exact lt_irrefl _ less

theorem Stores.absent_iff (stores : Stores tree content) :
    content key = none ↔ ∀ cell ∈ tree.toList, cell.key ≠ key := by
  constructor
  · intro isNone cell member same
    have entry : (cell.key, cell.value) ∈ entries tree := List.mem_map_of_mem member
    rw [same] at entry
    have isSome := (stores key cell.value).mpr entry
    rw [isNone] at isSome
    contradiction
  · intro absent
    cases isContent : content key with
    | none => rfl
    | some value =>
        have ⟨cell, member, isEntry⟩ := List.mem_map.mp ((stores key value).mp isContent)
        exact absurd (congrArg Prod.fst isEntry) (absent cell member)

theorem finds_of_stores (focus : Focus T nil [] tree) (ordered : tree.Ordered keyOf)
    (stores : Stores tree content) : Finds T content := by
  intro key
  cases isContent : content key with
  | none => exact rbtreeFind_absent focus ordered (stores.absent_iff.mp isContent)
  | some value =>
      have ⟨cell, member, isEntry⟩ := List.mem_map.mp ((stores key value).mp isContent)
      obtain ⟨rfl, rfl⟩ := Prod.mk.inj isEntry
      have ⟨node, found, isNode⟩ := focus.shape.linked.loaded_cell member
      exact ⟨cell.addr, node, rbtreeFind_present focus ordered member, found, isNode⟩

/-- A new entry between the smaller and the greater ones. -/
theorem Stores.insert {grown : BinTree Cell} {value : Nat} {smaller greater : List (Int32 × Nat)}
    (stores : Stores tree content) (isTree : entries tree = smaller ++ greater)
    (isGrown : entries grown = smaller ++ (key, value) :: greater) (absent : content key = none) :
    Stores grown (Function.update content key (some value)) := by
  intro other stored
  rw [isGrown]
  by_cases same : other = key
  · rw [same, Function.update_self]
    constructor
    · intro isValue
      obtain rfl := Option.some.inj isValue
      simp
    · intro member
      by_contra different
      have inTree : (key, stored) ∈ entries tree := by
        rw [isTree]
        rcases List.mem_append.mp member with isSmaller | rest
        · exact List.mem_append_left _ isSmaller
        · rcases List.mem_cons.mp rest with isNew | isGreater
          · exact absurd (congrArg some (Prod.mk.inj isNew).2.symm) different
          · exact List.mem_append_right _ isGreater
      have isSome := (stores key stored).mpr inTree
      rw [absent] at isSome
      contradiction
  · rw [Function.update_of_ne same, stores other stored, isTree]
    have notNew : (other, stored) ≠ (key, value) := fun isNew => same (Prod.mk.inj isNew).1
    simp [notNew]

/-- The entry with the key is taken out. -/
theorem Stores.delete {left : BinTree Cell} {value : Nat} {smaller greater : List (Int32 × Nat)}
    (stores : Stores tree content) (ordered : tree.Ordered keyOf)
    (isTree : entries tree = smaller ++ (key, value) :: greater)
    (isLeft : entries left = smaller ++ greater) :
    Stores left (Function.update content key none) := by
  have others := remaining_ne ordered isTree
  intro other stored
  rw [isLeft]
  by_cases same : other = key
  · rw [same, Function.update_self]
    refine iff_of_false (by simp) ?_
    intro member
    exact others _ member rfl
  · rw [Function.update_of_ne same, stores other stored, isTree]
    have notGone : (other, stored) ≠ (key, value) := fun isGone => same (Prod.mk.inj isGone).1
    simp [notGone]

/-! ### Calls -/

variable {events : List Event}

/-- The states that refine the map. -/
structure Linked (nil : Ground) (T : Rbtree) (tree : BinTree Cell) (content : Content) : Prop where
  null : nil.Null
  focus : Focus T nil [] tree
  search : SearchTree tree
  stores : Stores tree content

theorem Linked.finds (linked : Linked nil T tree content) : Finds T content :=
  finds_of_stores linked.focus linked.search.ordered linked.stores

theorem Linked.insert (linked : Linked nil T tree content) (key : Int32) (value : Nat) :
    ∃ next grown, step T (.insert key value) = some (next, [.inserted key value]) ∧
      Linked nil next grown (content.after (.inserted key value)) := by
  obtain ⟨null, focus, ⟨ordered, colored⟩, stores⟩ := linked
  have ⟨next, steps, present, absent⟩ := step_insert focus ordered colored key value
  cases isContent : content key with
  | some stored =>
      have isIn : ∃ cell ∈ tree.toList, cell.key = key := by
        by_contra nowhere
        have isNone := stores.absent_iff.mpr fun cell member same => nowhere ⟨cell, member, same⟩
        rw [isContent] at isNone
        contradiction
      have same : content.after (.inserted key value) = content := by
        simp [Content.after, isContent]
      rw [same]
      exact ⟨next, tree, steps, null, present isIn, ⟨ordered, colored⟩, stores⟩
  | none =>
      have ⟨trail, whole, before, after, focusNext⟩ := absent (stores.absent_iff.mp isContent)
      have grows : content.after (.inserted key value) = Function.update content key (some value) := by
        simp [Content.after, isContent]
      rw [grows]
      rw [← whole] at ordered colored
      refine ⟨next, _, steps, null, focusNext, ⟨ordered_settle ordered before after,
        colored_settle_single colored rfl⟩, ?_⟩
      apply @Stores.insert tree content key _ value (trail.before.map Cell.entry)
        (trail.after.map Cell.entry) stores _ _ isContent
      · rw [← whole, entries_plug]
        simp [entries, BinTree.toList]
      · rw [entries_of_records (records_settle _ _), entries_plug]
        simp [entries, BinTree.toList, Cell.entry]

theorem Linked.delete_absent (linked : Linked nil T tree content) (isContent : content key = none) :
    step T (.delete key) = some (T, [.deleted key (-1)]) ∧
      Linked nil T tree (content.after (.deleted key (-1))) := by
  obtain ⟨null, focus, search, stores⟩ := linked
  have stays := rbtreeDelete_absent focus search.ordered (stores.absent_iff.mp isContent)
  refine ⟨?_, null, focus, search, ?_⟩
  · simp only [step, stays, Option.bind_eq_bind, Option.bind_some]
    rfl
  · have same : content.after (.deleted key (-1)) = content := by
      rw [Content.after, ← isContent, Function.update_eq_self]
    rw [same]
    exact stores

theorem Linked.spot_of_present (linked : Linked nil T tree content) {value : Nat}
    (isContent : content key = some value) :
    ∃ left cell right trail, spot tree key = (.node left cell right, trail) := by
  apply spot_isNode linked.search.ordered
  have ⟨cell, member, isEntry⟩ := List.mem_map.mp ((linked.stores key value).mp isContent)
  exact ⟨cell, member, congrArg Prod.fst isEntry⟩

theorem Linked.delete_present (linked : Linked nil T tree content) {value : Nat}
    (isContent : content key = some value) (keeps : KeepsRest T (.delete key)) :
    ∃ next rest, step T (.delete key) = some (next, [.deleted key 0]) ∧
      Linked nil next rest (content.after (.deleted key 0)) := by
  have ⟨left, cell, right, trail, isSpot⟩ := linked.spot_of_present isContent
  obtain ⟨null, focus, ⟨ordered, colored⟩, stores⟩ := linked
  have keepsHere : keepsRest (.node left cell right) trail = true := by
    rw [KeepsRest, focus.tree_eq, isSpot] at keeps
    exact keeps
  have ⟨few, alike⟩ := spot_alike isSpot
  have ⟨after, removes, isColored, sameRecords⟩ :=
    remove_of_keepsRest (alike.colored colored) few keepsHere
  have ⟨smaller, found, greater, isTree, isLeft⟩ := spot_entries isSpot
  rw [← entries_of_records sameRecords] at isLeft
  have deletes := rbtreeDelete_spec focus colored isSpot fun _ => null
  rw [removes] at deletes
  have ⟨next, deleted, focusNext, _⟩ := deletes
  refine ⟨next, after, ?_, null, focusNext, ⟨?_, isColored⟩, stores.delete ordered isTree isLeft⟩
  · simp only [step, deleted, Option.bind_eq_bind, Option.bind_some]
    rfl
  · rw [ordered_iff_entries, isTree] at ordered
    rw [ordered_iff_entries, isLeft]
    exact ordered.sublist (List.Sublist.append_left (List.sublist_cons_self _ _) smaller)

/-- Where the other nodes are not kept, a key is lost or the call faults. -/
theorem Linked.delete_loses (linked : Linked nil T tree content) (loses : ¬ KeepsRest T (.delete key)) :
    ∀ next shown, step T (.delete key) = some (next, shown) →
      ¬ Finds next (content.after (.deleted key 0)) := by
  obtain ⟨null, focus, ⟨ordered, colored⟩, stores⟩ := linked
  have notKept : ¬ keepsRest (spot tree key).1 (spot tree key).2 = true := by
    rw [KeepsRest, focus.tree_eq] at loses
    exact loses
  cases isSpot : spot tree key with
  | mk place trail =>
      rw [isSpot, Bool.not_eq_true] at notKept
      cases place with
      | leaf => contradiction
      | node left cell right =>
          obtain ⟨below, outcome⟩ := remove_of_not_keepsRest notKept
          obtain ⟨smaller, found, greater, isTree, isLeft⟩ := spot_entries isSpot
          have deletes := rbtreeDelete_spec focus colored isSpot fun _ => null
          intro next shown taken finds
          rcases outcome with isLost | faults
          · rw [isLost] at deletes
            obtain ⟨lost, deleted, focusLost, _⟩ := deletes
            simp only [step, deleted, Option.bind_eq_bind, Option.bind_some] at taken
            obtain ⟨rfl, rfl⟩ := Prod.mk.inj (Option.some.inj taken)
            -- the parent of the unlinked node is still in the map
            obtain ⟨other, value, remains⟩ : ∃ other value, (other, value) ∈ smaller ++ greater := by
              cases trail with
              | nil => exact absurd rfl below
              | cons frame rest =>
                  refine ⟨frame.item.key, frame.item.value, ?_⟩
                  rw [← isLeft]
                  have isIn := (Trail.toList_plug_perm (frame :: rest) (promoted left right)).mem_iff.mpr
                    (show frame.item ∈ _ from List.mem_append_right _ List.mem_cons_self)
                  exact List.mem_map_of_mem isIn
            have differ := remaining_ne ordered isTree _ remains
            have isStored : content other = some value := by
              rw [stores other value, isTree]
              rcases List.mem_append.mp remains with isSmaller | isGreater
              · exact List.mem_append_left _ isSmaller
              · exact List.mem_append_right _ (List.mem_cons_of_mem _ isGreater)
            have found := finds other
            rw [Content.after, Function.update_of_ne differ, isStored] at found
            obtain ⟨addr, node, finds, _⟩ := found
            have nothing := @rbtreeFind_absent nil .leaf lost other focusLost List.Pairwise.nil
              (by simp [BinTree.toList])
            rw [nothing] at finds
            cases finds
          · rw [faults] at deletes
            have isNone : rbtreeDelete T key = none := deletes
            simp only [step, isNone, Option.bind_eq_bind, Option.bind_none] at taken
            cases taken

theorem Linked.keepsRest_of_absent (linked : Linked nil T tree content) (isContent : content key = none) :
    KeepsRest T (.delete key) := by
  rw [KeepsRest, linked.focus.tree_eq, spot]
  cases isZoom : tree.zoom keyOf key.toInt [] with
  | mk place outer =>
      have absent := linked.stores.absent_iff.mp isContent
      have isLeaf : place = .leaf := (zoom_leaf_iff linked.search.ordered isZoom).mpr absent
      rw [isLeaf]
      rfl

/-- A call that keeps the other nodes leaves what it should, and answers right. -/
theorem Linked.step (linked : Linked nil T tree (contentOf events))
    (answers : Historically AnswersPresence events) {call : Call} (keeps : KeepsRest T call) :
    ∃ next event rest, RbTree.step T call = some (next, [event]) ∧
      Linked nil next rest (contentOf (events ++ [event])) ∧
      Historically AnswersPresence (events ++ [event]) := by
  simp only [contentOf_snoc, historically_snoc_iff]
  cases call with
  | insert key value =>
      have ⟨next, grown, steps, linkedNext⟩ := linked.insert key value
      exact ⟨next, _, grown, steps, linkedNext, answers, trivial⟩
  | delete key =>
      cases isContent : contentOf events key with
      | none =>
          have ⟨steps, linkedNext⟩ := linked.delete_absent isContent
          refine ⟨T, _, tree, steps, linkedNext, answers, ?_⟩
          simp [AnswersPresence, isContent]
      | some value =>
          have ⟨next, rest, steps, linkedNext⟩ := linked.delete_present isContent keeps
          refine ⟨next, _, rest, steps, linkedNext, answers, ?_⟩
          simp [AnswersPresence, isContent]

end

/-! ### Runs -/

/-- As `rbtree_create` makes it. -/
def createdNil : Ground := ⟨0, ⟨BLACK, none, none, some 0, 0, 0⟩, rfl⟩

theorem createdNil_null : createdNil.Null := by
  intro side
  cases side <;> rfl

theorem focus_rbtreeCreate : Focus rbtreeCreate createdNil [] .leaf :=
  ⟨rfl, rfl, rfl, trivial, trivial, ⟨by simp [BinTree.toList, Trail.items], List.Pairwise.nil⟩⟩

theorem linked_rbtreeCreate : Linked createdNil rbtreeCreate .leaf (contentOf []) where
  null := createdNil_null
  focus := focus_rbtreeCreate
  search := ⟨List.Pairwise.nil, id, trivial⟩
  stores key value := by simp [contentOf, entries, BinTree.toList]

/-- A run refines the map exactly when each of its deletions keeps the other nodes. -/
theorem completes_refinesMap_iff (calls : List Call) :
    machine.Completes RefinesMap calls ↔ machine.Guarded KeepsRest calls := by
  apply @Machine.completes_iff_guarded _ _ _ machine
    fun T events => ∃ tree, Linked createdNil T tree (contentOf events)
  · exact ⟨⟨.leaf, linked_rbtreeCreate⟩, linked_rbtreeCreate.finds, historically_nil⟩
  · intro T seen call isLinked refines
    obtain ⟨tree, linked⟩ := isLinked
    constructor
    · intro completes
      obtain ⟨next, shown, taken, refinesNext⟩ := completes
      by_contra loses
      cases call with
      | insert key value => exact loses trivial
      | delete key =>
          cases isContent : contentOf seen key with
          | none => exact loses (linked.keepsRest_of_absent isContent)
          | some value =>
              obtain ⟨result, isShown⟩ : ∃ result, shown = [.deleted key result] := by
                simp only [machine, step] at taken
                cases deleted : rbtreeDelete T key with
                | none =>
                    rw [deleted] at taken
                    cases taken
                | some outcome =>
                    rw [deleted] at taken
                    obtain ⟨-, rfl⟩ := Prod.mk.inj (Option.some.inj taken)
                    exact ⟨outcome.2, rfl⟩
              have finds := refinesNext.finds
              rw [isShown, contentOf_snoc] at finds
              exact linked.delete_loses loses next shown taken finds
    · intro keeps
      obtain ⟨next, event, rest, taken, linkedNext, answers⟩ := linked.step refines.answers keeps
      exact ⟨next, [event], taken, linkedNext.finds, answers⟩
  · intro T seen call next shown isLinked refines keeps taken
    obtain ⟨tree, linked⟩ := isLinked
    obtain ⟨other, event, rest, takenAgain, linkedNext, _⟩ := linked.step refines.answers keeps
    obtain ⟨rfl, rfl⟩ := Prod.mk.inj (Option.some.inj (taken.symm.trans takenAgain))
    exact ⟨rest, linkedNext⟩

/-- Three black nodes are left, of which 1 goes; the fix-up climbs to the root. -/
def fourKeys : List Call :=
  [.insert 1 10, .insert 2 20, .insert 3 30, .insert 4 40, .delete 4, .delete 1]

/-- The keys 2 and 3 are lost with the root. -/
theorem fourKeys_not_refinesMap : ¬ machine.Completes RefinesMap fourKeys := by
  intro completes
  have exec := machine.exec_of_isSome fourKeys (by decide +kernel)
  have refines := completes.2 _ _ _ List.prefix_rfl exec
  have found := refines.finds 2
  have isContent : contentOf ((machine.run fourKeys).get (by decide +kernel)).2 2 = some 20 := by
    decide +kernel
  have nothing : rbtreeFind ((machine.run fourKeys).get (by decide +kernel)).1 2 = some none := by
    decide +kernel
  rw [isContent] at found
  have ⟨addr, node, finds, _⟩ := found
  rw [nothing] at finds
  cases finds

end SimpleBasicComponents.RbTree
