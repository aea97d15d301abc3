import SimpleBasicComponents.RbTree.Height

/-!
The release of a tree.

Owns: what `rbtree_free` should do (one successful deletion for each key, every
node freed), and the theorem that after any insertions it does so exactly if there
are at most three keys: up to there every deletion keeps the other nodes, and from
four on two black nodes stand on every trail, which deletions keep until one loses
the tree.
-/

namespace SimpleBasicComponents.RbTree

open SimpleBasicComponents.Semantics

/-- The calls of `rbtree_delete` that `rbtree_free` makes, with what they return. -/
def freeCalls : Nat → Rbtree → List (Int32 × Int)
  | 0, _ => []
  | fuel + 1, T =>
      if rbtreeIsEmpty T then []
      else
        match T.load T.root with
        | none => []
        | some root =>
            match rbtreeDelete T root.key with
            | none => []
            | some (next, result) => (root.key, result) :: freeCalls fuel next

/-- The release ends, deletes each of the keys once and with success, and frees every node. -/
def FreesAll (T : Rbtree) (nodes : List (Int32 × Nat)) : Prop :=
  ∃ last, rbtreeFree T = some last ∧
    (freeCalls T.turns T).Perm ((nodes.map Prod.fst).dedup.map fun key => (key, 0)) ∧
    ∀ key addr node, firstNode nodes key = some (addr, node) → last.heap.load addr = none

/-- A red node without children, or none. -/
def Single : BinTree Cell → Prop
  | .leaf => True
  | .node left cell right => left = .leaf ∧ cell.color = RED ∧ right = .leaf

/-- A black node with red children at most, or none. -/
def Short : BinTree Cell → Prop
  | .leaf => True
  | .node left cell right => Single left ∧ cell.color = BLACK ∧ Single right

/-- On every trail to a leaf there is a black node. -/
def Shaded : BinTree Cell → Prop
  | .leaf => False
  | .node left cell right => cell.color = BLACK ∨ Shaded left ∧ Shaded right

/-- On every trail to a leaf there is a black node below the root. -/
def Deep : BinTree Cell → Prop
  | .leaf => False
  | .node left _ right => Shaded left ∧ Shaded right

/-- With a subtree at the end of the trail that is shaded, or is not, the tree is deep. -/
def DeepTrail : Trail Cell → Prop → Prop
  | [], _ => False
  | [frame], shaded => shaded ∧ Shaded frame.sibling
  | frame :: above :: rest, shaded =>
      DeepTrail (above :: rest) (frame.item.color = BLACK ∨ shaded ∧ Shaded frame.sibling)

section

variable {tree left right near far : BinTree Cell} {cell : Cell} {frame above : Frame Cell} {side : Side}
  {trail rest : Trail Cell} {covered : Prop} {height : Nat}

/-! ### Two black nodes on every trail -/

theorem shaded_join : Shaded (.join side near cell far) ↔
    cell.color = BLACK ∨ Shaded near ∧ Shaded far := by
  cases side with
  | left => exact Iff.rfl
  | right =>
      show _ ∨ _ ∧ _ ↔ _
      rw [and_comm (a := Shaded far)]

theorem DeepTrail.mono {more : Prop} (deep : DeepTrail trail covered) (implies : covered → more) :
    DeepTrail trail more := by
  induction trail generalizing covered more with
  | nil => exact deep
  | cons frame rest inductionHypothesis =>
      cases rest with
      | nil => exact ⟨implies deep.1, deep.2⟩
      | cons above rest =>
          exact inductionHypothesis deep (Or.imp_right (And.imp_left implies))

theorem deep_plug (below : trail ≠ []) : Deep (trail.plug tree) ↔ DeepTrail trail (Shaded tree) := by
  induction trail generalizing tree with
  | nil => exact absurd rfl below
  | cons frame rest inductionHypothesis =>
      cases rest with
      | nil =>
          obtain ⟨side, item, sibling⟩ := frame
          cases side with
          | left => exact Iff.rfl
          | right => exact and_comm
      | cons above rest =>
          rw [Trail.plug_cons, inductionHypothesis (by simp), Frame.fill, shaded_join]
          exact Iff.rfl

/-- A black frame shades what is below it. -/
theorem deepTrail_cons (isBlack : frame.item.color = BLACK) (below : rest ≠ []) :
    DeepTrail (frame :: rest) covered ↔ DeepTrail rest True := by
  cases rest with
  | nil => exact absurd rfl below
  | cons above rest =>
      show DeepTrail (above :: rest) _ ↔ _
      exact ⟨fun deep => deep.mono fun _ => trivial, fun deep => deep.mono fun _ => .inl isBlack⟩

theorem shaded_paint (isNode : tree ≠ .leaf) : Shaded (paint BLACK tree) := by
  cases tree with
  | leaf => exact absurd rfl isNode
  | node left cell right => exact .inl rfl

theorem shaded_childOf (shaded : Shaded tree) (red : isRed tree) (side : Side) :
    Shaded (childOf side tree) := by
  cases tree with
  | leaf => exact red.elim
  | node left cell right =>
      have isRed : cell.color = RED := red
      have notBlack : cell.color ≠ BLACK := by
        rw [isRed]
        decide
      have ⟨isLeft, isRight⟩ := shaded.resolve_left notBlack
      cases side with
      | left => exact isLeft
      | right => exact isRight

/-- A frame in place of another one, with a black node on every trail of its sibling. -/
theorem DeepTrail.replace (deep : DeepTrail (frame :: rest) covered) (isShaded : Shaded above.sibling) :
    DeepTrail (above :: rest) True := by
  cases rest with
  | nil => exact ⟨trivial, isShaded⟩
  | cons next rest =>
      have deeper : DeepTrail (next :: rest) _ := deep
      exact deeper.mono fun _ => .inr ⟨trivial, isShaded⟩

private theorem deepTrail_ended (two : TwoColored frame.sibling) (notRed : ¬ isRed frame.sibling)
    (hue : Hue frame.item.color) (ruled : Ruled (frame :: rest) False) (ends : endsAt frame = true)
    (deep : DeepTrail (frame :: rest) True) : DeepTrail (ended frame rest) False := by
  obtain ⟨side, parent, sibling⟩ := frame
  cases sibling with
  | leaf => contradiction
  | node left brother right =>
      have isBlack : brother.color = BLACK := two.1.black_of_not_red notRed
      unfold ended
      simp only
      cases isFar : childOf side.other (.node left brother right) with
      | node one cell two =>
          have painted : Shaded (paint BLACK (.node one cell two)) := shaded_paint (by simp)
          rw [deepTrail_cons isBlack (by simp)]
          exact deep.replace painted
      | leaf =>
          cases isNear : childOf side (.node left brother right) with
          | node one nephew two =>
              rw [deepTrail_cons isBlack (by simp)]
              exact deep.replace (shaded_join.mpr (.inl rfl))
          | leaf =>
              obtain ⟨rfl, rfl⟩ := leaves_of_childOf isNear isFar
              have parentRed := parent_red_of_endsAt ends
              cases rest with
              | nil => exact absurd parentRed ruled.2.2
              | cons above rest =>
                  rw [deepTrail_cons isBlack (by simp)]
                  have deeper : DeepTrail (above :: rest) _ := deep
                  exact deeper.mono fun _ => trivial

private theorem deepTrail_turned {brother : Cell} (red : isRed frame.sibling)
    (isBlack : frame.item.color = BLACK) (deep : DeepTrail (frame :: rest) True) :
    DeepTrail (lowered frame brother (childOf frame.side frame.sibling) ::
      lifted frame brother (childOf frame.side.other frame.sibling) :: rest) True := by
  cases rest with
  | nil =>
      have isShaded := deep.2
      exact ⟨.inr ⟨trivial, shaded_childOf isShaded red _⟩, shaded_childOf isShaded red _⟩
  | cons above rest =>
      have deeper : DeepTrail (above :: rest) _ := deep
      exact deeper.mono fun _ => .inl isBlack

theorem mend_ne_nil (below : trail ≠ []) : mend trail ≠ [] := by
  cases trail with
  | nil => exact absurd rfl below
  | cons frame rest =>
      have notEmpty (frame : Frame Cell) (rest : Trail Cell) : ended frame rest ≠ [] := by
        unfold ended
        simp only
        split <;> simp
      simp only [mend]
      split
      · simp
      · split
        · exact notEmpty _ _
        · split
          · exact notEmpty _ _
          · simp

/-- Where the fix-up mends the trail, the hole it leaves is as deep as a black node was. -/
private theorem deepTrail_mend (two : TwoColoredTrail trail) (ruled : Ruled trail False)
    (ends : mends trail = true) (deep : DeepTrail trail True) : DeepTrail (mend trail) False := by
  induction trail with
  | nil => contradiction
  | cons frame rest inductionHypothesis =>
      have ⟨hue, twoSibling, twoRest⟩ := two
      rw [mends] at ends
      cases isSibling : frame.sibling with
      | leaf => simp [isSibling, isRed, endsAt, BinTree.isLeaf] at ends
      | node left brother right =>
          by_cases red : isRed frame.sibling
          · rw [if_pos red, Bool.not_eq_true'] at ends
            have brotherRed : brother.color = RED := by
              rw [isSibling] at red
              exact red
            have parentBlack := hue.black_of_not_red fun parentRed => (ruled.1 parentRed).2 red
            have endsBelow : endsAt (lowered frame brother (childOf frame.side frame.sibling)) = true := by
              cases isNear : childOf frame.side frame.sibling with
              | leaf =>
                  rw [isNear] at ends
                  contradiction
              | node one cell two => simp [endsAt, lowered, brotherRed]
            have turned := @deepTrail_ended (lowered frame brother (childOf frame.side frame.sibling)) _
              (twoColored_childOf twoSibling _) (isRed_childOf ruled.2.1 red _) (.inl brotherRed)
              (ruled_turned ruled red) endsBelow (deepTrail_turned red parentBlack deep)
            simp only [mend]
            rw [isSibling] at turned ⊢
            simp only [if_pos brotherRed]
            exact turned
          · rw [if_neg red] at ends
            have brotherBlack : brother.color ≠ RED := by
              rw [isSibling] at red
              exact red
            simp only [mend]
            by_cases here : endsAt frame = true
            · have last := deepTrail_ended twoSibling red hue ruled here deep
              rw [isSibling]
              simp only [if_neg brotherBlack, if_pos here]
              exact last
            · have goesOn := Bool.eq_false_of_not_eq_true here
              rw [goesOn, Bool.false_or, Bool.and_eq_true] at ends
              have higher := ends.2
              have below : rest ≠ [] := by
                intro isEmpty
                rw [isEmpty] at higher
                contradiction
              have parentBlack : frame.item.color = BLACK := by
                apply hue.black_of_not_red
                intro parentRed
                simp [endsAt, isSibling, parentRed] at goesOn
              rw [deepTrail_cons parentBlack below] at deep
              have last := inductionHypothesis twoRest (ruled.2.2.mono False.elim) higher deep
              rw [isSibling]
              simp only [if_neg brotherBlack, if_neg here]
              refine (@deepTrail_cons ⟨frame.side, frame.item, paint RED (.node left brother right)⟩ _ _
                parentBlack (mend_ne_nil below)).mpr ?_
              exact last.mono False.elim

/-! ### Deep trees -/

theorem Alike.shaded {one two : BinTree Cell} (alike : Alike one two) (isShaded : Shaded one) :
    Shaded two := by
  induction alike with
  | leaf => exact isShaded
  | node lefts _ sameColor rights left_ih right_ih =>
      refine Or.imp ?_ (And.imp left_ih right_ih) isShaded
      intro isBlack
      rw [sameColor, isBlack]

theorem Alike.deep {one two : BinTree Cell} (alike : Alike one two) (deep : Deep one) : Deep two := by
  cases alike with
  | leaf => exact deep
  | node lefts _ _ rights => exact ⟨lefts.shaded deep.1, rights.shaded deep.2⟩

/-- A deletion that keeps the other nodes leaves a deep tree deep. -/
theorem deep_remove {after : BinTree Cell} (two : TwoColored (trail.plug (.node left cell right)))
    (colored : Colored (trail.plug (.node left cell right))) (few : left = .leaf ∨ right = .leaf)
    (keeps : keepsRest (.node left cell right) trail = true)
    (deep : Deep (trail.plug (.node left cell right)))
    (removed : remove (.node left cell right) trail = some after) : Deep after := by
  have ⟨twoHere, twoAbove⟩ := twoColored_plug.mp two
  have ⟨noRedRed, ruled⟩ := colored_plug.mp colored
  have below : trail ≠ [] := by
    intro isEmpty
    rw [isEmpty] at deep
    have ⟨isLeft, isRight⟩ : Shaded left ∧ Shaded right := deep
    rcases few with noLeft | noRight
    · rw [noLeft] at isLeft
      exact isLeft
    · rw [noRight] at isRight
      exact isRight
  rw [deep_plug below] at deep
  have promotes (child : BinTree Cell) (isNode : child ≠ .leaf) : Deep (trail.plug (paint BLACK child)) := by
    rw [deep_plug below]
    exact deep.mono fun _ => shaded_paint isNode
  cases left with
  | node a b c =>
      obtain rfl := Option.some.inj removed
      exact promotes (.node a b c) (by simp)
  | leaf =>
      cases right with
      | node d e f =>
          obtain rfl := Option.some.inj removed
          exact promotes (.node d e f) (by simp)
      | leaf =>
          rw [remove] at removed
          by_cases red : cell.color = RED
          · rw [if_pos red] at removed
            obtain rfl := Option.some.inj removed
            rw [deep_plug below]
            refine deep.mono fun isShaded => ?_
            have notBlack : cell.color ≠ BLACK := by
              rw [red]
              decide
            exact (isShaded.resolve_left notBlack).1
          · rw [if_neg red] at removed
            simp only [keepsRest, decide_eq_false red, Bool.false_or, Bool.or_eq_true,
              List.isEmpty_iff] at keeps
            have ends := keeps.resolve_right below
            rw [if_pos ends] at removed
            obtain rfl := Option.some.inj removed
            rw [deep_plug (mend_ne_nil below)]
            exact deepTrail_mend twoAbove (ruled.mono False.elim) ends (deep.mono fun _ => trivial)

/-! ### From four keys on -/

theorem shaded_of_balanced (balanced : Balanced tree (height + 1)) : Shaded tree := by
  induction tree generalizing height with
  | leaf => exact absurd balanced (Nat.succ_ne_zero height)
  | node left cell right left_ih right_ih =>
      have ⟨below, isLeft, isRight, isHeight⟩ := balanced
      by_cases isBlack : cell.color = BLACK
      · exact .inl isBlack
      · have same : below = height + 1 := by rw [isHeight, black, if_neg isBlack, Nat.add_zero]
        rw [same] at isLeft isRight
        exact .inr ⟨left_ih isLeft, right_ih isRight⟩

/-- Without black nodes a tree has one node at most. -/
theorem single_of_balanced (two : TwoColored tree) (noRedRed : NoRedRed tree)
    (balanced : Balanced tree 0) : Single tree := by
  cases tree with
  | leaf => trivial
  | node left cell right =>
      have red : cell.color = RED := (leaf_or_red two balanced).resolve_left (by simp)
      have ⟨leftBlack, rightBlack⟩ := noRedRed.1 red
      have isLeft := balanced_childOf_red (show isRed (.node left cell right) from red) balanced .left
      have isRight := balanced_childOf_red (show isRed (.node left cell right) from red) balanced .right
      exact ⟨(leaf_or_red two.2.1 isLeft).resolve_right leftBlack, red,
        (leaf_or_red two.2.2 isRight).resolve_right rightBlack⟩

theorem size_le_one (single : Single tree) : tree.size ≤ 1 := by
  cases tree with
  | leaf => exact Nat.zero_le 1
  | node left cell right =>
      obtain ⟨rfl, -, rfl⟩ := single
      exact Nat.le_refl 1

/-- A red-black tree of four nodes is deep. -/
theorem deep_of_redBlack (redBlack : RedBlack tree) (two : TwoColored tree) (many : 4 ≤ tree.size) :
    Deep tree := by
  cases tree with
  | leaf => contradiction
  | node left cell right =>
      have ⟨height, below, isLeft, isRight, _⟩ := redBlack.balanced
      cases below with
      | zero =>
          have lower := size_le_one (single_of_balanced two.2.1 redBlack.noRedRed.2.1 isLeft)
          have upper := size_le_one (single_of_balanced two.2.2 redBlack.noRedRed.2.2 isRight)
          rw [BinTree.size] at many
          omega
      | succ below => exact ⟨shaded_of_balanced isLeft, shaded_of_balanced isRight⟩

/-! ### Up to three keys -/

private theorem single_node {addr : Addr} {key : Int32} {value : Nat} :
    Single (.node .leaf ⟨addr, RED, key, value⟩ .leaf) := ⟨rfl, rfl, rfl⟩

/-- The third node at most leaves the root black and its children red. -/
theorem short_settle {addr : Addr} {key : Int32} {value : Nat} (short : Short (trail.plug .leaf))
    (few : (trail.plug .leaf).size ≤ 2) :
    Short (settle trail (.node .leaf ⟨addr, RED, key, value⟩ .leaf)) := by
  match trail with
  | [] => exact ⟨trivial, rfl, trivial⟩
  | [frame] =>
      obtain ⟨side, item, sibling⟩ := frame
      cases side with
      | left =>
          obtain ⟨_, isBlack, isSingle⟩ := short
          rw [settle, if_pos isBlack]
          exact ⟨single_node, isBlack, isSingle⟩
      | right =>
          obtain ⟨isSingle, isBlack, _⟩ := short
          rw [settle, if_pos isBlack]
          exact ⟨isSingle, isBlack, single_node⟩
  | [frame, above] =>
      obtain ⟨side, item, sibling⟩ := frame
      obtain ⟨upperSide, upper, uncle⟩ := above
      obtain ⟨isSingle, isBlack, noUncle⟩ : Single (Frame.fill ⟨side, item, sibling⟩ .leaf) ∧
          upper.color = BLACK ∧ uncle = .leaf := by
        have small := few
        cases upperSide with
        | left =>
            obtain ⟨isSingle, isBlack, _⟩ := short
            refine ⟨isSingle, isBlack, ?_⟩
            cases uncle with
            | leaf => rfl
            | node a b c => cases side <;> simp [Frame.fill, BinTree.join, BinTree.size] at small <;> omega
        | right =>
            obtain ⟨_, isBlack, isSingle⟩ := short
            refine ⟨isSingle, isBlack, ?_⟩
            cases uncle with
            | leaf => rfl
            | node a b c => cases side <;> simp [Frame.fill, BinTree.join, BinTree.size] at small <;> omega
      obtain ⟨red, noSibling⟩ : item.color = RED ∧ sibling = .leaf := by
        cases side with
        | left => exact ⟨isSingle.2.1, isSingle.2.2⟩
        | right => exact ⟨isSingle.2.1, isSingle.1⟩
      rw [noUncle, noSibling]
      have notBlack : RED ≠ BLACK := by decide
      cases side <;> cases upperSide <;>
        simp [settle, red, notBlack, raise, isRed, straight, bent, BinTree.join, Side.other, childOf, paint,
          Short, Single]
  | frame :: above :: top :: rest =>
      have long := Trail.length_le_size_plug (frame :: above :: top :: rest) .leaf
      simp only [List.length_cons, BinTree.size] at long
      omega

/-- Of a short tree every key may be deleted; here the one at the root. -/
theorem short_remove (short : Short (.node left cell right)) :
    ∃ a b c place, spot (.node left cell right) cell.key = (.node a b c, place) ∧
      keepsRest (.node a b c) place = true ∧
      ∀ after, remove (.node a b c) place = some after → Short after := by
  have ⟨isLeft, isBlack, isRight⟩ := short
  have here : (BinTree.node left cell right).zoom keyOf cell.key.toInt [] =
      (.node left cell right, []) := by
    simp [BinTree.zoom, keyOf]
  have notRed : cell.color ≠ RED := by
    rw [isBlack]
    decide
  cases left with
  | leaf =>
      cases right with
      | leaf =>
          refine ⟨.leaf, cell, .leaf, [], ?_, ?_, ?_⟩
          · rw [spot, here]
          · simp [keepsRest]
          · intro after removed
            rw [remove, if_neg notRed] at removed
            obtain rfl := Option.some.inj removed
            trivial
      | node d e f =>
          obtain ⟨rfl, red, rfl⟩ := isRight
          refine ⟨.leaf, cell, .node .leaf e .leaf, [], ?_, rfl, ?_⟩
          · rw [spot, here]
          · intro after removed
            obtain rfl := Option.some.inj removed
            exact ⟨trivial, rfl, trivial⟩
  | node a b c =>
      obtain ⟨rfl, redLeft, rfl⟩ := isLeft
      cases right with
      | leaf =>
          refine ⟨.node .leaf b .leaf, cell, .leaf, [], ?_, rfl, ?_⟩
          · rw [spot, here]
          · intro after removed
            obtain rfl := Option.some.inj removed
            exact ⟨trivial, rfl, trivial⟩
      | node d e f =>
          obtain ⟨rfl, red, rfl⟩ := isRight
          refine ⟨.leaf, e.withEntry cell, .leaf,
            [⟨.right, cell.withEntry e, .node .leaf b .leaf⟩], ?_, ?_, ?_⟩
          · rw [spot, here]
            rfl
          · simp [keepsRest, Cell.withEntry, red]
          · intro after removed
            have isRed : (e.withEntry cell).color = RED := red
            rw [remove, if_pos isRed] at removed
            obtain rfl := Option.some.inj removed
            exact ⟨⟨rfl, redLeft, rfl⟩, isBlack, trivial⟩

end

/-! ### Deletions that keep the other nodes -/

/-- What is known in the course of the release. -/
structure Releasing (T : Rbtree) (tree : BinTree Cell) : Prop where
  focus : Focus T createdNil [] tree
  search : SearchTree tree
  twoColored : TwoColored tree

section

variable {T : Rbtree} {tree one two left right : BinTree Cell} {cell : Cell} {trail : Trail Cell}
  {key : Int32}

def addrs (tree : BinTree Cell) : List Addr := tree.toList.map Cell.addr

theorem Alike.addrs (alike : Alike one two) : RbTree.addrs two = RbTree.addrs one := by
  unfold RbTree.addrs
  induction alike with
  | leaf => rfl
  | node lefts sameAddr _ rights left_ih right_ih =>
      simp only [BinTree.toList, List.map_append, List.map_cons, left_ih, right_ih, sameAddr]

theorem addrs_of_records (same : records one = records two) : addrs one = addrs two := by
  have mapped := congrArg (List.map Prod.fst) same
  unfold records at mapped
  rw [List.map_map, List.map_map] at mapped
  exact mapped

theorem keys_eq_entries (tree : BinTree Cell) : keys tree = (entries tree).map Prod.fst := by
  rw [keys, entries, List.map_map]
  rfl

/-- The address of the unlinked node, and the others. -/
theorem addrs_promoted (few : left = .leaf ∨ right = .leaf) :
    (addrs (trail.plug (.node left cell right))).Perm
      (cell.addr :: addrs (trail.plug (promoted left right))) := by
  have painted (tree : BinTree Cell) :
      (paint BLACK tree).toList.map Cell.addr = tree.toList.map Cell.addr :=
    addrs_of_records (records_paint BLACK tree)
  have whole := (Trail.toList_plug_perm trail (.node left cell right)).map Cell.addr
  have rest := (Trail.toList_plug_perm trail (promoted left right)).map Cell.addr
  refine whole.trans (List.Perm.trans ?_ (rest.symm.cons cell.addr))
  rw [List.map_append, List.map_append, ← List.cons_append]
  apply List.Perm.append_right
  cases left with
  | leaf =>
      rw [promoted, painted]
      exact List.Perm.refl _
  | node a b c =>
      obtain rfl : right = .leaf := few.resolve_left (by simp)
      rw [promoted, painted, BinTree.toList, List.map_append]
      exact List.perm_append_singleton _ _

/-- A deletion that keeps the other nodes, in the course of the release. -/
theorem Releasing.delete (releasing : Releasing T tree)
    (isSpot : spot tree key = (.node left cell right, trail))
    (keeps : keepsRest (.node left cell right) trail = true) :
    ∃ next after, rbtreeDelete T key = some (next, 0) ∧ Releasing next after ∧ Frees T cell.addr next ∧
      remove (.node left cell right) trail = some after ∧
      (addrs tree).Perm (cell.addr :: addrs after) ∧ (keys tree).Perm (key :: keys after) := by
  obtain ⟨focus, ⟨ordered, colored⟩, two⟩ := releasing
  have ⟨few, alike⟩ := spot_alike isSpot
  have coloredHere := alike.colored colored
  have ⟨after, removed, coloredAfter, sameRecords⟩ := remove_of_keepsRest coloredHere few keeps
  have deletes := rbtreeDelete_spec focus colored isSpot fun _ => createdNil_null
  rw [removed] at deletes
  have ⟨next, deleted, focusNext, frees⟩ := deletes
  have orderedAfter := ordered_remove ordered isSpot coloredHere removed
  have twoAfter := twoColored_remove (alike.twoColored two) removed
  refine ⟨next, after, deleted, ⟨focusNext, ⟨orderedAfter, coloredAfter⟩, twoAfter⟩, frees, removed, ?_, ?_⟩
  · rw [← alike.addrs, addrs_of_records sameRecords]
    exact addrs_promoted few
  · have ⟨smaller, value, greater, isTree, isLeft⟩ := spot_entries isSpot
    rw [← entries_of_records sameRecords] at isLeft
    rw [keys_eq_entries, keys_eq_entries, isTree, isLeft, List.map_append, List.map_append, List.map_cons]
    exact List.perm_middle

/-! ### The loop -/

theorem Releasing.isEmpty (releasing : Releasing T .leaf) : rbtreeIsEmpty T = true := by
  have isRoot : T.root = some createdNil.addr := releasing.focus.root
  rw [rbtreeIsEmpty, isRoot, releasing.focus.isNil]
  exact decide_eq_true rfl

theorem Releasing.root (releasing : Releasing T (.node left cell right)) :
    rbtreeIsEmpty T = false ∧ ∃ root, T.load T.root = some root ∧ root.key = cell.key := by
  have focus := releasing.focus
  have isRoot : T.root = some cell.addr := focus.root
  refine ⟨?_, ?_⟩
  · rw [rbtreeIsEmpty, isRoot, focus.isNil]
    exact decide_eq_false fun same => focus.real_node (Option.some.inj same)
  · rw [isRoot]
    exact ⟨_, @Focus.load createdNil T left right [] cell .left focus, node_key ..⟩

theorem Releasing.freeTurn_eq (releasing : Releasing T (.node left cell right)) :
    freeTurn T = (rbtreeDelete T cell.key).map fun result => .again result.1 := by
  have ⟨notEmpty, root, found, isKey⟩ := releasing.root
  simp only [freeTurn, notEmpty, Bool.false_eq_true, if_false, found, Option.bind_eq_bind,
    Option.bind_some, isKey]
  cases rbtreeDelete T cell.key <;> rfl

theorem Releasing.freeCalls_eq (releasing : Releasing T (.node left cell right)) {next : Rbtree}
    {result : Int} (deletes : rbtreeDelete T cell.key = some (next, result)) (fuel : Nat) :
    freeCalls (fuel + 1) T = (cell.key, result) :: freeCalls fuel next := by
  have ⟨notEmpty, root, found, isKey⟩ := releasing.root
  rw [freeCalls, notEmpty]
  simp only [Bool.false_eq_true, if_false, found, isKey, deletes]

theorem freeCalls_of_isEmpty (isEmpty : rbtreeIsEmpty T = true) (fuel : Nat) : freeCalls fuel T = [] := by
  cases fuel with
  | zero => rfl
  | succ fuel => rw [freeCalls, if_pos isEmpty]

/-- A short tree is released. -/
theorem Releasing.releases (releasing : Releasing T tree) (short : Short tree) {fuel : Nat}
    (enough : tree.size < fuel) :
    ∃ last, loop (fun T => .orFault (freeTurn T)) fuel T = some last ∧ Releasing last .leaf ∧
      (freeCalls fuel T).Perm ((keys tree).map fun key => (key, 0)) ∧
      ∀ addr, last.heap.load addr = none ↔ T.heap.load addr = none ∨ addr ∈ addrs tree := by
  induction fuel generalizing T tree with
  | zero => exact absurd enough (Nat.not_lt_zero _)
  | succ fuel inductionHypothesis =>
      cases tree with
      | leaf =>
          have isEmpty := releasing.isEmpty
          refine ⟨T, loop_leave ?_, releasing, ?_, fun addr => ?_⟩
          · rw [freeTurn, if_pos isEmpty]
            rfl
          · rw [freeCalls_of_isEmpty isEmpty]
            exact List.Perm.nil
          · simp [addrs, BinTree.toList]
      | node left cell right =>
          obtain ⟨a, b, c, place, isSpot, keeps, shortAfter⟩ := short_remove short
          obtain ⟨next, after, deletes, releasingNext, frees, removed, sameAddrs, sameKeys⟩ :=
            releasing.delete isSpot keeps
          have smaller : after.size < fuel := by
            have oneLess := sameKeys.length_eq
            simp only [keys, List.length_map, List.length_cons, BinTree.length_toList] at oneLess
            omega
          obtain ⟨last, ran, isLast, calls, freed⟩ :=
            inductionHypothesis releasingNext (shortAfter after removed) smaller
          refine ⟨last, ?_, isLast, ?_, fun addr => ?_⟩
          · have turn : freeTurn T = some (.again next) := by
              rw [releasing.freeTurn_eq, deletes]
              rfl
            rw [loop_again (by rw [turn, Turn.orFault])]
            exact ran
          · rw [releasing.freeCalls_eq deletes]
            exact (calls.cons _).trans (sameKeys.map fun key => (key, 0)).symm
          · rw [freed, frees.freed, sameAddrs.mem_iff, List.mem_cons, or_assoc]

/-- The release of a deep tree ends, if it does, before all keys are deleted. -/
theorem Releasing.loses (releasing : Releasing T tree) (deep : Deep tree) {fuel : Nat} {last : Rbtree}
    (ran : loop (fun T => .orFault (freeTurn T)) fuel T = some last) :
    (freeCalls fuel T).length < tree.size := by
  induction fuel generalizing T tree with
  | zero => contradiction
  | succ fuel inductionHypothesis =>
      cases tree with
      | leaf => exact deep.elim
      | node left cell right =>
          have present : ∃ other ∈ (BinTree.node left cell right).toList, other.key = cell.key :=
            ⟨cell, by simp [BinTree.toList], rfl⟩
          obtain ⟨a, b, c, place, isSpot⟩ := spot_isNode releasing.search.ordered present
          obtain ⟨few, alike⟩ := spot_alike isSpot
          cases keeps : keepsRest (.node a b c) place with
          | true =>
              obtain ⟨next, after, deletes, releasingNext, _, removed, _, sameKeys⟩ :=
                releasing.delete isSpot keeps
              have deepAfter := deep_remove (alike.twoColored releasing.twoColored)
                (alike.colored releasing.search.colored) few keeps (alike.deep deep) removed
              have turn : freeTurn T = some (.again next) := by
                rw [releasing.freeTurn_eq, deletes]
                rfl
              rw [loop_again (by rw [turn, Turn.orFault])] at ran
              have fewer := inductionHypothesis releasingNext deepAfter ran
              have oneLess := sameKeys.length_eq
              simp only [keys, List.length_map, List.length_cons, BinTree.length_toList] at oneLess
              rw [releasing.freeCalls_eq deletes, List.length_cons]
              omega
          | false =>
              obtain ⟨below, outcome⟩ := remove_of_not_keepsRest keeps
              have deletes := rbtreeDelete_spec releasing.focus releasing.search.colored isSpot
                fun _ => createdNil_null
              rcases outcome with isLost | faults
              · rw [isLost] at deletes
                obtain ⟨lost, deleted, focusLost, _⟩ := deletes
                have isEmpty : rbtreeIsEmpty lost = true :=
                  Releasing.isEmpty ⟨focusLost, ⟨List.Pairwise.nil, id, trivial⟩, trivial⟩
                rw [releasing.freeCalls_eq deleted, freeCalls_of_isEmpty isEmpty, List.length_singleton]
                -- the unlinked node is below the root
                have sameSize := congrArg List.length alike.addrs
                have long := Trail.length_le_size_plug place (.node a b c)
                simp only [addrs, List.length_map, BinTree.length_toList] at sameSize
                have notEmpty := List.length_pos_of_ne_nil below
                simp only [BinTree.size] at sameSize long ⊢
                omega
              · rw [faults] at deletes
                have isNone : rbtreeDelete T cell.key = none := deletes
                have turn : freeTurn T = none := by
                  rw [releasing.freeTurn_eq, isNone]
                  rfl
                rw [loop_fault (by rw [turn, Turn.orFault])] at ran
                contradiction

/-! ### After any insertions -/

theorem Inserted.releasing {nodes : List (Int32 × Nat)} (inserted : Inserted T tree nodes) :
    Releasing T tree :=
  ⟨inserted.sound.focus, ⟨inserted.sound.redBlack.ordered, inserted.sound.redBlack.colored⟩,
    inserted.sound.twoColored⟩

end

theorem size_settle {trail : Trail Cell} {cell : Cell} :
    (settle trail (.node .leaf cell .leaf)).size = (Trail.plug trail .leaf).size + 1 := by
  have sameLength := congrArg List.length (records_settle trail (.node .leaf cell .leaf))
  simp only [records, List.length_map, Trail.toList_plug, List.length_append, BinTree.toList,
    List.length_cons, List.length_nil, BinTree.length_toList] at sameLength
  have whole := congrArg List.length (Trail.toList_plug trail (.leaf : BinTree Cell))
  simp only [BinTree.length_toList, List.length_append, BinTree.toList, List.length_nil] at whole
  omega

/-- Up to three nodes are a black one with red children. -/
theorem exec_inserts_short (nodes : List (Int32 × Nat)) :
    ∃ T events tree, machine.Exec (inserts nodes) T events ∧ Inserted T tree nodes ∧
      (tree.size ≤ 3 → Short tree) := by
  apply exec_inserts fun _ => trivial
  intro trail addr key value short few
  rw [size_settle] at few
  exact short_settle (short (by omega)) (by omega)

/-- After any insertions `rbtree_free` deletes every key once and frees every node exactly if
there are three keys at most. -/
theorem freesAll_iff (nodes : List (Int32 × Nat)) :
    ∃ T events, machine.Exec (inserts nodes) T events ∧ (FreesAll T nodes ↔ distinctKeys nodes ≤ 3) := by
  obtain ⟨T, events, tree, exec, inserted, isShort⟩ := exec_inserts_short nodes
  have releasing := inserted.releasing
  have ordered := releasing.search.ordered
  have sameKeys := inserted.holds.keys_perm ordered
  have isSize := inserted.holds.size_eq ordered
  refine ⟨T, events, exec, ?_⟩
  constructor
  · intro freesAll
    obtain ⟨last, freed, calls, _⟩ := freesAll
    by_contra many
    have deep := deep_of_redBlack inserted.sound.redBlack inserted.sound.twoColored (by omega)
    obtain ⟨emptied, ran, _⟩ := Option.bind_eq_some_iff.mp freed
    have fewer := releasing.loses deep ran
    have allCalls := calls.length_eq
    rw [List.length_map] at allCalls
    rw [distinctKeys] at isSize
    omega
  · intro few
    have enough : tree.size < T.turns := Nat.lt_succ_of_lt releasing.focus.size_lt
    obtain ⟨last, ran, isLast, calls, freed⟩ := releasing.releases (isShort (by omega)) enough
    have isNil := isLast.focus.isNil
    obtain ⟨heap, frees, _, others⟩ := Heap.free_eq_some isLast.focus.shape.nilNode
    refine ⟨⟨heap, none, none⟩, ?_, calls.trans (sameKeys.map fun key => (key, 0)), ?_⟩
    · simp only [rbtreeFree, ran, Option.bind_eq_bind, Option.bind_some, Rbtree.free, isNil, frees]
      rfl
    · intro key addr node first
      have isKey := key_of_firstNode first
      rw [← isKey] at first
      obtain ⟨cell, member, isRecord⟩ := List.mem_map.mp ((inserted.holds (addr, node)).mpr first)
      have isAddr : cell.addr = addr := congrArg Prod.fst isRecord
      have real : addr ≠ createdNil.addr := by
        rw [← isAddr]
        exact releasing.focus.shape.apart.real cell (List.mem_append_left _ member)
      show heap.load addr = none
      rw [others addr real, freed addr, ← isAddr]
      exact .inr (List.mem_map_of_mem member)

/-- The keys of the source's own example, up to the fourth. -/
def fourNodes : List (Int32 × Nat) := [(0, 0), (1, 0), (2, 0), (3, 0)]

theorem fourNodes_not_freesAll : ∃ T events, machine.Exec (inserts fourNodes) T events ∧
    ¬ FreesAll T fourNodes := by
  refine ⟨_, _, machine.exec_of_isSome (inserts fourNodes) (by decide +kernel), ?_⟩
  intro freesAll
  have ⟨last, _, calls, _⟩ := freesAll
  exact absurd calls.length_eq (by decide +kernel)

end SimpleBasicComponents.RbTree
