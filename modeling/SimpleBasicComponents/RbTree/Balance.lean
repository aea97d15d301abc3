import SimpleBasicComponents.RbTree.FiniteMap

/-!
The balance of a tree under deletions.

Owns: the rule that every colour is one of the two, when the tree that a deletion
leaves still has equally many black nodes on all trails (`keepsBalance`), that the
red-black invariant is kept exactly then, and that a run whose deletions all keep
it never follows a null pointer.
-/

namespace SimpleBasicComponents.RbTree

open SimpleBasicComponents.Semantics

/-- A colour is red or black. -/
def Hue (color : UInt8) : Prop := color = RED ∨ color = BLACK

def TwoColored : BinTree Cell → Prop
  | .leaf => True
  | .node left cell right => Hue cell.color ∧ TwoColored left ∧ TwoColored right

def TwoColoredTrail : Trail Cell → Prop
  | [] => True
  | frame :: rest => Hue frame.item.color ∧ TwoColored frame.sibling ∧ TwoColoredTrail rest

/-- The brother that the fix-up has to do with: a red one has been turned up by then. -/
def brotherOf (frame : Frame Cell) : BinTree Cell :=
  if isRed frame.sibling then childOf frame.side frame.sibling else frame.sibling

/-- A black brother without children under a black parent: the fix-up goes on upwards. -/
def climbs (frame : Frame Cell) : Bool := !decide (isRed frame.sibling) && !endsAt frame

/-- Where the fix-up comes to after a climb, the outer child of the brother is red. The
source paints it black, and would have to leave a black one to the inner child. -/
def evens : Trail Cell → Bool
  | [] => true
  | frame :: _ => decide (isRed (childOf frame.side.other (brotherOf frame)))

/-- Without the root of the subtree at the end of the trail there are still equally many
black nodes on all trails: it has a child, is red, is the only one, or the fix-up ends at
once or evens out after a climb. -/
def keepsBalance : BinTree Cell → Trail Cell → Bool
  | .node .leaf cell .leaf, frame :: rest => cell.color = RED || !climbs frame || evens rest
  | _, _ => true

section

variable {tree left right near far : BinTree Cell} {cell : Cell} {frame above : Frame Cell}
  {side : Side} {trail rest : Trail Cell} {color : UInt8} {height : Nat}

/-! ### Two colours -/

theorem Hue.black_of_not_red (hue : Hue color) (notRed : color ≠ RED) : color = BLACK :=
  hue.resolve_left notRed

theorem hue_RED : Hue RED := .inl rfl

theorem hue_BLACK : Hue BLACK := .inr rfl

theorem twoColored_join : TwoColored (.join side near cell far) ↔
    Hue cell.color ∧ TwoColored near ∧ TwoColored far := by
  cases side with
  | left => exact Iff.rfl
  | right =>
      show _ ∧ _ ∧ _ ↔ _
      rw [and_comm (a := TwoColored far)]

theorem twoColored_plug : TwoColored (trail.plug tree) ↔ TwoColored tree ∧ TwoColoredTrail trail := by
  induction trail generalizing tree with
  | nil => exact (and_iff_left trivial).symm
  | cons frame rest inductionHypothesis =>
      rw [Trail.plug_cons, inductionHypothesis, Frame.fill, twoColored_join, TwoColoredTrail]
      tauto

theorem twoColored_childOf (two : TwoColored tree) (side : Side) : TwoColored (childOf side tree) := by
  cases tree with
  | leaf => trivial
  | node left cell right =>
      cases side with
      | left => exact two.2.1
      | right => exact two.2.2

theorem twoColored_paint (two : TwoColored tree) (hue : Hue color) : TwoColored (paint color tree) := by
  cases tree with
  | leaf => trivial
  | node left cell right => exact ⟨hue, two.2⟩

theorem twoColored_raise (two : TwoColored tree) (above : TwoColoredTrail trail) :
    TwoColored (raise trail tree) := by
  fun_induction raise trail tree with
  | case1 frame above rest left cell right red uncleRed ih =>
      obtain ⟨hue, sibling, hueAbove, uncle, higher⟩ := above
      apply ih _ higher
      exact twoColored_join.mpr ⟨hue, twoColored_join.mpr ⟨hueAbove, two, sibling⟩,
        twoColored_paint uncle hueAbove⟩
  | case2 frame above rest left cell right red uncleBlack same =>
      obtain ⟨hue, sibling, hueAbove, uncle, higher⟩ := above
      apply twoColored_plug.mpr
      exact ⟨twoColored_join.mpr ⟨hueAbove, twoColored_join.mpr ⟨hue, uncle, sibling⟩, two⟩, higher⟩
  | case3 frame above rest left cell right red uncleBlack differ =>
      obtain ⟨hue, sibling, hueAbove, uncle, higher⟩ := above
      apply twoColored_plug.mpr
      refine ⟨twoColored_join.mpr ⟨hueAbove, ?_, ?_⟩, higher⟩
      · exact twoColored_join.mpr ⟨hue, uncle, twoColored_childOf two _⟩
      · exact twoColored_join.mpr ⟨two.1, sibling, twoColored_childOf two _⟩
  | case4 frame upper rest left cell right black =>
      show TwoColored (Trail.plug (frame :: upper :: rest) _)
      exact twoColored_plug.mpr ⟨two, above⟩
  | case5 => exact twoColored_plug.mpr ⟨two, above⟩

theorem twoColored_settle (two : TwoColored tree) (above : TwoColoredTrail trail) :
    TwoColored (settle trail tree) := by
  cases trail with
  | nil => exact twoColored_paint two hue_BLACK
  | cons frame rest =>
      rw [settle]
      split
      · rw [← Trail.plug_cons]
        exact twoColored_plug.mpr ⟨two, above⟩
      · exact twoColored_paint (twoColored_raise two above) hue_BLACK

private theorem twoColored_ended (two : TwoColoredTrail (frame :: rest)) :
    TwoColoredTrail (ended frame rest) := by
  obtain ⟨side, parent, sibling⟩ := frame
  have ⟨hue, isSibling, higher⟩ := two
  cases sibling with
  | leaf => exact two
  | node left brother right =>
      have near := twoColored_childOf isSibling side
      have far := twoColored_childOf isSibling side.other
      have hueBrother : Hue brother.color := isSibling.1
      unfold ended
      simp only
      cases isFar : childOf side.other (.node left brother right) with
      | node one cell two =>
          rw [isFar] at far
          exact ⟨hueBrother, near, hue, twoColored_paint far hue_BLACK, higher⟩
      | leaf =>
          cases isNear : childOf side (.node left brother right) with
          | node one nephew two =>
              rw [isNear] at near
              refine ⟨hueBrother, twoColored_childOf near _, hue, ?_, higher⟩
              exact twoColored_join.mpr ⟨hue_BLACK, trivial, twoColored_childOf near _⟩
          | leaf => exact ⟨hueBrother, twoColored_paint isSibling hue, higher⟩

private theorem twoColored_mend (two : TwoColoredTrail trail) : TwoColoredTrail (mend trail) := by
  induction trail with
  | nil => trivial
  | cons frame rest inductionHypothesis =>
      obtain ⟨side, parent, sibling⟩ := frame
      have ⟨hue, isSibling, higher⟩ := two
      cases sibling with
      | leaf => exact two
      | node left brother right =>
          simp only [mend]
          split
          · apply twoColored_ended
            exact ⟨isSibling.1, twoColored_childOf isSibling _, hue, twoColored_childOf isSibling _, higher⟩
          · split
            · exact twoColored_ended two
            · exact ⟨hue, twoColored_paint isSibling hue_RED, inductionHypothesis higher⟩

theorem Alike.twoColored {one two : BinTree Cell} (alike : Alike one two) (colored : TwoColored one) :
    TwoColored two := by
  induction alike with
  | leaf => trivial
  | node lefts _ sameColor rights left_ih right_ih =>
      have ⟨hue, left, right⟩ := colored
      rw [← sameColor] at hue
      exact ⟨hue, left_ih left, right_ih right⟩

private theorem twoColored_promoted (isLeft : TwoColored left) (isRight : TwoColored right) :
    TwoColored (promoted left right) := by
  cases left with
  | leaf => exact twoColored_paint isRight hue_BLACK
  | node a b c => exact twoColored_paint isLeft hue_BLACK

theorem Alike.balanced {one two : BinTree Cell} (alike : Alike one two) (balanced : Balanced one height) :
    Balanced two height := by
  induction alike generalizing height with
  | leaf => exact balanced
  | node lefts _ sameColor rights left_ih right_ih =>
      have ⟨below, left, right, isHeight⟩ := balanced
      rw [← sameColor] at isHeight
      exact ⟨below, left_ih left, right_ih right, isHeight⟩

/-- A deletion paints with the two colours. -/
theorem twoColored_remove {after : BinTree Cell} (two : TwoColored (trail.plug (.node left cell right)))
    (removed : remove (.node left cell right) trail = some after) : TwoColored after := by
  have ⟨isTree, higher⟩ := twoColored_plug.mp two
  have promotes : TwoColored (trail.plug (promoted left right)) :=
    twoColored_plug.mpr ⟨twoColored_promoted isTree.2.1 isTree.2.2, higher⟩
  cases left with
  | node a b c =>
      obtain rfl := Option.some.inj removed
      exact promotes
  | leaf =>
      cases right with
      | node d e f =>
          obtain rfl := Option.some.inj removed
          exact promotes
      | leaf =>
          rw [remove] at removed
          split at removed
          · obtain rfl := Option.some.inj removed
            exact promotes
          · split at removed
            · obtain rfl := Option.some.inj removed
              exact twoColored_plug.mpr ⟨trivial, twoColored_mend higher⟩
            · split at removed
              · obtain rfl := Option.some.inj removed
                trivial
              · contradiction

/-! ### Heights -/

theorem balanced_unique {other : Nat} (one : Balanced tree height) (two : Balanced tree other) :
    height = other := by
  induction tree generalizing height other with
  | leaf => exact Eq.trans one (Eq.symm two)
  | node left cell right left_ih _ =>
      have ⟨below, isLeft, _, isHeight⟩ := one
      have ⟨below', isLeft', _, isOther⟩ := two
      rw [isHeight, isOther, left_ih isLeft isLeft']

theorem balanced_childOf_red (red : isRed tree) (balanced : Balanced tree height) (side : Side) :
    Balanced (childOf side tree) height := by
  cases tree with
  | leaf => exact red.elim
  | node left cell right =>
      have isRed : cell.color = RED := red
      have ⟨below, isLeft, isRight, isHeight⟩ := balanced
      rw [isRed, black_RED, Nat.add_zero] at isHeight
      rw [isHeight]
      cases side with
      | left => exact isLeft
      | right => exact isRight

theorem balanced_childOf_black (two : TwoColored tree) (notRed : ¬ isRed tree)
    (balanced : Balanced tree (height + 1)) (side : Side) : Balanced (childOf side tree) height := by
  cases tree with
  | leaf => exact absurd balanced (Nat.succ_ne_zero height)
  | node left cell right =>
      have isBlack := two.1.black_of_not_red notRed
      have ⟨below, isLeft, isRight, isHeight⟩ := balanced
      rw [isBlack] at isHeight
      have same : height = below := Nat.succ.inj isHeight
      rw [same]
      cases side with
      | left => exact isLeft
      | right => exact isRight

/-- Without black nodes there is at most a red one. -/
theorem leaf_or_red (two : TwoColored tree) (balanced : Balanced tree 0) : tree = .leaf ∨ isRed tree := by
  cases tree with
  | leaf => exact .inl rfl
  | node left cell right =>
      refine .inr ?_
      by_contra notRed
      have isBlack := two.1.black_of_not_red notRed
      have ⟨below, _, _, isHeight⟩ := balanced
      rw [isBlack] at isHeight
      exact Nat.succ_ne_zero below isHeight.symm

/-- Painting a node black adds one exactly if it was red. -/
theorem balanced_paint_black_iff (two : TwoColored tree) (balanced : Balanced tree height)
    (isNode : tree ≠ .leaf) : Balanced (paint BLACK tree) (height + 1) ↔ isRed tree := by
  constructor
  · intro painted
    by_contra notRed
    cases tree with
    | leaf => exact isNode rfl
    | node left cell right =>
        have isBlack := two.1.black_of_not_red notRed
        have same : paint BLACK (.node left cell right) = .node left cell right := by
          rw [paint, ← isBlack]
        rw [same] at painted
        exact absurd (balanced_unique painted balanced) (Nat.succ_ne_self height)
  · intro red
    exact balanced_paint balanced red BLACK

/-! ### The fix-up -/

/-- Where the fix-up ends, the hole is evened out unless the brother has a black outer child. -/
theorem balancedTrail_ended_iff (two : TwoColored frame.sibling) (notRed : ¬ isRed frame.sibling)
    (ends : endsAt frame = true) (balanced : BalancedTrail (frame :: rest) (height + 1)) :
    BalancedTrail (ended frame rest) height ↔
      childOf frame.side.other frame.sibling = .leaf ∨ isRed (childOf frame.side.other frame.sibling) := by
  obtain ⟨side, parent, sibling⟩ := frame
  have ⟨isSibling, higher⟩ := balanced
  have near := balanced_childOf_black two notRed isSibling side
  have far := balanced_childOf_black two notRed isSibling side.other
  have twoNear := twoColored_childOf two side
  have twoFar := twoColored_childOf two side.other
  simp only at *
  cases sibling with
  | leaf => contradiction
  | node left brother right =>
      have isBlack : brother.color = BLACK := two.1.black_of_not_red notRed
      unfold ended
      simp only
      cases isFar : childOf side.other (.node left brother right) with
      | node one cell two =>
          rw [isFar] at far twoFar
          have painted := balanced_paint_black_iff twoFar far (by simp)
          simp only [BalancedTrail, lowered, lifted, isBlack, reduceCtorEq, false_or]
          rw [← painted]
          exact ⟨fun all => all.2.1, fun isFar => ⟨near, isFar, higher⟩⟩
      | leaf =>
          rw [isFar] at far
          obtain rfl : height = 0 := far
          refine iff_of_true ?_ (.inl rfl)
          cases isNear : childOf side (.node left brother right) with
          | node one nephew two =>
              rw [isNear] at near twoNear
              have redNear := (leaf_or_red twoNear near).resolve_left (by simp)
              have inner := balanced_childOf_red redNear near
              refine ⟨inner side, ?_, ?_⟩
              · apply balanced_join.mpr
                refine ⟨0, rfl, inner side.other, ?_⟩
                rw [lowered, isBlack]
              · rw [lowered, isBlack]
                exact higher
          | leaf =>
              obtain ⟨rfl, rfl⟩ := leaves_of_childOf isNear isFar
              have parentRed := parent_red_of_endsAt ends
              refine ⟨⟨0, rfl, rfl, ?_⟩, ?_⟩
              · rw [parentRed, black_RED]
              · rw [parentRed] at higher
                rw [isBlack]
                exact higher

/-- The same for a fix-up that ends at once, a red brother first being turned up. -/
theorem balancedTrail_mend_iff (two : TwoColored frame.sibling) (ruled : Ruled (frame :: rest) False)
    (ends : climbs frame = false) (balanced : BalancedTrail (frame :: rest) (height + 1)) :
    mends (frame :: rest) = true ∧ (BalancedTrail (mend (frame :: rest)) height ↔
      childOf frame.side.other (brotherOf frame) = .leaf ∨
        isRed (childOf frame.side.other (brotherOf frame))) := by
  have ⟨isSibling, higher⟩ := balanced
  cases isNode : frame.sibling with
  | leaf =>
      rw [isNode] at isSibling
      exact absurd isSibling (Nat.succ_ne_zero height)
  | node left brother right =>
      by_cases red : isRed frame.sibling
      · have near := balanced_childOf_red red isSibling frame.side
        have far := balanced_childOf_red red isSibling frame.side.other
        have nearBlack := isRed_childOf ruled.2.1 red frame.side
        have brotherRed : brother.color = RED := by
          rw [isNode] at red
          exact red
        have there : (childOf frame.side frame.sibling).isLeaf = false := by
          cases isNear : childOf frame.side frame.sibling with
          | leaf =>
              rw [isNear] at near
              exact absurd near (Nat.succ_ne_zero height)
          | node one cell two => rfl
        have parentRed : endsAt (lowered frame brother (childOf frame.side frame.sibling)) = true := by
          cases isNear : childOf frame.side frame.sibling with
          | leaf =>
              rw [isNear] at there
              contradiction
          | node one cell two => simp [endsAt, lowered, brotherRed]
        have turned : BalancedTrail (lowered frame brother (childOf frame.side frame.sibling) ::
            lifted frame brother (childOf frame.side.other frame.sibling) :: rest) (height + 1) := by
          refine ⟨near, ?_, ?_⟩
          · rw [lowered, brotherRed]
            exact far
          · rw [lowered, brotherRed]
            exact higher
        refine ⟨?_, ?_⟩
        · rw [mends, if_pos red, there]
          rfl
        · have last := balancedTrail_ended_iff (twoColored_childOf two frame.side) nearBlack parentRed turned
          rw [brotherOf, if_pos red]
          simp only [mend]
          rw [isNode] at last ⊢
          simp only [if_pos brotherRed]
          exact last
      · have brotherBlack : brother.color ≠ RED := by
          rw [isNode] at red
          exact red
        have endsHere : endsAt frame = true := by
          simpa [climbs, red] using ends
        refine ⟨?_, ?_⟩
        · rw [mends, if_neg red, endsHere]
          rfl
        · have last := balancedTrail_ended_iff two red endsHere balanced
          rw [brotherOf, if_neg red]
          simp only [mend]
          rw [isNode] at last ⊢
          simp only [if_neg brotherBlack, if_pos endsHere]
          exact last

/-- The outer child of the brother, which decides, has the height of the hole. -/
theorem balanced_outer (two : TwoColored frame.sibling) (noRedRed : NoRedRed frame.sibling)
    (balanced : Balanced frame.sibling (height + 1)) :
    TwoColored (childOf frame.side.other (brotherOf frame)) ∧
      Balanced (childOf frame.side.other (brotherOf frame)) height := by
  unfold brotherOf
  by_cases red : isRed frame.sibling
  · rw [if_pos red]
    have twoNear := twoColored_childOf two frame.side
    have near := balanced_childOf_red red balanced frame.side
    exact ⟨twoColored_childOf twoNear _,
      balanced_childOf_black twoNear (isRed_childOf noRedRed red frame.side) near _⟩
  · rw [if_neg red]
    exact ⟨twoColored_childOf two _, balanced_childOf_black two red balanced _⟩

/-- After a climb the brother has children. -/
private theorem climbs_above (two : TwoColored frame.sibling)
    (balanced : Balanced frame.sibling (height + 1 + 1)) : climbs frame = false := by
  by_cases red : isRed frame.sibling
  · simp [climbs, red]
  · have left := balanced_childOf_black two red balanced .left
    have ends : endsAt frame = true := by
      cases isSibling : frame.sibling with
      | leaf =>
          rw [isSibling] at balanced
          exact absurd balanced (Nat.succ_ne_zero _)
      | node one brother two =>
          rw [isSibling] at left
          cases one with
          | leaf => exact absurd left (Nat.succ_ne_zero height)
          | node a b c => simp [endsAt, isSibling, BinTree.isLeaf]
    simp [climbs, ends]

/-- The brother passed in a climb. -/
private theorem climbs_spec (hue : Hue frame.item.color) (there : frame.sibling ≠ .leaf)
    (goesOn : climbs frame = true) : ∃ brother, frame.sibling = .node .leaf brother .leaf ∧
      brother.color ≠ RED ∧ endsAt frame = false ∧ frame.item.color = BLACK := by
  obtain ⟨side, parent, sibling⟩ := frame
  cases sibling with
  | leaf => exact absurd rfl there
  | node left brother right =>
      simp only [climbs, Bool.and_eq_true, Bool.not_eq_true', decide_eq_false_iff_not] at goesOn
      have ⟨notRed, notEnded⟩ := goesOn
      obtain ⟨rfl, rfl, parentBlack⟩ := endsAt_eq_false.mp notEnded
      exact ⟨brother, rfl, notRed, notEnded, hue.black_of_not_red parentBlack⟩

/-! ### What is left -/

theorem colored_remove {after : BinTree Cell} (colored : Colored (trail.plug (.node left cell right)))
    (few : left = .leaf ∨ right = .leaf) (removed : remove (.node left cell right) trail = some after) :
    Colored after := by
  cases keeps : keepsRest (.node left cell right) trail with
  | true =>
      have ⟨other, removedAgain, isColored, _⟩ := remove_of_keepsRest colored few keeps
      rw [removed] at removedAgain
      obtain rfl := Option.some.inj removedAgain
      exact isColored
  | false =>
      rcases (remove_of_not_keepsRest keeps).2 with isLost | faults
      · rw [removed] at isLost
        obtain rfl := Option.some.inj isLost
        exact ⟨id, trivial⟩
      · rw [removed] at faults
        contradiction

/-- An only child in a balanced tree is red and gets the colour of its parent. -/
private theorem balanced_onlyChild {child : BinTree Cell} (isNode : child ≠ .leaf) (hue : Hue cell.color)
    (two : TwoColored child) (noRedRed : cell.color = RED → ¬ isRed child) (isChild : Balanced child 0)
    (isHeight : height = black cell.color) : Balanced (paint BLACK child) height := by
  have red := (leaf_or_red two isChild).resolve_left isNode
  have isBlack := hue.black_of_not_red fun isRed => noRedRed isRed red
  rw [isHeight, isBlack]
  have painted := balanced_paint isChild red BLACK
  rw [Nat.zero_add] at painted
  exact painted

private theorem balanced_promoted (two : TwoColored (.node left cell right))
    (noRedRed : NoRedRed (.node left cell right)) (few : left = .leaf ∨ right = .leaf)
    (hasChild : ¬ (left = .leaf ∧ right = .leaf)) (balanced : Balanced (.node left cell right) height) :
    Balanced (promoted left right) height := by
  have ⟨hue, twoLeft, twoRight⟩ := two
  have ⟨below, isLeft, isRight, isHeight⟩ := balanced
  have belowZero : below = 0 := by
    rcases few with noLeft | noRight
    · rw [noLeft] at isLeft
      exact isLeft
    · rw [noRight] at isRight
      exact isRight
  rw [belowZero] at isLeft isRight isHeight
  rw [Nat.zero_add] at isHeight
  cases left with
  | leaf =>
      rw [promoted]
      exact balanced_onlyChild (fun isLeaf => hasChild ⟨rfl, isLeaf⟩) hue twoRight
        (fun red => (noRedRed.1 red).2) isRight isHeight
  | node a b c =>
      exact balanced_onlyChild (by simp) hue twoLeft (fun red => (noRedRed.1 red).1) isLeft isHeight

/-- The unlinking of a black leaf below the root. -/
private theorem remove_below (two : TwoColoredTrail (frame :: rest)) (ruled : Ruled (frame :: rest) False)
    (balanced : BalancedTrail (frame :: rest) (0 + 1)) (notRed : cell.color ≠ RED) :
    ∃ after, remove (.node .leaf cell .leaf) (frame :: rest) = some after ∧
      ((∃ height, Balanced after height) ↔
        keepsBalance (.node .leaf cell .leaf) (frame :: rest) = true) := by
  obtain ⟨hue, twoSibling, twoRest⟩ := two
  have isSibling := balanced.1
  have higher := balanced.2
  have single {trail : Trail Cell} :
      (∃ height, Balanced (trail.plug .leaf) height) ↔ BalancedTrail trail 0 := by
    rw [balanced_plug]
    exact ⟨fun ⟨height, isLeaf, above⟩ => isLeaf ▸ above, fun above => ⟨0, rfl, above⟩⟩
  simp only [remove, if_neg notRed, keepsBalance, decide_eq_false notRed, Bool.false_or]
  cases goesOn : climbs frame with
  | false =>
      obtain ⟨ends, level⟩ := balancedTrail_mend_iff twoSibling ruled goesOn balanced
      obtain ⟨twoOuter, outer⟩ := balanced_outer twoSibling ruled.2.1 isSibling
      refine ⟨_, if_pos ends, ?_⟩
      rw [single, level]
      exact iff_of_true (leaf_or_red twoOuter outer) rfl
  | true =>
      have there : frame.sibling ≠ .leaf := by
        intro isLeaf
        rw [isLeaf] at isSibling
        exact absurd isSibling (Nat.succ_ne_zero 0)
      obtain ⟨brother, isBrother, brotherBlack, notEnded, parentBlack⟩ := climbs_spec hue there goesOn
      have siblingBlack : ¬ isRed frame.sibling := by
        rw [isBrother]
        exact brotherBlack
      have isNode : frame.sibling.isLeaf = false := by
        rw [isBrother]
        rfl
      cases rest with
      | nil =>
          have notMended : mends [frame] = false := by
            rw [mends, if_neg siblingBlack, notEnded, isNode]
            rfl
          have isLost : loses [frame] = true := by
            simp [loses, siblingBlack, notEnded, isNode]
          refine ⟨.leaf, ?_, iff_of_true ⟨0, rfl⟩ rfl⟩
          rw [notMended, isLost]
          rfl
      | cons upper top =>
          obtain ⟨hueUpper, twoUpper, _⟩ := twoRest
          rw [parentBlack] at higher
          have stops := climbs_above twoUpper higher.1
          have ruledAbove : Ruled (upper :: top) False := ruled.2.2.mono False.elim
          obtain ⟨ends, level⟩ := balancedTrail_mend_iff twoUpper ruledAbove stops higher
          obtain ⟨_, outer⟩ := balanced_outer twoUpper ruledAbove.2.1 higher.1
          have outerNode : childOf upper.side.other (brotherOf upper) ≠ .leaf := by
            intro isLeaf
            rw [isLeaf] at outer
            exact absurd outer (Nat.succ_ne_zero 0)
          have endsBelow : mends (frame :: upper :: top) = true := by
            rw [mends, if_neg siblingBlack, notEnded, isNode, ends]
            rfl
          have isMend : mend (frame :: upper :: top) =
              ⟨frame.side, frame.item, paint RED frame.sibling⟩ :: mend (upper :: top) := by
            rw [mend]
            simp only [isBrother, if_neg brotherBlack, notEnded]
            rfl
          refine ⟨_, if_pos endsBelow, ?_⟩
          rw [single, isMend, BalancedTrail, parentBlack, isBrother]
          have painted : Balanced (paint RED (.node .leaf brother .leaf)) 0 := ⟨0, rfl, rfl, rfl⟩
          rw [and_iff_right painted, show 0 + black BLACK = 0 + 1 from rfl, level, or_iff_right outerNode]
          simp [evens]

/-- In a balanced tree a deletion always leaves a tree, and exactly if it keeps the balance
this is balanced. -/
theorem remove_balanced_iff (two : TwoColored (trail.plug (.node left cell right)))
    (colored : Colored (trail.plug (.node left cell right)))
    (balanced : ∃ height, Balanced (trail.plug (.node left cell right)) height)
    (few : left = .leaf ∨ right = .leaf) :
    ∃ after, remove (.node left cell right) trail = some after ∧
      ((∃ height, Balanced after height) ↔ keepsBalance (.node left cell right) trail = true) := by
  have ⟨twoHere, twoAbove⟩ := twoColored_plug.mp two
  have ⟨noRedRed, ruled⟩ := colored_plug.mp colored
  have ⟨height, isHere, isAbove⟩ := balanced_plug.mp balanced
  by_cases childless : left = .leaf ∧ right = .leaf
  · obtain ⟨rfl, rfl⟩ := childless
    have ⟨below, isLeft, _, isHeight⟩ := isHere
    obtain rfl : below = 0 := isLeft
    rw [Nat.zero_add] at isHeight
    by_cases red : cell.color = RED
    · rw [red, black_RED] at isHeight
      rw [isHeight] at isAbove
      refine ⟨trail.plug .leaf, ?_, iff_of_true ?_ ?_⟩
      · rw [remove, if_pos red]
      · exact balanced_plug.mpr ⟨0, rfl, isAbove⟩
      · cases trail with
        | nil => rfl
        | cons frame rest => simp [keepsBalance, red]
    · rw [twoHere.1.black_of_not_red red] at isHeight
      cases trail with
      | nil =>
          refine ⟨.leaf, ?_, iff_of_true ⟨0, rfl⟩ rfl⟩
          rw [remove, if_neg red]
          rfl
      | cons frame rest =>
          rw [isHeight] at isAbove
          exact remove_below twoAbove (ruled.mono False.elim) isAbove red
  · have isPromoted := balanced_promoted twoHere noRedRed few childless isHere
    have balancedAfter := balanced_plug.mpr ⟨height, isPromoted, isAbove⟩
    cases left with
    | leaf =>
        cases right with
        | leaf => exact absurd ⟨rfl, rfl⟩ childless
        | node d e f => exact ⟨_, rfl, iff_of_true balancedAfter rfl⟩
    | node a b c => exact ⟨_, rfl, iff_of_true balancedAfter rfl⟩

theorem ordered_remove {key : Int32} {after : BinTree Cell} (ordered : tree.Ordered keyOf)
    (isSpot : spot tree key = (.node left cell right, trail))
    (colored : Colored (trail.plug (.node left cell right)))
    (removed : remove (.node left cell right) trail = some after) : after.Ordered keyOf := by
  have few := (spot_alike isSpot).1
  cases keeps : keepsRest (.node left cell right) trail with
  | true =>
      have ⟨other, removedAgain, _, sameRecords⟩ := remove_of_keepsRest colored few keeps
      rw [removed] at removedAgain
      obtain rfl := Option.some.inj removedAgain
      have ⟨smaller, found, greater, isTree, isLeft⟩ := spot_entries isSpot
      rw [← entries_of_records sameRecords] at isLeft
      rw [ordered_iff_entries, isTree] at ordered
      rw [ordered_iff_entries, isLeft]
      exact ordered.sublist (List.Sublist.append_left (List.sublist_cons_self _ _) smaller)
  | false =>
      rcases (remove_of_not_keepsRest keeps).2 with isLost | faults
      · rw [removed] at isLost
        obtain rfl := Option.some.inj isLost
        exact List.Pairwise.nil
      · rw [removed] at faults
        contradiction

/-! ### The red-black invariant -/

/-- Without the ordering of the keys. -/
structure Balancing (tree : BinTree Cell) : Prop where
  blackRoot : BlackRoot tree
  noRedRed : NoRedRed tree
  balanced : ∃ height, Balanced tree height

theorem blackRoot_of_colored (two : TwoColored tree) (colored : Colored tree) : BlackRoot tree := by
  cases tree with
  | leaf => trivial
  | node left cell right => exact two.1.black_of_not_red colored.1

end

/-- A deletion in this state keeps the tree balanced. -/
def KeepsBalance (T : Rbtree) : Call → Prop
  | .insert _ _ => True
  | .delete key => keepsBalance (spot T.tree key).1 (spot T.tree key).2 = true

instance (T : Rbtree) : (call : Call) → Decidable (KeepsBalance T call)
  | .insert _ _ => inferInstanceAs (Decidable True)
  | .delete _ => inferInstanceAs (Decidable (_ = true))

section

variable {nil : Ground} {T : Rbtree} {tree : BinTree Cell} {key : Int32}

/-- What `rbtree_delete` leaves of a red-black tree. -/
theorem rbtreeDelete_present (focus : Focus T nil [] tree) (redBlack : RedBlack tree)
    (two : TwoColored tree) (present : ∃ cell ∈ tree.toList, cell.key = key) :
    ∃ next after, rbtreeDelete T key = some (next, 0) ∧ Focus next nil [] after ∧
      after.Ordered keyOf ∧ Colored after ∧ TwoColored after ∧
      ((∃ height, Balanced after height) ↔ KeepsBalance T (.delete key)) := by
  have ⟨left, cell, right, trail, isSpot⟩ := spot_isNode redBlack.ordered present
  have ⟨few, alike⟩ := spot_alike isSpot
  have colored := alike.colored redBlack.colored
  have twoColored := alike.twoColored two
  have balanced : ∃ height, Balanced (trail.plug (.node left cell right)) height := by
    have ⟨height, isBalanced⟩ := redBlack.balanced
    exact ⟨height, alike.balanced isBalanced⟩
  have ⟨after, removed, balance⟩ := remove_balanced_iff twoColored colored balanced few
  have deletes := rbtreeDelete_spec focus redBlack.colored isSpot (by simp [removed])
  rw [removed] at deletes
  have ⟨next, deleted, focusNext, _⟩ := deletes
  refine ⟨next, after, deleted, focusNext, ordered_remove redBlack.ordered isSpot colored removed,
    colored_remove colored few removed, twoColored_remove twoColored removed, ?_⟩
  rw [balance, KeepsBalance, focus.tree_eq, isSpot]

/-- `rbtree_delete` of a key that is there keeps the colour rules and the balance of a
red-black tree exactly if the fix-up evens out. -/
theorem rbtreeDelete_balancing_iff (focus : Focus T nil [] tree) (redBlack : RedBlack tree)
    (two : TwoColored tree) (present : ∃ cell ∈ tree.toList, cell.key = key) :
    ∃ next after, rbtreeDelete T key = some (next, 0) ∧ Focus next nil [] after ∧
      (Balancing after ↔ KeepsBalance T (.delete key)) := by
  have ⟨next, after, deleted, focusNext, _, colored, twoAfter, balance⟩ :=
    rbtreeDelete_present focus redBlack two present
  refine ⟨next, after, deleted, focusNext, ?_⟩
  rw [← balance]
  constructor
  · intro balancing
    exact balancing.balanced
  · intro balanced
    exact ⟨blackRoot_of_colored twoAfter colored, colored.2, balanced⟩

/-! ### Runs -/

/-- The states in which no call can follow a null pointer. -/
structure Sound (nil : Ground) (T : Rbtree) (tree : BinTree Cell) : Prop where
  focus : Focus T nil [] tree
  redBlack : RedBlack tree
  twoColored : TwoColored tree

theorem Sound.insert (sound : Sound nil T tree) (key : Int32) (value : Nat) :
    ∃ next grown, step T (.insert key value) = some (next, [.inserted key value]) ∧
      Sound nil next grown := by
  obtain ⟨focus, redBlack, two⟩ := sound
  have ⟨next, steps, present, absent⟩ := step_insert focus redBlack.ordered redBlack.colored key value
  by_cases isIn : ∃ cell ∈ tree.toList, cell.key = key
  · exact ⟨next, tree, steps, present isIn, redBlack, two⟩
  · have isAbsent : ∀ cell ∈ tree.toList, cell.key ≠ key := by
      intro cell member same
      exact isIn ⟨cell, member, same⟩
    have ⟨trail, whole, before, after, focusNext⟩ := absent isAbsent
    rw [← whole] at redBlack two
    have ⟨_, twoTrail⟩ := twoColored_plug.mp two
    refine ⟨next, _, steps, focusNext, redBlack_settle redBlack rfl before after, ?_⟩
    exact twoColored_settle ⟨hue_RED, trivial, trivial⟩ twoTrail

theorem Sound.delete (sound : Sound nil T tree) {key : Int32} (keeps : KeepsBalance T (.delete key)) :
    ∃ next after result, step T (.delete key) = some (next, [.deleted key result]) ∧
      Sound nil next after := by
  obtain ⟨focus, redBlack, two⟩ := sound
  by_cases isIn : ∃ cell ∈ tree.toList, cell.key = key
  · have ⟨next, after, deleted, focusNext, ordered, colored, twoAfter, balance⟩ :=
      rbtreeDelete_present focus redBlack two isIn
    have redBlackAfter : RedBlack after :=
      ⟨ordered, blackRoot_of_colored twoAfter colored, colored.2, balance.mpr keeps⟩
    refine ⟨next, after, 0, ?_, focusNext, redBlackAfter, twoAfter⟩
    simp only [step, deleted, Option.bind_eq_bind, Option.bind_some]
    rfl
  · have absent : ∀ cell ∈ tree.toList, cell.key ≠ key := by
      intro cell member same
      exact isIn ⟨cell, member, same⟩
    have stays := rbtreeDelete_absent focus redBlack.ordered absent
    refine ⟨T, tree, -1, ?_, focus, redBlack, two⟩
    simp only [step, stays, Option.bind_eq_bind, Option.bind_some]
    rfl

theorem Sound.step (sound : Sound nil T tree) {call : Call} (keeps : KeepsBalance T call) :
    ∃ next event after, RbTree.step T call = some (next, [event]) ∧ Sound nil next after := by
  cases call with
  | insert key value =>
      have ⟨next, grown, steps, soundNext⟩ := sound.insert key value
      exact ⟨next, _, grown, steps, soundNext⟩
  | delete key =>
      have ⟨next, after, result, steps, soundNext⟩ := sound.delete keeps
      exact ⟨next, _, after, steps, soundNext⟩

theorem sound_rbtreeCreate : Sound createdNil rbtreeCreate .leaf where
  focus := focus_rbtreeCreate
  redBlack := ⟨List.Pairwise.nil, trivial, trivial, 0, rfl⟩
  twoColored := trivial

end

/-- The state of a run whose deletions keep the balance. -/
theorem sound_of_keepsBalance {calls : List Call} (keeps : machine.Guarded KeepsBalance calls) :
    ∃ T events tree, machine.Exec calls T events ∧ Sound createdNil T tree := by
  induction calls using List.reverseRecOn with
  | nil => exact ⟨rbtreeCreate, [], .leaf, .start, sound_rbtreeCreate⟩
  | append_singleton calls call inductionHypothesis =>
      have ⟨earlier, atEnd⟩ := Machine.guarded_snoc_iff.mp keeps
      have ⟨T, events, tree, exec, sound⟩ := inductionHypothesis earlier
      have ⟨next, event, after, taken, soundNext⟩ := sound.step (atEnd T events exec)
      exact ⟨next, _, after, exec.step taken, soundNext⟩

/-- In a run whose deletions keep the balance no call follows a null pointer: the run goes
on to its end, and every state passed through holds a red-black tree. -/
theorem completes_of_keepsBalance (calls : List Call) (keeps : machine.Guarded KeepsBalance calls) :
    machine.Completes (fun T _ => ∃ tree, Sound createdNil T tree) calls := by
  have ⟨T, events, tree, exec, _⟩ := sound_of_keepsBalance keeps
  refine ⟨⟨T, events, exec⟩, @Machine.Guarded.always _ _ _ machine
    (fun T _ => ∃ tree, Sound createdNil T tree) KeepsBalance ?_ ?_ calls keeps⟩
  · exact ⟨.leaf, sound_rbtreeCreate⟩
  · intro before T events call next shown _ isSound keepsHere taken
    have ⟨tree, sound⟩ := isSound
    have ⟨other, event, after, takenAgain, soundNext⟩ := sound.step keepsHere
    obtain ⟨rfl, rfl⟩ := Prod.mk.inj (Option.some.inj (taken.symm.trans takenAgain))
    exact ⟨after, soundNext⟩

/-! ### A deletion that does not even out -/

/-- Seven nodes are left, all of them black. -/
def sevenBlack : List Call :=
  [.insert 1 10, .insert 2 20, .insert 3 30, .insert 4 40, .insert 5 50, .insert 6 60, .insert 7 70,
    .insert 8 80, .insert 9 90, .insert 10 100, .delete 5, .delete 6, .delete 9]

private theorem sevenBlack_sound : ∃ tree, Sound createdNil
    ((machine.run sevenBlack).get (by decide +kernel)).1 tree := by
  have keeps : machine.Guarded KeepsBalance sevenBlack := Machine.guarded_of_meets (by decide +kernel)
  have ⟨T, events, tree, exec, sound⟩ := sound_of_keepsBalance keeps
  have isLast := exec.functional (machine.exec_of_isSome sevenBlack (by decide +kernel))
  rw [isLast.1] at sound
  exact ⟨tree, sound⟩

/-- The fix-up climbs to the brother of the parent, whose children are black. -/
theorem sevenBlack_not_balancing : ∃ T tree next after, Focus T createdNil [] tree ∧ RedBlack tree ∧
    TwoColored tree ∧ (∃ cell ∈ tree.toList, cell.key = 1) ∧ rbtreeDelete T 1 = some (next, 0) ∧
    Focus next createdNil [] after ∧ ¬ Balancing after := by
  have ⟨tree, focus, redBlack, two⟩ := sevenBlack_sound
  have present : ∃ cell ∈ tree.toList, cell.key = 1 := by
    rw [← focus.tree_eq]
    decide +kernel
  have ⟨next, after, deleted, focusNext, _, _, _, balance⟩ :=
    rbtreeDelete_present focus redBlack two present
  refine ⟨_, tree, next, after, focus, redBlack, two, present, deleted, focusNext, ?_⟩
  intro balancing
  exact absurd (balance.mp balancing.balanced) (by decide +kernel)

/-- The key beside the leftmost one is deleted instead. -/
theorem sevenBlack_balancing_iff : ∃ T next after, rbtreeDelete T 2 = some (next, 0) ∧
    Focus next createdNil [] after ∧ (Balancing after ↔ KeepsBalance T (.delete 2)) := by
  have ⟨tree, focus, redBlack, two⟩ := sevenBlack_sound
  have present : ∃ cell ∈ tree.toList, cell.key = 2 := by
    rw [← focus.tree_eq]
    decide +kernel
  exact ⟨_, rbtreeDelete_balancing_iff focus redBlack two present⟩

theorem sevenBlack_completes :
    machine.Completes (fun T _ => ∃ tree, Sound createdNil T tree) sevenBlack :=
  completes_of_keepsBalance sevenBlack (Machine.guarded_of_meets (by decide +kernel))

/-- After two more deletions a black node without a brother has to be unlinked, and the
fix-up writes through the null links of `T->nil`. -/
theorem sevenBlack_faults : ∃ T events, machine.Exec (sevenBlack ++ [.delete 1, .delete 10]) T events ∧
    (∃ cell frame rest, spot T.tree 4 = (.node .leaf cell .leaf, frame :: rest) ∧ cell.color = BLACK ∧
      frame.sibling = .leaf) ∧
    machine.step T (.delete 4) = none := by
  have ran := machine.exec_of_isSome (sevenBlack ++ [.delete 1, .delete 10]) (by decide +kernel)
  refine ⟨_, _, ran, ⟨⟨7, BLACK, 4, 40⟩, ⟨.left, ⟨8, BLACK, 8, 80⟩, .leaf⟩,
    [⟨.right, ⟨4, BLACK, 7, 70⟩, .node .leaf ⟨2, BLACK, 2, 20⟩ (.node .leaf ⟨3, RED, 3, 30⟩ .leaf)⟩],
    ?_, rfl, rfl⟩, ?_⟩
  · decide +kernel
  · decide +kernel

end SimpleBasicComponents.RbTree
