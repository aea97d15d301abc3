import SimpleBasicComponents.RbTree.Raise

/-!
What the fix-up of a deletion makes of a tree.

Owns: `mends`, the condition under which the fix-up comes to an end inside the
tree; `mend`, the trail it leaves then; and that this has the same records on
both sides and keeps the colour rule. The subtree at the end of the trail is
black and about to lose a node.
-/

namespace SimpleBasicComponents.RbTree

open SimpleBasicComponents.Semantics

/-- A black brother with a child, or a red parent: the fix-up ends here. -/
def endsAt (frame : Frame Cell) : Bool :=
  match frame.sibling with
  | .leaf => false
  | .node left _ right => !left.isLeaf || !right.isLeaf || frame.item.color = RED

theorem parent_red_of_endsAt {side : Side} {parent brother : Cell}
    (ends : endsAt ⟨side, parent, .node .leaf brother .leaf⟩ = true) : parent.color = RED := by
  simpa [endsAt, BinTree.isLeaf] using ends

/-- The fix-up ends below the root, and every brother it meets is there. The
source takes for granted that it does. -/
def mends : Trail Cell → Bool
  | [] => false
  | frame :: rest =>
      if isRed frame.sibling then !(childOf frame.side frame.sibling).isLeaf
      else endsAt frame || (!frame.sibling.isLeaf && mends rest)

/-- The climb goes on up to the root. -/
def loses : Trail Cell → Bool
  | [] => true
  | frame :: rest =>
      !decide (isRed frame.sibling) && !endsAt frame && !frame.sibling.isLeaf && loses rest

/-- The node of the frame after the child on its other side has come up. -/
def lowered (frame : Frame Cell) (child : Cell) (near : BinTree Cell) : Frame Cell :=
  ⟨frame.side, { frame.item with color := child.color }, near⟩

/-- The child that has come up. -/
def lifted (frame : Frame Cell) (child : Cell) (far : BinTree Cell) : Frame Cell :=
  ⟨frame.side, { child with color := frame.item.color }, far⟩

/-- The trail where the fix-up ends: one rotation, two, or none. -/
def ended (frame : Frame Cell) (rest : Trail Cell) : Trail Cell :=
  let near := childOf frame.side frame.sibling
  let far := childOf frame.side.other frame.sibling
  match frame.sibling, far, near with
  | .leaf, _, _ => frame :: rest
  | .node _ brother _, .node _ _ _, _ =>
      lowered frame brother near :: lifted frame brother (paint BLACK far) :: rest
  | .node _ brother _, .leaf, .node _ nephew _ =>
      lowered frame brother (childOf frame.side near) ::
        lifted frame nephew (.join frame.side.other .leaf { brother with color := BLACK }
          (childOf frame.side.other near)) :: rest
  | .node _ brother _, .leaf, .leaf =>
      ⟨frame.side, { frame.item with color := brother.color }, paint frame.item.color frame.sibling⟩ ::
        rest

/-- The trail the fix-up leaves, if it mends. -/
def mend : Trail Cell → Trail Cell
  | [] => []
  | frame :: rest =>
      match frame.sibling with
      | .leaf => frame :: rest
      | .node _ brother _ =>
          if brother.color = RED then
            ended (lowered frame brother (childOf frame.side frame.sibling))
              (lifted frame brother (childOf frame.side.other frame.sibling) :: rest)
          else if endsAt frame then ended frame rest
          else ⟨frame.side, frame.item, paint RED frame.sibling⟩ :: mend rest

section

variable {frame : Frame Cell} {rest trail other : Trail Cell} {brother nephew : Cell}
  {left right near far : BinTree Cell}

/-! ### Entries -/

/-- Both trails have the same records on either side. -/
def SameAround (one two : Trail Cell) : Prop :=
  ∀ tree, records (Trail.plug one tree) = records (Trail.plug two tree)

private theorem SameAround.cons (same : SameAround trail other) (item : Cell) {sibling new : BinTree Cell}
    (sameSibling : records new = records sibling) (side : Side) {cell : Cell}
    (sameItem : cell.record = item.record) :
    SameAround (⟨side, cell, new⟩ :: trail) (⟨side, item, sibling⟩ :: other) := by
  intro tree
  rw [Trail.plug_cons, Trail.plug_cons, same]
  exact records_plug_congr (records_join_congr rfl sameItem sameSibling) other

private theorem sameAround_rotated (side : Side) (parent lower upper : Cell)
    {newNear newFar : BinTree Cell} (sameLower : lower.record = parent.record)
    (sameUpper : upper.record = brother.record) (sameNear : records newNear = records near)
    (sameFar : records newFar = records far) :
    SameAround (⟨side, lower, newNear⟩ :: ⟨side, upper, newFar⟩ :: rest)
      (⟨side, parent, .join side near brother far⟩ :: rest) := by
  intro tree
  simp only [Trail.plug_cons]
  apply records_plug_congr
  have rotated := @records_rotate side tree near far parent brother lower upper sameLower sameUpper
  refine Eq.trans ?_ rotated
  exact records_join_congr (records_join_congr rfl rfl sameNear) rfl sameFar

theorem SameAround.refl (trail : Trail Cell) : SameAround trail trail := fun _ => rfl

theorem SameAround.trans {last : Trail Cell} (first : SameAround trail other)
    (second : SameAround other last) : SameAround trail last :=
  fun tree => (first tree).trans (second tree)

/-- The child on the side of a brother without a child on the other comes up. -/
private theorem records_nephew (side : Side) {color : UInt8} :
    records (.join side near nephew (.join side.other .leaf { brother with color } far)) =
      records (.join side (.join side near nephew far) brother .leaf) := by
  have rotated := @records_rotate side.other .leaf far near brother nephew { brother with color } nephew
    rfl rfl
  simp only [BinTree.join_other] at rotated ⊢
  exact rotated

theorem sameAround_ended (frame : Frame Cell) (rest : Trail Cell) :
    SameAround (ended frame rest) (frame :: rest) := by
  obtain ⟨side, parent, sibling⟩ := frame
  cases sibling with
  | leaf => exact .refl _
  | node left brother right =>
      have isSibling := (join_childOf side left brother right).symm
      unfold ended
      generalize childOf side (.node left brother right) = near at *
      generalize childOf side.other (.node left brother right) = far at *
      cases far with
      | node one cell two =>
          have rotated := @sameAround_rotated rest brother near (.node one cell two) side parent
            { parent with color := brother.color } { brother with color := parent.color } near _ rfl rfl
            rfl (records_paint BLACK _)
          rw [← isSibling] at rotated
          exact rotated
      | leaf =>
          cases near with
          | node one nephew two =>
              have turned := @records_nephew brother nephew (childOf side (.node one nephew two))
                (childOf side.other (.node one nephew two)) side BLACK
              rw [join_childOf, ← isSibling] at turned
              have upper := (SameAround.refl rest).cons parent turned side rfl
              refine SameAround.trans ?_ upper
              exact sameAround_rotated side parent _ _ rfl rfl rfl rfl
          | leaf => exact (SameAround.refl rest).cons parent (records_paint _ _) side rfl

/-- The fix-up keeps the records on both sides. -/
theorem sameAround_mend (trail : Trail Cell) : SameAround (mend trail) trail := by
  induction trail with
  | nil => exact .refl _
  | cons frame rest inductionHypothesis =>
      obtain ⟨side, parent, sibling⟩ := frame
      cases sibling with
      | leaf => exact .refl _
      | node left brother right =>
          simp only [mend]
          split
          · refine (sameAround_ended _ _).trans ?_
            have rotated := @sameAround_rotated rest brother (childOf side (.node left brother right))
              (childOf side.other (.node left brother right)) side parent
              { parent with color := brother.color } { brother with color := parent.color } _ _ rfl rfl
              rfl rfl
            rw [join_childOf] at rotated
            exact rotated
          · split
            · exact sameAround_ended _ _
            · exact inductionHypothesis.cons parent (records_paint _ _) side rfl

/-! ### Colours -/

theorem noRedRed_childOf {tree : BinTree Cell} (noRedRed : NoRedRed tree) (side : Side) :
    NoRedRed (childOf side tree) := by
  cases tree with
  | leaf => trivial
  | node left cell right =>
      cases side with
      | left => exact noRedRed.2.1
      | right => exact noRedRed.2.2

theorem isRed_childOf {tree : BinTree Cell} (noRedRed : NoRedRed tree) (red : isRed tree)
    (side : Side) : ¬ isRed (childOf side tree) := by
  cases tree with
  | leaf => exact id
  | node left cell right =>
      cases side with
      | left => exact (noRedRed.1 red).1
      | right => exact (noRedRed.1 red).2

theorem endsAt_eq_false {side : Side} {parent : Cell} :
    endsAt ⟨side, parent, .node left brother right⟩ = false ↔
      left = .leaf ∧ right = .leaf ∧ parent.color ≠ RED := by
  simp [endsAt, BinTree.isLeaf_iff, and_assoc]

/-- A red brother that has come up leaves a red parent with a black brother. -/
theorem ruled_turned (ruled : Ruled (frame :: rest) False) (red : isRed frame.sibling) :
    Ruled (lowered frame brother (childOf frame.side frame.sibling) ::
      lifted frame brother (childOf frame.side.other frame.sibling) :: rest) False := by
  obtain ⟨here, noRedRed, above⟩ := ruled
  have parentBlack : frame.item.color ≠ RED := fun parentRed => (here parentRed).2 red
  exact ⟨fun _ => ⟨id, isRed_childOf noRedRed red _⟩, noRedRed_childOf noRedRed _,
    fun liftedRed => absurd liftedRed parentBlack, noRedRed_childOf noRedRed _, above⟩

/-- The colour rule where the fix-up ends. -/
theorem ruled_ended (ruled : Ruled (frame :: rest) False) (black : ¬ isRed frame.sibling)
    (ends : endsAt frame = true) : Ruled (ended frame rest) False := by
  obtain ⟨side, parent, sibling⟩ := frame
  obtain ⟨here, noRedRed, above⟩ := ruled
  have isBlack : BLACK ≠ RED := by decide
  cases sibling with
  | leaf => contradiction
  | node left brother right =>
      have near := noRedRed_childOf noRedRed side
      have far := noRedRed_childOf noRedRed side.other
      have brotherBlack : brother.color ≠ RED := black
      unfold ended
      simp only
      cases isFar : childOf side.other (.node left brother right) with
      | node one cell two =>
          rw [isFar] at far
          refine ⟨fun red => absurd red brotherBlack, near, ?_, noRedRed_paint far isBlack, above⟩
          exact fun _ => ⟨brotherBlack, isBlack⟩
      | leaf =>
          cases isNear : childOf side (.node left brother right) with
          | node one nephew two =>
              rw [isNear] at near
              refine ⟨fun red => absurd red brotherBlack, noRedRed_childOf near side, ?_, ?_, above⟩
              · intro _
                exact ⟨brotherBlack, fun red => isBlack (isRed_join.mp red)⟩
              · exact noRedRed_join.mpr ⟨fun red => absurd red isBlack, trivial,
                  noRedRed_childOf near side.other⟩
          | leaf =>
              obtain ⟨rfl, rfl⟩ := leaves_of_childOf isNear isFar
              refine ⟨fun red => absurd red brotherBlack, ⟨fun _ => ⟨id, id⟩, trivial, trivial⟩, ?_⟩
              exact above.mono fun red => absurd red brotherBlack

/-- The fix-up keeps the colour rule. -/
theorem ruled_mend (ruled : Ruled trail False) (ends : mends trail = true) : Ruled (mend trail) False := by
  induction trail with
  | nil => contradiction
  | cons frame rest inductionHypothesis =>
      obtain ⟨side, parent, sibling⟩ := frame
      cases sibling with
      | leaf => contradiction
      | node left brother right =>
          obtain ⟨here, noRedRed, above⟩ := ruled
          simp only [mends] at ends
          simp only [mend]
          split
          · rename_i red
            have isRed : isRed (.node left brother right) := red
            rw [if_pos isRed] at ends
            refine ruled_ended (ruled_turned ⟨here, noRedRed, above⟩ isRed)
              (isRed_childOf noRedRed isRed side) ?_
            cases isNear : childOf side (.node left brother right) with
            | leaf => simp [isNear, BinTree.isLeaf] at ends
            | node one cell two => simp [endsAt, lowered, red]
          · rename_i black
            rw [if_neg (show ¬ isRed (.node left brother right) from black)] at ends
            split
            · rename_i endsHere
              exact ruled_ended ⟨here, noRedRed, above⟩ black endsHere
            · rename_i goesOn
              rw [Bool.not_eq_true] at goesOn
              rw [goesOn, Bool.false_or, Bool.and_eq_true] at ends
              obtain ⟨rfl, rfl, parentBlack⟩ := endsAt_eq_false.mp goesOn
              refine ⟨fun parentRed => absurd parentRed parentBlack, ?_, ?_⟩
              · exact ⟨fun _ => ⟨id, id⟩, trivial, trivial⟩
              · have higher : Ruled rest False := above.mono False.elim
                exact (inductionHypothesis higher ends.2).mono fun red => absurd red parentBlack

end

end SimpleBasicComponents.RbTree
