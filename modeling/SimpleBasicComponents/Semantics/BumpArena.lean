import Mathlib.Data.List.Basic

/-!
An arena of regions that are handed out from their first byte upwards.

A region has a cursor between its first byte and its end; handing out a range
moves the cursor to the end of that range. `Tiled` says what such an arena
keeps: the cursors stay inside, the regions do not meet, and the ranges handed
out lie below the cursors and do not meet either. `Tiled.carve`, `Tiled.extend`
and `Tiled.rewind` are its rules.
-/

namespace SimpleBasicComponents.Semantics

/-- The bytes from `start` on, `size` of them. -/
structure Range where
  start : Nat
  size : Nat
deriving DecidableEq, Repr

namespace Range

def stop (range : Range) : Nat := range.start + range.size

/-- The ranges have no byte in common. -/
def Apart (left right : Range) : Prop :=
  left.size = 0 ∨ right.size = 0 ∨ left.stop ≤ right.start ∨ right.stop ≤ left.start

instance (left right : Range) : Decidable (left.Apart right) := by
  unfold Apart
  infer_instance

def Within (inner outer : Range) : Prop := outer.start ≤ inner.start ∧ inner.stop ≤ outer.stop

theorem Apart.symm {left right : Range} (apart : left.Apart right) : right.Apart left := by
  unfold Apart at apart ⊢
  omega

theorem Apart.within {left right inner : Range} (apart : left.Apart right)
    (inside : inner.Within left) : inner.Apart right := by
  unfold Apart Within stop at *
  omega

end Range

/-- A region of memory and how much of it has been handed out. -/
structure Region where
  first : Nat
  cursor : Nat
  stop : Nat
deriving DecidableEq, Repr

namespace Region

def Ordered (region : Region) : Prop := region.first ≤ region.cursor ∧ region.cursor ≤ region.stop

instance (region : Region) : Decidable region.Ordered := by
  unfold Ordered
  infer_instance

def Apart (left right : Region) : Prop := left.stop ≤ right.first ∨ right.stop ≤ left.first

theorem Apart.symm {left right : Region} (apart : left.Apart right) : right.Apart left :=
  Or.symm apart

/-- The range lies in what the region has handed out. -/
def Covers (region : Region) (range : Range) : Prop :=
  region.first ≤ range.start ∧ range.stop ≤ region.cursor

def advance (region : Region) (cursor : Nat) : Region := { region with cursor := cursor }

def rewind (region : Region) : Region := { region with cursor := region.first }

end Region

/-- The regions do not meet, and neither do the ranges handed out of them. -/
structure Tiled (regions : List Region) (handed : List Range) : Prop where
  ordered : ∀ region ∈ regions, region.Ordered
  apart : regions.Pairwise Region.Apart
  covered : ∀ range ∈ handed, ∃ region ∈ regions, region.Covers range
  disjoint : handed.Pairwise Range.Apart

namespace Tiled

variable {front back regions : List Region} {region : Region} {handed : List Range}

private theorem apart_of_mem (tiled : Tiled (front ++ region :: back) handed) {other : Region}
    (member : other ∈ front ∨ other ∈ back) : other.Apart region := by
  have pairs := List.pairwise_append.mp tiled.apart
  cases member with
  | inl inFront => exact pairs.2.2 other inFront region List.mem_cons_self
  | inr inBack => exact ((List.pairwise_cons.mp pairs.2.1).1 other inBack).symm

/-- Handing out a range at or above the cursor of one region. -/
theorem carve (tiled : Tiled (front ++ region :: back) handed) (range : Range)
    (above : region.cursor ≤ range.start) (fits : range.stop ≤ region.stop) :
    Tiled (front ++ region.advance range.stop :: back) (range :: handed) := by
  have here : region.Ordered := tiled.ordered region (by simp)
  have grows : region.cursor ≤ range.stop := by
    unfold Range.stop
    omega
  refine ⟨?_, ?_, ?_, ?_⟩
  · intro other member
    rw [List.mem_append, List.mem_cons] at member
    rcases member with inFront | rfl | inBack
    · exact tiled.ordered other (by simp [inFront])
    · exact ⟨Nat.le_trans here.1 grows, fits⟩
    · exact tiled.ordered other (by simp [inBack])
  · have pairs := List.pairwise_append.mp tiled.apart
    have later := List.pairwise_cons.mp pairs.2.1
    refine List.pairwise_append.mpr ⟨pairs.1, List.pairwise_cons.mpr ⟨later.1, later.2⟩, ?_⟩
    intro left inFront right member
    cases List.mem_cons.mp member with
    | inl same =>
        subst same
        exact pairs.2.2 left inFront region List.mem_cons_self
    | inr inBack => exact pairs.2.2 left inFront right (List.mem_cons_of_mem _ inBack)
  · intro other member
    cases List.mem_cons.mp member with
    | inl same =>
        subst same
        exact ⟨region.advance other.stop, by simp, Nat.le_trans here.1 above, Nat.le_refl _⟩
    | inr earlier =>
        have ⟨owner, isRegion, covers⟩ := tiled.covered other earlier
        rw [List.mem_append, List.mem_cons] at isRegion
        rcases isRegion with inFront | rfl | inBack
        · exact ⟨owner, by simp [inFront], covers⟩
        · exact ⟨owner.advance range.stop, by simp, covers.1, Nat.le_trans covers.2 grows⟩
        · exact ⟨owner, by simp [inBack], covers⟩
  · refine List.pairwise_cons.mpr ⟨?_, tiled.disjoint⟩
    intro other member
    have ⟨owner, isRegion, covers⟩ := tiled.covered other member
    -- what was handed out of this region is below its cursor; the other regions do not meet it
    have apart : owner = region ∨ owner.Apart region := by
      rw [List.mem_append, List.mem_cons] at isRegion
      rcases isRegion with inFront | same | inBack
      · exact .inr (apart_of_mem tiled (.inl inFront))
      · exact .inl same
      · exact .inr (apart_of_mem tiled (.inr inBack))
    have ordered : owner.Ordered := tiled.ordered owner isRegion
    unfold Range.Apart
    unfold Region.Covers at covers
    unfold Region.Ordered at ordered here
    cases apart with
    | inl same =>
        subst same
        omega
    | inr apart =>
        unfold Region.Apart at apart
        omega

/-- A further region that meets none of the others. -/
theorem extend (tiled : Tiled regions handed) (region : Region) (ordered : region.Ordered)
    (apart : ∀ other ∈ regions, other.Apart region) : Tiled (regions ++ [region]) handed := by
  refine ⟨?_, ?_, ?_, tiled.disjoint⟩
  · intro other member
    cases List.mem_append.mp member with
    | inl earlier => exact tiled.ordered other earlier
    | inr last =>
        rw [List.mem_singleton.mp last]
        exact ordered
  · refine List.pairwise_append.mpr ⟨tiled.apart, List.pairwise_singleton _ _, ?_⟩
    intro left earlier right last
    rw [List.mem_singleton.mp last]
    exact apart left earlier
  · intro range member
    have ⟨owner, isRegion, covers⟩ := tiled.covered range member
    exact ⟨owner, List.mem_append_left _ isRegion, covers⟩

/-- All cursors go back to the first byte, and nothing counts as handed out. -/
theorem rewind (tiled : Tiled regions handed) : Tiled (regions.map Region.rewind) [] := by
  refine ⟨?_, ?_, by simp, .nil⟩
  · intro region member
    have ⟨old, isRegion, same⟩ := List.mem_map.mp member
    subst same
    have ordered := tiled.ordered old isRegion
    exact ⟨Nat.le_refl _, Nat.le_trans ordered.1 ordered.2⟩
  · exact List.pairwise_map.mpr tiled.apart

end Tiled

end SimpleBasicComponents.Semantics
