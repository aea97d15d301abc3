import Mathlib.Data.List.Infix

/-!
Walks up and down a tree of names.

A walk starts somewhere and moves: into what has a name, up to what is around, or
not at all. Where it ends is said relative to the start: how many levels above it
the walk has been at the highest, and the names from there to the end, innermost
first. Owns: how a walk from inside some names goes, and when it never gets above
its start.
-/

namespace SimpleBasicComponents.Semantics

inductive Move (Name : Type*) where
  | stay
  | up
  | into (name : Name)
deriving DecidableEq, Repr

structure Place (Name : Type*) where
  ups : Nat
  names : List Name
deriving DecidableEq, Repr

variable {Name : Type*}

def Place.move (place : Place Name) : Move Name → Place Name
  | .stay => place
  | .up =>
      match place.names with
      | [] => ⟨place.ups + 1, []⟩
      | _ :: around => ⟨place.ups, around⟩
  | .into name => ⟨place.ups, name :: place.names⟩

def walk (place : Place Name) (moves : List (Move Name)) : Place Name := moves.foldl Place.move place

/-- From where no names have been passed. -/
def walked (moves : List (Move Name)) : Place Name := walk ⟨0, []⟩ moves

theorem walk_append (place : Place Name) (first second : List (Move Name)) :
    walk place (first ++ second) = walk (walk place first) second := List.foldl_append

theorem walked_snoc (moves : List (Move Name)) (move : Move Name) :
    walked (moves ++ [move]) = (walked moves).move move := walk_append _ _ _

/-- The names around the start are used up by going above it. -/
theorem walk_inside (around : List Name) (moves : List (Move Name)) :
    walk ⟨0, around⟩ moves =
      ⟨(walked moves).ups - around.length, (walked moves).names ++ around.drop (walked moves).ups⟩ := by
  induction moves using List.reverseRecOn with
  | nil => simp [walked, walk]
  | append_singleton moves move inductionHypothesis =>
      rw [walk_append, inductionHypothesis, walked_snoc]
      generalize walked moves = place
      obtain ⟨ups, names⟩ := place
      cases move with
      | stay => rfl
      | into name => rfl
      | up =>
          cases names with
          | cons name names => rfl
          | nil =>
              by_cases above : ups < around.length
              · have next := List.drop_eq_getElem_cons above
                simp only [walk, List.foldl_cons, List.foldl_nil, Place.move, List.nil_append, next,
                  Place.mk.injEq, and_true]
                omega
              · have nothing : around.drop ups = [] := List.drop_of_length_le (Nat.le_of_not_lt above)
                have still : around.drop (ups + 1) = [] := List.drop_of_length_le (by omega)
                simp only [walk, List.foldl_cons, List.foldl_nil, Place.move, List.nil_append, nothing,
                  still, Place.mk.injEq, and_true]
                omega

def Move.isUp : Move Name → Bool
  | .up => true
  | _ => false

def Move.isInto : Move Name → Bool
  | .into _ => true
  | _ => false

/-- Every move up is one above the start or out of a name. -/
theorem walked_balance (moves : List (Move Name)) :
    moves.countP Move.isUp + (walked moves).names.length =
      moves.countP Move.isInto + (walked moves).ups := by
  induction moves using List.reverseRecOn with
  | nil => rfl
  | append_singleton moves move inductionHypothesis =>
      rw [walked_snoc, List.countP_append, List.countP_append]
      generalize walked moves = place at inductionHypothesis
      obtain ⟨ups, names⟩ := place
      cases move with
      | stay => simpa [Place.move, Move.isUp, Move.isInto] using inductionHypothesis
      | into name =>
          simp only [Place.move, Move.isUp, Move.isInto, List.countP_singleton, List.length_cons,
            if_true, Bool.false_eq_true, if_false] at inductionHypothesis ⊢
          omega
      | up =>
          cases names with
          | nil =>
              simp only [Place.move, Move.isUp, Move.isInto, List.countP_singleton, if_true,
                Bool.false_eq_true, if_false, List.length_nil] at inductionHypothesis ⊢
              omega
          | cons name names =>
              simp only [Place.move, Move.isUp, Move.isInto, List.countP_singleton, if_true,
                Bool.false_eq_true, if_false, List.length_cons] at inductionHypothesis ⊢
              omega

/-- No part of the walk from its start goes up more often than into something. -/
def StaysBelow (moves : List (Move Name)) : Prop :=
  ∀ front, front <+: moves → front.countP Move.isUp ≤ front.countP Move.isInto

theorem ups_eq_zero_iff (moves : List (Move Name)) : (walked moves).ups = 0 ↔ StaysBelow moves := by
  induction moves using List.reverseRecOn with
  | nil =>
      refine iff_of_true rfl fun front isPrefix => ?_
      obtain rfl := List.prefix_nil.mp isPrefix
      exact Nat.le_refl 0
  | append_singleton moves move inductionHypothesis =>
      have balance := walked_balance moves
      have balanceNow := walked_balance (moves ++ [move])
      have grows : (walked moves).ups ≤ (walked (moves ++ [move])).ups := by
        rw [walked_snoc]
        generalize walked moves = place
        obtain ⟨ups, names⟩ := place
        cases move with
        | stay => exact Nat.le_refl _
        | into name => exact Nat.le_refl _
        | up => cases names <;> simp [Place.move]
      constructor
      · intro below front isPrefix
        rcases List.prefix_concat_iff.mp isPrefix with rfl | shorter
        · rw [below] at balanceNow
          omega
        · exact inductionHypothesis.mp (by omega) front shorter
      · intro stays
        have before := inductionHypothesis.mpr fun front isPrefix =>
          stays front (isPrefix.trans (List.prefix_append _ _))
        have now := stays _ List.prefix_rfl
        rw [walked_snoc] at balanceNow ⊢
        generalize walked moves = place at before balance balanceNow
        obtain ⟨ups, names⟩ := place
        cases move with
        | stay => exact before
        | into name => exact before
        | up =>
            cases names with
            | cons name names => exact before
            | nil =>
                simp only [Place.move, List.length_nil] at balanceNow before
                omega

end SimpleBasicComponents.Semantics
