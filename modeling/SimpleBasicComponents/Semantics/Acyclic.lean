import Mathlib.Data.Fintype.Card
import Mathlib.Data.Set.Card
import Mathlib.Logic.Relation
import Mathlib.Order.WellFounded

/-!
Walks in a finite part of a graph.

From a node that reaches finitely many nodes, every walk ends exactly when none of
these nodes is on a cycle. `reach_ncard_lt` counts the steps: a step out of a node
that is on no cycle leaves fewer nodes to reach.
-/

namespace SimpleBasicComponents.Semantics

open Relation

variable {Node : Type*} {leads : Node → Node → Prop} {start next : Node}

/-- What a walk from the node comes to. -/
def reach (leads : Node → Node → Prop) (start : Node) : Set Node :=
  {node | ReflTransGen leads start node}

/-- No node that is reached is on a cycle. -/
def Acyclic (leads : Node → Node → Prop) (start : Node) : Prop :=
  ∀ node ∈ reach leads start, ¬ TransGen leads node node

theorem Acyclic.step (acyclic : Acyclic leads start) (step : leads start next) :
    Acyclic leads next :=
  fun node reached => acyclic node (.head step reached)

theorem reach_step_subset (step : leads start next) : reach leads next ⊆ reach leads start :=
  fun _ reached => .head step reached

theorem acyclic_of_acc (ends : Acc (fun next node => leads node next) start) :
    Acyclic leads start := by
  induction ends with
  | intro start _ inductionHypothesis =>
      intro node reached cycle
      cases reached.cases_head with
      | inl same =>
          subst same
          obtain ⟨next, step, back⟩ := (TransGen.head'_iff).mp cycle
          exact inductionHypothesis next step start back cycle
      | inr further =>
          obtain ⟨next, step, rest⟩ := further
          exact inductionHypothesis next step node rest cycle

theorem acc_of_acyclic (finite : (reach leads start).Finite) (acyclic : Acyclic leads start) :
    Acc (fun next node => leads node next) start := by
  have isFinite : Finite (reach leads start) := finite.to_subtype
  let later (left right : reach leads start) : Prop := TransGen leads right.val left.val
  have transitive : IsTrans (reach leads start) later :=
    ⟨fun _ _ _ first second => second.trans first⟩
  have irreflexive : Std.Irrefl later := ⟨fun node cycle => acyclic node.val node.property cycle⟩
  have wellFounded : WellFounded later := Finite.wellFounded_of_trans_of_irrefl later
  have all (node : reach leads start) : Acc (fun next node => leads node next) node.val := by
    induction node using wellFounded.induction with
    | _ node inductionHypothesis =>
        refine ⟨_, ?_⟩
        intro next step
        have reached : ReflTransGen leads start next := node.property.tail step
        exact inductionHypothesis ⟨next, reached⟩ (.single step)
  exact all ⟨start, .refl⟩

/-- Without a cycle, the start is not reached again. -/
theorem reach_ncard_lt (finite : (reach leads start).Finite) (acyclic : Acyclic leads start)
    (step : leads start next) : (reach leads next).ncard < (reach leads start).ncard := by
  apply Set.ncard_lt_ncard _ finite
  refine ⟨reach_step_subset step, ?_⟩
  intro whole
  have again : ReflTransGen leads next start := whole .refl
  exact acyclic start .refl (TransGen.head'_iff.mpr ⟨next, step, again⟩)

end SimpleBasicComponents.Semantics
