import Mathlib.Algebra.BigOperators.Ring.Finset
import Mathlib.Algebra.GroupWithZero.Action.Defs
import Mathlib.Algebra.BigOperators.Ring.List
import Mathlib.Algebra.Order.BigOperators.Group.Finset
import SimpleBasicComponents.Semantics.Machine

/-!
Amortised bounds on runs.

Every label of a machine has a cost and an allowance. If a weight on states pays
for what each step costs beyond its allowance, then the cost of a run is bounded
by the allowances granted along it and the weight it began with. The weight of a
family of threads is the sum of theirs; a step moves one thread and may make
some of the others heavier.
-/

namespace SimpleBasicComponents.Semantics

namespace Machine

variable {State Label Event : Type*} {machine : Machine State Label Event}

/-- What the labels of a run come to. -/
def total (charge : Label → Nat) (labels : List Label) : Nat := (labels.map charge).sum

@[simp] theorem total_nil {charge : Label → Nat} : total charge [] = 0 := rfl

@[simp] theorem total_append {charge : Label → Nat} {labels more : List Label} :
    total charge (labels ++ more) = total charge labels + total charge more := by
  simp [total]

@[simp] theorem total_singleton {charge : Label → Nat} {label : Label} :
    total charge [label] = charge label := by
  simp [total]

theorem total_mul {charge : Label → Nat} {factor : Nat} {labels : List Label} :
    total (fun label => factor * charge label) labels = factor * total charge labels := by
  rw [total, total, List.sum_map_mul_left]

variable (machine) in
/-- The weight pays for what a step costs beyond its allowance. -/
def Amortised (weight : State → Nat) (cost allowance : Label → Nat) : Prop :=
  ∀ state label next shown, machine.step state label = some (next, shown) →
    weight next + cost label ≤ weight state + allowance label

/-- From any point of a run on, the cost is covered by the weight there and the allowances. -/
theorem Amortised.exec {weight : State → Nat} {cost allowance : Label → Nat}
    (amortised : machine.Amortised weight cost allowance) {before after : List Label}
    {state last : State} {seen events : List Event} (reached : machine.Exec before state seen)
    (exec : machine.Exec (before ++ after) last events) :
    weight last + total cost after ≤ weight state + total allowance after := by
  apply Exec.since
    (fun later middle _ => weight middle + total cost later ≤ weight state + total allowance later)
    reached ?_ ?_ exec
  · exact Nat.le_refl _
  · intro later label middle found next shown _ _ covered taken
    have paid := amortised middle label next shown taken
    rw [total_append, total_append, total_singleton, total_singleton]
    omega

end Machine

section Threads

variable {ι Point : Type*} [Fintype ι] [DecidableEq ι]

/-- One thread moves, and no other thread becomes heavier by more than `extra`. -/
theorem sum_update_le (before after : Point → Nat) (points : ι → Point) (i : ι) (point : Point)
    {extra : Nat} (heavier : ∀ other, after other ≤ before other + extra) :
    ∑ j, after (Function.update points i point j) + before (points i) ≤
      ∑ j, before (points j) + after point + extra * (Fintype.card ι - 1) := by
  have rest : ∑ j ∈ Finset.univ.erase i, after (Function.update points i point j) ≤
      ∑ j ∈ Finset.univ.erase i, (before (points j) + extra) := by
    apply Finset.sum_le_sum
    intro j member
    rw [Function.update_of_ne (Finset.ne_of_mem_erase member)]
    exact heavier (points j)
  have moved := Finset.add_sum_erase Finset.univ
    (fun j => after (Function.update points i point j)) (Finset.mem_univ i)
  have stood := Finset.add_sum_erase Finset.univ (fun j => before (points j)) (Finset.mem_univ i)
  rw [Finset.sum_add_distrib, Finset.sum_const, Finset.card_erase_of_mem (Finset.mem_univ i),
    Finset.card_univ, smul_eq_mul, Nat.mul_comm] at rest
  simp only [Function.update_self] at moved
  omega

end Threads

end SimpleBasicComponents.Semantics
