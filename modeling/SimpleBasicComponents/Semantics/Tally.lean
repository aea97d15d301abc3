import Mathlib.Algebra.BigOperators.Group.Finset.Basic
import Mathlib.Algebra.Order.BigOperators.Group.Finset

/-!
How many threads stand at points of a kind.

A thread moves by an update of the function that says where each one stands. The
lemmas are for conservation laws: a move takes one from a tally and adds one to
another.
-/

namespace SimpleBasicComponents.Semantics

variable {ι Point : Type*} [Fintype ι] [DecidableEq ι]

def tally (holds : Point → Bool) (points : ι → Point) : Nat := ∑ i, (holds (points i)).toNat

variable {holds : Point → Bool} {points other : ι → Point}

theorem tally_update (points : ι → Point) (i : ι) (point : Point) :
    tally holds (Function.update points i point) + (holds (points i)).toNat =
      tally holds points + (holds point).toNat := by
  have rest : ∑ j ∈ Finset.univ.erase i, (holds (Function.update points i point j)).toNat =
      ∑ j ∈ Finset.univ.erase i, (holds (points j)).toNat := by
    refine Finset.sum_congr rfl fun j member => ?_
    rw [Function.update_of_ne (Finset.ne_of_mem_erase member)]
  have before := Finset.add_sum_erase Finset.univ (fun j => (holds (points j)).toNat) (Finset.mem_univ i)
  have after := Finset.add_sum_erase Finset.univ
    (fun j => (holds (Function.update points i point j)).toNat) (Finset.mem_univ i)
  simp only [Function.update_self, rest] at after
  unfold tally
  omega

omit [DecidableEq ι] in
theorem tally_congr (same : ∀ i, holds (other i) = holds (points i)) :
    tally holds other = tally holds points :=
  Finset.sum_congr rfl fun i _ => by rw [same i]

omit [DecidableEq ι] in
theorem tally_eq_zero_iff : tally holds points = 0 ↔ ∀ i, holds (points i) = false := by
  simp [tally]

end SimpleBasicComponents.Semantics
