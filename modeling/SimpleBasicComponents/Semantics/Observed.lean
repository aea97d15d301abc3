import Mathlib.Data.List.Basic
import SimpleBasicComponents.Semantics.Machine

/-!
Machines that are watched.

A watched machine takes the steps of the machine and shows, besides the events,
what is observed of the state before each step, or a report of each step in
their place. Owns: the watched machines, the two directions in which the runs of
the first are the runs of the machine, and the uniqueness of runs that have ended
where there is one label only.
-/

namespace SimpleBasicComponents.Semantics.Machine

variable {State Label Event Mark : Type*}

/-- The machine with its states observed. -/
def observed (machine : Machine State Label Event) (observe : State → List Mark) :
    Machine State Label (Mark ⊕ Event) where
  start := machine.start
  step state label :=
    match machine.step state label with
    | some (next, shown) => some (next, (observe state).map .inl ++ shown.map .inr)
    | none => none

section

variable {machine : Machine State Label Event} {observe : State → List Mark} {labels : List Label}
  {state next : State} {label : Label} {shown : List Event} {seen : List (Mark ⊕ Event)}

theorem observed_step (taken : machine.step state label = some (next, shown)) :
    (machine.observed observe).step state label =
      some (next, (observe state).map .inl ++ shown.map .inr) := by
  simp only [observed, taken]

private theorem observed_step_cases
    (taken : (machine.observed observe).step state label = some (next, seen)) :
    ∃ shown, machine.step state label = some (next, shown) ∧
      seen = (observe state).map .inl ++ shown.map .inr := by
  simp only [observed] at taken
  split at taken
  · rename_i other shown stepped
    obtain ⟨rfl, rfl⟩ := Prod.mk.inj (Option.some.inj taken)
    exact ⟨shown, stepped, rfl⟩
  · contradiction

/-- The marks leave no trace among the events. -/
private theorem events_of_step (marks : List Mark) (shown : List Event) :
    (marks.map Sum.inl ++ shown.map Sum.inr).filterMap Sum.getRight? = shown := by
  rw [List.filterMap_append, List.filterMap_map, List.filterMap_map]
  simp [Function.comp_def]

theorem Exec.erase (exec : (machine.observed observe).Exec labels state seen) :
    machine.Exec labels state (seen.filterMap Sum.getRight?) := by
  induction exec with
  | start => exact .start
  | step before taken inductionHypothesis =>
      have ⟨shown, stepped, isSeen⟩ := observed_step_cases taken
      rw [isSeen, List.filterMap_append, events_of_step]
      exact inductionHypothesis.step stepped

theorem Exec.to_observed {events : List Event} (observe : State → List Mark)
    (exec : machine.Exec labels state events) :
    ∃ seen, (machine.observed observe).Exec labels state seen ∧
      seen.filterMap Sum.getRight? = events := by
  induction exec with
  | start => exact ⟨[], .start, rfl⟩
  | step before taken inductionHypothesis =>
      have ⟨seen, ran, isEvents⟩ := inductionHypothesis
      refine ⟨_, ran.step (observed_step taken), ?_⟩
      rw [List.filterMap_append, events_of_step, isEvents]

end

/-! ### Reports -/

/-- The machine with a report of each step in place of its events. -/
def reporting (machine : Machine State Label Event) (report : State → Label → List Mark) :
    Machine State Label Mark where
  start := machine.start
  step state label :=
    match machine.step state label with
    | some (next, _) => some (next, report state label)
    | none => none

theorem reporting_step {machine : Machine State Label Event} (report : State → Label → List Mark)
    {state next : State} {label : Label} {shown : List Event}
    (taken : machine.step state label = some (next, shown)) :
    (machine.reporting report).step state label = some (next, report state label) := by
  simp only [reporting, taken]

/-! ### Ended runs -/

section

variable {machine : Machine State Unit Event} {left right : State} {one two : List Event}
  {first second : List Unit}

private theorem units_eq (labels : List Unit) : labels = List.replicate labels.length () :=
  List.eq_replicate_of_mem fun _ _ => rfl

private theorem Exec.not_longer (ran : machine.Exec first left one) (ended : machine.step left () = none)
    (other : machine.Exec second right two) : second.length ≤ first.length := by
  by_contra longer
  have within : first ++ [()] <+: second := by
    rw [units_eq first, units_eq second, ← List.replicate_succ', List.prefix_replicate_iff]
    simp only [List.length_replicate, and_true]
    omega
  have ⟨_, _, earlier, _⟩ := other.earlier within
  have ⟨middle, _, _, before, taken, _⟩ := earlier.unsnoc
  rw [(before.functional ran).1, ended] at taken
  contradiction

/-- Without a choice of labels there is one run to the end. -/
theorem Exec.ended_unique (ran : machine.Exec first left one) (ended : machine.step left () = none)
    (other : machine.Exec second right two) (otherEnded : machine.step right () = none) :
    left = right ∧ one = two := by
  have same : first = second := by
    have long := ran.not_longer ended other
    have short := other.not_longer otherEnded ran
    rw [units_eq first, units_eq second, Nat.le_antisymm short long]
  rw [← same] at other
  exact ran.functional other

end

end SimpleBasicComponents.Semantics.Machine
