import SimpleBasicComponents.Semantics.Machine

/-!
A machine seen from one of its parts.

The part is a machine of its own. What a step of the whole shows tells which call the
part has had, if any: it takes this call as a step of its own, and stays as it is at
every other step of the whole. Then each run of the whole is, for the part, a run of
the part, whatever happens in the other parts.
-/

namespace SimpleBasicComponents.Semantics

namespace Machine

variable {State Label Event Part Call Shown : Type*} {whole : Machine State Label Event} {part : Machine Part Call Shown}

/-- At a step the part stands still or takes one step of its own. -/
def PartStep (part : Machine Part Call Shown) (view : State → Part → Prop) (calls : List Call) (next : State)
    (own : Part) : Prop :=
  (calls = [] ∧ view next own) ∨
    ∃ call last seen, calls = [call] ∧ part.step own call = some (last, seen) ∧ view next last

theorem PartStep.runFrom {view : State → Part → Prop} {calls : List Call} {next : State} {own : Part}
    (taken : PartStep part view calls next own) :
    ∃ last seen, part.runFrom own calls = some (last, seen) ∧ view next last := by
  cases taken with
  | inl still => exact ⟨own, [], by rw [still.1]; rfl, still.2⟩
  | inr moves =>
      have ⟨call, last, seen, isCall, steps, seesLast⟩ := moves
      refine ⟨last, seen ++ [], ?_, seesLast⟩
      rw [isCall, Machine.runFrom, steps]
      rfl

/-- A run of the whole is, for the part, a run of the calls the part has had. -/
theorem Exec.project {invariant : State → Prop} {view : State → Part → Prop} (calls : Event → List Call)
    (holds : ∀ labels state events, whole.Exec labels state events → invariant state)
    (starts : view whole.start part.start)
    (steps : ∀ state label next shown own, invariant state → whole.step state label = some (next, shown) →
      view state own → PartStep part view (shown.flatMap calls) next own)
    {labels : List Label} {state : State} {events : List Event} (exec : whole.Exec labels state events) :
    ∃ own seen, part.Exec (events.flatMap calls) own seen ∧ view state own := by
  induction exec with
  | start => exact ⟨part.start, [], .start, starts⟩
  | step before taken inductionHypothesis =>
      rename_i earlier state next shownBefore shown label
      have ⟨own, seen, ran, sees⟩ := inductionHypothesis
      have ⟨last, later, runs, seesLast⟩ :=
        (steps state label next shown own (holds _ _ _ before) taken sees).runFrom
      refine ⟨last, seen ++ later, ?_, seesLast⟩
      rw [List.flatMap_append]
      apply part.exec_of_run
      exact runFrom_append_iff.mpr ⟨own, seen, later, ran.run_eq, runs, rfl⟩

end Machine

end SimpleBasicComponents.Semantics
