import Mathlib.Data.List.Infix

/-!
Properties of event histories.

`Historically property events` says that every event of the history stands in
the given relation to the events before it. It is what a run proves one step at
a time, since a step only appends.
-/

namespace SimpleBasicComponents.Semantics

variable {Event : Type*}

/-- Every event has the property with respect to the events before it. -/
def Historically (property : List Event → Event → Prop) (events : List Event) : Prop :=
  ∀ earlier event later, events = earlier ++ event :: later → property earlier event

variable {property : List Event → Event → Prop}

@[simp] theorem historically_nil : Historically property [] := by
  intro earlier event later split
  simp at split

theorem historically_snoc_iff {events : List Event} {event : Event} :
    Historically property (events ++ [event]) ↔
      Historically property events ∧ property events event := by
  constructor
  · intro holds
    refine ⟨?_, holds events event [] rfl⟩
    intro earlier other later split
    exact holds earlier other (later ++ [event]) (by rw [split]; simp)
  · rintro ⟨before, atEnd⟩ earlier other later split
    rcases List.eq_nil_or_concat later with rfl | ⟨rest, last, rfl⟩
    · obtain ⟨rfl, same⟩ := List.append_inj' split rfl
      obtain rfl : event = other := by simpa using same
      exact atEnd
    · have regrouped : events ++ [event] = (earlier ++ other :: rest) ++ [last] := by
        rw [split]
        simp
      obtain ⟨same, -⟩ := List.append_inj' regrouped rfl
      exact before earlier other rest same

theorem historically_singleton_iff {event : Event} :
    Historically property [event] ↔ property [] event := by
  have both := @historically_snoc_iff _ property [] event
  rwa [List.nil_append, and_iff_right historically_nil] at both

/-- A history in two parts: the second part is judged with the first before it. -/
theorem historically_append_iff {events shown : List Event} :
    Historically property (events ++ shown) ↔
      Historically property events ∧
        Historically (fun earlier event => property (events ++ earlier) event) shown := by
  induction shown using List.reverseRecOn with
  | nil => simp
  | append_singleton shown event inductionHypothesis =>
      rw [← List.append_assoc, historically_snoc_iff, historically_snoc_iff, inductionHypothesis,
        and_assoc]

/-- Events that stand in the relation to any history may follow. -/
theorem Historically.append {events shown : List Event} (holds : Historically property events)
    (always : ∀ earlier, ∀ event ∈ shown, property earlier event) :
    Historically property (events ++ shown) := by
  rw [historically_append_iff]
  refine ⟨holds, ?_⟩
  intro earlier event later split
  apply always
  rw [split]
  simp

theorem Historically.earlier {events later : List Event}
    (holds : Historically property (events ++ later)) : Historically property events := by
  intro before event between split
  exact holds before event (between ++ later) (by rw [split]; simp)

/-- An event and what is before it, by its position. -/
theorem historically_iff_forall_fin {events : List Event} :
    Historically property events ↔
      ∀ index : Fin events.length, property (events.take index) events[index] := by
  constructor
  · intro holds index
    have rest := List.drop_eq_getElem_cons index.isLt
    exact holds _ _ (events.drop (index + 1)) (rest ▸ (List.take_append_drop index events).symm)
  · intro holds earlier event later split
    have below : earlier.length < events.length := by
      rw [split]
      simp
    have atIndex := holds ⟨earlier.length, below⟩
    simpa [split] using atIndex

instance [∀ earlier event, Decidable (property earlier event)] (events : List Event) :
    Decidable (Historically property events) :=
  decidable_of_iff _ historically_iff_forall_fin.symm

end SimpleBasicComponents.Semantics
