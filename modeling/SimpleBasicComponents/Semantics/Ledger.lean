import SimpleBasicComponents.Semantics.History
import Mathlib.Data.List.Count

/-!
Ledgers over a history of events.

An event may obtain an item or release one. `outstanding` is what a history has
obtained and not yet released; `Settled` says that a collection is exactly that,
without repetition, and that only outstanding items were ever released. An item
may be obtained again after its release.
-/

namespace SimpleBasicComponents.Semantics

inductive Entry (Item : Type*) where
  | obtained (item : Item)
  | released (item : Item)
deriving DecidableEq, Repr

namespace Ledger

variable {Event Item : Type*} [DecidableEq Item] (entry : Event → Option (Entry Item))

def note (items : List Item) (event : Event) : List Item :=
  match entry event with
  | some (.obtained item) => item :: items
  | some (.released item) => items.erase item
  | none => items

/-- The items obtained and not yet released. -/
def outstanding (events : List Event) : List Item := events.foldl (note entry) []

/-- No item is obtained while it is outstanding. -/
def Fresh (events : List Event) : Prop :=
  Historically (fun earlier event =>
    ∀ item, entry event = some (.obtained item) → item ∉ outstanding entry earlier) events

/-- Only outstanding items are released. -/
def Owned (events : List Event) : Prop :=
  Historically (fun earlier event =>
    ∀ item, entry event = some (.released item) → item ∈ outstanding entry earlier) events

instance decidableFresh (events : List Event) : Decidable (Fresh entry events) := by
  have decidable : ∀ earlier event,
      Decidable (∀ item, entry event = some (.obtained item) → item ∉ outstanding entry earlier) := by
    intro earlier event
    cases entry event with
    | none => exact isTrue (by simp)
    | some noted =>
        cases noted with
        | obtained item => exact decidable_of_iff (item ∉ outstanding entry earlier) (by simp)
        | released item => exact isTrue (by simp)
  unfold Fresh
  infer_instance

/-- The collection is what the history has outstanding, each item once. -/
structure Settled (held : List Item) (events : List Event) : Prop where
  perm : held.Perm (outstanding entry events)
  distinct : held.Nodup
  owned : Owned entry events

variable {entry} {events shown : List Event} {event : Event} {held : List Item} {item : Item}

theorem outstanding_append (events shown : List Event) :
    outstanding entry (events ++ shown) = shown.foldl (note entry) (outstanding entry events) :=
  List.foldl_append

private theorem foldl_note_quiet (quiet : ∀ event ∈ shown, entry event = none) (items : List Item) :
    shown.foldl (note entry) items = items := by
  induction shown with
  | nil => rfl
  | cons event shown inductionHypothesis =>
      have same : note entry items event = items := by
        unfold note
        rw [quiet event List.mem_cons_self]
      rw [List.foldl_cons, same]
      exact inductionHypothesis fun other member => quiet other (List.mem_cons_of_mem _ member)

theorem settled_nil : Settled entry [] [] := ⟨.nil, .nil, historically_nil⟩

namespace Settled

theorem mem_iff (settled : Settled entry held events) (item : Item) :
    item ∈ held ↔ item ∈ outstanding entry events :=
  settled.perm.mem_iff

theorem of_perm {other : List Item} (settled : Settled entry held events)
    (same : other.Perm held) : Settled entry other events :=
  ⟨same.trans settled.perm, same.nodup_iff.mpr settled.distinct, settled.owned⟩

/-- Events that neither obtain nor release change nothing. -/
theorem quiet (settled : Settled entry held events) (silent : ∀ event ∈ shown, entry event = none) :
    Settled entry held (events ++ shown) := by
  refine ⟨?_, settled.distinct, settled.owned.append ?_⟩
  · rw [outstanding_append, foldl_note_quiet silent]
    exact settled.perm
  · intro earlier event member item releases
    rw [silent event member] at releases
    contradiction

theorem obtain (settled : Settled entry held events) (event : Event)
    (obtains : entry event = some (.obtained item))
    (fresh : item ∉ outstanding entry events) : Settled entry (item :: held) (events ++ [event]) := by
  have grown : outstanding entry (events ++ [event]) = item :: outstanding entry events := by
    rw [outstanding_append]
    show note entry _ event = _
    unfold note
    rw [obtains]
  refine ⟨?_, ?_, historically_snoc_iff.mpr ⟨settled.owned, ?_⟩⟩
  · rw [grown]
    exact settled.perm.cons item
  · rw [List.nodup_cons, settled.mem_iff]
    exact ⟨fresh, settled.distinct⟩
  · intro other releases
    rw [obtains] at releases
    exact absurd (Option.some.inj releases) (by simp)

theorem release (settled : Settled entry held events) (event : Event)
    (releases : entry event = some (.released item))
    (member : item ∈ held) : Settled entry (held.erase item) (events ++ [event]) := by
  have shrunk : outstanding entry (events ++ [event]) = (outstanding entry events).erase item := by
    rw [outstanding_append]
    show note entry _ event = _
    unfold note
    rw [releases]
  refine ⟨?_, settled.distinct.erase item, historically_snoc_iff.mpr ⟨settled.owned, ?_⟩⟩
  · rw [shrunk]
    exact settled.perm.erase item
  · intro other releasesOther
    rw [releases] at releasesOther
    obtain rfl : item = other := by simpa using releasesOther
    exact (settled.mem_iff item).mp member

/-- Releasing everything, in the order in which it is held. -/
theorem releaseAll {make : Item → Event} (releases : ∀ item, entry (make item) = some (.released item))
    (settled : Settled entry held events) : Settled entry [] (events ++ held.map make) := by
  induction held generalizing events with
  | nil => simpa using settled
  | cons item rest inductionHypothesis =>
      have first := settled.release (make item) (releases item) List.mem_cons_self
      rw [List.erase_cons_head] at first
      have all := inductionHypothesis first
      rw [List.append_assoc] at all
      exact all

end Settled

/-- Of every item as many were obtained as were released and are still held. -/
theorem count_of_owned (owned : Owned entry events) (item : Item) :
    events.countP (fun event => entry event = some (.obtained item)) =
      events.countP (fun event => entry event = some (.released item)) +
        (outstanding entry events).count item := by
  induction events using List.reverseRecOn with
  | nil => rfl
  | append_singleton events event inductionHypothesis =>
      obtain ⟨before, here⟩ := historically_snoc_iff.mp owned
      have earlier := inductionHypothesis before
      have last : outstanding entry (events ++ [event]) =
          note entry (outstanding entry events) event := outstanding_append events [event]
      rw [List.countP_append, List.countP_append, List.countP_singleton, List.countP_singleton,
        last, earlier]
      unfold note
      cases kind : entry event with
      | none => simp
      | some noted =>
          cases noted with
          | obtained other =>
              by_cases same : other = item
              · simp [same]
                omega
              · simp [same]
          | released other =>
              have member := here other kind
              by_cases same : other = item
              · have positive := List.count_pos_iff.mpr member
                rw [same] at positive ⊢
                simp [List.count_erase_self]
                omega
              · simp [same, List.count_erase_of_ne (Ne.symm same)]

end Ledger

end SimpleBasicComponents.Semantics
