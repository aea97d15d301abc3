import Mathlib.Data.List.Infix

/-!
Labelled machines and their finite executions.

A machine takes one labelled step at a time; a step may be refused, and a step
that is taken shows a list of events. `Exec` relates the labels of a run to the
state it ends in and to everything it has shown, growing at the end of the run,
so an induction on it is an induction on the length of the run. `run` is the
same thing as a function, for evaluation.

`Always` and `Guarded` speak about every prefix of a run: the first about the
states passed through, the second about the steps taken. `always_iff_guarded`
turns an exact condition on one step into an exact condition on whole runs.
-/

namespace SimpleBasicComponents.Semantics

/-- What one labelled step does, if it can be taken at all. -/
structure Machine (State Label Event : Type*) where
  start : State
  step : State → Label → Option (State × List Event)

namespace Machine

variable {State Label Event : Type*} (machine : Machine State Label Event)

/-- The run `labels` is possible, ends in the state, and shows the events. -/
inductive Exec : List Label → State → List Event → Prop
  | start : Exec [] machine.start []
  | step {labels : List Label} {state next : State} {events shown : List Event} {label : Label}
      (before : Exec labels state events)
      (taken : machine.step state label = some (next, shown)) :
      Exec (labels ++ [label]) next (events ++ shown)

/-- A state that some run ends in. -/
def Reachable (state : State) : Prop :=
  ∃ labels events, machine.Exec labels state events

/-- Every state passed through, the last one included, has the property, given
what has been shown so far. -/
def Always (property : State → List Event → Prop) (labels : List Label) : Prop :=
  ∀ before state events, before <+: labels → machine.Exec before state events →
    property state events

/-- Every step of the run meets the condition in the state it is taken in. -/
def Guarded (condition : State → Label → Prop) (labels : List Label) : Prop :=
  ∀ before label state events, before ++ [label] <+: labels →
    machine.Exec before state events → condition state label

/-! ### Runs as a function -/

def runFrom (state : State) : List Label → Option (State × List Event)
  | [] => some (state, [])
  | label :: rest =>
      match machine.step state label with
      | none => none
      | some (next, shown) =>
          match runFrom next rest with
          | none => none
          | some (last, later) => some (last, shown ++ later)

def run (labels : List Label) : Option (State × List Event) :=
  machine.runFrom machine.start labels

variable {machine}

private theorem exec_append_of_runFrom {before rest : List Label} {state last : State}
    {events later : List Event} (reached : machine.Exec before state events)
    (ran : machine.runFrom state rest = some (last, later)) :
    machine.Exec (before ++ rest) last (events ++ later) := by
  induction rest generalizing before state events later with
  | nil =>
      simp only [runFrom, Option.some.injEq, Prod.mk.injEq] at ran
      obtain ⟨rfl, rfl⟩ := ran
      simpa using reached
  | cons label rest inductionHypothesis =>
      simp only [runFrom] at ran
      split at ran
      · contradiction
      · rename_i next shown taken
        split at ran
        · contradiction
        · rename_i final after ranRest
          simp only [Option.some.injEq, Prod.mk.injEq] at ran
          obtain ⟨rfl, rfl⟩ := ran
          have grown := inductionHypothesis (reached.step taken) ranRest
          simpa using grown

/-- A computed run is an execution. -/
theorem exec_of_run (machine : Machine State Label Event) {labels : List Label} {state : State} {events : List Event}
    (ran : machine.run labels = some (state, events)) : machine.Exec labels state events := by
  simpa using exec_append_of_runFrom .start ran

theorem exec_of_isSome (machine : Machine State Label Event) (labels : List Label)
    (ran : (machine.run labels).isSome) :
    machine.Exec labels ((machine.run labels).get ran).1 ((machine.run labels).get ran).2 :=
  machine.exec_of_run (Option.some_get ran).symm

private theorem runFrom_snoc {state middle last : State} {labels : List Label} {label : Label}
    {events shown : List Event} (ran : machine.runFrom state labels = some (middle, events))
    (taken : machine.step middle label = some (last, shown)) :
    machine.runFrom state (labels ++ [label]) = some (last, events ++ shown) := by
  induction labels generalizing state events with
  | nil =>
      simp only [runFrom, Option.some.injEq, Prod.mk.injEq] at ran
      obtain ⟨rfl, rfl⟩ := ran
      simp [runFrom, taken]
  | cons head rest inductionHypothesis =>
      simp only [runFrom] at ran
      split at ran
      · contradiction
      · rename_i next first stepped
        split at ran
        · contradiction
        · rename_i final after ranRest
          simp only [Option.some.injEq, Prod.mk.injEq] at ran
          obtain ⟨rfl, rfl⟩ := ran
          simp [runFrom, stepped, inductionHypothesis ranRest]

/-- A run in two parts. -/
theorem runFrom_append_iff {state last : State} {labels more : List Label} {events : List Event} :
    machine.runFrom state (labels ++ more) = some (last, events) ↔
      ∃ middle seen shown, machine.runFrom state labels = some (middle, seen) ∧
        machine.runFrom middle more = some (last, shown) ∧ events = seen ++ shown := by
  induction labels generalizing state events with
  | nil =>
      constructor
      · intro ran
        exact ⟨state, [], events, rfl, ran, rfl⟩
      · rintro ⟨middle, seen, shown, first, second, rfl⟩
        obtain ⟨rfl, rfl⟩ := Prod.mk.inj (Option.some.inj first)
        exact second
  | cons label labels inductionHypothesis =>
      rw [List.cons_append, runFrom, runFrom]
      cases machine.step state label with
      | none => simp
      | some taken =>
          obtain ⟨next, first⟩ := taken
          simp only
          constructor
          · intro ran
            split at ran
            · contradiction
            · rename_i final later rest
              obtain ⟨rfl, rfl⟩ := Prod.mk.inj (Option.some.inj ran)
              have ⟨middle, seen, shown, before, after, same⟩ := inductionHypothesis.mp rest
              exact ⟨middle, first ++ seen, shown, by rw [before], after, by rw [same, List.append_assoc]⟩
          · rintro ⟨middle, seen, shown, before, after, rfl⟩
            split at before
            · contradiction
            · rename_i final later rest
              obtain ⟨rfl, rfl⟩ := Prod.mk.inj (Option.some.inj before)
              have whole := inductionHypothesis.mpr ⟨_, _, _, rest, after, rfl⟩
              rw [whole, List.append_assoc]

theorem Exec.run_eq {labels : List Label} {state : State} {events : List Event}
    (exec : machine.Exec labels state events) : machine.run labels = some (state, events) := by
  induction exec with
  | start => rfl
  | step _ taken inductionHypothesis => exact runFrom_snoc inductionHypothesis taken

/-- The labels determine the run. -/
theorem Exec.functional {labels : List Label} {left right : State} {leftEvents rightEvents}
    (first : machine.Exec labels left leftEvents)
    (second : machine.Exec labels right rightEvents) :
    left = right ∧ leftEvents = rightEvents := by
  have same := first.run_eq.symm.trans second.run_eq
  simpa using same

/-! ### From one state to another -/

variable (machine) in
/-- Some steps lead from one state to the other and show the events. -/
inductive Steps : State → List Event → State → Prop
  | refl (state : State) : Steps state [] state
  | step {state next last : State} {shown later : List Event} (label : Label)
      (taken : machine.step state label = some (next, shown)) (rest : Steps next later last) :
      Steps state (shown ++ later) last

theorem Steps.one {state next : State} {shown : List Event} (label : Label)
    (taken : machine.step state label = some (next, shown)) : machine.Steps state shown next := by
  simpa using Steps.step label taken (.refl next)

theorem Steps.trans {state middle last : State} {events later : List Event}
    (first : machine.Steps state events middle) (second : machine.Steps middle later last) :
    machine.Steps state (events ++ later) last := by
  induction first with
  | refl => exact second
  | step label taken _ inductionHypothesis =>
      rw [List.append_assoc]
      exact .step label taken (inductionHypothesis second)

theorem Exec.steps {labels : List Label} {state last : State} {events later : List Event}
    (exec : machine.Exec labels state events) (steps : machine.Steps state later last) :
    ∃ more, machine.Exec (labels ++ more) last (events ++ later) := by
  induction steps generalizing labels events with
  | refl => exact ⟨[], by simpa using exec⟩
  | step label taken _ inductionHypothesis =>
      obtain ⟨more, grown⟩ := inductionHypothesis (exec.step taken)
      exact ⟨label :: more, by simpa using grown⟩

/-! ### Prefixes -/

theorem Exec.unsnoc {labels : List Label} {label : Label} {next : State} {shownAll : List Event}
    (exec : machine.Exec (labels ++ [label]) next shownAll) :
    ∃ state events shown, machine.Exec labels state events ∧
      machine.step state label = some (next, shown) ∧ shownAll = events ++ shown := by
  generalize grown : labels ++ [label] = all at exec
  cases exec with
  | start => simp at grown
  | step before taken =>
      obtain ⟨rfl, same⟩ := List.append_inj' grown rfl
      obtain rfl : label = _ := by simpa using same
      exact ⟨_, _, _, before, taken, rfl⟩

/-- Every prefix of a run is a run, and it has shown a prefix of the events. -/
theorem Exec.earlier {before labels : List Label} {state : State} {events : List Event}
    (exec : machine.Exec labels state events) (isPrefix : before <+: labels) :
    ∃ earlier seen, machine.Exec before earlier seen ∧ seen <+: events := by
  induction exec with
  | start =>
      obtain rfl := List.prefix_nil.mp isPrefix
      exact ⟨_, _, .start, List.prefix_rfl⟩
  | @step labels state next events shown label exec taken inductionHypothesis =>
      rcases List.prefix_concat_iff.mp isPrefix with rfl | shorter
      · exact ⟨_, _, exec.step taken, List.prefix_rfl⟩
      · obtain ⟨earlier, seen, ran, within⟩ := inductionHypothesis shorter
        exact ⟨earlier, seen, ran, within.trans (List.prefix_append _ _)⟩

/-- What holds at some point of a run and is kept by the steps after it. -/
theorem Exec.since {before after : List Label} {start last : State} {earlier events : List Event}
    (motive : List Label → State → List Event → Prop) (reached : machine.Exec before start earlier)
    (atStart : motive [] start earlier)
    (kept : ∀ later label state seen next shown, later ++ [label] <+: after →
      machine.Exec (before ++ later) state seen → motive later state seen →
      machine.step state label = some (next, shown) → motive (later ++ [label]) next (seen ++ shown))
    (exec : machine.Exec (before ++ after) last events) : motive after last events := by
  induction after using List.reverseRecOn generalizing last events with
  | nil =>
      rw [List.append_nil] at exec
      obtain ⟨rfl, rfl⟩ := reached.functional exec
      exact atStart
  | append_singleton after label inductionHypothesis =>
      rw [← List.append_assoc] at exec
      obtain ⟨state, seen, shown, ran, taken, rfl⟩ := exec.unsnoc
      apply kept after label state seen last shown List.prefix_rfl ran ?_ taken
      apply inductionHypothesis ?_ ran
      intro later other middle found next more isPrefix
      exact kept later other middle found next more (isPrefix.trans (List.prefix_append _ _))

theorem Exec.reachable {labels : List Label} {state : State} {events : List Event}
    (exec : machine.Exec labels state events) : machine.Reachable state :=
  ⟨labels, events, exec⟩

/-! ### Properties of whole runs -/

theorem Always.last {property : State → List Event → Prop} {labels : List Label} {state : State}
    {events : List Event} (always : machine.Always property labels)
    (exec : machine.Exec labels state events) : property state events :=
  always labels state events List.prefix_rfl exec

theorem always_nil_iff {property : State → List Event → Prop} :
    machine.Always property [] ↔ property machine.start [] := by
  constructor
  · intro always
    exact always.last .start
  · intro atStart before state events isPrefix exec
    obtain rfl := List.prefix_nil.mp isPrefix
    obtain ⟨rfl, rfl⟩ := exec.functional .start
    exact atStart

/-- The prefixes of a run can be run through one by one. -/
theorem always_iff_forall_inits {property : State → List Event → Prop} {labels : List Label} :
    machine.Always property labels ↔
      ∀ before ∈ labels.inits, ∀ outcome ∈ machine.run before, property outcome.1 outcome.2 := by
  constructor
  · intro always before member outcome ran
    exact always before _ _ (List.mem_inits before labels |>.mp member) (machine.exec_of_run ran)
  · intro checked before state events isPrefix exec
    exact checked before (List.mem_inits before labels |>.mpr isPrefix) _ exec.run_eq

instance {property : State → List Event → Prop} [∀ state events, Decidable (property state events)]
    (labels : List Label) :
    Decidable (machine.Always property labels) :=
  decidable_of_iff _ always_iff_forall_inits.symm

theorem always_snoc_iff {property : State → List Event → Prop} {labels : List Label} {label : Label} :
    machine.Always property (labels ++ [label]) ↔
      machine.Always property labels ∧
        ∀ state events, machine.Exec (labels ++ [label]) state events →
          property state events := by
  constructor
  · intro always
    exact ⟨fun before state events isPrefix exec =>
        always before state events (isPrefix.trans (List.prefix_append _ _)) exec,
      fun state events exec => always.last exec⟩
  · rintro ⟨earlier, atEnd⟩ before state events isPrefix exec
    rcases List.prefix_concat_iff.mp isPrefix with rfl | shorter
    · exact atEnd state events exec
    · exact earlier before state events shorter exec

theorem guarded_nil {condition : State → Label → Prop} : machine.Guarded condition [] := by
  intro before label state events isPrefix exec
  simp at isPrefix

theorem guarded_snoc_iff {condition : State → Label → Prop} {labels : List Label}
    {label : Label} :
    machine.Guarded condition (labels ++ [label]) ↔
      machine.Guarded condition labels ∧
        ∀ state events, machine.Exec labels state events → condition state label := by
  constructor
  · intro guarded
    exact ⟨fun before other state events isPrefix exec =>
        guarded before other state events (isPrefix.trans (List.prefix_append _ _)) exec,
      fun state events exec => guarded labels label state events List.prefix_rfl exec⟩
  · rintro ⟨earlier, atEnd⟩ before other state events isPrefix exec
    rcases List.prefix_concat_iff.mp isPrefix with same | shorter
    · obtain ⟨rfl, last⟩ := List.append_inj' same rfl
      obtain rfl : other = label := by simpa using last
      exact atEnd state events exec
    · exact earlier before other state events shorter exec

/-- A property that every step meeting the condition keeps holds throughout a
run whose steps all meet it. -/
theorem Guarded.always {property : State → List Event → Prop} {condition : State → Label → Prop}
    (atStart : property machine.start [])
    (preserved : ∀ before state events label next shown, machine.Exec before state events →
      property state events → condition state label →
      machine.step state label = some (next, shown) → property next (events ++ shown))
    {labels : List Label} (guarded : machine.Guarded condition labels) :
    machine.Always property labels := by
  induction labels using List.reverseRecOn with
  | nil => exact always_nil_iff.mpr atStart
  | append_singleton labels label inductionHypothesis =>
      obtain ⟨earlier, atEnd⟩ := guarded_snoc_iff.mp guarded
      have always := inductionHypothesis earlier
      refine always_snoc_iff.mpr ⟨always, ?_⟩
      intro state events exec
      obtain ⟨middle, seen, shown, before, taken, rfl⟩ := exec.unsnoc
      exact preserved _ _ _ _ _ _ before (always.last before) (atEnd _ _ before) taken

/-- If each step of a run, taken from a good state, ends in a good state exactly
when it meets the condition, then the run stays in good states exactly when all
its steps meet it. The invariant is for what the property alone does not say. -/
theorem Exec.always_iff_guarded_of_invariant {invariant property : State → List Event → Prop}
    {condition : State → Label → Prop} {labels : List Label} {last : State} {events : List Event}
    (ran : machine.Exec labels last events)
    (atStart : invariant machine.start [] ∧ property machine.start [])
    (exact : ∀ before label state seen next shown, before ++ [label] <+: labels →
      seen ++ shown <+: events → machine.Exec before state seen → invariant state seen →
      property state seen → machine.step state label = some (next, shown) →
      (property next (seen ++ shown) ↔ condition state label))
    (kept : ∀ before label state seen next shown, before ++ [label] <+: labels →
      seen ++ shown <+: events → machine.Exec before state seen → invariant state seen →
      property state seen → condition state label → machine.step state label = some (next, shown) →
      invariant next (seen ++ shown)) :
    machine.Always property labels ↔ machine.Guarded condition labels := by
  suffices both : (machine.Always property labels ↔ machine.Guarded condition labels) ∧
      (machine.Guarded condition labels → invariant last events) from both.1
  induction ran with
  | start => exact ⟨⟨fun _ => guarded_nil, fun _ => always_nil_iff.mpr atStart.2⟩, fun _ => atStart.1⟩
  | @step labels state next events shown label exec taken inductionHypothesis =>
      have earlier := inductionHypothesis
        (fun before other middle seen after more isPrefix within =>
          exact before other middle seen after more (isPrefix.trans (List.prefix_append _ _))
            (within.trans (List.prefix_append _ _)))
        (fun before other middle seen after more isPrefix within =>
          kept before other middle seen after more (isPrefix.trans (List.prefix_append _ _))
            (within.trans (List.prefix_append _ _)))
      have holds (guarded : machine.Guarded condition labels) : property state events :=
        (earlier.1.mpr guarded).last exec
      have lastExact (guarded : machine.Guarded condition labels) :=
        exact labels label state events next shown List.prefix_rfl List.prefix_rfl exec
          (earlier.2 guarded) (holds guarded) taken
      rw [always_snoc_iff, guarded_snoc_iff, earlier.1]
      refine ⟨and_congr_right fun guarded => ?_, ?_⟩
      · constructor
        · intro atEnd other seen ran
          obtain ⟨rfl, -⟩ := exec.functional ran
          exact (lastExact guarded).mp (atEnd _ _ (exec.step taken))
        · intro meets other seen ran
          obtain ⟨rfl, rfl⟩ := (exec.step taken).functional ran
          exact (lastExact guarded).mpr (meets _ _ exec)
      · rintro ⟨guarded, meets⟩
        exact kept labels label state events next shown List.prefix_rfl List.prefix_rfl exec
          (earlier.2 guarded) (holds guarded) (meets _ _ exec) taken

/-- The same where the property says enough by itself. -/
theorem Exec.always_iff_guarded {property : State → List Event → Prop}
    {condition : State → Label → Prop} {labels : List Label} {last : State} {events : List Event}
    (ran : machine.Exec labels last events) (atStart : property machine.start [])
    (exact : ∀ before label state seen next shown, before ++ [label] <+: labels →
      machine.Exec before state seen → property state seen →
      machine.step state label = some (next, shown) →
      (property next (seen ++ shown) ↔ condition state label)) :
    machine.Always property labels ↔ machine.Guarded condition labels := by
  apply @Exec.always_iff_guarded_of_invariant _ _ _ machine (fun _ _ => True) _ _ _ _ _ ran ⟨trivial, atStart⟩
  · intro before label state seen next shown isPrefix _ exec _
    exact exact before label state seen next shown isPrefix exec
  · intros
    trivial

/-! ### Machines that may be closed -/

/-- A closed machine takes no step, so what holds of it at the start while it is open,
and every step that leaves it open keeps, holds of it in every run that leaves it open. -/
theorem Exec.of_open {Item : Type*} {machine : Machine (Option Item) Label Event}
    (property : List Label → Item → List Event → Prop) {labels : List Label}
    {session : Option Item} {events : List Event} (closed : ∀ label, machine.step none label = none)
    (atStart : ∀ item, machine.start = some item → property [] item [])
    (kept : ∀ labels earlier events label next shown, machine.Exec labels (some earlier) events →
      property labels earlier events → machine.step (some earlier) label = some (some next, shown) →
      property (labels ++ [label]) next (events ++ shown))
    (ran : machine.Exec labels session events) :
    ∀ item, session = some item → property labels item events := by
  induction ran with
  | start => exact atStart
  | @step labels session next events shown label before taken inductionHypothesis =>
      intro item same
      subst same
      cases session with
      | none =>
          rw [closed] at taken
          contradiction
      | some earlier =>
          exact kept labels earlier events label item shown before (inductionHypothesis earlier rfl) taken

/-! ### Checking a condition along a run -/

variable (machine) in
/-- The run from the state is possible and every step of it meets the condition. -/
def meets (condition : State → Label → Prop) [∀ state label, Decidable (condition state label)]
    (state : State) : List Label → Bool
  | [] => true
  | label :: rest =>
      decide (condition state label) &&
        match machine.step state label with
        | some (next, _) => meets condition next rest
        | none => false

private theorem guarded_append_of_meets {condition : State → Label → Prop}
    [∀ state label, Decidable (condition state label)] {before rest : List Label} {state : State}
    {events : List Event} (guarded : machine.Guarded condition before)
    (reached : machine.Exec before state events) (ok : machine.meets condition state rest = true) :
    machine.Guarded condition (before ++ rest) := by
  induction rest generalizing before state events with
  | nil => simpa using guarded
  | cons label rest inductionHypothesis =>
      unfold meets at ok
      rw [Bool.and_eq_true, decide_eq_true_eq] at ok
      have grown : machine.Guarded condition (before ++ [label]) := by
        refine guarded_snoc_iff.mpr ⟨guarded, ?_⟩
        intro other seen exec
        obtain ⟨rfl, -⟩ := reached.functional exec
        exact ok.1
      cases taken : machine.step state label with
      | none =>
          rw [taken] at ok
          exact absurd ok.2 (by simp)
      | some outcome =>
          obtain ⟨next, shown⟩ := outcome
          rw [taken] at ok
          have later := inductionHypothesis grown (reached.step taken) ok.2
          simpa using later

/-- A condition that the computed run meets is met. -/
theorem guarded_of_meets {condition : State → Label → Prop}
    [∀ state label, Decidable (condition state label)] {labels : List Label}
    (ok : machine.meets condition machine.start labels = true) : machine.Guarded condition labels :=
  guarded_append_of_meets guarded_nil .start ok

/-! ### Runs that are possible to the end -/

variable (machine) in
/-- No step of the run is refused, and every state passed through has the property. -/
def Completes (property : State → List Event → Prop) (labels : List Label) : Prop :=
  (∃ state events, machine.Exec labels state events) ∧ machine.Always property labels

theorem completes_snoc_iff {property : State → List Event → Prop} {labels : List Label}
    {label : Label} :
    machine.Completes property (labels ++ [label]) ↔
      machine.Completes property labels ∧
        ∀ state events, machine.Exec labels state events →
          ∃ next shown, machine.step state label = some (next, shown) ∧
            property next (events ++ shown) := by
  constructor
  · rintro ⟨⟨last, shownAll, exec⟩, always⟩
    obtain ⟨middle, seen, shown, before, taken, rfl⟩ := exec.unsnoc
    obtain ⟨earlier, atEnd⟩ := always_snoc_iff.mp always
    refine ⟨⟨⟨middle, seen, before⟩, earlier⟩, ?_⟩
    intro state events other
    obtain ⟨rfl, rfl⟩ := before.functional other
    exact ⟨last, shown, taken, atEnd _ _ exec⟩
  · rintro ⟨⟨⟨state, events, exec⟩, earlier⟩, atEnd⟩
    obtain ⟨next, shown, taken, holds⟩ := atEnd state events exec
    refine ⟨⟨next, events ++ shown, exec.step taken⟩, always_snoc_iff.mpr ⟨earlier, ?_⟩⟩
    intro last shownAll other
    obtain ⟨rfl, rfl⟩ := (exec.step taken).functional other
    exact holds

/-- If a step from a good state is possible and ends in a good state exactly
when it meets the condition, then a run completes in good states exactly when
all its steps meet it. The invariant is for what the property alone does not say. -/
theorem completes_iff_guarded {invariant property : State → List Event → Prop}
    {condition : State → Label → Prop} {labels : List Label}
    (atStart : invariant machine.start [] ∧ property machine.start [])
    (exact : ∀ state seen label, invariant state seen → property state seen →
      ((∃ next shown, machine.step state label = some (next, shown) ∧ property next (seen ++ shown)) ↔
        condition state label))
    (kept : ∀ state seen label next shown, invariant state seen → property state seen →
      condition state label → machine.step state label = some (next, shown) →
      invariant next (seen ++ shown)) :
    machine.Completes property labels ↔ machine.Guarded condition labels := by
  have good : ∀ labels state events, machine.Guarded condition labels →
      machine.Exec labels state events → invariant state events ∧ property state events := by
    intro labels
    induction labels using List.reverseRecOn with
    | nil =>
        intro state events _ exec
        obtain ⟨rfl, rfl⟩ := exec.functional .start
        exact atStart
    | append_singleton labels label inductionHypothesis =>
        intro state events guarded exec
        obtain ⟨earlier, atEnd⟩ := guarded_snoc_iff.mp guarded
        obtain ⟨middle, seen, shown, before, taken, rfl⟩ := exec.unsnoc
        obtain ⟨holdsInvariant, holds⟩ := inductionHypothesis middle seen earlier before
        have meets := atEnd middle seen before
        refine ⟨kept _ _ _ _ _ holdsInvariant holds meets taken, ?_⟩
        obtain ⟨next, events, takenAgain, holdsNext⟩ := (exact _ _ _ holdsInvariant holds).mpr meets
        obtain ⟨rfl, rfl⟩ := Prod.mk.inj (Option.some.inj (taken.symm.trans takenAgain))
        exact holdsNext
  induction labels using List.reverseRecOn with
  | nil => exact ⟨fun _ => guarded_nil, fun _ => ⟨⟨_, _, .start⟩, always_nil_iff.mpr atStart.2⟩⟩
  | append_singleton labels label inductionHypothesis =>
      rw [completes_snoc_iff, guarded_snoc_iff]
      constructor
      · rintro ⟨completes, atEnd⟩
        have guarded := inductionHypothesis.mp completes
        refine ⟨guarded, fun state events exec => ?_⟩
        obtain ⟨holdsInvariant, holds⟩ := good _ _ _ guarded exec
        exact (exact _ _ _ holdsInvariant holds).mp (atEnd state events exec)
      · rintro ⟨guarded, atEnd⟩
        refine ⟨inductionHypothesis.mpr guarded, fun state events exec => ?_⟩
        obtain ⟨holdsInvariant, holds⟩ := good _ _ _ guarded exec
        exact (exact _ _ _ holdsInvariant holds).mpr (atEnd state events exec)

end Machine

end SimpleBasicComponents.Semantics
