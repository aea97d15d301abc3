import SimpleBasicComponents.Semantics.Loop

/-!
Partial correctness of computations that may fault.

`Ensures computation post` says that every result of the computation has the
property; a computation without a result has nothing to show. The rules follow
the shape of the computation: one for each way to put computations together, and
one for loops with an invariant.
-/

namespace SimpleBasicComponents.Semantics

universe u

variable {α β : Type u}

def Ensures (computation : Option α) (post : α → Prop) : Prop :=
  ∀ result, computation = some result → post result

namespace Ensures

variable {computation : Option α} {next : α → Option β} {middle post : α → Prop}
  {last : β → Prop} {result : α}

theorem of_none : Ensures none post := by
  intro result ran
  contradiction

theorem of_some (holds : post result) : Ensures (some result) post := by
  intro other ran
  rw [← Option.some.inj ran]
  exact holds

theorem of_pure (holds : post result) : Ensures (pure result) post := of_some holds

/-- What the first part ensures is known in the second. -/
theorem bind (first : Ensures computation middle)
    (second : ∀ result, middle result → Ensures (next result) last) :
    Ensures (computation >>= next) last := by
  intro result ran
  have ⟨value, ranFirst, ranSecond⟩ := Option.bind_eq_some_iff.mp ran
  exact second value (first value ranFirst) result ranSecond

/-- Nothing need be known of the first part. -/
theorem bind_any (second : ∀ result, computation = some result → Ensures (next result) last) :
    Ensures (computation >>= next) last :=
  @bind _ _ computation next (fun value => computation = some value) last (fun _ ran => ran) second

theorem ite {condition : Prop} [Decidable condition] {other : Option α}
    (isTrue : condition → Ensures computation post) (isFalse : ¬ condition → Ensures other post) :
    Ensures (if condition then computation else other) post := by
  split
  · exact isTrue ‹_›
  · exact isFalse ‹_›

end Ensures

/-- What a turn may lead to. -/
def Turn.Within {State Result : Type*} (invariant : State → Prop) (post : Result → Prop) :
    Turn State Result → Prop
  | .fault => True
  | .leave result => post result
  | .again state => invariant state

/-- A loop whose turns keep the invariant, or leave with the property. -/
theorem Ensures.of_turns {State Result : Type*} {turn : State → Turn State Result}
    {invariant : State → Prop} {post : Result → Prop} {fuel : Nat} {state : State}
    (keeps : ∀ state, invariant state → (turn state).Within invariant post)
    (holds : invariant state) : Ensures (loop turn fuel state) post := by
  induction fuel generalizing state with
  | zero => exact .of_none
  | succ fuel inductionHypothesis =>
      have within := keeps state holds
      rw [loop]
      cases isTurn : turn state with
      | fault => exact .of_none
      | leave result =>
          rw [isTurn] at within
          exact .of_some within
      | again next =>
          rw [isTurn] at within
          exact inductionHypothesis within

/-- The same where the turn itself may fault on its way. -/
theorem ensures_loop {State Result : Type*} {turn : State → Option (Turn State Result)}
    {invariant : State → Prop} {post : Result → Prop} {fuel : Nat} {state : State}
    (keeps : ∀ state, invariant state → Ensures (turn state) (Turn.Within invariant post))
    (holds : invariant state) : Ensures (loop (fun state => .orFault (turn state)) fuel state) post := by
  refine .of_turns ?_ holds
  intro state holds
  have within := keeps state holds
  cases isTurn : turn state with
  | none => exact trivial
  | some taken => exact within taken isTurn

end SimpleBasicComponents.Semantics
