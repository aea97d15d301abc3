import SimpleBasicComponents.TryCatch.Simulation

/-!
How often the `Finally` of a block runs.

Owns: what is required of the phases of a block that has a `Finally`, the proof
that the structured run of every program meets it block by block, and the
theorem about the runs of the machine. A block whose chosen `Catch` raises is
abandoned: its frame was popped before the handler began, so the exception goes
to the next outer `Try` and the `Finally` does not run.
-/

namespace SimpleBasicComponents.TryCatch

open SimpleBasicComponents.Semantics

/-! ### Requirements -/

/-- A `Catch` of the block was begun and none of its branches came to its end:
an exception has left the handler. -/
def LeftByHandler (phases : List Phase) : Prop := .catchBegun ∈ phases ∧ .branchClosed ∉ phases

/-- The `Finally` runs once, and before the block is left. -/
def FinallyOnce (phases : List Phase) : Prop :=
  phases.count .finallyBegun = 1 ∧ .finallyBegun ∈ phases.takeWhile (· ≠ .left)

instance (phases : List Phase) : Decidable (LeftByHandler phases) :=
  inferInstanceAs (Decidable (_ ∧ _))

instance (phases : List Phase) : Decidable (FinallyOnce phases) :=
  inferInstanceAs (Decidable (_ ∧ _))

/-- The `Finally` runs once unless a handler raises; then it does not run. -/
def Finalized (phases : List Phase) : Prop :=
  if LeftByHandler phases then .finallyBegun ∉ phases else FinallyOnce phases

instance (phases : List Phase) : Decidable (Finalized phases) :=
  inferInstanceAs (Decidable (if LeftByHandler phases then _ else _))

/-! ### Phases of parts of a run -/

theorem phases_append (block : Addr) (first second : List Mark) :
    phases block (first ++ second) = phases block first ++ phases block second :=
  List.filterMap_append

theorem phases_eq_nil {block : Addr} {marks : List Mark} (others : ∀ mark ∈ marks, mark.block ≠ block) :
    phases block marks = [] := by
  rw [phases, List.filterMap_eq_nil_iff]
  intro mark member
  exact if_neg (others mark member)

theorem phases_singleton (block : Addr) (phase : Phase) : phases block [⟨block, phase⟩] = [phase] := by
  simp [phases]

/-- Apart from the own block, if any, the marks are of blocks entered in this part of the run, and
each of these meets the requirement. -/
structure Within (own : Addr → Prop) (lower : Nat) (run : Run) : Prop where
  le : lower ≤ run.blocks
  marks : ∀ mark ∈ run.marks, own mark.block ∨ lower ≤ mark.block ∧ mark.block < run.blocks
  finalized : ∀ block, ¬ own block → .entered true ∈ phases block run.marks →
    Finalized (phases block run.marks)

section

variable {own : Addr → Prop} {block : Addr} {lower : Nat} {run first : Run} {second : Nat → Run}
  {done raised doneFirst raisedFirst doneLast raisedLast : List Phase → Prop}

theorem andThen_of_done (isDone : first.outcome = .done) :
    first.andThen second = ⟨first.shown ++ (second first.blocks).shown,
      first.marks ++ (second first.blocks).marks, (second first.blocks).blocks,
      (second first.blocks).outcome⟩ := by
  rw [Run.andThen, isDone]

theorem andThen_of_raised {exception : NtyException} {site : Nat}
    (isRaised : first.outcome = .raised exception site) : first.andThen second = first := by
  rw [Run.andThen, isRaised]

theorem Within.unmarked (none : run.marks = []) (le : lower ≤ run.blocks) : Within own lower run where
  le := le
  marks := by
    rw [none]
    simp
  finalized := by
    intro block _ isEntered
    rw [none] at isEntered
    simp [phases] at isEntered

/-- A block is marked in one of the two parts only. -/
theorem Within.andThen (one : Within own lower first)
    (two : first.outcome = .done → Within own first.blocks (second first.blocks)) :
    Within own lower (first.andThen second) := by
  cases outcome : first.outcome with
  | raised exception site =>
      rw [andThen_of_raised outcome]
      exact one
  | done =>
      have two := two outcome
      rw [andThen_of_done outcome]
      refine ⟨one.le.trans two.le, ?_, ?_⟩
      · intro mark member
        rcases List.mem_append.mp member with before | after
        · rcases one.marks mark before with isOwn | ⟨le, less⟩
          · exact .inl isOwn
          · exact .inr ⟨le, Nat.lt_of_lt_of_le less two.le⟩
        · rcases two.marks mark after with isOwn | ⟨le, less⟩
          · exact .inl isOwn
          · exact .inr ⟨one.le.trans le, less⟩
      · intro block notOwn isEntered
        simp only at isEntered ⊢
        rw [phases_append] at isEntered ⊢
        by_cases early : block < first.blocks
        · have notLater : phases block (second first.blocks).marks = [] := by
            apply phases_eq_nil
            rintro mark member rfl
            rcases two.marks mark member with isOwn | ⟨le, _⟩
            · exact notOwn isOwn
            · exact Nat.not_lt_of_le le early
          rw [notLater, List.append_nil] at isEntered ⊢
          exact one.finalized block notOwn isEntered
        · have notBefore : phases block first.marks = [] := by
            apply phases_eq_nil
            rintro mark member rfl
            rcases one.marks mark member with isOwn | ⟨_, less⟩
            · exact notOwn isOwn
            · exact early less
          rw [notBefore, List.nil_append] at isEntered ⊢
          exact two.finalized block notOwn isEntered

/-- A part of the run inside of a block, and which phases of the block it goes
through if it ends normally or with an exception. -/
structure Inside (block : Addr) (lower : Nat) (run : Run) (done raised : List Phase → Prop) :
    Prop where
  within : Within (· = block) lower run
  phases : match run.outcome with
    | .done => done (phases block run.marks)
    | .raised _ _ => raised (phases block run.marks)

theorem Inside.ofMark (block : Addr) (phase : Phase) (lower : Nat) :
    Inside block lower (Run.ofMark block phase lower) (· = [phase]) (fun _ => False) where
  within :=
    { le := Nat.le_refl lower
      marks := by
        intro mark member
        rw [List.mem_singleton.mp member]
        exact .inl rfl
      finalized := by
        intro other notOwn isEntered
        rw [phases_eq_nil] at isEntered
        · simp at isEntered
        · intro mark member
          rw [List.mem_singleton.mp member]
          exact Ne.symm notOwn }
  phases := phases_singleton block phase

theorem Inside.ofBehaviour (behaviour : Behaviour) (block : Addr) (lower : Nat) :
    Inside block lower (Run.ofBehaviour behaviour lower) (· = []) (· = []) where
  within := .unmarked rfl (Nat.le_refl lower)
  phases := by
    obtain ⟨shown, outcome⟩ := behaviour
    cases outcome <;> rfl

/-- A program run inside of the block leaves no marks of it. -/
theorem Within.inside (within : Within (fun _ => False) lower run) (below : block < lower) :
    Inside block lower run (· = []) (· = []) := by
  have isNil : TryCatch.phases block run.marks = [] := by
    apply phases_eq_nil
    rintro mark member rfl
    rcases within.marks mark member with isOwn | ⟨le, _⟩
    · exact isOwn
    · exact Nat.not_lt_of_le le below
  refine ⟨⟨within.le, fun mark member => .inr ?_, fun other _ => within.finalized other id⟩, ?_⟩
  · exact (within.marks mark member).resolve_left id
  · cases run.outcome <;> exact isNil

theorem Within.caught_inside (within : Within (fun _ => False) lower run) (below : block < lower) :
    Inside block lower run.caught (· = []) (fun _ => False) where
  within :=
    have inside := (within.inside below).within
    ⟨inside.le, inside.marks, inside.finalized⟩
  phases := by
    have isNil := (within.inside below).phases
    cases outcome : run.outcome <;> rw [outcome] at isNil <;> exact isNil

theorem Inside.andThen (one : Inside block lower first doneFirst raisedFirst)
    (two : ∀ before, doneFirst before → Inside block first.blocks (second first.blocks)
      (fun after => done (before ++ after)) (fun after => raised (before ++ after)))
    (stops : ∀ before, raisedFirst before → raised before) :
    Inside block lower (first.andThen second) done raised := by
  have holds := one.phases
  refine ⟨one.within.andThen fun outcome => ?_, ?_⟩
  · rw [outcome] at holds
    exact (two _ holds).within
  · cases outcome : first.outcome with
    | raised exception site =>
        rw [outcome] at holds
        rw [andThen_of_raised outcome]
        simp only [outcome]
        exact stops _ holds
    | done =>
        rw [outcome] at holds
        have later := (two _ holds).phases
        rw [andThen_of_done outcome]
        simp only [phases_append]
        exact later

theorem Inside.mono (inside : Inside block lower run doneFirst raisedFirst)
    (onDone : ∀ own, doneFirst own → done own) (onRaised : ∀ own, raisedFirst own → raised own) :
    Inside block lower run done raised := by
  refine ⟨inside.within, ?_⟩
  have holds := inside.phases
  cases outcome : run.outcome with
  | done =>
      rw [outcome] at holds
      exact onDone _ holds
  | raised exception site =>
      rw [outcome] at holds
      exact onRaised _ holds

end

/-! ### Every block of a program -/

/-- The phases of a `Finally` that is run to its end. -/
def finalPhases (hasFinally : Bool) : List Phase :=
  if hasFinally then [.finallyBegun, .branchClosed] else []

/-- The own phases of a whole block are as required. -/
def Required (own : List Phase) : Prop := .entered true ∈ own → Finalized own

instance (own : List Phase) : Decidable (Required own) := inferInstanceAs (Decidable (_ → _))

/-- The `Catch` that takes an exception begins, and ends unless it raises. -/
def CatchInside (active : Bool) (block : Addr) (handlers : Handlers) : Prop :=
  ∀ exception lower handled, block < lower →
    handlers.catchRun active block exception lower = some handled →
      Inside block lower handled (· = [.catchBegun, .branchClosed]) (· = [.catchBegun])

/-- So does the `Finally`, if there is one. -/
def FinalInside (active : Bool) (block : Addr) (handlers : Handlers) : Prop :=
  ∀ lower, block < lower → Inside block lower (handlers.finalRun active block lower)
    (· = finalPhases handlers.hasFinally)
    (fun own => handlers.hasFinally = true ∧ own = [.finallyBegun])

/-- A block is over after its `Finally`, whether this ends normally or not. -/
private theorem Inside.finish {block : Addr} {lower : Nat} {final : Run} {hasFinally : Bool}
    {required : List Phase → Prop}
    (inside : Inside block lower final (· = finalPhases hasFinally)
      (fun own => hasFinally = true ∧ own = [.finallyBegun]))
    (left : required (finalPhases hasFinally ++ [.left]))
    (abandoned : hasFinally = true → required [.finallyBegun]) :
    Inside block lower (final.andThen (Run.ofMark block .left)) required required := by
  apply inside.andThen
  · rintro own rfl
    apply (Inside.ofMark block .left final.blocks).mono
    · rintro after rfl
      exact left
    · exact fun _ impossible => impossible.elim
  · rintro own ⟨has, rfl⟩
    exact abandoned has

/-- A `Catch` or the `Finally`, around a program that leaves no marks of the block. -/
private theorem Inside.branch {block : Addr} {phase : Phase} {lower : Nat} {second : Nat → Run}
    (below : block < lower) (within : Within (fun _ => False) lower (second lower)) :
    Inside block lower
      (((Run.ofMark block phase lower).andThen second).andThen (Run.ofMark block .branchClosed))
      (· = [phase, .branchClosed]) (· = [phase]) := by
  have begun : Inside block lower ((Run.ofMark block phase lower).andThen second)
      (· = [phase]) (· = [phase]) := by
    apply (Inside.ofMark block phase lower).andThen
    · rintro before rfl
      apply (within.inside below).mono
      · rintro own rfl
        rfl
      · rintro own rfl
        rfl
    · exact fun _ impossible => impossible.elim
  apply begun.andThen
  · rintro before rfl
    apply (Inside.ofMark block .branchClosed _).mono
    · rintro own rfl
      rfl
    · exact fun _ impossible => impossible.elim
  · exact fun _ same => same

section

variable {active : Bool} {block : Addr} {handlers : Handlers}

/-- From the end of the body on a block goes through the phases it should. -/
private theorem afterBody_inside (caught : CatchInside active block handlers)
    (final : FinalInside active block handlers) (outcome : Outcome) {blocks : Nat} (below : block < blocks) :
    Inside block blocks
      (Run.afterBody active block (fun exception later => handlers.catchRun active block exception later)
        (fun later => handlers.finalRun active block later) outcome blocks)
      (fun after => Required ([.entered handlers.hasFinally] ++ after))
      (fun after => Required ([.entered handlers.hasFinally] ++ after)) := by
  cases outcome with
  | done =>
      rw [Run.afterBody]
      apply (Inside.ofMark block .branchClosed blocks).andThen
      · rintro closed rfl
        apply Inside.finish (final blocks below)
        · cases handlers.hasFinally <;> decide
        · intro has
          rw [has]
          decide
      · exact fun _ impossible => impossible.elim
  | raised exception site =>
      rw [Run.afterBody]
      cases isCaught : handlers.catchRun active block exception blocks with
      | some handled =>
          have handlerInside := caught exception blocks handled below isCaught
          apply handlerInside.andThen
          · rintro handler rfl
            apply Inside.finish (final handled.blocks (Nat.lt_of_lt_of_le below handlerInside.within.le))
            · cases handlers.hasFinally <;> decide
            · intro has
              rw [has]
              decide
          · rintro handler rfl
            cases handlers.hasFinally <;> decide
      | none =>
          apply (final blocks below).andThen
          · rintro finalized rfl
            apply (Inside.ofBehaviour (raise active exception none site) block _).andThen
            · rintro nothing rfl
              apply (Inside.ofMark block .left _).mono
              · rintro left rfl
                cases handlers.hasFinally <;> decide
              · exact fun _ impossible => impossible.elim
            · rintro nothing rfl
              cases handlers.hasFinally <;> decide
          · rintro finalized ⟨has, rfl⟩
            rw [has]
            decide

private theorem tryBlock_within {body : Program}
    (bodyWithin : Within (fun _ => False) (block + 1) (body.run true (block + 1)))
    (caught : CatchInside active block handlers) (final : FinalInside active block handlers) :
    Within (fun _ => False) block ((Program.tryBlock body handlers).run active block) := by
  have inside : Inside block (block + 1) ((Program.tryBlock body handlers).run active block)
      Required Required := by
    rw [Program.run]
    apply (Inside.ofMark block (.entered handlers.hasFinally) (block + 1)).andThen
    · rintro entered rfl
      apply (bodyWithin.caught_inside (Nat.lt_succ_self block)).andThen
      · rintro nothing rfl
        exact afterBody_inside caught final _ bodyWithin.le
      · exact fun _ impossible => impossible.elim
    · exact fun _ impossible => impossible.elim
  refine ⟨(Nat.le_succ block).trans inside.within.le, ?_, ?_⟩
  · intro mark member
    rcases inside.within.marks mark member with isOwn | ⟨le, less⟩
    · exact .inr ⟨Nat.le_of_eq isOwn.symm, isOwn ▸ inside.within.le⟩
    · exact .inr ⟨(Nat.le_succ block).trans le, less⟩
  · intro other _ isEntered
    by_cases isOwn : other = block
    · subst isOwn
      have required := inside.phases
      cases outcome : ((Program.tryBlock body handlers).run active other).outcome with
      | done =>
          rw [outcome] at required
          exact required isEntered
      | raised exception site =>
          rw [outcome] at required
          exact required isEntered
    · exact inside.within.finalized other isOwn isEntered

end

mutual

theorem program_within (active : Bool) (lower : Nat) :
    ∀ program : Program, Within (fun _ => False) lower (program.run active lower)
  | .skip => .unmarked rfl (Nat.le_refl lower)
  | .action _ => .unmarked rfl (Nat.le_refl lower)
  | .throw _ _ _ => .unmarked rfl (Nat.le_refl lower)
  | .seq first second => by
      rw [Program.run]
      exact (program_within active lower first).andThen fun _ => program_within active _ second
  | .tryBlock body handlers =>
      tryBlock_within (program_within true (lower + 1) body) (catch_inside active lower handlers)
        (final_inside active lower handlers)

theorem catch_inside (active : Bool) (block : Addr) :
    ∀ handlers : Handlers, CatchInside active block handlers
  | .endTry => by
      intro raised lower handled _ isHandled
      rw [Handlers.catchRun] at isHandled
      contradiction
  | .finallyEndTry _ => by
      intro raised lower handled _ isHandled
      rw [Handlers.catchRun] at isHandled
      contradiction
  | .catch exception handler rest => by
      intro raised lower handled below isHandled
      rw [Handlers.catchRun] at isHandled
      split at isHandled
      · rw [← Option.some.inj isHandled]
        exact Inside.branch below (program_within active lower handler)
      · exact catch_inside active block rest raised lower handled below isHandled

theorem final_inside (active : Bool) (block : Addr) :
    ∀ handlers : Handlers, FinalInside active block handlers
  | .endTry => fun lower _ => ⟨.unmarked rfl (Nat.le_refl lower), rfl⟩
  | .finallyEndTry final => by
      intro lower below
      apply (Inside.branch below (program_within active lower final)).mono
      · exact fun _ same => same
      · exact fun _ same => ⟨rfl, same⟩
  | .catch _ _ rest => final_inside active block rest

end

/-! ### Runs of the machine -/

/-- Every program ends, and in its run the `Finally` of each block that was
entered runs exactly once before the block is left, unless the chosen `Catch`
of the block is left by an exception; then it does not run. -/
theorem finally_runs_once_unless_handler_raises (program : Program) :
    (∃ labels heap events, (machine program).Exec labels ⟨[], heap, none⟩ events) ∧
      ∀ labels heap stack events, (machine program).Exec labels ⟨[], heap, stack⟩ events →
        ∃ seen, (observedMachine program).Exec labels ⟨[], heap, stack⟩ seen ∧
          seen.filterMap Sum.getRight? = events ∧
          ∀ block, .entered true ∈ phases block (seen.filterMap Sum.getLeft?) →
            Finalized (phases block (seen.filterMap Sum.getLeft?)) := by
  have ⟨_, ran, last, all, exec, isMarks, _⟩ := observedMachine_run program
  refine ⟨⟨ran, last, _, exec.erase⟩, ?_⟩
  intro labels heap stack events reached
  have ⟨seen, observed, isEvents⟩ := reached.to_observed observe
  have ⟨_, sameSeen⟩ := exec.ended_unique rfl observed rfl
  refine ⟨seen, observed, isEvents, ?_⟩
  intro block isEntered
  rw [← sameSeen, isMarks] at isEntered ⊢
  exact (program_within false 0 program).finalized block id isEntered

/-- The inner handler raises, and the outer `Try` handles that. -/
def raisingHandler : Program :=
  .tryBlock
    (.tryBlock (.throw 1 none 0) (.catch 1 (.throw 2 none 1) (.finallyEndTry (.action 11))))
    (.catch 2 (.action 12) .endTry)

/-- Its run ends without the `Finally` of the inner block. -/
theorem raisingHandler_skips_finally :
    ∃ labels heap seen, (observedMachine raisingHandler).Exec labels ⟨[], heap, none⟩ seen ∧
      .entered true ∈ phases 1 (seen.filterMap Sum.getLeft?) ∧
      (phases 1 (seen.filterMap Sum.getLeft?)).count .finallyBegun = 0 := by
  refine ⟨List.replicate 38 (), _, _, (observedMachine raisingHandler).exec_of_run rfl, ?_, ?_⟩
  · decide
  · decide

end SimpleBasicComponents.TryCatch
