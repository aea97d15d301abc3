import Mathlib.Algebra.BigOperators.Group.Finset.Basic
import Mathlib.Data.Fintype.Basic
import Mathlib.Data.List.Nodup
import Mathlib.Logic.Function.Basic
import Mathlib.Tactic.ByContra
import SimpleBasicComponents.Semantics.Acyclic
import SimpleBasicComponents.Semantics.Machine

/-!
Threads that lock and unlock mutexes.

Each thread has a list of locks and unlocks to make. A lock of a mutex that is held
waits; an unlock is for the thread that holds the mutex. `Disciplined` programs lock
nothing twice and unlock what they have locked; their threads can only wait for each
other, so where none can go on they wait in a cycle (`exec_cycle`), and a state in which
at most one thread both holds a mutex and has one still to lock can be run to the end
(`exec_finishes`).
-/

namespace SimpleBasicComponents.Semantics.Locking

open Relation

inductive Action (Mutex : Type*) where
  | lock (mutex : Mutex)
  | unlock (mutex : Mutex)
deriving DecidableEq, Repr

structure State (Thread Mutex : Type*) where
  /-- What the thread has still to do. -/
  rest : Thread → List (Action Mutex)
  owner : Mutex → Option Thread

variable {Thread Mutex : Type*} [DecidableEq Thread] [DecidableEq Mutex]

/-- The thread goes on to `rest`, and the mutex changes hands. -/
def State.advance (state : State Thread Mutex) (thread : Thread) (rest : List (Action Mutex)) (mutex : Mutex)
    (owner : Option Thread) : State Thread Mutex :=
  ⟨Function.update state.rest thread rest, Function.update state.owner mutex owner⟩

section

variable (state : State Thread Mutex) (thread : Thread) (rest : List (Action Mutex)) (mutex : Mutex)
  (owner : Option Thread)

@[simp] theorem State.advance_rest_self : (state.advance thread rest mutex owner).rest thread = rest :=
  Function.update_self ..

@[simp] theorem State.advance_owner_self : (state.advance thread rest mutex owner).owner mutex = owner :=
  Function.update_self ..

variable {state thread rest mutex owner}

theorem State.advance_rest_other {other : Thread} (different : other ≠ thread) :
    (state.advance thread rest mutex owner).rest other = state.rest other :=
  Function.update_of_ne different ..

theorem State.advance_owner_other {other : Mutex} (different : other ≠ mutex) :
    (state.advance thread rest mutex owner).owner other = state.owner other :=
  Function.update_of_ne different ..

end

def step (state : State Thread Mutex) (thread : Thread) :
    Option (State Thread Mutex × List (Thread × Action Mutex)) :=
  match state.rest thread with
  | [] => none
  | .lock mutex :: rest =>
      if state.owner mutex = none then
        some (state.advance thread rest mutex (some thread), [(thread, .lock mutex)])
      else none
  | .unlock mutex :: rest =>
      if state.owner mutex = some thread then
        some (state.advance thread rest mutex none, [(thread, .unlock mutex)])
      else none

/-- A run of the threads; its labels say which thread goes on. -/
def machine (program : Thread → List (Action Mutex)) :
    Machine (State Thread Mutex) Thread (Thread × Action Mutex) where
  start := ⟨program, fun _ => none⟩
  step := step

/-- With these mutexes held, the list locks none of them again before it unlocks it,
unlocks only what is held, and leaves none held. -/
def Disciplined : List Mutex → List (Action Mutex) → Prop
  | held, [] => held = []
  | held, .lock mutex :: rest => mutex ∉ held ∧ Disciplined (mutex :: held) rest
  | held, .unlock mutex :: rest => mutex ∈ held ∧ Disciplined (held.erase mutex) rest

instance decidableDisciplined : (held : List Mutex) → (rest : List (Action Mutex)) →
    Decidable (Disciplined held rest)
  | held, [] => inferInstanceAs (Decidable (held = []))
  | held, .lock mutex :: rest =>
      have := decidableDisciplined (mutex :: held) rest
      inferInstanceAs (Decidable (mutex ∉ held ∧ Disciplined (mutex :: held) rest))
  | held, .unlock mutex :: rest =>
      have := decidableDisciplined (held.erase mutex) rest
      inferInstanceAs (Decidable (mutex ∈ held ∧ Disciplined (held.erase mutex) rest))

/-- The thread is about to lock what the other one holds. -/
def WaitsFor (state : State Thread Mutex) (thread other : Thread) : Prop :=
  ∃ mutex rest, state.rest thread = .lock mutex :: rest ∧ state.owner mutex = some other

/-- The thread holds a mutex and has one still to lock. -/
def Acquiring (state : State Thread Mutex) (thread : Thread) : Prop :=
  (∃ mutex, state.owner mutex = some thread) ∧ ∃ mutex, .lock mutex ∈ state.rest thread

def Finished (state : State Thread Mutex) : Prop := ∀ thread, state.rest thread = []

/-! ### The invariant -/

/-- What the owners say of each thread is what its remaining list takes for granted. -/
structure Held (state : State Thread Mutex) (held : Thread → List Mutex) : Prop where
  owner : ∀ thread mutex, state.owner mutex = some thread ↔ mutex ∈ held thread
  distinct : ∀ thread, (held thread).Nodup
  disciplined : ∀ thread, Disciplined (held thread) (state.rest thread)

section

variable {state next : State Thread Mutex} {held : Thread → List Mutex} {thread other : Thread}
  {shown : List (Thread × Action Mutex)} {mutex : Mutex} {rest : List (Action Mutex)}

private theorem update_cases {Value : Type*} {property : Thread → Value → Prop} {values : Thread → Value}
    {value : Value} (here : property thread value) (others : ∀ other, other ≠ thread → property other (values other)) :
    ∀ other, property other (Function.update values thread value other) := by
  intro other
  by_cases same : other = thread
  · rw [same, Function.update_self]
    exact here
  · rw [Function.update_of_ne same]
    exact others other same

theorem Held.lock (keeps : Held state held) (isRest : state.rest thread = .lock mutex :: rest)
    (free : state.owner mutex = none) :
    Held (state.advance thread rest mutex (some thread))
      (Function.update held thread (mutex :: held thread)) := by
  have ⟨absent, disciplined⟩ : mutex ∉ held thread ∧ Disciplined (mutex :: held thread) rest := by
    have here := keeps.disciplined thread
    rw [isRest] at here
    exact here
  refine ⟨?_, ?_, ?_⟩
  · intro other wanted
    by_cases sameMutex : wanted = mutex
    · rw [sameMutex, State.advance_owner_self]
      by_cases same : other = thread
      · simp [same]
      · rw [Function.update_of_ne same, ← keeps.owner, free]
        simp [Ne.symm same]
    · rw [State.advance_owner_other sameMutex, keeps.owner]
      by_cases same : other = thread
      · simp [same, sameMutex]
      · rw [Function.update_of_ne same]
  · exact update_cases (List.nodup_cons.mpr ⟨absent, keeps.distinct thread⟩) fun other _ => keeps.distinct other
  · intro other
    by_cases same : other = thread
    · rw [same, Function.update_self, State.advance_rest_self]
      exact disciplined
    · rw [Function.update_of_ne same, State.advance_rest_other same]
      exact keeps.disciplined other

theorem Held.unlock (keeps : Held state held) (isRest : state.rest thread = .unlock mutex :: rest) :
    Held (state.advance thread rest mutex none)
      (Function.update held thread ((held thread).erase mutex)) := by
  have ⟨member, disciplined⟩ : mutex ∈ held thread ∧ Disciplined ((held thread).erase mutex) rest := by
    have here := keeps.disciplined thread
    rw [isRest] at here
    exact here
  have isOwner := (keeps.owner thread mutex).mpr member
  refine ⟨?_, ?_, ?_⟩
  · intro other wanted
    by_cases sameMutex : wanted = mutex
    · rw [sameMutex, State.advance_owner_self]
      by_cases same : other = thread
      · rw [same, Function.update_self, (keeps.distinct thread).mem_erase_iff]
        simp
      · rw [Function.update_of_ne same, ← keeps.owner, isOwner]
        simp [Ne.symm same]
    · rw [State.advance_owner_other sameMutex, keeps.owner]
      by_cases same : other = thread
      · rw [same, Function.update_self, (keeps.distinct thread).mem_erase_iff]
        simp [sameMutex]
      · rw [Function.update_of_ne same]
  · exact update_cases ((keeps.distinct thread).erase mutex) fun other _ => keeps.distinct other
  · intro other
    by_cases same : other = thread
    · rw [same, Function.update_self, State.advance_rest_self]
      exact disciplined
    · rw [Function.update_of_ne same, State.advance_rest_other same]
      exact keeps.disciplined other

/-- What a step of a thread does. -/
inductive Takes (state : State Thread Mutex) (thread : Thread) :
    State Thread Mutex → List (Thread × Action Mutex) → Prop
  | lock {mutex : Mutex} {rest : List (Action Mutex)} (isRest : state.rest thread = .lock mutex :: rest)
      (free : state.owner mutex = none) :
      Takes state thread (state.advance thread rest mutex (some thread)) [(thread, .lock mutex)]
  | unlock {mutex : Mutex} {rest : List (Action Mutex)} (isRest : state.rest thread = .unlock mutex :: rest)
      (isOwner : state.owner mutex = some thread) :
      Takes state thread (state.advance thread rest mutex none) [(thread, .unlock mutex)]

theorem step_takes (taken : step state thread = some (next, shown)) : Takes state thread next shown := by
  unfold step at taken
  split at taken
  · contradiction
  · rename_i mutex rest isRest
    split at taken
    · rename_i free
      obtain ⟨rfl, rfl⟩ := Prod.mk.inj (Option.some.inj taken)
      exact .lock isRest free
    · contradiction
  · rename_i mutex rest isRest
    split at taken
    · rename_i isOwner
      obtain ⟨rfl, rfl⟩ := Prod.mk.inj (Option.some.inj taken)
      exact .unlock isRest isOwner
    · contradiction

theorem Held.step (keeps : Held state held) (taken : step state thread = some (next, shown)) :
    ∃ held, Held next held := by
  cases step_takes taken with
  | lock isRest free => exact ⟨_, keeps.lock isRest free⟩
  | unlock isRest => exact ⟨_, keeps.unlock isRest⟩

omit [DecidableEq Thread] in
/-- A thread that holds something has it still to unlock. -/
theorem Held.unfinished (keeps : Held state held) (isOwner : state.owner mutex = some thread) :
    state.rest thread ≠ [] := by
  intro done
  have member := (keeps.owner thread mutex).mp isOwner
  have nothing := keeps.disciplined thread
  rw [done] at nothing
  have isNil : held thread = [] := nothing
  rw [isNil] at member
  contradiction

/-- Only a lock is ever refused, and only for another thread's sake. -/
theorem Held.waits (keeps : Held state held) (refused : Locking.step state thread = none)
    (unfinished : state.rest thread ≠ []) :
    ∃ other, WaitsFor state thread other ∧ other ≠ thread ∧ state.rest other ≠ [] := by
  have disciplined := keeps.disciplined thread
  unfold Locking.step at refused
  split at refused
  · contradiction
  · rename_i mutex rest isRest
    rw [isRest] at disciplined
    split at refused
    · contradiction
    · rename_i taken
      have ⟨other, isOwner⟩ := Option.ne_none_iff_exists'.mp taken
      refine ⟨other, ⟨mutex, rest, isRest, isOwner⟩, ?_, keeps.unfinished isOwner⟩
      intro same
      exact disciplined.1 ((keeps.owner thread mutex).mp (same ▸ isOwner))
  · rename_i mutex rest isRest
    rw [isRest] at disciplined
    rw [if_pos ((keeps.owner thread mutex).mpr disciplined.1)] at refused
    contradiction

end

/-! ### Waiting in a cycle -/

section

variable {program : Thread → List (Action Mutex)} {state : State Thread Mutex} {threads : List Thread}
  {events : List (Thread × Action Mutex)}

theorem exec_held (disciplined : ∀ thread, Disciplined [] (program thread))
    (exec : (machine program).Exec threads state events) : ∃ held, Held state held := by
  induction exec with
  | start =>
      refine ⟨fun _ => [], ?_, fun _ => List.nodup_nil, disciplined⟩
      intro thread mutex
      simp [machine]
  | step before taken inductionHypothesis =>
      have ⟨held, keeps⟩ := inductionHypothesis
      exact keeps.step taken

/-- Threads that can none of them go on, and are not all finished, wait in a cycle. -/
theorem exec_cycle [Finite Thread] (disciplined : ∀ thread, Disciplined [] (program thread))
    (exec : (machine program).Exec threads state events) (stuck : ∀ thread, step state thread = none)
    (unfinished : ¬ Finished state) : ∃ thread, TransGen (WaitsFor state) thread thread := by
  have ⟨held, keeps⟩ := exec_held disciplined exec
  by_contra noCycle
  have acyclic : ∀ thread, Acyclic (WaitsFor state) thread := fun _ thread _ cycle => noCycle ⟨thread, cycle⟩
  have finished : ∀ thread, state.rest thread = [] := by
    intro thread
    have ends := acc_of_acyclic (Set.toFinite _) (acyclic thread)
    induction ends with
    | intro thread _ inductionHypothesis =>
        by_contra more
        have ⟨other, waits, _, moreOther⟩ := keeps.waits (stuck thread) more
        exact moreOther (inductionHypothesis other waits)
  exact unfinished finished

end

/-! ### Running to the end -/

section

variable {state : State Thread Mutex} {held : Thread → List Mutex} {thread : Thread}

/-- A thread whose locks are free to it can go on alone to its end. -/
theorem Held.runAlone (program : Thread → List (Action Mutex)) (keeps : Held state held)
    (free : ∀ mutex, .lock mutex ∈ state.rest thread →
      state.owner mutex = none ∨ state.owner mutex = some thread) :
    ∃ last shown, (machine program).Steps state shown last ∧
      last.rest = Function.update state.rest thread [] ∧ Held last (Function.update held thread []) := by
  generalize isRest : state.rest thread = rest at free
  induction rest generalizing state held with
  | nil =>
      have nothing := keeps.disciplined thread
      rw [isRest] at nothing
      have isNil : held thread = [] := nothing
      refine ⟨state, [], .refl state, ?_, ?_⟩
      · rw [← isRest, Function.update_eq_self]
      · rw [← isNil, Function.update_eq_self]
        exact keeps
  | cons action rest inductionHypothesis =>
      have disciplined := keeps.disciplined thread
      rw [isRest] at disciplined
      cases action with
      | lock mutex =>
          have isFree : state.owner mutex = none := by
            rcases free mutex List.mem_cons_self with isFree | own
            · exact isFree
            · exact absurd ((keeps.owner thread mutex).mp own) disciplined.1
          have taken : (machine program).step state thread =
              some (state.advance thread rest mutex (some thread), [(thread, .lock mutex)]) := by
            simp only [machine, Locking.step, isRest, if_pos isFree]
          have freeLater : ∀ wanted, .lock wanted ∈ rest →
              (state.advance thread rest mutex (some thread)).owner wanted = none ∨
                (state.advance thread rest mutex (some thread)).owner wanted = some thread := by
            intro wanted member
            by_cases same : wanted = mutex
            · rw [same, State.advance_owner_self]
              exact .inr rfl
            · rw [State.advance_owner_other same]
              exact free wanted (List.mem_cons_of_mem _ member)
          have ⟨last, shown, steps, isLast, keepsLast⟩ :=
            inductionHypothesis (keeps.lock isRest isFree) (State.advance_rest_self ..) freeLater
          rw [Function.update_idem] at keepsLast
          exact ⟨last, _, .step thread taken steps, isLast.trans (Function.update_idem ..), keepsLast⟩
      | unlock mutex =>
          have isOwner := (keeps.owner thread mutex).mpr disciplined.1
          have taken : (machine program).step state thread =
              some (state.advance thread rest mutex none, [(thread, .unlock mutex)]) := by
            simp only [machine, Locking.step, isRest, if_pos isOwner]
          have freeLater : ∀ wanted, .lock wanted ∈ rest →
              (state.advance thread rest mutex none).owner wanted = none ∨
                (state.advance thread rest mutex none).owner wanted = some thread := by
            intro wanted member
            by_cases same : wanted = mutex
            · rw [same, State.advance_owner_self]
              exact .inl rfl
            · rw [State.advance_owner_other same]
              exact free wanted (List.mem_cons_of_mem _ member)
          have ⟨last, shown, steps, isLast, keepsLast⟩ :=
            inductionHypothesis (keeps.unlock isRest) (State.advance_rest_self ..) freeLater
          rw [Function.update_idem] at keepsLast
          exact ⟨last, _, .step thread taken steps, isLast.trans (Function.update_idem ..), keepsLast⟩

/-- At most one thread holds a mutex and has one still to lock. -/
def SoleAcquirer (state : State Thread Mutex) : Prop :=
  ∀ thread other, Acquiring state thread → Acquiring state other → thread = other

omit [DecidableEq Thread] in
/-- A thread that is not finished and can go on alone to its end. -/
private theorem Held.exists_free (keeps : Held state held) (sole : SoleAcquirer state)
    (more : state.rest thread ≠ []) :
    ∃ first, state.rest first ≠ [] ∧ ∀ mutex, .lock mutex ∈ state.rest first →
      state.owner mutex = none ∨ state.owner mutex = some first := by
  by_cases lockless : ∃ first, state.rest first ≠ [] ∧ ∀ mutex, .lock mutex ∉ state.rest first
  · have ⟨first, moreFirst, noLock⟩ := lockless
    exact ⟨first, moreFirst, fun mutex member => absurd member (noLock mutex)⟩
  · -- Whoever holds a mutex has one still to lock.
    have acquires : ∀ other mutex, state.owner mutex = some other → Acquiring state other := by
      intro other mutex isOwner
      refine ⟨⟨mutex, isOwner⟩, ?_⟩
      by_contra noLock
      exact lockless ⟨other, keeps.unfinished isOwner, not_exists.mp noLock⟩
    by_cases busy : ∃ first, Acquiring state first
    · have ⟨first, acquiring⟩ := busy
      have ⟨mutex, isOwner⟩ := acquiring.1
      refine ⟨first, keeps.unfinished isOwner, fun wanted _ => ?_⟩
      cases isHeld : state.owner wanted with
      | none => exact .inl rfl
      | some other => exact .inr (congrArg some (sole other first (acquires other wanted isHeld) acquiring))
    · refine ⟨thread, more, fun wanted _ => .inl ?_⟩
      by_contra isHeld
      have ⟨other, isOwner⟩ := Option.ne_none_iff_exists'.mp isHeld
      exact busy ⟨other, acquires other wanted isOwner⟩

/-- A state in which at most one thread is acquiring can be run to the end: the threads go
one after the other. -/
theorem Held.finishes (program : Thread → List (Action Mutex)) (keeps : Held state held)
    (sole : SoleAcquirer state) (left : Finset Thread) (covers : ∀ thread, state.rest thread ≠ [] → thread ∈ left) :
    ∃ last shown, (machine program).Steps state shown last ∧ Finished last := by
  induction left using Finset.strongInduction generalizing state held with
  | H left inductionHypothesis =>
      by_cases done : Finished state
      · exact ⟨state, [], .refl state, done⟩
      · have ⟨thread, more⟩ := not_forall.mp done
        have ⟨first, moreFirst, free⟩ := keeps.exists_free sole more
        have ⟨middle, shown, steps, isRest, keepsMiddle⟩ := keeps.runAlone program free
        have soleMiddle : SoleAcquirer middle := by
          intro one two acquiringOne acquiringTwo
          have before : ∀ other, Acquiring middle other → Acquiring state other := by
            intro other acquiring
            have ⟨⟨held, isOwner⟩, lock, member⟩ := acquiring
            have different : other ≠ first := by
              intro same
              rw [isRest, same, Function.update_self] at member
              contradiction
            rw [isRest, Function.update_of_ne different] at member
            rw [keepsMiddle.owner, Function.update_of_ne different, ← keeps.owner] at isOwner
            exact ⟨⟨held, isOwner⟩, lock, member⟩
          exact sole one two (before one acquiringOne) (before two acquiringTwo)
        have fewer : left.erase first ⊂ left := Finset.erase_ssubset (covers first moreFirst)
        have coversMiddle : ∀ thread, middle.rest thread ≠ [] → thread ∈ left.erase first := by
          intro other moreOther
          rw [isRest] at moreOther
          by_cases same : other = first
          · rw [same, Function.update_self] at moreOther
            exact absurd rfl moreOther
          · rw [Function.update_of_ne same] at moreOther
            exact Finset.mem_erase.mpr ⟨same, covers other moreOther⟩
        have ⟨last, later, stepsLast, finished⟩ :=
          inductionHypothesis _ fewer keepsMiddle soleMiddle coversMiddle
        exact ⟨last, _, steps.trans stepsLast, finished⟩

end

/-! ### Threads that lock everything -/

/-- First all the mutexes are locked, then they are unlocked. -/
def Greedy (actions : List (Action Mutex)) : Prop :=
  ∃ locks unlocks : List Mutex, actions = locks.map .lock ++ unlocks.map .unlock ∧ ∀ mutex, mutex ∈ locks

/-- A thread that has mutexes still to lock holds the others. -/
def Phased (state : State Thread Mutex) (thread : Thread) : Prop :=
  ∃ locks unlocks : List Mutex, state.rest thread = locks.map .lock ++ unlocks.map .unlock ∧
    (locks ≠ [] → ∀ mutex, state.owner mutex = some thread ∨ mutex ∈ locks)

/-- Two threads are acquiring. -/
def Crossing (state : State Thread Mutex) (thread other : Thread) : Prop :=
  thread ≠ other ∧ Acquiring state thread ∧ Acquiring state other

section

variable {state next : State Thread Mutex} {thread other actor : Thread}
  {shown : List (Thread × Action Mutex)}

omit [DecidableEq Thread] [DecidableEq Mutex] in
private theorem phased_lock {locks unlocks : List Mutex} {mutex : Mutex} {rest : List (Action Mutex)}
    (isRest : .lock mutex :: rest = locks.map .lock ++ unlocks.map Action.unlock) :
    ∃ more, locks = mutex :: more ∧ rest = more.map .lock ++ unlocks.map .unlock := by
  cases locks with
  | nil =>
      cases unlocks with
      | nil => contradiction
      | cons first unlocks => exact absurd (List.cons.inj isRest).1 (by simp)
  | cons first more =>
      have ⟨same, sameRest⟩ := List.cons.inj isRest
      obtain rfl := Action.lock.inj same
      exact ⟨more, rfl, sameRest⟩

omit [DecidableEq Thread] [DecidableEq Mutex] in
private theorem phased_unlock {locks unlocks : List Mutex} {mutex : Mutex} {rest : List (Action Mutex)}
    (isRest : .unlock mutex :: rest = locks.map .lock ++ unlocks.map Action.unlock) :
    locks = [] ∧ ∃ more, unlocks = mutex :: more ∧ rest = more.map .unlock := by
  cases locks with
  | nil =>
      cases unlocks with
      | nil => contradiction
      | cons first more =>
          have ⟨same, sameRest⟩ := List.cons.inj isRest
          obtain rfl := Action.unlock.inj same
          exact ⟨rfl, more, rfl, sameRest⟩
  | cons first more => exact absurd (List.cons.inj isRest).1 (by simp)

/-- A thread that does not move stays in its phase, whatever mutex the other one takes or
gives up. -/
private theorem Phased.advance {rest : List (Action Mutex)} {mutex : Mutex} {owner : Option Thread}
    (phased : Phased state thread) (different : thread ≠ actor) (notOwn : state.owner mutex ≠ some thread) :
    Phased (state.advance actor rest mutex owner) thread := by
  have ⟨locks, unlocks, isRest, holds⟩ := phased
  refine ⟨locks, unlocks, (State.advance_rest_other different).trans isRest, fun some wanted => ?_⟩
  by_cases same : wanted = mutex
  · exact .inr (same ▸ (holds some mutex).resolve_left notOwn)
  · rw [State.advance_owner_other same]
    exact holds some wanted

theorem step_phased (phased : ∀ thread, Phased state thread) (taken : step state actor = some (next, shown)) :
    ∀ thread, Phased next thread := by
  intro thread
  have ⟨locks, unlocks, isPhased, holds⟩ := phased actor
  cases step_takes taken with
  | @lock mutex rest isRest free =>
      by_cases same : thread = actor
      · obtain ⟨more, rfl, isMore⟩ := phased_lock (isRest.symm.trans isPhased)
        subst same
        refine ⟨more, unlocks, (State.advance_rest_self ..).trans isMore, fun _ wanted => ?_⟩
        by_cases sameMutex : wanted = mutex
        · rw [sameMutex, State.advance_owner_self]
          exact .inl rfl
        · rw [State.advance_owner_other sameMutex]
          rcases holds (by simp) wanted with own | member
          · exact .inl own
          · exact .inr ((List.mem_cons.mp member).resolve_left sameMutex)
      · exact (phased thread).advance same (by rw [free]; simp)
  | @unlock mutex rest isRest isOwner =>
      by_cases same : thread = actor
      · have ⟨_, more, _, isMore⟩ := phased_unlock (isRest.symm.trans isPhased)
        subst same
        exact ⟨[], more, (State.advance_rest_self ..).trans isMore, fun none => absurd rfl none⟩
      · refine (phased thread).advance same ?_
        rw [isOwner]
        exact fun own => same (Option.some.inj own).symm

/-- The last mutex a thread has to lock is held by the other one. -/
private theorem step_acquiring (phased : Phased state thread) (different : thread ≠ other)
    (acquiring : Acquiring state thread) (acquiringOther : Acquiring state other)
    (taken : step state actor = some (next, shown)) : Acquiring next thread := by
  have ⟨⟨held, isOwner⟩, lock, member⟩ := acquiring
  have ⟨⟨heldOther, isOther⟩, _⟩ := acquiringOther
  cases step_takes taken with
  | @lock mutex rest isRest free =>
      by_cases same : thread = actor
      · subst same
        have ⟨locks, unlocks, isPhased, holds⟩ := phased
        obtain ⟨more, rfl, isMore⟩ := phased_lock (isRest.symm.trans isPhased)
        refine ⟨⟨mutex, State.advance_owner_self ..⟩, ?_⟩
        rw [State.advance_rest_self, isMore]
        cases more with
        | nil =>
            rcases holds (by simp) heldOther with own | last
            · exact absurd (Option.some.inj (own.symm.trans isOther)) different
            · rw [List.mem_singleton.mp last, free] at isOther
              contradiction
        | cons first more => exact ⟨first, by simp⟩
      · refine ⟨⟨held, ?_⟩, lock, ?_⟩
        · rw [State.advance_owner_other]
          · exact isOwner
          · intro sameMutex
            rw [sameMutex, free] at isOwner
            contradiction
        · rw [State.advance_rest_other same]
          exact member
  | @unlock mutex rest isRest isActor =>
      by_cases same : thread = actor
      · subst same
        have ⟨locks, unlocks, isPhased, _⟩ := phased
        obtain ⟨rfl, _⟩ := phased_unlock (isRest.symm.trans isPhased)
        rw [isPhased] at member
        simp at member
      · refine ⟨⟨held, ?_⟩, lock, ?_⟩
        · rw [State.advance_owner_other]
          · exact isOwner
          · intro sameMutex
            rw [sameMutex, isActor] at isOwner
            exact same (Option.some.inj isOwner).symm
        · rw [State.advance_rest_other same]
          exact member

theorem step_crossing (phased : ∀ thread, Phased state thread) (crossing : Crossing state thread other)
    (taken : step state actor = some (next, shown)) : Crossing next thread other := by
  have ⟨different, acquiring, acquiringOther⟩ := crossing
  exact ⟨different, step_acquiring (phased thread) different acquiring acquiringOther taken,
    step_acquiring (phased other) (Ne.symm different) acquiringOther acquiring taken⟩

end

section

variable {program : Thread → List (Action Mutex)} {state : State Thread Mutex} {threads : List Thread}
  {events : List (Thread × Action Mutex)}

theorem exec_phased (greedy : ∀ thread, Greedy (program thread))
    (exec : (machine program).Exec threads state events) : ∀ thread, Phased state thread := by
  induction exec with
  | start =>
      intro thread
      have ⟨locks, unlocks, isProgram, all⟩ := greedy thread
      exact ⟨locks, unlocks, isProgram, fun _ mutex => .inr (all mutex)⟩
  | step before taken inductionHypothesis => exact step_phased inductionHypothesis taken

/-- Once two threads are acquiring, they are so for ever. -/
theorem Crossing.steps {last : State Thread Mutex} {thread other : Thread} {shown : List (Thread × Action Mutex)}
    (steps : (machine program).Steps state shown last) (phased : ∀ thread, Phased state thread)
    (crossing : Crossing state thread other) : Crossing last thread other := by
  induction steps with
  | refl => exact crossing
  | step label taken rest inductionHypothesis =>
      exact inductionHypothesis (step_phased phased taken) (step_crossing phased crossing taken)

/-- Threads that lock everything before they unlock anything can all come to their ends as long
as at most one of them is acquiring, and not any more afterwards. -/
theorem exec_finishes_iff [Fintype Thread] (disciplined : ∀ thread, Disciplined [] (program thread))
    (greedy : ∀ thread, Greedy (program thread)) (exec : (machine program).Exec threads state events) :
    (∃ last shown, (machine program).Steps state shown last ∧ Finished last) ↔ SoleAcquirer state := by
  constructor
  · intro finishes thread other acquiring acquiringOther
    have ⟨last, shown, steps, finished⟩ := finishes
    by_contra different
    have crossing := Crossing.steps steps (exec_phased greedy exec) ⟨different, acquiring, acquiringOther⟩
    have ⟨_, lock, member⟩ := crossing.2.1
    rw [finished thread] at member
    contradiction
  · intro sole
    have ⟨held, keeps⟩ := exec_held disciplined exec
    exact keeps.finishes program sole Finset.univ fun thread _ => Finset.mem_univ thread

/-- Each step uses up one action, so every run comes to an end. -/
theorem exec_length [Fintype Thread] (exec : (machine program).Exec threads state events) :
    threads.length + ∑ thread, (state.rest thread).length = ∑ thread, (program thread).length := by
  induction exec with
  | start => exact Nat.zero_add _
  | @step threads state next events shown actor before taken inductionHypothesis =>
      have shorter : ∀ rest action, state.rest actor = action :: rest → ∀ mutex owner,
          ∑ thread, ((state.advance actor rest mutex owner).rest thread).length + 1 =
            ∑ thread, (state.rest thread).length := by
        intro rest action isRest mutex owner
        have others : ∀ thread ∈ Finset.univ.erase actor,
            ((state.advance actor rest mutex owner).rest thread).length = (state.rest thread).length :=
          fun thread member => by rw [State.advance_rest_other (Finset.ne_of_mem_erase member)]
        rw [← Finset.add_sum_erase _ _ (Finset.mem_univ actor), Finset.sum_congr rfl others,
          State.advance_rest_self, ← Finset.add_sum_erase _ _ (Finset.mem_univ actor), isRest, List.length_cons]
        omega
      have fewer : ∑ thread, (next.rest thread).length + 1 = ∑ thread, (state.rest thread).length := by
        cases step_takes taken with
        | lock isRest => exact shorter _ _ isRest _ _
        | unlock isRest => exact shorter _ _ isRest _ _
      rw [List.length_append, List.length_singleton, ← inductionHypothesis, ← fewer]
      omega

end

end SimpleBasicComponents.Semantics.Locking
