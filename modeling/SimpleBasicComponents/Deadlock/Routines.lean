import SimpleBasicComponents.Semantics.Locking

/-!
The threads of `src/deadlock.c`.

Owns: the three routines, as lists of the mutexes they lock and unlock, and how every
interleaving of them ends. The hooks `pthread_mutex_lock` and `pthread_mutex_unlock` say
what they are called for and call the real functions, which `init_hook` has found before
the threads start; what is printed and how long a thread sleeps is left out.
-/

namespace SimpleBasicComponents.Deadlock

open Relation
open SimpleBasicComponents.Semantics
open SimpleBasicComponents.Semantics.Locking

inductive Mutex where
  | mutex1
  | mutex2
  | mutex3
deriving DecidableEq, Repr

inductive Routine where
  | a
  | b
  | c
deriving DecidableEq, Repr

instance : Fintype Mutex where
  elems := {.mutex1, .mutex2, .mutex3}
  complete mutex := by cases mutex <;> decide

instance : Fintype Routine where
  elems := {.a, .b, .c}
  complete thread := by cases thread <;> decide

def threadRoutineA : List (Action Mutex) :=
  [.lock .mutex1, .lock .mutex2, .lock .mutex3, .unlock .mutex3, .unlock .mutex2, .unlock .mutex1]

def threadRoutineB : List (Action Mutex) :=
  [.lock .mutex2, .lock .mutex1, .lock .mutex3, .unlock .mutex3, .unlock .mutex1, .unlock .mutex2]

def threadRoutineC : List (Action Mutex) :=
  [.lock .mutex3, .lock .mutex2, .lock .mutex1, .unlock .mutex1, .unlock .mutex2, .unlock .mutex3]

def routine : Routine → List (Action Mutex)
  | .a => threadRoutineA
  | .b => threadRoutineB
  | .c => threadRoutineC

def machine : Machine (State Routine Mutex) Routine (Routine × Action Mutex) := Locking.machine routine

theorem routine_disciplined (thread : Routine) : Disciplined [] (routine thread) := by
  cases thread <;> decide

theorem routine_greedy (thread : Routine) : Greedy (routine thread) := by
  cases thread with
  | a => exact ⟨[.mutex1, .mutex2, .mutex3], [.mutex3, .mutex2, .mutex1], rfl, by decide⟩
  | b => exact ⟨[.mutex2, .mutex1, .mutex3], [.mutex3, .mutex1, .mutex2], rfl, by decide⟩
  | c => exact ⟨[.mutex3, .mutex2, .mutex1], [.mutex1, .mutex2, .mutex3], rfl, by decide⟩

/-- From a state of a run all three threads can still return exactly when at most one of
them holds a mutex and has one still to lock. A run ends after at most 18 steps; if no
thread can go on before all have returned, some of them wait for each other in a cycle. -/
theorem exec_returns_iff {threads : List Routine} {state : State Routine Mutex}
    {events : List (Routine × Action Mutex)} (exec : machine.Exec threads state events) :
    ((∃ last shown, machine.Steps state shown last ∧ Finished last) ↔ SoleAcquirer state) ∧
      threads.length ≤ 18 ∧ ((∀ thread, Locking.step state thread = none) → ¬ Finished state →
        ∃ thread, TransGen (WaitsFor state) thread thread) := by
  refine ⟨exec_finishes_iff routine_disciplined routine_greedy exec, ?_,
    exec_cycle routine_disciplined exec⟩
  have total : ∑ thread, (routine thread).length = 18 := by decide
  have length := exec_length exec
  omega

/-- The first threads have a mutex each. -/
theorem twoLocked_not_returns :
    ∃ state events, machine.Exec [.a, .b] state events ∧
      ¬ ∃ last shown, machine.Steps state shown last ∧ Finished last := by
  have ran := machine.exec_of_isSome [.a, .b] rfl
  refine ⟨_, _, ran, fun returns => ?_⟩
  have sole := (exec_returns_iff ran).1.mp returns
  have both := sole .a .b ⟨⟨.mutex1, rfl⟩, .mutex2, by decide⟩ ⟨⟨.mutex2, rfl⟩, .mutex1, by decide⟩
  contradiction

end SimpleBasicComponents.Deadlock
