import Mathlib.Data.List.Basic
import Mathlib.Logic.Function.Basic

/-!
A heap of cells known by the ordinal of their allocation.

An address is never used twice. Reading or writing a cell that was not
allocated, or that was freed, has no result; a null pointer is `none` where a
pointer is an `Option Addr`.
-/

namespace SimpleBasicComponents.Semantics

abbrev Addr := Nat

/-- `none` marks a freed cell. -/
abbrev Heap (Cell : Type*) := List (Option Cell)

namespace Heap

variable {Cell : Type*}

def load (heap : Heap Cell) (addr : Addr) : Option Cell := (heap[addr]?).join

/-- The address of the new cell is the length of the old heap. -/
def alloc (heap : Heap Cell) (cell : Cell) : Heap Cell := heap ++ [some cell]

def store (heap : Heap Cell) (addr : Addr) (cell : Cell) : Option (Heap Cell) :=
  match heap.load addr with
  | some _ => some (heap.set addr (some cell))
  | none => none

def free (heap : Heap Cell) (addr : Addr) : Option (Heap Cell) :=
  match heap.load addr with
  | some _ => some (heap.set addr none)
  | none => none

/-- The cells are freed one after the other. -/
def freeAll : Heap Cell → List Addr → Option (Heap Cell)
  | heap, [] => some heap
  | heap, addr :: rest =>
      match heap.free addr with
      | some heap => freeAll heap rest
      | none => none

variable {heap : Heap Cell} {addr other : Addr} {cell old : Cell}

theorem lt_length_of_load (found : heap.load addr = some cell) : addr < heap.length := by
  by_contra outside
  simp [load, List.getElem?_eq_none (Nat.le_of_not_lt outside)] at found

@[simp] theorem length_alloc : (heap.alloc cell).length = heap.length + 1 := by
  simp [alloc]

theorem load_alloc_self : (heap.alloc cell).load heap.length = some cell := by
  simp [load, alloc]

theorem load_alloc_other (different : other ≠ heap.length) :
    (heap.alloc cell).load other = heap.load other := by
  unfold load alloc
  by_cases below : other < heap.length
  · rw [List.getElem?_append_left below]
  · have beyond : (heap ++ [some cell]).length ≤ other := by
      rw [List.length_append, List.length_singleton]
      exact Nat.lt_of_le_of_ne (Nat.le_of_not_lt below) (Ne.symm different)
    rw [List.getElem?_eq_none beyond, List.getElem?_eq_none (Nat.le_of_not_lt below)]

theorem load_alloc_of_load (found : heap.load addr = some old) :
    (heap.alloc cell).load addr = some old := by
  rw [load_alloc_other (Nat.ne_of_lt (lt_length_of_load found)), found]

/-- A live cell can be written; the others are unchanged. -/
theorem store_eq_some (found : heap.load addr = some old) (cell : Cell) :
    ∃ next, heap.store addr cell = some next ∧ next.length = heap.length ∧
      next.load addr = some cell ∧ ∀ other, other ≠ addr → next.load other = heap.load other := by
  have below := lt_length_of_load found
  refine ⟨heap.set addr (some cell), by simp [store, found], List.length_set, ?_, ?_⟩
  · simp [load, below]
  · intro other different
    simp [load, List.getElem?_set_ne (Ne.symm different)]

/-- What a heap holds after a write, as a function. -/
theorem store_load (found : heap.load addr = some old) (cell : Cell) :
    ∃ next, heap.store addr cell = some next ∧ next.load = Function.update heap.load addr (some cell) := by
  obtain ⟨next, stores, -, here, others⟩ := store_eq_some found cell
  refine ⟨next, stores, funext fun other => ?_⟩
  by_cases same : other = addr
  · rw [same, here, Function.update_self]
  · rw [others other same, Function.update_of_ne same]

/-- A live cell can be freed; the others are unchanged. -/
theorem free_eq_some (found : heap.load addr = some old) :
    ∃ next, heap.free addr = some next ∧ next.length = heap.length ∧
      ∀ other, other ≠ addr → next.load other = heap.load other := by
  refine ⟨heap.set addr none, by simp [free, found], List.length_set, ?_⟩
  intro other different
  simp [load, List.getElem?_set_ne (Ne.symm different)]

theorem load_free_self {next : Heap Cell} (frees : heap.free addr = some next) :
    next.load addr = none := by
  unfold free at frees
  split at frees
  · rename_i found
    have below := lt_length_of_load found
    obtain rfl := Option.some.inj frees
    simp [load, below]
  · contradiction

/-- Different live cells can all be freed; the others are unchanged. -/
theorem freeAll_eq_some {addrs : List Addr} (distinct : addrs.Nodup)
    (live : ∀ addr ∈ addrs, (heap.load addr).isSome) :
    ∃ next, heap.freeAll addrs = some next ∧ next.length = heap.length ∧
      (∀ addr ∈ addrs, next.load addr = none) ∧ ∀ other, other ∉ addrs → next.load other = heap.load other := by
  induction addrs generalizing heap with
  | nil => exact ⟨heap, rfl, rfl, by simp, fun _ _ => rfl⟩
  | cons addr rest inductionHypothesis =>
      have ⟨notLater, distinctRest⟩ := List.nodup_cons.mp distinct
      obtain ⟨cell, found⟩ := Option.isSome_iff_exists.mp (live addr List.mem_cons_self)
      obtain ⟨heap', frees, length, others⟩ := free_eq_some found
      have liveRest : ∀ other ∈ rest, (heap'.load other).isSome := by
        intro other member
        rw [others other fun same => notLater (same ▸ member)]
        exact live other (List.mem_cons_of_mem _ member)
      obtain ⟨next, freesRest, lengthRest, gone, kept⟩ := inductionHypothesis distinctRest liveRest
      refine ⟨next, by simp only [freeAll, frees, freesRest], lengthRest.trans length, ?_, ?_⟩
      · intro other member
        rcases List.mem_cons.mp member with rfl | later
        · rw [kept _ notLater]
          exact load_free_self frees
        · exact gone other later
      · intro other absent
        rw [List.mem_cons, not_or] at absent
        exact (kept other absent.2).trans (others other absent.1)

/-- Freeing in two parts. -/
theorem freeAll_append (heap : Heap Cell) (addrs more : List Addr) :
    heap.freeAll (addrs ++ more) = (heap.freeAll addrs).bind fun next => next.freeAll more := by
  induction addrs generalizing heap with
  | nil => rfl
  | cons addr rest inductionHypothesis =>
      rw [List.cons_append, freeAll, freeAll]
      cases heap.free addr with
      | none => rfl
      | some next => exact inductionHypothesis next

end Heap

end SimpleBasicComponents.Semantics
