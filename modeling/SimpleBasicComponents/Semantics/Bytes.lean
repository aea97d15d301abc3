import Mathlib.Data.List.Basic

/-!
Memory of a fixed extent, and code that may leave it.

`Run` is the result of code that may also do something the language does not
define, or use up the steps it was given. `readCell`, `readCells` and
`writeCells` stay inside their memory or are a fault; what they do is stated on
memory cut at the place.
-/

namespace SimpleBasicComponents.Semantics

inductive Halt where
  /-- The behaviour is not defined. -/
  | fault
  /-- The steps were used up. -/
  | unfinished
deriving DecidableEq, Repr

abbrev Run := Except Halt

/-- What a sequence of two steps needs to have a result. -/
theorem Run.of_bind_ok {First Last : Type} {first : Run First} {rest : First → Run Last} {result : Last}
    (runs : (first >>= rest) = .ok result) :
    ∃ middle, first = .ok middle ∧ rest middle = .ok result := by
  cases first with
  | error halt => exact absurd runs (by simp [bind, Except.bind])
  | ok middle => exact ⟨middle, rfl, runs⟩

theorem Run.ok_bind {First Last : Type} (result : First) (rest : First → Run Last) :
    ((.ok result : Run First) >>= rest) = rest result := rfl

/-- The results are the same, unless the first one lacked steps. -/
def Run.Settles {Result : Type} (left right : Run Result) : Prop :=
  left = .error .unfinished ∨ left = right

theorem Run.Settles.refl {Result : Type} (run : Run Result) : Run.Settles run run := .inr rfl

/-- A sequence settles as its steps do. -/
theorem Run.Settles.bind {First Last : Type} {first more : Run First}
    {rest moreRest : First → Run Last} (settles : Run.Settles first more)
    (restSettles : ∀ result, Run.Settles (rest result) (moreRest result)) :
    Run.Settles (first >>= rest) (more >>= moreRest) := by
  cases settles with
  | inl unfinished =>
      rw [unfinished]
      exact .inl rfl
  | inr same =>
      rw [← same]
      cases first with
      | error halt => exact .inr rfl
      | ok result => exact restSettles result

theorem Run.Settles.eq {Result : Type} {left right : Run Result} (settles : Run.Settles left right)
    (ended : left ≠ .error .unfinished) : right = left :=
  (settles.resolve_left ended).symm

section

variable {Cell : Type*}

def readCell (memory : List Cell) (offset : Nat) : Run Cell :=
  match memory[offset]? with
  | some cell => .ok cell
  | none => .error .fault

def readCells (memory : List Cell) (offset count : Nat) : Run (List Cell) :=
  if offset + count ≤ memory.length then .ok ((memory.drop offset).take count)
  else .error .fault

def writeCells (memory : List Cell) (offset : Nat) (cells : List Cell) : Run (List Cell) :=
  if offset + cells.length ≤ memory.length then
    .ok (memory.take offset ++ cells ++ memory.drop (offset + cells.length))
  else .error .fault

variable {memory front middle back cells : List Cell} {offset count : Nat} {cell : Cell}

theorem readCell_append (here : offset = front.length) :
    readCell (front ++ cell :: back) offset = .ok cell := by
  unfold readCell
  rw [here]
  simp

theorem readCells_append (here : offset = front.length) (size : count = middle.length) :
    readCells (front ++ (middle ++ back)) offset count = .ok middle := by
  unfold readCells
  rw [here, size, if_pos (by simp), List.drop_left, List.take_left]

theorem writeCells_append (here : offset = front.length) (same : cells.length = middle.length) :
    writeCells (front ++ (middle ++ back)) offset cells = .ok (front ++ (cells ++ back)) := by
  unfold writeCells
  have beyond : front.length + cells.length = (front ++ middle).length := by
    rw [List.length_append, same]
  rw [here, if_pos (by rw [same]; simp), List.take_left, beyond, ← List.append_assoc front middle,
    List.drop_left, List.append_assoc]

/-- Filling the memory further. -/
theorem writeCells_fill (here : offset = front.length) (room : cells.length ≤ back.length) :
    writeCells (front ++ back) offset cells = .ok (front ++ cells ++ back.drop cells.length) := by
  have cut := List.take_append_drop cells.length back
  have same : cells.length = (back.take cells.length).length := by
    rw [List.length_take]
    omega
  have writes : writeCells (front ++ (back.take cells.length ++ back.drop cells.length)) offset cells =
      .ok (front ++ (cells ++ back.drop cells.length)) := writeCells_append here same
  rw [cut] at writes
  rw [writes, List.append_assoc]

theorem readCells_ok_iff :
    readCells memory offset count = .ok cells ↔
      offset + count ≤ memory.length ∧ cells = (memory.drop offset).take count := by
  unfold readCells
  split
  · rename_i room
    rw [and_iff_right room, Except.ok.injEq, eq_comm]
  · rename_i beyond
    simp [beyond]

/-- What is written was inside, and the memory keeps its extent. -/
theorem room_of_writeCells {next : List Cell} (writes : writeCells memory offset cells = .ok next) :
    offset + cells.length ≤ memory.length ∧ next.length = memory.length := by
  unfold writeCells at writes
  split at writes
  · rename_i room
    obtain rfl := Except.ok.inj writes
    refine ⟨room, ?_⟩
    rw [List.length_append, List.length_append, List.length_take, List.length_drop]
    omega
  · contradiction

theorem readCell_ok_iff : readCell memory offset = .ok cell ↔ memory[offset]? = some cell := by
  unfold readCell
  cases found : memory[offset]? with
  | none => simp
  | some other => simp

end

end SimpleBasicComponents.Semantics
