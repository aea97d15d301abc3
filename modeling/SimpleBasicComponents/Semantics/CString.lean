import Mathlib.Data.List.TakeWhile

/-!
Strings in memory.

A string is the bytes before the first zero byte; where there is none, reading
it runs out of the memory and has no result. Text in a program's source is
given as a `String` and put down byte by byte.
-/

namespace SimpleBasicComponents.Semantics

/-- The bytes of a text of the source. -/
def ascii (text : String) : List UInt8 := text.toList.map fun char => UInt8.ofNat char.toNat

/-- The string that starts where the memory does. -/
def cstring (memory : List UInt8) : Option (List UInt8) :=
  if 0 ∈ memory then some (memory.takeWhile (· ≠ 0)) else none

variable {memory text rest : List UInt8}

/-- Bytes and a zero byte behind them hold the string that the bytes begin with. -/
theorem cstring_terminated (bytes rest : List UInt8) :
    cstring (bytes ++ 0 :: rest) = some (bytes.takeWhile (· ≠ 0)) := by
  unfold cstring
  rw [if_pos (by simp)]
  congr 1
  induction bytes with
  | nil => simp
  | cons byte bytes inductionHypothesis =>
      rw [List.cons_append, List.takeWhile_cons, List.takeWhile_cons, inductionHypothesis]

theorem takeWhile_clean (clean : 0 ∉ text) : text.takeWhile (· ≠ 0) = text := by
  rw [List.takeWhile_eq_self_iff]
  intro byte member
  have notZero : byte ≠ 0 := fun same => clean (same ▸ member)
  simpa using notZero

theorem cstring_append (clean : 0 ∉ text) : cstring (text ++ 0 :: rest) = some text := by
  rw [cstring_terminated, takeWhile_clean clean]

/-- A list up to the first place of a byte. -/
theorem split_at_first {byte : UInt8} (member : byte ∈ memory) :
    ∃ after, memory = memory.takeWhile (· ≠ byte) ++ byte :: after := by
  obtain ⟨before, after, split, fresh⟩ := List.eq_append_cons_of_mem member
  have plain : ∀ other ∈ before, decide (other ≠ byte) = true := by
    intro other isBefore
    have differs : other ≠ byte := fun same => fresh (same ▸ isBefore)
    simpa using differs
  rw [split, List.takeWhile_append_of_pos plain]
  exact ⟨after, by simp⟩

theorem zero_notMem_takeWhile (bytes : List UInt8) : 0 ∉ bytes.takeWhile (· ≠ 0) := by
  intro member
  have notZero := List.mem_takeWhile_imp member
  simp at notZero

/-- Memory that holds a string holds a zero byte behind it. -/
theorem terminated_of_cstring (holds : cstring memory = some text) :
    0 ∉ text ∧ ∃ after, memory = text ++ 0 :: after := by
  unfold cstring at holds
  split at holds
  · next terminated =>
      have isText : memory.takeWhile (· ≠ 0) = text := Option.some.inj holds
      rw [← isText]
      exact ⟨zero_notMem_takeWhile memory, split_at_first terminated⟩
  · contradiction

end SimpleBasicComponents.Semantics
