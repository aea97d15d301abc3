import SimpleBasicComponents.RingBuffer.Fifo

/-!
The occupancy of the ring buffer.

Owns: the balance between `get_use_size` and the bytes that went in and out,
the refusals that follow from it, and the exact condition under which a run
keeps the balance. Two positions cannot tell a full buffer from an empty one,
so a write that fills the buffer is the one that upsets it.
-/

namespace SimpleBasicComponents.RingBuffer

open SimpleBasicComponents.Semantics

/-- `get_use_size` is what was written less what was read, and the next call is
refused exactly for want of space, of bytes or of room in the caller's buffer. -/
structure Accounts (r : Ringbuf) (events : List Event) : Prop where
  balance : r.getUseSize + (readBytes events).length = (written events).length
  writeRefused : ∀ data, ringbuffWrite r data = some (r, -1) ↔
    r.size + (readBytes events).length < (written events).length + data.length
  readRefused : ∀ rSz bufSz, ringbuffRead r rSz bufSz = some (r, -1, []) ↔
    (written events).length < (readBytes events).length + rSz ∨ bufSz < rSz

/-- The call is counted right. -/
def Counted (r : Ringbuf) : Call → Prop
  | .write data =>
      r.getRemain < data.length ∨ (data.length < r.getRemain ∧ r.head + data.length ≤ r.size)
  | .clear => r.getUseSize = 0
  | call => Lossless r call

instance (r : Ringbuf) : DecidablePred (Counted r) := fun call =>
  match call with
  | .write _ => inferInstanceAs (Decidable (_ ∨ _))
  | .read _ _ => inferInstanceAs (Decidable (_ ∨ _))
  | .readline _ => inferInstanceAs (Decidable (_ ∨ _ ∨ ite _ _ _))
  | .clear => inferInstanceAs (Decidable (_ = _))

variable {r : Ringbuf} {events : List Event} {data : List UInt8} {rSz bufSz : Nat}

/-! ### Refusals -/

theorem ringbuffWrite_refused_iff : ringbuffWrite r data = some (r, -1) ↔ r.getRemain < data.length := by
  constructor
  · intro refused
    by_contra fits
    unfold ringbuffWrite at refused
    rw [if_neg fits] at refused
    split at refused
    · have result := (Prod.mk.inj (Option.some.inj refused)).2
      contradiction
    · contradiction
  · exact ringbuffWrite_refused

theorem ringbuffRead_refused_iff :
    ringbuffRead r rSz bufSz = some (r, -1, []) ↔ bufSz < rSz ∨ r.getUseSize < rSz := by
  constructor
  · intro refused
    by_contra taken
    rw [not_or, Nat.not_lt, Nat.not_lt] at taken
    by_cases within : r.head + rSz ≤ r.size
    · obtain ⟨next, reads, -⟩ := ringbuffRead_eq_some taken.1 taken.2 within
      have same := Prod.mk.inj (Option.some.inj (reads.symm.trans refused))
      have result := (Prod.mk.inj same.2).1
      -- Nothing is copied, so the count is zero and not an error.
      have lengths := congrArg List.length (Prod.mk.inj same.2).2
      rw [List.length_take, length_unread, List.length_nil, Nat.min_eq_left taken.2] at lengths
      rw [lengths] at result
      exact absurd result (by decide)
    · rw [ringbuffRead_fault taken.1 taken.2 within] at refused
      contradiction
  · exact ringbuffRead_refused

/-- The refusals say nothing beyond the balance. -/
theorem accounts_iff :
    Accounts r events ↔ r.getUseSize + (readBytes events).length = (written events).length := by
  constructor
  · exact Accounts.balance
  · intro balance
    have below := @useSize_lt r
    refine ⟨balance, ?_, ?_⟩
    · intro data
      rw [ringbuffWrite_refused_iff, Ringbuf.getRemain]
      omega
    · intro rSz bufSz
      rw [ringbuffRead_refused_iff]
      omega

/-! ### Calls -/

theorem accounts_wrote {next : Ringbuf} (accounts : Accounts r events) :
    Accounts next (events ++ [.wrote data]) ↔ next.getUseSize = r.getUseSize + data.length := by
  have balance := accounts.balance
  rw [accounts_iff]
  simp only [written, readBytes, List.flatMap_append, List.flatMap_singleton, List.append_nil,
    List.length_append] at balance ⊢
  omega

theorem accounts_read {next : Ringbuf} {bytes : List UInt8} (accounts : Accounts r events) :
    Accounts next (events ++ [.read bytes]) ↔ bytes.length + next.getUseSize = r.getUseSize := by
  have balance := accounts.balance
  rw [accounts_iff]
  simp only [written, readBytes, List.flatMap_append, List.flatMap_singleton, List.append_nil,
    List.length_append] at balance ⊢
  omega

theorem accounts_refused (accounts : Accounts r events) (result : Int) :
    Accounts r (events ++ [.read (returned result [])]) := by
  rw [accounts_read accounts, returned, List.take_nil, List.length_nil, Nat.zero_add]

theorem read_accounts_iff (accounts : Accounts r events) (rSz bufSz : Nat) :
    (∃ next result bytes, ringbuffRead r rSz bufSz = some (next, result, bytes) ∧
        Accounts next (events ++ [.read (returned result bytes)])) ↔
      bufSz < rSz ∨ r.getUseSize < rSz ∨ (r.head + rSz ≤ r.size ∧ rSz < 2 ^ 31) := by
  apply ringbuffRead_meets_iff (accounts_refused accounts _)
  intro next enough isUnread
  rw [accounts_read accounts, ← length_unread, isUnread, length_returned_read enough]

theorem readline_accounts_iff (accounts : Accounts r events) (bufSz : Nat) :
    (∃ next result bytes, ringbufferReadline r bufSz = some (next, result, bytes) ∧
        Accounts next (events ++ [.read (returned result bytes)])) ↔
      Lossless r (.readline bufSz) :=
  ringbufferReadline_meets_iff (accounts_refused accounts)
    fun rSz => read_accounts_iff accounts rSz bufSz

/-- A write that is taken is counted right exactly if it leaves some space. -/
theorem write_accounts_iff (accounts : Accounts r events) (data : List UInt8) :
    (∃ next shown, step r (.write data) = some (next, shown) ∧ Accounts next (events ++ shown)) ↔
      Counted r (.write data) := by
  simp only [Counted]
  by_cases refused : r.getRemain < data.length
  · have steps : step r (.write data) = some (r, []) := by
      simp only [step, ringbuffWrite_refused refused]
      rfl
    exact ⟨fun _ => .inl refused, fun _ => ⟨r, [], steps, by simpa using accounts⟩⟩
  · rw [or_iff_right refused]
    have fits := Nat.le_of_not_lt refused
    by_cases within : r.head + data.length ≤ r.size
    · obtain ⟨next, writes, useSize, -⟩ := ringbuffWrite_eq_some fits within
      have below := @useSize_lt r
      have steps : step r (.write data) = some (next, [.wrote data]) := by
        simp only [step, writes, if_true]
      have exact : Accounts next (events ++ [.wrote data]) ↔ data.length < r.getRemain := by
        unfold Ringbuf.getRemain at fits ⊢
        rw [accounts_wrote accounts, useSize]
        rcases Nat.lt_or_eq_of_le (show r.getUseSize + data.length ≤ r.size by omega) with room | full
        · rw [Nat.mod_eq_of_lt room]
          omega
        · rw [full, Nat.mod_self]
          omega
      rw [← exact, steps]
      constructor
      · rintro ⟨_, _, same, kept⟩
        cases same
        exact ⟨kept, within⟩
      · intro both
        exact ⟨next, _, rfl, both.1⟩
    · have faults : step r (.write data) = none := by
        simp only [step, ringbuffWrite, if_neg refused, dif_neg within]
      simp [faults, within]

/-- One call, taken where the balance holds. -/
theorem step_accounts_iff (accounts : Accounts r events) (call : Call) :
    (∃ next shown, step r call = some (next, shown) ∧ Accounts next (events ++ shown)) ↔
      Counted r call := by
  cases call with
  | write data => exact write_accounts_iff accounts data
  | read rSz bufSz => exact (showRead_meets_iff _).trans (read_accounts_iff accounts rSz bufSz)
  | readline bufSz => exact (showRead_meets_iff _).trans (readline_accounts_iff accounts bufSz)
  | clear =>
      have balance := accounts.balance
      simp only [Counted, step, Option.some.injEq, Prod.mk.injEq, existsAndEq, and_true, true_and,
        List.append_nil]
      rw [accounts_iff, useSize_clear]
      omega

/-! ### Whole runs -/

/-- The occupancy of a buffer is right after every call of a run exactly when
each call is counted right: no write fills the buffer. -/
theorem completes_accounts_iff_counted {size : Nat} (positive : 0 < size)
    (granted : size ≤ ptrdiffMax) (calls : List Call) :
    (machine (ringbuffCreate size positive granted)).Completes Accounts calls ↔
      (machine (ringbuffCreate size positive granted)).Guarded Counted calls := by
  apply @Machine.completes_iff_guarded _ _ _ _ fun _ _ => True
  · have balanced : Accounts (ringbuffCreate size positive granted) [] := by
      rw [accounts_iff, useSize_create]
      rfl
    exact ⟨trivial, balanced⟩
  · intro r events call _ accounts
    exact step_accounts_iff accounts call
  · intros
    trivial

/-- Half of the buffer goes in and out twice. -/
theorem halves_completes_iff :
    (machine eightBytes).Completes Accounts [.write [1, 2, 3, 4], .read 4 4, .write [5], .read 1 9] ↔
      (machine eightBytes).Guarded Counted [.write [1, 2, 3, 4], .read 4 4, .write [5], .read 1 9] :=
  completes_accounts_iff_counted (by decide) (by decide) _

/-- A write that fills the buffer leaves it empty. -/
theorem fillBuffer_not_accounts :
    ¬ (machine eightBytes).Completes Accounts [.write [1, 2, 3, 4, 5, 6, 7, 8]] := by
  rintro ⟨-, always⟩
  have exec := (machine eightBytes).exec_of_isSome [.write [1, 2, 3, 4, 5, 6, 7, 8]] rfl
  have balance := (always.last exec).balance
  exact absurd balance (by decide)

end SimpleBasicComponents.RingBuffer
