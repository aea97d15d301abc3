import SimpleBasicComponents.RingBuffer.Fifo

/-!
The bytes of the array that the calls touch.

Owns: the indices each call reads or writes, that a call faults exactly when
one of them is outside the array, and the exact condition under which a run
stays inside. Each call takes one run of bytes from `head` on, as long as what
is asked for or stored, and not as long as what is left up to the end.
-/

namespace SimpleBasicComponents.RingBuffer

open SimpleBasicComponents.Semantics

/-- The indices the scan of `ringbuffer_readline` reads. Nothing is known about
the scan after a byte outside the array. -/
def scanned (r : Ringbuf) : Nat → Nat → List Nat
  | _, 0 => []
  | pos, left + 1 =>
      (r.head + pos) ::
        match r.buff[r.head + pos]? with
        | some byte => if byte = newline then [] else scanned r (pos + 1) left
        | none => []

/-- The indices `ringbuff_read` copies from. -/
def copied (r : Ringbuf) (rSz bufSz : Nat) : List Nat :=
  if rSz > bufSz then []
  else if rSz > r.getUseSize then []
  else List.range' r.head rSz

/-- The indices of `r->buff` that a call reads or writes. -/
def touched (r : Ringbuf) : Call → List Nat
  | .write data => if data.length > r.getRemain then [] else List.range' r.head data.length
  | .read rSz bufSz => copied r rSz bufSz
  | .readline bufSz =>
      if r.isEmpty || bufSz = 0 then []
      else
        scanned r 0 (min r.getUseSize bufSz) ++
          match linePos r 0 (min r.getUseSize bufSz) with
          | some pos => copied r (pos + 1) bufSz
          | none => []
  | .clear => []

/-- Every byte the call touches is one of the array. -/
def TouchesInside (r : Ringbuf) (call : Call) : Prop := ∀ index ∈ touched r call, index < r.size

/-- The run of bytes the call takes ends before the array does. -/
def Straight (r : Ringbuf) : Call → Prop
  | .write data => r.getRemain < data.length ∨ r.head + data.length ≤ r.size
  | .read rSz bufSz => bufSz < rSz ∨ r.getUseSize < rSz ∨ r.head + rSz ≤ r.size
  | .readline bufSz =>
      r.isEmpty ∨ bufSz = 0 ∨ newline ∈ ahead r bufSz ∨ r.head + min r.getUseSize bufSz ≤ r.size
  | .clear => True

variable {r : Ringbuf} {pos left rSz bufSz : Nat}

/-! ### Runs of bytes -/

theorem range_inside_iff (count : Nat) :
    (∀ index ∈ List.range' r.head count, index < r.size) ↔ r.head + count ≤ r.size := by
  have inside : r.head < r.size := r.headInside
  simp only [List.mem_range'_1]
  constructor
  · intro all
    by_contra beyond
    have last := all r.size
    omega
  · intro within index member
    omega

theorem copied_inside_iff :
    (∀ index ∈ copied r rSz bufSz, index < r.size) ↔ Straight r (.read rSz bufSz) := by
  unfold copied
  simp only [Straight]
  by_cases tooSmall : rSz > bufSz
  · simp [tooSmall]
  · rw [if_neg tooSmall, or_iff_right tooSmall]
    by_cases tooFew : rSz > r.getUseSize
    · simp [tooFew]
    · rw [if_neg tooFew, or_iff_right tooFew, range_inside_iff]

/-- The scan stays inside the array exactly if it stops at all. -/
theorem scanned_inside_iff (r : Ringbuf) (pos left : Nat) :
    (∀ index ∈ scanned r pos left, index < r.size) ↔ (linePos r pos left).isSome := by
  induction left generalizing pos with
  | zero => simp [scanned, linePos]
  | succ left inductionHypothesis =>
      unfold scanned linePos
      rw [List.forall_mem_cons]
      cases found : r.buff[r.head + pos]? with
      | none =>
          have outside : r.size ≤ r.head + pos := List.getElem?_eq_none_iff.mp found
          simp [outside]
      | some byte =>
          have below : r.head + pos < r.size := (List.getElem?_eq_some_iff.mp found).1
          by_cases isNewline : byte = newline
          · simp [isNewline, below]
          · simp only [isNewline, if_false]
            rw [inductionHypothesis]
            simp [below]

theorem linePos_isSome_iff : (linePos r 0 (min r.getUseSize bufSz)).isSome ↔
    newline ∈ ahead r bufSz ∨ r.head + min r.getUseSize bufSz ≤ r.size := by
  rw [linePos_ahead]
  by_cases found : newline ∈ ahead r bufSz
  · simp [found]
  · rw [if_neg found, or_iff_right found]
    split <;> simp_all

/-- The copy after the scan takes no byte the scan has not seen. -/
theorem copied_line_inside (ends : linePos r 0 (min r.getUseSize bufSz) = some pos) :
    ∀ index ∈ copied r (pos + 1) bufSz, index < r.size := by
  rw [linePos_ahead] at ends
  rw [copied_inside_iff]
  simp only [Straight]
  by_cases found : newline ∈ ahead r bufSz
  · have bounds := idxOf_ahead_lt found
    rw [if_pos found, Option.some.injEq] at ends
    omega
  · rw [if_neg found] at ends
    split at ends
    · rw [Option.some.injEq] at ends
      omega
    · contradiction

/-! ### Calls -/

theorem touchesInside_iff_straight (r : Ringbuf) (call : Call) : TouchesInside r call ↔ Straight r call := by
  unfold TouchesInside
  cases call with
  | write data =>
      simp only [touched, Straight]
      by_cases refused : data.length > r.getRemain
      · simp [refused]
      · rw [if_neg refused, or_iff_right refused, range_inside_iff]
  | read rSz bufSz => exact copied_inside_iff
  | readline bufSz =>
      simp only [touched, Straight]
      rw [← or_assoc]
      by_cases idle : r.isEmpty ∨ bufSz = 0
      · simp [idle]
      · rw [if_neg (by simpa using idle), or_iff_right idle, ← linePos_isSome_iff]
        rw [List.forall_mem_append, scanned_inside_iff]
        cases ends : linePos r 0 (min r.getUseSize bufSz) with
        | none => simp
        | some pos =>
            rw [and_iff_left]
            exact copied_line_inside ends
  | clear => simp [touched, Straight]

/-- A call faults exactly when it touches a byte outside the array. -/
theorem step_isSome_iff (r : Ringbuf) (call : Call) :
    (step r call).isSome ↔ TouchesInside r call := by
  rw [touchesInside_iff_straight]
  cases call with
  | write data =>
      simp only [step, ringbuffWrite, Straight, gt_iff_lt]
      by_cases refused : r.getRemain < data.length
      · simp [refused]
      · by_cases within : r.head + data.length ≤ r.size <;> simp [refused, within]
  | read rSz bufSz =>
      simp only [step, Option.isSome_map, ringbuffRead, Straight, gt_iff_lt]
      by_cases tooSmall : bufSz < rSz
      · simp [tooSmall]
      · by_cases tooFew : r.getUseSize < rSz
        · simp [tooSmall, tooFew]
        · by_cases within : r.head + rSz ≤ r.size <;> simp [tooSmall, tooFew, within]
  | readline bufSz =>
      simp only [step, Option.isSome_map, Straight]
      rw [← or_assoc]
      by_cases idle : r.isEmpty ∨ bufSz = 0
      · simp [ringbufferReadline_idle idle, idle]
      · rw [or_iff_right idle, ringbufferReadline_eq idle]
        by_cases found : newline ∈ ahead r bufSz
        · have bounds := idxOf_ahead_lt found
          obtain ⟨next, reads, -⟩ := ringbuffRead_eq_some bounds.1 bounds.2.1 bounds.2.2
          simp [found, reads]
        · by_cases within : r.head + min r.getUseSize bufSz ≤ r.size <;> simp [found, within]
  | clear => simp [step, Straight]

/-! ### Whole runs -/

/-- A run of calls touches bytes of the array only, exactly when the bytes of
each call end before the array does. -/
theorem guarded_touchesInside_iff {size : Nat} (positive : 0 < size) (granted : size ≤ ptrdiffMax)
    (calls : List Call) :
    (machine (ringbuffCreate size positive granted)).Guarded TouchesInside calls ↔
      (machine (ringbuffCreate size positive granted)).Guarded Straight calls := by
  have pointwise : TouchesInside = Straight := by
    funext r call
    exact propext (touchesInside_iff_straight r call)
  rw [pointwise]

/-- Lines that are read in halves of the buffer. -/
theorem halves_touchesInside_iff :
    (machine eightBytes).Guarded TouchesInside [.write [1, 10, 2, 10], .readline 8, .readline 8] ↔
      (machine eightBytes).Guarded Straight [.write [1, 10, 2, 10], .readline 8, .readline 8] :=
  guarded_touchesInside_iff (by decide) (by decide) _

/-- A write of six bytes at `head` 4 runs two bytes past the end. -/
theorem writeBeyond_touches_outside :
    ¬ (machine eightBytes).Guarded TouchesInside
      [.write [1, 2, 3, 4], .read 4 4, .write [1, 2, 3, 4, 5, 6]] := by
  intro inside
  have exec := (machine eightBytes).exec_of_isSome [.write [1, 2, 3, 4], .read 4 4] rfl
  have last := inside _ _ _ _ List.prefix_rfl exec 8
  exact absurd (last (by decide)) (by decide)

end SimpleBasicComponents.RingBuffer
