import SimpleBasicComponents.RingBuffer.Fifo

/-!
Reading a line out of the ring buffer.

Owns: what `ringbuffer_readline` should do with the unread bytes, wherever they
lie, and the exact states and buffer sizes for which it does. The scan and the
copy go straight on from `head`, so a line that wraps around the end is not
found, and looking for it leaves the array.
-/

namespace SimpleBasicComponents.RingBuffer

variable {r : Ringbuf} {bufSz : Nat}

/-- The first unread bytes, as many as fit the caller's buffer. -/
def upcoming (r : Ringbuf) (bufSz : Nat) : List UInt8 :=
  (unread r).take (min r.getUseSize bufSz)

/-- A newline among the upcoming bytes is read up to, and without one nothing changes. -/
def ReadsLine (r : Ringbuf) (bufSz : Nat) : Prop :=
  ∃ next result bytes, ringbufferReadline r bufSz = some (next, result, bytes) ∧
    (0 < result ↔ newline ∈ upcoming r bufSz) ∧
    if newline ∈ upcoming r bufSz then
      result = ((upcoming r bufSz).idxOf newline + 1 : Nat) ∧
        bytes = (upcoming r bufSz).take ((upcoming r bufSz).idxOf newline + 1) ∧
        next.head = (r.head + ((upcoming r bufSz).idxOf newline + 1)) % r.size ∧
        next.tail = r.tail ∧ next.buff = r.buff
    else (result = 0 ∨ result = -1) ∧ bytes = [] ∧ next = r

/-- The bytes up to the newline, or else all that are looked at, lie before the end. -/
def LineAhead (r : Ringbuf) (bufSz : Nat) : Prop := Lossless r (.readline bufSz)

/-! ### The bytes ahead and the upcoming ones -/

theorem length_upcoming : (upcoming r bufSz).length = min r.getUseSize bufSz := by
  unfold upcoming
  rw [List.length_take, length_unread]
  omega

/-- What lies before the end comes first. -/
theorem ahead_leads : ahead r bufSz <+: upcoming r bufSz := by
  have inside : r.head ≤ r.buff.length := Nat.le_of_lt r.headInside
  have straight := (List.prefix_append (r.buff.drop r.head) (r.buff.take r.head)).take
    (min r.getUseSize bufSz)
  unfold upcoming unread ahead
  rw [List.take_take, Nat.min_eq_left (Nat.min_le_left _ _), List.rotate_eq_drop_append_take inside]
  exact straight

/-- Bytes that end before the array does are all ahead. -/
theorem upcoming_eq_ahead (within : r.head + min r.getUseSize bufSz ≤ r.size) :
    upcoming r bufSz = ahead r bufSz := by
  have whole : (ahead r bufSz).length = (upcoming r bufSz).length := by
    unfold Ringbuf.size at within
    rw [length_upcoming, ahead, List.length_take, List.length_drop]
    omega
  exact (ahead_leads.eq_of_length whole).symm

theorem idxOf_upcoming (found : newline ∈ ahead r bufSz) :
    (upcoming r bufSz).idxOf newline = (ahead r bufSz).idxOf newline := by
  obtain ⟨rest, isWhole⟩ := @ahead_leads r bufSz
  rw [← isWhole, List.idxOf_append_of_mem found]

/-! ### Lines -/

theorem readsLine_of_idle (idle : r.isEmpty ∨ bufSz = 0) : ReadsLine r bufSz := by
  have nothing : upcoming r bufSz = [] := by
    have none : min r.getUseSize bufSz = 0 := by
      rcases idle with isEmpty | noRoom
      · have same : r.head = r.tail := by simpa [Ringbuf.isEmpty] using isEmpty
        have inside : r.head < r.size := r.headInside
        rw [useSize_eq, ← same, Nat.sub_add_cancel (Nat.le_of_lt inside), Nat.mod_self]
        exact Nat.zero_min _
      · rw [noRoom]
        exact Nat.min_zero _
    rw [upcoming, none, List.take_zero]
  refine ⟨r, 0, [], ringbufferReadline_idle idle, ?_⟩
  rw [nothing]
  simp

/-- A newline ahead is read up to, as long as the count fits an `int`. -/
theorem readsLine_iff_of_found (busy : ¬ (r.isEmpty ∨ bufSz = 0)) (found : newline ∈ ahead r bufSz) :
    ReadsLine r bufSz ↔ (ahead r bufSz).idxOf newline + 1 < 2 ^ 31 := by
  have member : newline ∈ upcoming r bufSz := ahead_leads.subset found
  obtain ⟨room, enough, within⟩ := idxOf_ahead_lt found
  have taken : ringbufferReadline r bufSz = ringbuffRead r ((ahead r bufSz).idxOf newline + 1) bufSz := by
    rw [ringbufferReadline_eq busy, if_pos found]
  have bytes : (upcoming r bufSz).take ((ahead r bufSz).idxOf newline + 1) =
      (r.buff.drop r.head).take ((ahead r bufSz).idxOf newline + 1) := by
    obtain ⟨rest, isWhole⟩ := @ahead_leads r bufSz
    rw [← isWhole, List.take_append_of_le_length (List.idxOf_lt_length_of_mem found), ahead,
      List.take_take, Nat.min_eq_left]
    exact Nat.le_min.mpr ⟨enough, room⟩
  unfold ReadsLine
  rw [idxOf_upcoming found, bytes, taken]
  unfold ringbuffRead
  rw [if_neg (Nat.not_lt.mpr room), if_neg (Nat.not_lt.mpr enough), if_pos within]
  constructor
  · rintro ⟨next, result, line, same, -, reads⟩
    obtain ⟨-, results⟩ := Prod.mk.inj (Option.some.inj same)
    rw [if_pos member] at reads
    by_contra large
    have short := toInt_toNat_lt (Nat.le_of_not_lt large)
    rw [(Prod.mk.inj results).1, reads.1, Int.toNat_natCast] at short
    exact absurd short (Nat.lt_irrefl _)
  · intro small
    refine ⟨_, _, _, rfl, ?_, ?_⟩
    · rw [toInt_of_lt small]
      simp only [member, iff_true]
      omega
    · rw [if_pos member]
      exact ⟨toInt_of_lt small, rfl, rfl, rfl, rfl⟩

/-- Without a newline ahead the scan has to end before the array does. -/
theorem readsLine_iff_of_not_found (busy : ¬ (r.isEmpty ∨ bufSz = 0))
    (missing : newline ∉ ahead r bufSz) :
    ReadsLine r bufSz ↔ r.head + min r.getUseSize bufSz ≤ r.size := by
  unfold ReadsLine
  rw [ringbufferReadline_eq busy, if_neg missing]
  by_cases within : r.head + min r.getUseSize bufSz ≤ r.size
  · rw [if_pos within, upcoming_eq_ahead within]
    simp [missing, within]
  · simp [within]

/-- `ringbuffer_readline` reads the next line exactly if the line lies ahead. -/
theorem readsLine_iff_lineAhead (r : Ringbuf) (bufSz : Nat) : ReadsLine r bufSz ↔ LineAhead r bufSz := by
  simp only [LineAhead, Lossless]
  rw [← or_assoc]
  by_cases idle : r.isEmpty ∨ bufSz = 0
  · exact ⟨fun _ => .inl idle, fun _ => readsLine_of_idle idle⟩
  · rw [or_iff_right idle]
    by_cases found : newline ∈ ahead r bufSz
    · rw [readsLine_iff_of_found idle found, if_pos found]
    · rw [readsLine_iff_of_not_found idle found, if_neg found]

/-- A line of two bytes, the newline on the other side of the end. -/
def wrappedLine : Ringbuf where
  buff := [10, 0, 0, 1]
  head := 3
  tail := 1
  granted := by decide
  headInside := by decide
  tailInside := by decide

theorem wrappedLine_not_readsLine : ¬ ReadsLine wrappedLine 4 := by
  rintro ⟨next, result, bytes, reads, -⟩
  have faults : ringbufferReadline wrappedLine 4 = none := by decide
  rw [faults] at reads
  contradiction

end SimpleBasicComponents.RingBuffer
