import SimpleBasicComponents.RingBuffer.Model

/-!
The ring buffer as a queue of bytes.

Owns: the unread bytes, what each call does to them, and the exact condition
under which a run of calls neither loses nor invents a byte. A write lands on
`head`, where the unread bytes start, and not on `tail`; no copy wraps around;
and a write that fills the buffer leaves it empty.
-/

namespace SimpleBasicComponents.RingBuffer

open SimpleBasicComponents.Semantics

/-- The unread bytes: `get_use_size` of them, from `head` on and around the end. -/
def unread (r : Ringbuf) : List UInt8 := (r.buff.rotate r.head).take r.getUseSize

def written (events : List Event) : List UInt8 :=
  events.flatMap fun
    | .wrote data => data
    | .read _ => []

def readBytes (events : List Event) : List UInt8 :=
  events.flatMap fun
    | .wrote _ => []
    | .read bytes => bytes

/-- What was read is the first part of what was written, and the unread bytes are
the rest. -/
def Fifo (r : Ringbuf) (events : List Event) : Prop :=
  written events = readBytes events ++ unread r

/-- The bytes from `head` on, once the data has been put there, are the unread
bytes and then the data. -/
def Undisturbed (r : Ringbuf) (data : List UInt8) : Prop :=
  data ++ ((r.buff.rotate r.head).drop data.length).take r.getUseSize = unread r ++ data

instance (r : Ringbuf) (data : List UInt8) : Decidable (Undisturbed r data) := by
  unfold Undisturbed
  infer_instance

/-- The bytes `ringbuffer_readline` looks at for a newline. -/
def ahead (r : Ringbuf) (bufSz : Nat) : List UInt8 :=
  (r.buff.drop r.head).take (min r.getUseSize bufSz)

/-- The call loses no byte. -/
def Lossless (r : Ringbuf) : Call → Prop
  | .write data =>
      r.getRemain < data.length ∨
        (data.length < r.getRemain ∧ r.head + data.length ≤ r.size ∧ Undisturbed r data)
  | .read rSz bufSz =>
      bufSz < rSz ∨ r.getUseSize < rSz ∨ (r.head + rSz ≤ r.size ∧ rSz < 2 ^ 31)
  | .readline bufSz =>
      r.isEmpty ∨ bufSz = 0 ∨
        if newline ∈ ahead r bufSz then (ahead r bufSz).idxOf newline + 1 < 2 ^ 31
        else r.head + min r.getUseSize bufSz ≤ r.size
  | .clear => r.getUseSize = 0

variable {r : Ringbuf} {events : List Event} {data : List UInt8}

/-! ### Positions -/

theorem useSize_lt : r.getUseSize < r.size := Nat.mod_lt _ r.size_pos

theorem length_unread : (unread r).length = r.getUseSize := by
  have below := @useSize_lt r
  unfold unread
  rw [List.length_take, List.length_rotate]
  exact Nat.min_eq_left (Nat.le_of_lt below)

theorem useSize_eq (r : Ringbuf) : r.getUseSize = (r.size - r.head + r.tail) % r.size := by
  have inside : r.head < r.size := r.headInside
  unfold Ringbuf.getUseSize
  congr 1
  omega

theorem useSize_clear (r : Ringbuf) : (ringbuffClear r).getUseSize = 0 := by
  rw [useSize_eq]
  simp only [ringbuffClear, Ringbuf.size]
  rw [Nat.sub_add_cancel (Nat.le_of_lt r.headInside), Nat.mod_self]

theorem useSize_create {size : Nat} (positive : 0 < size) (granted : size ≤ ptrdiffMax) :
    (ringbuffCreate size positive granted).getUseSize = 0 := by
  rw [useSize_eq]
  simp [ringbuffCreate, Ringbuf.size]

/-! ### Writes -/

/-- The array with some bytes put at a place, from that place on. -/
theorem rotate_overwrite {buff : List UInt8} {head : Nat} (within : head + data.length ≤ buff.length) :
    (buff.take head ++ data ++ buff.drop (head + data.length)).rotate head =
      data ++ (buff.rotate head).drop data.length := by
  have inside : head ≤ buff.length := Nat.le_trans (Nat.le_add_right _ _) within
  have isHead : (buff.take head).length = head := List.length_take_of_le inside
  have reaches : head ≤ (buff.take head ++ data ++ buff.drop (head + data.length)).length := by
    rw [List.append_assoc, List.length_append, isHead]
    exact Nat.le_add_right _ _
  have room : data.length ≤ (buff.drop head).length := by
    rw [List.length_drop]
    omega
  rw [List.rotate_eq_drop_append_take reaches, List.rotate_eq_drop_append_take inside,
    List.drop_append_of_le_length room, List.drop_drop, List.append_assoc, List.drop_append_of_le_length isHead.ge,
    List.take_append_of_le_length isHead.ge, List.drop_of_length_le isHead.le, List.nil_append,
    List.take_of_length_le isHead.le, List.append_assoc]

theorem ringbuffWrite_refused (refused : r.getRemain < data.length) :
    ringbuffWrite r data = some (r, -1) := by
  unfold ringbuffWrite
  rw [if_pos refused]

theorem ringbuffWrite_eq_some (fits : data.length ≤ r.getRemain)
    (within : r.head + data.length ≤ r.size) :
    ∃ next, ringbuffWrite r data = some (next, 0) ∧
      next.getUseSize = (r.getUseSize + data.length) % r.size ∧
      unread next = (data ++ (r.buff.rotate r.head).drop data.length).take next.getUseSize := by
  have notRefused : ¬ data.length > r.getRemain := Nat.not_lt.mpr fits
  refine ⟨_, by rw [ringbuffWrite, if_neg notRefused, dif_pos within], ?_, ?_⟩
  · rw [useSize_eq, useSize_eq]
    have sameSize : (r.buff.take r.head ++ data ++ r.buff.drop (r.head + data.length)).length = r.size := by
      have inside := r.headInside
      simp only [Ringbuf.size, List.length_append, List.length_take, List.length_drop] at within ⊢
      omega
    simp only [Ringbuf.size, sameSize] at *
    rw [Nat.add_mod_mod, Nat.mod_add_mod, Nat.add_assoc]
  · unfold unread
    rw [rotate_overwrite within]

/-- A write that is taken keeps the bytes in order exactly if it leaves room and
disturbs nothing. -/
theorem unread_write (fits : data.length ≤ r.getRemain) {next : Ringbuf}
    (useSize : next.getUseSize = (r.getUseSize + data.length) % r.size)
    (isUnread : unread next = (data ++ (r.buff.rotate r.head).drop data.length).take next.getUseSize) :
    unread next = unread r ++ data ↔ data.length < r.getRemain ∧ Undisturbed r data := by
  have below := @useSize_lt r
  by_cases room : data.length < r.getRemain
  · have fits : r.getUseSize + data.length < r.size := by
      unfold Ringbuf.getRemain at room
      omega
    rw [Nat.mod_eq_of_lt fits] at useSize
    rw [isUnread, useSize, Nat.add_comm, List.take_length_add_append]
    exact ⟨fun same => ⟨room, same⟩, fun both => both.2⟩
  · have full : r.getUseSize + data.length = r.size := by
      unfold Ringbuf.getRemain at room fits
      omega
    rw [full, Nat.mod_self] at useSize
    have lengths : (unread r ++ data).length = r.size := by
      rw [List.length_append, length_unread, full]
    refine ⟨fun same => ?_, fun both => absurd both.1 room⟩
    rw [← same, length_unread, useSize] at lengths
    exact absurd lengths.symm (Nat.ne_of_gt r.size_pos).symm.symm

/-! ### Reads -/

variable {rSz bufSz : Nat}

private theorem sub_mod_of_le {whole count size : Nat} (le : count ≤ whole % size) :
    (whole - count) % size = whole % size - count := by
  rcases Nat.eq_zero_or_pos size with rfl | positive
  · simp
  · have below := Nat.mod_lt whole positive
    have split : whole - count = size * (whole / size) + (whole % size - count) := by
      have whole := Nat.div_add_mod whole size
      omega
    rw [split, Nat.mul_add_mod, Nat.mod_eq_of_lt (by omega)]

theorem ringbuffRead_refused (refused : bufSz < rSz ∨ r.getUseSize < rSz) :
    ringbuffRead r rSz bufSz = some (r, -1, []) := by
  unfold ringbuffRead
  by_cases tooSmall : rSz > bufSz
  · rw [if_pos tooSmall]
  · rw [if_neg tooSmall, if_pos (refused.resolve_left tooSmall)]

theorem ringbuffRead_eq_some (room : rSz ≤ bufSz) (enough : rSz ≤ r.getUseSize)
    (within : r.head + rSz ≤ r.size) :
    ∃ next, ringbuffRead r rSz bufSz = some (next, toInt rSz, (unread r).take rSz) ∧
      unread next = (unread r).drop rSz := by
  have inside : r.head < r.size := r.headInside
  have reaches : r.head ≤ r.buff.length := Nat.le_of_lt inside
  have stays : rSz ≤ (r.buff.drop r.head).length := by
    rw [List.length_drop]
    unfold Ringbuf.size at within
    omega
  have bytes : (r.buff.drop r.head).take rSz = (unread r).take rSz := by
    unfold unread
    rw [List.take_take, Nat.min_eq_left enough, List.rotate_eq_drop_append_take reaches,
      List.take_append_of_le_length stays]
  refine ⟨_, by rw [ringbuffRead, if_neg (Nat.not_lt.mpr room), if_neg (Nat.not_lt.mpr enough),
    if_pos within, bytes], ?_⟩
  have useSize : (r.size - (r.head + rSz) % r.size + r.tail) % r.size = r.getUseSize - rSz := by
    rw [useSize_eq] at enough ⊢
    rw [← sub_mod_of_le enough]
    rcases Nat.lt_or_eq_of_le within with before | atEnd
    · rw [Nat.mod_eq_of_lt before]
      congr 1
      omega
    · rw [atEnd, Nat.mod_self, Nat.sub_zero, Nat.add_mod_left]
      congr 1
      omega
  unfold unread
  rw [useSize_eq]
  simp only [Ringbuf.size] at useSize ⊢
  have below := @useSize_lt r
  have turned : (r.buff.rotate r.head).length = r.size := List.length_rotate ..
  rw [useSize, List.rotate_mod, ← List.rotate_rotate, List.drop_take,
    List.rotate_eq_drop_append_take (by omega), List.take_append_of_le_length]
  rw [List.length_drop, turned]
  omega

theorem toInt_of_lt (small : rSz < 2 ^ 31) : toInt rSz = rSz := by
  unfold toInt
  rw [Int.bmod_eq_of_le] <;> omega

theorem toInt_toNat_lt (large : 2 ^ 31 ≤ rSz) : (toInt rSz).toNat < rSz := by
  have below : toInt rSz < (2 ^ 32 + 1) / 2 := Int.bmod_lt (by decide)
  omega

theorem ringbuffRead_fault (room : rSz ≤ bufSz) (enough : rSz ≤ r.getUseSize)
    (beyond : ¬ r.head + rSz ≤ r.size) : ringbuffRead r rSz bufSz = none := by
  rw [ringbuffRead, if_neg (Nat.not_lt.mpr room), if_neg (Nat.not_lt.mpr enough), if_neg beyond]

/-- A read that is not refused hands over as much as it takes out exactly if the
count fits an `int`. -/
theorem length_returned_read (enough : rSz ≤ r.getUseSize) :
    (returned (toInt rSz) ((unread r).take rSz)).length + ((unread r).drop rSz).length = r.getUseSize ↔
      rSz < 2 ^ 31 := by
  unfold returned
  rw [List.length_take, List.length_take, List.length_drop, length_unread]
  constructor
  · intro same
    by_contra large
    have short := toInt_toNat_lt (Nat.le_of_not_lt large)
    omega
  · intro small
    rw [toInt_of_lt small, Int.toNat_natCast]
    omega

/-- A read that is not refused hands over what it takes out exactly if the count fits an `int`. -/
theorem returned_read (enough : rSz ≤ r.getUseSize) :
    returned (toInt rSz) ((unread r).take rSz) ++ (unread r).drop rSz = unread r ↔ rSz < 2 ^ 31 := by
  constructor
  · intro same
    rw [← length_returned_read enough, ← List.length_append, same, length_unread]
  · intro small
    unfold returned
    rw [toInt_of_lt small, Int.toNat_natCast, List.take_take, Nat.min_self, List.take_append_drop]

/-- A read ends well exactly if it is refused, or stays inside the array with a
count that fits an `int`, where that is what a good end of a read comes down to. -/
theorem ringbuffRead_meets_iff {good : Ringbuf → Int → List UInt8 → Prop}
    (refusal : good r (-1) [])
    (taken : ∀ next, rSz ≤ r.getUseSize → unread next = (unread r).drop rSz →
      (good next (toInt rSz) ((unread r).take rSz) ↔ rSz < 2 ^ 31)) :
    (∃ next result bytes, ringbuffRead r rSz bufSz = some (next, result, bytes) ∧
        good next result bytes) ↔
      bufSz < rSz ∨ r.getUseSize < rSz ∨ (r.head + rSz ≤ r.size ∧ rSz < 2 ^ 31) := by
  rw [← or_assoc]
  by_cases refused : bufSz < rSz ∨ r.getUseSize < rSz
  · exact ⟨fun _ => .inl refused, fun _ => ⟨r, _, _, ringbuffRead_refused refused, refusal⟩⟩
  · rw [or_iff_right refused]
    rw [not_or, Nat.not_lt, Nat.not_lt] at refused
    by_cases within : r.head + rSz ≤ r.size
    · obtain ⟨next, reads, isUnread⟩ := ringbuffRead_eq_some refused.1 refused.2 within
      rw [← taken next refused.2 isUnread, reads]
      constructor
      · rintro ⟨other, result, bytes, same, kept⟩
        obtain ⟨rfl, results⟩ := Prod.mk.inj (Option.some.inj same)
        obtain ⟨rfl, rfl⟩ := Prod.mk.inj results
        exact ⟨within, kept⟩
      · intro both
        exact ⟨next, _, _, rfl, both.2⟩
    · simp [ringbuffRead_fault refused.1 refused.2 within, within]

/-! ### Lines -/

/-- The scan stops at the newline, or where its bounds are, or beyond the array. -/
theorem linePos_eq (r : Ringbuf) (pos left : Nat) :
    linePos r pos left =
      if newline ∈ (r.buff.drop (r.head + pos)).take left then
        some (pos + ((r.buff.drop (r.head + pos)).take left).idxOf newline)
      else if r.head + pos + left ≤ r.size ∨ left = 0 then some (pos + left) else none := by
  induction left generalizing pos with
  | zero => simp [linePos]
  | succ left inductionHypothesis =>
      unfold linePos
      cases found : r.buff[r.head + pos]? with
      | none =>
          have outside : r.size ≤ r.head + pos := List.getElem?_eq_none_iff.mp found
          rw [List.drop_of_length_le outside]
          rw [if_neg (by simp), if_neg (by omega)]
      | some byte =>
          obtain ⟨inside, isByte⟩ := List.getElem?_eq_some_iff.mp found
          rw [List.drop_eq_getElem_cons inside, isByte, List.take_succ_cons]
          by_cases isNewline : byte = newline
          · subst isNewline
            simp
          · simp only [isNewline, if_false]
            rw [inductionHypothesis, Nat.add_assoc r.head pos 1]
            have below : r.head + pos < r.size := inside
            by_cases member : newline ∈ (r.buff.drop (r.head + (pos + 1))).take left
            · rw [if_pos member, if_pos (List.mem_cons_of_mem _ member),
                List.idxOf_cons_ne _ isNewline]
              congr 1
              omega
            · have notAhead : newline ∉ byte :: (r.buff.drop (r.head + (pos + 1))).take left := by
                rw [List.mem_cons, not_or]
                exact ⟨fun same => isNewline same.symm, member⟩
              rw [if_neg member, if_neg notAhead]
              by_cases within : r.head + pos + (left + 1) ≤ r.size
              · rw [if_pos (.inl (by omega)), if_pos (.inl within), Nat.add_assoc, Nat.add_comm 1]
              · rw [if_neg (by omega), if_neg (by omega)]

theorem ringbufferReadline_idle (idle : r.isEmpty ∨ bufSz = 0) :
    ringbufferReadline r bufSz = some (r, 0, []) := by
  unfold ringbufferReadline
  rw [if_pos (by simpa using idle)]

theorem length_ahead_le : (ahead r bufSz).length ≤ min r.getUseSize bufSz ∧
    (ahead r bufSz).length ≤ r.size - r.head := by
  unfold ahead
  rw [List.length_take, List.length_drop]
  exact ⟨Nat.min_le_left _ _, Nat.min_le_right _ _⟩

/-- The scan leaves the position of the newline, or else the bound it ran up to. -/
theorem linePos_ahead (r : Ringbuf) (bufSz : Nat) :
    linePos r 0 (min r.getUseSize bufSz) =
      if newline ∈ ahead r bufSz then some ((ahead r bufSz).idxOf newline)
      else if r.head + min r.getUseSize bufSz ≤ r.size then some (min r.getUseSize bufSz) else none := by
  have inside : r.head < r.size := r.headInside
  have scan := linePos_eq r 0 (min r.getUseSize bufSz)
  rw [Nat.add_zero, Nat.zero_add, Nat.zero_add] at scan
  have bounds : (r.head + min r.getUseSize bufSz ≤ r.size ∨ min r.getUseSize bufSz = 0) ↔
      r.head + min r.getUseSize bufSz ≤ r.size := by
    omega
  rw [if_congr bounds rfl rfl] at scan
  exact scan

/-- A newline is read up to; a scan that finds none asks for one byte too many
and is refused, or has run off the array. -/
theorem ringbufferReadline_eq (busy : ¬ (r.isEmpty ∨ bufSz = 0)) :
    ringbufferReadline r bufSz =
      if newline ∈ ahead r bufSz then ringbuffRead r ((ahead r bufSz).idxOf newline + 1) bufSz
      else if r.head + min r.getUseSize bufSz ≤ r.size then some (r, -1, []) else none := by
  unfold ringbufferReadline
  rw [if_neg (by simpa using busy), linePos_ahead]
  by_cases found : newline ∈ ahead r bufSz
  · rw [if_pos found, if_pos found]
  · rw [if_neg found, if_neg found]
    by_cases within : r.head + min r.getUseSize bufSz ≤ r.size
    · rw [if_pos within, if_pos within]
      exact ringbuffRead_refused (by omega)
    · rw [if_neg within, if_neg within]

/-- What a found newline says about the bytes up to it. -/
theorem idxOf_ahead_lt (found : newline ∈ ahead r bufSz) :
    (ahead r bufSz).idxOf newline + 1 ≤ bufSz ∧ (ahead r bufSz).idxOf newline + 1 ≤ r.getUseSize ∧
      r.head + ((ahead r bufSz).idxOf newline + 1) ≤ r.size := by
  have before := List.idxOf_lt_length_of_mem found
  have inside : r.head < r.size := r.headInside
  have short := @length_ahead_le r bufSz
  omega

/-- The same for a line, which a scan of the bytes ahead comes before. -/
theorem ringbufferReadline_meets_iff {good : Ringbuf → Int → List UInt8 → Prop}
    (refusal : ∀ result, good r result [])
    (reads : ∀ rSz, (∃ next result bytes, ringbuffRead r rSz bufSz = some (next, result, bytes) ∧
        good next result bytes) ↔
      bufSz < rSz ∨ r.getUseSize < rSz ∨ (r.head + rSz ≤ r.size ∧ rSz < 2 ^ 31)) :
    (∃ next result bytes, ringbufferReadline r bufSz = some (next, result, bytes) ∧
        good next result bytes) ↔
      Lossless r (.readline bufSz) := by
  simp only [Lossless]
  rw [← or_assoc]
  by_cases idle : r.isEmpty ∨ bufSz = 0
  · exact ⟨fun _ => .inl idle, fun _ => ⟨r, _, _, ringbufferReadline_idle idle, refusal _⟩⟩
  · rw [or_iff_right idle, ringbufferReadline_eq idle]
    by_cases found : newline ∈ ahead r bufSz
    · have bounds := idxOf_ahead_lt found
      rw [if_pos found, if_pos found, reads]
      omega
    · rw [if_neg found, if_neg found]
      by_cases within : r.head + min r.getUseSize bufSz ≤ r.size
      · rw [if_pos within]
        exact ⟨fun _ => within, fun _ => ⟨r, _, _, rfl, refusal _⟩⟩
      · simp [within]

/-! ### Whole runs -/

theorem fifo_wrote {next : Ringbuf} (fifo : Fifo r events) :
    Fifo next (events ++ [.wrote data]) ↔ unread next = unread r ++ data := by
  unfold Fifo at fifo ⊢
  simp only [written, readBytes, List.flatMap_append, List.flatMap_singleton, List.append_nil] at fifo ⊢
  rw [fifo, List.append_assoc, List.append_cancel_left_eq]
  exact eq_comm

theorem fifo_read {next : Ringbuf} {bytes : List UInt8} (fifo : Fifo r events) :
    Fifo next (events ++ [.read bytes]) ↔ bytes ++ unread next = unread r := by
  unfold Fifo at fifo ⊢
  simp only [written, readBytes, List.flatMap_append, List.flatMap_singleton, List.append_nil] at fifo ⊢
  rw [fifo, List.append_assoc, List.append_cancel_left_eq]
  exact eq_comm

theorem fifo_refused (fifo : Fifo r events) (result : Int) :
    Fifo r (events ++ [.read (returned result [])]) := by
  rw [fifo_read fifo, returned, List.take_nil, List.nil_append]

theorem read_fifo_iff (fifo : Fifo r events) (rSz bufSz : Nat) :
    (∃ next result bytes, ringbuffRead r rSz bufSz = some (next, result, bytes) ∧
        Fifo next (events ++ [.read (returned result bytes)])) ↔
      bufSz < rSz ∨ r.getUseSize < rSz ∨ (r.head + rSz ≤ r.size ∧ rSz < 2 ^ 31) := by
  apply ringbuffRead_meets_iff (fifo_refused fifo _)
  intro next enough isUnread
  rw [fifo_read fifo, isUnread, returned_read enough]

/-- A line is read with its newline; a scan that finds none asks for one byte
too many and is refused. -/
theorem readline_fifo_iff (fifo : Fifo r events) (bufSz : Nat) :
    (∃ next result bytes, ringbufferReadline r bufSz = some (next, result, bytes) ∧
        Fifo next (events ++ [.read (returned result bytes)])) ↔
      Lossless r (.readline bufSz) :=
  ringbufferReadline_meets_iff (fifo_refused fifo) fun rSz => read_fifo_iff fifo rSz bufSz

theorem showRead_meets_iff {good : Ringbuf → List Event → Prop}
    (outcome : Option (Ringbuf × Int × List UInt8)) :
    (∃ next shown, outcome.map showRead = some (next, shown) ∧ good next shown) ↔
      ∃ next result bytes, outcome = some (next, result, bytes) ∧
        good next [.read (returned result bytes)] := by
  cases outcome with
  | none => simp
  | some found =>
      obtain ⟨next, result, bytes⟩ := found
      simp [showRead]

/-- One call, taken where no byte is lost yet. -/
theorem step_fifo_iff (fifo : Fifo r events) (call : Call) :
    (∃ next shown, step r call = some (next, shown) ∧ Fifo next (events ++ shown)) ↔ Lossless r call := by
  cases call with
  | write data =>
      by_cases refused : r.getRemain < data.length
      · refine ⟨fun _ => .inl refused, fun _ => ⟨r, [], ?_, by simpa using fifo⟩⟩
        simp only [step, ringbuffWrite_refused refused]
        rfl
      · simp only [Lossless, refused, false_or]
        by_cases within : r.head + data.length ≤ r.size
        · obtain ⟨next, writes, useSize, isUnread⟩ :=
            ringbuffWrite_eq_some (Nat.le_of_not_lt refused) within
          have steps : step r (.write data) = some (next, [.wrote data]) := by
            simp only [step, writes, if_true]
          have exact := unread_write (Nat.le_of_not_lt refused) useSize isUnread
          rw [← fifo_wrote fifo] at exact
          constructor
          · rintro ⟨other, shown, stepsOther, fifoOther⟩
            obtain ⟨rfl, rfl⟩ := Prod.mk.inj (Option.some.inj (steps.symm.trans stepsOther))
            exact ⟨(exact.mp fifoOther).1, within, (exact.mp fifoOther).2⟩
          · rintro ⟨room, -, undisturbed⟩
            exact ⟨next, _, steps, exact.mpr ⟨room, undisturbed⟩⟩
        · have faults : step r (.write data) = none := by
            simp only [step, ringbuffWrite, if_neg refused, dif_neg within]
          simp [faults, within]
  | read rSz bufSz => exact (showRead_meets_iff _).trans (read_fifo_iff fifo rSz bufSz)
  | readline bufSz => exact (showRead_meets_iff _).trans (readline_fifo_iff fifo bufSz)
  | clear =>
      have emptied : unread (ringbuffClear r) = [] := by
        rw [unread, useSize_clear, List.take_zero]
      have isEmpty : unread r = [] ↔ r.getUseSize = 0 := by
        rw [← length_unread, List.length_eq_zero_iff]
      simp only [Lossless, step, Option.some.injEq, Prod.mk.injEq, existsAndEq, and_true, true_and,
        List.append_nil, ← isEmpty]
      unfold Fifo at fifo ⊢
      rw [fifo, emptied, List.append_cancel_left_eq]

/-- The calls on a fresh buffer lose, repeat and reorder no byte exactly when
each of them is lossless. -/
theorem completes_fifo_iff_lossless {size : Nat} (positive : 0 < size) (granted : size ≤ ptrdiffMax)
    (calls : List Call) :
    (machine (ringbuffCreate size positive granted)).Completes Fifo calls ↔
      (machine (ringbuffCreate size positive granted)).Guarded Lossless calls := by
  apply @Machine.completes_iff_guarded _ _ _ _ fun _ _ => True
  · refine ⟨trivial, ?_⟩
    simp [Fifo, written, readBytes, unread, machine, useSize_create]
  · intro r events call _ fifo
    exact step_fifo_iff fifo call
  · intros
    trivial

/-! ### Runs that lose bytes and runs that do not -/

def eightBytes : Ringbuf := ringbuffCreate 8 (by decide) (by decide)

/-- Two lines go in at once and come out one by one. -/
def twoLines : List Call := [.write [1, 10, 2, 10], .readline 8, .readline 8]

theorem twoLines_completes_iff :
    (machine eightBytes).Completes Fifo twoLines ↔ (machine eightBytes).Guarded Lossless twoLines :=
  completes_fifo_iff_lossless (by decide) (by decide) twoLines

/-- The second write lands on the first one. -/
theorem writeTwice_not_fifo : ¬ (machine eightBytes).Completes Fifo [.write [1], .write [2]] := by
  rintro ⟨-, always⟩
  have exec := (machine eightBytes).exec_of_isSome [.write [1], .write [2]] rfl
  have fifo := always.last exec
  exact absurd fifo (by unfold Fifo; decide)

end SimpleBasicComponents.RingBuffer
